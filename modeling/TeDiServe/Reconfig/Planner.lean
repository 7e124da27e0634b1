import TeDiServe.Reconfig.Commands

/-!
# The first configuration and the plans

The first configuration gives every executor that was asked for its bundles on the
node with the fewest bundles assigned. Later configurations are planned by two
optimisers. The first one chooses how many executors of every TP degree there are,
once freely and once with the counts of the current configuration; the second one
finds bundles for the chosen counts and keeps as many executors as it can.

The optimisers are not modelled. Their answers are arguments: `AbstractPlan` is an
answer of the first, `SlotValues` are the values of the variables of the second. What
is modelled is how a configuration is read off them and when it is adopted.
-/

namespace TeDiServe

/-! ## `get_initial_config` -/

/-- The loop variables of `get_initial_config`. -/
structure Assigning where
  config : ExecutorConfig
  usedBundles : OrderedSet ℕ
  nodeAssignedCount : Dict String ℤ

def Assigning.available (nodeToBundles : Dict String (List ℕ)) (x : Assigning) (nodeIp : String) :
    List ℕ :=
  (nodeToBundles.getD nodeIp []).filter (· ∉ x.usedBundles)

/-- Give `numGpus` bundles to the executor `meId`, on the node with the fewest bundles
assigned that has enough. -/
def assignExecutor (nodeToBundles : Dict String (List ℕ)) (x : Assigning) (meId : ExecutorId)
    (numGpus : ℤ) : Except PyError Assigning := do
  let sortedNodes ← sortedByKey (fun n => .ok (x.nodeAssignedCount.getD n 0)) nodeToBundles.keys
  match sortedNodes.find? fun n => numGpus ≤ (x.available nodeToBundles n).length with
  | some nodeIp =>
      let bundles := sliceTo (x.available nodeToBundles nodeIp) numGpus
      pure
        { config := x.config.set meId bundles
          usedBundles := bundles.foldl OrderedSet.add x.usedBundles
          nodeAssignedCount :=
            x.nodeAssignedCount.set nodeIp (x.nodeAssignedCount.getD nodeIp 0 + numGpus) }
  | none => throw .runtime

/-- With the fake backend every executor has a bundle of its own that does not exist. -/
def getInitialConfig (nodeToBundles : Dict String (List ℕ)) (fake : Bool)
    (numGpusPerModelExecutor : Dict ExecutorId ℤ) : Except PyError ExecutorConfig := do
  if fake then
    pure (numGpusPerModelExecutor.keys.foldl (fun c e => c.set e [e]) .empty)
  else
    let x ← numGpusPerModelExecutor.entries.foldlM
      (fun x y => assignExecutor nodeToBundles x y.1 y.2) ⟨.empty, .empty, .empty⟩
    pure x.config

/-! ## `get_minimum_movement_config` -/

structure Slot where
  node : String
  tpDegree : ℕ
  index : ℕ
  deriving DecidableEq, Repr

/-- The values of the binary variables: the slots in use, the bundles of every slot,
and the slots that the old executors are kept in. -/
structure SlotValues where
  u : Slot → Bool
  a : Slot → ℕ → Bool
  mKeep : ExecutorId → ℕ → Bool

structure ExecInfo where
  node : String
  tpDegree : ℕ
  bundles : List ℕ
  deriving DecidableEq, Repr

def requiredCounts (xNg : Dict (String × ℕ) ℕ) : Dict ℕ ℕ :=
  xNg.entries.foldl
    (fun d x => if 0 < x.2 then d.set x.1.2 (d.getD x.1.2 0 + x.2) else d) .empty

def bundleToNode (nodeToBundles : Dict String (List ℕ)) : Dict ℕ String :=
  nodeToBundles.entries.foldl (fun d x => x.2.foldl (fun d b => d.set b x.1) d) .empty

/-- Old executors without bundles are left out; the others have to be on one node. -/
def oldExecInfo (nodeToBundles : Dict String (List ℕ)) (oldConfig : ExecutorConfig) :
    Except PyError (Dict ExecutorId ExecInfo) :=
  oldConfig.entries.foldlM (fun d x =>
    if x.2 = [] then pure d
    else do
      let nodes ← x.2.mapM (subscript (bundleToNode nodeToBundles) .bundleToNode)
      match nodes.dedup with
      | [n] => pure (d.set x.1 ⟨n, x.2.length, x.2.insertionSort (· ≤ ·)⟩)
      | _ => throw .value) .empty

def slotCapacities (nodeToBundles : Dict String (List ℕ)) (candidateTpDegree : List ℕ) :
    Except PyError (Dict (String × ℕ) ℕ) :=
  nodeToBundles.entries.foldlM (fun caps x =>
    candidateTpDegree.foldlM (fun caps g =>
      if g = 0 then pure caps
      else do
        pyAssert (x.2.length % g = 0)
        pure (if 0 < x.2.length / g then caps.set (x.1, g) (x.2.length / g) else caps)) caps)
    .empty

def slotsOf (caps : Dict (String × ℕ) ℕ) : List Slot :=
  caps.entries.flatMap fun x => (List.range x.2).map fun k => ⟨x.1.1, x.1.2, k⟩

/-- What building the constraints checks: there are slots for every required TP degree
and for every old executor. -/
def checkCapacities (caps : Dict (String × ℕ) ℕ) (candidateTpDegree : List ℕ)
    (required : Dict ℕ ℕ) (info : Dict ExecutorId ExecInfo) : Except PyError Unit := do
  if ∃ g ∈ candidateTpDegree, (∀ s ∈ slotsOf caps, s.tpDegree ≠ g) ∧ required.getD g 0 ≠ 0 then
    throw .runtime
  pyAssert (∀ x ∈ info.entries, 0 < caps.getD (x.2.node, x.2.tpDegree) 0)

/-- The slots in use with their bundles, which have to be as many as the TP degree. -/
def usedSlots (nodeToBundles : Dict String (List ℕ)) (caps : Dict (String × ℕ) ℕ)
    (v : SlotValues) : Except PyError (List (Slot × List ℕ)) :=
  ((slotsOf caps).filter v.u).mapM fun s =>
    let bundles := (nodeToBundles.getD s.node []).filter (v.a s)
    if bundles.length ≠ s.tpDegree then throw .runtime
    else pure (s, bundles.insertionSort (· ≤ ·))

def keepExecutor (caps : Dict (String × ℕ) ℕ) (v : SlotValues) (used : List (Slot × List ℕ))
    (x : ExecutorConfig × OrderedSet Slot) (e : ExecutorId) (i : ExecInfo) :
    ExecutorConfig × OrderedSet Slot :=
  match (List.range (caps.getD (i.node, i.tpDegree) 0)).find? (v.mKeep e) with
  | none => x
  | some k =>
      match used.find? fun y => y.1 = ⟨i.node, i.tpDegree, k⟩ with
      | none => x
      | some y => (x.1.set e y.2, x.2.add y.1)

/-- `max(E) + 1`, or 0 without executors. -/
def nextId (oldConfig : ExecutorConfig) : ExecutorId :=
  match oldConfig.keys with
  | [] => 0
  | e :: es => es.foldl max e + 1

def fillSlot (assignedSlots : OrderedSet Slot) (x : ExecutorConfig × ExecutorId)
    (y : Slot × List ℕ) : ExecutorConfig × ExecutorId :=
  if y.1 ∈ assignedSlots then x else (x.1.set x.2 y.2, x.2 + 1)

def getMinimumMovementConfig (nodeToBundles : Dict String (List ℕ)) (candidateTpDegree : List ℕ)
    (xNg : Dict (String × ℕ) ℕ) (oldConfig : ExecutorConfig) (v : SlotValues) :
    Except PyError ExecutorConfig := do
  let info ← oldExecInfo nodeToBundles oldConfig
  let caps ← slotCapacities nodeToBundles candidateTpDegree
  checkCapacities caps candidateTpDegree (requiredCounts xNg) info
  let used ← usedSlots nodeToBundles caps v
  pyAssert ((used.map fun y => y.2.length).sum = nodeToBundles.values.flatten.length)
  let kept := info.entries.foldl (fun x y => keepExecutor caps v used x y.1 y.2) (.empty, .empty)
  pure (used.foldl (fillSlot kept.2) (kept.1, nextId oldConfig)).1

/-! ## `plan_reconfiguration` -/

/-- An answer of `get_maximum_confidence_abstract_config`: the counts, the number of
solutions found, and the confidence and the slack of the solution. -/
structure AbstractPlan where
  xNg : Dict (String × ℕ) ℕ
  solCount : ℕ
  objectives : Option (ℚ × ℚ)

structure PlannerAnswers where
  free : AbstractPlan
  fixed : AbstractPlan
  slots : SlotValues

/-- Whether the configuration of the free counts is taken: the current counts have no
solution, or the free one is better by more than a tenth. -/
def adoptsFree (a : PlannerAnswers) : Bool :=
  if a.fixed.solCount = 0 then true
  else
    match a.free.objectives, a.fixed.objectives with
    | some (confFree, slackFree), some (confFixed, slackFixed) =>
        confFree > confFixed * (11 / 10) ∨
          confFree ≥ confFixed ∧ slackFree > slackFixed * (11 / 10)
    | _, _ => false

/-- The checks at the end: every bundle is assigned once, and kept executors keep their
bundles. -/
def checkPlan (nodeToBundles : Dict String (List ℕ)) (currentConfig newConfig : ExecutorConfig) :
    Except PyError Unit := do
  let assigned := newConfig.values.flatten
  let all := nodeToBundles.values.flatten
  pyAssert (assigned.insertionSort (· ≤ ·) = all.insertionSort (· ≤ ·))
  pyAssert assigned.Nodup
  pyAssert (∀ x ∈ newConfig.entries, ∀ y ∈ currentConfig.entries, x.1 = y.1 →
    x.2 ⊆ y.2 ∧ y.2 ⊆ x.2)

/-- `plan_reconfiguration`, as `reconfig()` calls it, with the current configuration to
compare with. Without workload nothing changes. -/
def planReconfiguration (nodeToBundles : Dict String (List ℕ)) (candidateTpDegree : List ℕ)
    (hasWorkload : Bool) (currentConfig : ExecutorConfig) (answers : PlannerAnswers) :
    Except PyError ExecutorConfig := do
  if !hasWorkload then pure currentConfig
  else
    let newConfigFree ← getMinimumMovementConfig nodeToBundles candidateTpDegree answers.free.xNg
      currentConfig answers.slots
    let newConfig := if adoptsFree answers then newConfigFree else currentConfig
    checkPlan nodeToBundles currentConfig newConfig
    pure newConfig

end TeDiServe

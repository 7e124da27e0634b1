import TeDiServe.Basic
import TeDiServe.Library.Components
import TeDiServe.Library.TaskGraph

/-!
# Reconfiguration commands

A configuration gives every executor its bundles. To get from one configuration to
another, the resource manager builds commands: one kill for every executor that is
not in the new configuration, one launch for every executor that is not in the old
one, and a dummy that starts the others. A command waits for its parents and, when
it is done, notifies its children.

There are two ways to build the commands. The parallel one lets every launch wait
for the kills whose bundles it needs. The sequential one groups kills and launches
into stages by the bundles that they share and lets the kills of a stage wait for
the launches of the stage before.
-/

namespace TeDiServe

abbrev ExecutorConfig := Dict ExecutorId (List ℕ)

/-- The keys of the commands; `dummy` is the executor id -1 of the source. -/
inductive CommandId
  | dummy
  | executor (e : ExecutorId)
  deriving DecidableEq, Repr

inductive CommandKind
  | noop
  | kill
  | launch (bundleIds : List ℕ)
  deriving DecidableEq, Repr

structure SetOrder where
  order : List ExecutorId → List ExecutorId
  perm : ∀ l, (order l).Perm l

@[simp] theorem SetOrder.mem_order (ord : SetOrder) (l : List ExecutorId) (e : ExecutorId) :
    e ∈ ord.order l ↔ e ∈ l :=
  (ord.perm l).mem_iff

def overlaps (bs bs' : List ℕ) : Bool := bs.any (· ∈ bs')

theorem overlaps_iff (bs bs' : List ℕ) : overlaps bs bs' = true ↔ ∃ b, b ∈ bs ∧ b ∈ bs' := by
  simp [overlaps]

def toKill (old new : ExecutorConfig) : List ExecutorId := old.keys.filter (· ∉ new)

def toLaunch (old new : ExecutorConfig) : List ExecutorId := new.keys.filter (· ∉ old)

@[simp] theorem mem_toKill (old new : ExecutorConfig) (e : ExecutorId) :
    e ∈ toKill old new ↔ e ∈ old ∧ e ∉ new := by
  simp [toKill, Dict.mem_def]

@[simp] theorem mem_toLaunch (old new : ExecutorConfig) (e : ExecutorId) :
    e ∈ toLaunch old new ↔ e ∈ new ∧ e ∉ old := by
  simp [toLaunch, Dict.mem_def]

/-- A kill of `k` and a launch of `l` that need a common bundle. Both lookups of the
source find their key. -/
def sharesBundle (old new : ExecutorConfig) (k l : ExecutorId) : Bool :=
  overlaps (new.getD l []) (old.getD k [])

structure ReconfigCommands where
  cmds : Dict CommandId CommandKind
  parents : Dict CommandId (OrderedSet CommandId)
  children : Dict CommandId (OrderedSet CommandId)

namespace ReconfigCommands

def create (old new : ExecutorConfig) : ReconfigCommands :=
  let launches := (toLaunch old new).foldl
    (fun d e => d.set (.executor e) (.launch (new.getD e []))) Dict.empty
  let kills := (toKill old new).foldl (fun d e => d.set (.executor e) .kill) launches
  { cmds := kills.set .dummy .noop, parents := .empty, children := .empty }

def parentsOf (g : ReconfigCommands) (c : CommandId) : OrderedSet CommandId :=
  g.parents.getD c .empty

def childrenOf (g : ReconfigCommands) (c : CommandId) : OrderedSet CommandId :=
  g.children.getD c .empty

def addEdge (g : ReconfigCommands) (p c : CommandId) : ReconfigCommands :=
  { g with
    parents := g.parents.set c ((g.parentsOf c).add p)
    children := g.children.set p ((g.childrenOf p).add c) }

def graph (g : ReconfigCommands) : TaskGraph CommandId where
  parents := g.parentsOf
  children := g.childrenOf

end ReconfigCommands

open ReconfigCommands

def linkOverlap (old new : ExecutorConfig) (g : ReconfigCommands) (k l : ExecutorId) :
    ReconfigCommands :=
  if sharesBundle old new k l then g.addEdge (.executor k) (.executor l) else g

def createStagewiseParallelCommand (ord : SetOrder) (old new : ExecutorConfig) :
    ReconfigCommands :=
  let kills := ord.order (toKill old new)
  let launches := ord.order (toLaunch old new)
  let g := launches.foldl (fun g l => kills.foldl (fun g k => linkOverlap old new g k l) g)
    (create old new)
  -- a command without parents gets the dummy as its parent
  (ord.order (launches ++ kills)).foldl
    (fun g e => if .executor e ∈ g.parents then g else g.addEdge .dummy (.executor e)) g

structure Stage where
  kills : List ExecutorId
  launches : List ExecutorId
  deriving DecidableEq, Repr

def linkAdjacent (adj : Dict ExecutorId (OrderedSet ExecutorId)) (k l : ExecutorId) :
    Dict ExecutorId (OrderedSet ExecutorId) :=
  let adj := adj.set k ((adj.getD k .empty).add l)
  adj.set l ((adj.getD l .empty).add k)

def adjacency (old new : ExecutorConfig) (kills launches : List ExecutorId) :
    Dict ExecutorId (OrderedSet ExecutorId) :=
  kills.foldl (fun adj k => launches.foldl (fun adj l =>
    if sharesBundle old new k l then linkAdjacent adj k l else adj) adj) .empty

def neighbours (ord : SetOrder) (adj : Dict ExecutorId (OrderedSet ExecutorId))
    (u : ExecutorId) : List ExecutorId :=
  ord.order (adj.getD u .empty).items

def stageOf (kills comp : List ExecutorId) : Stage :=
  { kills := comp.filter (· ∈ kills), launches := comp.filter (· ∉ kills) }

/-- The connected components of the bundle overlap graph. A component holds the node
that its search began with, so none is empty. -/
def buildStages (ord : SetOrder) (old new : ExecutorConfig) : List Stage :=
  let kills := ord.order (toKill old new)
  let launches := ord.order (toLaunch old new)
  let adj := adjacency old new kills launches
  (Components.componentsOf (neighbours ord adj) (kills ++ launches)).map (stageOf kills)

/-- The dependencies of one stage: its kills wait for the stage before, its launches
for the kills that they share a bundle with. -/
def wireStage (old new : ExecutorConfig) (g : ReconfigCommands) (prevStage : List CommandId)
    (stage : Stage) : ReconfigCommands :=
  let g := stage.kills.foldl (fun g k =>
    prevStage.foldl (fun g p => g.addEdge p (.executor k)) g) g
  stage.launches.foldl (fun g l =>
    stage.kills.foldl (fun g k => linkOverlap old new g k l) g) g

def wireStages (old new : ExecutorConfig) :
    ReconfigCommands → List CommandId → List Stage → ReconfigCommands
  | g, _, [] => g
  | g, prevStage, stage :: stages =>
      wireStages old new (wireStage old new g prevStage stage)
        (stage.launches.map .executor) stages

def createStagewiseSequentialCommand (ord : SetOrder) (old new : ExecutorConfig) :
    ReconfigCommands :=
  wireStages old new (create old new) [.dummy] (buildStages ord old new)

/-- One reconfiguration: the configuration that is recorded and the commands that
lead to it. `initialConfig` is used when there is no executor yet, `planned` is the
plan of the planner. On a single node a plan that kills all executors at once is
not carried out. -/
def reconfig (ord : SetOrder) (nodeToBundles : Dict String (List ℕ))
    (config initialConfig planned : ExecutorConfig) : ExecutorConfig × ReconfigCommands :=
  if config.keys.length = 0 then
    (initialConfig, createStagewiseParallelCommand ord config initialConfig)
  else
    let tmpCmd := createStagewiseSequentialCommand ord config planned
    let newConfig :=
      if nodeToBundles.keys.length = 1 ∧
          (tmpCmd.childrenOf .dummy).items.length = config.keys.length then config
      else planned
    (newConfig, createStagewiseSequentialCommand ord config newConfig)

end TeDiServe

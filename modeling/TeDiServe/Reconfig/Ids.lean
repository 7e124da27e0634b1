import TeDiServe.Engine.Loop
import TeDiServe.Placement.Effect
import TeDiServe.Reconfig.Downtime
import TeDiServe.Reconfig.Plans

/-!
# Executor ids

The id of a new executor is one more than the largest id of the current configuration,
not than the largest id ever used. It is new all the same: a plan uses every bundle, so
the bundles of an executor that goes are given to a new one, and with it the largest id
of the configuration does not decrease.

An executor without bundles would go without leaving anything to a new one. Such an
executor does not outlive the start of the engine: the scheduler knows no throughput for
its TP degree and cannot be built.
-/

namespace TeDiServe

open ExecutorConfig ReconfigCommands TaskGraph

def candidateTpDegree : List ℕ := [4, 2, 1]

/-- The node of every bundle of the placement group, the executors asked for, whether
they are fake, and the configuration of the scheduler, which has latency profiles for
the candidate TP degrees only. -/
structure Cluster (κ : Type) where
  nodeIps : List (Option String)
  numGpusPerModelExecutor : Dict ExecutorId ℤ
  fake : Bool
  cfg : Config κ
  degrees : ∀ d ∈ cfg.tpDegreeToThroughputSupply.keys, d ∈ candidateTpDegree

variable {κ : Type}

def Cluster.reconfigure (cl : Cluster κ) (config : ExecutorConfig) (ord : SetOrder)
    (hasWorkload : Bool) (answers : PlannerAnswers) :
    Except PyError (ExecutorConfig × ReconfigCommands) :=
  let bundles := nodeToBundles cl.nodeIps
  if config.keys.length = 0 then do
    let initialConfig ← getInitialConfig bundles cl.fake cl.numGpusPerModelExecutor
    pure (reconfig ord bundles config initialConfig .empty)
  else do
    let planned ← planReconfiguration bundles candidateTpDegree hasWorkload config answers
    pure (reconfig ord bundles config .empty planned)

/-- The configuration that is recorded, the executors, the commands of the last
reconfiguration with their execution, whether the engine has started, and the ids
launched so far, the last first. -/
structure Reconfiguring where
  config : ExecutorConfig
  manager : ExecutorsManager
  commands : ReconfigCommands
  execution : Execution CommandId
  engineStarted : Bool
  launched : List ExecutorId

inductive ReconfigEvent where
  | startEngine
  | reconfig (ord : SetOrder) (hasWorkload : Bool) (answers : PlannerAnswers)
  | enter (c : CommandId)
  | finish (c : CommandId)

def performing {α : Type} (x : Except Fault α) : Except Halt α :=
  x.mapError fun
    | .blocked => .blocked
    | _ => .raised .assertion

namespace Reconfiguring

/-- A launch begins with the assertion that its id was never used, a kill is announced. -/
def beginCommand (m : ExecutorsManager) :
    CommandId → Option CommandKind → Except PyError ExecutorsManager
  | .executor e, some (.launch _) => do
      pyAssert (e ∉ m.usedExecutorIds)
      pure m
  | .executor e, some .kill => m.announceKill e
  | _, _ => pure m

def endCommand (t : Reconfiguring) :
    CommandId → Option CommandKind → Except PyError Reconfiguring
  | .executor e, some (.launch bundleIds) => do
      let m ← t.manager.launchExecutor e bundleIds
      pure { t with manager := m, launched := e :: t.launched }
  | .executor e, some .kill => pure { t with manager := t.manager.deleteExecutor e }
  | _, _ => pure t

def isDone (t : Reconfiguring) : Bool :=
  t.execution.spawned = [] ∧ ∀ c ∈ t.execution.started, c ∈ t.execution.finished

/-- When the first commands have been carried out, the rest of `EngineCore.__init__`
builds the scheduler and looks at the executor 0. After that, a reconfiguration begins
when the one before has been carried out. -/
def next (cl : Cluster κ) (t : Reconfiguring) : ReconfigEvent → Except Halt Reconfiguring
  | .startEngine =>
      if t.isDone ∧ t.engineStarted = false then do
        let _ ← raising ((Scheduler.empty t.manager).updateExecutors cl.cfg)
        let _ ← raising (subscript t.manager.executors .executors 0)
        pure { t with engineStarted := true }
      else throw .blocked
  | .reconfig ord hasWorkload answers =>
      if t.isDone ∧ t.engineStarted = true then do
        let x ← raising (cl.reconfigure t.config ord hasWorkload answers)
        pure { t with config := x.1, commands := x.2, execution := x.2.graph.start .dummy }
      else throw .blocked
  | .enter c => do
      let x ← performing (t.commands.graph.act t.execution (.enter c))
      let m ← raising (beginCommand t.manager c (t.commands.cmds.get? c))
      pure { t with manager := m, execution := x }
  | .finish c => do
      let x ← performing (t.commands.graph.act t.execution (.finish c))
      let t' ← raising (t.endCommand c (t.commands.cmds.get? c))
      pure { t' with execution := x }

def start (ord : SetOrder) (c : ExecutorConfig) : Reconfiguring :=
  ⟨c, .empty, createStagewiseParallelCommand ord .empty c,
    (createStagewiseParallelCommand ord .empty c).graph.start .dummy, false, []⟩

/-- The first configuration may be any in which executors do not share bundles. -/
def Init (t : Reconfiguring) : Prop :=
  ∃ (ord : SetOrder) (c : ExecutorConfig), c.DisjointBundles ∧ t = start ord c

/-- What `get_initial_config` returns is such a configuration: its commands can be carried out,
are carried out in full in whatever order, and no two executors hold a bundle at a time. -/
theorem first_launch_safe (cl : Cluster κ) (ord : SetOrder) :
    (getInitialConfig (nodeToBundles cl.nodeIps) cl.fake cl.numGpusPerModelExecutor).Ensures
      (fun _ => True) fun c => Init (start ord c) ∧ Completes .empty c (start ord c).commands ∧
        ∀ x, (start ord c).commands.graph.Reachable .dummy x → ∀ e e' bs bs',
          Live .empty (start ord c).commands x e bs → Live .empty (start ord c).commands x e' bs' →
          e ≠ e' → ∀ b ∈ bs, b ∉ bs' := by
  apply (ensures_getInitialConfig _ _ _).imp
  intro c hc
  refine ⟨⟨ord, c, hc, rfl⟩, parallel_completes ord .empty c, fun x hx e e' bs bs' he he' hne => ?_⟩
  exact (ordered_parallel ord .empty c).disjoint_live hx (fun _ hno => nomatch hno) hc
    (fun _ hno => nomatch hno) he he' hne

abbrev Reachable (cl : Cluster κ) : Reconfiguring → Prop :=
  Transition.Reachable Init fun t ev t' => t.next cl ev = .ok t'

end Reconfiguring

/-! ## The scheduler is built -/

namespace Scheduler

variable {cfg : Config κ} {s : Scheduler κ} {e : ExecutorId}

theorem ensures_addExecutor_degree (hkey : s.executorsManager.Keyed) :
    (s.addExecutor cfg e).Ensures (fun _ => True) fun s' =>
      s'.executorsManager = s.executorsManager ∧
        (∀ e', e' ∈ s'.executorStates → e' = e ∨ e' ∈ s.executorStates) ∧
        ∀ x, s.executorsManager.executors.get? e = some x →
          x.bundleIds.length ∈ cfg.tpDegreeToThroughputSupply := by
  unfold addExecutor
  apply ensures_bind_any
  intro _
  rw [ensures_bind, ensures_subscript]
  refine ⟨fun x hx => ?_, fun _ => trivial⟩
  rw [hkey e x hx]
  unfold refreshSupply
  apply ensures_bind_any
  intro d
  unfold updateThroughputSupply
  rw [ensures_bind]
  have hone : ∀ es ∈ (s.executorStates.set e (ExecutorState.ofExecutor x)).values,
      (subscript cfg.tpDegreeToThroughputSupply .throughputSupply es.tpDegree).Ensures
        (fun _ => True) fun _ => es.tpDegree ∈ cfg.tpDegreeToThroughputSupply := by
    intro es _
    rw [ensures_subscript]
    exact ⟨fun _ hd => Dict.mem_of_get? hd, fun _ => trivial⟩
  apply (ensures_mapM (R := fun es _ => es.tpDegree ∈ cfg.tpDegreeToThroughputSupply)
    _ hone).imp
  intro ts hts
  refine ⟨rfl, fun e' he' => (Dict.mem_set _ _ _ _).mp he', ?_⟩
  intro x' hx'
  obtain rfl : x = x' := Option.some.inj (hx.symm.trans hx')
  have hin : ExecutorState.ofExecutor x ∈
      (s.executorStates.set e (ExecutorState.ofExecutor x)).values :=
    List.mem_map.mpr ⟨(e, ExecutorState.ofExecutor x),
      (Dict.mem_entries_iff _ _ _).mpr (Dict.get?_set_self _ _ _), rfl⟩
  obtain ⟨_, -, hdegree⟩ := exists_mem_zip_of_forall2 hts hin
  exact hdegree

/-- A scheduler is built only if the TP degrees of all executors are known. -/
theorem ensures_updateExecutors_degree {m : ExecutorsManager} (hkey : m.Keyed) :
    ((Scheduler.empty m : Scheduler κ).updateExecutors cfg).Ensures (fun _ => True) fun _ =>
      ∀ e x, m.executors.get? e = some x →
        x.bundleIds.length ∈ cfg.tpDegreeToThroughputSupply := by
  unfold updateExecutors
  rw [ensures_bind]
  -- an executor is still to be looked at, or the throughput of its TP degree is known
  refine (ensures_foldlM_rest (E := fun _ => True)
    (fun rest (s : Scheduler κ) => s.executorsManager = m ∧
      (∀ e, e ∈ s.executorStates → ∀ x, m.executors.get? e = some x →
        x.bundleIds.length ∈ cfg.tpDegreeToThroughputSupply) ∧
      ∀ e x, m.executors.get? e = some x →
        e ∈ rest ∨ x.bundleIds.length ∈ cfg.tpDegreeToThroughputSupply) ?_ _ _
    ⟨rfl, fun e he => absurd he (Dict.not_mem_empty e),
      fun e x hx => Or.inl (Dict.mem_of_get? hx)⟩).imp ?_
  · rintro s e rest ⟨hman, hrec, hall⟩
    have hrest : (∀ x, m.executors.get? e = some x →
        x.bundleIds.length ∈ cfg.tpDegreeToThroughputSupply) → ∀ e' x,
        m.executors.get? e' = some x →
          e' ∈ rest ∨ x.bundleIds.length ∈ cfg.tpDegreeToThroughputSupply := by
      intro hdone e' x hx
      rcases hall e' x hx with hmem | hdegree
      · rcases List.mem_cons.mp hmem with rfl | hmem
        · exact Or.inr (hdone x hx)
        · exact Or.inl hmem
      · exact Or.inr hdegree
    split_ifs with he
    · exact ⟨hman, hrec, hrest (hrec e he)⟩
    · apply (ensures_addExecutor_degree (hman ▸ hkey)).imp
      rintro s' ⟨hman', hstates, hdegree⟩
      rw [hman] at hdegree hman'
      refine ⟨hman', ?_, hrest hdegree⟩
      intro e' he' x hx
      rcases hstates e' he' with rfl | he'
      · exact hdegree x hx
      · exact hrec e' he' x hx
  · rintro s ⟨-, -, hall⟩
    have hdone : ∀ e x, m.executors.get? e = some x →
        x.bundleIds.length ∈ cfg.tpDegreeToThroughputSupply :=
      fun e x hx => (hall e x hx).resolve_left List.not_mem_nil
    cases s.executorStates.keys.foldlM (fun s e =>
        if isGone s.executorsManager e then s.removeExecutor cfg e else pure s) s with
    | error err => trivial
    | ok s' => exact hdone

end Scheduler

/-! ## The invariant -/

namespace Reconfiguring

variable {cl : Cluster κ} {t t' : Reconfiguring} {e : ExecutorId} {bs : List ℕ}

/-- The ids launched so far are bounded by those of the configuration, and a launch that
has not finished has a new one. Before the engine starts, the executors are those of the
launches that have finished; after that, all executors have bundles. -/
structure Fresh (t : Reconfiguring) : Prop where
  running : t.commands.graph.Reachable .dummy t.execution
  made : (∃ ord, t.commands = createStagewiseParallelCommand ord .empty t.config) ∨
    t.engineStarted = true ∧
      ∃ ord old, t.commands = createStagewiseSequentialCommand ord old t.config
  disjoint : t.config.DisjointBundles
  keyed : t.manager.Keyed
  known : ∀ e, e ∈ t.manager.executors → e ∈ t.launched
  used : ∀ e, e ∈ t.manager.usedExecutorIds ↔ e ∈ t.launched
  starting : t.engineStarted = false → ∀ e bs,
    t.commands.cmds.get? (.executor e) = some (.launch bs) →
      .executor e ∈ t.execution.finished →
      ∃ x, t.manager.executors.get? e = some x ∧ x.bundleIds = bs
  serving : t.engineStarted = true →
    t.launched ≠ [] ∧ ∀ e bs, t.config.get? e = some bs → bs ≠ []
  bounded : ∀ e ∈ t.launched, ∃ e' ∈ t.config, e ≤ e'
  fresh : ∀ e bs, t.commands.cmds.get? (.executor e) = some (.launch bs) →
    .executor e ∉ t.execution.finished → e ∉ t.launched
  nodup : t.launched.Nodup

theorem Fresh.ordered (h : Fresh t) : ∃ old R, Ordered old t.config R t.commands := by
  rcases h.made with ⟨ord, hc⟩ | ⟨-, ord, old, hc⟩
  · rw [hc]
    exact ⟨_, _, ordered_parallel ord .empty t.config⟩
  · rw [hc]
    exact ⟨_, _, ordered_sequential ord old t.config⟩

theorem Fresh.orderly (h : Fresh t) :
    Execution.Orderly t.commands.graph .dummy [] t.execution := by
  obtain ⟨old, R, ho⟩ := h.ordered
  exact orderly_of_reachable ho.wellFormed h.running

theorem Fresh.get?_of_launch (h : Fresh t)
    (hl : t.commands.cmds.get? (.executor e) = some (.launch bs)) :
    t.config.get? e = some bs := by
  obtain ⟨old, R, ho⟩ := h.ordered
  exact ((ho.edges.isLaunch_iff e bs).mp hl).1

theorem Fresh.not_kill (h : Fresh t) (hstart : t.engineStarted = false) :
    t.commands.cmds.get? (.executor e) ≠ some .kill := by
  intro hk
  rcases h.made with ⟨ord, hc⟩ | ⟨hs, -⟩
  · rw [hc] at hk
    exact Dict.not_mem_empty e
      (((ordered_parallel ord .empty t.config).edges.isKill_iff e).mp hk).1
  · rw [hstart] at hs
    cases hs

theorem fresh_of_init (h : Init t) : Fresh t := by
  obtain ⟨ord, c, hdisj, rfl⟩ := h
  refine ⟨.start rfl, .inl ⟨ord, rfl⟩, hdisj, ExecutorsManager.keyed_empty, ?_, ?_, ?_, ?_, ?_,
    fun _ _ _ _ => List.not_mem_nil, List.nodup_nil⟩
  · exact fun e he => absurd he (Dict.not_mem_empty e)
  · exact fun e => iff_of_false (OrderedSet.not_mem_empty e) List.not_mem_nil
  · intro _ e bs _ hfin
    cases hfin
  · exact fun hs => Bool.noConfusion hs
  · intro e he
    cases he

/-- When the engine starts, every executor of the configuration has bundles. -/
theorem Fresh.ensures_startEngine (h : Fresh t) (cl : Cluster κ) :
    (t.next cl .startEngine).Ensures (fun _ => True) Fresh := by
  simp only [next]
  by_cases hnow : t.isDone = true ∧ t.engineStarted = false
  · obtain ⟨hdone, hstart⟩ := hnow
    have hterm : t.execution.Terminal := by
      rw [isDone, decide_eq_true_eq] at hdone
      exact hdone
    rw [if_pos ⟨hdone, hstart⟩, ensures_bind, Loop.ensures_raising]
    apply (Scheduler.ensures_updateExecutors_degree h.keyed).imp
    intro _ hdegrees
    rw [ensures_bind, Loop.ensures_raising, ensures_subscript]
    refine ⟨fun x₀ hx₀ => ?_, fun _ => trivial⟩
    have hne : ∀ e bs, t.config.get? e = some bs → bs ≠ [] := by
      intro e bs he
      rcases h.made with ⟨ord, hc⟩ | ⟨hs, -⟩
      · have hrun := h.running
        rw [hc] at hrun
        obtain ⟨-, hlaunched, -⟩ := (parallel_completes ord .empty t.config).2 _ hrun hterm
        obtain ⟨⟨bs', hbs'⟩, hfin⟩ :=
          (hlaunched e).mpr ⟨Dict.mem_of_get? he, Dict.not_mem_empty e⟩
        rw [← hc] at hbs'
        obtain rfl : bs' = bs := Option.some.inj ((h.get?_of_launch hbs').symm.trans he)
        obtain ⟨x, hx, rfl⟩ := h.starting hstart e bs' hbs' hfin
        -- no candidate TP degree is zero
        intro hnil
        have hdegree := cl.degrees _ (hdegrees e x hx)
        rw [hnil] at hdegree
        revert hdegree
        decide
      · rw [hstart] at hs
        cases hs
    refine ⟨h.running, ?_, h.disjoint, h.keyed, h.known, h.used, ?_, ?_, h.bounded, h.fresh,
      h.nodup⟩
    · exact h.made.imp_right fun hm => ⟨rfl, hm.2⟩
    · exact fun hs => Bool.noConfusion hs
    · exact fun _ => ⟨List.ne_nil_of_mem (h.known 0 (Dict.mem_of_get? hx₀)), hne⟩
  · rw [if_neg hnow]
    trivial

/-- The largest id does not decrease: when its executor goes, a larger one comes. -/
theorem exists_le_of_planned {nodeToBundles : Dict String (List ℕ)} {old new : ExecutorConfig}
    (hp : Planned nodeToBundles old new) (hdisj : old.DisjointBundles)
    (hne : ∀ e bs, old.get? e = some bs → bs ≠ []) {e' : ExecutorId} (he' : e' ∈ old)
    (hle : e ≤ e') : ∃ e'' ∈ new, e ≤ e'' := by
  by_cases hnew : e' ∈ new
  · exact ⟨e', hnew, hle⟩
  · have hkill : e' ∈ toKill old new := (mem_toKill old new e').mpr ⟨he', hnew⟩
    obtain ⟨bs, hbs⟩ := (old.mem_iff_exists e').mp he'
    have hbundles : old.getD e' [] ≠ [] := by
      rw [Dict.getD_of_get? hbs]
      exact hne e' bs hbs
    obtain ⟨l, hl, -⟩ := exists_launch_of_bundles hdisj hp.within hp.usesOnce hp.retains hkill
      hbundles
    exact ⟨l, ((mem_toLaunch old new l).mp hl).1, hle.trans (hp.larger l hl e' he').le⟩

theorem Fresh.renew (h : Fresh t) (hstart : t.engineStarted = true) (ord : SetOrder)
    {nodeToBundles : Dict String (List ℕ)} {new : ExecutorConfig}
    (hnew : new = t.config ∨ Planned nodeToBundles t.config new) :
    Fresh
      { t with
        config := new
        commands := createStagewiseSequentialCommand ord t.config new
        execution := (createStagewiseSequentialCommand ord t.config new).graph.start .dummy } := by
  have ho := ordered_sequential ord t.config new
  obtain ⟨hlaunched, hne⟩ := h.serving hstart
  refine ⟨.start rfl, .inr ⟨hstart, ord, t.config, rfl⟩, ?_, h.keyed, h.known, h.used, ?_, ?_,
    ?_, ?_, h.nodup⟩
  · rcases hnew with rfl | hp
    · exact h.disjoint
    · exact hp.usesOnce.disjoint
  · intro _ e bs _ hfin
    cases hfin
  · intro _
    refine ⟨hlaunched, ?_⟩
    rcases hnew with rfl | hp
    · exact hne
    · exact hp.nonempty
  · intro e he
    obtain ⟨e', he', hle⟩ := h.bounded e he
    rcases hnew with rfl | hp
    · exact ⟨e', he', hle⟩
    · exact exists_le_of_planned hp h.disjoint hne he' hle
  · intro e bs hl _ he
    obtain ⟨hget, hold⟩ := (ho.edges.isLaunch_iff e bs).mp hl
    obtain ⟨e', he', hle⟩ := h.bounded e he
    rcases hnew with rfl | hp
    · exact hold (Dict.mem_of_get? hget)
    · have hlaunch : e ∈ toLaunch t.config new :=
        (mem_toLaunch _ _ e).mpr ⟨Dict.mem_of_get? hget, hold⟩
      exact absurd (hp.larger e hlaunch e' he') (Nat.not_lt.mpr hle)

theorem Fresh.ensures_reconfig (h : Fresh t) (cl : Cluster κ) (ord : SetOrder)
    (hasWorkload : Bool) (answers : PlannerAnswers) :
    (t.next cl (.reconfig ord hasWorkload answers)).Ensures (fun _ => True) Fresh := by
  simp only [next]
  by_cases hnow : t.isDone = true ∧ t.engineStarted = true
  · rw [if_pos hnow, ensures_bind, Loop.ensures_raising]
    -- some executor was launched, so the configuration is not empty
    have hempty : t.config.keys.length ≠ 0 := by
      obtain ⟨e, he⟩ := List.exists_mem_of_ne_nil _ (h.serving hnow.2).1
      obtain ⟨e', he', -⟩ := h.bounded e he
      exact fun hlen => List.ne_nil_of_mem he' (List.eq_nil_of_length_eq_zero hlen)
    unfold Cluster.reconfigure
    dsimp only
    rw [if_neg hempty, ensures_bind]
    apply (ensures_planReconfiguration candidateTpDegree hasWorkload answers).imp
    intro planned hp
    unfold reconfig
    rw [if_neg hempty]
    dsimp only
    split_ifs
    · have hsame : t.config = t.config ∨
          Planned (nodeToBundles cl.nodeIps) t.config t.config := .inl rfl
      exact h.renew hnow.2 ord hsame
    · exact h.renew hnow.2 ord hp
  · rw [if_neg hnow]
    trivial

/-! ## The commands -/

theorem ensures_beginCommand (m : ExecutorsManager) (c : CommandId) (k : Option CommandKind) :
    (beginCommand m c k).Ensures (fun _ => True) fun m' =>
      m'.usedExecutorIds = m.usedExecutorIds ∧ m'.executors = m.executors := by
  unfold beginCommand
  split
  · apply ensures_bind_any
    exact fun _ => ⟨rfl, rfl⟩
  · next e =>
    apply (ExecutorsManager.ensures_announceKill m e).imp
    rintro m' ⟨hexec, hused, -⟩
    exact ⟨hused, hexec⟩
  · exact ⟨rfl, rfl⟩

theorem ensures_performing {α : Type} (x : Except Fault α) (Q : α → Prop) :
    (performing x).Ensures (fun _ => True) Q ↔ x.Ensures (fun _ => True) Q := by
  cases x <;> rfl

theorem Fresh.ensures_enter (h : Fresh t) (cl : Cluster κ) (c : CommandId) :
    (t.next cl (.enter c)).Ensures (fun _ => True) Fresh := by
  simp only [next]
  rw [ensures_bind, ensures_performing]
  cases hact : t.commands.graph.act t.execution (.enter c) with
  | error f => trivial
  | ok x =>
      have hfinished : x.finished = t.execution.finished := by
        simp only [act, enter] at hact
        split_ifs at hact
        cases hact
        rfl
      rw [ensures_ok, ensures_bind, Loop.ensures_raising]
      apply (ensures_beginCommand t.manager c _).imp
      rintro m ⟨hused, hexec⟩
      refine ⟨h.running.next hact, h.made, h.disjoint, ?_, ?_, ?_, ?_, h.serving, h.bounded, ?_,
        h.nodup⟩
      · intro e x' hx'
        rw [hexec] at hx'
        exact h.keyed e x' hx'
      · intro e he
        dsimp only at he
        rw [hexec] at he
        exact h.known e he
      · intro e
        dsimp only
        rw [hused]
        exact h.used e
      · intro hstart e bs hl hfin
        dsimp only at hfin ⊢
        rw [hfinished] at hfin
        rw [hexec]
        exact h.starting hstart e bs hl hfin
      · intro e bs hl hnot
        dsimp only at hnot
        rw [hfinished] at hnot
        exact h.fresh e bs hl hnot

theorem Fresh.finish_launch (h : Fresh t) {x : Execution CommandId} {m : ExecutorsManager}
    (hrun : t.commands.graph.Reachable .dummy x)
    (hfinished : x.finished = .executor e :: t.execution.finished)
    (hdue : .executor e ∉ t.execution.finished)
    (hkind : t.commands.cmds.get? (.executor e) = some (.launch bs)) (hkey : m.Keyed)
    (hexec : m.executors = t.manager.executors.set e ⟨e, bs, .idle⟩)
    (hused : m.usedExecutorIds = t.manager.usedExecutorIds.add e) :
    Fresh { t with manager := m, launched := e :: t.launched, execution := x } := by
  have hnew : e ∉ t.launched := h.fresh e bs hkind hdue
  refine ⟨hrun, h.made, h.disjoint, hkey, ?_, ?_, ?_, ?_, ?_, ?_,
    List.nodup_cons.mpr ⟨hnew, h.nodup⟩⟩
  · intro e' he'
    dsimp only at he' ⊢
    rw [hexec, Dict.mem_set] at he'
    rw [List.mem_cons]
    exact he'.imp_right (h.known e')
  · intro e'
    dsimp only
    rw [hused, OrderedSet.mem_add, h.used, List.mem_cons]
  · intro hstart e' bs' hl hfin
    dsimp only at hl hfin ⊢
    rw [hexec, Dict.get?_set]
    by_cases heq : e' = e
    · subst heq
      rw [hkind, Option.some.injEq, CommandKind.launch.injEq] at hl
      exact ⟨_, if_pos rfl, hl⟩
    · rw [if_neg heq]
      rw [hfinished, List.mem_cons] at hfin
      exact h.starting hstart e' bs' hl
        (hfin.resolve_left fun hc => heq (CommandId.executor.inj hc))
  · exact fun hstart => ⟨List.cons_ne_nil _ _, (h.serving hstart).2⟩
  · intro e' he'
    rcases List.mem_cons.mp he' with rfl | he'
    · exact ⟨e', Dict.mem_of_get? (h.get?_of_launch hkind), le_rfl⟩
    · exact h.bounded e' he'
  · intro e' bs' hl hnot hmem
    dsimp only at hnot
    rw [hfinished, List.mem_cons, not_or] at hnot
    rcases List.mem_cons.mp hmem with rfl | hmem
    · exact hnot.1 rfl
    · exact h.fresh e' bs' hl hnot.2 hmem

theorem Fresh.finish_other (h : Fresh t) {x : Execution CommandId} {m : ExecutorsManager}
    {c : CommandId} (hrun : t.commands.graph.Reachable .dummy x)
    (hfinished : x.finished = c :: t.execution.finished)
    (hkind : ∀ e bs, c = .executor e → t.commands.cmds.get? c ≠ some (.launch bs))
    (hkey : m.Keyed) (hexec : ∀ e, e ∈ m.executors → e ∈ t.manager.executors)
    (hused : m.usedExecutorIds = t.manager.usedExecutorIds)
    (hstarting : t.engineStarted = false → m.executors = t.manager.executors) :
    Fresh { t with manager := m, execution := x } := by
  refine ⟨hrun, h.made, h.disjoint, hkey, fun e he => h.known e (hexec e he), ?_, ?_, h.serving,
    h.bounded, ?_, h.nodup⟩
  · intro e
    dsimp only
    rw [hused]
    exact h.used e
  · intro hstart e bs hl hfin
    dsimp only at hl hfin ⊢
    rw [hstarting hstart]
    rw [hfinished, List.mem_cons] at hfin
    refine h.starting hstart e bs hl (hfin.resolve_left fun hc => ?_)
    exact hkind e bs hc.symm (hc ▸ hl)
  · intro e bs hl hnot
    dsimp only at hnot
    rw [hfinished] at hnot
    exact h.fresh e bs hl fun hmem => hnot (List.mem_cons_of_mem c hmem)

theorem Fresh.ensures_finish (h : Fresh t) (cl : Cluster κ) (c : CommandId) :
    (t.next cl (.finish c)).Ensures (fun _ => True) Fresh := by
  simp only [next]
  rw [ensures_bind, ensures_performing]
  cases hact : t.commands.graph.act t.execution (.finish c) with
  | error f => trivial
  | ok x =>
      have hdue : c ∈ t.execution.started ∧ c ∉ t.execution.finished := by
        by_contra hnot
        simp only [act, finish, if_neg hnot] at hact
        cases hact
      obtain ⟨old, R, ho⟩ := h.ordered
      obtain ⟨-, -, hfinished⟩ := ensures_of_ok
        (h.orderly.ensures_finish ho.wellFormed hdue.1 hdue.2) hact
      have hrun := h.running.next hact
      rw [ensures_ok, ensures_bind, Loop.ensures_raising]
      unfold endCommand
      split
      · next e bs hkind =>
        apply (ExecutorsManager.ensures_launchExecutor h.keyed).bind
        rintro m ⟨hkey, -, hexec, hused, -⟩
        exact h.finish_launch hrun hfinished hdue.2 hkind hkey hexec hused
      · next e hkind =>
        refine h.finish_other hrun hfinished ?_ (h.keyed.deleteExecutor e) ?_ rfl ?_
        · intro e' bs _ hk
          rw [hkind] at hk
          cases hk
        · exact fun e' he' => ((Dict.mem_erase _ _ _).mp he').2
        · exact fun hstart => absurd hkind (h.not_kill hstart)
      · next hlaunch _ =>
        exact h.finish_other hrun hfinished (fun e bs hc hk => hlaunch e bs hc hk) h.keyed
          (fun _ he => he) rfl fun _ => rfl

theorem fresh_of_reachable (h : Reachable cl t) : Fresh t := by
  apply h.invariant
  · exact fun t ht => fresh_of_init ht
  · intro t ev t' _ ht hstep
    cases ev with
    | startEngine => exact ensures_of_ok (ht.ensures_startEngine cl) hstep
    | reconfig ord hasWorkload answers =>
        exact ensures_of_ok (ht.ensures_reconfig cl ord hasWorkload answers) hstep
    | enter c => exact ensures_of_ok (ht.ensures_enter cl c) hstep
    | finish c => exact ensures_of_ok (ht.ensures_finish cl c) hstep

/-- In every sequence of reconfigurations, whatever the optimisers answer and whether
plans are adopted or skipped, no id is launched twice, and as long as a launch has not
finished its id is not one that was ever used: its assertion holds when it begins. -/
theorem executor_ids_fresh (cl : Cluster κ) (h : Reachable cl t) :
    t.launched.Nodup ∧ (∀ e, e ∈ t.manager.usedExecutorIds ↔ e ∈ t.launched) ∧
      ∀ e bs, t.commands.cmds.get? (.executor e) = some (.launch bs) →
        .executor e ∉ t.execution.finished →
        e ∉ t.launched ∧ e ∉ t.manager.usedExecutorIds := by
  have hf := fresh_of_reachable h
  refine ⟨hf.nodup, hf.used, ?_⟩
  intro e bs hl hnot
  have hnew := hf.fresh e bs hl hnot
  exact ⟨hnew, fun hused => hnew ((hf.used e).mp hused)⟩

def replay (cl : Cluster κ) (c : ExecutorConfig) (events : List ReconfigEvent) :
    Except Halt Reconfiguring :=
  events.foldlM (fun t ev => t.next cl ev) (start .insertion c)

theorem reachable_of_replay (cl : Cluster κ) (c : ExecutorConfig) (hc : c.DisjointBundles)
    (events : List ReconfigEvent) :
    (replay cl c events).Ensures (fun _ => True) (Reachable cl) :=
  Transition.ensures_reachable (fun _ _ _ hstep => hstep) events (.start ⟨.insertion, c, hc, rfl⟩)

def fourBundles : Cluster Unit :=
  ⟨[some "n", some "n", some "n", some "n"], .empty, false, Config.small true true none,
    by decide⟩

/-- Every bundle has its executor, and all executors but `newest` are kept. -/
def replacing (newest : ExecutorId) : PlannerAnswers :=
  let plan : AbstractPlan := ⟨Dict.empty.set ("n", 1) 4, 1, some (1, 1)⟩
  ⟨plan, { plan with solCount := 0 },
    ⟨fun slot => slot.tpDegree = 1, fun slot b => slot.tpDegree = 1 ∧ slot.index = b,
      fun e k => e = k ∧ e ≠ newest⟩⟩

def carryOut (l : List CommandId) : List ReconfigEvent :=
  l.flatMap fun c => [.enter c, .finish c]

/-- The newest executor is replaced twice. -/
theorem executor_ids_fresh_small : ∃ t : Reconfiguring, Reachable fourBundles t ∧
    t.launched = [5, 4, 3, 2, 1, 0] ∧ t.launched.Nodup := by
  obtain ⟨t, hreach, hlaunched⟩ :=
      exists_of_ensures
    (reachable_of_replay fourBundles ((((Dict.empty.set 0 [0]).set 1 [1]).set 2 [2]).set 3 [3])
      (by decide +kernel)
      (carryOut [.dummy, .executor 0, .executor 1, .executor 2, .executor 3] ++
        [.startEngine, .reconfig .insertion true (replacing 3)] ++
        carryOut [.dummy, .executor 3, .executor 4] ++
        [.reconfig .insertion true (replacing 4)] ++
        carryOut [.dummy, .executor 4, .executor 5]))
    (Q := fun t => t.launched = [5, 4, 3, 2, 1, 0]) (by decide +kernel)
  exact ⟨t, hreach, hlaunched, (executor_ids_fresh fourBundles hreach).1⟩

end Reconfiguring

end TeDiServe

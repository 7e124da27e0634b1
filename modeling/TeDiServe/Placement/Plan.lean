import TeDiServe.Placement.Ledger

/-!
# From the executors found idle to the tables

`Planned` is what the stages 0, 1, 2 and 5 have decided when stage 6 begins. It
speaks of the placement before the call and of the one that was chosen: on an
executor that was found idle the tables list exactly the residents, nothing is
pending there, and what it has to free is what it had and lost; every other
executor keeps its residents.
-/

namespace TeDiServe

open Round

namespace Scheduler

variable {κ : Type} {cfg : Config κ} {s s₁ s₂ : Scheduler κ} {t : Tables}
  {π π₁ π₂ : Placement} {r : ReqId} {e : ExecutorId} {found : List ExecutorId}

/-! ## Stage 5 -/

theorem Refines.old_executor (h : Refines s π) (hr : r ∈ s.requestStates) :
    ((s.requestStates.mapValues RequestState.executorId).get? r).join = π.resident? r := by
  obtain ⟨l, hl⟩ := h.mem_requestStates_iff.mp hr
  obtain ⟨rs, hrs, hrep⟩ := h.represents hl
  rw [Dict.get?_mapValues, hrs, Option.map_some, Option.join_some, hrep.executorId,
    Placement.resident?, hl, Option.bind_some]

/-- Stage 5 visits every noted request once. Whatever else holds of the requests visited,
and is kept by each visit, holds of all noted requests in the end; and errors that no visit
raises are not raised. -/
theorem ensures_stage5_with (env : ScheduleEnv) {p : Round κ}
    {old : Dict ReqId (Option ExecutorId)} {E : PyError → Prop}
    {J : List ReqId → Scheduler κ → Prop}
    (h : InRound cfg found s₁ π₁ p π₂) (h₁ : Refines s₁ π₁)
    (hcache : ∀ e ∈ s₁.executorStates, e ∈ s₁.kvCacheManagers)
    (hold : ∀ r ∈ s₁.requestStates, (old.get? r).join = π₁.resident? r)
    (hJ : J [] { p.scheduler with confMarkCounter := p.scheduler.confMarkCounter + 1 })
    (hvisit : ∀ done rest s t r, Framed p.scheduler s → r ∉ done →
      r ∈ p.requestsInSchedulerOutput →
      env.setOrder p.requestsInSchedulerOutput.items = done.reverse ++ r :: rest →
      J done s → (finalize cfg found old (s, t) r).Ensures E fun x => J (r :: done) x.1) :
    (stage5 cfg env found old p).Ensures (fun err => Unallocated cfg err ∧ E err) fun x => ∃ done,
      (∀ r, r ∈ done ↔ r ∈ p.requestsInSchedulerOutput) ∧
      Written cfg p.scheduler π₁ π₂ done x.1 x.2 ∧ J done x.1 := by
  have hperm := env.setOrder_perm p.requestsInSchedulerOutput.items
  have hstart : Framed p.scheduler
      { p.scheduler with confMarkCounter := p.scheduler.confMarkCounter + 1 } :=
    ⟨⟨fun _ => rfl, fun _ => rfl, rfl, rfl, fun _ => Iff.rfl, fun _ hr => Or.inl hr, rfl⟩, rfl,
      fun _ => rfl⟩
  have hcaches : ∀ e ∈ p.scheduler.executorStates, e ∈ p.scheduler.kvCacheManagers := by
    intro e he
    rw [h.moved.kept.caches]
    exact hcache e (h.moved.mem_executorStates.mp he)
  unfold stage5
  -- the requests visited and those still to visit are the noted ones
  refine (ensures_foldlM_rest (E := fun err => Unallocated cfg err ∧ E err)
    (fun rest (x : Scheduler κ × Tables) => ∃ done, rest.Nodup ∧ (∀ r ∈ rest, r ∉ done) ∧
      (∀ r, r ∈ done ∨ r ∈ rest ↔ r ∈ p.requestsInSchedulerOutput) ∧
      env.setOrder p.requestsInSchedulerOutput.items = done.reverse ++ rest ∧
      Written cfg p.scheduler π₁ π₂ done x.1 x.2 ∧ J done x.1) ?_ _ _
    ⟨[], hperm.symm.nodup p.requestsInSchedulerOutput.nodup, fun _ _ => List.not_mem_nil, ?_, rfl,
      Written.empty cfg hstart rfl rfl π₁ π₂, hJ⟩).imp ?_
  · rintro ⟨s, t⟩ r rest ⟨done, hnodup, hnot, hall, horder, hw, hj⟩
    obtain ⟨hfresh, hnodup'⟩ := List.nodup_cons.mp hnodup
    have hmem : r ∈ p.requestsInSchedulerOutput := (hall r).mp (Or.inr List.mem_cons_self)
    obtain ⟨hknown, hfound⟩ := h.noted r hmem
    obtain ⟨l, hl⟩ :=
      h.refines.mem_requestStates_iff.mp (h.moved.mem_requestStates.mpr hknown)
    have hhost : ∀ e, π₁ r = some (.running e) → e ∈ p.scheduler.executorStates := by
      intro e he
      exact h.moved.mem_executorStates.mpr (h₁.hosted r e (Placement.host?_of_running he))
    apply ((ensures_finalize hw h.refines hcaches (hnot r List.mem_cons_self) hl (hold r hknown)
      hhost hfound).both
        (hvisit done rest s t r hw.framed (hnot r List.mem_cons_self) hmem horder hj)).imp
    rintro x ⟨hx, hjx⟩
    refine ⟨r :: done, hnodup', ?_, ?_, ?_, hx, hjx⟩
    · intro r' hr' hmem'
      rcases List.mem_cons.mp hmem' with rfl | hmem'
      · exact hfresh hr'
      · exact hnot r' (List.mem_cons_of_mem r hr') hmem'
    · intro r'
      rw [← hall r', List.mem_cons, List.mem_cons]
      tauto
    · rw [horder, List.reverse_cons, List.append_assoc, List.singleton_append]
  · intro r
    simp [hperm.mem_iff, OrderedSet.mem_def]
  · rintro x ⟨done, -, -, hall, -, hw, hj⟩
    exact ⟨done, fun r => by simpa using hall r, hw, hj⟩

theorem ensures_stage5 (env : ScheduleEnv) {p : Round κ} {old : Dict ReqId (Option ExecutorId)}
    (h : InRound cfg found s₁ π₁ p π₂) (h₁ : Refines s₁ π₁)
    (hcache : ∀ e ∈ s₁.executorStates, e ∈ s₁.kvCacheManagers)
    (hold : ∀ r ∈ s₁.requestStates, (old.get? r).join = π₁.resident? r) :
    (stage5 cfg env found old p).Ensures (Unallocated cfg) fun x => ∃ done,
      (∀ r, r ∈ done ↔ r ∈ p.requestsInSchedulerOutput) ∧
      Written cfg p.scheduler π₁ π₂ done x.1 x.2 := by
  have hvisit : ∀ (done rest : List ReqId) (s : Scheduler κ) (t : Tables) (r : ReqId),
      Framed p.scheduler s → r ∉ done → r ∈ p.requestsInSchedulerOutput →
      env.setOrder p.requestsInSchedulerOutput.items = done.reverse ++ r :: rest → True →
      (finalize cfg found old (s, t) r).Ensures (fun _ => True) fun _ => True :=
    fun _ _ s t r _ _ _ _ _ => ensures_any _
  apply (ensures_stage5_with env (J := fun _ _ => True) h h₁ hcache hold trivial hvisit).mono
    (fun _ hf => hf.1)
  rintro x ⟨done, hdone, hw, -⟩
  exact ⟨done, hdone, hw⟩

/-- Once every noted request was visited, the tables of an executor that was found
idle are complete. -/
theorem tablesFor_of_written {p : Round κ} {done : List ReqId}
    (hw : Written cfg s₂ π₁ π₂ done s t)
    (hdone : ∀ r, r ∈ done ↔ r ∈ p.requestsInSchedulerOutput) (hcov : Covers p π₂ e) :
    TablesFor cfg π₁ π₂ s t e := by
  have hall : ∀ r, π₂ r = some (.running e) → r ∈ done :=
    fun r hr => (hdone r).mpr (hcov r hr)
  refine ⟨?_, ?_, ?_, ?_, ?_, ?_, hw.nodupNew e, hw.nodupRunning e⟩
  · intro r
    rw [hw.tokens, and_iff_right_of_imp (hall r)]
  · exact hw.shape e
  · rw [hw.present]
    constructor
    · rintro ⟨r, -, hr⟩
      exact ⟨r, hr⟩
    · rintro ⟨r, hr⟩
      exact ⟨r, hall r hr, hr⟩
  · intro r hr
    exact (hw.blocks e r).mpr ⟨hall r hr, hr⟩
  · intro r
    rw [hw.new, and_iff_right_of_imp fun hr => hall r hr.1]
  · intro r
    rw [hw.running, and_iff_right_of_imp fun hr => hall r hr.1]

/-! ## The executors that are looked at -/

/-- The scheduler has a record of exactly the executors that are not being killed. -/
def Synced (s : Scheduler κ) : Prop :=
  ∀ e, e ∈ s.executorStates ↔ ∃ st, s.executorsManager.status? e = some st ∧ st ≠ .killing

theorem Synced.mem_executors (h : Synced s) (he : e ∈ s.executorStates) :
    e ∈ s.executorsManager.executors := by
  obtain ⟨st, hst, -⟩ := (h e).mp he
  exact ExecutorsManager.mem_of_status? hst

theorem mem_executorsWithStatus (s : Scheduler κ) (st : ExecutorStatus) (e : ExecutorId) :
    e ∈ s.executorsWithStatus st ↔ s.executorsManager.status? e = some st := by
  unfold executorsWithStatus
  rw [List.mem_filter, decide_eq_true_eq]
  constructor
  · exact fun h => h.2
  · exact fun h => ⟨ExecutorsManager.mem_of_status? h, h⟩

theorem nodup_executorsWithStatus (s : Scheduler κ) (st : ExecutorStatus) :
    (s.executorsWithStatus st).Nodup :=
  s.executorsManager.executors.nodup_keys.filter _

def ExecutorStatus.considered (st : ExecutorStatus) : ExecutorStatus :=
  if st = .idle ∨ st = .idleNotAcceptingNewRequests then .consideredForScheduling else st

theorem status?_considerIdle (s : Scheduler κ) (e : ExecutorId) :
    s.considerIdle.executorsManager.status? e =
      (s.executorsManager.status? e).map ExecutorStatus.considered := by
  unfold considerIdle ExecutorsManager.status?
  rw [Dict.get?_mapValues]
  cases s.executorsManager.executors.get? e with
  | none => rfl
  | some x =>
      simp only [Option.map_some, ExecutorStatus.considered]
      split_ifs <;> rfl

theorem ensures_schedulableExecutors (found : List ExecutorId)
    (h : ∀ e ∈ s.executorStates, e ∈ s.executorsManager.executors) {E : PyError → Prop} :
    (s.schedulableExecutors found).Ensures E fun l =>
      ∀ e ∈ l, e ∈ s.executorStates ∧ e ∉ found := by
  unfold schedulableExecutors
  rw [ensures_bind]
  have hone : ∀ e ∈ s.executorStates.keys, (do
      let x ← subscript s.executorsManager.executors .executors e
      pure (e, x.status) : Except PyError (ExecutorId × ExecutorStatus)).Ensures E
        fun x => x.1 ∈ s.executorStates := by
    intro e he
    obtain ⟨x, hx⟩ := (Dict.mem_iff_exists _ _).mp (h e he)
    rw [ensures_bind, subscript_of_get? _ hx, ensures_ok]
    exact he
  apply (ensures_mapM_mem _ hone).imp
  intro xs hxs
  rw [ensures_pure]
  intro e he
  obtain ⟨x, hx, rfl⟩ := List.mem_map.mp he
  obtain ⟨hmem, hx⟩ := List.mem_filter.mp hx
  exact ⟨hxs x hmem, (of_decide_eq_true hx).2⟩

/-! ## The plan -/

/-- What is decided when stage 6 begins, from the state `s₁` with placement `π₁` at
the start of the round. -/
structure Planned (cfg : Config κ) (s₁ : Scheduler κ) (π₁ : Placement) (p : Plan κ)
    (π₂ : Placement) : Prop where
  refines : Refines p.scheduler π₂
  kept : Kept s₁ p.scheduler
  manager : p.scheduler.executorsManager = s₁.considerIdle.executorsManager
  idle : p.idleExecutors = s₁.executorsWithStatus .idle
  notAccepting : p.idleNotAcceptingExecutors =
    s₁.executorsWithStatus .idleNotAcceptingNewRequests
  tables : ∀ e ∈ p.found, TablesFor cfg π₁ π₂ p.scheduler p.tables e
  clean : ∀ e ∈ p.found, NoPending π₂ e
  busy : ∀ r e, e ∉ p.found → (π₂ r = some (.running e) ↔ π₁ r = some (.running e))
  pinned : ∀ r req e, s₁.requests.get? r = some req → canMigrate cfg req = false →
    π₁ r = some (.running e) → π₂ r = some (.running e)
  free : ∀ e r, r ∈ p.scheduler.freeReqIds.getD e OrderedSet.empty ↔
    r ∈ s₁.freeReqIds.getD e OrderedSet.empty ∨
      π₁ r = some (.running e) ∧ π₂ r ≠ some (.running e)

/-- How a plan comes about. In the state in which the idle executors are considered,
requests are moved one at a time, and stage 5 writes down what this amounts to.
Without an idle executor nothing is decided. -/
def Derived (cfg : Config κ) (env : ScheduleEnv) (s : Scheduler κ) (π : Placement) (p : Plan κ)
    (π₂ : Placement) : Prop :=
  let start := (s.drainStepEstimateUpdates cfg env.predict).considerIdle
  p.found = [] ∧ π₂ = π ∧ p.scheduler = start ∨
  ∃ q : Round κ, Moves cfg π (start, π) (q.scheduler, π₂) ∧ InRound cfg p.found start π q π₂ ∧
    (∀ e ∈ p.found, Covers q π₂ e) ∧ Framed q.scheduler p.scheduler ∧
    stage5 cfg env p.found (s.requestStates.mapValues RequestState.executorId) q =
      .ok (p.scheduler, p.tables)

theorem planned_of_busy (hsoft : Soft s s₁) (h : Refines s π)
    (hnone : s.executorsWithStatus .idle ++
      s.executorsWithStatus .idleNotAcceptingNewRequests = []) :
    Planned cfg s π
      ⟨s₁.considerIdle, s.executorsWithStatus .idle,
        s.executorsWithStatus .idleNotAcceptingNewRequests, Tables.empty⟩ π := by
  have hmem : ∀ e : ExecutorId, e ∉ s.executorsWithStatus .idle ++
      s.executorsWithStatus .idleNotAcceptingNewRequests := by
    intro e he
    rw [hnone] at he
    cases he
  refine ⟨(hsoft.framed.refines h).of_manager _, ?_, ?_, rfl, rfl, ?_, ?_, fun _ _ _ => Iff.rfl,
    fun _ _ _ _ _ hr => hr, ?_⟩
  · exact (hsoft.framed.of_managers s.executorsManager _).kept
  · simp only [considerIdle, hsoft.executorsManager]
  · exact fun e he => absurd he (hmem e)
  · exact fun e he => absurd he (hmem e)
  · intro e r
    simp only [considerIdle, hsoft.freeReqIds]
    simp

structure Rounded (cfg : Config κ) (found : List ExecutorId) (s₁ : Scheduler κ) (π₁ : Placement)
    (q : Round κ) (π₂ : Placement) : Prop where
  moves : Moves cfg π₁ (s₁, π₁) (q.scheduler, π₂)
  inRound : InRound cfg found s₁ π₁ q π₂
  covers : ∀ e ∈ found, Covers q π₂ e
  clean : ∀ e ∈ found, NoPending π₂ e

def planRound (cfg : Config κ) (idle notAccepting : List ExecutorId) (s : Scheduler κ) :
    Except PyError (Round κ) := do
  let schedulable ← s.schedulableExecutors (idle ++ notAccepting)
  let p ← Round.stage0 (idle ++ notAccepting) ⟨s, schedulable, OrderedSet.empty⟩
  let p ← p.stage1 cfg idle notAccepting
  p.stage2 cfg idle

theorem plan_of_idle (env : ScheduleEnv)
    (h : s.executorsWithStatus .idle ++
      s.executorsWithStatus .idleNotAcceptingNewRequests ≠ []) :
    s.plan cfg env = (do
      let q ← planRound cfg (s.executorsWithStatus .idle)
        (s.executorsWithStatus .idleNotAcceptingNewRequests)
        (s.drainStepEstimateUpdates cfg env.predict).considerIdle
      let x ← stage5 cfg env (s.executorsWithStatus .idle ++
        s.executorsWithStatus .idleNotAcceptingNewRequests)
        (s.requestStates.mapValues RequestState.executorId) q
      pure ⟨x.1, s.executorsWithStatus .idle,
        s.executorsWithStatus .idleNotAcceptingNewRequests, x.2⟩) := by
  have hm := (soft_drainStepEstimateUpdates cfg env.predict s).executorsManager
  have hstatus : ∀ st, (s.drainStepEstimateUpdates cfg env.predict).executorsWithStatus st =
      s.executorsWithStatus st := by
    intro st
    simp only [executorsWithStatus, hm]
  unfold plan planRound
  simp only [hstatus, if_neg h, bind_assoc]

theorem ensures_planRound {idle notAccepting : List ExecutorId} (h₁ : Refines s₁ π)
    (hfound : ∀ e ∈ idle ++ notAccepting, e ∈ s₁.executorStates)
    (hdisj : ∀ e ∈ idle, e ∉ notAccepting) (hnodup : (idle ++ notAccepting).Nodup)
    (hmem : ∀ e ∈ s₁.executorStates, e ∈ s₁.executorsManager.executors) :
    (planRound cfg idle notAccepting s₁).Ensures (Unprofiled cfg (RoundAsks cfg s₁ π)) fun q =>
      ∃ π₂, Rounded cfg (idle ++ notAccepting) s₁ π q π₂ := by
  unfold planRound
  apply (ensures_schedulableExecutors (idle ++ notAccepting) hmem).bind
  intro schedulable hsched
  have hstart : InRound cfg (idle ++ notAccepting) s₁ π
      ⟨s₁, schedulable, OrderedSet.empty⟩ π :=
    ⟨h₁, Moved.refl s₁, fun _ _ _ => Iff.rfl,
      fun r hr => absurd hr (OrderedSet.not_mem_empty r), fun _ _ => rfl,
      fun _ _ _ _ _ hr => hr⟩
  rw [ensures_bind]
  have hsettled : Settling cfg s₁ π s₁ π := ⟨.refl, fun _ => rfl, fun _ _ hr => hr⟩
  apply (ensures_stage0 hstart hsettled hfound).imp
  rintro p₀ ⟨π₀, hin₀, hset₀, hclean₀, hsame⟩
  have hopen : Open cfg idle notAccepting s₁ π p₀ π₀ := by
    refine ⟨hin₀, hclean₀, ?_, ?_⟩
    · intro e he
      rw [hsame] at he
      exact (hsched e he).1
    · intro e he hacc'
      rw [hsame] at he
      exact (hsched e he).2 (List.mem_append_right idle hacc')
  have htrail := hset₀.trail notAccepting fun e he => by
    rw [hsame] at he
    exact (hsched e he).2
  apply (ensures_stage1 hopen htrail hnodup hfound hdisj).bind
  rintro p₁ ⟨π₁, hopen₁, htrail₁, hcov₁⟩
  apply (ensures_stage2 hopen₁ htrail₁).imp
  rintro p₂ ⟨π₂, hopen₂, htrail₂, hcov₂⟩
  exact ⟨π₂, htrail₂.moves, hopen₂.inRound, fun e he => hcov₂ e (hcov₁ e he), hopen₂.clean⟩

theorem idle_of_synced (hsync : Synced s) :
    (∀ e ∈ s.executorsWithStatus .idle ++ s.executorsWithStatus .idleNotAcceptingNewRequests,
      e ∈ s.executorStates) ∧
    (∀ e ∈ s.executorsWithStatus .idle,
      e ∉ s.executorsWithStatus .idleNotAcceptingNewRequests) ∧
    (s.executorsWithStatus .idle ++
      s.executorsWithStatus .idleNotAcceptingNewRequests).Nodup := by
  have hdisj : ∀ e ∈ s.executorsWithStatus .idle,
      e ∉ s.executorsWithStatus .idleNotAcceptingNewRequests := by
    intro e he he'
    rw [mem_executorsWithStatus] at he he'
    rw [he] at he'
    cases he'
  refine ⟨?_, hdisj, ?_⟩
  · intro e he
    rw [hsync e]
    rcases List.mem_append.mp he with he | he
    · rw [mem_executorsWithStatus] at he
      exact ⟨_, he, by decide⟩
    · rw [mem_executorsWithStatus] at he
      exact ⟨_, he, by decide⟩
  · rw [List.nodup_append']
    exact ⟨nodup_executorsWithStatus s _, nodup_executorsWithStatus s _, hdisj⟩

structure Starts (s s₁ : Scheduler κ) : Prop where
  framed : Framed s s₁
  manager : s₁.executorsManager = s.considerIdle.executorsManager
  requests : s₁.requests = s.requests
  kvCacheManagers : s₁.kvCacheManagers = s.kvCacheManagers
  freeReqIds : s₁.freeReqIds = s.freeReqIds

theorem starts_considerIdle (cfg : Config κ) (predict : ReqId → ℚ → ℚ) (s : Scheduler κ) :
    Starts s (s.drainStepEstimateUpdates cfg predict).considerIdle := by
  have hsoft := soft_drainStepEstimateUpdates cfg predict s
  refine ⟨hsoft.framed.of_managers s.executorsManager _, ?_, hsoft.requests,
    hsoft.kvCacheManagers, hsoft.freeReqIds⟩
  simp only [considerIdle, hsoft.executorsManager]

theorem Starts.mem_executors (h : Starts s s₁) (hsync : Synced s) (he : e ∈ s₁.executorStates) :
    e ∈ s₁.executorsManager.executors := by
  rw [h.framed.executorStates] at he
  rw [h.manager, Dict.mem_def]
  simp only [considerIdle, Dict.keys_mapValues]
  exact hsync.mem_executors he

theorem ensures_plan (env : ScheduleEnv) (h : Refines s π) (hl : Ledger cfg s)
    (hsync : Synced s) :
    (s.plan cfg env).Ensures (Raised cfg
      (RoundAsks cfg (s.drainStepEstimateUpdates cfg env.predict).considerIdle π)) fun p => ∃ π₂,
      Planned cfg s π p π₂ ∧ Derived cfg env s π p π₂ := by
  by_cases hnone : s.executorsWithStatus .idle ++
      s.executorsWithStatus .idleNotAcceptingNewRequests = []
  · have hsoft := soft_drainStepEstimateUpdates cfg env.predict s
    have hm := hsoft.executorsManager
    unfold plan
    simp only [executorsWithStatus, hm] at hnone ⊢
    rw [if_pos hnone]
    exact ⟨π, planned_of_busy hsoft h hnone, Or.inl ⟨hnone, rfl, rfl⟩⟩
  · rw [plan_of_idle env hnone]
    have hstarts := starts_considerIdle cfg env.predict s
    obtain ⟨hfound, hdisj, hnodup⟩ := idle_of_synced hsync
    generalize hs₁ : (s.drainStepEstimateUpdates cfg env.predict).considerIdle = s₁ at hstarts
    generalize hidle : s.executorsWithStatus .idle = idle at hfound hdisj hnodup
    generalize hacc : s.executorsWithStatus .idleNotAcceptingNewRequests = notAccepting
      at hfound hdisj hnodup
    have h₁ : Refines s₁ π := hstarts.framed.refines h
    rw [ensures_bind]
    apply (ensures_planRound h₁
      (fun e he => by rw [hstarts.framed.executorStates]; exact hfound e he) hdisj hnodup
      fun e => hstarts.mem_executors hsync).mono (fun _ hf => hf.raised fun _ hn => hn)
    rintro q ⟨π₂, hq⟩
    have hold : ∀ r ∈ s₁.requestStates,
        ((s.requestStates.mapValues RequestState.executorId).get? r).join = π.resident? r := by
      intro r hr
      exact h.old_executor (hstarts.framed.mem_requestStates.mp hr)
    rw [ensures_bind]
    apply (ensures_stage5 env hq.inRound h₁ (hl.of_kept hstarts.framed.kept).caches
      hold).with_eq.mono (fun _ hf => hf.raised)
    rintro ⟨s₂, t⟩ ⟨⟨done, hdone, hw⟩, hok⟩
    refine ⟨π₂, ⟨hw.framed.refines hq.inRound.refines,
      hstarts.framed.kept.trans (hq.inRound.moved.kept.trans hw.framed.kept), ?_, hidle.symm,
      hacc.symm, fun e he => tablesFor_of_written hw hdone (hq.covers e he), hq.clean,
      hq.inRound.busy, ?_, ?_⟩, Or.inr ⟨q, ?_, ?_, hq.covers, hw.framed, hok⟩⟩
    · rw [hw.manager, hq.inRound.moved.executorsManager, hstarts.manager]
    · intro r req e hreq
      exact hq.inRound.pinned r req e (by rw [hstarts.requests]; exact hreq)
    · intro e r
      rw [hw.free, hq.inRound.moved.freeReqIds, hstarts.freeReqIds]
      apply or_congr Iff.rfl
      constructor
      · exact fun hr => hr.2
      · intro hr
        refine ⟨?_, hr⟩
        rw [hdone]
        -- a request that was not noted has the executor it had
        by_contra hnot
        have hres := hq.inRound.unnoted r hnot
        rw [(Placement.resident?_eq_some_iff π r e).mpr hr.1] at hres
        exact hr.2 ((Placement.resident?_eq_some_iff π₂ r e).mp hres)
    · rw [hs₁]
      exact hq.moves
    · rw [hs₁]
      exact hq.inRound

end Scheduler

end TeDiServe

import TeDiServe.Placement.Run

/-!
# Invariants of the records

`Records J K s` says that the record of every request, running or deferred, satisfies
`J`, and the counts of the marks satisfy `K`. Outside of the rounds a record is only taken
off its executors, counted down or refreshed, so such an invariant is kept by every call
but `schedule()` as soon as it survives these.
-/

namespace TeDiServe

/-- `J` survives the end of a placement. -/
structure RequestState.Closed (J : ReqId → RequestState → Prop) : Prop where
  removeExecutor : ∀ {r rs}, J r rs → J r rs.removeExecutor
  removePendingExecutor : ∀ {r rs}, J r rs → J r rs.removePendingExecutor
  removeExecutorToFree : ∀ {r rs} e, J r rs → J r (rs.removeExecutorToFree e)

namespace Scheduler

variable {κ : Type} {cfg : Config κ} {J J' : ReqId → RequestState → Prop}
  {K : Dict ExecutorId ℕ → ℕ → Prop} {s s' : Scheduler κ} {r : ReqId} {e : ExecutorId}

structure Records (J : ReqId → RequestState → Prop) (K : Dict ExecutorId ℕ → ℕ → Prop)
    (s : Scheduler κ) : Prop where
  active : ∀ r rs, s.requestStates.get? r = some rs → J r rs
  deferred : ∀ r rs, s.deferredRequestStates.get? r = some rs → J r rs
  marks : K s.executorConfMarkVersion s.confMarkCounter

namespace Records

theorem mono (h : Records J K s) (hJ : ∀ r rs, J r rs → J' r rs) : Records J' K s :=
  ⟨fun r rs hrs => hJ r rs (h.active r rs hrs), fun r rs hrs => hJ r rs (h.deferred r rs hrs),
    h.marks⟩

theorem empty (J : ReqId → RequestState → Prop) (hK : K Dict.empty 0) (m : ExecutorsManager) :
    Records J K (Scheduler.empty m : Scheduler κ) :=
  ⟨nofun, nofun, hK⟩

section

variable (h : Records J K s)
include h

theorem setActive {rs : RequestState} (hrs : J r rs) :
    Records J K { s with requestStates := s.requestStates.set r rs } := by
  refine ⟨?_, h.deferred, h.marks⟩
  intro r' rs' hrs'
  rcases Dict.get?_set_cases hrs' with ⟨rfl, rfl⟩ | ⟨-, hrs'⟩
  · exact hrs
  · exact h.active r' rs' hrs'

theorem setDeferred {rs : RequestState} (hrs : J r rs) :
    Records J K { s with deferredRequestStates := s.deferredRequestStates.set r rs } := by
  refine ⟨h.active, ?_, h.marks⟩
  intro r' rs' hrs'
  rcases Dict.get?_set_cases hrs' with ⟨rfl, rfl⟩ | ⟨-, hrs'⟩
  · exact hrs
  · exact h.deferred r' rs' hrs'

theorem eraseActive (r : ReqId) : Records J K { s with requestStates := s.requestStates.erase r } :=
  ⟨fun r' rs' hrs' => h.active r' rs' (Dict.get?_erase_cases hrs').2, h.deferred, h.marks⟩

theorem eraseDeferred (r : ReqId) :
    Records J K { s with deferredRequestStates := s.deferredRequestStates.erase r } :=
  ⟨h.active, fun r' rs' hrs' => h.deferred r' rs' (Dict.get?_erase_cases hrs').2, h.marks⟩

theorem of_eq (hact : s'.requestStates = s.requestStates)
    (hdef : s'.deferredRequestStates = s.deferredRequestStates)
    (hver : s'.executorConfMarkVersion = s.executorConfMarkVersion)
    (hcount : s'.confMarkCounter = s.confMarkCounter) : Records J K s' :=
  ⟨hact ▸ h.active, hdef ▸ h.deferred, hver ▸ hcount ▸ h.marks⟩

theorem updateState (r : ReqId) {f : RequestState → RequestState} (hf : ∀ rs, J r rs → J r (f rs)) :
    Records J K (s.updateState r f) := by
  unfold Scheduler.updateState
  split
  · rename_i rs hrs
    exact h.setActive (hf rs (h.active r rs hrs))
  · split
    · rename_i rs hrs
      exact h.setDeferred (hf rs (h.deferred r rs hrs))
    · exact h

end

theorem controlLoad (h : Records J K s) (idx : ReqId → Option ℕ) (m : ℕ)
    (hJ : ∀ r rs i, J r rs → J r { rs with maxConfidenceThresholdIdx := i }) :
    Records J K (s.controlLoad idx m) := by
  refine ⟨?_, ?_, h.marks⟩
  · intro r rs hrs
    dsimp only [Scheduler.controlLoad] at hrs
    rw [Dict.get?_mapEntries] at hrs
    obtain ⟨rs', hrs', rfl⟩ := Option.map_eq_some_iff.mp hrs
    exact hJ r rs' _ (h.active r rs' hrs')
  · intro r rs hrs
    dsimp only [Scheduler.controlLoad] at hrs
    rw [Dict.get?_mapEntries] at hrs
    obtain ⟨rs', hrs', rfl⟩ := Option.map_eq_some_iff.mp hrs
    exact hJ r rs' _ (h.deferred r rs' hrs')

end Records

/-! ## One record -/

section

variable (h : Records J K s)
include h

theorem ensures_modifyRequestState_records {f : RequestState → RequestState}
    (hf : ∀ rs, J r rs → J r (f rs)) :
    (s.modifyRequestState r f).Ensures (fun _ => True) (Records J K) := by
  unfold modifyRequestState
  rw [ensures_bind, ensures_subscript]
  exact ⟨fun rs hrs => h.setActive (hf rs (h.active r rs hrs)), fun _ => trivial⟩

theorem ensures_modifyExecutorState_records (f : ExecutorState → Except PyError ExecutorState) :
    (s.modifyExecutorState e f).Ensures (fun _ => True) (Records J K) :=
  ensures_bind_any _ fun _ => ensures_bind_any _ fun _ => h.of_eq rfl rfl rfl rfl

theorem ensures_modifyRequest_records (f : Request → Request) :
    (s.modifyRequest r f).Ensures (fun _ => True) (Records J K) :=
  ensures_bind_any _ fun _ => h.of_eq rfl rfl rfl rfl

theorem ensures_freeBlocks_records : (s.freeBlocks cfg r e).Ensures (fun _ => True) (Records J K) :=
  ensures_bind_any _ fun _ => h.of_eq rfl rfl rfl rfl

theorem ensures_setExecutorStatus_records (st : ExecutorStatus) :
    (s.setExecutorStatus e st).Ensures (fun _ => True) (Records J K) :=
  ensures_bind_any _ fun _ => h.of_eq rfl rfl rfl rfl

end

/-- `J` survives that a step is counted. -/
def Counts (cfg : Config κ) (J : ReqId → RequestState → Prop) : Prop :=
  ∀ r rs, J r rs → J r
    { rs with
      predNumStepsLeft := cfg.candidateConfidenceThresholds.foldl (fun d c =>
        match d.get? c with
        | some p => if 0 < p then d.set c (p - 1) else d
        | none => d) rs.predNumStepsLeft }

section Closed

variable (hJ : RequestState.Closed J)
include hJ

/-! ## Ending requests -/

theorem ensures_freeRequestOnExecutor_records (cfg : Config κ) (h : Records J K s) (r : ReqId)
    (e : ExecutorId) :
    (freeRequestOnExecutor cfg r s e).Ensures (fun _ => True) (Records J K) := by
  have hs : Records J K
      { s.markFree e r with
        finishedReqIds := (s.markFree e r).finishedReqIds.set e
          (((s.markFree e r).finishedReqIds.getD e OrderedSet.empty).add r) } :=
    h.of_eq rfl rfl rfl rfl
  unfold freeRequestOnExecutor
  refine ensures_bind_any _ fun rs => ensures_bind_any _ fun _ => ?_
  -- the blocks are freed after the record of the executor was dealt with
  have hfree : ∀ s', Records J K s' →
      (do let s ← s'.freeBlocks cfg r e
          let rs ← subscript s.requestStates .requestStates r
          if rs.executorsToFree.isEmpty then do
            let _ ← subscript s.requests .requests r
            pure
              { s with
                requestStates := s.requestStates.erase r
                requests := s.requests.erase r }
          else pure s : Except PyError (Scheduler κ)).Ensures (fun _ => True) (Records J K) := by
    intro s' hs'
    apply (ensures_freeBlocks_records hs').bind
    intro s'' hs''
    apply ensures_bind_any
    intro rs'
    split_ifs
    · exact ensures_bind_any _ fun _ => (hs''.eraseActive r).of_eq rfl rfl rfl rfl
    · exact hs''
  dsimp only
  split_ifs
  · apply (ensures_modifyRequestState_records hs fun _ => hJ.removeExecutor).bind
    intro s' hs'
    exact (ensures_modifyExecutorState_records hs' _).bind hfree
  · exact (ensures_modifyRequestState_records hs fun _ => hJ.removeExecutorToFree e).bind hfree

theorem ensures_freeRequest_records (h : Records J K s) (r : ReqId) :
    (s.freeRequest cfg r).Ensures (fun _ => True) (Records J K) := by
  unfold freeRequest
  refine ensures_bind_any _ fun rs => ensures_bind_any _ fun _ => ?_
  have hfree : ∀ s', Records J K s' →
      (do let s ← rs.executorsToFree.items.foldlM (freeRequestOnExecutor cfg r) s'
          pure { s with stepEstimatePendingReqIds := s.stepEstimatePendingReqIds.discard r } :
        Except PyError (Scheduler κ)).Ensures (fun _ => True) (Records J K) := by
    intro s' hs'
    apply (ensures_foldlM (E := fun _ => True) _ (fun s e _ hs =>
      ensures_freeRequestOnExecutor_records hJ cfg hs r e) s' hs').bind
    exact fun s'' hs'' => hs''.of_eq rfl rfl rfl rfl
  dsimp only
  split
  · exact hfree s h
  · split_ifs
    · exact hfree s h
    · exact (ensures_modifyExecutorState_records h _).bind hfree

/-! ## Results of an executor -/

theorem ensures_processRequest_records (cfg : Config κ) (msg : SchedulerOutput)
    (res : ModelRunnerOutput) {p : Processed κ} (h : Records J K p.scheduler) (x : ReqId × ℕ) :
    (processRequest cfg msg res p x).Ensures (fun _ => True) fun q => Records J K q.scheduler := by
  unfold processRequest
  refine ensures_bind_any _ fun _ => ?_
  split
  · exact h
  · refine ensures_bind_any _ fun i => ensures_bind_any _ fun tokenIds =>
      ensures_bind_any _ fun y => ?_
    have hs : Records J K { p.scheduler with requests := p.scheduler.requests.set x.1 y.1 } :=
      h.of_eq rfl rfl rfl rfl
    dsimp only
    split_ifs
    · exact (ensures_freeRequest_records hJ hs x.1).bind fun _ hs' => hs'
    · exact hs

theorem ensures_applyOutput_records (hcount : Counts cfg J) (h : Records J K s)
    (msg : SchedulerOutput) (res : ModelRunnerOutput) :
    (s.applyOutput cfg msg res).Ensures (fun _ => True) fun x => Records J K x.1 := by
  unfold applyOutput
  refine (ensures_foldlM (E := fun _ => True) (I := fun p => Records J K p.scheduler) _
    (fun p x _ hp => ensures_processRequest_records hJ cfg msg res hp x) s.reportDropped
    (h.of_eq rfl rfl rfl rfl)).bind fun p hp => ?_
  refine List.foldlRecOn _ _ hp fun s hs r _ => ?_
  unfold postStepEstimateUpdate
  split
  · dsimp only
    split_ifs
    · exact hs.updateState r (hcount r)
    · exact (hs.updateState r (hcount r)).of_eq rfl rfl rfl rfl
  · exact hs

omit hJ in
theorem ensures_releaseExecutor_records (h : Records J K s) :
    (s.releaseExecutor cfg e).Ensures (fun _ => True) (Records J K) := by
  unfold releaseExecutor
  split_ifs
  · refine ensures_bind_any _ fun waiting => ?_
    split_ifs
    · exact ensures_bind_any _ fun es => ensures_setExecutorStatus_records h _
    · exact ensures_setExecutorStatus_records h _
  · exact ensures_setExecutorStatus_records h _

/-! ## Admission and aborts -/

omit hJ in
theorem ensures_admitRequest_records (h : Records J K s) (req : Request) :
    (s.admitRequest req).Ensures (fun _ => True) (Records J K) := by
  unfold admitRequest
  rw [ensures_bind, ensures_subscript]
  exact ⟨fun rs hrs => (h.setActive (h.deferred _ rs hrs)).eraseDeferred req.requestId,
    fun _ => trivial⟩

omit hJ in
theorem ensures_addRequest_records (h : Records J K s) (req : Request)
    (hnew : J req.requestId (RequestState.init (cfg.getInitialDefaultPredictions req)
      s.minMaxConfidenceThresholdIdx)) :
    (s.addRequest cfg req).Ensures (fun _ => True) (Records J K) := by
  have hs : Records J K
      { s with
        requests := s.requests.set req.requestId req
        deferredRequestStates := s.deferredRequestStates.set req.requestId
          (RequestState.init (cfg.getInitialDefaultPredictions req)
            s.minMaxConfidenceThresholdIdx) } :=
    (h.setDeferred hnew).of_eq rfl rfl rfl rfl
  unfold addRequest
  dsimp only
  split_ifs
  · exact hs.of_eq rfl rfl rfl rfl
  · exact ensures_admitRequest_records hs req

omit hJ in
theorem Records.dropDeferredRequests (h : Records J K s) (cfg : Config κ) (ids : List ReqId)
    (force : Bool) : Records J K (s.dropDeferredRequests cfg ids force) := by
  have hdrop : ∀ (l : List Request) (s : Scheduler κ), Records J K s →
      Records J K (l.foldl dropDeferredRequest s) := by
    intro l
    induction l with
    | nil => exact fun s hs => hs
    | cons req l ih =>
        exact fun s hs => ih _ ((hs.eraseDeferred req.requestId).of_eq rfl rfl rfl rfl)
  unfold Scheduler.dropDeferredRequests
  split_ifs
  · exact h
  · exact h
  · exact (hdrop _ s h).of_eq rfl rfl rfl rfl

omit hJ in
theorem ensures_admitDeferredRequests_records (cfg : Config κ) (h : Records J K s)
    (clock : ReqId → ℚ) :
    (s.admitDeferredRequests cfg clock).Ensures (fun _ => True) (Records J K) := by
  have hloop : ∀ (q : List Request) (s : Scheduler κ), Records J K s →
      (admitLoop cfg q s).Ensures (fun _ => True) (Records J K) := by
    intro q
    induction q with
    | nil => exact fun s hs => hs.of_eq rfl rfl rfl rfl
    | cons req q ih =>
        intro s hs
        unfold admitLoop
        split_ifs
        · exact hs.of_eq rfl rfl rfl rfl
        · exact (ensures_admitRequest_records hs req).bind ih
  exact hloop _ _ (h.dropDeferredRequests cfg _ false)

theorem ensures_finishRequests_records (h : Records J K s) (arg : RequestIds)
    (status : RequestStatus) (clock : ReqId → ℚ) :
    (s.finishRequests cfg arg status clock).Ensures (fun _ => True) (Records J K) := by
  have hdrop : (s.dropDeferred cfg arg).Ensures (fun _ => True) fun x => Records J K x.1 := by
    unfold dropDeferred
    split
    · split_ifs
      · trivial
      · trivial
      · exact h
    · dsimp only
      split_ifs
      · exact h
      · exact h.dropDeferredRequests cfg _ true
  unfold finishRequests
  apply ensures_bind_any
  intro _
  apply hdrop.bind
  intro x hx
  dsimp only
  apply (ensures_foldlM (E := fun _ => True) (I := Records J K) _ (fun s r _ hs => ?_) _
    (hx.dropDeferredRequests cfg _ true)).bind
  · exact fun s' hs' => ensures_admitDeferredRequests_records cfg hs' clock
  · unfold finishRequest
    exact (ensures_modifyRequest_records hs _).bind fun s' hs' =>
      ensures_freeRequest_records hJ hs' r

/-! ## Before a round -/

theorem ensures_updateExecutors_records (h : Records J K s) :
    (s.updateExecutors cfg).Ensures (fun _ => True) (Records J K) := by
  have hsupply : ∀ s' : Scheduler κ, Records J K s' →
      (refreshSupply cfg s').Ensures (fun _ => True) (Records J K) := by
    intro s' hs'
    unfold refreshSupply updateThroughputSupply
    exact ensures_bind_any _ fun d => ensures_bind_any _ fun ts =>
      hs'.of_eq rfl rfl rfl rfl
  have hall : ∀ (l : List ReqId) {f : RequestState → RequestState} (s : Scheduler κ),
      (∀ r rs, J r rs → J r (f rs)) → Records J K s →
      (l.foldlM (fun (s : Scheduler κ) r => s.modifyRequestState r f) s).Ensures (fun _ => True)
        (Records J K) :=
    fun l f s hf hs => ensures_foldlM (E := fun _ => True) l (fun s r _ hs =>
      ensures_modifyRequestState_records hs (hf r)) s hs
  unfold updateExecutors
  apply (ensures_foldlM (E := fun _ => True) (I := Records J K) _ (fun s e _ hs => ?_) s
    h).bind
  · intro s hs
    refine ensures_foldlM (E := fun _ => True) (I := Records J K) _ (fun s e _ hs => ?_) s hs
    split_ifs
    · unfold removeExecutor
      refine ensures_bind_any _ fun _ => ensures_bind_any _ fun es => ?_
      apply (hall _ s (fun _ _ h => hJ.removePendingExecutor (hJ.removeExecutor h)) hs).bind
      intro s hs
      apply (hall _ s (fun _ _ => hJ.removeExecutor) hs).bind
      intro s hs
      apply (hall _ s (fun _ _ => hJ.removePendingExecutor) hs).bind
      intro s hs
      exact ensures_bind_any _ fun _ => hsupply _ (hs.of_eq rfl rfl rfl rfl)
    · exact hs
  · split_ifs
    · exact hs
    · unfold addExecutor
      exact ensures_bind_any _ fun _ => ensures_bind_any _ fun x =>
        hsupply _ (hs.of_eq rfl rfl rfl rfl)

end Closed

def Refreshes (cfg : Config κ) (predict : ReqId → ℚ → ℚ) (J : ReqId → RequestState → Prop) : Prop :=
  ∀ r rs n, J r rs → J r
    { rs with
      predNumStepsLeft := cfg.candidateConfidenceThresholds.foldl
        (fun d c => d.set c (predict r c)) rs.predNumStepsLeft
      lastStepEstimateRefreshUnmaskedTokens := n
      confidenceThresholdDirty := true }

theorem Records.processStepEstimateUpdates (h : Records J K s) {predict : ReqId → ℚ → ℚ}
    (hJ : Refreshes cfg predict J) : Records J K (s.processStepEstimateUpdates cfg predict) := by
  have hrefresh : ∀ (l : List ReqId) (s : Scheduler κ), Records J K s →
      Records J K (l.foldl (refreshStepEstimate cfg predict) s) := by
    intro l
    induction l with
    | nil => exact fun s hs => hs
    | cons r l ih =>
        intro s hs
        apply ih
        unfold refreshStepEstimate
        split
        · split_ifs
          · exact hs
          · exact hs
          · exact hs.updateState r fun rs => hJ r rs _
        · exact hs
  exact hrefresh _ _ (h.of_eq rfl rfl rfl rfl)

theorem Records.drainStepEstimateUpdates (h : Records J K s) {predict : ReqId → ℚ → ℚ}
    (hJ : cfg.syncStepPrediction = true → Refreshes cfg predict J) :
    Records J K (s.drainStepEstimateUpdates cfg predict) := by
  unfold Scheduler.drainStepEstimateUpdates
  split_ifs with hsync
  · exact h.processStepEstimateUpdates (hJ hsync)
  · exact h

theorem Course.records {env : ScheduleEnv} {s₀ s₁ : Scheduler κ} {π π₀ π₁ π₂ : Placement}
    {p : Plan κ} (hc : Course cfg env s π s₀ π₀ s₁ π₁ p π₂) (hJ : RequestState.Closed J)
    (hrefresh : cfg.syncStepPrediction = true → Refreshes cfg env.predict J) (h : Records J K s) :
    Records J K (s₁.drainStepEstimateUpdates cfg env.predict).considerIdle := by
  have h₀ := ensures_of_ok (ensures_admitDeferredRequests_records cfg h env.admitClock)
    hc.admit_eq
  have h₁ := ensures_of_ok (ensures_updateExecutors_records hJ h₀) hc.update_eq
  exact (h₁.drainStepEstimateUpdates hrefresh).of_eq rfl rfl rfl rfl

end Scheduler

/-! ## Calls -/

namespace Calls

open Scheduler

variable {κ : Type} {cfg : Config κ} {J : ReqId → RequestState → Prop}
  {K : Dict ExecutorId ℕ → ℕ → Prop} {t : Calls κ}

/-- Every call keeps an invariant that its own writes keep. -/
theorem ensures_next_records (cfg : Config κ) (hJ : RequestState.Closed J)
    (hidx : ∀ r rs i, J r rs → J r { rs with maxConfidenceThresholdIdx := i })
    (hcount : Counts cfg J) (h : Records J K t.scheduler) (c : Call)
    (hadd : ∀ req, c = .addRequest req → J req.requestId (RequestState.init
      (cfg.getInitialDefaultPredictions req) t.scheduler.minMaxConfidenceThresholdIdx))
    (hschedule : ∀ env, c = .schedule env → (t.scheduler.schedule cfg env).Ensures (fun _ => True)
      fun x => Records J K x.1)
    (hrefresh : ∀ predict, c = .refreshEstimates predict → Refreshes cfg predict J) :
    (t.next cfg c).Ensures (fun _ => True) fun t' => Records J K t'.scheduler := by
  have hmanager : ∀ m, Records J K (t.withManager m).scheduler := fun m => h.of_eq rfl rfl rfl rfl
  cases c with
  | addRequest req =>
      unfold next
      rw [ensures_bind]
      exact ensures_addRequest_records h req (hadd req rfl)
  | schedule env =>
      unfold next
      rw [ensures_bind]
      exact hschedule env rfl
  | startExecution e => exact ensures_bind_any _ hmanager
  | finishExecution e res =>
      cases hf : t.inFlight.get? e with
      | none =>
          simp only [next, hf]
          exact h
      | some f =>
          simp only [next, hf]
          exact ensures_bind_any _ hmanager
  | updateFromOutput e =>
      rcases hf : t.inFlight.get? e with _ | ⟨msg, _ | res⟩
      · simp only [next, hf]
        exact h
      · simp only [next, hf]
        exact h
      · simp only [next, hf]
        unfold Scheduler.updateFromOutput
        rw [ensures_bind, ensures_bind]
        apply (ensures_applyOutput_records hJ hcount h msg res).imp
        intro x hx
        rw [ensures_bind]
        exact ensures_releaseExecutor_records hx
  | finishRequests arg status clock =>
      unfold next
      rw [ensures_bind]
      exact ensures_finishRequests_records hJ h arg status clock
  | launch e bundleIds => exact ensures_bind_any _ hmanager
  | announceKill e => exact ensures_bind_any _ hmanager
  | setKilling e => exact ensures_bind_any _ hmanager
  | remove e => exact hmanager _
  | refreshEstimates predict => exact h.processStepEstimateUpdates (hrefresh predict rfl)
  | controlLoad idx minIdx => exact h.controlLoad idx minIdx hidx

theorem records_of_init (hJ : RequestState.Closed J) (hK : K Dict.empty 0) (h : Init cfg t) :
    Records J K t.scheduler := by
  obtain ⟨launches, m, s, -, hs, rfl⟩ := h
  exact ensures_of_ok (ensures_updateExecutors_records hJ (Records.empty J hK m)) hs

end Calls

end TeDiServe

import TeDiServe.Placement.Refines

/-!
# What does not concern the placement

Most of the scheduler's work changes neither a location nor the progress of a
request: thresholds, predictions, block tables, the sets of requests to free, the
numbers of the step being issued. `RequestState.core` and `Request.progress` erase
these from a record. Two states are `Framed` when they agree on what is left, and
a placement of one is a placement of the other.

`Soft` is the stronger relation of the operations that only touch thresholds and
predictions.
-/

namespace TeDiServe

/-- The record without its thresholds and predictions. -/
def RequestState.core (rs : RequestState) : RequestState :=
  { rs with
    predNumStepsLeft := Dict.empty
    confidenceThreshold := none
    pendingConfidenceThreshold := none
    lastStepEstimateRefreshUnmaskedTokens := 0
    confidenceThresholdDirty := false }

/-- The request without the numbers of the step that is being issued. -/
def Request.progress (req : Request) : Request :=
  { req with
    isInExecution := false
    numComputedTokens := 0
    execStartPos := 0
    numExecTokens := 0
    status := .waiting }

theorem RequestState.Represents.of_core {rs rs' : RequestState} {l : Loc}
    (h : rs.Represents l) (hcore : rs'.core = rs.core) : rs'.Represents l := by
  have hx : rs'.executorId = rs.executorId := (congrArg RequestState.executorId hcore :)
  have hp : rs'.pendingExecutorId = rs.pendingExecutorId :=
    (congrArg RequestState.pendingExecutorId hcore :)
  have hf : rs'.executorsToFree = rs.executorsToFree :=
    (congrArg RequestState.executorsToFree hcore :)
  have hs : rs'.status = rs.status := (congrArg RequestState.status hcore :)
  refine ⟨hx.trans h.executorId, hp.trans h.pendingExecutorId, ?_, hs.trans h.status⟩
  intro e
  rw [hf]
  exact h.executorsToFree e

theorem Request.numTokens_of_progress {req req' : Request} (h : req'.progress = req.progress) :
    req'.numTokens = req.numTokens := by
  have hall : req'.allTokenIds = req.allTokenIds := (congrArg Request.allTokenIds h :)
  simp [Request.numTokens, hall]

theorem Request.requestId_of_progress {req req' : Request} (h : req'.progress = req.progress) :
    req'.requestId = req.requestId :=
  (congrArg Request.requestId h :)

namespace Scheduler

variable {κ : Type} {s s' s'' : Scheduler κ} {π : Placement} {r : ReqId} {e : ExecutorId}

/-- What lies around the records of executors and requests agrees. -/
structure Around (s s' : Scheduler κ) : Prop where
  deferredStates : ∀ r, (s'.deferredRequestStates.get? r).map RequestState.core =
    (s.deferredRequestStates.get? r).map RequestState.core
  requests : ∀ r, (s'.requests.get? r).map Request.progress =
    (s.requests.get? r).map Request.progress
  deferredRequests : s'.deferredRequests = s.deferredRequests
  droppedDeferredRequests : s'.droppedDeferredRequests = s.droppedDeferredRequests
  caches : ∀ e, e ∈ s'.kvCacheManagers ↔ e ∈ s.kvCacheManagers
  estimates : ∀ r, r ∈ s'.stepEstimatePendingReqIds →
    r ∈ s.stepEstimatePendingReqIds ∨ r ∈ s.requests
  minIdx : s'.minMaxConfidenceThresholdIdx = s.minMaxConfidenceThresholdIdx

namespace Around

theorem refl (s : Scheduler κ) : Around s s :=
  ⟨fun _ => rfl, fun _ => rfl, rfl, rfl, fun _ => Iff.rfl, fun _ hr => Or.inl hr, rfl⟩

theorem mem_requests (h : Around s s') : r ∈ s'.requests ↔ r ∈ s.requests :=
  Dict.mem_iff_of_map_eq (h.requests r)

theorem trans (h : Around s s') (h' : Around s' s'') : Around s s'' := by
  refine ⟨fun r => (h'.deferredStates r).trans (h.deferredStates r),
    fun r => (h'.requests r).trans (h.requests r),
    h'.deferredRequests.trans h.deferredRequests,
    h'.droppedDeferredRequests.trans h.droppedDeferredRequests,
    fun e => (h'.caches e).trans (h.caches e), ?_, h'.minIdx.trans h.minIdx⟩
  intro r hr
  rcases h'.estimates r hr with hr | hr
  · exact h.estimates r hr
  · exact Or.inr (h.mem_requests.mp hr)

end Around

structure Framed (s s' : Scheduler κ) : Prop extends Around s s' where
  executorStates : s'.executorStates = s.executorStates
  states : ∀ r, (s'.requestStates.get? r).map RequestState.core =
    (s.requestStates.get? r).map RequestState.core

namespace Framed

theorem refl (s : Scheduler κ) : Framed s s := ⟨Around.refl s, rfl, fun _ => rfl⟩

section

variable (h : Framed s s')
include h

theorem mem_requestStates : r ∈ s'.requestStates ↔ r ∈ s.requestStates :=
  Dict.mem_iff_of_map_eq (h.states r)

theorem trans (h' : Framed s' s'') : Framed s s'' :=
  ⟨h.toAround.trans h'.toAround, h'.executorStates.trans h.executorStates,
    fun r => (h'.states r).trans (h.states r)⟩

theorem of_managers (m m' : ExecutorsManager) :
    Framed { s with executorsManager := m } { s' with executorsManager := m' } := by
  obtain ⟨⟨h1, h2, h3, h4, h5, h6, h7⟩, h8, h9⟩ := h
  exact ⟨⟨h1, h2, h3, h4, h5, h6, h7⟩, h8, h9⟩

theorem size_eq : s'.size = s.size := by
  funext r
  have hsize : Request.numTokens = Request.numTokens ∘ Request.progress := rfl
  rw [size, size, hsize, ← Option.map_map, ← Option.map_map, h.requests]

theorem refines (hs : Refines s π) : Refines s' π := by
  refine ⟨?_, ?_, ?_, ?_, ?_⟩
  · intro e es hes
    rw [h.executorStates] at hes
    rw [h.size_eq]
    exact hs.executors e es hes
  · intro r
    rcases Option.cases_of_map_eq (h.states r) with ⟨hrs', hrs⟩ | ⟨rs', rs, hrs', hrs, hcore⟩
    · rw [hrs', ← hrs]
      exact hs.located r
    · obtain ⟨l, hl, hrep⟩ := hs.location hrs
      rw [hrs', hl]
      exact .some (hrep.of_core hcore)
  · intro r e hhost
    rw [h.executorStates]
    exact hs.hosted r e hhost
  · intro r hr
    exact h.mem_requests.mpr (hs.known r (h.mem_requestStates.mp hr))
  · intro r req' hreq'
    obtain ⟨req, hreq, hp⟩ := Dict.exists_of_map_eq (h.requests r) hreq'
    rw [Request.requestId_of_progress hp]
    exact hs.ids r req hreq

end

theorem setRequest {req req' : Request} (hreq : s.requests.get? r = some req)
    (hp : req'.progress = req.progress) :
    Framed s { s with requests := s.requests.set r req' } := by
  refine ⟨⟨fun _ => rfl, ?_, rfl, rfl, fun _ => Iff.rfl, fun _ hr => Or.inl hr, rfl⟩, rfl,
    fun _ => rfl⟩
  intro r'
  by_cases hr : r' = r
  · simp [hr, hreq, hp]
  · simp [hr]

end Framed

/-! ## Thresholds and predictions -/

/-- `s'` differs from `s` only in thresholds, predictions and their bookkeeping. -/
def Soft (s s' : Scheduler κ) : Prop :=
  ∃ rs ds v p, s' =
      { s with
        requestStates := rs
        deferredRequestStates := ds
        executorConfMarkVersion := v
        stepEstimatePendingReqIds := p } ∧
    (∀ r, (rs.get? r).map RequestState.core = (s.requestStates.get? r).map RequestState.core) ∧
    (∀ r, (ds.get? r).map RequestState.core =
      (s.deferredRequestStates.get? r).map RequestState.core) ∧
    ∀ r, r ∈ p → r ∈ s.stepEstimatePendingReqIds ∨ r ∈ s.requests

namespace Soft

theorem refl (s : Scheduler κ) : Soft s s :=
  ⟨_, _, _, _, rfl, fun _ => rfl, fun _ => rfl, fun _ hr => Or.inl hr⟩

section

variable (h : Soft s s')
include h

theorem trans (h' : Soft s' s'') : Soft s s'' := by
  obtain ⟨rs, ds, v, p, rfl, hrs, hds, hp⟩ := h
  obtain ⟨rs', ds', v', p', rfl, hrs', hds', hp'⟩ := h'
  refine ⟨rs', ds', v', p', rfl, fun r => (hrs' r).trans (hrs r),
    fun r => (hds' r).trans (hds r), ?_⟩
  intro r hr
  rcases hp' r hr with hr | hr
  · exact hp r hr
  · exact Or.inr hr

theorem framed : Framed s s' := by
  obtain ⟨rs, ds, v, p, rfl, hrs, hds, hp⟩ := h
  exact ⟨⟨hds, fun _ => rfl, rfl, rfl, fun _ => Iff.rfl, hp, rfl⟩, rfl, hrs⟩

theorem requests : s'.requests = s.requests := by
  obtain ⟨rs, ds, v, p, rfl, -⟩ := h
  rfl

theorem executorsManager : s'.executorsManager = s.executorsManager := by
  obtain ⟨rs, ds, v, p, rfl, -⟩ := h
  rfl

theorem freeReqIds : s'.freeReqIds = s.freeReqIds := by
  obtain ⟨rs, ds, v, p, rfl, -⟩ := h
  rfl

theorem kvCacheManagers : s'.kvCacheManagers = s.kvCacheManagers := by
  obtain ⟨rs, ds, v, p, rfl, -⟩ := h
  rfl

end

theorem foldl {α : Type} {f : Scheduler κ → α → Scheduler κ} (hf : ∀ s a, Soft s (f s a))
    (l : List α) (s : Scheduler κ) : Soft s (l.foldl f s) := by
  induction l generalizing s with
  | nil => exact refl s
  | cons a l ih => exact (hf s a).trans (ih (f s a))

theorem setRequestState {rs rs' : RequestState} (hrs : s.requestStates.get? r = some rs)
    (hcore : rs'.core = rs.core) :
    Soft s { s with requestStates := s.requestStates.set r rs' } := by
  refine ⟨_, _, _, _, rfl, ?_, fun _ => rfl, fun _ hr => Or.inl hr⟩
  intro r'
  by_cases hr : r' = r
  · simp [hr, hrs, hcore]
  · simp [hr]

theorem setDeferredRequestState {rs rs' : RequestState}
    (hrs : s.deferredRequestStates.get? r = some rs) (hcore : rs'.core = rs.core) :
    Soft s { s with deferredRequestStates := s.deferredRequestStates.set r rs' } := by
  refine ⟨_, _, _, _, rfl, fun _ => rfl, ?_, fun _ hr => Or.inl hr⟩
  intro r'
  by_cases hr : r' = r
  · simp [hr, hrs, hcore]
  · simp [hr]

end Soft

theorem soft_updateState (s : Scheduler κ) (r : ReqId) {f : RequestState → RequestState}
    (hf : ∀ rs, (f rs).core = rs.core) : Soft s (s.updateState r f) := by
  unfold updateState
  cases hrs : s.requestStates.get? r with
  | some rs => exact Soft.setRequestState hrs (hf rs)
  | none =>
      cases hds : s.deferredRequestStates.get? r with
      | some rs => exact Soft.setDeferredRequestState hds (hf rs)
      | none => exact Soft.refl s

theorem soft_markConfidenceThresholdDirty (s : Scheduler κ) (r : ReqId) :
    Soft s (s.markConfidenceThresholdDirty r) :=
  soft_updateState s r fun _ => rfl

theorem soft_markExecutorConfidenceThresholdsDirty (s : Scheduler κ) (e : ExecutorId) :
    Soft s (s.markExecutorConfidenceThresholdsDirty e) := by
  unfold markExecutorConfidenceThresholdsDirty
  cases s.executorStates.get? e with
  | none => exact Soft.refl s
  | some es =>
      by_cases hv : s.executorConfMarkVersion.get? e = some s.confMarkCounter
      · simp only [hv, if_true]
        exact Soft.refl s
      · simp only [hv, if_false]
        have hset : Soft s { s with
            executorConfMarkVersion := s.executorConfMarkVersion.set e s.confMarkCounter } :=
          ⟨_, _, _, _, rfl, fun _ => rfl, fun _ => rfl, fun _ hr => Or.inl hr⟩
        exact hset.trans (Soft.foldl soft_markConfidenceThresholdDirty _ _)

theorem soft_refreshStepEstimate (cfg : Config κ) (predict : ReqId → ℚ → ℚ) (s : Scheduler κ)
    (r : ReqId) : Soft s (refreshStepEstimate cfg predict s r) := by
  unfold refreshStepEstimate
  split
  · split_ifs
    · exact Soft.refl s
    · exact Soft.refl s
    · exact soft_updateState s r fun _ => rfl
  · exact Soft.refl s

theorem soft_processStepEstimateUpdates (cfg : Config κ) (predict : ReqId → ℚ → ℚ)
    (s : Scheduler κ) : Soft s (s.processStepEstimateUpdates cfg predict) := by
  have hclear : Soft s { s with stepEstimatePendingReqIds := OrderedSet.empty } :=
    ⟨_, _, _, _, rfl, fun _ => rfl, fun _ => rfl,
      fun r hr => absurd hr (OrderedSet.not_mem_empty r)⟩
  exact hclear.trans (Soft.foldl (soft_refreshStepEstimate cfg predict) _ _)

theorem soft_drainStepEstimateUpdates (cfg : Config κ) (predict : ReqId → ℚ → ℚ)
    (s : Scheduler κ) : Soft s (s.drainStepEstimateUpdates cfg predict) := by
  unfold drainStepEstimateUpdates
  split_ifs
  · exact soft_processStepEstimateUpdates cfg predict s
  · exact Soft.refl s

theorem soft_postStepEstimateUpdate (cfg : Config κ) (s : Scheduler κ) (r : ReqId) :
    Soft s (s.postStepEstimateUpdate cfg r) := by
  unfold postStepEstimateUpdate
  split
  · next rs req _ hreq =>
    have hqueued : ∀ s', Soft s s' →
        Soft s { s' with stepEstimatePendingReqIds := s'.stepEstimatePendingReqIds.add r } := by
      intro s' hs
      refine hs.trans ⟨_, _, _, _, rfl, fun _ => rfl, fun _ => rfl, ?_⟩
      intro r' hr'
      rcases (OrderedSet.mem_add _ _ _).mp hr' with rfl | hr'
      · rw [hs.requests]
        exact Or.inr (Dict.mem_of_get? hreq)
      · exact Or.inl hr'
    dsimp only
    split_ifs
    · exact soft_updateState s r fun _ => rfl
    · exact hqueued _ (soft_updateState s r fun _ => rfl)
  · exact Soft.refl s

theorem soft_batchPostStepEstimateUpdates (cfg : Config κ) (s : Scheduler κ) (rs : List ReqId) :
    Soft s (s.batchPostStepEstimateUpdates cfg rs) :=
  Soft.foldl (soft_postStepEstimateUpdate cfg) rs s

end Scheduler

end TeDiServe

import TeDiServe.Load.Marks

/-!
# What the search for a threshold looks at

The search over the candidates does not look at the thresholds that are stored, nor at
the numbers of the steps that are being issued; so it gives the same for two states that
are alike up to these. For a record that is marked the stored threshold does not matter.
-/

namespace TeDiServe

def RequestState.outlook (rs : RequestState) : RequestState :=
  { rs with confidenceThreshold := none, confidenceThresholdDirty := false }

theorem Request.sloTimeRemaining_of_progress {req req' : Request}
    (h : req'.progress = req.progress) (now : ℚ) :
    req'.sloTimeRemaining now = req.sloTimeRemaining now := by
  have hslo : req'.latencySlo = req.latencySlo := (congrArg Request.latencySlo h :)
  have harrival : req'.arrivalTime = req.arrivalTime := (congrArg Request.arrivalTime h :)
  unfold Request.sloTimeRemaining
  rw [hslo, harrival]

theorem Request.numRecomputeStepsLeft_of_progress {req req' : Request}
    (h : req'.progress = req.progress) :
    req'.numRecomputeStepsLeft = req.numRecomputeStepsLeft :=
  (congrArg Request.numRecomputeStepsLeft h :)

namespace Scheduler

variable {κ : Type} {cfg : Config κ} {s s' s'' : Scheduler κ} {π : Placement} {r : ReqId}
  {e : ExecutorId}

/-! ## What the search looks at -/

/-- `s'` and `s` differ in thresholds and in the numbers of the current steps at most. -/
structure Alike (s s' : Scheduler κ) : Prop where
  executorStates : s'.executorStates = s.executorStates
  maxTpDegree : s'.maxTpDegree = s.maxTpDegree
  requests : ∀ r, (s'.requests.get? r).map Request.progress =
    (s.requests.get? r).map Request.progress
  states : ∀ r, (s'.requestStates.get? r).map RequestState.outlook =
    (s.requestStates.get? r).map RequestState.outlook
  deferred : s'.deferredRequestStates = s.deferredRequestStates

namespace Alike

theorem refl (s : Scheduler κ) : Alike s s :=
  ⟨rfl, rfl, fun _ => rfl, fun _ => rfl, rfl⟩

variable (h : Alike s s')
include h

theorem trans (h' : Alike s' s'') : Alike s s'' :=
  ⟨h'.executorStates.trans h.executorStates, h'.maxTpDegree.trans h.maxTpDegree,
    fun r => (h'.requests r).trans (h.requests r), fun r => (h'.states r).trans (h.states r),
    h'.deferred.trans h.deferred⟩

/-- A computation that starts with a request and looks at its progress only. -/
theorem bind_request {α : Type} (r : ReqId) {f : Request → Except PyError α}
    (hf : ∀ req req' : Request, req'.progress = req.progress → f req' = f req) :
    (subscript s'.requests .requests r >>= f) = (subscript s.requests .requests r >>= f) := by
  unfold subscript
  rcases Option.cases_of_map_eq (h.requests r) with ⟨hreq', hreq⟩ | ⟨req', req, hreq', hreq, hp⟩
  · rw [hreq', hreq]
  · rw [hreq', hreq]
    exact hf req req' hp

theorem getState? (r : ReqId) :
    (s'.getState? r).map RequestState.outlook = (s.getState? r).map RequestState.outlook := by
  unfold Scheduler.getState?
  rw [h.deferred]
  rcases Option.cases_of_map_eq (h.states r) with ⟨hrs', hrs⟩ | ⟨rs', rs, hrs', hrs, ho⟩
  · rw [hrs', hrs]
  · rw [hrs', hrs]
    exact congrArg some ho

theorem getMinTimeLeft (r : ReqId) : s'.getMinTimeLeft cfg r = s.getMinTimeLeft cfg r := by
  unfold Scheduler.getMinTimeLeft
  rw [h.maxTpDegree]
  apply h.bind_request
  intro req req' hp
  rw [Request.numTokens_of_progress hp]

theorem sumOverRequests {f : Request → ℕ}
    (hf : ∀ req req' : Request, req'.progress = req.progress → f req' = f req) (rs : List ReqId) :
    s'.sumOverRequests f rs = s.sumOverRequests f rs := by
  have heach : (fun r => subscript s'.requests .requests r >>= fun req =>
      (pure (f req) : Except PyError ℕ)) =
      fun r => subscript s.requests .requests r >>= fun req => pure (f req) := by
    funext r
    apply h.bind_request
    intro req req' hp
    rw [hf req req' hp]
  unfold Scheduler.sumOverRequests
  rw [heach]

theorem cacheStepLatency (r : ReqId) (d : ℕ) (batch : List ReqId) :
    s'.cacheStepLatency cfg r d batch = s.cacheStepLatency cfg r d batch := by
  unfold Scheduler.cacheStepLatency
  have hsum := h.sumOverRequests (f := Request.outputLength)
    (fun req req' hp => (congrArg Request.maxTokens hp :)) batch
  rw [hsum]
  have hblock : (subscript s'.requests .requests r >>= fun req => do
      let x ← getProfileLatency cfg d (req.denoiseBlockSize * batch.length)
      pure x.2) = (subscript s.requests .requests r >>= fun req => do
      let x ← getProfileLatency cfg d (req.denoiseBlockSize * batch.length)
      pure x.2) := by
    apply h.bind_request
    intro req req' hp
    rw [show req'.denoiseBlockSize = req.denoiseBlockSize from
      (congrArg Request.denoiseBlockSize hp :)]
  rw [hblock]

theorem isPossibleToMeetSlo (r : ReqId) (now : ℚ) :
    s'.isPossibleToMeetSlo cfg r now = s.isPossibleToMeetSlo cfg r now := by
  have hslo : ∀ x : ℚ, (subscript s'.requests .requests r >>= fun req =>
      pure (decide ((x : WithTop ℚ) < req.sloTimeRemaining now))) =
      (subscript s.requests .requests r >>= fun req =>
      pure (decide ((x : WithTop ℚ) < req.sloTimeRemaining now)) : Except PyError Bool) := by
    intro x
    apply h.bind_request
    intro req req' hp
    rw [Request.sloTimeRemaining_of_progress hp]
  unfold Scheduler.isPossibleToMeetSlo
  rcases Option.cases_of_map_eq (h.getState? r) with ⟨hrs', hrs⟩ | ⟨rs', rs, hrs', hrs, ho⟩
  · rw [hrs', hrs]
  · have hsteps : rs'.predNumStepsLeft = rs.predNumStepsLeft :=
      (congrArg RequestState.predNumStepsLeft ho :)
    rw [hrs', hrs]
    simp only [hsteps, h.getMinTimeLeft, hslo]

theorem getNumStepsLeftByType (r : ReqId) (conf : ℚ) :
    s'.getNumStepsLeftByType cfg r conf = s.getNumStepsLeftByType cfg r conf := by
  have hfull : ∀ steps : ℚ, (subscript s'.requests .requests r >>= fun req =>
      pure ((req.numRecomputeStepsLeft : ℚ), max 0 (steps - req.numRecomputeStepsLeft))) =
      (subscript s.requests .requests r >>= fun req =>
      pure ((req.numRecomputeStepsLeft : ℚ), max 0 (steps - req.numRecomputeStepsLeft)) :
        Except PyError (ℚ × ℚ)) := by
    intro steps
    apply h.bind_request
    intro req req' hp
    rw [Request.numRecomputeStepsLeft_of_progress hp]
  unfold Scheduler.getNumStepsLeftByType
  rcases Option.cases_of_map_eq (h.getState? r) with ⟨hrs', hrs⟩ | ⟨rs', rs, hrs', hrs, ho⟩
  · rw [hrs', hrs]
  · have hsteps : rs'.predNumStepsLeft = rs.predNumStepsLeft :=
      (congrArg RequestState.predNumStepsLeft ho :)
    rw [hrs', hrs]
    simp only [hsteps, hfull]

theorem sloMet (r : ReqId) (d : ℕ) (batch : List ReqId) (conf now : ℚ) :
    s'.sloMet cfg r d batch conf now = s.sloMet cfg r d batch conf now := by
  have htime : s'.getEstimatedTimeLeft cfg r d batch conf =
      s.getEstimatedTimeLeft cfg r d batch conf := by
    unfold getEstimatedTimeLeft
    rw [h.sumOverRequests (fun req req' hp => Request.numTokens_of_progress hp) batch,
      h.getNumStepsLeftByType, h.cacheStepLatency]
  have hslo : ∀ t : ℚ, (subscript s'.requests .requests r >>= fun req =>
      pure !decide (req.sloTimeRemaining now < (t : WithTop ℚ))) =
      (subscript s.requests .requests r >>= fun req =>
      pure !decide (req.sloTimeRemaining now < (t : WithTop ℚ)) : Except PyError Bool) := by
    intro t
    apply h.bind_request
    intro req req' hp
    rw [Request.sloTimeRemaining_of_progress hp]
  unfold Scheduler.sloMet
  simp only [htime, hslo]

theorem scanThresholds (clock : ℕ → ℚ) (r : ReqId) (d : ℕ) (batch : List ReqId) (cs : List ℚ)
    (k : ℕ) (best : Option ℚ) :
    s'.scanThresholds cfg clock r d batch cs k best =
      s.scanThresholds cfg clock r d batch cs k best := by
  induction cs generalizing k best with
  | nil => rfl
  | cons c cs ih =>
      unfold Scheduler.scanThresholds
      rw [h.sloMet]
      simp only [ih]

/-- The search gives the same for two records that differ in the threshold only. -/
theorem selectConfidence (clock : ℕ → ℚ) {rs rs' : RequestState} (ho : rs'.outlook = rs.outlook)
    (r : ReqId) (d : ℕ) (batch : List ReqId) :
    s'.selectConfidence cfg clock { rs' with confidenceThreshold := none } r d batch =
      s.selectConfidence cfg clock { rs with confidenceThreshold := none } r d batch := by
  have hidx : rs'.maxConfidenceThresholdIdx = rs.maxConfidenceThresholdIdx :=
    (congrArg RequestState.maxConfidenceThresholdIdx ho :)
  unfold Scheduler.selectConfidence
  rw [if_pos (Or.inl rfl), if_pos (Or.inl rfl)]
  simp only [hidx, h.isPossibleToMeetSlo, h.scanThresholds]

end Alike

theorem selectConfidence_of_dirty (clock : ℕ → ℚ) {rs : RequestState}
    (hd : rs.confidenceThresholdDirty = true) (r : ReqId) (d : ℕ) (batch : List ReqId) :
    s.selectConfidence cfg clock rs r d batch =
      s.selectConfidence cfg clock { rs with confidenceThreshold := none } r d batch := by
  unfold selectConfidence
  rw [if_pos (Or.inr hd), if_pos (Or.inl rfl)]

def Searched (cfg : Config κ) (env : ScheduleEnv) (s : Scheduler κ) (e : ExecutorId)
    (batch : List ReqId) (r : ReqId) (c : ℚ) : Prop :=
  ∃ rs es, s.requestStates.get? r = some rs ∧ s.executorStates.get? e = some es ∧
    s.selectConfidence cfg (env.clock r) { rs with confidenceThreshold := none } r es.tpDegree
      batch = .ok (some c)

theorem Searched.of_alike {env : ScheduleEnv} {batch : List ReqId} {c : ℚ} (h : Alike s s')
    (hc : Searched cfg env s' e batch r c) : Searched cfg env s e batch r c := by
  obtain ⟨rs', es, hrs', hes, hsel⟩ := hc
  obtain ⟨rs, hrs, ho⟩ := Dict.exists_of_map_eq (h.states r) hrs'
  rw [h.executorStates] at hes
  rw [h.selectConfidence (env.clock r) ho] at hsel
  exact ⟨rs, es, hrs, hes, hsel⟩

theorem Alike.symm (h : Alike s s') : Alike s' s :=
  ⟨h.executorStates.symm, h.maxTpDegree.symm, fun r => (h.requests r).symm,
    fun r => (h.states r).symm, h.deferred.symm⟩

theorem Alike.record {rs' : RequestState} (h : Alike s s')
    (hrs' : s'.requestStates.get? r = some rs') : ∃ rs, s.requestStates.get? r = some rs ∧
      rs'.executorId = rs.executorId ∧
      rs'.maxConfidenceThresholdIdx = rs.maxConfidenceThresholdIdx := by
  obtain ⟨rs, hrs, ho⟩ := Dict.exists_of_map_eq (h.states r) hrs'
  exact ⟨rs, hrs, (congrArg RequestState.executorId ho :),
    (congrArg RequestState.maxConfidenceThresholdIdx ho :)⟩

end Scheduler

end TeDiServe

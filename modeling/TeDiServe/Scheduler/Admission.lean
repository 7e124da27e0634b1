import TeDiServe.Scheduler.Basic
import Mathlib.Algebra.Order.Monoid.WithTop

/-!
# Admission and deferral

A request enters through the deferred dictionary and leaves it at once when
there is no limit on unfinished requests, or later, in arrival order, when a
place becomes free. A deferred request may be dropped instead: because its
deadline has passed and dropping is enabled, or because it was aborted.
-/

namespace TeDiServe

namespace Scheduler

variable {κ : Type}

def admitRequest (s : Scheduler κ) (req : Request) : Except PyError (Scheduler κ) := do
  let rs ← subscript s.deferredRequestStates .deferredRequestStates req.requestId
  pure
    { s with
      requestStates := s.requestStates.set req.requestId rs
      deferredRequestStates := s.deferredRequestStates.erase req.requestId }

def atLimit (cfg : Config κ) (s : Scheduler κ) : Bool :=
  match cfg.maxNumUnfinishedRequests with
  | none => false
  | some n => n ≤ s.getNumUnfinishedRequests

def addRequest (cfg : Config κ) (s : Scheduler κ) (req : Request) :
    Except PyError (Scheduler κ) :=
  let rs := RequestState.init (cfg.getInitialDefaultPredictions req)
    s.minMaxConfidenceThresholdIdx
  let s := { s with
    requests := s.requests.set req.requestId req
    deferredRequestStates := s.deferredRequestStates.set req.requestId rs }
  if s.atLimit cfg then
    .ok { s with deferredRequests := s.deferredRequests ++ [req] }
  else s.admitRequest req

def dropDeferredRequest (s : Scheduler κ) (req : Request) : Scheduler κ :=
  { s with
    droppedDeferredRequests := s.droppedDeferredRequests ++ [req]
    deferredRequestStates := s.deferredRequestStates.erase req.requestId
    requests := s.requests.erase req.requestId
    stepEstimatePendingReqIds := s.stepEstimatePendingReqIds.discard req.requestId }

def dropDeferredRequests (cfg : Config κ) (s : Scheduler κ) (requestIds : List ReqId)
    (force : Bool) : Scheduler κ :=
  if requestIds = [] then s
  else if !cfg.enableDropping && !force then s
  else
    let dropped := s.deferredRequests.filter fun req => req.requestId ∈ requestIds
    let kept := s.deferredRequests.filter fun req => req.requestId ∉ requestIds
    { dropped.foldl dropDeferredRequest s with deferredRequests := kept }

/-- The loop of `_admit_deferred_requests`, on the queue it consumes. -/
def admitLoop (cfg : Config κ) : List Request → Scheduler κ → Except PyError (Scheduler κ)
  | [], s => .ok { s with deferredRequests := [] }
  | req :: rest, s =>
      if s.atLimit cfg then .ok { s with deferredRequests := req :: rest }
      else do
        let s ← s.admitRequest req
        admitLoop cfg rest s

def admitDeferredRequests (cfg : Config κ) (s : Scheduler κ) (clock : ReqId → ℚ) :
    Except PyError (Scheduler κ) :=
  let expired := s.deferredRequests.filter fun req =>
    req.sloTimeRemaining (clock req.requestId) ≤ 0
  let s := s.dropDeferredRequests cfg (expired.map Request.requestId) false
  admitLoop cfg s.deferredRequests s

def getDeferredRequestIds (s : Scheduler κ) (requestIds : List ReqId) : List ReqId :=
  requestIds.filter fun r =>
    (r ∈ s.deferredRequestStates && r ∉ s.requestStates) ||
      r ∈ s.deferredRequests.map Request.requestId

/-! ## Step estimates -/

def refreshStepEstimate (cfg : Config κ) (predict : ReqId → ℚ → ℚ) (s : Scheduler κ)
    (r : ReqId) : Scheduler κ :=
  match s.requests.get? r, s.getState? r with
  | some req, some rs =>
      if (req.numUnmaskedTokens : ℤ) - rs.lastStepEstimateRefreshUnmaskedTokens <
          cfg.stepEstimatorRefreshUnmaskedTokenDelta then s
      else if cfg.candidateConfidenceThresholds = [] then s
      else
        s.updateState r fun rs =>
          { rs with
            predNumStepsLeft := cfg.candidateConfidenceThresholds.foldl
              (fun d c => d.set c (predict r c)) rs.predNumStepsLeft
            lastStepEstimateRefreshUnmaskedTokens := req.numUnmaskedTokens
            confidenceThresholdDirty := true }
  | _, _ => s

/-- `_process_step_estimate_updates`: take the pending ids and refresh them. -/
def processStepEstimateUpdates (cfg : Config κ) (predict : ReqId → ℚ → ℚ)
    (s : Scheduler κ) : Scheduler κ :=
  s.stepEstimatePendingReqIds.items.foldl (refreshStepEstimate cfg predict)
    { s with stepEstimatePendingReqIds := OrderedSet.empty }

def drainStepEstimateUpdates (cfg : Config κ) (predict : ReqId → ℚ → ℚ)
    (s : Scheduler κ) : Scheduler κ :=
  if cfg.syncStepPrediction then s.processStepEstimateUpdates cfg predict else s

/-- One step of a request that goes on: its predictions count down, and it is
queued for a refresh when enough tokens were unmasked since the last one. -/
def postStepEstimateUpdate (cfg : Config κ) (s : Scheduler κ) (r : ReqId) : Scheduler κ :=
  match s.getState? r, s.requests.get? r with
  | some rs, some req =>
      let countDown := fun (d : Dict ℚ ℚ) c =>
        match d.get? c with
        | some p => if 0 < p then d.set c (p - 1) else d
        | none => d
      let s := s.updateState r fun rs =>
        { rs with
          predNumStepsLeft :=
            cfg.candidateConfidenceThresholds.foldl countDown rs.predNumStepsLeft }
      if (req.numUnmaskedTokens : ℤ) - rs.lastStepEstimateRefreshUnmaskedTokens <
          cfg.stepEstimatorRefreshUnmaskedTokenDelta then s
      else { s with stepEstimatePendingReqIds := s.stepEstimatePendingReqIds.add r }
  | _, _ => s

def batchPostStepEstimateUpdates (cfg : Config κ) (s : Scheduler κ) (rs : List ReqId) :
    Scheduler κ :=
  rs.foldl (postStepEstimateUpdate cfg) s

end Scheduler

end TeDiServe

import TeDiServe.Scheduler.Schedule

/-!
# Processing results and ending requests

`updateFromOutput` applies what an executor returned to the requests that the
message had scheduled, ends those that are complete, and gives the executor back.
A request that ended in the meantime is skipped; a request is looked up by its id
only. `finishRequests` is the way out for aborted requests.
-/

namespace TeDiServe

namespace Scheduler

variable {κ : Type}

/-! ## Ending a request -/

/-- `_free_request_on_executor` with `finished` and `prune` set. -/
def freeRequestOnExecutor (cfg : Config κ) (r : ReqId) (s : Scheduler κ) (e : ExecutorId) :
    Except PyError (Scheduler κ) := do
  let s := s.markFree e r
  let rs ← subscript s.requestStates .requestStates r
  pyAssert (e ∈ rs.executorsToFree)
  let s := { s with
    finishedReqIds := s.finishedReqIds.set e ((s.finishedReqIds.getD e OrderedSet.empty).add r) }
  let s ← if rs.executorId = some e then do
      let s ← s.modifyRequestState r RequestState.removeExecutor
      s.modifyExecutorState e fun es => es.removeRequest r
    else s.modifyRequestState r fun rs => rs.removeExecutorToFree e
  let s ← s.freeBlocks cfg r e
  let rs ← subscript s.requestStates .requestStates r
  if rs.executorsToFree.isEmpty then do
    let _ ← subscript s.requests .requests r
    pure
      { s with
        requestStates := s.requestStates.erase r
        requests := s.requests.erase r }
  else pure s

def freeRequest (cfg : Config κ) (s : Scheduler κ) (r : ReqId) : Except PyError (Scheduler κ) := do
  let rs ← subscript s.requestStates .requestStates r
  pyAssert rs.isRunning
  let s ← match rs.pendingExecutorId with
    | none => pure s
    | some e =>
        if rs.executorId = some e then pure s
        else s.modifyExecutorState e fun es => es.unmarkPendingRequestAddition r
  let s ← rs.executorsToFree.items.foldlM (freeRequestOnExecutor cfg r) s
  pure { s with stepEstimatePendingReqIds := s.stepEstimatePendingReqIds.discard r }

/-! ## Results of an executor -/

/-- `sampled_token_ids[req_index] if sampled_token_ids else []`. -/
def generatedTokenIds (out : ModelRunnerOutput) (i : ℕ) : Except PyError (List (ℕ × Token)) :=
  if out.sampledTokenIds = [] then pure []
  else
    match out.sampledTokenIds[i]? with
    | some ts => pure ts
    | none => throw .index

def updateRequestWithOutput (cfg : Config κ) (s : Scheduler κ) (msg : SchedulerOutput)
    (r : ReqId) (req : Request) (tokenIds : List (ℕ × Token)) : Except PyError (Request × Bool) :=
  if tokenIds = [] then pure (req, false)
  else do
    let rs ← subscript s.requestStates .requestStates r
    match cfg.candidateConfidenceThresholds[rs.maxConfidenceThresholdIdx]? with
    | none => throw .index
    | some _ => do
        let _ ← subscript msg.confidenceThresholds .confidenceThresholds r
        let req ← req.updateFromOutput tokenIds
        pure req.checkStop

structure Processed (κ : Type) where
  scheduler : Scheduler κ
  outputs : List EngineCoreOutput
  continued : List ReqId

/-- The request loop of `update_from_output` for one entry of the message. -/
def processRequest (cfg : Config κ) (msg : SchedulerOutput) (res : ModelRunnerOutput)
    (p : Processed κ) (x : ReqId × ℕ) : Except PyError (Processed κ) := do
  pyAssert (0 < x.2)
  match p.scheduler.requests.get? x.1 with
  | none => pure p
  | some req => do
      let i ← subscript res.reqIdToIndex .reqIdToIndex x.1
      let tokenIds ← generatedTokenIds res i
      let y ← p.scheduler.updateRequestWithOutput cfg msg x.1
        { req with isInExecution := false } tokenIds
      let s := { p.scheduler with requests := p.scheduler.requests.set x.1 y.1 }
      let out : EngineCoreOutput :=
        { clientIndex := req.clientIndex
          requestId := x.1
          newTokenIds := tokenIds
          finishReason := y.1.status.getFinishedReason }
      if y.2 then do
        let s ← s.freeRequest cfg x.1
        pure ⟨s, p.outputs ++ [out], p.continued⟩
      else pure ⟨s, p.outputs ++ [out], p.continued ++ [x.1]⟩

def reportDropped (s : Scheduler κ) : Processed κ :=
  { scheduler := { s with droppedDeferredRequests := [] }
    outputs := s.droppedDeferredRequests.map fun req =>
      { clientIndex := req.clientIndex
        requestId := req.requestId
        newTokenIds := []
        finishReason := some .abort }
    continued := [] }

/-- `update_from_output` up to the point where it waits for the executor's lock. -/
def applyOutput (cfg : Config κ) (s : Scheduler κ) (msg : SchedulerOutput)
    (res : ModelRunnerOutput) : Except PyError (Scheduler κ × List EngineCoreOutput) := do
  let p ← msg.numScheduledTokens.entries.foldlM (processRequest cfg msg res) s.reportDropped
  pure (p.scheduler.batchPostStepEstimateUpdates cfg p.continued, p.outputs)

/-- The end of `update_from_output`: with caching, an executor that is to be killed
but still has requests takes no new ones. -/
def releaseExecutor (cfg : Config κ) (s : Scheduler κ) (e : ExecutorId) :
    Except PyError (Scheduler κ) :=
  if cfg.caching then do
    let waiting ← subscript s.executorsManager.waitingToBeKilled .waitingToBeKilled e
    if waiting then do
      let es ← subscript s.executorStates .executorStates e
      s.setExecutorStatus e (if es.isDrained then .idle else .idleNotAcceptingNewRequests)
    else s.setExecutorStatus e .idle
  else s.setExecutorStatus e .idle

/-- `update_from_output`, with no other coroutine running in between. -/
def updateFromOutput (cfg : Config κ) (s : Scheduler κ) (e : ExecutorId) (msg : SchedulerOutput)
    (res : ModelRunnerOutput) : Except PyError (Scheduler κ × List EngineCoreOutput) := do
  let x ← s.applyOutput cfg msg res
  let s ← x.1.releaseExecutor cfg e
  pure (s, x.2)

/-! ## Aborts -/

/-- The argument of `finish_requests`: one id, which becomes a tuple, or a
collection of ids, which becomes a set. The list is in the order in which the set
is traversed. -/
inductive RequestIds where
  | single (r : ReqId)
  | many (rs : List ReqId)

def RequestIds.ids : RequestIds → List ReqId
  | .single r => [r]
  | .many rs => (OrderedSet.ofList rs).items

/-- The deferred ids of the argument are dropped and taken out of it. A tuple has
neither `intersection` nor set difference. -/
def dropDeferred (cfg : Config κ) (s : Scheduler κ) (arg : RequestIds) :
    Except PyError (Scheduler κ × List ReqId) :=
  match arg with
  | .single r =>
      if s.deferredRequests ≠ [] then throw .attribute
      else if s.getDeferredRequestIds [r] ≠ [] then throw .type
      else pure (s, [r])
  | .many _ =>
      let deferred := s.getDeferredRequestIds arg.ids
      if deferred = [] then pure (s, arg.ids)
      else pure (s.dropDeferredRequests cfg deferred true, arg.ids.filter (· ∉ deferred))

def finishRequest (cfg : Config κ) (status : RequestStatus) (s : Scheduler κ) (r : ReqId) :
    Except PyError (Scheduler κ) := do
  let s ← s.modifyRequest r fun req => { req with status }
  s.freeRequest cfg r

def finishRequests (cfg : Config κ) (s : Scheduler κ) (arg : RequestIds) (status : RequestStatus)
    (clock : ReqId → ℚ) : Except PyError (Scheduler κ) := do
  pyAssert status.isFinished
  let x ← s.dropDeferred cfg arg
  let s := x.1.dropDeferredRequests cfg x.2 true
  let valid := x.2.filter (· ∈ s.requests)
  let s ← valid.foldlM (finishRequest cfg status) s
  s.admitDeferredRequests cfg clock

end Scheduler

end TeDiServe

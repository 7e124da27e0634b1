import TeDiServe.Scheduler.Executors

/-!
# Where requests go: stages 0 to 2 of `schedule()`

A scheduling round only touches the executors that were found idle. Stage 0
carries out what was pending for them, stage 1 looks whether a request of theirs
should move, and stage 2 places the unscheduled requests in order of arrival. A
request placed on an executor that is not idle becomes a pending addition there.

`Round` is the scheduler together with the two local variables that the stages
write: the executors that may still receive requests, whose list is sorted in
place by every search, and the requests whose placement was decided.
-/

namespace TeDiServe

structure Round (κ : Type) where
  scheduler : Scheduler κ
  schedulableExecutors : List ExecutorId
  requestsInSchedulerOutput : OrderedSet ReqId

/-- With caching, a request may leave its executor only between two blocks. -/
def canMigrate {κ : Type} (cfg : Config κ) (req : Request) : Bool :=
  !cfg.caching || req.isStartOfNewBlock

namespace Scheduler

variable {κ : Type}

/-! ## Moves of one request -/

def unplace (s : Scheduler κ) (e : ExecutorId) (r : ReqId) : Except PyError (Scheduler κ) := do
  let s ← s.modifyExecutorState e fun es => es.removeRequest r
  let s ← s.modifyRequestState r RequestState.removeExecutor
  s.modifyRequestState r RequestState.removePendingExecutor

def placeNow (cfg : Config κ) (s : Scheduler κ) (e : ExecutorId) (r : ReqId) :
    Except PyError (Scheduler κ) := do
  let req ← subscript s.requests .requests r
  let s ← s.modifyExecutorState e fun es => .ok (es.addRequest req)
  let s ← s.modifyRequestState r fun rs =>
    rs.setExecutor (some e) (some cfg.defaultConfidenceThreshold)
  s.modifyRequestState r fun rs => rs.setPendingExecutor e cfg.defaultConfidenceThreshold

def placeLater (cfg : Config κ) (s : Scheduler κ) (e : ExecutorId) (r : ReqId) :
    Except PyError (Scheduler κ) := do
  let req ← subscript s.requests .requests r
  let s ← s.modifyExecutorState e fun es => .ok (es.markPendingRequestAddition req)
  s.modifyRequestState r fun rs => rs.setPendingExecutor e cfg.defaultConfidenceThreshold

/-! ## The search for an executor -/

def projectedBatchSize (s : Scheduler κ) (e : ExecutorId) : Except PyError ℕ := do
  let es ← subscript s.executorStates .executorStates e
  es.getProjectedBatchSize

def projectedStepLatency (cfg : Config κ) (s : Scheduler κ) (e : ExecutorId) (extra : ℕ) :
    Except PyError ℚ := do
  let es ← subscript s.executorStates .executorStates e
  let b ← es.getProjectedBatchSize
  let x ← getProfileLatency cfg es.tpDegree (b + extra)
  pure x.2

def currentStepLatency (cfg : Config κ) (s : Scheduler κ) :
    Option ExecutorId → Except PyError (WithTop ℚ)
  | none => pure ⊤
  | some e => do
      let latency ← s.projectedStepLatency cfg e 0
      pure (latency : WithTop ℚ)

/-- The scan over the candidates, by increasing projected batch size: it ends at
the first one that has no room. -/
def scanCandidates (cfg : Config κ) (s : Scheduler κ) (numTokens : ℕ)
    (cur : Option ExecutorId) :
    List ExecutorId → Option ExecutorId → WithTop ℚ → Except PyError (Option ExecutorId)
  | [], best, _ => .ok best
  | e :: rest, best, bestLatency =>
      if cur = some e then scanCandidates cfg s numTokens cur rest best bestLatency
      else do
        let b ← s.projectedBatchSize e
        if cfg.maxNumScheduledTokens < b + numTokens then pure best
        else
          let latency ← s.projectedStepLatency cfg e numTokens
          if (latency : WithTop ℚ) < bestLatency then
            scanCandidates cfg s numTokens cur rest (some e) latency
          else scanCandidates cfg s numTokens cur rest best bestLatency

/-- `find_best_executor`: besides the executor it returns the candidates in the
order in which it has sorted them. A request that already has an executor only
tries the least loaded candidate. -/
def findBestExecutor (cfg : Config κ) (s : Scheduler κ) (candidates : List ExecutorId)
    (r : ReqId) (cur : Option ExecutorId) :
    Except PyError (Option ExecutorId × List ExecutorId) := do
  let curLatency ← s.currentStepLatency cfg cur
  let req ← subscript s.requests .requests r
  let sorted ← sortedByKey s.projectedBatchSize candidates
  let tried := if cur.isSome then sorted.take 1 else sorted
  let best ← s.scanCandidates cfg req.numTokens cur tried none curLatency
  pure (best, sorted)

end Scheduler

namespace Round

variable {κ : Type}

open Scheduler

def note (p : Round κ) (r : ReqId) : Round κ :=
  { p with requestsInSchedulerOutput := p.requestsInSchedulerOutput.add r }

def place (cfg : Config κ) (idle : List ExecutorId) (p : Round κ) (e : ExecutorId) (r : ReqId) :
    Except PyError (Round κ) :=
  if e ∈ idle then do
    let s ← p.scheduler.placeNow cfg e r
    pure ({ p with scheduler := s }.note r)
  else do
    let s ← p.scheduler.placeLater cfg e r
    pure { p with scheduler := s }

/-! ## Stage 0 -/

def commitRemoval (e : ExecutorId) (p : Round κ) (r : ReqId) : Except PyError (Round κ) := do
  let rs ← subscript p.scheduler.requestStates .requestStates r
  pyAssert rs.isRunning
  pyAssert (rs.executorId = some e)
  pyAssert (rs.pendingExecutorId = none)
  let es ← subscript p.scheduler.executorStates .executorStates e
  pyAssert (r ∈ es.reqIds)
  let s ← p.scheduler.modifyExecutorState e fun es => es.commitPendingRequestRemoval r
  let s ← s.modifyRequestState r RequestState.removeExecutor
  pure ({ p with scheduler := s }.note r)

def commitAddition (e : ExecutorId) (p : Round κ) (r : ReqId) : Except PyError (Round κ) := do
  let rs ← subscript p.scheduler.requestStates .requestStates r
  pyAssert (rs.isScheduled || rs.isRunning)
  if rs.isScheduled then do
    let s ← p.scheduler.modifyExecutorState e fun es => es.commitPendingRequestAddition r
    let s ← s.modifyRequestState r RequestState.commitPendingExecutor
    pure ({ p with scheduler := s }.note r)
  else if rs.isRunning then throw .zeroDivision
  else throw .runtime

def commitRemovals (p : Round κ) (e : ExecutorId) : Except PyError (Round κ) := do
  let es ← subscript p.scheduler.executorStates .executorStates e
  es.pendingRequestRemovals.items.foldlM (commitRemoval e) p

def commitAdditions (p : Round κ) (e : ExecutorId) : Except PyError (Round κ) := do
  let es ← subscript p.scheduler.executorStates .executorStates e
  es.pendingRequestAdditions.items.foldlM (commitAddition e) p

def stage0 (found : List ExecutorId) (p : Round κ) : Except PyError (Round κ) := do
  let p ← found.foldlM commitRemovals p
  let p ← found.foldlM commitAdditions p
  let done ← found.mapM fun e => do
    let es ← subscript p.scheduler.executorStates .executorStates e
    pure es.hasNoPendingChanges
  pyAssert (done.all id)
  pure p

/-! ## Stage 1 -/

def reconsider (cfg : Config κ) (idle notAccepting : List ExecutorId) (e : ExecutorId)
    (p : Round κ) (r : ReqId) : Except PyError (Round κ) := do
  let req ← subscript p.scheduler.requests .requests r
  if !canMigrate cfg req then pure (p.note r)
  else if e ∈ notAccepting then do
    let s ← p.scheduler.unplace e r
    pure ({ p with scheduler := s }.note r)
  else do
    let (best, sorted) ← p.scheduler.findBestExecutor cfg p.schedulableExecutors r (some e)
    let p := { p with schedulableExecutors := sorted }
    match best with
    | none => pure (p.note r)
    | some b => do
        let s ← p.scheduler.unplace e r
        ({ p with scheduler := s }.note r).place cfg idle b r

def reconsiderExecutor (cfg : Config κ) (idle notAccepting : List ExecutorId)
    (p : Round κ) (e : ExecutorId) : Except PyError (Round κ) := do
  let es ← subscript p.scheduler.executorStates .executorStates e
  let p ← es.reqIds.items.foldlM (reconsider cfg idle notAccepting e) p
  pure (if e ∈ idle then
      { p with schedulableExecutors := p.schedulableExecutors ++ [e] }
    else p)

def stage1 (cfg : Config κ) (idle notAccepting : List ExecutorId) (p : Round κ) :
    Except PyError (Round κ) := do
  let order ← sortedByKey (fun e => do
    let es ← subscript p.scheduler.executorStates .executorStates e
    es.getBatchSize) (idle ++ notAccepting)
  order.foldlM (reconsiderExecutor cfg idle notAccepting) p

/-! ## Stage 2 -/

def placeUnscheduled (cfg : Config κ) (idle : List ExecutorId) :
    List ReqId → Round κ → Except PyError (Round κ)
  | [], p => .ok p
  | r :: rest, p => do
      let (best, sorted) ← p.scheduler.findBestExecutor cfg p.schedulableExecutors r none
      let p := { p with schedulableExecutors := sorted }
      match best with
      | none => pure p
      | some b => do
          let p ← p.place cfg idle b r
          placeUnscheduled cfg idle rest p

def unscheduledRequests (s : Scheduler κ) : List ReqId :=
  (s.requestStates.entries.filter fun x => x.2.isUnscheduled).map Prod.fst

def stage2 (cfg : Config κ) (idle : List ExecutorId) (p : Round κ) : Except PyError (Round κ) := do
  let order ← sortedByKey (fun r => do
    let req ← subscript p.scheduler.requests .requests r
    pure req.arrivalTime) (unscheduledRequests p.scheduler)
  placeUnscheduled cfg idle order p

end Round

end TeDiServe

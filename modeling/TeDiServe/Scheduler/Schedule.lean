import TeDiServe.Scheduler.Confidence

/-!
# Issuing the work of a round: stages 5 and 6 of `schedule()`

Stage 5 compares, for every request whose placement was decided, the executor it
had at the start of the round with the one it has now, and writes the difference
into tables: the executor it left frees it, the executor it came to gets it as a
new request with all its tokens, and the executor it stayed on gets it as a cached
one. Stage 6 turns the tables into one message for every executor that has
something to run or to free, and gives the others back.

The order in which stage 5 visits the requests is that of a Python set.
-/

namespace TeDiServe

structure Tables where
  scheduledNewReqs : Dict ExecutorId (List ReqId)
  scheduledRunningReqs : Dict ExecutorId (List ReqId)
  reqToNewBlockIds : Dict ExecutorId (Dict ReqId (List ℕ))
  numScheduledTokens : Dict ExecutorId (Dict ReqId ℕ)

namespace Tables

def empty : Tables := ⟨Dict.empty, Dict.empty, Dict.empty, Dict.empty⟩

/-- `table[e][r] = v` on a dictionary of dictionaries with defaults. -/
def setIn {V : Type} (d : Dict ExecutorId (Dict ReqId V)) (e : ExecutorId) (r : ReqId) (v : V) :
    Dict ExecutorId (Dict ReqId V) :=
  d.set e ((d.getD e Dict.empty).set r v)

/-- Remove `table[e][r]` if it is there, and `table[e]` if nothing is left in it. -/
def popIn {V : Type} (d : Dict ExecutorId (Dict ReqId V)) (e : ExecutorId) (r : ReqId) :
    Dict ExecutorId (Dict ReqId V) :=
  match d.get? e with
  | none => d
  | some t =>
      if r ∈ t then
        if (t.erase r).keys = [] then d.erase e else d.set e (t.erase r)
      else d

/-- `table[e].append(r)` on a dictionary of lists with defaults. -/
def appendIn (d : Dict ExecutorId (List ReqId)) (e : ExecutorId) (r : ReqId) :
    Dict ExecutorId (List ReqId) :=
  d.set e (d.getD e [] ++ [r])

end Tables

def Request.determineNewExecTokens (req : Request) : Request :=
  { req with execStartPos := 0, numExecTokens := req.numTokens }

/-- `determine_running_exec_tokens`: a cached step starts at the current block, and
with a cached suffix also ends with it. -/
def Request.determineRunningExecTokens {κ : Type} (cfg : Config κ) (req : Request) : Request :=
  let start := if cfg.cachePrefix && !req.isStartOfNewBlock then req.curBlockStart else 0
  { req with
    execStartPos := start
    numExecTokens :=
      if cfg.cacheSuffix && !req.isStartOfNewBlock then req.denoiseBlockSize
      else req.numTokens - start }

def NewRequestData.fromRequest (req : Request) (blockIds : List ℕ) : NewRequestData :=
  { reqId := req.requestId
    promptTokenIds := req.promptTokenIds
    unmaskedTokenIds := req.unmaskedTokenIds
    blockIds
    numComputedTokens := req.numComputedTokens
    outputLength := req.outputLength
    numDenoiseRan := req.numDenoiseRan
    curBlockStart := req.curBlockStart
    denoiseBlockSize := req.denoiseBlockSize
    execStartPos := req.execStartPos
    numExecTokens := req.numExecTokens }

namespace Scheduler

variable {κ : Type}

def freeBlocks (cfg : Config κ) (s : Scheduler κ) (r : ReqId) (e : ExecutorId) :
    Except PyError (Scheduler κ) := do
  let m ← subscript s.kvCacheManagers .kvCacheManagers e
  pure { s with kvCacheManagers := s.kvCacheManagers.set e (cfg.kv.free m r) }

def markFree (s : Scheduler κ) (e : ExecutorId) (r : ReqId) : Scheduler κ :=
  { s with freeReqIds := s.freeReqIds.set e ((s.freeReqIds.getD e OrderedSet.empty).add r) }

/-! ## Stage 5 -/

def allocate (cfg : Config κ) (s : Scheduler κ) (req : Request) (e : ExecutorId) :
    Except PyError (Scheduler κ) :=
  if cfg.caching then do
    let m ← subscript s.kvCacheManagers .kvCacheManagers e
    match cfg.kv.allocateSlots m req req.numTokens with
    | none => throw .assertion
    | some m => pure { s with kvCacheManagers := s.kvCacheManagers.set e m }
  else pure s

def addNewRequest (cfg : Config κ) (s : Scheduler κ) (t : Tables) (r : ReqId) (e : ExecutorId) :
    Except PyError (Scheduler κ × Tables) := do
  let req ← subscript s.requests .requests r
  let s ← s.allocate cfg req e
  let m ← subscript s.kvCacheManagers .kvCacheManagers e
  let s ← s.modifyRequest r fun req =>
    { req.determineNewExecTokens with status := .running }
  pure (s.markExecutorConfidenceThresholdsDirty e,
    { t with
      scheduledNewReqs := Tables.appendIn t.scheduledNewReqs e r
      reqToNewBlockIds := Tables.setIn t.reqToNewBlockIds e r (cfg.kv.getBlockIds m r)
      numScheduledTokens := Tables.setIn t.numScheduledTokens e r req.numTokens })

def addRunningRequest (cfg : Config κ) (s : Scheduler κ) (t : Tables) (r : ReqId)
    (e : ExecutorId) : Except PyError (Scheduler κ × Tables) := do
  let req ← subscript s.requests .requests r
  let s ← s.modifyRequest r fun req =>
    { req.determineRunningExecTokens cfg with status := .running }
  pure (s,
    { t with
      scheduledRunningReqs := Tables.appendIn t.scheduledRunningReqs e r
      reqToNewBlockIds := Tables.setIn t.reqToNewBlockIds e r []
      numScheduledTokens := Tables.setIn t.numScheduledTokens e r
        (req.determineRunningExecTokens cfg).numExecTokens })

/-- `remove_request`, with the unfinished case of `_free_request_on_executor`. -/
def dropRequest (cfg : Config κ) (s : Scheduler κ) (t : Tables) (r : ReqId) (e : ExecutorId) :
    Except PyError (Scheduler κ × Tables) := do
  let s ← (s.markFree e r).freeBlocks cfg r e
  let s ← s.modifyRequest r fun req => { req with status := .waiting }
  pure (s.markExecutorConfidenceThresholdsDirty e,
    { t with
      numScheduledTokens := Tables.popIn t.numScheduledTokens e r
      reqToNewBlockIds := Tables.popIn t.reqToNewBlockIds e r })

def leave (cfg : Config κ) (x : Scheduler κ × Tables) (r : ReqId) :
    Option ExecutorId → Except PyError (Scheduler κ × Tables)
  | some e => dropRequest cfg x.1 x.2 r e
  | none => pure x

def arrive (cfg : Config κ) (x : Scheduler κ × Tables) (r : ReqId) :
    Option ExecutorId → Except PyError (Scheduler κ × Tables)
  | some e => addNewRequest cfg x.1 x.2 r e
  | none => pure x

/-- What stage 5 does for one request. -/
def finalize (cfg : Config κ) (found : List ExecutorId) (old : Dict ReqId (Option ExecutorId))
    (x : Scheduler κ × Tables) (r : ReqId) : Except PyError (Scheduler κ × Tables) := do
  let rs ← subscript x.1.requestStates .requestStates r
  let oldExecutor := (old.get? r).join
  if oldExecutor ≠ rs.executorId then do
    let x ← leave cfg x r oldExecutor
    arrive cfg x r rs.executorId
  else
    match rs.executorId with
    | none => pure x
    | some e => do
        pyAssert (e ∈ found)
        addRunningRequest cfg x.1 x.2 r e

def stage5 (cfg : Config κ) (env : ScheduleEnv) (found : List ExecutorId)
    (old : Dict ReqId (Option ExecutorId)) (p : Round κ) :
    Except PyError (Scheduler κ × Tables) :=
  (env.setOrder p.requestsInSchedulerOutput.items).foldlM (finalize cfg found old)
    ({ p.scheduler with confMarkCounter := p.scheduler.confMarkCounter + 1 }, Tables.empty)

/-! ## Stage 6 -/

def setConfidence (cfg : Config κ) (clock : ReqId → ℕ → ℚ) (e : ExecutorId) (batch : List ReqId)
    (x : Scheduler κ × Dict ReqId ℚ) (r : ReqId) : Except PyError (Scheduler κ × Dict ReqId ℚ) := do
  let rs ← subscript x.1.requestStates .requestStates r
  let es ← subscript x.1.executorStates .executorStates e
  let best ← x.1.selectConfidence cfg (clock r) rs r es.tpDegree batch
  match best with
  | none => throw .assertion
  | some c => do
      let s ← x.1.modifyRequestState r fun rs =>
        { rs with confidenceThreshold := some c, confidenceThresholdDirty := false }
      pure (s, x.2.set r c)

def makeNewRequestData (s : Scheduler κ) (blockIds : Dict ReqId (List ℕ)) (r : ReqId) :
    Except PyError NewRequestData := do
  let req ← subscript s.requests .requests r
  let b ← subscript blockIds .reqToNewBlockIds r
  pure (NewRequestData.fromRequest req b)

/-- `_make_cached_request_data`; requests are never resumed here. -/
def makeCachedRequestData (s : Scheduler κ) (blockIds : Dict ReqId (List ℕ)) (rs : List ReqId) :
    Except PyError CachedRequestData := do
  let reqs ← rs.mapM (subscript s.requests .requests)
  let bs ← rs.mapM (subscript blockIds .reqToNewBlockIds)
  pure
    { reqIds := rs
      newBlockIds := bs
      numComputedTokens := reqs.map Request.numComputedTokens
      numDenoiseRan := reqs.map Request.numDenoiseRan
      curBlockStart := reqs.map Request.curBlockStart
      denoiseBlockSize := reqs.map Request.denoiseBlockSize
      execStartPos := reqs.map Request.execStartPos }

def startPositions (new : List NewRequestData) (cached : CachedRequestData) : Dict ReqId ℕ :=
  (cached.reqIds.zip cached.execStartPos).foldl (fun d x => d.set x.1 x.2)
    (new.foldl (fun d x => d.set x.reqId x.execStartPos) Dict.empty)

def updateAfterSchedule (s : Scheduler κ) (e : ExecutorId) (out : SchedulerOutput) :
    Except PyError (Scheduler κ) := do
  let s ← out.numScheduledTokens.entries.foldlM (fun s x =>
    s.modifyRequest x.1 fun req =>
      { req with
        numComputedTokens := req.numComputedTokens + x.2
        isInExecution := true }) s
  pure
    { s with
      finishedReqIds := s.finishedReqIds.set e OrderedSet.empty
      freeReqIds := s.freeReqIds.set e OrderedSet.empty }

def makeOutput (cfg : Config κ) (env : ScheduleEnv) (t : Tables) (s : Scheduler κ)
    (e : ExecutorId) : Except PyError (Scheduler κ × SchedulerOutput) := do
  let blockIds := t.reqToNewBlockIds.getD e Dict.empty
  let tokens := t.numScheduledTokens.getD e Dict.empty
  let new ← (t.scheduledNewReqs.getD e []).mapM (s.makeNewRequestData blockIds)
  let cached ← s.makeCachedRequestData blockIds (t.scheduledRunningReqs.getD e [])
  let x ← tokens.keys.foldlM (setConfidence cfg env.clock e tokens.keys) (s, Dict.empty)
  let out : SchedulerOutput :=
    { scheduledNewReqs := new
      scheduledCachedReqs := cached
      numScheduledTokens := tokens
      execStartPos := startPositions new cached
      totalNumScheduledTokens := tokens.values.sum
      finishedReqIds := x.1.finishedReqIds.getD e OrderedSet.empty
      freeReqIds := x.1.freeReqIds.getD e OrderedSet.empty
      confidenceThresholds := x.2 }
  let s ← x.1.updateAfterSchedule e out
  pure (s, out)

/-- Stage 6 for one executor: with nothing to run and nothing to free it is given
back, otherwise it gets a message. -/
def issue (cfg : Config κ) (env : ScheduleEnv) (notAccepting : List ExecutorId) (t : Tables)
    (x : Scheduler κ × Dict ExecutorId SchedulerOutput) (e : ExecutorId) :
    Except PyError (Scheduler κ × Dict ExecutorId SchedulerOutput) :=
  if e ∉ t.numScheduledTokens ∧ (x.1.freeReqIds.getD e OrderedSet.empty).isEmpty then do
    if e ∈ notAccepting then
      let es ← subscript x.1.executorStates .executorStates e
      pyAssert es.isDrained
    let s ← x.1.setExecutorStatus e .idle
    pure (s, x.2)
  else do
    let s ← x.1.setExecutorStatus e .scheduled
    let y ← s.makeOutput cfg env t e
    pure (y.1, x.2.set e y.2)

/-! ## The whole call -/

def considerIdle (s : Scheduler κ) : Scheduler κ :=
  { s with
    executorsManager :=
      { s.executorsManager with
        executors := s.executorsManager.executors.mapValues fun x =>
          if x.status = .idle ∨ x.status = .idleNotAcceptingNewRequests then
            { x with status := .consideredForScheduling }
          else x } }

def executorsWithStatus (s : Scheduler κ) (st : ExecutorStatus) : List ExecutorId :=
  s.executorsManager.executors.keys.filter fun e => s.executorsManager.status? e = some st

def schedulableExecutors (s : Scheduler κ) (found : List ExecutorId) :
    Except PyError (List ExecutorId) := do
  let xs ← s.executorStates.keys.mapM fun e => do
    let x ← subscript s.executorsManager.executors .executors e
    pure (e, x.status)
  pure ((xs.filter fun x => x.2 ≠ .killing ∧ x.1 ∉ found).map Prod.fst)

structure Plan (κ : Type) where
  scheduler : Scheduler κ
  idleExecutors : List ExecutorId
  idleNotAcceptingExecutors : List ExecutorId
  tables : Tables

def Plan.found (p : Plan κ) : List ExecutorId :=
  p.idleExecutors ++ p.idleNotAcceptingExecutors

/-- `schedule()` up to stage 5, after the executors were looked at. -/
def plan (cfg : Config κ) (env : ScheduleEnv) (s : Scheduler κ) : Except PyError (Plan κ) := do
  let old := s.requestStates.mapValues RequestState.executorId
  let s := s.drainStepEstimateUpdates cfg env.predict
  let idle := s.executorsWithStatus .idle
  let notAccepting := s.executorsWithStatus .idleNotAcceptingNewRequests
  let s := s.considerIdle
  if idle ++ notAccepting = [] then pure ⟨s, idle, notAccepting, Tables.empty⟩
  else do
    let schedulable ← s.schedulableExecutors (idle ++ notAccepting)
    let p ← Round.stage0 (idle ++ notAccepting) ⟨s, schedulable, OrderedSet.empty⟩
    let p ← p.stage1 cfg idle notAccepting
    let p ← p.stage2 cfg idle
    let x ← stage5 cfg env (idle ++ notAccepting) old p
    pure ⟨x.1, idle, notAccepting, x.2⟩

def prepare (cfg : Config κ) (env : ScheduleEnv) (s : Scheduler κ) : Except PyError (Plan κ) := do
  let s ← s.admitDeferredRequests cfg env.admitClock
  let s ← s.updateExecutors cfg
  s.plan cfg env

/-- `_make_drop_flush_scheduler_output`: an empty message for the first executor
that the scheduler has a record of. -/
def makeDropFlushSchedulerOutput (s : Scheduler κ) : Dict ExecutorId SchedulerOutput :=
  match s.executorStates.keys with
  | [] => Dict.empty
  | e :: _ =>
      Dict.empty.set e
        { scheduledNewReqs := []
          scheduledCachedReqs := ⟨[], [], [], [], [], [], []⟩
          numScheduledTokens := Dict.empty
          execStartPos := Dict.empty
          totalNumScheduledTokens := 0
          finishedReqIds := OrderedSet.empty
          freeReqIds := OrderedSet.empty
          confidenceThresholds := Dict.empty }

/-- The end of the call: a flush message when nothing else is sent and dropped
requests are waiting to be reported. Without idle executors the call has returned
before. -/
def flush (s : Scheduler κ) (found : List ExecutorId) (outs : Dict ExecutorId SchedulerOutput) :
    Dict ExecutorId SchedulerOutput :=
  if found ≠ [] ∧ outs.keys = [] ∧ s.droppedDeferredRequests ≠ [] then
    s.makeDropFlushSchedulerOutput
  else outs

/-- `schedule()`, with no other coroutine running in between. -/
def schedule (cfg : Config κ) (env : ScheduleEnv) (s : Scheduler κ) :
    Except PyError (Scheduler κ × Dict ExecutorId SchedulerOutput) := do
  let p ← s.prepare cfg env
  let x ← p.found.foldlM (issue cfg env p.idleNotAcceptingExecutors p.tables)
    (p.scheduler, Dict.empty)
  pure (x.1, x.1.flush p.found x.2)

end Scheduler

end TeDiServe

import TeDiServe.Scheduler.States

/-!
# The state of the scheduler

`Scheduler κ` collects the attributes of the scheduler object that its methods
read and write, and `Config κ` those that are fixed when it is built. The KV
cache manager of an executor is a value of an arbitrary type `κ` with the
operations that the scheduler calls, so that nothing here depends on how blocks
are kept.

Three things are not under the control of the scheduler and are inputs of a
call: the readings of the clock, the predictions of the step estimator, and the
order in which a Python set is traversed.
-/

namespace TeDiServe

/-- A profile maps batch sizes to step latencies, by increasing batch size. -/
structure LatencyProfile where
  profile : List (ℕ × ℚ)
  sorted : (profile.map Prod.fst).Pairwise (· < ·)

/-- The smallest profiled batch size that is at least `numTokens`, with its
latency. -/
def LatencyProfile.lookup (p : LatencyProfile) (numTokens : ℕ) : Option (ℕ × ℚ) :=
  if numTokens = 0 then none else p.profile.find? fun x => numTokens ≤ x.1

structure KVCacheOps (κ : Type) where
  create : ExecutorId → κ
  allocateSlots : κ → Request → ℕ → Option κ
  getBlockIds : κ → ReqId → List ℕ
  free : κ → ReqId → κ

/-- The attributes of the scheduler that never change. -/
structure Config (κ : Type) where
  maxNumScheduledTokens : ℕ
  candidateConfidenceThresholds : List ℚ
  defaultConfidenceThreshold : ℚ
  cachePrefix : Bool
  cacheSuffix : Bool
  requestLatencySlo : ℚ
  maxNumUnfinishedRequests : Option ℕ
  enableDropping : Bool
  syncStepPrediction : Bool
  stepEstimatorRefreshUnmaskedTokenDelta : ℤ
  latencyProfiles : Dict ℕ LatencyProfile
  tpDegreeToThroughputSupply : Dict ℕ ℚ
  getInitialDefaultPredictions : Request → Dict ℚ ℚ
  kv : KVCacheOps κ

/-- `cache_prefix or cache_suffix`. -/
def Config.caching {κ : Type} (cfg : Config κ) : Bool := cfg.cachePrefix || cfg.cacheSuffix

structure Scheduler (κ : Type) where
  executorsManager : ExecutorsManager
  executorStates : Dict ExecutorId ExecutorState
  maxTpDegree : ℕ
  requests : Dict ReqId Request
  requestStates : Dict ReqId RequestState
  deferredRequestStates : Dict ReqId RequestState
  deferredRequests : List Request
  droppedDeferredRequests : List Request
  finishedReqIds : Dict ExecutorId (OrderedSet ReqId)
  freeReqIds : Dict ExecutorId (OrderedSet ReqId)
  kvCacheManagers : Dict ExecutorId κ
  throughputSupply : ℚ
  stepEstimatePendingReqIds : OrderedSet ReqId
  confMarkCounter : ℕ
  executorConfMarkVersion : Dict ExecutorId ℕ
  minMaxConfidenceThresholdIdx : ℕ

structure NewRequestData where
  reqId : ReqId
  promptTokenIds : List Token
  unmaskedTokenIds : List (ℕ × Token)
  blockIds : List ℕ
  numComputedTokens : ℕ
  outputLength : ℕ
  numDenoiseRan : ℕ
  curBlockStart : ℕ
  denoiseBlockSize : ℕ
  execStartPos : ℕ
  numExecTokens : ℕ

/-- Data of the requests that the executor keeps, one column per field. -/
structure CachedRequestData where
  reqIds : List ReqId
  newBlockIds : List (List ℕ)
  numComputedTokens : List ℕ
  numDenoiseRan : List ℕ
  curBlockStart : List ℕ
  denoiseBlockSize : List ℕ
  execStartPos : List ℕ

structure SchedulerOutput where
  scheduledNewReqs : List NewRequestData
  scheduledCachedReqs : CachedRequestData
  numScheduledTokens : Dict ReqId ℕ
  execStartPos : Dict ReqId ℕ
  totalNumScheduledTokens : ℕ
  finishedReqIds : OrderedSet ReqId
  freeReqIds : OrderedSet ReqId
  confidenceThresholds : Dict ReqId ℚ

structure ModelRunnerOutput where
  reqIdToIndex : Dict ReqId ℕ
  sampledTokenIds : List (List (ℕ × Token))

structure EngineCoreOutput where
  clientIndex : ℕ
  requestId : ReqId
  newTokenIds : List (ℕ × Token)
  finishReason : Option FinishReason
  deriving DecidableEq

/-- What a call of `schedule()` does not determine itself: the clock at each
reading, the step predictions, and the order of set traversals. Stage 6 reads the
clock for a request once to see whether its deadline is possible at all (reading
`0`) and once per candidate threshold. -/
structure ScheduleEnv where
  admitClock : ReqId → ℚ
  clock : ReqId → ℕ → ℚ
  predict : ReqId → ℚ → ℚ
  setOrder : List ReqId → List ReqId
  setOrder_perm : ∀ l, (setOrder l).Perm l

namespace Scheduler

variable {κ : Type}

def empty (m : ExecutorsManager) : Scheduler κ :=
  { executorsManager := m
    executorStates := Dict.empty
    maxTpDegree := 0
    requests := Dict.empty
    requestStates := Dict.empty
    deferredRequestStates := Dict.empty
    deferredRequests := []
    droppedDeferredRequests := []
    finishedReqIds := Dict.empty
    freeReqIds := Dict.empty
    kvCacheManagers := Dict.empty
    throughputSupply := 0
    stepEstimatePendingReqIds := OrderedSet.empty
    confMarkCounter := 0
    executorConfMarkVersion := Dict.empty
    minMaxConfidenceThresholdIdx := 0 }

/-- Apply a method to `self.executor_states[e]`. -/
def modifyExecutorState (s : Scheduler κ) (e : ExecutorId)
    (f : ExecutorState → Except PyError ExecutorState) : Except PyError (Scheduler κ) := do
  let es ← subscript s.executorStates .executorStates e
  let es' ← f es
  pure { s with executorStates := s.executorStates.set e es' }

def modifyRequestState (s : Scheduler κ) (r : ReqId) (f : RequestState → RequestState) :
    Except PyError (Scheduler κ) := do
  let rs ← subscript s.requestStates .requestStates r
  pure { s with requestStates := s.requestStates.set r (f rs) }

def modifyRequest (s : Scheduler κ) (r : ReqId) (f : Request → Request) :
    Except PyError (Scheduler κ) := do
  let req ← subscript s.requests .requests r
  pure { s with requests := s.requests.set r (f req) }

def setExecutorStatus (s : Scheduler κ) (e : ExecutorId) (st : ExecutorStatus) :
    Except PyError (Scheduler κ) := do
  let m ← s.executorsManager.setStatus e st
  pure { s with executorsManager := m }

/-- `self.request_states.get(r) or self.deferred_request_states.get(r)`. -/
def getState? (s : Scheduler κ) (r : ReqId) : Option RequestState :=
  (s.requestStates.get? r).or (s.deferredRequestStates.get? r)

def updateState (s : Scheduler κ) (r : ReqId) (f : RequestState → RequestState) : Scheduler κ :=
  match s.requestStates.get? r with
  | some rs => { s with requestStates := s.requestStates.set r (f rs) }
  | none =>
      match s.deferredRequestStates.get? r with
      | some rs => { s with deferredRequestStates := s.deferredRequestStates.set r (f rs) }
      | none => s

def getNumUnfinishedRequests (s : Scheduler κ) : ℕ := s.requestStates.keys.length

def markConfidenceThresholdDirty (s : Scheduler κ) (r : ReqId) : Scheduler κ :=
  s.updateState r fun rs => { rs with confidenceThresholdDirty := true }

/-- Mark the requests projected on an executor, once for each mark cycle. -/
def markExecutorConfidenceThresholdsDirty (s : Scheduler κ) (e : ExecutorId) : Scheduler κ :=
  match s.executorStates.get? e with
  | none => s
  | some es =>
      if s.executorConfMarkVersion.get? e = some s.confMarkCounter then s
      else
        es.getProjectedReqIds.foldl markConfidenceThresholdDirty
          { s with executorConfMarkVersion := s.executorConfMarkVersion.set e s.confMarkCounter }

/-- `get_profile_latency`: a size without profile entry cannot be unpacked. -/
def getProfileLatency (cfg : Config κ) (tpDegree batchSize : ℕ) : Except PyError (ℕ × ℚ) := do
  let p ← subscript cfg.latencyProfiles .latencyProfiles tpDegree
  match p.lookup batchSize with
  | some x => pure x
  | none => throw .type

end Scheduler

end TeDiServe

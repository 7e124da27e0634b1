import TeDiServe.Executor.Manager
import TeDiServe.Request.Basic

/-!
# The two mirrored records of a placement

The scheduler writes down where a request is in two places: `ExecutorState` lists
the requests of one executor, `RequestState` names the executor of one request.
Both also know the future: a request may be waiting for a busy executor, as a
pending addition there. The operations below are the only writers of either
record. Each of them keeps its assertions, so an operation that meets an
unexpected record raises.

`RequestState.Represents` reads a request record as one of three locations:
unscheduled, pending on an executor, or running on an executor.
-/

namespace TeDiServe

structure ExecutorState where
  executorId : ExecutorId
  tpDegree : ℕ
  reqIds : OrderedSet ReqId
  pendingRequestAdditions : OrderedSet ReqId
  pendingRequestRemovals : OrderedSet ReqId
  reqToTokensNeeded : Dict ReqId ℕ

namespace ExecutorState

def ofExecutor (x : Executor) : ExecutorState :=
  { executorId := x.id
    tpDegree := x.bundleIds.length
    reqIds := OrderedSet.empty
    pendingRequestAdditions := OrderedSet.empty
    pendingRequestRemovals := OrderedSet.empty
    reqToTokensNeeded := Dict.empty }

def addRequest (es : ExecutorState) (req : Request) : ExecutorState :=
  { es with
    reqIds := es.reqIds.add req.requestId
    reqToTokensNeeded := es.reqToTokensNeeded.set req.requestId req.numTokens }

def unmarkPendingRequestRemoval (es : ExecutorState) (r : ReqId) :
    Except PyError ExecutorState := do
  pyAssert (r ∈ es.pendingRequestRemovals)
  pure { es with pendingRequestRemovals := es.pendingRequestRemovals.discard r }

def removeRequest (es : ExecutorState) (r : ReqId) : Except PyError ExecutorState := do
  let _ ← subscript es.reqToTokensNeeded .reqToTokensNeeded r
  let es' : ExecutorState :=
    { es with
      reqIds := es.reqIds.discard r
      reqToTokensNeeded := es.reqToTokensNeeded.erase r }
  if r ∈ es.pendingRequestRemovals then es'.unmarkPendingRequestRemoval r else pure es'

def markPendingRequestAddition (es : ExecutorState) (req : Request) : ExecutorState :=
  { es with
    pendingRequestAdditions := es.pendingRequestAdditions.add req.requestId
    reqToTokensNeeded := es.reqToTokensNeeded.set req.requestId req.numTokens }

def unmarkPendingRequestAddition (es : ExecutorState) (r : ReqId) :
    Except PyError ExecutorState := do
  pyAssert (r ∈ es.pendingRequestAdditions)
  pure
    { es with
      pendingRequestAdditions := es.pendingRequestAdditions.discard r
      reqToTokensNeeded := es.reqToTokensNeeded.erase r }

def commitPendingRequestAddition (es : ExecutorState) (r : ReqId) :
    Except PyError ExecutorState := do
  pyAssert (r ∈ es.pendingRequestAdditions)
  pyAssert (r ∉ es.reqIds)
  pure
    { es with
      pendingRequestAdditions := es.pendingRequestAdditions.discard r
      reqIds := es.reqIds.add r }

def commitPendingRequestRemoval (es : ExecutorState) (r : ReqId) :
    Except PyError ExecutorState := do
  pyAssert (r ∈ es.pendingRequestRemovals)
  pyAssert (r ∈ es.reqIds)
  let _ ← subscript es.reqToTokensNeeded .reqToTokensNeeded r
  pure
    { es with
      pendingRequestRemovals := es.pendingRequestRemovals.discard r
      reqIds := es.reqIds.discard r
      reqToTokensNeeded := es.reqToTokensNeeded.erase r }

def getProjectedReqIds (es : ExecutorState) : List ReqId :=
  es.reqIds.items.filter (fun r => r ∉ es.pendingRequestRemovals) ++
    es.pendingRequestAdditions.items

def tokensNeeded (es : ExecutorState) (rs : List ReqId) : Except PyError ℕ := do
  let ns ← rs.mapM (subscript es.reqToTokensNeeded .reqToTokensNeeded)
  pure ns.sum

def getBatchSize (es : ExecutorState) : Except PyError ℕ :=
  es.tokensNeeded es.reqIds.items

def getProjectedBatchSize (es : ExecutorState) : Except PyError ℕ :=
  es.tokensNeeded es.getProjectedReqIds

def hasNoPendingChanges (es : ExecutorState) : Bool :=
  es.pendingRequestAdditions.isEmpty && es.pendingRequestRemovals.isEmpty

def isDrained (es : ExecutorState) : Bool :=
  es.reqIds.isEmpty && es.pendingRequestAdditions.isEmpty &&
    es.pendingRequestRemovals.isEmpty

end ExecutorState

inductive RequestStateStatus where
  | unscheduled
  | scheduled
  | running
  deriving DecidableEq, Repr

structure RequestState where
  executorId : Option ExecutorId
  executorsToFree : OrderedSet ExecutorId
  pendingExecutorId : Option ExecutorId
  predNumStepsLeft : Dict ℚ ℚ
  confidenceThreshold : Option ℚ
  pendingConfidenceThreshold : Option ℚ
  status : RequestStateStatus
  maxConfidenceThresholdIdx : ℕ
  lastStepEstimateRefreshUnmaskedTokens : ℕ
  confidenceThresholdDirty : Bool

namespace RequestState

def init (predNumStepsLeft : Dict ℚ ℚ) (maxConfidenceThresholdIdx : ℕ) : RequestState :=
  { executorId := none
    executorsToFree := OrderedSet.empty
    pendingExecutorId := none
    predNumStepsLeft
    confidenceThreshold := none
    pendingConfidenceThreshold := none
    status := .unscheduled
    maxConfidenceThresholdIdx
    lastStepEstimateRefreshUnmaskedTokens := 0
    confidenceThresholdDirty := true }

def refreshStatus (rs : RequestState) : RequestState :=
  { rs with
    status :=
      if rs.executorId.isSome then .running
      else if rs.pendingExecutorId.isSome then .scheduled
      else .unscheduled }

def setExecutor (rs : RequestState) (e : Option ExecutorId) (conf : Option ℚ) : RequestState :=
  refreshStatus
    { rs with
      executorId := e
      executorsToFree :=
        match e with
        | some e => rs.executorsToFree.add e
        | none => rs.executorsToFree
      confidenceThreshold := conf }

def removeExecutor (rs : RequestState) : RequestState :=
  refreshStatus
    { rs with
      executorsToFree :=
        match rs.executorId with
        | some e => rs.executorsToFree.discard e
        | none => rs.executorsToFree
      executorId := none
      confidenceThreshold := none }

def setPendingExecutor (rs : RequestState) (e : ExecutorId) (conf : ℚ) : RequestState :=
  refreshStatus
    { rs with
      pendingExecutorId := some e
      pendingConfidenceThreshold := some conf }

def removePendingExecutor (rs : RequestState) : RequestState :=
  refreshStatus
    { rs with
      pendingExecutorId := none
      pendingConfidenceThreshold := none }

/-- The pending executor becomes the executor; the pending fields keep their values. -/
def commitPendingExecutor (rs : RequestState) : RequestState :=
  (rs.setExecutor rs.pendingExecutorId rs.pendingConfidenceThreshold).refreshStatus

def removeExecutorToFree (rs : RequestState) (e : ExecutorId) : RequestState :=
  { rs with executorsToFree := rs.executorsToFree.discard e }

def isUnscheduled (rs : RequestState) : Bool := rs.status = .unscheduled

def isScheduled (rs : RequestState) : Bool := rs.status = .scheduled

def isRunning (rs : RequestState) : Bool := rs.status = .running

end RequestState

/-! ## Locations -/

inductive Loc where
  | unscheduled
  | pending (e : ExecutorId)
  | running (e : ExecutorId)
  deriving DecidableEq, Repr

def Loc.executor? : Loc → Option ExecutorId
  | .unscheduled => none
  | .pending e => some e
  | .running e => some e

def Loc.resident? : Loc → Option ExecutorId
  | .running e => some e
  | _ => none

def Loc.status : Loc → RequestStateStatus
  | .unscheduled => .unscheduled
  | .pending _ => .scheduled
  | .running _ => .running

namespace RequestState

structure Represents (rs : RequestState) (l : Loc) : Prop where
  executorId : rs.executorId = l.resident?
  pendingExecutorId : rs.pendingExecutorId = l.executor?
  executorsToFree : ∀ e, e ∈ rs.executorsToFree ↔ l.resident? = some e
  status : rs.status = l.status

theorem represents_init (p : Dict ℚ ℚ) (i : ℕ) : (init p i).Represents .unscheduled :=
  ⟨rfl, rfl, fun e => by simp [init, Loc.resident?], rfl⟩

theorem Represents.unplace {rs : RequestState} {l : Loc} (h : rs.Represents l) :
    rs.removeExecutor.removePendingExecutor.Represents .unscheduled := by
  refine ⟨rfl, rfl, ?_, rfl⟩
  intro e
  have hfree := h.executorsToFree e
  simp only [removePendingExecutor, removeExecutor, refreshStatus, Loc.resident?,
    reduceCtorEq, iff_false]
  cases hx : rs.executorId with
  | none =>
      rw [hfree, ← h.executorId, hx]
      simp
  | some e' =>
      rw [OrderedSet.mem_discard, hfree, ← h.executorId, hx]
      simp only [Option.some.injEq, not_and]
      intro hne heq
      exact hne heq.symm

theorem Represents.place {rs : RequestState} (h : rs.Represents .unscheduled)
    (e : ExecutorId) (conf : ℚ) :
    ((rs.setExecutor (some e) (some conf)).setPendingExecutor e conf).Represents
      (.running e) := by
  refine ⟨rfl, rfl, ?_, rfl⟩
  intro e'
  have hfree := h.executorsToFree e'
  simp only [setPendingExecutor, setExecutor, refreshStatus, OrderedSet.mem_add, hfree,
    Loc.resident?, Option.some.injEq, reduceCtorEq, or_false]
  exact eq_comm

theorem Represents.placePending {rs : RequestState} (h : rs.Represents .unscheduled)
    (e : ExecutorId) (conf : ℚ) : (rs.setPendingExecutor e conf).Represents (.pending e) := by
  have hx : rs.executorId = none := h.executorId
  refine ⟨hx, rfl, ?_, ?_⟩
  · intro e'
    exact h.executorsToFree e'
  · simp [setPendingExecutor, refreshStatus, hx, Loc.status]

theorem Represents.commit {rs : RequestState} {e : ExecutorId} (h : rs.Represents (.pending e)) :
    rs.commitPendingExecutor.Represents (.running e) := by
  have hp : rs.pendingExecutorId = some e := h.pendingExecutorId
  refine ⟨?_, ?_, ?_, ?_⟩
  · simp [commitPendingExecutor, setExecutor, refreshStatus, hp, Loc.resident?]
  · simp [commitPendingExecutor, setExecutor, refreshStatus, hp, Loc.executor?]
  · intro e'
    have hfree := h.executorsToFree e'
    simp only [commitPendingExecutor, setExecutor, refreshStatus, hp, OrderedSet.mem_add,
      hfree, Loc.resident?, Option.some.injEq, reduceCtorEq, or_false]
    exact eq_comm
  · simp [commitPendingExecutor, setExecutor, refreshStatus, hp, Loc.status]

theorem Represents.isRunning {rs : RequestState} {e : ExecutorId}
    (h : rs.Represents (.running e)) : rs.isRunning = true := by
  simp [RequestState.isRunning, h.status, Loc.status]

theorem Represents.isScheduled {rs : RequestState} {e : ExecutorId}
    (h : rs.Represents (.pending e)) : rs.isScheduled = true := by
  simp [RequestState.isScheduled, h.status, Loc.status]

theorem Represents.isUnscheduled_iff {rs : RequestState} {l : Loc} (h : rs.Represents l) :
    rs.isUnscheduled = true ↔ l = .unscheduled := by
  rw [RequestState.isUnscheduled, h.status, decide_eq_true_eq]
  cases l <;> simp [Loc.status]

theorem Represents.isRunning_iff {rs : RequestState} {l : Loc} (h : rs.Represents l) :
    rs.isRunning = true ↔ ∃ e, l = .running e := by
  rw [RequestState.isRunning, h.status, decide_eq_true_eq]
  cases l <;> simp [Loc.status]

end RequestState

end TeDiServe

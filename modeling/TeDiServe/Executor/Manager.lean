import TeDiServe.Basic

/-!
# Executors and their manager

An executor is one model instance on a set of GPU bundles; its tensor-parallel
degree is the number of its bundles. The manager keeps the executors that exist,
whether somebody waits to kill one, and the ids that were ever used. The status
of an executor is written by four parties: the scheduler, the task that runs the
model, the processing of its output, and the coroutine that kills it.
-/

namespace TeDiServe

inductive ExecutorStatus where
  | idle
  | idleNotAcceptingNewRequests
  | consideredForScheduling
  | scheduled
  | executing
  | outputReady
  | killing
  deriving DecidableEq, Repr

structure Executor where
  id : ExecutorId
  bundleIds : List ℕ
  status : ExecutorStatus
  deriving DecidableEq, Repr

structure ExecutorsManager where
  executors : Dict ExecutorId Executor
  waitingToBeKilled : Dict ExecutorId Bool
  usedExecutorIds : OrderedSet ExecutorId

namespace ExecutorsManager

def empty : ExecutorsManager :=
  ⟨Dict.empty, Dict.empty, OrderedSet.empty⟩

def status? (m : ExecutorsManager) (e : ExecutorId) : Option ExecutorStatus :=
  (m.executors.get? e).map Executor.status

def setStatus (m : ExecutorsManager) (e : ExecutorId) (st : ExecutorStatus) :
    Except PyError ExecutorsManager := do
  let x ← subscript m.executors .executors e
  pure { m with executors := m.executors.set e { x with status := st } }

/-- The last part of `launch_executor`: the new executor becomes visible. The
first part asserts that the id was never used. -/
def launchExecutor (m : ExecutorsManager) (e : ExecutorId) (bundleIds : List ℕ) :
    Except PyError ExecutorsManager := do
  pyAssert (e ∉ m.usedExecutorIds)
  pure
    { executors := m.executors.set e ⟨e, bundleIds, .idle⟩
      waitingToBeKilled := m.waitingToBeKilled.set e false
      usedExecutorIds := m.usedExecutorIds.add e }

/-- The first part of `kill_executor`: announce the kill. -/
def announceKill (m : ExecutorsManager) (e : ExecutorId) : Except PyError ExecutorsManager := do
  pyAssert (e ∈ m.usedExecutorIds)
  let _ ← subscript m.executors .executors e
  pure { m with waitingToBeKilled := m.waitingToBeKilled.set e true }

/-- The last part of `kill_executor`: the executor disappears. -/
def deleteExecutor (m : ExecutorsManager) (e : ExecutorId) : ExecutorsManager :=
  { m with
    executors := m.executors.erase e
    waitingToBeKilled := m.waitingToBeKilled.erase e }

theorem setStatus_eq_ok {m : ExecutorsManager} {e : ExecutorId} {x : Executor}
    (h : m.executors.get? e = some x) (st : ExecutorStatus) :
    m.setStatus e st =
      .ok { m with executors := m.executors.set e { x with status := st } } := by
  simp only [setStatus, subscript_of_get? _ h]
  rfl

theorem status?_eq_some_iff (m : ExecutorsManager) (e : ExecutorId) (st : ExecutorStatus) :
    m.status? e = some st ↔ ∃ x, m.executors.get? e = some x ∧ x.status = st := by
  simp [status?]

theorem mem_of_status? {m : ExecutorsManager} {e : ExecutorId} {st : ExecutorStatus}
    (h : m.status? e = some st) : e ∈ m.executors := by
  obtain ⟨x, hx, -⟩ := (m.status?_eq_some_iff e st).mp h
  exact Dict.mem_of_get? hx

theorem ensures_setStatus (m : ExecutorsManager) (e : ExecutorId) (st : ExecutorStatus) :
    (m.setStatus e st).Ensures (fun err => err = .key .executors ∧ e ∉ m.executors)
      fun m' => m'.waitingToBeKilled = m.waitingToBeKilled ∧
        m'.usedExecutorIds = m.usedExecutorIds ∧
        (∀ e', m'.status? e' = if e' = e then some st else m.status? e') ∧
        (∀ e', (m'.executors.get? e').map Executor.bundleIds =
          (m.executors.get? e').map Executor.bundleIds) ∧
        m'.executors.keys = m.executors.keys := by
  unfold setStatus
  rw [ensures_bind, ensures_subscript]
  constructor
  · intro x hx
    refine ⟨rfl, rfl, ?_, ?_, ?_⟩
    · intro e'
      by_cases h : e' = e
      · simp [status?, h]
      · simp [status?, h]
    · intro e'
      by_cases h : e' = e
      · simp [h, hx]
      · simp [h]
    · exact Dict.keys_set_of_mem _ _ _ (Dict.mem_of_get? hx)
  · intro h
    exact ⟨rfl, (Dict.get?_eq_none_iff _ _).mp h⟩

end ExecutorsManager

end TeDiServe

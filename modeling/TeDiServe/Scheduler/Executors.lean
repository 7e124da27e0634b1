import TeDiServe.Scheduler.Admission

/-!
# Following the executors

At the start of every scheduling step the scheduler compares its own records with
the executors of the manager. New executors get an empty record. An executor that
is gone or is being killed loses its record, and the requests that were on it, or
waiting for it, become unscheduled again.
-/

namespace TeDiServe

namespace Scheduler

variable {κ : Type}

def updateThroughputSupply (cfg : Config κ) (s : Scheduler κ) : Except PyError (Scheduler κ) := do
  let ts ← s.executorStates.values.mapM fun es =>
    subscript cfg.tpDegreeToThroughputSupply .throughputSupply es.tpDegree
  pure { s with throughputSupply := ts.sum * cfg.requestLatencySlo }

def refreshSupply (cfg : Config κ) (s : Scheduler κ) : Except PyError (Scheduler κ) := do
  let d ← pyMax (s.executorStates.values.map ExecutorState.tpDegree)
  updateThroughputSupply cfg { s with maxTpDegree := d }

def addExecutor (cfg : Config κ) (s : Scheduler κ) (e : ExecutorId) :
    Except PyError (Scheduler κ) := do
  pyAssert (e ∉ s.executorStates)
  let x ← subscript s.executorsManager.executors .executors e
  refreshSupply cfg
    { s with
      executorStates := s.executorStates.set x.id (ExecutorState.ofExecutor x)
      kvCacheManagers := s.kvCacheManagers.set x.id (cfg.kv.create x.id) }

def removeExecutor (cfg : Config κ) (s : Scheduler κ) (e : ExecutorId) :
    Except PyError (Scheduler κ) := do
  pyAssert (e ∈ s.executorStates)
  let es ← subscript s.executorStates .executorStates e
  let s ← es.reqIds.items.foldlM (fun s r =>
    s.modifyRequestState r fun rs => rs.removeExecutor.removePendingExecutor) s
  let s ← es.pendingRequestRemovals.items.foldlM (fun s r =>
    s.modifyRequestState r RequestState.removeExecutor) s
  let s ← es.pendingRequestAdditions.items.foldlM (fun s r =>
    s.modifyRequestState r RequestState.removePendingExecutor) s
  let _ ← subscript s.kvCacheManagers .kvCacheManagers e
  refreshSupply cfg
    { s with
      executorStates := s.executorStates.erase e
      kvCacheManagers := s.kvCacheManagers.erase e
      freeReqIds := s.freeReqIds.erase e }

/-- Whether the scheduler has to give up its record of an executor. -/
def isGone (m : ExecutorsManager) (e : ExecutorId) : Bool :=
  match m.status? e with
  | none => true
  | some st => st = .killing

def updateExecutors (cfg : Config κ) (s : Scheduler κ) : Except PyError (Scheduler κ) := do
  let s ← s.executorsManager.executors.keys.foldlM (fun s e =>
    if e ∈ s.executorStates then pure s else s.addExecutor cfg e) s
  s.executorStates.keys.foldlM (fun s e =>
    if isGone s.executorsManager e then s.removeExecutor cfg e else pure s) s

end Scheduler

end TeDiServe

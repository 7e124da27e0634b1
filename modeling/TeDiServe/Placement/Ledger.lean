import TeDiServe.Placement.Issue

/-!
# The books of the scheduler

A request is known to the scheduler from its arrival to its end. Until it is
admitted its record is among the deferred ones and it stands in the queue;
afterwards its record is among those that the placement describes. `Ledger` says
that the dictionaries agree on this, and `Kept s s'` that a part of the scheduler
has changed nothing of it.
-/

namespace TeDiServe

namespace Scheduler

variable {κ : Type} {cfg : Config κ} {s s' s'' : Scheduler κ} {π : Placement} {r : ReqId}
  {e : ExecutorId}

structure Kept (s s' : Scheduler κ) : Prop extends Around s s' where
  executorKeys : s'.executorStates.keys = s.executorStates.keys
  states : ∀ r, (s'.requestStates.get? r).map RequestState.maxConfidenceThresholdIdx =
    (s.requestStates.get? r).map RequestState.maxConfidenceThresholdIdx

namespace Kept

variable (h : Kept s s')
include h

theorem mem_executorStates : e ∈ s'.executorStates ↔ e ∈ s.executorStates := by
  rw [Dict.mem_def, Dict.mem_def, h.executorKeys]

theorem mem_requestStates : r ∈ s'.requestStates ↔ r ∈ s.requestStates :=
  Dict.mem_iff_of_map_eq (h.states r)

theorem mem_deferredRequestStates : r ∈ s'.deferredRequestStates ↔ r ∈ s.deferredRequestStates :=
  Dict.mem_iff_of_map_eq (h.deferredStates r)

theorem trans (h' : Kept s' s'') : Kept s s'' :=
  ⟨h.toAround.trans h'.toAround, h'.executorKeys.trans h.executorKeys,
    fun r => (h'.states r).trans (h.states r)⟩

end Kept

theorem Framed.kept (h : Framed s s') : Kept s s' := by
  refine ⟨h.toAround, congrArg Dict.keys h.executorStates, ?_⟩
  intro r
  have hidx : RequestState.maxConfidenceThresholdIdx =
      RequestState.maxConfidenceThresholdIdx ∘ RequestState.core := rfl
  rw [hidx, ← Option.map_map, ← Option.map_map, h.states]

theorem Moved.kept (h : Moved s s') : Kept s s' := by
  obtain ⟨es, rs, rfl, hes, -, hkeep⟩ := h
  refine ⟨⟨fun _ => rfl, fun _ => rfl, rfl, rfl, fun _ => Iff.rfl, fun _ hr => Or.inl hr, rfl⟩,
    hes, fun r => ?_⟩
  have hidx := congrArg (Option.map Prod.fst) (hkeep r)
  rwa [Option.map_map, Option.map_map] at hidx

/-- The dictionaries of the scheduler agree on which requests there are. -/
structure Ledger (cfg : Config κ) (s : Scheduler κ) : Prop where
  known : ∀ r, r ∈ s.requests ↔ r ∈ s.requestStates ∨ r ∈ s.deferredRequestStates
  apart : ∀ r, r ∈ s.requestStates → r ∉ s.deferredRequestStates
  queue : ∀ r, r ∈ s.deferredRequestStates ↔ r ∈ s.deferredRequests.map Request.requestId
  queueNodup : (s.deferredRequests.map Request.requestId).Nodup
  waiting : ∀ r rs, s.deferredRequestStates.get? r = some rs → rs.Represents .unscheduled
  estimates : ∀ r ∈ s.stepEstimatePendingReqIds, r ∈ s.requests
  caches : ∀ e ∈ s.executorStates, e ∈ s.kvCacheManagers
  indices : ∀ r rs, s.requestStates.get? r = some rs → cfg.IdxOk rs.maxConfidenceThresholdIdx
  deferredIndices : ∀ r rs, s.deferredRequestStates.get? r = some rs →
    cfg.IdxOk rs.maxConfidenceThresholdIdx
  minIdx : cfg.IdxOk s.minMaxConfidenceThresholdIdx

namespace Ledger

theorem of_kept (h : Ledger cfg s) (hk : Kept s s') : Ledger cfg s' := by
  refine ⟨?_, ?_, ?_, ?_, ?_, ?_, ?_, ?_, ?_, ?_⟩
  · intro r
    rw [hk.mem_requests, hk.mem_requestStates, hk.mem_deferredRequestStates]
    exact h.known r
  · intro r
    rw [hk.mem_requestStates, hk.mem_deferredRequestStates]
    exact h.apart r
  · intro r
    rw [hk.mem_deferredRequestStates, hk.deferredRequests]
    exact h.queue r
  · rw [hk.deferredRequests]
    exact h.queueNodup
  · intro r rs hrs
    obtain ⟨rs', hrs', hcore⟩ := Dict.exists_of_map_eq (hk.deferredStates r) hrs
    exact (h.waiting r rs' hrs').of_core hcore
  · intro r hr
    rw [hk.mem_requests]
    rcases hk.estimates r hr with hr | hr
    · exact h.estimates r hr
    · exact hr
  · intro e he
    rw [hk.caches]
    exact h.caches e (hk.mem_executorStates.mp he)
  · intro r rs hrs
    obtain ⟨rs', hrs', hidx⟩ := Dict.exists_of_map_eq (hk.states r) hrs
    rw [hidx]
    exact h.indices r rs' hrs'
  · intro r rs hrs
    obtain ⟨rs', hrs', hcore⟩ := Dict.exists_of_map_eq (hk.deferredStates r) hrs
    have hidx : rs.maxConfidenceThresholdIdx = rs'.maxConfidenceThresholdIdx :=
      (congrArg RequestState.maxConfidenceThresholdIdx hcore :)
    rw [hidx]
    exact h.deferredIndices r rs' hrs'
  · rw [hk.minIdx]
    exact h.minIdx

theorem of_manager (h : Ledger cfg s) (m : ExecutorsManager) :
    Ledger cfg { s with executorsManager := m } :=
  ⟨h.known, h.apart, h.queue, h.queueNodup, h.waiting, h.estimates, h.caches, h.indices,
    h.deferredIndices, h.minIdx⟩

end Ledger

end Scheduler

end TeDiServe

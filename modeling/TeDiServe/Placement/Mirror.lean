import TeDiServe.Scheduler.Output
import Mathlib.Logic.Function.Basic
import Mathlib.Algebra.BigOperators.Group.Finset.Basic
import Mathlib.Algebra.Order.BigOperators.Group.Finset

/-!
# One placement behind two records

The abstract state of the scheduler is a placement: every admitted request is
unscheduled, pending on one executor, or running on one. `Refines s π` says that
all records of the concrete state are readings of the one placement `π`: the
record of a request, the two lists of every executor, and the token counts beside
them. Since a placement sends a request to at most one location, a state that
refines one cannot have a request in two places.

The operations that write both records move one request in the placement. Each
has a lemma here that says which move it makes and that it does not raise.
-/

namespace TeDiServe

/-- Where every admitted request is. -/
abbrev Placement := ReqId → Option Loc

def Placement.host? (π : Placement) (r : ReqId) : Option ExecutorId :=
  (π r).bind Loc.executor?

namespace Placement

@[simp] theorem host?_update_self (π : Placement) (r : ReqId) (o : Option Loc) :
    host? (Function.update π r o) r = o.bind Loc.executor? := by
  simp [host?]

theorem host?_update_of_ne (π : Placement) {r r' : ReqId} (h : r' ≠ r) (o : Option Loc) :
    host? (Function.update π r o) r' = π.host? r' := by
  simp [host?, h]

theorem host?_of_running {π : Placement} {r : ReqId} {e : ExecutorId}
    (h : π r = some (.running e)) : π.host? r = some e := by
  simp [host?, h, Loc.executor?]

theorem host?_of_pending {π : Placement} {r : ReqId} {e : ExecutorId}
    (h : π r = some (.pending e)) : π.host? r = some e := by
  simp [host?, h, Loc.executor?]

theorem host?_eq_some_iff (π : Placement) (r : ReqId) (e : ExecutorId) :
    π.host? r = some e ↔ π r = some (.running e) ∨ π r = some (.pending e) := by
  unfold host?
  cases h : π r with
  | none => simp
  | some l => cases l <;> simp [Loc.executor?]

end Placement

/-! ## The record of one executor -/

namespace ExecutorState

/-- The record lists exactly what the placement puts on `e`, with the sizes of the
requests. -/
structure Mirrors (es : ExecutorState) (e : ExecutorId) (π : Placement)
    (size : ReqId → Option ℕ) : Prop where
  resident : ∀ r, r ∈ es.reqIds ↔ π r = some (.running e)
  pending : ∀ r, r ∈ es.pendingRequestAdditions ↔ π r = some (.pending e)
  noRemoval : ∀ r, r ∉ es.pendingRequestRemovals
  tokens : ∀ r, es.reqToTokensNeeded.get? r = if π.host? r = some e then size r else none

variable {es : ExecutorState} {e : ExecutorId} {π : Placement} {size size' : ReqId → Option ℕ}

theorem mirrors_ofExecutor (x : Executor) (h : ∀ r, π.host? r ≠ some e) :
    (ofExecutor x).Mirrors e π size := by
  refine ⟨?_, ?_, ?_, ?_⟩
  · intro r
    constructor
    · intro hr
      exact absurd hr (OrderedSet.not_mem_empty r)
    · intro hr
      exact absurd (Placement.host?_of_running hr) (h r)
  · intro r
    constructor
    · intro hr
      exact absurd hr (OrderedSet.not_mem_empty r)
    · intro hr
      exact absurd (Placement.host?_of_pending hr) (h r)
  · exact OrderedSet.not_mem_empty
  · intro r
    simp [ofExecutor, h r]

variable (h : es.Mirrors e π size)
include h

theorem Mirrors.congr_size (hsize : ∀ r, π.host? r = some e → size' r = size r) :
    es.Mirrors e π size' := by
  refine ⟨h.resident, h.pending, h.noRemoval, ?_⟩
  intro r
  rw [h.tokens r]
  by_cases hr : π.host? r = some e
  · simp [hr, hsize r hr]
  · simp [hr]

theorem Mirrors.of_elsewhere {r : ReqId} {o : Option Loc} (hold : π.host? r ≠ some e)
    (hnew : o.bind Loc.executor? ≠ some e) : es.Mirrors e (Function.update π r o) size := by
  have hrun : ∀ l, l = Loc.running e ∨ l = Loc.pending e → o ≠ some l := by
    rintro l (rfl | rfl) rfl
    · exact hnew rfl
    · exact hnew rfl
  have hkeep : ∀ l, l = Loc.running e ∨ l = Loc.pending e →
      ∀ r', Function.update π r o r' = some l ↔ π r' = some l := by
    intro l hl r'
    by_cases hr : r' = r
    · subst hr
      rw [Function.update_self]
      constructor
      · intro h'
        exact absurd h' (hrun l hl)
      · intro h'
        exact absurd ((Placement.host?_eq_some_iff π r' e).mpr
          (by rcases hl with rfl | rfl <;> simp [h'])) hold
    · rw [Function.update_of_ne hr]
  refine ⟨?_, ?_, h.noRemoval, ?_⟩
  · intro r'
    rw [h.resident r', hkeep _ (Or.inl rfl)]
  · intro r'
    rw [h.pending r', hkeep _ (Or.inr rfl)]
  · intro r'
    rw [h.tokens r']
    by_cases hr : r' = r
    · subst hr
      simp [hold, hnew]
    · rw [Placement.host?_update_of_ne π hr]

theorem Mirrors.addRequest {req : Request} (hnot : π.host? req.requestId ≠ some e)
    (hsize : size req.requestId = some req.numTokens) :
    (es.addRequest req).Mirrors e
      (Function.update π req.requestId (some (.running e))) size := by
  have hpend : π req.requestId ≠ some (.pending e) := by
    intro h'
    exact hnot (Placement.host?_of_pending h')
  refine ⟨?_, ?_, h.noRemoval, ?_⟩
  · intro r
    by_cases hr : r = req.requestId
    · simp [ExecutorState.addRequest, hr]
    · simp [ExecutorState.addRequest, hr, h.resident r]
  · intro r
    by_cases hr : r = req.requestId
    · simp [ExecutorState.addRequest, hr, h.pending, hpend]
    · simp [ExecutorState.addRequest, hr, h.pending r]
  · intro r
    by_cases hr : r = req.requestId
    · simp [ExecutorState.addRequest, hr, Loc.executor?, hsize]
    · simp [ExecutorState.addRequest, hr, h.tokens r, Placement.host?_update_of_ne]

theorem Mirrors.markPendingRequestAddition {req : Request} (hnot : π.host? req.requestId ≠ some e)
    (hsize : size req.requestId = some req.numTokens) :
    (es.markPendingRequestAddition req).Mirrors e
      (Function.update π req.requestId (some (.pending e))) size := by
  have hrun : π req.requestId ≠ some (.running e) := by
    intro h'
    exact hnot (Placement.host?_of_running h')
  refine ⟨?_, ?_, h.noRemoval, ?_⟩
  · intro r
    by_cases hr : r = req.requestId
    · simp [ExecutorState.markPendingRequestAddition, hr, h.resident, hrun]
    · simp [ExecutorState.markPendingRequestAddition, hr, h.resident r]
  · intro r
    by_cases hr : r = req.requestId
    · simp [ExecutorState.markPendingRequestAddition, hr]
    · simp [ExecutorState.markPendingRequestAddition, hr, h.pending r]
  · intro r
    by_cases hr : r = req.requestId
    · simp [ExecutorState.markPendingRequestAddition, hr, Loc.executor?, hsize]
    · simp [ExecutorState.markPendingRequestAddition, hr, h.tokens r,
        Placement.host?_update_of_ne]

theorem Mirrors.ensures_removeRequest {r : ReqId} {o : Option Loc} (hr : π r = some (.running e))
    (hsize : size r ≠ none) (ho : o.bind Loc.executor? ≠ some e) :
    (es.removeRequest r).Ensures (fun _ => False) fun es' =>
      es'.Mirrors e (Function.update π r o) size := by
  have hhost : π.host? r = some e := Placement.host?_of_running hr
  have hrem : ∀ r', r' ∉ es.pendingRequestRemovals := h.noRemoval
  unfold ExecutorState.removeRequest
  rw [ensures_bind, ensures_subscript]
  constructor
  · intro n _
    rw [if_neg (hrem r), ensures_pure]
    have hrun : o ≠ some (.running e) := by
      rintro rfl
      exact ho rfl
    have hpend : o ≠ some (.pending e) := by
      rintro rfl
      exact ho rfl
    refine ⟨?_, ?_, hrem, ?_⟩
    · intro r'
      by_cases hr' : r' = r
      · simp [hr', hrun]
      · simp [hr', h.resident r']
    · intro r'
      by_cases hr' : r' = r
      · subst hr'
        simp [h.pending, hr, hpend]
      · simp [hr', h.pending r']
    · intro r'
      by_cases hr' : r' = r
      · simp [hr', ho]
      · simp [hr', h.tokens r', Placement.host?_update_of_ne]
  · intro hnone
    rw [h.tokens r, if_pos hhost] at hnone
    exact hsize hnone

theorem Mirrors.ensures_commitPendingRequestAddition {r : ReqId} (hr : π r = some (.pending e)) :
    (es.commitPendingRequestAddition r).Ensures (fun _ => False) fun es' =>
      es'.Mirrors e (Function.update π r (some (.running e))) size := by
  have hhost : π.host? r = some e := Placement.host?_of_pending hr
  have hmem : r ∈ es.pendingRequestAdditions := (h.pending r).mpr hr
  have hnot : r ∉ es.reqIds := by
    rw [h.resident r, hr]
    simp
  unfold ExecutorState.commitPendingRequestAddition
  simp only [ensures_bind, ensures_pyAssert, hmem, hnot, decide_true, not_false_eq_true,
    forall_const, Bool.true_eq_false, IsEmpty.forall_iff, and_true,
    ensures_pure]
  refine ⟨?_, ?_, h.noRemoval, ?_⟩
  · intro r'
    by_cases hr' : r' = r
    · simp [hr']
    · simp [hr', h.resident r']
  · intro r'
    by_cases hr' : r' = r
    · simp [hr']
    · simp [hr', h.pending r']
  · intro r'
    by_cases hr' : r' = r
    · subst hr'
      simp [h.tokens, hhost, Loc.executor?]
    · simp [hr', h.tokens r', Placement.host?_update_of_ne]

/-- The token count of requests on `e` never meets a missing entry: it is the sum of
their sizes. -/
theorem Mirrors.ensures_tokensNeeded (hsize : ∀ r, π.host? r = some e → size r ≠ none)
    {rs : List ReqId} (hrs : ∀ r ∈ rs, π.host? r = some e) :
    (es.tokensNeeded rs).Ensures (fun _ => False) fun n =>
      n = (rs.map fun r => (size r).getD 0).sum := by
  unfold ExecutorState.tokensNeeded
  rw [ensures_bind]
  have hall : ∀ r ∈ rs, (subscript es.reqToTokensNeeded .reqToTokensNeeded r).Ensures
      (fun _ => False) fun n => (size r).getD 0 = n := by
    intro r hr
    rw [ensures_subscript, h.tokens r, if_pos (hrs r hr)]
    constructor
    · intro n hn
      rw [hn, Option.getD_some]
    · intro hnone
      exact hsize r (hrs r hr) hnone
  refine (ensures_mapM rs hall).imp fun ns hns => ?_
  have heq : rs.map (fun r => (size r).getD 0) = ns := by
    rw [← List.forall₂_eq_eq_eq, List.forall₂_map_left_iff]
    exact hns
  rw [ensures_pure, heq]

theorem Mirrors.mem_projected_iff {r : ReqId} : r ∈ es.getProjectedReqIds ↔ π.host? r = some e := by
  unfold getProjectedReqIds
  rw [List.mem_append, List.mem_filter, decide_eq_true_eq, and_iff_left (h.noRemoval r),
    Placement.host?_eq_some_iff, ← h.resident, ← h.pending, OrderedSet.mem_def,
    OrderedSet.mem_def]

theorem Mirrors.nodup_projected : es.getProjectedReqIds.Nodup := by
  unfold getProjectedReqIds
  refine (es.reqIds.nodup.filter _).append es.pendingRequestAdditions.nodup ?_
  intro r hr hr'
  have hrun := (h.resident r).mp (List.mem_filter.mp hr).1
  rw [(h.pending r).mp hr'] at hrun
  cases hrun

/-! ## The load of one executor -/

def load (es : ExecutorState) (size : ReqId → Option ℕ) : ℕ :=
  (es.getProjectedReqIds.map fun r => (size r).getD 0).sum

theorem Mirrors.load_eq_sum :
    es.load size = ∑ r ∈ es.getProjectedReqIds.toFinset, (size r).getD 0 :=
  (List.sum_toFinset _ h.nodup_projected).symm

theorem Mirrors.load_congr {e' : ExecutorId} {π' : Placement} (h' : es.Mirrors e' π' size') :
    es.load size' = es.load size := by
  unfold load
  congr 1
  apply List.map_congr_left
  intro r hr
  have hs := h.tokens r
  have hs' := h'.tokens r
  rw [if_pos (h.mem_projected_iff.mp hr)] at hs
  rw [if_pos (h'.mem_projected_iff.mp hr), hs] at hs'
  rw [hs']

theorem Mirrors.load_le {es' : ExecutorState} {π' : Placement} (h' : es'.Mirrors e π' size')
    (hhost : ∀ r, π'.host? r = some e → π.host? r = some e)
    (hsize : ∀ r, π'.host? r = some e → size' r = size r) : es'.load size' ≤ es.load size := by
  rw [h.load_eq_sum, h'.load_eq_sum]
  calc ∑ r ∈ es'.getProjectedReqIds.toFinset, (size' r).getD 0
      = ∑ r ∈ es'.getProjectedReqIds.toFinset, (size r).getD 0 := by
        apply Finset.sum_congr rfl
        intro r hr
        rw [hsize r (h'.mem_projected_iff.mp (List.mem_toFinset.mp hr))]
    _ ≤ ∑ r ∈ es.getProjectedReqIds.toFinset, (size r).getD 0 := by
        apply Finset.sum_le_sum_of_subset
        intro r hr
        rw [List.mem_toFinset, h'.mem_projected_iff] at hr
        rw [List.mem_toFinset, h.mem_projected_iff]
        exact hhost r hr

theorem Mirrors.load_le_add {es' : ExecutorState} {r : ReqId} {o : Option Loc}
    (h' : es'.Mirrors e (Function.update π r o) size) :
    es'.load size ≤ es.load size + (size r).getD 0 := by
  rw [h.load_eq_sum, h'.load_eq_sum, add_comm]
  calc ∑ x ∈ es'.getProjectedReqIds.toFinset, (size x).getD 0
      ≤ ∑ x ∈ insert r es.getProjectedReqIds.toFinset, (size x).getD 0 := by
        apply Finset.sum_le_sum_of_subset
        intro x hx
        rw [List.mem_toFinset, h'.mem_projected_iff] at hx
        rw [Finset.mem_insert, List.mem_toFinset, h.mem_projected_iff]
        by_cases hxr : x = r
        · exact Or.inl hxr
        · rw [Placement.host?_update_of_ne π hxr] at hx
          exact Or.inr hx
    _ ≤ (size r).getD 0 + ∑ x ∈ es.getProjectedReqIds.toFinset, (size x).getD 0 := by
        by_cases hr : r ∈ es.getProjectedReqIds.toFinset
        · rw [Finset.insert_eq_self.mpr hr]
          exact Nat.le_add_left _ _
        · rw [Finset.sum_insert hr]

end ExecutorState

end TeDiServe

import TeDiServe.Engine.Calls
import TeDiServe.Placement.Round

/-!
# Placement in order of arrival

Stage 2 places the unscheduled requests in order of arrival, each on the executor where
the step with it is fastest, and stops at the first request that has room nowhere. The
search goes through the executors by increasing load and ends at the first one without
room: the others have no more.

A request that has no executor is compared with nothing, so every executor with room is
an improvement, and a request is left only if there is none.
-/

namespace TeDiServe

namespace Scheduler

variable {κ : Type} {cfg : Config κ} {s : Scheduler κ} {n : ℕ} {e : ExecutorId}

def FitsOn (cfg : Config κ) (s : Scheduler κ) (n : ℕ) (e : ExecutorId) : Prop :=
  ∃ b, s.projectedBatchSize e = .ok b ∧ b + n ≤ cfg.maxNumScheduledTokens

def NoFaster (cfg : Config κ) (s : Scheduler κ) (n : ℕ) (latency : WithTop ℚ)
    (e : ExecutorId) : Prop :=
  FitsOn cfg s n e → ∃ l : ℚ, s.projectedStepLatency cfg e n = .ok l ∧ latency ≤ l

structure BestOf (cfg : Config κ) (s : Scheduler κ) (n : ℕ) (candidates : List ExecutorId)
    (b : ExecutorId) : Prop where
  mem : b ∈ candidates
  fits : FitsOn cfg s n b
  least : ∃ l : ℚ, s.projectedStepLatency cfg b n = .ok l ∧
    ∀ e ∈ candidates, NoFaster cfg s n l e

def ByLoad (s : Scheduler κ) (candidates : List ExecutorId) : Prop :=
  candidates.Pairwise fun e e' => ∀ b b', s.projectedBatchSize e = .ok b →
    s.projectedBatchSize e' = .ok b' → b ≤ b'

/-- The scan keeps what it has, or finds the first of the fastest candidates. -/
theorem ensures_scanCandidates_best (cfg : Config κ) (n : ℕ) (candidates : List ExecutorId)
    (hsorted : ByLoad s candidates) (best : Option ExecutorId) (latency : WithTop ℚ) :
    (s.scanCandidates cfg n none candidates best latency).Ensures (fun _ => True) fun res =>
      res = best ∧ (∀ e ∈ candidates, NoFaster cfg s n latency e) ∨
      ∃ b ∈ candidates, res = some b ∧ FitsOn cfg s n b ∧
        ∃ l : ℚ, s.projectedStepLatency cfg b n = .ok l ∧ (l : WithTop ℚ) < latency ∧
          ∀ e ∈ candidates, NoFaster cfg s n l e := by
  induction candidates generalizing best latency with
  | nil => exact Or.inl ⟨rfl, fun e he => absurd he List.not_mem_nil⟩
  | cons e rest ih =>
      obtain ⟨hfirst, hrest⟩ := List.pairwise_cons.mp hsorted
      unfold scanCandidates
      rw [if_neg (by simp), ensures_bind]
      cases hb : s.projectedBatchSize e with
      | error err => trivial
      | ok b =>
          rw [ensures_ok]
          by_cases hfull : cfg.maxNumScheduledTokens < b + n
          · rw [if_pos hfull]
            refine Or.inl ⟨rfl, ?_⟩
            rintro e' he' ⟨b', hb', hfits⟩
            -- no load from here on is smaller
            have hle : b ≤ b' := by
              rcases List.mem_cons.mp he' with rfl | he'
              · rw [hb, Except.ok.injEq] at hb'
                exact hb'.le
              · exact hfirst e' he' b b' hb hb'
            omega
          · rw [if_neg hfull, ensures_bind]
            have hfits : FitsOn cfg s n e := ⟨b, hb, Nat.le_of_not_lt hfull⟩
            cases hl : s.projectedStepLatency cfg e n with
            | error err => trivial
            | ok l =>
                rw [ensures_ok]
                by_cases hlt : (l : WithTop ℚ) < latency
                · rw [if_pos hlt]
                  apply (ih hrest (some e) l).imp
                  rintro res (⟨rfl, hall⟩ | ⟨b', hb', hres, hfits', l', hl', hlt', hall⟩)
                  · refine Or.inr ⟨e, List.mem_cons_self, rfl, hfits, l, hl, hlt, ?_⟩
                    exact List.forall_mem_cons.mpr ⟨fun _ => ⟨l, hl, le_rfl⟩, hall⟩
                  · refine Or.inr ⟨b', List.mem_cons_of_mem e hb', hres, hfits', l', hl',
                      hlt'.trans hlt, ?_⟩
                    exact List.forall_mem_cons.mpr ⟨fun _ => ⟨l, hl, hlt'.le⟩, hall⟩
                · rw [if_neg hlt]
                  have hle : latency ≤ (l : WithTop ℚ) := not_lt.mp hlt
                  apply (ih hrest best latency).imp
                  rintro res (⟨rfl, hall⟩ | ⟨b', hb', hres, hfits', l', hl', hlt', hall⟩)
                  · refine Or.inl ⟨rfl, ?_⟩
                    exact List.forall_mem_cons.mpr ⟨fun _ => ⟨l, hl, hle⟩, hall⟩
                  · refine Or.inr ⟨b', List.mem_cons_of_mem e hb', hres, hfits', l', hl',
                      hlt', ?_⟩
                    exact List.forall_mem_cons.mpr ⟨fun _ => ⟨l, hl, hlt'.le.trans hle⟩, hall⟩

theorem BestOf.of_perm {candidates candidates' : List ExecutorId} {b : ExecutorId}
    (h : BestOf cfg s n candidates b) (hperm : candidates.Perm candidates') :
    BestOf cfg s n candidates' b := by
  obtain ⟨l, hl, hall⟩ := h.least
  exact ⟨hperm.subset h.mem, h.fits, l, hl, fun e he => hall e (hperm.symm.subset he)⟩

/-- The search for a request without an executor: a best one, or none when there is room
nowhere. -/
theorem ensures_findBestExecutor_best (cfg : Config κ) (candidates : List ExecutorId)
    (r : ReqId) :
    (s.findBestExecutor cfg candidates r none).Ensures (fun _ => True) fun x =>
      x.2.Perm candidates ∧ ∃ req, s.requests.get? r = some req ∧
        (∀ b, x.1 = some b → BestOf cfg s req.numTokens candidates b) ∧
        (x.1 = none → ∀ e ∈ candidates, ¬FitsOn cfg s req.numTokens e) := by
  have hkeys : ∀ e ∈ candidates, (s.projectedBatchSize e).Ensures (fun _ => True)
      fun _ => True := fun e _ => ensures_any _
  have hcur : s.currentStepLatency cfg none = .ok ⊤ := rfl
  unfold findBestExecutor
  rw [ensures_bind, hcur, ensures_ok, ensures_bind, ensures_subscript]
  refine ⟨fun req hreq => ?_, fun _ => trivial⟩
  apply ((ensures_sortedByKey candidates hkeys).and
    (ensures_sortedByKey_sorted candidates hkeys)).bind
  rintro sorted ⟨hperm, hsorted⟩
  apply (ensures_scanCandidates_best cfg req.numTokens sorted hsorted none ⊤).bind
  intro best hbest
  rw [ensures_pure]
  refine ⟨hperm, req, hreq, ?_, ?_⟩
  · rintro b rfl
    rcases hbest with ⟨hnone, -⟩ | ⟨b', hb', hsome, hfits, l, hl, -, hall⟩
    · cases hnone
    · cases hsome
      exact BestOf.of_perm ⟨hb', hfits, l, hl, hall⟩ hperm
  · rintro rfl e he hfits
    rcases hbest with ⟨-, hall⟩ | ⟨b', -, hsome, -⟩
    · obtain ⟨l, -, hl⟩ := hall e (hperm.symm.subset he) hfits
      exact absurd hl (not_le.mpr (WithTop.coe_lt_top l))
    · cases hsome

/-- The record of `r` says that it is to run on `e`, those of the others are as before. -/
def PlacedOn (s s' : Scheduler κ) (e : ExecutorId) (r : ReqId) : Prop :=
  (∀ r', r' ≠ r → s'.requestStates.get? r' = s.requestStates.get? r') ∧
    ∃ rs, s'.requestStates.get? r = some rs ∧ rs.pendingExecutorId = some e ∧
      rs.isUnscheduled = false

theorem ensures_modifyExecutorState_states (s : Scheduler κ) (e : ExecutorId)
    (f : ExecutorState → Except PyError ExecutorState) :
    (s.modifyExecutorState e f).Ensures (fun _ => True) fun s' =>
      s'.requestStates = s.requestStates := by
  unfold modifyExecutorState
  apply ensures_bind_any
  intro es
  apply ensures_bind_any
  intro es'
  rfl

theorem ensures_setPendingExecutor_states (s : Scheduler κ) (e : ExecutorId) (r : ReqId)
    (conf : ℚ) :
    (s.modifyRequestState r fun rs => rs.setPendingExecutor e conf).Ensures (fun _ => True)
      fun s' => PlacedOn s s' e r := by
  unfold modifyRequestState
  rw [ensures_bind, ensures_subscript]
  refine ⟨fun rs hrs => ?_, fun _ => trivial⟩
  rw [ensures_pure]
  refine ⟨fun r' hr' => ?_, _, Dict.get?_set_self _ _ _, rfl, ?_⟩
  · rw [Dict.get?_set, if_neg hr']
  · cases hexec : rs.executorId <;>
      simp [RequestState.setPendingExecutor, RequestState.refreshStatus,
        RequestState.isUnscheduled, hexec]

theorem ensures_placeLater_states (cfg : Config κ) (s : Scheduler κ) (e : ExecutorId)
    (r : ReqId) :
    (s.placeLater cfg e r).Ensures (fun _ => True) fun s' => PlacedOn s s' e r := by
  unfold placeLater
  apply ensures_bind_any
  intro req
  apply (ensures_modifyExecutorState_states s e _).bind
  intro s₁ h₁
  apply (ensures_setPendingExecutor_states s₁ e r _).imp
  intro s₂ h₂
  rw [PlacedOn, h₁] at h₂
  exact h₂

theorem ensures_placeNow_states (cfg : Config κ) (s : Scheduler κ) (e : ExecutorId)
    (r : ReqId) :
    (s.placeNow cfg e r).Ensures (fun _ => True) fun s' => PlacedOn s s' e r := by
  unfold placeNow
  apply ensures_bind_any
  intro req
  apply (ensures_modifyExecutorState_states s e _).bind
  intro s₁ h₁
  rw [ensures_bind]
  unfold modifyRequestState
  rw [ensures_bind, ensures_subscript]
  refine ⟨fun rs hrs => ?_, fun _ => trivial⟩
  rw [ensures_pure]
  apply (ensures_setPendingExecutor_states _ e r _).imp
  rintro s₂ ⟨hothers, hown⟩
  refine ⟨fun r' hr' => ?_, hown⟩
  rw [hothers r' hr', Dict.get?_set, if_neg hr', h₁]

end Scheduler

namespace Round

open Scheduler

variable {κ : Type} {cfg : Config κ} {idle : List ExecutorId} {p p' : Round κ}

def placeAll (cfg : Config κ) (idle : List ExecutorId) (p : Round κ)
    (placed : List (ReqId × ExecutorId)) : Except PyError (Round κ) :=
  placed.foldlM (fun q x => q.place cfg idle x.2 x.1) p

theorem place_of_schedulable (l : List ExecutorId) (e : ExecutorId) (r : ReqId) :
    { p with schedulableExecutors := l }.place cfg idle e r =
      (p.place cfg idle e r).map fun q => { q with schedulableExecutors := l } := by
  unfold place
  by_cases he : e ∈ idle
  · rw [if_pos he, if_pos he]
    cases p.scheduler.placeNow cfg e r <;> rfl
  · rw [if_neg he, if_neg he]
    cases p.scheduler.placeLater cfg e r <;> rfl

theorem ensures_place_states (cfg : Config κ) (idle : List ExecutorId) (p : Round κ)
    (e : ExecutorId) (r : ReqId) :
    (p.place cfg idle e r).Ensures (fun _ => True) fun q =>
      q.schedulableExecutors = p.schedulableExecutors ∧
      PlacedOn p.scheduler q.scheduler e r := by
  unfold place
  by_cases he : e ∈ idle
  · rw [if_pos he, ensures_bind]
    apply (ensures_placeNow_states cfg p.scheduler e r).imp
    exact fun s hs => ⟨rfl, hs⟩
  · rw [if_neg he, ensures_bind]
    apply (ensures_placeLater_states cfg p.scheduler e r).imp
    exact fun s hs => ⟨rfl, hs⟩

/-- The requests of a list of placements are where the list says, and the records of all
others are as they were. -/
theorem ensures_placeAll_states (cfg : Config κ) (idle : List ExecutorId)
    (placed : List (ReqId × ExecutorId)) (hnodup : (placed.map Prod.fst).Nodup) (p : Round κ) :
    (p.placeAll cfg idle placed).Ensures (fun _ => True) fun q =>
      q.schedulableExecutors = p.schedulableExecutors ∧
      (∀ r, r ∉ placed.map Prod.fst →
        q.scheduler.requestStates.get? r = p.scheduler.requestStates.get? r) ∧
      ∀ x ∈ placed, ∃ rs, q.scheduler.requestStates.get? x.1 = some rs ∧
        rs.pendingExecutorId = some x.2 ∧ rs.isUnscheduled = false := by
  induction placed generalizing p with
  | nil => exact ⟨rfl, fun _ _ => rfl, fun x hx => absurd hx List.not_mem_nil⟩
  | cons x placed ih =>
      rw [List.map_cons, List.nodup_cons] at hnodup
      unfold placeAll
      rw [List.foldlM_cons, ensures_bind]
      apply (ensures_place_states cfg idle p x.2 x.1).imp
      rintro q ⟨hsame, hothers, hown⟩
      apply (ih hnodup.2 q).imp
      rintro q' ⟨hsame', hothers', hplaced'⟩
      refine ⟨hsame'.trans hsame, ?_, ?_⟩
      · intro r hr
        rw [List.map_cons, List.mem_cons, not_or] at hr
        rw [hothers' r hr.2, hothers r hr.1]
      · intro y hy
        rcases List.mem_cons.mp hy with rfl | hy
        · rw [hothers' y.1 hnodup.1]
          exact hown
        · exact hplaced' y hy

theorem mem_unscheduledRequests (s : Scheduler κ) (r : ReqId) :
    r ∈ unscheduledRequests s ↔
      ∃ rs, s.requestStates.get? r = some rs ∧ rs.isUnscheduled = true := by
  unfold unscheduledRequests
  simp only [List.mem_map, List.mem_filter, Prod.exists, exists_and_right, exists_eq_right,
    Dict.mem_entries_iff]

theorem placeAll_of_schedulable (l : List ExecutorId) (placed : List (ReqId × ExecutorId)) :
    { p with schedulableExecutors := l }.placeAll cfg idle placed =
      (p.placeAll cfg idle placed).map fun q => { q with schedulableExecutors := l } := by
  induction placed generalizing p with
  | nil => rfl
  | cons x placed ih =>
      unfold placeAll
      rw [List.foldlM_cons, List.foldlM_cons, place_of_schedulable]
      cases p.place cfg idle x.2 x.1 with
      | error err => rfl
      | ok q => exact ih

/-- What the placements in a given order come to: a first part of the requests is placed,
each one in the best place at its turn, and there is no room for the next one. -/
structure InOrder (cfg : Config κ) (idle : List ExecutorId) (p p' : Round κ)
    (placed : List (ReqId × ExecutorId)) (rest : List ReqId) : Prop where
  result : ∃ q, p.placeAll cfg idle placed = .ok q ∧ q.scheduler = p'.scheduler
  best : ∀ before x after, placed = before ++ x :: after →
    ∃ q, p.placeAll cfg idle before = .ok q ∧
      ∃ req, q.scheduler.requests.get? x.1 = some req ∧
        BestOf cfg q.scheduler req.numTokens p.schedulableExecutors x.2
  full : ∀ r, rest.head? = some r →
    ∃ req, p'.scheduler.requests.get? r = some req ∧
      ∀ e ∈ p.schedulableExecutors, ¬FitsOn cfg p'.scheduler req.numTokens e

theorem InOrder.cons {q : Round κ} {l : List ExecutorId} {r : ReqId} {b : ExecutorId}
    {req : Request} {placed : List (ReqId × ExecutorId)} {rest : List ReqId}
    (hl : l.Perm p.schedulableExecutors) (hreq : p.scheduler.requests.get? r = some req)
    (hbest : BestOf cfg p.scheduler req.numTokens p.schedulableExecutors b)
    (hq : p.place cfg idle b r = .ok q)
    (h : InOrder cfg idle { q with schedulableExecutors := l } p' placed rest) :
    InOrder cfg idle p p' ((r, b) :: placed) rest := by
  have hplace : ∀ before, p.placeAll cfg idle ((r, b) :: before) =
      q.placeAll cfg idle before := by
    intro before
    unfold placeAll
    rw [List.foldlM_cons, hq]
    rfl
  -- the placements after the first, with the candidates in their old order
  have hafter : ∀ before q',
      { q with schedulableExecutors := l }.placeAll cfg idle before = .ok q' →
      ∃ q₁, q.placeAll cfg idle before = .ok q₁ ∧ q₁.scheduler = q'.scheduler := by
    intro before q' hq'
    rw [placeAll_of_schedulable] at hq'
    cases hq₁ : q.placeAll cfg idle before with
    | error err =>
        rw [hq₁] at hq'
        cases hq'
    | ok q₁ =>
        rw [hq₁] at hq'
        cases hq'
        exact ⟨q₁, rfl, rfl⟩
  refine ⟨?_, ?_, ?_⟩
  · obtain ⟨q', hq', hsame⟩ := h.result
    obtain ⟨q₁, hq₁, hsame₁⟩ := hafter placed q' hq'
    exact ⟨q₁, (hplace placed).trans hq₁, hsame₁.trans hsame⟩
  · intro before x after heq
    cases before with
    | nil =>
        cases heq
        exact ⟨p, rfl, req, hreq, hbest⟩
    | cons y before =>
        rw [List.cons_append, List.cons.injEq] at heq
        obtain ⟨rfl, heq⟩ := heq
        obtain ⟨q', hq', req', hreq', hbest'⟩ := h.best before x after heq
        obtain ⟨q₁, hq₁, hsame⟩ := hafter before q' hq'
        rw [← hsame] at hreq' hbest'
        exact ⟨q₁, (hplace before).trans hq₁, req', hreq', hbest'.of_perm hl⟩
  · intro r' hr'
    obtain ⟨req', hreq', hfull⟩ := h.full r' hr'
    exact ⟨req', hreq', fun e he => hfull e (hl.symm.subset he)⟩

theorem ensures_placeUnscheduled_inOrder (cfg : Config κ) (idle : List ExecutorId)
    (order : List ReqId) (hnodup : order.Nodup) (p : Round κ) :
    (placeUnscheduled cfg idle order p).Ensures (fun _ => True) fun p' =>
      ∃ placed rest, order = placed.map Prod.fst ++ rest ∧
        InOrder cfg idle p p' placed rest := by
  induction order generalizing p with
  | nil =>
      refine ⟨[], [], rfl, ⟨p, rfl, rfl⟩, ?_, ?_⟩
      · intro before x after heq
        simp at heq
      · intro r hr
        cases hr
  | cons r order ih =>
      rw [List.nodup_cons] at hnodup
      unfold placeUnscheduled
      apply (ensures_findBestExecutor_best cfg p.schedulableExecutors r).bind
      rintro ⟨best, sorted⟩ ⟨hperm, req, hreq, hbest, hnone⟩
      cases best with
      | none =>
          refine ⟨[], r :: order, rfl, ⟨p, rfl, rfl⟩, ?_, ?_⟩
          · intro before x after heq
            simp at heq
          · intro r' hr'
            cases hr'
            exact ⟨req, hreq, hnone rfl⟩
      | some b =>
          rw [ensures_bind, place_of_schedulable]
          cases hq : p.place cfg idle b r with
          | error err => trivial
          | ok q =>
              apply (ih hnodup.2 { q with schedulableExecutors := sorted }).imp
              rintro p' ⟨placed, rest, rfl, h⟩
              exact ⟨(r, b) :: placed, rest, rfl, h.cons hperm hreq (hbest b rfl) hq⟩

/-- Stage 2 takes the unscheduled requests in order of arrival. It places a first part of
them, each on an executor with room where the step with the request is fastest, at that
moment; the first request of the others has room nowhere when the stage ends. -/
theorem placed_in_arrival_order (cfg : Config κ) (idle : List ExecutorId) {p p' : Round κ}
    (h : p.stage2 cfg idle = .ok p') :
    ∃ (placed : List (ReqId × ExecutorId)) (rest : List ReqId),
      (placed.map Prod.fst ++ rest).Perm (unscheduledRequests p.scheduler) ∧
      (placed.map Prod.fst ++ rest).Pairwise (fun r r' => ∀ req req',
        p.scheduler.requests.get? r = some req → p.scheduler.requests.get? r' = some req' →
          req.arrivalTime ≤ req'.arrivalTime) ∧
      (∀ x ∈ placed, ∃ rs, p'.scheduler.requestStates.get? x.1 = some rs ∧
        rs.pendingExecutorId = some x.2 ∧ rs.isUnscheduled = false) ∧
      (∀ r ∈ rest, r ∈ unscheduledRequests p'.scheduler) ∧
      (∀ r, rest.head? = some r → ∃ req, p'.scheduler.requests.get? r = some req ∧
        ∀ e ∈ p.schedulableExecutors, ¬FitsOn cfg p'.scheduler req.numTokens e) ∧
      ∀ before x after, placed = before ++ x :: after →
        ∃ q, p.placeAll cfg idle before = .ok q ∧
          ∃ req, q.scheduler.requests.get? x.1 = some req ∧
            BestOf cfg q.scheduler req.numTokens p.schedulableExecutors x.2 := by
  have hkeys : ∀ r ∈ unscheduledRequests p.scheduler, (do
      let req ← subscript p.scheduler.requests .requests r
      pure req.arrivalTime : Except PyError ℚ).Ensures (fun _ => True) fun _ => True :=
    fun r _ => ensures_any _
  apply ensures_of_ok (E := fun _ => True) _ h
  unfold stage2
  apply ((ensures_sortedByKey _ hkeys).and (ensures_sortedByKey_sorted _ hkeys)).bind
  rintro order ⟨hperm, hsorted⟩
  have hnodup : order.Nodup := hperm.symm.nodup (nodup_unscheduledRequests p.scheduler)
  apply (ensures_placeUnscheduled_inOrder cfg idle order hnodup p).imp
  rintro p' ⟨placed, rest, rfl, hin⟩
  obtain ⟨q, hq, hsame⟩ := hin.result
  obtain ⟨hleft, -, hdisj⟩ := List.nodup_append'.mp hnodup
  obtain ⟨-, hothers, hplaced⟩ :=
    ensures_of_ok (ensures_placeAll_states cfg idle placed hleft p) hq
  rw [hsame] at hothers hplaced
  refine ⟨placed, rest, hperm, ?_, hplaced, ?_, hin.full, hin.best⟩
  · refine hsorted.imp ?_
    intro r r' hle req req' hreq hreq'
    apply hle
    · rw [subscript_of_get? _ hreq]
      rfl
    · rw [subscript_of_get? _ hreq']
      rfl
  · intro r hr
    have hmem := hperm.subset (List.mem_append_right _ hr)
    rw [mem_unscheduledRequests] at hmem ⊢
    rwa [hothers r fun hr' => hdisj hr' hr]

/-- Two executors with room for one request each: the third request is left. -/
theorem placed_in_arrival_order_small : ∃ (p p' : Round Unit)
    (placed : List (ReqId × ExecutorId)) (rest : List ReqId),
    p.stage2 { Config.small true true none with maxNumScheduledTokens := 8 } [0, 1] = .ok p' ∧
    (placed.map Prod.fst ++ rest).Perm (unscheduledRequests p.scheduler) ∧
    unscheduledRequests p.scheduler = ["a", "b", "c"] ∧
    unscheduledRequests p'.scheduler = ["c"] := by
  have hrun : (Calls.replay { Config.small true true none with maxNumScheduledTokens := 8 }
      (fun _ _ => true) [(0, [0]), (1, [1])] [.addRequest (Request.small "a"),
        .addRequest (Request.small "b"), .addRequest (Request.small "c")]).Ensures
      (fun _ => False) fun t =>
        unscheduledRequests t.scheduler = ["a", "b", "c"] ∧
        (stage2 { Config.small true true none with maxNumScheduledTokens := 8 } [0, 1]
          ⟨t.scheduler, [0, 1], OrderedSet.empty⟩).Ensures (fun _ => False) fun p' =>
            unscheduledRequests p'.scheduler = ["c"] := by
    decide +kernel
  obtain ⟨t, -, hstart, hstage⟩ := hrun.exists_ok
  obtain ⟨p', hp', hend⟩ := hstage.exists_ok
  obtain ⟨placed, rest, hperm, -⟩ := placed_in_arrival_order _ _ hp'
  exact ⟨_, p', placed, rest, hp', hperm, hstart, hend⟩

end Round

end TeDiServe

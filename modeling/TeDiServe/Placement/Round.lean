import TeDiServe.Placement.InRound

/-!
# The stages that place requests

Stage 1 visits the executors that were found idle and reconsiders their requests, and
stage 2 places the requests that have no executor. Beside the invariant of the round the
stages keep the sequence of the moves made so far.
-/

namespace TeDiServe

open Scheduler

namespace Round

variable {κ : Type} {cfg : Config κ} {found idle notAccepting : List ExecutorId}
  {s₁ s' : Scheduler κ} {π₁ π : Placement} {p : Round κ} {r : ReqId} {e : ExecutorId}
  {E : PyError → Prop}

/-! ## Stage 1 -/

/-- The moves of stages 1 and 2, when the executors `rest` are still to be visited:
nobody has come to these, none of them is a receiver, and a request that has lost
its executor has left one that does not accept requests. -/
structure Trail (cfg : Config κ) (notAccepting : List ExecutorId) (s₁ : Scheduler κ)
    (π₁ : Placement) (rest : List ExecutorId) (p : Round κ) (π : Placement) : Prop where
  moves : Moves cfg π₁ (s₁, π₁) (p.scheduler, π)
  home : ∀ e ∈ rest, ∀ r, π r = some (.running e) → π₁.host? r = some e
  unvisited : ∀ e ∈ p.schedulableExecutors, e ∉ rest
  away : ∀ r, π r = some .unscheduled → ∀ e, π₁ r = some (.running e) → e ∈ notAccepting

namespace Trail

variable {rest rest' : List ExecutorId}

variable (h : Trail cfg notAccepting s₁ π₁ rest p π)
include h

theorem note (r : ReqId) : Trail cfg notAccepting s₁ π₁ rest (p.note r) π :=
  ⟨h.moves, h.home, h.unvisited, h.away⟩

theorem of_perm {l : List ExecutorId} (hl : l.Perm p.schedulableExecutors) :
    Trail cfg notAccepting s₁ π₁ rest { p with schedulableExecutors := l } π :=
  ⟨h.moves, h.home, fun e he => h.unvisited e (hl.subset he), h.away⟩

theorem of_subset (hsub : rest' ⊆ rest) : Trail cfg notAccepting s₁ π₁ rest' p π :=
  ⟨h.moves, fun e he => h.home e (hsub he), fun e he hmem => h.unvisited e he (hsub hmem),
    h.away⟩

/-- One request has moved, to a visited executor or away from one that does not
accept requests. -/
theorem move {q : Round κ} {l : Loc}
    (hmoves : Moves cfg π₁ (p.scheduler, π) (q.scheduler, Function.update π r (some l)))
    (hsched : q.schedulableExecutors = p.schedulableExecutors)
    (hrun : ∀ e, l = .running e → e ∉ rest)
    (haway : l = .unscheduled → ∀ e, π₁ r = some (.running e) → e ∈ notAccepting) :
    Trail cfg notAccepting s₁ π₁ rest q (Function.update π r (some l)) := by
  refine ⟨h.moves.trans hmoves, ?_, ?_, ?_⟩
  · intro e he r' hr'
    by_cases hrr : r' = r
    · rw [hrr, Function.update_self, Option.some.injEq] at hr'
      exact absurd he (hrun e hr')
    · rw [Function.update_of_ne hrr] at hr'
      exact h.home e he r' hr'
  · rw [hsched]
    exact h.unvisited
  · intro r' hr'
    by_cases hrr : r' = r
    · rw [hrr, Function.update_self, Option.some.injEq] at hr'
      rw [hrr]
      exact haway hr'
    · rw [Function.update_of_ne hrr] at hr'
      exact h.away r' hr'

end Trail

theorem Settling.trail (h : Settling cfg s₁ π₁ p.scheduler π) (notAccepting : List ExecutorId)
    {rest : List ExecutorId} (hsched : ∀ e ∈ p.schedulableExecutors, e ∉ rest) :
    Trail cfg notAccepting s₁ π₁ rest p π := by
  refine ⟨h.moves, ?_, hsched, ?_⟩
  · intro e _ r hr
    rw [← h.host r]
    exact Placement.host?_of_running hr
  · intro r hr e he
    have hhost := h.host r
    rw [Placement.host?_of_running he, Placement.host?, hr] at hhost
    cases hhost

/-- What stages 1 and 2 keep: nothing is pending on the idle executors, and the
receivers are recorded and accept requests. -/
structure Open (cfg : Config κ) (idle notAccepting : List ExecutorId) (s₁ : Scheduler κ)
    (π₁ : Placement) (p : Round κ) (π : Placement) : Prop where
  inRound : InRound cfg (idle ++ notAccepting) s₁ π₁ p π
  clean : ∀ e ∈ idle ++ notAccepting, NoPending π e
  recorded : ∀ e ∈ p.schedulableExecutors, e ∈ s₁.executorStates
  accepting : ∀ e ∈ p.schedulableExecutors, e ∉ notAccepting

namespace Open

variable {best : ExecutorId}

variable (h : Open cfg idle notAccepting s₁ π₁ p π)
include h

theorem of_perm {l : List ExecutorId} (hl : l.Perm p.schedulableExecutors) :
    Open cfg idle notAccepting s₁ π₁ { p with schedulableExecutors := l } π :=
  ⟨h.inRound.of_schedulable l, h.clean, fun e he => h.recorded e (hl.subset he),
    fun e he => h.accepting e (hl.subset he)⟩

theorem note {l : Loc} (hr : π r = some l) (hl : ∀ e, l = .running e → e ∈ idle ++ notAccepting) :
    Open cfg idle notAccepting s₁ π₁ (p.note r) π :=
  ⟨h.inRound.note hr hl, h.clean, h.recorded, h.accepting⟩

theorem ensures_findBestExecutor {l : Loc} (hr : π r = some l) (cur : Option ExecutorId)
    (hcur : ∀ e, cur = some e → e ∈ s₁.executorStates) :
    (p.scheduler.findBestExecutor cfg p.schedulableExecutors r cur).Ensures
      (Unprofiled cfg (SearchAsks cfg p.scheduler r cur)) fun b =>
        (∀ x, b.1 = some x → x ∈ p.schedulableExecutors ∧ Room cfg p.scheduler r x) ∧
        b.2.Perm p.schedulableExecutors := by
  obtain ⟨req, hreq, -⟩ := h.inRound.refines.request hr
  apply Scheduler.ensures_findBestExecutor cfg h.inRound.refines
  · intro e he
    exact h.inRound.moved.mem_executorStates.mpr (h.recorded e he)
  · exact Dict.mem_of_get? hreq
  · intro e he
    exact h.inRound.moved.mem_executorStates.mpr (hcur e he)

/-- Placing a request on one of the receivers: only this request moves, and if it
comes to run somewhere, it is noted. -/
theorem ensures_place (hr : π r = some .unscheduled) (hb : best ∈ p.schedulableExecutors)
    (hroom : Room cfg p.scheduler r best) (hfresh : π₁ r ≠ some (.running best)) :
    (p.place cfg idle best r).Ensures E fun p' => ∃ l,
      Open cfg idle notAccepting s₁ π₁ p' (Function.update π r (some l)) ∧
      Move cfg π₁ (p.scheduler, π) (p'.scheduler, Function.update π r (some l)) ∧
      p'.schedulableExecutors = p.schedulableExecutors ∧ l.executor? = some best ∧
      (∀ x ∈ p.requestsInSchedulerOutput, x ∈ p'.requestsInSchedulerOutput) ∧
      (∀ e, l = .running e → r ∈ p'.requestsInSchedulerOutput) := by
  refine (Round.ensures_place h.inRound hr hroom hfresh).imp fun p' hp' => ?_
  obtain ⟨l, hin, hmove, hl, hsched⟩ := hp'
  have hexec : l.executor? = some best := by
    rcases hl with ⟨rfl, -⟩ | ⟨rfl, -, -⟩
    · rfl
    · rfl
  refine ⟨l, ⟨hin, ?_, ?_, ?_⟩, hmove, hsched, hexec, ?_, ?_⟩
  · intro e he r' hr'
    by_cases hrr : r' = r
    · rw [hrr, Function.update_self, Option.some.injEq] at hr'
      rcases hl with ⟨hl, -⟩ | ⟨hl, hidle, -⟩
      · rw [hl] at hr'
        cases hr'
      · rw [hl, Loc.pending.injEq] at hr'
        rcases List.mem_append.mp he with he | he
        · exact hidle (hr' ▸ he)
        · exact h.accepting best hb (hr' ▸ he)
    · rw [Function.update_of_ne hrr] at hr'
      exact h.clean e he r' hr'
  · rw [hsched]
    exact h.recorded
  · rw [hsched]
    exact h.accepting
  · intro x hx
    rcases hl with ⟨-, hout⟩ | ⟨-, -, hout⟩
    · rw [hout]
      exact (OrderedSet.mem_add _ _ _).mpr (Or.inr hx)
    · rw [hout]
      exact hx
  · intro e hrun
    rcases hl with ⟨-, hout⟩ | ⟨hl, -, -⟩
    · rw [hout]
      exact (OrderedSet.mem_add _ _ _).mpr (Or.inl rfl)
    · rw [hl] at hrun
      cases hrun

theorem ensures_unplace (he : e ∈ idle ++ notAccepting) (hr : π r = some (.running e))
    (hnoted : r ∈ p.requestsInSchedulerOutput) {req : Request}
    (hreq : s₁.requests.get? r = some req) (hcan : canMigrate cfg req = true) :
    (p.scheduler.unplace e r).Ensures E fun s' =>
      Open cfg idle notAccepting s₁ π₁ { p with scheduler := s' }
        (Function.update π r (some .unscheduled)) ∧
      Move cfg π₁ (p.scheduler, π) (s', Function.update π r (some .unscheduled)) ∧
      OnlyAt e r p.scheduler s' := by
  refine (Scheduler.ensures_unplace h.inRound.refines hr).mono (fun _ hf => hf.elim)
    fun s' hs' => ?_
  refine ⟨⟨?_, ?_, h.recorded, h.accepting⟩,
    .mk hr h.inRound.refines hs'.1 hs'.2.1 hs'.2.2.2 (by simp [Loc.executor?]) (by simp),
    hs'.2.2⟩
  · apply h.inRound.move hr hs'.1 hs'.2.1
    · intro e' he'
      cases he'
      exact he
    · intro e' _ req' hreq'
      rw [hreq, Option.some.injEq] at hreq'
      rw [← hreq']
      exact hcan
    · intro e' he'
      cases he'
    · exact Or.inl hnoted
  · intro e' he' r' hr'
    by_cases hrr : r' = r
    · simp [hrr] at hr'
    · rw [Function.update_of_ne hrr] at hr'
      exact h.clean e' he' r' hr'

theorem roundAsks {l : Loc} (hr : π r = some l) (hmoves : Moves cfg π₁ (s₁, π₁) (p.scheduler, π))
    {cur : Option ExecutorId} (hcur : ∀ e, cur = some e → π r = some (.running e)) (err : PyError)
    (herr : Unprofiled cfg (SearchAsks cfg p.scheduler r cur) err) :
    Unprofiled cfg (RoundAsks cfg s₁ π₁) err :=
  herr.mono fun _ hn => ⟨p.scheduler, π, r, l, cur, hmoves, h.inRound.refines, hr, hcur, hn⟩

end Open

section

variable (h : Open cfg idle notAccepting s₁ π₁ p π)
include h

/-- One request of an idle executor: it is noted, only its own location changes,
and it does not come to run anywhere without being noted. -/
theorem ensures_reconsider {rest : List ExecutorId}
    (ht : Trail cfg notAccepting s₁ π₁ (e :: rest) p π) (he : e ∈ idle ++ notAccepting)
    (hr : π r = some (.running e)) :
    (reconsider cfg idle notAccepting e p r).Ensures (Unprofiled cfg (RoundAsks cfg s₁ π₁))
      fun p' => ∃ l,
      Open cfg idle notAccepting s₁ π₁ p' (Function.update π r (some l)) ∧
      Trail cfg notAccepting s₁ π₁ (e :: rest) p' (Function.update π r (some l)) ∧
      (∀ x ∈ p.requestsInSchedulerOutput, x ∈ p'.requestsInSchedulerOutput) ∧
      r ∈ p'.requestsInSchedulerOutput := by
  obtain ⟨req, hreq, -⟩ := h.inRound.refines.request hr
  have hreq₁ : s₁.requests.get? r = some req := by
    rw [← h.inRound.moved.requests]
    exact hreq
  have hhost : e ∈ s₁.executorStates := by
    rw [← h.inRound.moved.mem_executorStates]
    exact h.inRound.refines.hosted r e (Placement.host?_of_running hr)
  have hnote : ∀ {q : Round κ}, Open cfg idle notAccepting s₁ π₁ q π →
      Open cfg idle notAccepting s₁ π₁ (q.note r) π := by
    intro q hq
    apply hq.note hr
    intro e' he'
    cases he'
    exact he
  have hhome : ∀ e', π₁ r = some (.running e') → e' = e := by
    intro e' he'
    have hhost' := ht.home e List.mem_cons_self r hr
    rw [Placement.host?_of_running he', Option.some.injEq] at hhost'
    exact hhost'
  have hstay : Function.update π r (some (.running e)) = π := by
    rw [← hr]
    exact Function.update_eq_self r π
  have hkeep : ∀ q : Round κ, ∀ x ∈ q.requestsInSchedulerOutput,
      x ∈ (q.note r).requestsInSchedulerOutput :=
    fun q x hx => (OrderedSet.mem_add _ _ _).mpr (Or.inr hx)
  have hself : ∀ q : Round κ, r ∈ (q.note r).requestsInSchedulerOutput :=
    fun q => (OrderedSet.mem_add _ _ _).mpr (Or.inl rfl)
  unfold reconsider
  rw [ensures_bind, subscript_of_get? _ hreq, ensures_ok]
  cases hcan : canMigrate cfg req with
  | false =>
      refine ⟨.running e, ?_, ?_, hkeep p, hself p⟩
      · rw [hstay]
        exact hnote h
      · rw [hstay]
        exact ht.note r
  | true =>
      simp only [Bool.not_true, Bool.false_eq_true, if_false]
      by_cases hacc : e ∈ notAccepting
      · rw [if_pos hacc, ensures_bind]
        refine ((hnote h).ensures_unplace he hr (hself p) hreq₁ hcan).imp fun s' hs' => ?_
        obtain ⟨hopen, hmove, -⟩ := hs'
        refine ⟨.unscheduled, hopen, ?_, hkeep p, hself p⟩
        apply ht.move (q := ({ p with scheduler := s' } : Round κ).note r) (.single hmove) rfl
        · intro e' he'
          cases he'
        · intro _ e' he'
          rw [hhome e' he']
          exact hacc
      · rw [if_neg hacc, ensures_bind]
        refine (h.ensures_findBestExecutor hr (some e) ?_).mono
          (h.roundAsks hr ht.moves fun e' he' => by cases he'; exact hr) fun b hb => ?_
        · intro e' he'
          cases he'
          exact hhost
        obtain ⟨best, sorted⟩ := b
        have hq := h.of_perm hb.2
        cases best with
        | none =>
            refine ⟨.running e, ?_, ?_, hkeep p, hself p⟩
            · rw [hstay]
              exact hnote hq
            · rw [hstay]
              exact (ht.of_perm hb.2).note r
        | some b =>
            obtain ⟨hmem, hroom⟩ := hb.1 b rfl
            have hne : b ≠ e := by
              rintro rfl
              exact ht.unvisited b hmem List.mem_cons_self
            change (p.scheduler.unplace e r >>= fun s => _).Ensures _ _
            refine ((hnote hq).ensures_unplace he hr (hself _) hreq₁ hcan).bind fun s' hs' => ?_
            obtain ⟨hopen', hmove', honly⟩ := hs'
            -- the receiver is another executor, so it has the room that was found
            have hroom' : Room cfg s' r b := by
              obtain ⟨es, hes, hle⟩ := hroom
              have hreqs : s'.requests = p.scheduler.requests :=
                hopen'.inRound.moved.requests.trans h.inRound.moved.requests.symm
              have hsize : s'.size = p.scheduler.size := by
                funext r'
                simp only [size, hreqs]
              exact ⟨es, (honly.1 b hne).trans hes, by rw [hsize]; exact hle⟩
            refine (hopen'.ensures_place (by simp) (hb.2.symm.subset hmem) hroom'
              fun hb' => hne (hhome b hb')).imp fun p' hp' => ?_
            obtain ⟨l, hopen, hmove, hsched, hexec, hout, -⟩ := hp'
            rw [Function.update_idem] at hopen hmove
            refine ⟨l, hopen, ?_, fun x hx => hout x (hkeep p x hx), hout r (hself p)⟩
            apply (ht.of_perm hb.2).move (.tail (.single hmove') hmove) hsched
            · rintro e' rfl
              cases hexec
              exact ht.unvisited b hmem
            · rintro rfl
              cases hexec

/-- The loop over one idle executor notes all its residents and keeps every
other executor covered that was. -/
theorem ensures_reconsiderExecutor {rest : List ExecutorId}
    (ht : Trail cfg notAccepting s₁ π₁ (e :: rest) p π) (hnew : e ∉ rest)
    (he : e ∈ idle ++ notAccepting) (hmem : e ∈ s₁.executorStates)
    (hdisj : ∀ e ∈ idle, e ∉ notAccepting) :
    (reconsiderExecutor cfg idle notAccepting p e).Ensures
      (Unprofiled cfg (RoundAsks cfg s₁ π₁)) fun p' => ∃ π',
      Open cfg idle notAccepting s₁ π₁ p' π' ∧ Trail cfg notAccepting s₁ π₁ rest p' π' ∧
      Covers p' π' e ∧
      ∀ e', Covers p π e' → Covers p' π' e' := by
  obtain ⟨es, hes⟩ := (Dict.mem_iff_exists _ _).mp (h.inRound.moved.mem_executorStates.mpr hmem)
  have hmir := h.inRound.refines.executors e es hes
  unfold reconsiderExecutor
  rw [ensures_bind, subscript_of_get? _ hes, ensures_ok, ensures_bind]
  -- the requests still to visit are on `e`, and the others on `e` are noted
  refine (ensures_foldlM_rest (E := Unprofiled cfg (RoundAsks cfg s₁ π₁))
    (fun todo (q : Round κ) => ∃ π', Open cfg idle notAccepting s₁ π₁ q π' ∧
      Trail cfg notAccepting s₁ π₁ (e :: rest) q π' ∧ todo.Nodup ∧
      (∀ r ∈ todo, π' r = some (.running e)) ∧
      (∀ r, π' r = some (.running e) → r ∈ q.requestsInSchedulerOutput ∨ r ∈ todo) ∧
      ∀ e', Covers p π e' → Covers q π' e') ?_
    es.reqIds.items p ⟨π, h, ht, es.reqIds.nodup, fun r hr => (hmir.resident r).mp hr,
      fun r hr => Or.inr ((hmir.resident r).mpr hr), fun _ hc => hc⟩).imp ?_
  · rintro q r todo ⟨π', hq, htq, hnodup, hrest, hall, hcov⟩
    obtain ⟨hnot, hnodup'⟩ := List.nodup_cons.mp hnodup
    refine (ensures_reconsider hq htq he (hrest r List.mem_cons_self)).imp fun q' hq' => ?_
    obtain ⟨l, hopen, htrail, hout, hself⟩ := hq'
    refine ⟨_, hopen, htrail, hnodup', ?_, ?_, ?_⟩
    · intro r' hr'
      have hne : r' ≠ r := fun h' => hnot (h' ▸ hr')
      rw [Function.update_of_ne hne]
      exact hrest r' (List.mem_cons_of_mem r hr')
    · intro r' hr'
      by_cases hne : r' = r
      · rw [hne]
        exact Or.inl hself
      · rw [Function.update_of_ne hne] at hr'
        rcases hall r' hr' with hr'' | hr''
        · exact Or.inl (hout r' hr'')
        · exact Or.inr ((List.mem_cons.mp hr'').resolve_left hne)
    · intro e' hc r' hr'
      by_cases hne : r' = r
      · rw [hne]
        exact hself
      · rw [Function.update_of_ne hne] at hr'
        exact hout r' (hcov e' hc r' hr')
  · rintro q ⟨π', hq, htq, -, -, hall, hcov⟩
    rw [ensures_pure]
    have hnext := htq.of_subset (List.subset_cons_self e rest)
    have hcovered : Covers q π' e := by
      intro r hr
      rcases hall r hr with hr | hr
      · exact hr
      · cases hr
    by_cases hidle : e ∈ idle
    · rw [if_pos hidle]
      refine ⟨π', ⟨hq.inRound.of_schedulable _, hq.clean, ?_, ?_⟩,
        ⟨hnext.moves, hnext.home, ?_, hnext.away⟩, hcovered, hcov⟩
      · intro e' he'
        rcases List.mem_append.mp he' with he' | he'
        · exact hq.recorded e' he'
        · rw [List.mem_singleton.mp he']
          exact hmem
      · intro e' he'
        rcases List.mem_append.mp he' with he' | he'
        · exact hq.accepting e' he'
        · rw [List.mem_singleton.mp he']
          exact hdisj e hidle
      · intro e' he'
        rcases List.mem_append.mp he' with he' | he'
        · exact hnext.unvisited e' he'
        · rw [List.mem_singleton.mp he']
          exact hnew
    · rw [if_neg hidle]
      exact ⟨π', hq, hnext, hcovered, hcov⟩

theorem ensures_stage1 (ht : Trail cfg notAccepting s₁ π₁ (idle ++ notAccepting) p π)
    (hnodup : (idle ++ notAccepting).Nodup)
    (hfound : ∀ e ∈ idle ++ notAccepting, e ∈ s₁.executorStates)
    (hdisj : ∀ e ∈ idle, e ∉ notAccepting) :
    (p.stage1 cfg idle notAccepting).Ensures (Unprofiled cfg (RoundAsks cfg s₁ π₁)) fun p' => ∃ π',
      Open cfg idle notAccepting s₁ π₁ p' π' ∧ Trail cfg notAccepting s₁ π₁ [] p' π' ∧
      ∀ e ∈ idle ++ notAccepting, Covers p' π' e := by
  unfold stage1
  rw [ensures_bind]
  have hkeys : ∀ e ∈ idle ++ notAccepting, (do
      let es ← subscript p.scheduler.executorStates .executorStates e
      es.getBatchSize : Except PyError ℕ).Ensures (Unprofiled cfg (RoundAsks cfg s₁ π₁))
        fun _ => True := by
    intro e he
    obtain ⟨es, hes⟩ := (Dict.mem_iff_exists _ _).mp
      (h.inRound.moved.mem_executorStates.mpr (hfound e he))
    have hmir := h.inRound.refines.executors e es hes
    rw [ensures_bind, subscript_of_get? _ hes, ensures_ok]
    refine (hmir.ensures_tokensNeeded (fun r hr => h.inRound.refines.size_ne_none_of_host hr)
      fun r hr => ?_).mono (fun _ hf => hf.elim) fun _ _ => trivial
    exact Placement.host?_of_running ((hmir.resident r).mp hr)
  refine (ensures_sortedByKey _ hkeys).imp fun order hperm => ?_
  refine (ensures_foldlM_rest (E := Unprofiled cfg (RoundAsks cfg s₁ π₁))
    (fun rest (q : Round κ) => ∃ π', Open cfg idle notAccepting s₁ π₁ q π' ∧
      Trail cfg notAccepting s₁ π₁ rest q π' ∧ rest.Nodup ∧
      (∀ e ∈ rest, e ∈ idle ++ notAccepting) ∧
      ∀ e ∈ idle ++ notAccepting, e ∈ rest ∨ Covers q π' e) ?_
    order p ⟨π, h, ht.of_subset hperm.subset, hperm.nodup_iff.mpr hnodup,
      fun e he => hperm.subset he, fun e he => Or.inl (hperm.symm.subset he)⟩).imp ?_
  · rintro q e rest ⟨π', hq, htq, hnodup', hsub, hdone⟩
    have he : e ∈ idle ++ notAccepting := hsub e List.mem_cons_self
    obtain ⟨hnot, hrest⟩ := List.nodup_cons.mp hnodup'
    refine (ensures_reconsiderExecutor hq htq hnot he (hfound e he) hdisj).imp fun q' hq' => ?_
    obtain ⟨π'', hopen, htrail, hnew, hkeep⟩ := hq'
    refine ⟨π'', hopen, htrail, hrest, fun e' he' => hsub e' (List.mem_cons_of_mem e he'), ?_⟩
    intro e' he'
    rcases hdone e' he' with hmem | hcov
    · rcases List.mem_cons.mp hmem with rfl | hmem
      · exact Or.inr hnew
      · exact Or.inl hmem
    · exact Or.inr (hkeep e' hcov)
  · rintro q ⟨π', hq, htq, -, -, hdone⟩
    refine ⟨π', hq, htq, ?_⟩
    intro e he
    rcases hdone e he with hmem | hcov
    · cases hmem
    · exact hcov

end

/-! ## Stage 2 -/

theorem mem_unscheduledRequests_iff {s : Scheduler κ} (h : Refines s π) :
    r ∈ unscheduledRequests s ↔ π r = some .unscheduled := by
  unfold unscheduledRequests
  rw [List.mem_map]
  constructor
  · rintro ⟨⟨r', rs⟩, hmem, rfl⟩
    obtain ⟨hmem, hun⟩ := List.mem_filter.mp hmem
    obtain ⟨l, hl, hrep⟩ := h.location (Dict.get?_of_mem_entries hmem)
    rw [hl, hrep.isUnscheduled_iff.mp hun]
  · intro hr
    obtain ⟨rs, hrs, hrep⟩ := h.represents hr
    exact ⟨(r, rs), List.mem_filter.mpr
      ⟨(Dict.mem_entries_iff _ _ _).mpr hrs, hrep.isUnscheduled_iff.mpr rfl⟩, rfl⟩

theorem nodup_unscheduledRequests (s : Scheduler κ) : (unscheduledRequests s).Nodup :=
  (List.filter_sublist.map Prod.fst).nodup s.requestStates.nodup

theorem ensures_placeUnscheduled (order : List ReqId) (hnodup : order.Nodup)
    (h : Open cfg idle notAccepting s₁ π₁ p π) (ht : Trail cfg notAccepting s₁ π₁ [] p π)
    (horder : ∀ r ∈ order, π r = some .unscheduled) :
    (placeUnscheduled cfg idle order p).Ensures (Unprofiled cfg (RoundAsks cfg s₁ π₁))
      fun p' => ∃ π',
      Open cfg idle notAccepting s₁ π₁ p' π' ∧ Trail cfg notAccepting s₁ π₁ [] p' π' ∧
      ∀ e, Covers p π e → Covers p' π' e := by
  induction order generalizing p π with
  | nil => exact ⟨π, h, ht, fun _ hc => hc⟩
  | cons r order ih =>
      obtain ⟨hnot, hnodup⟩ := List.nodup_cons.mp hnodup
      have hr : π r = some .unscheduled := horder r List.mem_cons_self
      unfold placeUnscheduled
      rw [ensures_bind]
      refine (h.ensures_findBestExecutor hr none ?_).mono
        (h.roundAsks hr ht.moves fun e he => by cases he) fun b hb => ?_
      · intro e he
        cases he
      obtain ⟨best, sorted⟩ := b
      have hq := h.of_perm hb.2
      cases best with
      | none => exact ⟨π, hq, ht.of_perm hb.2, fun _ hc => hc⟩
      | some b =>
          obtain ⟨hmem, hroom⟩ := hb.1 b rfl
          have hfresh : π₁ r ≠ some (.running b) := by
            intro hb'
            exact h.accepting b hmem (ht.away r hr b hb')
          change (place cfg idle _ b r >>= fun p => placeUnscheduled cfg idle order p).Ensures _ _
          refine (hq.ensures_place hr (hb.2.symm.subset hmem) hroom hfresh).bind fun p' hp' => ?_
          obtain ⟨l, hopen, hmove, hsched, hexec, hout, hself⟩ := hp'
          have htrail : Trail cfg notAccepting s₁ π₁ [] p' (Function.update π r (some l)) := by
            apply (ht.of_perm hb.2).move (.single hmove) hsched
            · intro e _
              exact List.not_mem_nil
            · rintro rfl
              cases hexec
          refine (ih hnodup hopen htrail ?_).imp fun p'' hp'' => ?_
          · intro r' hr'
            have hne : r' ≠ r := by
              rintro rfl
              exact hnot hr'
            rw [Function.update_of_ne hne]
            exact horder r' (List.mem_cons_of_mem r hr')
          · obtain ⟨π'', hopen'', htrail'', hcov⟩ := hp''
            refine ⟨π'', hopen'', htrail'', ?_⟩
            intro e hc
            apply hcov e
            intro r' hr'
            by_cases hne : r' = r
            · rw [hne, Function.update_self, Option.some.injEq] at hr'
              rw [hne]
              exact hself e hr'
            · rw [Function.update_of_ne hne] at hr'
              exact hout r' (hc r' hr')

theorem ensures_stage2 (h : Open cfg idle notAccepting s₁ π₁ p π)
    (ht : Trail cfg notAccepting s₁ π₁ [] p π) :
    (p.stage2 cfg idle).Ensures (Unprofiled cfg (RoundAsks cfg s₁ π₁)) fun p' => ∃ π',
      Open cfg idle notAccepting s₁ π₁ p' π' ∧ Trail cfg notAccepting s₁ π₁ [] p' π' ∧
      ∀ e, Covers p π e → Covers p' π' e := by
  unfold stage2
  rw [ensures_bind]
  have hkeys : ∀ r ∈ unscheduledRequests p.scheduler, (do
      let req ← subscript p.scheduler.requests .requests r
      pure req.arrivalTime : Except PyError ℚ).Ensures (Unprofiled cfg (RoundAsks cfg s₁ π₁))
        fun _ => True := by
    intro r hr
    obtain ⟨req, hreq, -⟩ :=
      h.inRound.refines.request ((mem_unscheduledRequests_iff h.inRound.refines).mp hr)
    rw [ensures_bind, subscript_of_get? _ hreq, ensures_ok]
    trivial
  refine (ensures_sortedByKey _ hkeys).imp fun order hperm => ?_
  apply ensures_placeUnscheduled order (hperm.symm.nodup (nodup_unscheduledRequests _)) h ht
  intro r hr
  exact (mem_unscheduledRequests_iff h.inRound.refines).mp (hperm.subset hr)

end Round

end TeDiServe

import TeDiServe.Placement.Moves

/-!
# The invariant of a scheduling round

`InRound` relates the placement in the middle of a round to the placement `π₁` of
the state `s₁` at its start. Each stage is a loop of moves, and every move is an
instance of `InRound.move`: a request leaves only an executor that was found idle,
and only when it may migrate; it arrives only at one of these executors; and it is
noted when its executor changes. Stage 0 commits what was planned while the executors
were busy.
-/

namespace TeDiServe

open Scheduler

namespace Round

variable {κ : Type} {cfg : Config κ} {found idle notAccepting : List ExecutorId}
  {s₁ s' : Scheduler κ} {π₁ π : Placement} {p : Round κ} {r : ReqId} {e : ExecutorId}
  {E : PyError → Prop}

structure InRound (cfg : Config κ) (found : List ExecutorId) (s₁ : Scheduler κ)
    (π₁ : Placement) (p : Round κ) (π : Placement) : Prop where
  refines : Refines p.scheduler π
  moved : Moved s₁ p.scheduler
  busy : ∀ r e, e ∉ found → (π r = some (.running e) ↔ π₁ r = some (.running e))
  noted : ∀ r ∈ p.requestsInSchedulerOutput, r ∈ s₁.requestStates ∧
    ∀ e, π r = some (.running e) → e ∈ found
  unnoted : ∀ r, r ∉ p.requestsInSchedulerOutput → π.resident? r = π₁.resident? r
  pinned : ∀ r req e, s₁.requests.get? r = some req → canMigrate cfg req = false →
    π₁ r = some (.running e) → π r = some (.running e)

def Covers (p : Round κ) (π : Placement) (e : ExecutorId) : Prop :=
  ∀ r, π r = some (.running e) → r ∈ p.requestsInSchedulerOutput

def NoPending (π : Placement) (e : ExecutorId) : Prop :=
  ∀ r, π r ≠ some (.pending e)

namespace InRound

variable (h : InRound cfg found s₁ π₁ p π)
include h

theorem of_schedulable (l : List ExecutorId) :
    InRound cfg found s₁ π₁ { p with schedulableExecutors := l } π :=
  ⟨h.refines, h.moved, h.busy, h.noted, h.unnoted, h.pinned⟩

theorem note {l : Loc} (hr : π r = some l) (hl : ∀ e, l = .running e → e ∈ found) :
    InRound cfg found s₁ π₁ (p.note r) π := by
  refine ⟨h.refines, h.moved, h.busy, ?_, ?_, h.pinned⟩
  · intro r' hr'
    rcases (OrderedSet.mem_add _ _ _).mp hr' with rfl | hr'
    · refine ⟨h.moved.mem_requestStates.mp (h.refines.mem_requestStates_iff.mpr ⟨l, hr⟩), ?_⟩
      intro e he
      rw [hr, Option.some.injEq] at he
      exact hl e he
    · exact h.noted r' hr'
  · intro r' hr'
    apply h.unnoted r'
    intro hmem
    exact hr' ((OrderedSet.mem_add _ _ _).mpr (Or.inr hmem))

theorem move {l l' : Loc} (hr : π r = some l) (href : Refines s' (Function.update π r (some l')))
    (hmoved : Moved p.scheduler s') (hleave : ∀ e, l = .running e → e ∈ found)
    (hfree : ∀ e, l = .running e → ∀ req, s₁.requests.get? r = some req → canMigrate cfg req = true)
    (harrive : ∀ e, l' = .running e → e ∈ found)
    (hnote : r ∈ p.requestsInSchedulerOutput ∨ l'.resident? = l.resident?) :
    InRound cfg found s₁ π₁ { p with scheduler := s' } (Function.update π r (some l')) := by
  refine ⟨href, h.moved.trans hmoved, ?_, ?_, ?_, ?_⟩
  · intro r' e he
    rw [← h.busy r' e he]
    by_cases hr' : r' = r
    · rw [hr', Function.update_self, hr, Option.some.injEq, Option.some.injEq]
      constructor
      · intro hl'
        exact absurd (harrive e hl') he
      · intro hl
        exact absurd (hleave e hl) he
    · rw [Function.update_of_ne hr']
  · intro r' hr'
    have hold := h.noted r' hr'
    refine ⟨hold.1, ?_⟩
    intro e he
    by_cases hr'' : r' = r
    · rw [hr'', Function.update_self, Option.some.injEq] at he
      exact harrive e he
    · rw [Function.update_of_ne hr''] at he
      exact hold.2 e he
  · intro r' hr'
    rw [← h.unnoted r' hr']
    by_cases hr'' : r' = r
    · subst hr''
      rcases hnote with hnote | hnote
      · exact absurd hnote hr'
      · simpa [Placement.resident?, hr] using hnote
    · simp [Placement.resident?, hr'']
  · intro r' req e hreq hcan he
    have hold := h.pinned r' req e hreq hcan he
    by_cases hr' : r' = r
    · subst hr'
      rw [hr, Option.some.injEq] at hold
      have := hfree e hold req hreq
      rw [hcan] at this
      cases this
    · rw [Function.update_of_ne hr']
      exact hold

end InRound

/-! ## Placing a request -/

/-- What `place` guarantees: the request was unscheduled and is now on an idle
executor, and noted, or pending on a busy one. -/
theorem ensures_place (h : InRound cfg (idle ++ notAccepting) s₁ π₁ p π)
    (hr : π r = some .unscheduled) (hroom : Room cfg p.scheduler r e)
    (hfresh : π₁ r ≠ some (.running e)) :
    (p.place cfg idle e r).Ensures E fun p' => ∃ l,
      InRound cfg (idle ++ notAccepting) s₁ π₁ p' (Function.update π r (some l)) ∧
      Move cfg π₁ (p.scheduler, π) (p'.scheduler, Function.update π r (some l)) ∧
      (l = .running e ∧ p'.requestsInSchedulerOutput = p.requestsInSchedulerOutput.add r ∨
        l = .pending e ∧ e ∉ idle ∧
          p'.requestsInSchedulerOutput = p.requestsInSchedulerOutput) ∧
      p'.schedulableExecutors = p.schedulableExecutors := by
  have he : e ∈ p.scheduler.executorStates := by
    obtain ⟨es, hes, -⟩ := hroom
    exact Dict.mem_of_get? hes
  have hhere : ∀ l : Loc, l.executor? = some e → ∀ e', l.executor? = some e' →
      Loc.unscheduled.executor? = some e' ∨ Room cfg p.scheduler r e' := by
    intro l hl e' he'
    rw [hl, Option.some.injEq] at he'
    exact Or.inr (he' ▸ hroom)
  unfold place
  by_cases hidle : e ∈ idle
  · rw [if_pos hidle, ensures_bind]
    refine (ensures_placeNow cfg h.refines hr he).mono (fun _ hf => hf.elim) fun s' hs' => ?_
    rw [ensures_pure]
    have hnoted : InRound cfg (idle ++ notAccepting) s₁ π₁ (p.note r) π := by
      apply h.note hr
      intro e' he'
      cases he'
    have hmove : Move cfg π₁ (p.scheduler, π) (s', Function.update π r (some (.running e))) := by
      refine .mk hr h.refines hs'.1 hs'.2.1 hs'.2.2.2 (hhere _ rfl) ?_
      intro e' he'
      cases he'
      exact hfresh
    refine ⟨.running e, ?_, hmove, Or.inl ⟨rfl, rfl⟩, rfl⟩
    apply hnoted.move hr hs'.1 hs'.2.1
    · intro e' he'
      cases he'
    · intro e' he'
      cases he'
    · intro e' he'
      cases he'
      exact List.mem_append_left _ hidle
    · exact Or.inl ((OrderedSet.mem_add _ _ _).mpr (Or.inl rfl))
  · rw [if_neg hidle, ensures_bind]
    refine (ensures_placeLater cfg h.refines hr he).mono (fun _ hf => hf.elim) fun s' hs' => ?_
    rw [ensures_pure]
    have hmove : Move cfg π₁ (p.scheduler, π) (s', Function.update π r (some (.pending e))) := by
      refine .mk hr h.refines hs'.1 hs'.2.1 hs'.2.2.2 (hhere _ rfl) ?_
      intro e' he'
      cases he'
    refine ⟨.pending e, ?_, hmove, Or.inr ⟨rfl, hidle, rfl⟩, rfl⟩
    apply h.move hr hs'.1 hs'.2.1
    · intro e' he'
      cases he'
    · intro e' he'
      cases he'
    · intro e' he'
      cases he'
    · exact Or.inr rfl

/-! ## Stage 0 -/

structure Settling (cfg : Config κ) (s₁ : Scheduler κ) (π₁ : Placement) (s : Scheduler κ)
    (π : Placement) : Prop where
  moves : Moves cfg π₁ (s₁, π₁) (s, π)
  host : ∀ r, π.host? r = π₁.host? r
  pending : ∀ r e, π r = some (.pending e) → π₁ r = some (.pending e)

theorem Settling.commit {s : Scheduler κ} (h : Settling cfg s₁ π₁ s π)
    (hr : π r = some (.pending e))
    (hmove : Move cfg π₁ (s, π) (s', Function.update π r (some (.running e)))) :
    Settling cfg s₁ π₁ s' (Function.update π r (some (.running e))) := by
  refine ⟨h.moves.tail hmove, ?_, ?_⟩
  · intro r'
    rw [← h.host r']
    by_cases hrr : r' = r
    · rw [hrr, Placement.host?_update_self, Placement.host?_of_pending hr]
      rfl
    · rw [Placement.host?_update_of_ne π hrr]
  · intro r' e' hr'
    by_cases hrr : r' = r
    · rw [hrr, Function.update_self] at hr'
      cases hr'
    · rw [Function.update_of_ne hrr] at hr'
      exact h.pending r' e' hr'

variable (h : InRound cfg found s₁ π₁ p π)
include h

/-- There never is a pending removal. -/
theorem ensures_commitRemovals (he : e ∈ s₁.executorStates) :
    (p.commitRemovals e).Ensures E fun p' => p' = p := by
  obtain ⟨es, hes⟩ := (Dict.mem_iff_exists _ _).mp (h.moved.mem_executorStates.mpr he)
  unfold commitRemovals
  rw [ensures_bind, subscript_of_get? _ hes, ensures_ok,
    OrderedSet.items_eq_nil (h.refines.executors e es hes).noRemoval]
  exact rfl

variable (hset : Settling cfg s₁ π₁ p.scheduler π)
include hset

theorem ensures_commitAddition (he : e ∈ found) (hr : π r = some (.pending e)) :
    (commitAddition e p r).Ensures E fun p' =>
      InRound cfg found s₁ π₁ p' (Function.update π r (some (.running e))) ∧
      Settling cfg s₁ π₁ p'.scheduler (Function.update π r (some (.running e))) ∧
      p'.requestsInSchedulerOutput = p.requestsInSchedulerOutput.add r ∧
      p'.schedulableExecutors = p.schedulableExecutors := by
  obtain ⟨rs, hrs, hrep⟩ := h.refines.represents hr
  obtain ⟨es, hes, hmir⟩ := h.refines.executor (Placement.host?_of_pending hr)
  have hmemE : e ∈ p.scheduler.executorStates := Dict.mem_of_get? hes
  unfold commitAddition
  rw [ensures_bind, subscript_of_get? _ hrs, ensures_ok, ensures_bind,
    ensures_pyAssert]
  refine ⟨fun _ => ?_, fun hf => by simp [hrep.isScheduled] at hf⟩
  rw [if_pos hrep.isScheduled, ensures_bind, ensures_modifyExecutorState hes]
  refine (hmir.ensures_commitPendingRequestAddition hr).mono (fun _ hf => hf.elim)
    fun es' hes' => ?_
  rw [ensures_bind, ensures_modifyRequestState (by exact hrs : _ = some rs),
    ensures_pure]
  have hnoted : InRound cfg found s₁ π₁ (p.note r) π := by
    apply h.note hr
    intro e' he'
    cases he'
  have href : Refines
      { p.scheduler with
        executorStates := p.scheduler.executorStates.set e es'
        requestStates := p.scheduler.requestStates.set r rs.commitPendingExecutor }
      (Function.update π r (some (.running e))) := by
    apply h.refines.move (e := e) es' rs.commitPendingExecutor hr
    · simp [Loc.executor?]
    · simp [Loc.executor?]
    · exact hmemE
    · intro e'
      simp
    · intro r'
      simp
    · rfl
    · exact hes'
    · exact hrep.commit
  have hmoved := Moved.of_records (x := es') (y := rs.commitPendingExecutor) hmemE rfl hrs
    (Dict.keys_set_of_mem _ _ _ (Dict.mem_of_get? hrs)) (Dict.get?_set _ _ _) rfl
  have honly := OnlyAt.of_records (s := p.scheduler) (e := e) (x := es') rfl
    (Dict.get?_set p.scheduler.requestStates r rs.commitPendingExecutor)
  refine ⟨?_, hset.commit hr (.mk hr h.refines href hmoved honly.2 ?_ ?_), rfl, rfl⟩
  · apply hnoted.move hr href hmoved
    · intro e' he'
      cases he'
    · intro e' he'
      cases he'
    · intro e' he'
      cases he'
      exact he
    · exact Or.inl ((OrderedSet.mem_add _ _ _).mpr (Or.inl rfl))
  · intro e' he'
    exact Or.inl he'
  · intro e' he'
    cases he'
    rw [hset.pending r e hr]
    simp

/-- Afterwards nothing is pending on the executor, and nothing new on others. -/
theorem ensures_commitAdditions (he : e ∈ found) (hmem : e ∈ s₁.executorStates) :
    (p.commitAdditions e).Ensures E fun p' => ∃ π',
      InRound cfg found s₁ π₁ p' π' ∧ Settling cfg s₁ π₁ p'.scheduler π' ∧ NoPending π' e ∧
      (∀ e', NoPending π e' → NoPending π' e') ∧
      p'.schedulableExecutors = p.schedulableExecutors := by
  obtain ⟨es, hes⟩ := (Dict.mem_iff_exists _ _).mp (h.moved.mem_executorStates.mpr hmem)
  have hmir := h.refines.executors e es hes
  unfold commitAdditions
  rw [ensures_bind, subscript_of_get? _ hes, ensures_ok]
  -- the invariant: the requests still to visit are the ones still pending on `e`
  refine (ensures_foldlM_rest (E := E)
    (fun rest (q : Round κ) => ∃ π', InRound cfg found s₁ π₁ q π' ∧
      Settling cfg s₁ π₁ q.scheduler π' ∧ rest.Nodup ∧
      (∀ r, r ∈ rest ↔ π' r = some (.pending e)) ∧
      (∀ e', NoPending π e' → NoPending π' e') ∧
      q.schedulableExecutors = p.schedulableExecutors) ?_
    es.pendingRequestAdditions.items p
    ⟨π, h, hset, es.pendingRequestAdditions.nodup, hmir.pending, fun _ hn => hn, rfl⟩).imp ?_
  · rintro q r rest ⟨π', hq, hqset, hnodup, hrest, hkeep, hsched⟩
    have hr : π' r = some (.pending e) := (hrest r).mp List.mem_cons_self
    refine (ensures_commitAddition hq hqset he hr).imp fun q' hq' => ?_
    obtain ⟨hin, hset', -, hsame⟩ := hq'
    refine ⟨_, hin, hset', (List.nodup_cons.mp hnodup).2, ?_, ?_, hsame.trans hsched⟩
    · intro r'
      by_cases hr' : r' = r
      · subst hr'
        simp [(List.nodup_cons.mp hnodup).1]
      · rw [Function.update_of_ne hr', ← hrest r', List.mem_cons]
        simp [hr']
    · intro e' hn r'
      by_cases hr' : r' = r
      · simp [hr']
      · rw [Function.update_of_ne hr']
        exact hkeep e' hn r'
  · rintro q ⟨π', hq, hqset, -, hrest, hkeep, hsched⟩
    refine ⟨π', hq, hqset, ?_, hkeep, hsched⟩
    intro r hr
    exact absurd ((hrest r).mpr hr) (by simp)

theorem ensures_stage0 (hfound : ∀ e ∈ found, e ∈ s₁.executorStates) :
    (p.stage0 found).Ensures E fun p' => ∃ π',
      InRound cfg found s₁ π₁ p' π' ∧ Settling cfg s₁ π₁ p'.scheduler π' ∧
      (∀ e ∈ found, NoPending π' e) ∧ p'.schedulableExecutors = p.schedulableExecutors := by
  unfold stage0
  refine (ensures_foldlM (E := E) (I := fun q => q = p) found ?_ p rfl).bind ?_
  · rintro q e he rfl
    exact ensures_commitRemovals h (hfound e he)
  rintro q rfl
  refine (ensures_foldlM_rest (E := E)
    (fun rest (q' : Round κ) => ∃ π', InRound cfg found s₁ π₁ q' π' ∧
      Settling cfg s₁ π₁ q'.scheduler π' ∧ (∀ e ∈ rest, e ∈ found) ∧
      (∀ e ∈ found, e ∈ rest ∨ NoPending π' e) ∧
      q'.schedulableExecutors = q.schedulableExecutors) ?_
    found q ⟨π, h, hset, fun _ he => he, fun _ he => Or.inl he, rfl⟩).bind ?_
  · rintro q' e rest ⟨π', hq, hqset, hsub, hdone, hsched⟩
    have he : e ∈ found := hsub e List.mem_cons_self
    refine (ensures_commitAdditions hq hqset he (hfound e he)).imp fun q'' hq'' => ?_
    obtain ⟨π'', hin, hset', hnew, hkeep, hsame⟩ := hq''
    refine ⟨π'', hin, hset', fun e' he' => hsub e' (List.mem_cons_of_mem e he'), ?_,
      hsame.trans hsched⟩
    intro e' he'
    rcases hdone e' he' with hmem | hn
    · rcases List.mem_cons.mp hmem with rfl | hmem
      · exact Or.inr hnew
      · exact Or.inl hmem
    · exact Or.inr (hkeep e' hn)
  · rintro q' ⟨π', hq, hqset, -, hdone, hsched⟩
    have hclean : ∀ e ∈ found, NoPending π' e := by
      intro e he
      rcases hdone e he with hmem | hn
      · cases hmem
      · exact hn
    rw [ensures_bind]
    -- the closing assertion holds since nothing is pending any more
    have hall : ∀ e ∈ found, (do
        let es ← subscript q'.scheduler.executorStates .executorStates e
        pure es.hasNoPendingChanges : Except PyError Bool).Ensures E
          fun b => b = true := by
      intro e he
      obtain ⟨es, hes⟩ := (Dict.mem_iff_exists _ _).mp
        (hq.moved.mem_executorStates.mpr (hfound e he))
      have hmir := hq.refines.executors e es hes
      rw [ensures_bind, subscript_of_get? _ hes, ensures_ok, ensures_pure]
      have hadd : es.pendingRequestAdditions.isEmpty = true := by
        rw [OrderedSet.isEmpty_iff]
        intro r hr
        exact hclean e he r ((hmir.pending r).mp hr)
      have hrem : es.pendingRequestRemovals.isEmpty = true :=
        (OrderedSet.isEmpty_iff _).mpr hmir.noRemoval
      simp [ExecutorState.hasNoPendingChanges, hadd, hrem]
    refine (ensures_mapM_mem found hall).imp fun bs hbs => ?_
    have htrue : bs.all id = true := List.all_eq_true.mpr hbs
    rw [ensures_bind, ensures_pyAssert]
    refine ⟨fun _ => ?_, fun hf => by simp [htrue] at hf⟩
    rw [ensures_pure]
    exact ⟨π', hq, hqset, hclean, hsched⟩

end Round

end TeDiServe

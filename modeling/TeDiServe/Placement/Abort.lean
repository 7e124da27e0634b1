import TeDiServe.Placement.Output

/-!
# Aborting requests

`finishRequests` has to cope with ids in every state. It does for ids that are
unknown, deferred or running. For a request that is admitted and not running the
assertion of `freeRequest` fails, and a single id cannot be looked up among the
deferred requests when there are any. `Abortable` is the condition under which the
call succeeds, and `Aborted` what it then guarantees.
-/

namespace TeDiServe

namespace Scheduler

variable {κ : Type} {cfg : Config κ} {s s' : Scheduler κ} {π π' : Placement} {r : ReqId}
  {e : ExecutorId} {arg : RequestIds}

/-- The argument can be aborted: it is a collection, or nothing is deferred, and
every admitted request that it names is running. -/
def Abortable (s : Scheduler κ) (π : Placement) (arg : RequestIds) : Prop :=
  ((∃ rs, arg = .many rs) ∨ s.deferredRequests = []) ∧
    ∀ r ∈ arg.ids, ∀ l, π r = some l → ∃ e, l = .running e

structure Aborted (cfg : Config κ) (s : Scheduler κ) (π : Placement) (ids : List ReqId)
    (s' : Scheduler κ) (π' : Placement) : Prop where
  refines : Refines s' π'
  ledger : Ledger cfg s'
  manager : s'.executorsManager = s.executorsManager
  executorKeys : s'.executorStates.keys = s.executorStates.keys
  gone : ∀ r ∈ ids, r ∉ s'.requests
  kept : ∀ r ∉ ids, ∀ l, π r = some l → π' r = some l
  admitted : ∀ r, π r = none → π' r = none ∨
    r ∈ s.deferredRequestStates ∧ π' r = some .unscheduled
  requests : ∀ r req, s'.requests.get? r = some req → s.requests.get? r = some req
  free : ∀ e r, r ∈ s'.freeReqIds.getD e OrderedSet.empty ↔
    r ∈ s.freeReqIds.getD e OrderedSet.empty ∨ r ∈ ids ∧ π r = some (.running e)
  quiet : s.deferredRequests = [] → s'.deferredRequests = [] ∧
    s'.droppedDeferredRequests = s.droppedDeferredRequests
  shed : Shed s s'
  limit : Within cfg s → Within cfg s'
  advanced : Advanced s s'
  full : s'.deferredRequests ≠ [] → s'.atLimit cfg = true
  blocks : Freed cfg s s' fun e r => r ∈ ids ∧ π r = some (.running e)

theorem Aborted.running_iff {ids : List ReqId} (h : Aborted cfg s π ids s' π') :
    π' r = some (.running e) ↔ π r = some (.running e) ∧ r ∉ ids := by
  constructor
  · intro hr
    have hnot : r ∉ ids := by
      intro hmem
      obtain ⟨req, hreq, -⟩ := h.refines.request hr
      exact h.gone r hmem (Dict.mem_of_get? hreq)
    refine ⟨?_, hnot⟩
    cases hloc : π r with
    | none =>
        rcases h.admitted r hloc with hnone | ⟨-, hnew⟩
        · rw [hnone] at hr
          cases hr
        · rw [hnew] at hr
          cases hr
    | some l => rw [← h.kept r hnot l hloc, hr]
  · rintro ⟨hr, hnot⟩
    exact h.kept r hnot _ hr

theorem Aborted.none_of_mem {ids : List ReqId} (h : Aborted cfg s π ids s' π') (hr : r ∈ ids) :
    π' r = none := by
  rw [Option.eq_none_iff_forall_ne_some]
  intro l hl
  have hrec := h.refines.mem_requestStates_iff.mpr ⟨l, hl⟩
  exact h.gone r hr ((h.ledger.known r).mpr (Or.inl hrec))

theorem RequestIds.nodup_ids (arg : RequestIds) : arg.ids.Nodup := by
  cases arg with
  | single r => exact List.nodup_singleton r
  | many rs => exact (OrderedSet.ofList rs).nodup

/-! ## The deferred part -/

/-- In a consistent state the deferred ids are those with a deferred record. -/
theorem mem_getDeferredRequestIds (hl : Ledger cfg s) (ids : List ReqId) (r : ReqId) :
    r ∈ s.getDeferredRequestIds ids ↔ r ∈ ids ∧ r ∈ s.deferredRequestStates := by
  unfold getDeferredRequestIds
  rw [List.mem_filter]
  apply and_congr_right
  intro _
  have hapart := hl.apart r
  have hqueue := hl.queue r
  simp only [Bool.or_eq_true, Bool.and_eq_true, decide_eq_true_eq]
  constructor
  · rintro (⟨hr, -⟩ | hr)
    · exact hr
    · exact hqueue.mpr hr
  · intro hr
    exact Or.inl ⟨hr, fun hmem => hapart hmem hr⟩

/-- Taking the deferred ids out of the argument: what is left names no deferred
request. -/
theorem ensures_dropDeferred (hl : Ledger cfg s) (arg : RequestIds) :
    (s.dropDeferred cfg arg).Ensures
      (fun _ => ¬((∃ rs, arg = .many rs) ∨ s.deferredRequests = [])) fun x =>
      ((∃ rs, arg = .many rs) ∨ s.deferredRequests = []) ∧ Withdrawn arg.ids s x.1 ∧
      x.2.Nodup ∧ ∀ r, r ∈ x.2 ↔ r ∈ arg.ids ∧ r ∉ s.deferredRequestStates := by
  have hsame : ∀ ids, (∀ r, r ∈ s.deferredRequestStates → (r ∈ ids ↔ r ∈ arg.ids)) →
      ∀ s', Withdrawn ids s s' → Withdrawn arg.ids s s' := by
    intro ids hids s' hw
    have hiff : ∀ r, (r ∈ s.deferredRequestStates ∧ r ∈ ids) ↔
        (r ∈ s.deferredRequestStates ∧ r ∈ arg.ids) := by
      intro r
      apply and_congr_right
      exact hids r
    have hreq : ∀ req ∈ s.deferredRequests, (req.requestId ∈ ids ↔ req.requestId ∈ arg.ids) := by
      intro req hreq
      exact hids _ ((hl.queue _).mpr (List.mem_map_of_mem hreq))
    refine ⟨hw.enrolled, hw.states, ?_, ?_, ?_, ?_, ?_⟩
    · intro r
      rw [hw.requests]
      exact if_congr (hiff r) rfl rfl
    · intro r
      rw [hw.deferredStates]
      exact if_congr (hiff r) rfl rfl
    · rw [hw.queue]
      apply List.filter_congr
      intro req hmem
      rw [decide_eq_decide]
      exact not_congr (hreq req hmem)
    · rw [hw.dropped]
      congr 1
      apply List.filter_congr
      intro req hmem
      rw [decide_eq_decide]
      exact hreq req hmem
    · intro r
      rw [hw.estimates, hiff]
  unfold dropDeferred
  cases arg with
  | single r =>
      dsimp only
      by_cases hq : s.deferredRequests = []
      · have hnone : ∀ r, r ∉ s.deferredRequestStates := by
          intro r hr
          have := (hl.queue r).mp hr
          rw [hq] at this
          cases this
        have hdef : s.getDeferredRequestIds [r] = [] := by
          rw [List.eq_nil_iff_forall_not_mem]
          intro r' hr'
          exact hnone r' ((mem_getDeferredRequestIds hl _ _).mp hr').2
        rw [if_neg (by simp [hq]), if_neg (by simp [hdef]), ensures_pure]
        refine ⟨Or.inr hq, hsame [] ?_ s (withdrawn_nil s), List.nodup_singleton r, ?_⟩
        · intro r' hr'
          exact absurd hr' (hnone r')
        · intro r'
          simp [RequestIds.ids, hnone]
      · rw [if_pos hq, ensures_throw]
        simp [hq]
  | many rs =>
      dsimp only
      by_cases hdef : s.getDeferredRequestIds (RequestIds.many rs).ids = []
      · have hnone : ∀ r ∈ (RequestIds.many rs).ids, r ∉ s.deferredRequestStates := by
          intro r hr hmem
          have := (mem_getDeferredRequestIds hl _ _).mpr ⟨hr, hmem⟩
          rw [hdef] at this
          cases this
        rw [if_pos hdef, ensures_pure]
        refine ⟨Or.inl ⟨rs, rfl⟩, hsame [] ?_ s (withdrawn_nil s),
          RequestIds.nodup_ids (.many rs), ?_⟩
        · intro r hr
          constructor
          · intro hmem
            cases hmem
          · intro hmem
            exact absurd hr (hnone r hmem)
        · intro r
          exact (and_iff_left_of_imp fun hr => hnone r hr).symm
      · rw [if_neg hdef, ensures_pure]
        refine ⟨Or.inl ⟨rs, rfl⟩, hsame _ ?_ _
          (withdrawn_dropDeferredRequests hl _ true (by simp)),
          (RequestIds.nodup_ids _).filter _, ?_⟩
        · intro r hr
          rw [mem_getDeferredRequestIds hl]
          exact and_iff_left hr
        · intro r
          rw [List.mem_filter, decide_eq_true_eq, mem_getDeferredRequestIds hl]
          tauto

/-! ## The running part -/

theorem ensures_finishLoop (status : RequestStatus) (valid : List ReqId) (hnodup : valid.Nodup)
    (h : Refines s π) (hl : Ledger cfg s) (hvalid : ∀ r ∈ valid, r ∈ s.requests) :
    (valid.foldlM (finishRequest cfg status) s).Ensures
      (fun _ => ∃ r ∈ valid, ∀ e, π r ≠ some (.running e)) fun s' => ∃ done π',
      (∀ r, r ∈ done ↔ r ∈ valid) ∧ (∀ r ∈ valid, ∃ e, π r = some (.running e)) ∧
      (∀ r ∈ valid, π' r = none ∧ r ∉ s'.requests) ∧ Applied cfg s π done s' π' := by
  -- those already visited were running, and are gone
  refine (ensures_foldlM_rest
    (E := fun _ => ∃ r ∈ valid, ∀ e, π r ≠ some (.running e))
    (fun rest (s' : Scheduler κ) => ∃ done π', rest.Nodup ∧ (∀ r ∈ rest, r ∉ done) ∧
      (∀ r, r ∈ done ∨ r ∈ rest ↔ r ∈ valid) ∧
      (∀ r ∈ done, ∃ e, π r = some (.running e)) ∧
      (∀ r ∈ done, π' r = none ∧ r ∉ s'.requests) ∧ Applied cfg s π done s' π') ?_ valid s
    ⟨[], π, hnodup, fun _ _ => List.not_mem_nil, fun r => by simp, by simp, by simp,
      Applied.start h hl⟩).imp ?_
  · rintro s' r rest ⟨done, π', hnd, hnot, hall, hran, hgone, happ⟩
    obtain ⟨hfresh, hnd⟩ := List.nodup_cons.mp hnd
    have hr : r ∈ valid := (hall r).mp (Or.inr List.mem_cons_self)
    have hrdone : r ∉ done := hnot r List.mem_cons_self
    have hmem : r ∈ s'.requests := by
      by_contra hlost
      exact hrdone (happ.lost r (hvalid r hr) hlost).1
    have hsame : π' r = π r := by
      rcases happ.placement r with hp | ⟨hp, -⟩
      · exact hp
      · exact absurd hp hrdone
    obtain ⟨req, hreq⟩ := (Dict.mem_iff_exists _ _).mp hmem
    unfold finishRequest
    rw [ensures_bind, ensures_modifyRequest hreq]
    have hset := happ.refines.setRequest hreq
      (rfl : ({ req with status } : Request).requestId = req.requestId) rfl
    apply (ensures_freeRequest_any cfg hset happ.ledger.caches r).mono
    · intro _ hno
      refine ⟨r, hr, ?_⟩
      rw [← hsame]
      exact hno
    · rintro s'' ⟨e, hrun, href, hend⟩
      have happ' := happ.finish hrdone hreq hrun href hend
      refine ⟨r :: done, _, hnd, ?_, ?_, ?_, ?_, happ'⟩
      · intro r' hr' hmem'
        rcases List.mem_cons.mp hmem' with rfl | hmem'
        · exact hfresh hr'
        · exact hnot r' (List.mem_cons_of_mem r hr') hmem'
      · intro r'
        rw [← hall r', List.mem_cons, List.mem_cons]
        tauto
      · exact List.forall_mem_cons.mpr ⟨⟨e, hsame ▸ hrun⟩, hran⟩
      · intro r' hr'
        rw [hend.requests, Dict.mem_erase]
        by_cases hne : r' = r
        · rw [hne, Function.update_self]
          exact ⟨rfl, fun hc => hc.1 rfl⟩
        · have hold := hgone r' ((List.mem_cons.mp hr').resolve_left hne)
          rw [Function.update_of_ne hne]
          refine ⟨hold.1, ?_⟩
          rintro ⟨-, hc⟩
          rcases (Dict.mem_set _ _ _ _).mp hc with hc | hc
          · exact hne hc
          · exact hold.2 hc
  · rintro s' ⟨done, π', -, -, hall, hran, hgone, happ⟩
    simp only [List.not_mem_nil, or_false] at hall
    exact ⟨done, π', hall, fun r hr => hran r ((hall r).mpr hr),
      fun r hr => hgone r ((hall r).mpr hr), happ⟩

/-! ## The call -/

/-- Aborting succeeds exactly for the arguments that can be aborted. -/
theorem ensures_finishRequests {status : RequestStatus} (clock : ReqId → ℚ)
    (h : Refines s π) (hl : Ledger cfg s) (hfin : status.isFinished = true) (arg : RequestIds) :
    (s.finishRequests cfg arg status clock).Ensures (fun _ => ¬Abortable s π arg) fun s' =>
      Abortable s π arg ∧ ∃ π', Aborted cfg s π arg.ids s' π' := by
  unfold finishRequests
  rw [ensures_bind, ensures_pyAssert]
  refine ⟨fun _ => ?_, fun hf => by simp [hfin] at hf⟩
  rw [ensures_bind]
  apply (ensures_dropDeferred hl arg).mono
  · intro _ hno hab
    exact hno hab.1
  rintro ⟨s₁, ids⟩ ⟨harg, hw, hnodup, hids⟩
  dsimp only at hw hnodup hids ⊢
  have h₁ := hw.refines hl h
  have hl₁ := hw.ledger hl
  have hw₂ := withdrawn_dropDeferredRequests hl₁ ids true (by simp)
  have h₂ := hw₂.refines hl₁ h₁
  have hl₂ := hw₂.ledger hl₁
  generalize s₁.dropDeferredRequests cfg ids true = s₂ at hw₂ h₂ hl₂ ⊢
  -- the ids that are left are not deferred, so the second pass drops nothing
  have hreq₂ : ∀ r, s₂.requests.get? r =
      if r ∈ s.deferredRequestStates ∧ r ∈ arg.ids then none else s.requests.get? r := by
    intro r
    have hnot : ¬(r ∈ s₁.deferredRequestStates ∧ r ∈ ids) := by
      rw [hw.mem_deferredRequestStates, hids]
      tauto
    rw [hw₂.requests, if_neg hnot, hw.requests]
  have hmem₂ : ∀ r ∈ ids, (r ∈ s₂.requests ↔ ∃ l, π r = some l) := by
    intro r hr
    have hnot : ¬(r ∈ s.deferredRequestStates ∧ r ∈ arg.ids) := fun hc => ((hids r).mp hr).2 hc.1
    rw [Dict.mem_iff_exists, hreq₂, if_neg hnot, ← Dict.mem_iff_exists, hl.known,
      h.mem_requestStates_iff]
    exact or_iff_left ((hids r).mp hr).2
  have hvalid : ∀ r, r ∈ ids.filter (· ∈ s₂.requests) ↔ r ∈ ids ∧ ∃ l, π r = some l := by
    intro r
    rw [List.mem_filter, decide_eq_true_eq]
    exact and_congr_right (hmem₂ r)
  have hable : Abortable s π arg ↔
      ∀ r ∈ ids.filter (· ∈ s₂.requests), ∃ e, π r = some (.running e) := by
    constructor
    · intro hab r hr
      obtain ⟨hr, l, hl'⟩ := (hvalid r).mp hr
      obtain ⟨e, rfl⟩ := hab.2 r ((hids r).mp hr).1 l hl'
      exact ⟨e, hl'⟩
    · intro hall
      refine ⟨harg, ?_⟩
      intro r hr l hl'
      have hnot : r ∉ s.deferredRequestStates :=
        hl.apart r (h.mem_requestStates_iff.mpr ⟨l, hl'⟩)
      obtain ⟨e, he⟩ := hall r ((hvalid r).mpr ⟨(hids r).mpr ⟨hr, hnot⟩, l, hl'⟩)
      rw [hl', Option.some.injEq] at he
      exact ⟨e, he⟩
  rw [ensures_bind]
  apply (ensures_finishLoop status _ (hnodup.filter _) h₂ hl₂
    fun r hr => of_decide_eq_true (List.mem_filter.mp hr).2).mono
  · rintro _ ⟨r, hr, hno⟩ hab
    obtain ⟨e, he⟩ := hable.mp hab r hr
    exact hno e he
  rintro s₃ ⟨done, π₃, hdone, hran, hgone, happ⟩
  apply (ensures_admitDeferredRequests clock happ.refines happ.ledger).mono
    (fun _ hf => hf.elim)
  rintro s' ⟨π', had⟩
  have hback : ∀ r req, s'.requests.get? r = some req → s₃.requests.get? r = some req := by
    intro r req hreq
    rcases had.requests r with hr | ⟨-, hr⟩
    · rwa [hr] at hreq
    · rw [hr] at hreq
      cases hreq
  have hback₂ : ∀ r req, s'.requests.get? r = some req → s₂.requests.get? r = some req := by
    intro r req hreq
    obtain ⟨req₀, hreq₀, -, hsame⟩ := happ.requests r req (hback r req hreq)
    rw [hsame fun hr => (hgone r ((hdone r).mp hr)).2 (Dict.mem_of_get? (hback r req hreq))]
    exact hreq₀
  have hfirst : ∀ r, r ∈ arg.ids → r ∈ s.deferredRequestStates → r ∉ s'.requests := by
    intro r hr hd hmem
    obtain ⟨req, hreq⟩ := (Dict.mem_iff_exists _ _).mp hmem
    have hin₂ := hback₂ r req hreq
    rw [hreq₂, if_pos ⟨hd, hr⟩] at hin₂
    cases hin₂
  -- the queue is not touched by the second pass
  have hdef₃ : ∀ r, r ∈ s₃.deferredRequestStates ↔
      r ∈ s.deferredRequestStates ∧ r ∉ arg.ids := by
    intro r
    rw [happ.ledger.queue, happ.deferredRequests, ← hl₂.queue, hw₂.mem_deferredRequestStates,
      hw.mem_deferredRequestStates, hids]
    tauto
  have hactive : ∀ r, r ∈ s₃.requestStates → r ∈ s.requestStates := by
    intro r hr
    obtain ⟨l, hl'⟩ := happ.refines.mem_requestStates_iff.mp hr
    rcases happ.placement r with hp | ⟨-, hp, -⟩
    · rw [hp] at hl'
      exact h.mem_requestStates_iff.mpr ⟨l, hl'⟩
    · rw [hp] at hl'
      cases hl'
  have hfreed : ∀ e r, (π r = some (.running e) ∧ π₃ r = none) ↔
      r ∈ arg.ids ∧ π r = some (.running e) := by
    intro e r
    constructor
    · rintro ⟨hrun, hnone⟩
      refine ⟨?_, hrun⟩
      rcases happ.placement r with hp | ⟨hp, -⟩
      · rw [hp, hrun] at hnone
        cases hnone
      · exact ((hids r).mp (List.mem_filter.mp ((hdone r).mp hp)).1).1
    · rintro ⟨hr, hrun⟩
      have hnot : r ∉ s.deferredRequestStates :=
        hl.apart r (h.mem_requestStates_iff.mpr ⟨_, hrun⟩)
      exact ⟨hrun, (hgone r ((hvalid r).mpr ⟨(hids r).mpr ⟨hr, hnot⟩, _, hrun⟩)).1⟩
  refine ⟨hable.mpr hran, π', had.refines, had.ledger, ?_, ?_, ?_, ?_, ?_, ?_, ?_, ?_, ?_, ?_, ?_,
    had.full, ?_⟩
  · rw [had.enrolled.executorsManager, happ.manager, hw₂.enrolled.executorsManager,
      hw.enrolled.executorsManager]
  · rw [had.enrolled.executorStates, happ.executorKeys, hw₂.enrolled.executorStates,
      hw.enrolled.executorStates]
  · intro r hr hmem
    obtain ⟨req, hreq⟩ := (Dict.mem_iff_exists _ _).mp hmem
    have hin₂ := hback₂ r req hreq
    by_cases hd : r ∈ s.deferredRequestStates
    · exact hfirst r hr hd hmem
    · have hv : r ∈ ids.filter (· ∈ s₂.requests) :=
        List.mem_filter.mpr ⟨(hids r).mpr ⟨hr, hd⟩, decide_eq_true (Dict.mem_of_get? hin₂)⟩
      exact (hgone r hv).2 (Dict.mem_of_get? (hback r req hreq))
  · intro r hr l hl'
    have hkeep : π₃ r = π r := by
      rcases happ.placement r with hp | ⟨hp, -⟩
      · exact hp
      · exact absurd ((hids r).mp (List.mem_filter.mp ((hdone r).mp hp)).1).1 hr
    rcases had.extends_ r with hp | ⟨hp, -⟩
    · rw [hp, hkeep, hl']
    · rw [hkeep, hl'] at hp
      cases hp
  · intro r hnone
    have hkeep : π₃ r = none := by
      rcases happ.placement r with hp | ⟨-, hp, -⟩
      · rw [hp, hnone]
      · exact hp
    rcases had.extends_ r with hp | ⟨-, hp⟩
    · exact Or.inl (hp.trans hkeep)
    · refine Or.inr ⟨?_, hp⟩
      obtain ⟨req, hreq, -⟩ := had.refines.request hp
      have hin₂ := hback₂ r req hreq
      have hin : r ∈ s.requests := by
        rw [hreq₂] at hin₂
        split_ifs at hin₂
        exact Dict.mem_of_get? hin₂
      rcases (hl.known r).mp hin with hr | hr
      · obtain ⟨l, hl'⟩ := h.mem_requestStates_iff.mp hr
        rw [hl'] at hnone
        cases hnone
      · exact hr
  · intro r req hreq
    have hin₂ := hback₂ r req hreq
    rw [hreq₂] at hin₂
    split_ifs at hin₂
    exact hin₂
  · intro e r
    rw [had.enrolled.freeReqIds, happ.free, hw₂.enrolled.freeReqIds, hw.enrolled.freeReqIds,
      hfreed]
  · intro hq
    have hq₁ : s₁.deferredRequests = [] := by rw [hw.queue, hq, List.filter_nil]
    have hd₁ : s₁.droppedDeferredRequests = s.droppedDeferredRequests := by
      rw [hw.dropped, hq, List.filter_nil, List.append_nil]
    have hq₃ : s₃.deferredRequests = [] := by
      rw [happ.deferredRequests, hw₂.queue, hq₁, List.filter_nil]
    rw [had.quiet hq₃, happ.droppedDeferredRequests, hw₂.dropped, hq₁, List.filter_nil,
      List.append_nil]
    exact ⟨hq₃, hd₁⟩
  · obtain ⟨xs, hxs, hnodup₁, hmem⟩ := hw.shed hl
    obtain ⟨ys, hys, hnodup₂, hmem'⟩ := had.shed
    have hnone : s₁.deferredRequests.filter (fun req => req.requestId ∈ ids) = [] := by
      rw [List.filter_eq_nil_iff]
      intro req hreq hin
      have hdef := (hw.mem_deferredRequestStates).mp
        ((hl₁.queue _).mpr (List.mem_map_of_mem hreq))
      exact ((hids _).mp (of_decide_eq_true hin)).2 hdef.1
    have hasked : ∀ r, r ∈ xs.map Request.requestId ↔
        r ∈ s.deferredRequestStates ∧ r ∈ arg.ids := by
      intro r
      rw [hmem, hw.mem_requests, hl.known]
      tauto
    refine ⟨xs ++ ys, ?_, ?_, ?_⟩
    · rw [hys, happ.droppedDeferredRequests, hw₂.dropped, hnone, List.append_nil, hxs,
        List.append_assoc]
    · rw [List.map_append]
      refine hnodup₁.append hnodup₂ ?_
      intro r hr hr'
      exact ((hdef₃ r).mp ((hmem' r).mp hr').1).2 ((hasked r).mp hr).2
    · intro r
      rw [List.map_append, List.mem_append, hasked, hmem', hdef₃]
      constructor
      · rintro (⟨hd, hr⟩ | ⟨⟨hd, -⟩, hout⟩)
        · exact ⟨hd, hfirst r hr hd⟩
        · exact ⟨hd, hout⟩
      · rintro ⟨hd, hout⟩
        by_cases hr : r ∈ arg.ids
        · exact Or.inl ⟨hd, hr⟩
        · exact Or.inr ⟨⟨hd, hr⟩, hout⟩
  · exact fun hin => had.limit (hin.of_subset hactive)
  · have happ' : Advanced s₂ s₃ := by
      apply Advanced.of_sublist
      · rw [happ.deferredRequests]
      · intro r hr
        rw [hw₂.states, hw.states]
        exact hactive r hr
    exact hw.advanced.trans (hw₂.advanced.trans (happ'.trans had.advanced))
  · intro e
    obtain ⟨rs, hrs, hblocks⟩ := happ.blocks e
    refine ⟨rs, fun r => (hrs r).trans (hfreed e r), ?_⟩
    rw [had.enrolled.kvCacheManagers, hblocks, hw₂.enrolled.kvCacheManagers,
      hw.enrolled.kvCacheManagers]

end Scheduler

end TeDiServe

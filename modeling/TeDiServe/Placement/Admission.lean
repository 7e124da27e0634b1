import TeDiServe.Placement.Executors

/-!
# Arrival, admission and dropping

A new request is unscheduled or waits in the queue. Admission moves the head of
the queue to the records of the placement, where it is unscheduled; dropping takes
requests out of the queue and forgets them. Neither touches a request that has a
location, nor an executor.
-/

namespace TeDiServe

/-- `π'` has the same locations as `π` and some more unscheduled requests. -/
def Placement.Extends (π π' : Placement) : Prop :=
  ∀ r, π' r = π r ∨ π r = none ∧ π' r = some .unscheduled

namespace Placement.Extends

variable {π π' π'' : Placement} {r : ReqId}

theorem refl (π : Placement) : π.Extends π := fun _ => Or.inl rfl

theorem trans (h : π.Extends π') (h' : π'.Extends π'') : π.Extends π'' := by
  intro r
  rcases h' r with hr' | ⟨hnone, hr'⟩
  · rw [hr']
    exact h r
  · rcases h r with hr | ⟨-, hr⟩
    · exact Or.inr ⟨hr ▸ hnone, hr'⟩
    · rw [hr] at hnone
      cases hnone

theorem of_update (h : π r = none) : π.Extends (Function.update π r (some .unscheduled)) := by
  intro r'
  by_cases hr : r' = r
  · rw [hr, Function.update_self]
    exact Or.inr ⟨h, rfl⟩
  · rw [Function.update_of_ne hr]
    exact Or.inl rfl

theorem eq_some_iff (h : π.Extends π') {l : Loc} (hl : l ≠ .unscheduled) :
    π' r = some l ↔ π r = some l := by
  rcases h r with hr | ⟨hnone, hr⟩
  · rw [hr]
  · rw [hr, hnone]
    simpa using fun h' => hl h'.symm

end Placement.Extends

namespace Scheduler

variable {κ : Type} {cfg : Config κ} {s s' s'' : Scheduler κ} {π : Placement} {r : ReqId}
  {e : ExecutorId}

/-- `s'` differs from `s` in which requests there are, and in nothing that belongs
to an executor. -/
def Enrolled (s s' : Scheduler κ) : Prop :=
  ∃ reqs rs ds q dr p, s' =
    { s with
      requests := reqs
      requestStates := rs
      deferredRequestStates := ds
      deferredRequests := q
      droppedDeferredRequests := dr
      stepEstimatePendingReqIds := p }

namespace Enrolled

theorem refl (s : Scheduler κ) : Enrolled s s := ⟨_, _, _, _, _, _, rfl⟩

variable (h : Enrolled s s')
include h

theorem trans (h' : Enrolled s' s'') : Enrolled s s'' := by
  obtain ⟨reqs, rs, ds, q, dr, p, rfl⟩ := h
  obtain ⟨reqs', rs', ds', q', dr', p', rfl⟩ := h'
  exact ⟨_, _, _, _, _, _, rfl⟩

theorem executorsManager : s'.executorsManager = s.executorsManager := by
  obtain ⟨reqs, rs, ds, q, dr, p, rfl⟩ := h
  rfl

theorem executorStates : s'.executorStates = s.executorStates := by
  obtain ⟨reqs, rs, ds, q, dr, p, rfl⟩ := h
  rfl

theorem freeReqIds : s'.freeReqIds = s.freeReqIds := by
  obtain ⟨reqs, rs, ds, q, dr, p, rfl⟩ := h
  rfl

theorem kvCacheManagers : s'.kvCacheManagers = s.kvCacheManagers := by
  obtain ⟨reqs, rs, ds, q, dr, p, rfl⟩ := h
  rfl

end Enrolled

theorem Refines.enrol (h : Refines s π) {rs : RequestState} {d : Dict ReqId RequestState}
    (hrep : rs.Represents .unscheduled) (hr : r ∉ s.requestStates) (hknown : r ∈ s.requests) :
    Refines { s with requestStates := s.requestStates.set r rs, deferredRequestStates := d }
      (Function.update π r (some .unscheduled)) := by
  have hnone : π r = none := by
    rw [Option.eq_none_iff_forall_ne_some]
    intro l hl
    exact hr (h.mem_requestStates_iff.mpr ⟨l, hl⟩)
  have hhost : ∀ e, π.host? r ≠ some e := by simp [Placement.host?, hnone]
  refine ⟨?_, ?_, ?_, ?_, h.ids⟩
  · intro e es hes
    exact (h.executors e es hes).of_elsewhere (hhost e) (by simp [Loc.executor?])
  · intro r'
    rw [Dict.get?_set]
    by_cases hr' : r' = r
    · rw [if_pos hr', hr', Function.update_self]
      exact .some hrep
    · rw [if_neg hr', Function.update_of_ne hr']
      exact h.located r'
  · intro r' e hhost'
    by_cases hr' : r' = r
    · rw [hr', Placement.host?_update_self] at hhost'
      cases hhost'
    · rw [Placement.host?_update_of_ne π hr'] at hhost'
      exact h.hosted r' e hhost'
  · intro r' hr'
    rcases (Dict.mem_set _ _ _ _).mp hr' with rfl | hr'
    · exact hknown
    · exact h.known r' hr'

/-! ## Admission -/

abbrev LedgerWith (cfg : Config κ) (s : Scheduler κ) (q : List Request) : Prop :=
  Ledger cfg { s with deferredRequests := q }

theorem ensures_admitRequest {req : Request} {q : List Request} (h : Refines s π)
    (hl : LedgerWith cfg s (req :: q)) :
    (s.admitRequest req).Ensures (fun _ => False) fun s' =>
      Refines s' (Function.update π req.requestId (some .unscheduled)) ∧
      LedgerWith cfg s' q ∧ π req.requestId = none ∧ s'.requests = s.requests ∧
      s'.deferredRequests = s.deferredRequests ∧
      s'.droppedDeferredRequests = s.droppedDeferredRequests ∧ Enrolled s s' := by
  have hdef : req.requestId ∈ s.deferredRequestStates := by
    have := hl.queue req.requestId
    simpa using this
  obtain ⟨rs, hrs⟩ := (Dict.mem_iff_exists _ _).mp hdef
  have hnot : req.requestId ∉ s.requestStates := fun hmem => hl.apart _ hmem hdef
  have hknown : req.requestId ∈ s.requests := (hl.known _).mpr (Or.inr hdef)
  obtain ⟨hfresh, hnodup⟩ := List.nodup_cons.mp (by simpa using hl.queueNodup :
    (req.requestId :: q.map Request.requestId).Nodup)
  unfold admitRequest
  rw [ensures_bind, subscript_of_get? _ hrs, ensures_ok, ensures_pure]
  refine ⟨h.enrol (hl.waiting _ rs hrs) hnot hknown, ?_, ?_, rfl, rfl, rfl,
    ⟨_, _, _, _, _, _, rfl⟩⟩
  · refine ⟨?_, ?_, ?_, hnodup, ?_, hl.estimates, hl.caches, ?_, ?_, hl.minIdx⟩
    · intro r
      have hold := hl.known r
      dsimp only at hold ⊢
      rw [Dict.mem_set, Dict.mem_erase, hold]
      by_cases hr : r = req.requestId
      · simp [hr, hdef]
      · simp [hr]
    · intro r hr
      dsimp only at hr ⊢
      rw [Dict.mem_erase]
      rintro ⟨hne, hmem⟩
      rcases (Dict.mem_set _ _ _ _).mp hr with hr | hr
      · exact hne hr
      · exact hl.apart r hr hmem
    · intro r
      have hold := hl.queue r
      dsimp only at hold ⊢
      rw [Dict.mem_erase, hold, List.map_cons, List.mem_cons]
      by_cases hr : r = req.requestId
      · simp only [hr, ne_eq, not_true_eq_false, false_and, false_iff]
        exact hfresh
      · simp [hr]
    · intro r rs' hrs'
      dsimp only at hrs'
      rw [Dict.get?_erase] at hrs'
      by_cases hr : r = req.requestId
      · simp [hr] at hrs'
      · rw [if_neg hr] at hrs'
        exact hl.waiting r rs' hrs'
    · intro r rs' hrs'
      dsimp only at hrs'
      rw [Dict.get?_set] at hrs'
      by_cases hr : r = req.requestId
      · rw [if_pos hr, Option.some.injEq] at hrs'
        rw [← hrs']
        exact hl.deferredIndices _ rs hrs
      · rw [if_neg hr] at hrs'
        exact hl.indices r rs' hrs'
    · intro r rs' hrs'
      dsimp only at hrs'
      rw [Dict.get?_erase] at hrs'
      by_cases hr : r = req.requestId
      · simp [hr] at hrs'
      · rw [if_neg hr] at hrs'
        exact hl.deferredIndices r rs' hrs'
  · rw [Option.eq_none_iff_forall_ne_some]
    intro l hl'
    exact hnot (h.mem_requestStates_iff.mpr ⟨l, hl'⟩)

def Within (cfg : Config κ) (s : Scheduler κ) : Prop :=
  ∀ n, cfg.maxNumUnfinishedRequests = some n → s.requestStates.keys.length ≤ n

theorem Within.of_subset (h : Within cfg s)
    (hsub : ∀ r, r ∈ s'.requestStates → r ∈ s.requestStates) : Within cfg s' := by
  intro n hn
  have hle : s'.requestStates.keys.length ≤ s.requestStates.keys.length :=
    (List.subperm_of_subset s'.requestStates.nodup_keys hsub).length_le
  exact hle.trans (h n hn)

theorem ensures_admitRequest_within (h : s.atLimit cfg = false) (req : Request) :
    (s.admitRequest req).Ensures (fun _ => True) (Within cfg) := by
  unfold admitRequest
  apply ensures_bind_any
  intro rs n hn
  have hlt : s.requestStates.keys.length < n := by
    simp only [atLimit, hn, getNumUnfinishedRequests] at h
    exact not_le.mp (of_decide_eq_false h)
  have hkeys : ∀ r, r ∈ (s.requestStates.set req.requestId rs).keys →
      r ∈ req.requestId :: s.requestStates.keys := by
    intro r hr
    rw [← Dict.mem_def, Dict.mem_set] at hr
    rcases hr with rfl | hr
    · exact List.mem_cons_self
    · exact List.mem_cons_of_mem _ hr
  calc (s.requestStates.set req.requestId rs).keys.length
      ≤ (req.requestId :: s.requestStates.keys).length :=
        (List.subperm_of_subset (Dict.nodup_keys _) hkeys).length_le
    _ ≤ n := hlt

theorem ensures_admitLoop (q : List Request) (h : Refines s π) (hl : LedgerWith cfg s q) :
    (admitLoop cfg q s).Ensures (fun _ => False) fun s' => ∃ π',
      Refines s' π' ∧ Ledger cfg s' ∧ π.Extends π' ∧ s'.requests = s.requests ∧
      s'.droppedDeferredRequests = s.droppedDeferredRequests ∧ Enrolled s s' ∧
      (Within cfg s → Within cfg s') := by
  induction q generalizing s π with
  | nil =>
      exact ⟨π, ⟨h.executors, h.located, h.hosted, h.known, h.ids⟩, hl,
        Placement.Extends.refl π, rfl, rfl, ⟨_, _, _, _, _, _, rfl⟩, id⟩
  | cons req q ih =>
      unfold admitLoop
      by_cases hlim : s.atLimit cfg = true
      · rw [if_pos hlim]
        exact ⟨π, ⟨h.executors, h.located, h.hosted, h.known, h.ids⟩, hl,
          Placement.Extends.refl π, rfl, rfl, ⟨_, _, _, _, _, _, rfl⟩, id⟩
      · have hroom := ensures_admitRequest_within (Bool.eq_false_iff.mpr hlim) req
        rw [if_neg hlim, ensures_bind]
        apply (ensures_admitRequest h hl).with_eq.imp
        rintro s' ⟨⟨h', hl', hnone, hreqs, -, hdrop, hen⟩, heq⟩
        apply (ih h' hl').imp
        rintro s'' ⟨π'', h'', hl'', hext, hreqs', hdrop', hen', hlimit⟩
        exact ⟨π'', h'', hl'', (Placement.Extends.of_update hnone).trans hext,
          hreqs'.trans hreqs, hdrop'.trans hdrop, hen.trans hen',
          fun _ => hlimit (ensures_of_ok hroom heq)⟩

/-! ## Dropping -/

structure Withdrawn (ids : List ReqId) (s s' : Scheduler κ) : Prop where
  enrolled : Enrolled s s'
  states : s'.requestStates = s.requestStates
  requests : ∀ r, s'.requests.get? r =
    if r ∈ s.deferredRequestStates ∧ r ∈ ids then none else s.requests.get? r
  deferredStates : ∀ r, s'.deferredRequestStates.get? r =
    if r ∈ s.deferredRequestStates ∧ r ∈ ids then none else s.deferredRequestStates.get? r
  queue : s'.deferredRequests = s.deferredRequests.filter fun req => req.requestId ∉ ids
  dropped : s'.droppedDeferredRequests =
    s.droppedDeferredRequests ++ s.deferredRequests.filter fun req => req.requestId ∈ ids
  estimates : ∀ r, r ∈ s'.stepEstimatePendingReqIds ↔
    r ∈ s.stepEstimatePendingReqIds ∧ ¬(r ∈ s.deferredRequestStates ∧ r ∈ ids)

theorem withdrawn_nil (s : Scheduler κ) : Withdrawn [] s s :=
  ⟨Enrolled.refl s, rfl, fun r => by simp, fun r => by simp, by simp, by simp,
    fun r => by simp⟩

theorem foldl_dropDeferredRequest (l : List Request) (s : Scheduler κ) :
    ∃ reqs ds p, l.foldl dropDeferredRequest s =
        { s with
          requests := reqs
          deferredRequestStates := ds
          droppedDeferredRequests := s.droppedDeferredRequests ++ l
          stepEstimatePendingReqIds := p } ∧
      (∀ r, reqs.get? r = if r ∈ l.map Request.requestId then none else s.requests.get? r) ∧
      (∀ r, ds.get? r =
        if r ∈ l.map Request.requestId then none else s.deferredRequestStates.get? r) ∧
      ∀ r, r ∈ p ↔ r ∈ s.stepEstimatePendingReqIds ∧ r ∉ l.map Request.requestId := by
  induction l generalizing s with
  | nil =>
      exact ⟨s.requests, s.deferredRequestStates, s.stepEstimatePendingReqIds, by simp,
        fun r => by simp, fun r => by simp, fun r => by simp⟩
  | cons req l ih =>
      obtain ⟨reqs, ds, p, heq, hreqs, hds, hp⟩ := ih (s.dropDeferredRequest req)
      refine ⟨reqs, ds, p, ?_, ?_, ?_, ?_⟩
      · rw [List.foldl_cons, heq]
        simp [dropDeferredRequest]
      · intro r
        rw [hreqs]
        simp only [dropDeferredRequest, Dict.get?_erase, List.map_cons, List.mem_cons]
        by_cases hr : r = req.requestId
        · simp [hr]
        · simp [hr]
      · intro r
        rw [hds]
        simp only [dropDeferredRequest, Dict.get?_erase, List.map_cons, List.mem_cons]
        by_cases hr : r = req.requestId
        · simp [hr]
        · simp [hr]
      · intro r
        rw [hp]
        simp only [dropDeferredRequest, OrderedSet.mem_discard, List.map_cons, List.mem_cons]
        tauto

theorem mem_map_filter_iff (hl : Ledger cfg s) (ids : List ReqId) (r : ReqId) :
    r ∈ (s.deferredRequests.filter fun req => req.requestId ∈ ids).map Request.requestId ↔
      r ∈ s.deferredRequestStates ∧ r ∈ ids := by
  rw [hl.queue, List.mem_map, List.mem_map]
  constructor
  · rintro ⟨req, hreq, rfl⟩
    obtain ⟨hmem, hids⟩ := List.mem_filter.mp hreq
    exact ⟨⟨req, hmem, rfl⟩, of_decide_eq_true hids⟩
  · rintro ⟨⟨req, hmem, rfl⟩, hids⟩
    exact ⟨req, List.mem_filter.mpr ⟨hmem, decide_eq_true hids⟩, rfl⟩

theorem withdrawn_dropDeferredRequests (hl : Ledger cfg s) (ids : List ReqId) (force : Bool)
    (hdo : ids ≠ [] → (!cfg.enableDropping && !force) = false) :
    Withdrawn ids s (s.dropDeferredRequests cfg ids force) := by
  unfold dropDeferredRequests
  by_cases hnil : ids = []
  · rw [if_pos hnil, hnil]
    exact withdrawn_nil s
  · rw [if_neg hnil, if_neg (by simp [hdo hnil])]
    obtain ⟨reqs, ds, p, heq, hreqs, hds, hp⟩ :=
      foldl_dropDeferredRequest (s.deferredRequests.filter fun req => req.requestId ∈ ids) s
    simp only [mem_map_filter_iff hl] at hreqs hds hp
    simp only [heq]
    exact ⟨⟨_, _, _, _, _, _, rfl⟩, rfl, hreqs, hds, rfl, rfl, hp⟩

theorem dropDeferredRequests_of_disabled (ids : List ReqId) {force : Bool}
    (h : (!cfg.enableDropping && !force) = true) :
    s.dropDeferredRequests cfg ids force = s := by
  unfold dropDeferredRequests
  by_cases hnil : ids = []
  · rw [if_pos hnil]
  · rw [if_neg hnil, if_pos h]

namespace Withdrawn

variable {ids : List ReqId}

variable (h : Withdrawn ids s s')
include h

theorem mem_requests :
    r ∈ s'.requests ↔ r ∈ s.requests ∧ ¬(r ∈ s.deferredRequestStates ∧ r ∈ ids) := by
  rw [Dict.mem_iff_exists, Dict.mem_iff_exists, h.requests]
  by_cases hr : r ∈ s.deferredRequestStates ∧ r ∈ ids
  · simp [hr]
  · simp only [hr, if_false, not_false_eq_true, and_true]

theorem mem_deferredRequestStates :
    r ∈ s'.deferredRequestStates ↔ r ∈ s.deferredRequestStates ∧ r ∉ ids := by
  rw [Dict.mem_iff_exists, h.deferredStates]
  by_cases hr : r ∈ s.deferredRequestStates ∧ r ∈ ids
  · simp [hr]
  · simp only [hr, if_false, ← Dict.mem_iff_exists]
    tauto

theorem ledger (hl : Ledger cfg s) : Ledger cfg s' := by
  have hds : ∀ r rs, s'.deferredRequestStates.get? r = some rs →
      s.deferredRequestStates.get? r = some rs := by
    intro r rs hrs
    rw [h.deferredStates] at hrs
    by_cases hr : r ∈ s.deferredRequestStates ∧ r ∈ ids
    · rw [if_pos hr] at hrs
      cases hrs
    · rwa [if_neg hr] at hrs
  have hmin : s'.minMaxConfidenceThresholdIdx = s.minMaxConfidenceThresholdIdx := by
    obtain ⟨reqs, rs, ds, q, dr, p, rfl⟩ := h.enrolled
    rfl
  have hcaches := h.enrolled.kvCacheManagers
  refine ⟨?_, ?_, ?_, ?_, fun r rs hrs => hl.waiting r rs (hds r rs hrs), ?_, ?_, ?_,
    fun r rs hrs => hl.deferredIndices r rs (hds r rs hrs), ?_⟩
  · intro r
    rw [h.mem_requests, h.states, h.mem_deferredRequestStates, hl.known]
    have := hl.apart r
    tauto
  · intro r
    rw [h.states, h.mem_deferredRequestStates]
    exact fun hr hmem => hl.apart r hr hmem.1
  · intro r
    rw [h.mem_deferredRequestStates, h.queue, hl.queue, List.mem_map, List.mem_map]
    constructor
    · rintro ⟨⟨req, hmem, rfl⟩, hids⟩
      exact ⟨req, List.mem_filter.mpr ⟨hmem, decide_eq_true hids⟩, rfl⟩
    · rintro ⟨req, hreq, rfl⟩
      obtain ⟨hmem, hids⟩ := List.mem_filter.mp hreq
      exact ⟨⟨req, hmem, rfl⟩, of_decide_eq_true hids⟩
  · rw [h.queue]
    exact (List.filter_sublist.map Request.requestId).nodup hl.queueNodup
  · intro r hr
    obtain ⟨hr, hnot⟩ := (h.estimates r).mp hr
    exact h.mem_requests.mpr ⟨hl.estimates r hr, hnot⟩
  · intro e he
    rw [h.enrolled.executorStates] at he
    rw [hcaches]
    exact hl.caches e he
  · intro r rs hrs
    rw [h.states] at hrs
    exact hl.indices r rs hrs
  · rw [hmin]
    exact hl.minIdx

theorem refines (hl : Ledger cfg s) (hs : Refines s π) : Refines s' π := by
  have hsame : ∀ r, r ∈ s.requestStates → s'.requests.get? r = s.requests.get? r := by
    intro r hr
    rw [h.requests, if_neg fun hd => hl.apart r hr hd.1]
  refine ⟨?_, ?_, ?_, ?_, ?_⟩
  · intro e es hes
    rw [h.enrolled.executorStates] at hes
    apply (hs.executors e es hes).congr_size
    intro r hr
    have hmem : r ∈ s.requestStates := by
      rcases (Placement.host?_eq_some_iff π r e).mp hr with hr | hr
      · exact hs.mem_requestStates_iff.mpr ⟨_, hr⟩
      · exact hs.mem_requestStates_iff.mpr ⟨_, hr⟩
    simp only [size, hsame r hmem]
  · rw [h.states]
    exact hs.located
  · rw [h.enrolled.executorStates]
    exact hs.hosted
  · intro r hr
    rw [h.states] at hr
    rw [Dict.mem_iff_exists, hsame r hr, ← Dict.mem_iff_exists]
    exact hs.known r hr
  · intro r req hreq
    rw [h.requests] at hreq
    by_cases hr : r ∈ s.deferredRequestStates ∧ r ∈ ids
    · rw [if_pos hr] at hreq
      cases hreq
    · rw [if_neg hr] at hreq
      exact hs.ids r req hreq

end Withdrawn

/-! ## The calls -/

/-- The deferred requests of `s` that `s'` does not know any more were put on the list
of dropped requests. -/
def Shed (s s' : Scheduler κ) : Prop :=
  ∃ xs : List Request,
    s'.droppedDeferredRequests = s.droppedDeferredRequests ++ xs ∧
    (xs.map Request.requestId).Nodup ∧
    ∀ r, r ∈ xs.map Request.requestId ↔ r ∈ s.deferredRequestStates ∧ r ∉ s'.requests

theorem Withdrawn.shed {ids : List ReqId} (h : Withdrawn ids s s') (hl : Ledger cfg s) :
    Shed s s' := by
  refine ⟨_, h.dropped, (List.filter_sublist.map Request.requestId).nodup hl.queueNodup, ?_⟩
  intro r
  rw [mem_map_filter_iff hl, h.mem_requests]
  have hknown := hl.known r
  tauto

/-- Some requests leave the queue; of those that are admitted, none comes behind one that
stays. -/
def Advanced (s s' : Scheduler κ) : Prop :=
  ∃ admitted : List Request,
    (admitted ++ s'.deferredRequests).Sublist s.deferredRequests ∧
    ∀ r ∈ s'.requestStates, r ∈ s.requestStates ∨ r ∈ admitted.map Request.requestId

theorem Advanced.of_sublist (hq : s'.deferredRequests.Sublist s.deferredRequests)
    (hsub : ∀ r ∈ s'.requestStates, r ∈ s.requestStates) : Advanced s s' :=
  ⟨[], hq, fun r hr => Or.inl (hsub r hr)⟩

theorem Advanced.trans (h : Advanced s s') (h' : Advanced s' s'') : Advanced s s'' := by
  obtain ⟨xs, hxs, hmem⟩ := h
  obtain ⟨ys, hys, hmem'⟩ := h'
  refine ⟨xs ++ ys, ?_, ?_⟩
  · rw [List.append_assoc]
    exact ((List.Sublist.refl xs).append hys).trans hxs
  · intro r hr
    rw [List.map_append, List.mem_append]
    rcases hmem' r hr with hr | hr
    · rcases hmem r hr with hr | hr
      · exact Or.inl hr
      · exact Or.inr (Or.inl hr)
    · exact Or.inr (Or.inr hr)

theorem Withdrawn.advanced {ids : List ReqId} (h : Withdrawn ids s s') : Advanced s s' := by
  refine Advanced.of_sublist ?_ ?_
  · rw [h.queue]
    exact List.filter_sublist
  · rw [h.states]
    exact fun _ hr => hr

/-- The loop of admission takes requests from the front of the queue, until none is left
or there is no place. -/
theorem ensures_admitLoop_advanced (q : List Request) (s : Scheduler κ)
    (hq : s.deferredRequests = q) :
    (admitLoop cfg q s).Ensures (fun _ => True) fun s' => Advanced s s' ∧
      (s'.deferredRequests ≠ [] → s'.atLimit cfg = true) := by
  have hloop : ∀ (q : List Request) (s : Scheduler κ),
      (admitLoop cfg q s).Ensures (fun _ => True) fun s' =>
        (∃ admitted : List Request, admitted ++ s'.deferredRequests = q ∧
          ∀ r ∈ s'.requestStates, r ∈ s.requestStates ∨ r ∈ admitted.map Request.requestId) ∧
        (s'.deferredRequests ≠ [] → s'.atLimit cfg = true) := by
    intro q
    induction q with
    | nil =>
        intro s
        exact ⟨⟨[], rfl, fun r hr => Or.inl hr⟩, fun hne => absurd rfl hne⟩
    | cons req q ih =>
        intro s
        unfold admitLoop
        by_cases hlim : s.atLimit cfg = true
        · rw [if_pos hlim]
          exact ⟨⟨[], rfl, fun r hr => Or.inl hr⟩, fun _ => hlim⟩
        · rw [if_neg hlim]
          unfold admitRequest
          rw [ensures_bind]
          apply ensures_bind_any
          intro rs
          apply (ih _).imp
          rintro s' ⟨⟨admitted, hadm, hmem⟩, hfull⟩
          refine ⟨⟨req :: admitted, by rw [List.cons_append, hadm], ?_⟩, hfull⟩
          intro r hr
          rw [List.map_cons, List.mem_cons]
          rcases hmem r hr with hr | hr
          · rcases (Dict.mem_set _ _ _ _).mp hr with hr | hr
            · exact Or.inr (Or.inl hr)
            · exact Or.inl hr
          · exact Or.inr (Or.inr hr)
  apply (hloop q s).imp
  rintro s' ⟨⟨admitted, hadm, hmem⟩, hfull⟩
  refine ⟨⟨admitted, ?_, hmem⟩, hfull⟩
  rw [hadm, hq]

/-- What may happen to the requests while some of the queue is dropped or admitted:
those with a location keep it. -/
structure Admitted (cfg : Config κ) (π : Placement) (s s' : Scheduler κ) (π' : Placement) :
    Prop where
  refines : Refines s' π'
  ledger : Ledger cfg s'
  extends_ : π.Extends π'
  enrolled : Enrolled s s'
  requests : ∀ r, s'.requests.get? r = s.requests.get? r ∨
    r ∈ s.deferredRequestStates ∧ s'.requests.get? r = none
  quiet : s.deferredRequests = [] → s' = s
  shed : Shed s s'
  limit : Within cfg s → Within cfg s'
  advanced : Advanced s s'
  full : s'.deferredRequests ≠ [] → s'.atLimit cfg = true

theorem admitDeferredRequests_of_nil (cfg : Config κ) (clock : ReqId → ℚ)
    (h : s.deferredRequests = []) : s.admitDeferredRequests cfg clock = .ok s := by
  unfold admitDeferredRequests
  simp only [h, List.filter_nil, List.map_nil, dropDeferredRequests, if_true, admitLoop]
  rw [← h]

theorem ensures_admitDeferredRequests (clock : ReqId → ℚ) (h : Refines s π)
    (hl : Ledger cfg s) :
    (s.admitDeferredRequests cfg clock).Ensures (fun _ => False) fun s' =>
      ∃ π', Admitted cfg π s s' π' := by
  by_cases hnil : s.deferredRequests = []
  · rw [admitDeferredRequests_of_nil cfg clock hnil]
    exact ⟨π, h, hl, Placement.Extends.refl π, Enrolled.refl s, fun _ => Or.inl rfl,
      fun _ => rfl, (withdrawn_nil s).shed hl, id,
      Advanced.of_sublist (List.Sublist.refl _) (fun _ hr => hr), fun hne => absurd hnil hne⟩
  unfold admitDeferredRequests
  generalize hids : (s.deferredRequests.filter fun req =>
    req.sloTimeRemaining (clock req.requestId) ≤ 0).map Request.requestId = ids
  obtain ⟨ids', hw⟩ : ∃ ids', Withdrawn ids' s (s.dropDeferredRequests cfg ids false) := by
    cases hen : cfg.enableDropping with
    | true => exact ⟨ids, withdrawn_dropDeferredRequests hl ids false (by simp [hen])⟩
    | false =>
        rw [dropDeferredRequests_of_disabled ids (by simp [hen])]
        exact ⟨[], withdrawn_nil s⟩
  simp only [hids]
  apply (ensures_admitLoop _ (hw.refines hl h) (hw.ledger hl)).with_eq.imp
  rintro s' ⟨⟨π', h', hl', hext, hreqs, hdrop, hen, hlimit⟩, hloop⟩
  obtain ⟨hadv, hfull⟩ := ensures_of_ok (ensures_admitLoop_advanced _ _ rfl) hloop
  refine ⟨π', h', hl', hext, hw.enrolled.trans hen, ?_, fun hc => absurd hc hnil, ?_, ?_,
    hw.advanced.trans hadv, hfull⟩
  · intro r
    rw [hreqs, hw.requests]
    by_cases hr : r ∈ s.deferredRequestStates ∧ r ∈ ids'
    · rw [if_pos hr]
      exact Or.inr ⟨hr.1, rfl⟩
    · rw [if_neg hr]
      exact Or.inl rfl
  · obtain ⟨xs, hxs, hnodup, hmem⟩ := hw.shed hl
    refine ⟨xs, hdrop.trans hxs, hnodup, ?_⟩
    rw [hreqs]
    exact hmem
  · intro hin
    apply hlimit
    apply hin.of_subset
    intro r hr
    rwa [hw.states] at hr

/-- No deferred request has run out of time, or none is dropped for that. -/
abbrev NoneExpired (cfg : Config κ) (s : Scheduler κ) (clock : ReqId → ℚ) : Prop :=
  cfg.enableDropping = true →
    ∀ req ∈ s.deferredRequests, 0 < req.sloTimeRemaining (clock req.requestId)

theorem ensures_admitDeferredRequests_dropped {clock : ReqId → ℚ} (h : Refines s π)
    (hl : Ledger cfg s) (hnone : s.NoneExpired cfg clock) :
    (s.admitDeferredRequests cfg clock).Ensures (fun _ => False) fun s' =>
      s'.droppedDeferredRequests = s.droppedDeferredRequests := by
  have hdrop : s.dropDeferredRequests cfg ((s.deferredRequests.filter fun req =>
      req.sloTimeRemaining (clock req.requestId) ≤ 0).map Request.requestId) false = s := by
    cases hen : cfg.enableDropping with
    | true =>
        have hnil : (s.deferredRequests.filter fun req =>
            req.sloTimeRemaining (clock req.requestId) ≤ 0) = [] :=
          List.filter_eq_nil_iff.mpr fun req hreq => by simpa using hnone hen req hreq
        rw [hnil, List.map_nil, dropDeferredRequests, if_pos rfl]
    | false => exact dropDeferredRequests_of_disabled _ (by simp [hen])
  simp only [admitDeferredRequests, hdrop]
  apply (ensures_admitLoop _ h hl).imp
  rintro s' ⟨π', -, -, -, -, hkept, -⟩
  exact hkept

theorem ensures_addRequest {req : Request} (h : Refines s π) (hl : Ledger cfg s)
    (hnew : req.requestId ∉ s.requests) :
    (s.addRequest cfg req).Ensures (fun _ => False) fun s' => ∃ π',
      Refines s' π' ∧ Ledger cfg s' ∧ π.Extends π' ∧ Enrolled s s' ∧
      s'.requests = s.requests.set req.requestId req ∧
      s'.droppedDeferredRequests = s.droppedDeferredRequests ∧
      (cfg.maxNumUnfinishedRequests = none → s'.deferredRequests = s.deferredRequests) := by
  have hstate : req.requestId ∉ s.requestStates := fun hmem => hnew (h.known _ hmem)
  have hdef : req.requestId ∉ s.deferredRequestStates :=
    fun hmem => hnew ((hl.known _).mpr (Or.inr hmem))
  have hqueue : req.requestId ∉ s.deferredRequests.map Request.requestId :=
    fun hmem => hdef ((hl.queue _).mpr hmem)
  generalize hrs : RequestState.init (cfg.getInitialDefaultPredictions req)
    s.minMaxConfidenceThresholdIdx = rs
  have hrep : rs.Represents .unscheduled := hrs ▸ RequestState.represents_init _ _
  have hidx : cfg.IdxOk rs.maxConfidenceThresholdIdx := hrs ▸ hl.minIdx
  -- the state in which the request waits
  have h₁ : Refines
      { s with
        requests := s.requests.set req.requestId req
        deferredRequestStates := s.deferredRequestStates.set req.requestId rs } π := by
    refine ⟨?_, h.located, h.hosted, ?_, ?_⟩
    · intro e es hes
      apply (h.executors e es hes).congr_size
      intro r hr
      have hne : r ≠ req.requestId := by
        rintro rfl
        rcases (Placement.host?_eq_some_iff π _ e).mp hr with hr | hr
        · exact hstate (h.mem_requestStates_iff.mpr ⟨_, hr⟩)
        · exact hstate (h.mem_requestStates_iff.mpr ⟨_, hr⟩)
      simp [size, hne]
    · intro r hr
      exact (Dict.mem_set _ _ _ _).mpr (Or.inr (h.known r hr))
    · intro r req' hreq'
      dsimp only at hreq'
      rw [Dict.get?_set] at hreq'
      by_cases hr : r = req.requestId
      · rw [if_pos hr, Option.some.injEq] at hreq'
        rw [← hreq', hr]
      · rw [if_neg hr] at hreq'
        exact h.ids r req' hreq'
  have hl₁ : ∀ q, (∀ r, r ∈ q.map Request.requestId ↔
        r = req.requestId ∨ r ∈ s.deferredRequests.map Request.requestId) →
      (q.map Request.requestId).Nodup → LedgerWith cfg
      { s with
        requests := s.requests.set req.requestId req
        deferredRequestStates := s.deferredRequestStates.set req.requestId rs } q := by
    intro q hq hnodup
    refine ⟨?_, ?_, ?_, hnodup, ?_, ?_, hl.caches, hl.indices, ?_, hl.minIdx⟩
    · intro r
      dsimp only
      rw [Dict.mem_set, Dict.mem_set, hl.known]
      tauto
    · intro r hr
      dsimp only at hr ⊢
      rw [Dict.mem_set]
      rintro (rfl | hmem)
      · exact hstate hr
      · exact hl.apart r hr hmem
    · intro r
      dsimp only
      rw [Dict.mem_set, hq, hl.queue]
    · intro r rs' hrs'
      dsimp only at hrs'
      rw [Dict.get?_set] at hrs'
      by_cases hr : r = req.requestId
      · rw [if_pos hr, Option.some.injEq] at hrs'
        rw [← hrs']
        exact hrep
      · rw [if_neg hr] at hrs'
        exact hl.waiting r rs' hrs'
    · intro r hr
      exact (Dict.mem_set _ _ _ _).mpr (Or.inr (hl.estimates r hr))
    · intro r rs' hrs'
      dsimp only at hrs'
      rw [Dict.get?_set] at hrs'
      by_cases hr : r = req.requestId
      · rw [if_pos hr, Option.some.injEq] at hrs'
        rw [← hrs']
        exact hidx
      · rw [if_neg hr] at hrs'
        exact hl.deferredIndices r rs' hrs'
  unfold addRequest
  simp only [hrs]
  split_ifs with hlim
  · rw [ensures_ok]
    refine ⟨π, ⟨h₁.executors, h₁.located, h₁.hosted, h₁.known, h₁.ids⟩,
      hl₁ (s.deferredRequests ++ [req]) ?_ ?_, Placement.Extends.refl π,
      ⟨_, _, _, _, _, _, rfl⟩, rfl, rfl, ?_⟩
    · intro r
      simp [or_comm]
    · rw [List.map_append, List.map_singleton, ← List.concat_eq_append]
      exact hl.queueNodup.concat hqueue
    · intro hnone
      simp [atLimit, hnone] at hlim
  · apply (ensures_admitRequest h₁ (hl₁ (req :: s.deferredRequests) ?_ ?_)).imp
    · rintro s' ⟨h', hl', hnone, hreqs, hq, hdrop, hen⟩
      refine ⟨_, h', ?_, Placement.Extends.of_update hnone, ?_, hreqs, hdrop, fun _ => hq⟩
      · have hq' : s'.deferredRequests = s.deferredRequests := hq
        unfold LedgerWith at hl'
        rw [← hq'] at hl'
        exact hl'
      · obtain ⟨reqs, rs', ds, q, dr, p, rfl⟩ := hen
        exact ⟨_, _, _, _, _, _, rfl⟩
    · intro r
      simp
    · exact List.nodup_cons.mpr ⟨hqueue, hl.queueNodup⟩

end Scheduler

end TeDiServe

import TeDiServe.Placement.Run

/-!
# Which aborts complete

An abort is complete when no record mentions the aborted ids any more and no other
request has moved. `finish_requests` achieves this exactly when it is given a
collection, or nothing is deferred, and every admitted id of the argument is
running: the single-id form treats a tuple as a set, and `_free_request` asserts
that the request runs.
-/

namespace TeDiServe

namespace Scheduler

variable {κ : Type} {cfg : Config κ} {s s' : Scheduler κ} {π π' : Placement} {r : ReqId}

structure Forgotten (s : Scheduler κ) (r : ReqId) : Prop where
  requests : r ∉ s.requests
  requestStates : r ∉ s.requestStates
  deferredRequests : r ∉ s.deferredRequests.map Request.requestId
  deferredRequestStates : r ∉ s.deferredRequestStates
  executorStates : ∀ e es, s.executorStates.get? e = some es →
    r ∉ es.reqIds ∧ r ∉ es.pendingRequestAdditions ∧ r ∉ es.reqToTokensNeeded
  estimates : r ∉ s.stepEstimatePendingReqIds

structure SameLocation (rs rs' : RequestState) : Prop where
  executorId : rs'.executorId = rs.executorId
  pendingExecutorId : rs'.pendingExecutorId = rs.pendingExecutorId
  executorsToFree : ∀ e, e ∈ rs'.executorsToFree ↔ e ∈ rs.executorsToFree
  status : rs'.status = rs.status

structure SameEntry (r : ReqId) (es es' : ExecutorState) : Prop where
  reqIds : r ∈ es'.reqIds ↔ r ∈ es.reqIds
  pending : r ∈ es'.pendingRequestAdditions ↔ r ∈ es.pendingRequestAdditions
  tokens : es'.reqToTokensNeeded.get? r = es.reqToTokensNeeded.get? r

structure Unmoved (s s' : Scheduler κ) (r : ReqId) : Prop where
  request : Option.Rel SameLocation (s.requestStates.get? r) (s'.requestStates.get? r)
  executors : ∀ e, Option.Rel (SameEntry r) (s.executorStates.get? e) (s'.executorStates.get? e)

/-- What an abort is meant to do. -/
structure AbortComplete (s : Scheduler κ) (ids : List ReqId) (s' : Scheduler κ) : Prop where
  gone : ∀ r ∈ ids, Forgotten s' r
  others : ∀ r ∉ ids, Unmoved s s' r ∨
    r ∈ s.deferredRequestStates ∧ ∃ rs, s'.requestStates.get? r = some rs ∧
      rs.status = .unscheduled

theorem forgotten_of_not_mem (h : Refines s π) (hl : Ledger cfg s) (hr : r ∉ s.requests) :
    Forgotten s r := by
  have hstate : r ∉ s.requestStates := fun hmem => hr (h.known r hmem)
  have hdef : r ∉ s.deferredRequestStates := fun hmem => hr ((hl.known r).mpr (Or.inr hmem))
  have hnone : ∀ l, π r ≠ some l := fun l hloc => hstate (h.mem_requestStates_iff.mpr ⟨l, hloc⟩)
  refine ⟨hr, hstate, fun hmem => hdef ((hl.queue r).mpr hmem), hdef, ?_,
    fun hmem => hr (hl.estimates r hmem)⟩
  intro e es hes
  have hmir := h.executors e es hes
  have hres : r ∉ es.reqIds := fun hmem => hnone _ ((hmir.resident r).mp hmem)
  have hpend : r ∉ es.pendingRequestAdditions := fun hmem => hnone _ ((hmir.pending r).mp hmem)
  refine ⟨hres, hpend, ?_⟩
  rw [h.recordsAgree.tokenKeys e es hes]
  exact fun hmem => hmem.elim hres hpend

theorem SameLocation.of_represents {rs rs' : RequestState} {l : Loc} (h : rs.Represents l)
    (h' : rs'.Represents l) : SameLocation rs rs' := by
  refine ⟨h'.executorId.trans h.executorId.symm,
    h'.pendingExecutorId.trans h.pendingExecutorId.symm, ?_, h'.status.trans h.status.symm⟩
  intro e
  rw [h.executorsToFree, h'.executorsToFree]

theorem unmoved_of_location (h : Refines s π) (h' : Refines s' π') (hr : π' r = π r)
    (hkeys : s'.executorStates.keys = s.executorStates.keys)
    (hsize : π.host? r ≠ none → s'.size r = s.size r) : Unmoved s s' r := by
  refine ⟨?_, ?_⟩
  · have hloc := h.located r
    have hloc' := h'.located r
    rw [hr] at hloc'
    cases hl : π r with
    | none =>
        rw [hl] at hloc hloc'
        cases hrs : s.requestStates.get? r with
        | some rs =>
            rw [hrs] at hloc
            cases hloc
        | none =>
            cases hrs' : s'.requestStates.get? r with
            | some rs =>
                rw [hrs'] at hloc'
                cases hloc'
            | none => exact .none
    | some l =>
        obtain ⟨rs, hrs, hrep⟩ := h.represents hl
        obtain ⟨rs', hrs', hrep'⟩ := h'.represents (hr.trans hl)
        rw [hrs, hrs']
        exact .some (SameLocation.of_represents hrep hrep')
  · intro e
    have hmem : e ∈ s'.executorStates ↔ e ∈ s.executorStates := by
      rw [Dict.mem_def, Dict.mem_def, hkeys]
    cases hes : s.executorStates.get? e with
    | none =>
        rw [Dict.get?_eq_none_iff, ← hmem, ← Dict.get?_eq_none_iff] at hes
        rw [hes]
        exact .none
    | some es =>
        obtain ⟨es', hes'⟩ := (Dict.mem_iff_exists _ _).mp (hmem.mpr (Dict.mem_of_get? hes))
        rw [hes']
        have hmir := h.executors e es hes
        have hmir' := h'.executors e es' hes'
        refine .some ⟨?_, ?_, ?_⟩
        · rw [hmir.resident, hmir'.resident, hr]
        · rw [hmir.pending, hmir'.pending, hr]
        · have hhost : π'.host? r = π.host? r := by simp only [Placement.host?, hr]
          rw [hmir.tokens, hmir'.tokens, hhost]
          by_cases he : π.host? r = some e
          · rw [if_pos he, if_pos he]
            apply hsize
            rw [he]
            exact Option.some_ne_none e
          · rw [if_neg he, if_neg he]

theorem Aborted.complete {ids : List ReqId} (h : Refines s π) (ha : Aborted cfg s π ids s' π') :
    AbortComplete s ids s' := by
  refine ⟨fun r hr => forgotten_of_not_mem ha.refines ha.ledger (ha.gone r hr), ?_⟩
  intro r hr
  have hloc : π' r = π r ∨ r ∈ s.deferredRequestStates ∧ π' r = some .unscheduled := by
    cases hl : π r with
    | none => exact ha.admitted r hl
    | some l => exact Or.inl (ha.kept r hr l hl)
  rcases hloc with hloc | ⟨hd, hloc⟩
  · refine Or.inl (unmoved_of_location h ha.refines hloc ha.executorKeys fun hhost => ?_)
    obtain ⟨e, he⟩ := Option.ne_none_iff_exists'.mp hhost
    have he' : π'.host? r = some e := by
      simp only [Placement.host?, hloc]
      exact he
    obtain ⟨n, hn⟩ := Option.ne_none_iff_exists'.mp (ha.refines.size_ne_none_of_host he')
    obtain ⟨req, hreq, -⟩ := Option.map_eq_some_iff.mp hn
    simp only [size, hreq, ha.requests r req hreq]
  · obtain ⟨rs, hrs, hrep⟩ := ha.refines.represents hloc
    exact Or.inr ⟨hd, rs, hrs, hrep.status⟩

theorem abortable_iff (h : Refines s π) (arg : RequestIds) :
    Abortable s π arg ↔ ((∃ rs, arg = .many rs) ∨ s.deferredRequests = []) ∧
      ∀ r ∈ arg.ids, ∀ rs, s.requestStates.get? r = some rs → rs.isRunning = true := by
  apply and_congr_right
  intro _
  constructor
  · intro hrun r hr rs hrs
    obtain ⟨l, hl, hrep⟩ := h.location hrs
    exact hrep.isRunning_iff.mpr (hrun r hr l hl)
  · intro hrun r hr l hl
    obtain ⟨rs, hrs, hrep⟩ := h.represents hl
    exact hrep.isRunning_iff.mp (hrun r hr rs hrs)

end Scheduler

namespace Calls

open Scheduler

variable {κ : Type} {cfg : Config κ} {t : Calls κ}

/-- In every state of every run, an abort completes exactly when the argument is a
collection, or nothing is deferred, and every id of it with a record is running. -/
theorem abort_completes_iff (h : Reachable cfg (fun _ _ => True) t) (arg : RequestIds)
    (clock : ReqId → ℚ) :
    (∃ s', t.scheduler.finishRequests cfg arg .finishedAborted clock = .ok s' ∧
      AbortComplete t.scheduler arg.ids s') ↔
    ((∃ rs, arg = .many rs) ∨ t.scheduler.deferredRequests = []) ∧
      ∀ r ∈ arg.ids, ∀ rs, t.scheduler.requestStates.get? r = some rs →
        rs.isRunning = true := by
  have hcon := Reachable.consistent h
  obtain ⟨π, hπ⟩ := hcon.refines
  have hfin := ensures_finishRequests clock hπ hcon.ledger (by rfl :
    RequestStatus.finishedAborted.isFinished = true) arg
  rw [← abortable_iff hπ]
  constructor
  · rintro ⟨s', hok, -⟩
    exact (ensures_of_ok hfin hok).1
  · intro hab
    obtain ⟨s', hok⟩ : ∃ s',
        t.scheduler.finishRequests cfg arg .finishedAborted clock = .ok s' := by
      cases hres : t.scheduler.finishRequests cfg arg .finishedAborted clock with
      | ok s' => exact ⟨s', rfl⟩
      | error err =>
          have hno := ensures_of_error hfin hres
          exact absurd hab hno
    obtain ⟨-, π', ha⟩ := ensures_of_ok hfin hok
    exact ⟨s', hok, ha.complete hπ⟩

/-- An abort of a running request together with an id that nobody has used. -/
theorem abort_completes_small : ∃ t : Calls Unit,
    Reachable (Config.small true true none) (fun _ _ => True) t ∧
    (t.scheduler.requestStates.get? "a").map RequestState.isRunning = some true ∧
    ∃ s', t.scheduler.finishRequests (Config.small true true none) (.many ["a", "x"])
      .finishedAborted (fun _ => 0) = .ok s' ∧
      AbortComplete t.scheduler ["a", "x"] s' := by
  obtain ⟨t, hreach, ha, hx⟩ := exists_of_ensures
    (reachable_of_replay (Config.small true true none) Transition.allows_any [(0, [0])]
      [.addRequest (Request.small "a"), .schedule .still])
    (Q := fun t =>
      (t.scheduler.requestStates.get? "a").map RequestState.isRunning = some true ∧
      t.scheduler.requestStates.get? "x" = none) (by decide +kernel)
  refine ⟨t, hreach, ha, (abort_completes_iff hreach (.many ["a", "x"]) _).mpr ⟨?_, ?_⟩⟩
  · exact Or.inl ⟨_, rfl⟩
  · intro r hr rs hrs
    have hmem : r = "a" ∨ r = "x" := by simpa using (show r ∈ ["a", "x"] from hr)
    rcases hmem with rfl | rfl
    · rw [hrs] at ha
      exact Option.some.inj ha
    · rw [hrs] at hx
      cases hx

/-- Three aborts that raise: of a request that waits for its first round, of one that
is pending on a busy executor, and of a single running id while another is deferred. -/
theorem abort_raises :
    (∃ t : Calls Unit, Reachable (Config.small true true none) (fun _ _ => True) t ∧
      (t.scheduler.requestStates.get? "a").map RequestState.status = some .unscheduled ∧
      (t.scheduler.finishRequests (Config.small true true none) (.many ["a"])
        .finishedAborted (fun _ => 0)).Ensures (fun err => err = .assertion) fun _ => False) ∧
    (∃ t : Calls Unit, Reachable (Config.small true true none) (fun _ _ => True) t ∧
      (t.scheduler.requestStates.get? "d").map RequestState.status = some .scheduled ∧
      (t.scheduler.finishRequests (Config.small true true none) (.many ["d"])
        .finishedAborted (fun _ => 0)).Ensures (fun err => err = .assertion) fun _ => False) ∧
    ∃ t : Calls Unit, Reachable (Config.small true true (some 1)) (fun _ _ => True) t ∧
      (t.scheduler.requestStates.get? "a").map RequestState.isRunning = some true ∧
      t.scheduler.deferredRequestStates.keys = ["b"] ∧
      (t.scheduler.finishRequests (Config.small true true (some 1)) (.single "a")
        .finishedAborted (fun _ => 0)).Ensures (fun err => err = .attribute) fun _ => False := by
  refine ⟨?_, ?_, ?_⟩
  · exact exists_of_ensures
      (reachable_of_replay (Config.small true true none) Transition.allows_any [(0, [0])]
        [.addRequest (Request.small "a")]) (by decide +kernel)
  · exact exists_of_ensures
      (reachable_of_replay (Config.small true true none) Transition.allows_any [(0, [0]), (1, [1])]
        [.addRequest (Request.small "a"), .schedule .still, .addRequest (Request.small "b"),
          .addRequest (Request.small "c"), .addRequest (Request.small "d"), .schedule .still])
      (by decide +kernel)
  · exact exists_of_ensures
      (reachable_of_replay (Config.small true true (some 1)) Transition.allows_any [(0, [0])]
        [.addRequest (Request.small "a"), .schedule .still, .addRequest (Request.small "b")])
      (by decide +kernel)

end Calls

end TeDiServe

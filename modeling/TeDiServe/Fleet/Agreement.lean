import TeDiServe.Fleet.Run

/-!
# Scheduler and workers agree

With unique ids a request that an executor is to free never comes back, so a message frees no
request that it schedules. Then the worker of an executor knows what a message takes for
granted, and when it has applied the message it has exactly the requests that are on the
executor. It fails to do so only if its arrays are too small.
-/

namespace TeDiServe

namespace Calls

open Scheduler

variable {κ : Type} {cfg : Config κ} {t t' : Calls κ} {c : Call} {π π' : Placement}

/-! ## What is to be freed -/

/-- A call adds only requests that end with it to those that are to be freed later. -/
theorem Effect.freed {e : ExecutorId} {r : ReqId} (he : Effect cfg t π c t' π')
    (hkey : t.scheduler.executorsManager.Keyed) (hr : r ∈ t'.freeOn e) :
    r ∈ t.freeOn e ∨ π r = some (.running e) ∧ π' r = none := by
  cases he with
  | addRequest refines ledger extends_ enrolled requests dropped deferred =>
      rw [freeOn, enrolled.freeReqIds] at hr
      exact Or.inl hr
  | @schedule env s outs p π₁ _ readied returned course loop =>
      left
      obtain ⟨s₀, π₀, s₁, hcourse⟩ := course
      obtain ⟨hr, hnot⟩ := (returned.issued.free e r).mp hr
      rcases hcourse.free_of_mem hkey hr with hr | ⟨hrun, hmoved⟩
      · exact hr
      · -- a request is moved away only from an executor that gets a message
        have hbusy : e ∉ p.found := fun hfound => by simpa using hnot hfound
        exact absurd ((readied.busy r e hbusy).mpr hrun) hmoved
  | manager management keyed next_eq => exact Or.inl hr
  | finishExecution flight keyed set_eq => exact Or.inl hr
  | updateFromOutput flight apply_eq visited applied progressed keyed set_eq =>
      exact (applied.free e r).mp hr
  | finishRequests finish_eq finished abortable aborted =>
      exact ((aborted.free e r).mp hr).imp_right fun h => ⟨h.2, aborted.none_of_mem h.1⟩
  | refreshEstimates soft =>
      rw [freeOn, soft.freeReqIds] at hr
      exact Or.inl hr
  | controlLoad inRange minInRange => exact Or.inl hr

/-- Requests that are to be freed have ended, and no message frees a request that it
schedules. -/
structure Spent (t : Calls κ) : Prop where
  ended : ∀ e r, r ∈ t.freeOn e → r ∉ t.scheduler.requests ∧ r ∈ t.usedReqIds
  apart : ∀ e f, t.inFlight.get? e = some f → ∀ r ∈ f.message.freeReqIds,
    r ∉ f.message.numScheduledTokens

/-- A message frees requests that have ended and requests that it takes away. -/
theorem Spent.message {env : ScheduleEnv} {s s₀ s₁ : Scheduler κ} {p : Plan κ}
    {π₀ π₁ π₂ : Placement} {outs : Dict ExecutorId SchedulerOutput} (h : Spent t)
    (hr : Readied cfg t.scheduler π p π₁ π₂) (hret : Returned cfg t.scheduler p π₁ π₂ s outs)
    (hcourse : Course cfg env t.scheduler π s₀ π₀ s₁ π₁ p π₂)
    (hkey : t.scheduler.executorsManager.Keyed) {e : ExecutorId} {out : SchedulerOutput}
    (hout : outs.get? e = some out) : ∀ r ∈ out.freeReqIds, r ∉ out.numScheduledTokens := by
  intro r hfree hmem
  obtain ⟨-, -, hfor, hclear⟩ := hret.issued.sent e out hout
  have hrun := (hfor.tokens r).mp hmem
  rcases hcourse.free_of_mem hkey ((hclear r).mp hfree) with hfree | ⟨-, hmoved⟩
  · obtain ⟨req, hreq, -⟩ := (hret.issued.framed.refines hr.refines).request hrun
    obtain ⟨req₀, hreq₀, -⟩ := hret.exists_request hr hreq
    exact (h.ended e r hfree).1 (Dict.mem_of_get? hreq₀)
  · exact hmoved hrun

theorem Effect.spent (he : Effect cfg t π c t' π') (hq : Quiet t) (hq' : Quiet t')
    (hc : Consistent cfg t) (hc' : Consistent cfg t') (hπ : Refines t.scheduler π)
    (hπ' : Refines t'.scheduler π') (hu : t.UniqueIds c) (hn : Noted t) (h : Spent t) :
    Spent t' := by
  constructor
  · intro e r hr
    have hused : ∀ r ∈ t.usedReqIds, r ∈ t'.usedReqIds := by
      intro r hr
      rw [he.usedReqIds]
      split
      · exact List.mem_cons_of_mem _ hr
      · exact hr
    rcases he.freed hc.keyed hr with hr | ⟨hrun, hnone⟩
    · obtain ⟨hgone, hid⟩ := h.ended e r hr
      refine ⟨fun hmem => ?_, hused r hid⟩
      obtain ⟨req, hreq⟩ := (Dict.mem_iff_exists _ _).mp hmem
      rcases he.origin hreq with ⟨req₀, hreq₀, -⟩ | ⟨rfl, rfl⟩
      · exact hgone (Dict.mem_of_get? hreq₀)
      · exact hu hid
    · obtain ⟨req, hreq, -⟩ := hπ.request hrun
      refine ⟨fun hmem => ?_, hused r (hn.known r (Dict.mem_of_get? hreq))⟩
      obtain ⟨l, hl⟩ := hq'.exists_location hc' hπ' hmem
      rw [hnone] at hl
      cases hl
  · intro e f hf
    cases he with
    | addRequest refines ledger extends_ enrolled requests dropped deferred => exact h.apart e f hf
    | @schedule env s outs p π₁ _ readied returned course loop =>
        dsimp only at hf
        rw [flush_of_quiet (by
          rw [returned.issued.framed.droppedDeferredRequests, (readied.quiet hq.1).2, hq.2]),
          get?_dispatch] at hf
        cases hout : outs.get? e with
        | none =>
            rw [hout] at hf
            exact h.apart e f hf
        | some out =>
            rw [hout] at hf
            cases hf
            obtain ⟨s₀, π₀, s₁, hcourse⟩ := course
            exact h.message readied returned hcourse hc.keyed hout
    | manager management keyed next_eq => exact h.apart e f hf
    | @finishExecution e₀ res f₀ m flight keyed set_eq =>
        dsimp only at hf
        rw [Dict.get?_set] at hf
        split_ifs at hf with hee
        · cases hf
          exact h.apart e f₀ (hee ▸ flight)
        · exact h.apart e f hf
    | updateFromOutput flight apply_eq visited applied progressed keyed set_eq =>
        dsimp only at hf
        rw [Dict.get?_erase] at hf
        split_ifs at hf
        exact h.apart e f hf
    | finishRequests finish_eq finished abortable aborted => exact h.apart e f hf
    | refreshEstimates soft => exact h.apart e f hf
    | controlLoad inRange minInRange => exact h.apart e f hf

theorem Reachable.spent (hdefer : cfg.maxNumUnfinishedRequests = none)
    (h : Reachable cfg UniqueIds t) : Spent t := by
  apply h.invariant
  · intro t ht
    obtain ⟨launches, m, s, hm, hs, rfl⟩ := ht
    obtain ⟨-, -, -, -, -, hless⟩ := ensures_of_ok (ensures_updateExecutors
      (refines_empty m) (ledger_empty cfg m) (keyed_of_launches hm)) hs
    refine ⟨fun e r hr => ?_, fun e f hf => by cases hf⟩
    exact absurd (hless e r hr) (OrderedSet.not_mem_empty r)
  · intro t c t' hr ht hstep
    have hc := Reachable.consistent hr
    have hr' : Reachable cfg UniqueIds t' := .next hr hstep
    have hc' := Reachable.consistent hr'
    obtain ⟨π, π', hπ, he⟩ := hc.effect hstep
    exact he.spent (Reachable.quiet hdefer hr) (Reachable.quiet hdefer hr') hc hc' hπ
      (Effect.consistent hc hπ he).2 hstep.2.1 (Reachable.noted hdefer hr) ht

end Calls

/-! ## Messages -/

/-- The message is for the requests on the executor `e`: it schedules them, each of them is
new or cached, and it frees none of them. -/
structure SchedulerOutput.Addresses {κ : Type} (out : SchedulerOutput) (s : Scheduler κ)
    (e : ExecutorId) : Prop where
  scheduled : ∀ r, r ∈ out.numScheduledTokens ↔ s.ResidentOn e r
  thresholds : ∀ r, r ∈ out.confidenceThresholds ↔ s.ResidentOn e r
  starts : ∀ r, r ∈ out.execStartPos ↔ s.ResidentOn e r
  listed : ∀ r, s.ResidentOn e r ↔
    r ∈ out.scheduledNewReqs.map NewRequestData.reqId ++ out.scheduledCachedReqs.reqIds
  nodup : (out.scheduledNewReqs.map NewRequestData.reqId ++ out.scheduledCachedReqs.reqIds).Nodup
  free : ∀ r ∈ out.freeReqIds, ¬s.ResidentOn e r

structure Runner.Has (x : Runner) (msg : SchedulerOutput) : Prop where
  requests : ∀ r, r ∈ x.requests ↔ r ∈ msg.numScheduledTokens
  rows : ∀ r, r ∈ x.inputBatch.slots.rows.map Prod.fst ↔ r ∈ msg.numScheduledTokens

theorem Runner.Followed.has {w : WorkerConfig} {x x' : Runner} {msg : SchedulerOutput}
    (h : Followed w x msg x') : x'.Has msg := by
  refine ⟨h.scheduled, fun r => ?_⟩
  rw [← h.scheduled r, List.mem_map, Dict.mem_iff_exists]
  constructor
  · rintro ⟨⟨r', row⟩, hmem, rfl⟩
    obtain ⟨st, hst, -⟩ := h.synced.of_mem_rows hmem
    exact ⟨st, hst⟩
  · rintro ⟨st, hst⟩
    obtain ⟨i, -, hrow⟩ := h.synced.exists_row hst
    exact ⟨_, List.mem_of_getElem? hrow, rfl⟩

namespace Fleet

open Scheduler

variable {κ : Type} {cfg : Config κ} {w : WorkerConfig} {f : Fleet κ Runner}

theorem addresses_of_schedule (hdefer : cfg.maxNumUnfinishedRequests = none) {t : Calls κ}
    (h : Calls.Reachable cfg Calls.UniqueIds t) {env : ScheduleEnv} {s' : Scheduler κ}
    {outs : Dict ExecutorId SchedulerOutput} (hs : t.scheduler.schedule cfg env = .ok (s', outs))
    {e : ExecutorId} {out : SchedulerOutput} (hout : outs.get? e = some out) :
    out.Addresses s' e := by
  have hcons := Calls.Reachable.consistent h
  have hq := Calls.Reachable.quiet hdefer h
  obtain ⟨π, hπ⟩ := hcons.refines
  obtain ⟨p, π₁, π₂, outs', hp, hr, hflush, ⟨s₀, π₀, s₁, hcourse⟩, -⟩ :=
    ensures_of_ok (ensures_schedule_course env hπ hcons.ledger hcons.keyed) hs
  dsimp only at hr hflush
  rw [hflush, flush_of_quiet (by
    rw [hr.issued.framed.droppedDeferredRequests, (hp.quiet hq.1).2, hq.2])] at hout
  have hfor := (hr.issued.sent e out hout).2.2.1
  have hon : ∀ r, s'.ResidentOn e r ↔ π₂ r = some (.running e) := fun r =>
    (hr.issued.framed.refines hp.refines).residentOn_iff
  refine ⟨fun r => (hfor.tokens r).trans (hon r).symm,
    fun r => (hfor.thresholds r).trans (hon r).symm, fun r => (hfor.starts r).trans (hon r).symm,
    ?_, ?_, ?_⟩
  · intro r
    rw [hon, List.mem_append, hfor.new, hfor.cached]
    tauto
  · rw [List.nodup_append']
    refine ⟨hfor.nodupNew, hfor.nodupCached, fun r hnew hcached => ?_⟩
    exact ((hfor.new r).mp hnew).2 ((hfor.cached r).mp hcached).2
  · intro r hfree hres
    exact (Calls.Reachable.spent hdefer h).message hp hr hcourse hcons.keyed hout r hfree
      ((hfor.tokens r).mpr ((hon r).mp hres))

/-- With unique ids, in every state of every run: what is sent to an executor is for the
requests on it; of a message in flight the worker knows the cached requests, and of the
requests that it has the message frees those that it does not schedule. When it has applied
the message it has the scheduled requests, which it can exactly if they go into its arrays. -/
theorem scheduler_and_workers_agree (hdefer : cfg.maxNumUnfinishedRequests = none)
    (h : Reachable cfg (Crew.runners w) (Calling Calls.UniqueIds) f) :
    (∀ env s' outs, f.calls.scheduler.schedule cfg env = .ok (s', outs) →
      ∀ e out, outs.get? e = some out → out.Addresses s' e) ∧
    ∀ e msg, f.calls.inFlight.get? e = some ⟨msg, none⟩ →
      (∀ r ∈ msg.scheduledCachedReqs.reqIds, r ∈ (f.worker (Crew.runners w) e).requests) ∧
      (∀ r ∈ (f.worker (Crew.runners w) e).requests,
        r ∈ msg.freeReqIds ↔ r ∉ msg.numScheduledTokens) ∧
      ((∃ x', (f.worker (Crew.runners w) e).updateStates w msg = .ok x' ∧ x'.Has msg) ↔
        msg.GoesInto w) := by
  have hcalls : ∀ {f : Fleet κ Runner}, Reachable cfg (Crew.runners w) (Calling Calls.UniqueIds) f →
      Calls.Reachable cfg Calls.UniqueIds f.calls := fun hf =>
    Reachable.calls hf (fun _ _ _ _ hc => hc) fun _ _ _ => trivial
  refine ⟨fun env s' outs hs e out hout => addresses_of_schedule hdefer (hcalls h) hs hout, ?_⟩
  intro e msg hmsg
  obtain ⟨π, hπ⟩ := (Calls.Reachable.consistent (hcalls h)).refines
  have hagrees : Agrees cfg w f π := Reachable.agrees hdefer
    (fun f c hf _ hc => (Calls.Reachable.noted hdefer (hcalls hf)).notInFlight hc) h hπ
  have hlive := (Calls.Reachable.manned hdefer (hcalls h)).live hmsg
  have hfollows := hagrees.follows e hlive
  obtain ⟨hsuits, snap, hsnap, -⟩ := hfollows.sent msg hmsg
  refine ⟨fun r hr => (hsuits.cached r hr).1, ?_, ?_⟩
  · intro r hr
    constructor
    · exact (Calls.Reachable.spent hdefer (hcalls h)).apart e _ hmsg r
    · intro hnot
      refine (hsuits.rest r hr).resolve_right fun hcached => hnot ?_
      exact (hsuits.scheduled r).mpr (Or.inr hcached)
  · obtain ⟨ys, hys⟩ := hsnap.repeats.exists_entries
    have hupd := hfollows.synced.ensures_updateStates hsuits hys
    constructor
    · rintro ⟨x', hx', -⟩
      exact (ensures_of_ok hupd hx').1
    · intro hinto
      obtain ⟨x', hx', -, hfollowed⟩ := (hupd.mono (fun _ hno => hno hinto) fun _ h => h).exists_ok
      exact ⟨x', hx', hfollowed.has⟩

def uniqueIds? {ω : Type} (f : Fleet κ ω) : FleetEvent → Bool
  | .call c => f.calls.uniqueIds? c
  | .execute _ _ => true

theorem uniqueIds_of_uniqueIds? {ω : Type} (f : Fleet κ ω) (ev : FleetEvent)
    (h : f.uniqueIds? ev = true) : Calling Calls.UniqueIds f ev := by
  cases ev with
  | call c => exact Calls.uniqueIds_of_uniqueIds? f.calls c h
  | execute e predict => trivial

/-- After a step one of two requests is aborted, and the worker is told to free it. -/
theorem scheduler_and_workers_agree_small : ∃ (f : Fleet Unit Runner) (msg : SchedulerOutput)
    (x' : Runner), Reachable (Config.small true true none) (Crew.runners ⟨2, 8, 0⟩)
      (Calling Calls.UniqueIds) f ∧
    f.calls.inFlight.get? 0 = some ⟨msg, none⟩ ∧ msg.freeReqIds.items = ["a"] ∧
    "a" ∈ (f.worker (Crew.runners ⟨2, 8, 0⟩) 0).requests ∧
    (f.worker (Crew.runners ⟨2, 8, 0⟩) 0).updateStates ⟨2, 8, 0⟩ msg = .ok x' ∧ x'.Has msg := by
  obtain ⟨⟨f, _⟩, hwatched, ⟨msg, _⟩, hmsg, rfl, hfree, hrows, hnew, hhas⟩ := exists_of_ensures
    (reachable_of_replay (Config.small true true none) (Crew.runners ⟨2, 8, 0⟩)
      uniqueIds_of_uniqueIds? (fun _ _ _ g => g) () [(0, [0])]
      [.call (.addRequest (Request.small "a")), .call (.addRequest (Request.small "b")),
        .call (.schedule .still), .call (.startExecution 0), .execute 0 fun _ _ => (7, 1),
        .call (.updateFromOutput 0),
        .call (.finishRequests (.single "a") .finishedAborted fun _ => 0),
        .call (.schedule .still)])
    (Q := fun y =>
      ∃ flight ∈ y.1.calls.inFlight.get? 0, flight.result = none ∧
      flight.message.freeReqIds.items = ["a"] ∧
      flight.message.numScheduledTokens.keys.length ≤ 2 ∧
      flight.message.scheduledNewReqs.isEmpty = true ∧
      "a" ∈ (y.1.worker (Crew.runners ⟨2, 8, 0⟩) 0).requests) (by decide +kernel)
  have hreach : Reachable (Config.small true true none) (Crew.runners ⟨2, 8, 0⟩)
      (Calling Calls.UniqueIds) f := Transition.Reachable.of_watched hwatched
  have hinto : msg.GoesInto ⟨2, 8, 0⟩ := by
    refine ⟨hrows, fun d hd => ?_⟩
    rw [List.isEmpty_iff.mp hnew] at hd
    cases hd
  obtain ⟨x', hx', hhas'⟩ := ((scheduler_and_workers_agree rfl hreach).2 0 msg hmsg).2.2.mpr hinto
  exact ⟨f, msg, x', hreach, hmsg, hfree, hhas, hx', hhas'⟩

/-- Three requests are sent to a worker with two rows, which fails to apply the message. -/
theorem worker_without_rows : ∃ (f : Fleet Unit Runner) (msg : SchedulerOutput),
    Reachable (Config.small true true none) (Crew.runners ⟨2, 8, 0⟩) (Calling Calls.UniqueIds) f ∧
    f.calls.inFlight.get? 0 = some ⟨msg, none⟩ ∧
    msg.numScheduledTokens.keys = ["a", "b", "c"] ∧
    (f.worker (Crew.runners ⟨2, 8, 0⟩) 0).updateStates ⟨2, 8, 0⟩ msg = .error .assertion := by
  obtain ⟨⟨f, _⟩, hwatched, ⟨msg, _⟩, hmsg, rfl, hkeys, hupd⟩ := exists_of_ensures
    (reachable_of_replay (Config.small true true none) (Crew.runners ⟨2, 8, 0⟩)
      uniqueIds_of_uniqueIds? (fun _ _ _ g => g) () [(0, [0])]
      [.call (.addRequest (Request.small "a")), .call (.addRequest (Request.small "b")),
        .call (.addRequest (Request.small "c")), .call (.schedule .still)])
    (Q := fun y => ∃ flight ∈ y.1.calls.inFlight.get? 0, flight.result = none ∧
      flight.message.numScheduledTokens.keys = ["a", "b", "c"] ∧
      ((y.1.worker (Crew.runners ⟨2, 8, 0⟩) 0).updateStates ⟨2, 8, 0⟩ flight.message).Ensures
        (fun err => err = .assertion) fun _ => False) (by decide +kernel)
  have hreach : Reachable (Config.small true true none) (Crew.runners ⟨2, 8, 0⟩)
      (Calling Calls.UniqueIds) f := Transition.Reachable.of_watched hwatched
  obtain ⟨err, herr, rfl⟩ := Except.Ensures.exists_error hupd
  exact ⟨f, msg, hreach, hmsg, hkeys, herr⟩

end Fleet

end TeDiServe

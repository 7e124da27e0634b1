import TeDiServe.Fleet.Basic

/-!
# What a call means for one executor

A worker only sees the messages for its executor. So what a call does is told here from the
side of one executor: either nothing is sent to it or received from it, and then it may only
lose requests, which are to be freed; or a message is sent to it; or the result of its message
is applied.
-/

namespace TeDiServe

/-- The message depends on the placement before only by which requests were on the executor. -/
theorem OutputFor.of_resident {κ : Type} {cfg : Config κ} {requests : Dict ReqId Request}
    {π π₁ π₂ : Placement} {e : ExecutorId} {out : SchedulerOutput}
    (h : OutputFor cfg requests π₁ π₂ e out)
    (hπ : ∀ r, π₁ r = some (.running e) ↔ π r = some (.running e)) :
    OutputFor cfg requests π π₂ e out := by
  refine ⟨h.tokens, h.starts, h.thresholds, h.nodupNew, ?_, h.nodupCached, ?_, h.repeats, ?_⟩
  · intro r
    rw [h.new r, Ne, hπ]
  · intro r
    rw [h.cached r, hπ]
  · intro r req hr hreq
    have hsteps := h.steps r req hr hreq
    simp only [hπ] at hsteps
    exact hsteps

namespace Calls

open Scheduler

variable {κ : Type} {cfg : Config κ} {t t' : Calls κ} {c : Call} {π π' : Placement}
  {e : ExecutorId} {r : ReqId}

def Live (t : Calls κ) (e : ExecutorId) : Prop :=
  isGone t.scheduler.executorsManager e = false

def freeOn (t : Calls κ) (e : ExecutorId) : OrderedSet ReqId :=
  t.scheduler.freeReqIds.getD e OrderedSet.empty

def InFlightTo (t : Calls κ) (e : ExecutorId) (r : ReqId) : Prop :=
  ∃ f, t.inFlight.get? e = some f ∧ r ∈ f.message.numScheduledTokens

def SameProgress (t t' : Calls κ) (r : ReqId) : Prop :=
  ∀ req', t'.scheduler.requests.get? r = some req' → ∃ req,
    t.scheduler.requests.get? r = some req ∧ req'.progress = req.progress

/-- The executor gets no request, and those that leave it are to be freed. -/
structure Drifts (t : Calls κ) (π : Placement) (t' : Calls κ) (π' : Placement) (e : ExecutorId) :
    Prop where
  resident : ∀ r, π' r = some (.running e) → π r = some (.running e)
  left : ∀ r, π r = some (.running e) → π' r = some (.running e) ∨ r ∈ t'.freeOn e
  free : ∀ r, r ∈ t.freeOn e → r ∈ t'.freeOn e
  freed : ∀ r, r ∈ t'.freeOn e → r ∈ t.freeOn e ∨ π' r ≠ some (.running e)

/-- Nothing is sent to the executor or received from it. -/
structure Kept (t : Calls κ) (π : Placement) (t' : Calls κ) (π' : Placement) (e : ExecutorId) :
    Prop extends Drifts t π t' π' e where
  flight : t'.inFlight.get? e = t.inFlight.get? e
  same : ∀ r, π r = some (.running e) ∨ t.InFlightTo e r → SameProgress t t' r

structure SentTo (cfg : Config κ) (t : Calls κ) (π : Placement) (t' : Calls κ) (π' : Placement)
    (e : ExecutorId) (msg : SchedulerOutput) : Prop where
  idle : t.inFlight.get? e = none
  flight : t'.inFlight.get? e = some ⟨msg, none⟩
  output : OutputFor cfg t'.scheduler.requests π π' e msg
  free : ∀ r, r ∈ msg.freeReqIds ↔
    r ∈ t.freeOn e ∨ π r = some (.running e) ∧ π' r ≠ some (.running e)
  cleared : ∀ r, r ∉ t'.freeOn e
  same : ∀ r, SameProgress t t' r
  total : msg.totalNumScheduledTokens ≠ 0 → ∃ r, r ∈ msg.numScheduledTokens

structure AppliedOn (t : Calls κ) (π : Placement) (t' : Calls κ) (π' : Placement)
    (e : ExecutorId) (msg : SchedulerOutput) (res : ModelRunnerOutput) : Prop
    extends Drifts t π t' π' e where
  flight : t.inFlight.get? e = some ⟨msg, some res⟩
  idle : t'.inFlight.get? e = none
  stepped : ∀ r ∈ msg.numScheduledTokens, ∀ req, t.scheduler.requests.get? r = some req →
    ∃ tokenIds y, res.tokensOf r = some tokenIds ∧
      ({ req with isInExecution := false } : Request).afterStep tokenIds = .ok y ∧
      t'.scheduler.requests.get? r = if y.2 then none else some y.1
  others : ∀ r ∉ msg.numScheduledTokens,
    t'.scheduler.requests.get? r = t.scheduler.requests.get? r

theorem SameProgress.of_eq
    (h : t'.scheduler.requests.get? r = t.scheduler.requests.get? r) : SameProgress t t' r :=
  fun req' hreq' => ⟨req', h ▸ hreq', rfl⟩

theorem Kept.of_same (hπ : ∀ r, π' r = some (.running e) ↔ π r = some (.running e))
    (hfree : t'.scheduler.freeReqIds = t.scheduler.freeReqIds)
    (hflight : t'.inFlight.get? e = t.inFlight.get? e)
    (hsame : ∀ r, π r = some (.running e) ∨ t.InFlightTo e r → SameProgress t t' r) :
    Kept t π t' π' e := by
  have hon : t'.freeOn e = t.freeOn e := by rw [freeOn, hfree, freeOn]
  refine ⟨⟨fun r => (hπ r).mp, fun r hr => Or.inl ((hπ r).mpr hr), ?_, ?_⟩, hflight, hsame⟩
  · intro r hr
    rwa [hon]
  · intro r hr
    rw [hon] at hr
    exact Or.inl hr

section Schedule

variable {s : Scheduler κ} {outs : Dict ExecutorId SchedulerOutput} {p : Plan κ}
  {π₁ π₂ : Placement} (hr : Readied cfg t.scheduler π p π₁ π₂)
  (hret : Returned cfg t.scheduler p π₁ π₂ s outs) (hlive : t.Live e)
include hr hret hlive

omit hret in
theorem resident_iff_of_live (r : ReqId) :
    π₁ r = some (.running e) ↔ π r = some (.running e) := by
  rw [hr.resident]
  exact and_iff_left hlive

/-- The executors that are not idle do not take part in a round. -/
theorem Kept.of_busy (hbusy : e ∉ p.found) (d : Dict ExecutorId Flight)
    (hd : d.get? e = t.inFlight.get? e) :
    Kept t π { t with scheduler := s, inFlight := d } π₂ e := by
  have hπ : ∀ r, π₂ r = some (.running e) ↔ π r = some (.running e) := fun r =>
    (hr.busy r e hbusy).trans (resident_iff_of_live hr hlive r)
  have hfree : ∀ r, r ∈ s.freeReqIds.getD e OrderedSet.empty ↔ r ∈ t.freeOn e := by
    intro r
    rw [hret.issued.free, hr.free e ((hr.recorded e).mpr hlive)]
    constructor
    · rintro ⟨hfree | ⟨hrun, hnot⟩, -⟩
      · exact hfree
      · exact absurd ((hr.busy r e hbusy).mpr hrun) hnot
    · exact fun hfree => ⟨Or.inl hfree, fun he => absurd he hbusy⟩
  refine ⟨⟨fun r => (hπ r).mp, fun r hrun => Or.inl ((hπ r).mpr hrun), fun r => (hfree r).mpr, ?_⟩,
    hd, fun r _ req' hreq' => hret.exists_request hr hreq'⟩
  exact fun r hin => Or.inl ((hfree r).mp hin)

theorem Kept.of_skipped (hidle : t.inFlight.get? e = none) (hfound : e ∈ p.found)
    (hout : e ∉ outs) (d : Dict ExecutorId Flight) (hd : d.get? e = none) :
    Kept t π { t with scheduler := s, inFlight := d } π₂ e := by
  obtain ⟨hnone, hclear⟩ := hret.issued.skipped e hfound (by simp) hout
  have hfree := hr.free e ((hr.recorded e).mpr hlive)
  have hno : ∀ r, π r ≠ some (.running e) := by
    intro r hrun
    exact hclear r ((hfree r).mpr
      (Or.inr ⟨(resident_iff_of_live hr hlive r).mpr hrun, hnone r⟩))
  refine ⟨⟨fun r hrun => absurd hrun (hnone r), fun r hrun => absurd hrun (hno r), ?_, ?_⟩,
    hd.trans hidle.symm, fun r _ req' hreq' => hret.exists_request hr hreq'⟩
  · exact fun r hin => absurd ((hfree r).mpr (Or.inl hin)) (hclear r)
  · exact fun r hin => absurd ((hret.issued.free e r).mp hin).1 (hclear r)

theorem SentTo.of_issued {env : ScheduleEnv} {out : SchedulerOutput}
    (hloop : p.found.foldlM (issue cfg env p.idleNotAcceptingExecutors p.tables)
      (p.scheduler, Dict.empty) = .ok (s, outs))
    (hidle : t.inFlight.get? e = none) (hout : outs.get? e = some out)
    (d : Dict ExecutorId Flight) (hd : d.get? e = some ⟨out, none⟩) :
    SentTo cfg t π { t with scheduler := s, inFlight := d } π₂ e out := by
  obtain ⟨hfound, -, hfor, hfree⟩ := hret.issued.sent e out hout
  have hresident := resident_iff_of_live hr hlive
  refine ⟨hidle, hd, (hfor.of_progress hret.issued.framed.requests).of_resident hresident, ?_, ?_,
    fun r req' hreq' => hret.exists_request hr hreq', ?_⟩
  · intro r
    rw [hfree, hr.free e ((hr.recorded e).mpr hlive), hresident]
    rfl
  · intro r hin
    exact absurd (((hret.issued.free e r).mp hin).2 hfound) (by simp)
  · intro htotal
    have hsum := ensures_of_ok (ensures_issue_totals cfg env p.idleNotAcceptingExecutors
      p.tables p.found (p.scheduler, Dict.empty) fun _ _ hnone => by cases hnone) hloop
    by_contra hnone
    push Not at hnone
    rw [hsum e out hout] at htotal
    have hempty : out.numScheduledTokens.entries = [] :=
      List.eq_nil_iff_forall_not_mem.mpr fun y hy => hnone y.1
        (Dict.mem_of_get? (Dict.get?_of_mem_entries hy))
    rw [Dict.values, hempty] at htotal
    exact htotal rfl

end Schedule

theorem drifts_of_applied {s : Scheduler κ} {m : ExecutorsManager} {done : List ReqId}
    {d : Dict ExecutorId Flight}
    (h : Applied cfg { t.scheduler with droppedDeferredRequests := [] } π done s π')
    (e : ExecutorId) :
    Drifts t π { t with scheduler := { s with executorsManager := m }, inFlight := d } π' e := by
  constructor
  · intro r hrun
    rcases h.placement r with hsame | ⟨-, hnone, -⟩
    · rw [← hsame, hrun]
    · rw [hnone] at hrun
      cases hrun
  · intro r hrun
    rcases h.placement r with hsame | ⟨-, hnone, -⟩
    · exact Or.inl (hsame.trans hrun)
    · exact Or.inr ((h.free e r).mpr (Or.inr ⟨hrun, hnone⟩))
  · exact fun r hin => (h.free e r).mpr (Or.inl hin)
  · intro r hin
    rcases (h.free e r).mp hin with hin | ⟨-, hnone⟩
    · exact Or.inl hin
    · exact Or.inr (by simp [hnone])

theorem AppliedOn.of_applied {s : Scheduler κ} {m : ExecutorsManager} {done : List ReqId}
    {msg : SchedulerOutput} {res : ModelRunnerOutput} {outs : List EngineCoreOutput}
    (flight : t.inFlight.get? e = some ⟨msg, some res⟩)
    (applied : Applied cfg { t.scheduler with droppedDeferredRequests := [] } π done s π')
    (progressed : Progressed res t.scheduler msg.numScheduledTokens.keys.reverse s outs) :
    AppliedOn t π { t with
      scheduler := { s with executorsManager := m }, inFlight := t.inFlight.erase e } π' e msg
      res := by
  refine ⟨drifts_of_applied applied e, flight, by simp, ?_, ?_⟩
  · exact fun r hr req hreq => progressed.stepped r (List.mem_reverse.mpr hr) req hreq
  · exact fun r hr => progressed.others r (Or.inl fun hc => hr (List.mem_reverse.mp hc))

theorem Effect.appliedOn (he : Effect cfg t π (.updateFromOutput e) t' π') :
    ∃ msg res, AppliedOn t π t' π' e msg res := by
  cases he with
  | manager management keyed next_eq => cases management
  | @updateFromOutput _ msg res s outs m done _ flight apply_eq visited applied progressed keyed
      set_eq => exact ⟨msg, res, .of_applied flight applied progressed⟩

/-- A call, seen from one executor. -/
theorem Effect.at_executor (he : Effect cfg t π c t' π') (hq : Quiet t) (hman : Manned t)
    (hb : Boarded t π) (hπ : Refines t.scheduler π) (hp : t.Possible cfg c)
    (hnew : t.NotInFlight c) (hlive : t.Live e) (hcall : ∀ e res, c ≠ .finishExecution e res) :
    Kept t π t' π' e ∨ (∃ msg, SentTo cfg t π t' π' e msg) ∨
      c = .updateFromOutput e ∧ ∃ msg res, AppliedOn t π t' π' e msg res := by
  cases he with
  | @addRequest req s _ refines ledger extends_ enrolled requests dropped deferred =>
      refine Or.inl (.of_same (fun r => extends_.eq_some_iff (by simp)) enrolled.freeReqIds rfl ?_)
      intro r hr
      have hne : r ≠ req.requestId := by
        rintro rfl
        rcases hr with hrun | ⟨f, hf, hmem⟩
        · obtain ⟨req₀, hreq₀, -⟩ := hπ.request hrun
          exact hp (Dict.mem_of_get? hreq₀)
        · exact hnew e f hf hmem
      apply SameProgress.of_eq
      dsimp only
      rw [requests, Dict.get?_set, if_neg hne]
  | @schedule env s outs p π₁ _ readied returned course loop schedule_eq =>
      rw [flush_of_quiet (s := s) (by
        rw [returned.issued.framed.droppedDeferredRequests, (readied.quiet hq.1).2, hq.2])]
      have hdispatch := get?_dispatch outs t.inFlight e
      cases hout : outs.get? e with
      | some out =>
          rw [hout] at hdispatch
          have hidle : t.inFlight.get? e = none := by
            cases hf : t.inFlight.get? e with
            | none => rfl
            | some f =>
                exact absurd (returned.issued.sent e out hout).1 (hman.not_mem_found readied hf)
          exact Or.inr (Or.inl ⟨out, .of_issued readied returned hlive loop hidle hout _ hdispatch⟩)
      | none =>
          rw [hout] at hdispatch
          left
          by_cases hfound : e ∈ p.found
          · have hidle : t.inFlight.get? e = none := by
              cases hf : t.inFlight.get? e with
              | none => rfl
              | some f => exact absurd hfound (hman.not_mem_found readied hf)
            exact .of_skipped readied returned hlive hidle hfound
              ((Dict.get?_eq_none_iff _ _).mp hout) _ (hdispatch.trans hidle)
          · exact .of_busy readied returned hlive hfound _ hdispatch
  | manager management keyed next_eq =>
      exact Or.inl (.of_same (fun _ => Iff.rfl) rfl rfl fun r _ => .of_eq rfl)
  | finishExecution flight keyed set_eq => exact absurd rfl (hcall _ _)
  | @updateFromOutput e₀ msg res s outs m done _ flight apply_eq visited applied progressed keyed
      set_eq =>
      have happ : AppliedOn t π _ π' e₀ msg res := .of_applied (m := m) flight applied progressed
      by_cases hee : e = e₀
      · subst hee
        exact Or.inr (Or.inr ⟨rfl, msg, res, happ⟩)
      · refine Or.inl ⟨drifts_of_applied applied e, by simp [Dict.get?_erase, hee], ?_⟩
        intro r hr
        by_cases hmem : r ∈ msg.numScheduledTokens
        · -- a known request of the message is on its executor, and so not on this one
          intro req' hreq'
          obtain ⟨req₀, hreq₀, -, -⟩ := applied.requests r req' hreq'
          have hrun := hb e₀ _ r flight hmem (Dict.mem_of_get? hreq₀)
          have hrun' : π r = some (.running e) := by
            rcases hr with hrun' | ⟨f, hf, hin⟩
            · exact hrun'
            · exact hb e f r hf hin (Dict.mem_of_get? hreq₀)
          rw [hrun, Option.some.injEq, Loc.running.injEq] at hrun'
          exact absurd hrun'.symm hee
        · exact .of_eq (happ.others r hmem)
  | @finishRequests arg status clock s _ finish_eq finished abortable aborted =>
      refine Or.inl ⟨⟨fun r hrun => (aborted.running_iff.mp hrun).1, ?_, ?_, ?_⟩, rfl, ?_⟩
      · intro r hrun
        by_cases hmem : r ∈ arg.ids
        · exact Or.inr ((aborted.free e r).mpr (Or.inr ⟨hmem, hrun⟩))
        · exact Or.inl (aborted.running_iff.mpr ⟨hrun, hmem⟩)
      · exact fun r hin => (aborted.free e r).mpr (Or.inl hin)
      · intro r hin
        rcases (aborted.free e r).mp hin with hin | ⟨hmem, -⟩
        · exact Or.inl hin
        · exact Or.inr fun hrun => (aborted.running_iff.mp hrun).2 hmem
      · exact fun r _ req' hreq' => ⟨req', aborted.requests r req' hreq', rfl⟩
  | refreshEstimates soft =>
      refine Or.inl (.of_same (fun _ => Iff.rfl) soft.freeReqIds rfl fun r _ => .of_eq ?_)
      dsimp only
      rw [soft.requests]
  | controlLoad inRange minInRange =>
      exact Or.inl (.of_same (fun _ => Iff.rfl) rfl rfl fun r _ => .of_eq rfl)

/-! ## Executors come and go -/

theorem live_iff : t.Live e ↔ ∃ st, t.scheduler.executorsManager.status? e = some st ∧
    st ≠ .killing := by
  unfold Live isGone
  cases t.scheduler.executorsManager.status? e with
  | none => simp
  | some st => simp

theorem Live.of_status (h : t'.Live e) (hst : t'.scheduler.executorsManager.status? e =
    t.scheduler.executorsManager.status? e) : t.Live e := by
  rw [live_iff] at h ⊢
  rwa [← hst]

theorem Manned.live (h : Manned t) {f : Flight} (hf : t.inFlight.get? e = some f) : t.Live e := by
  obtain ⟨st, hst, huse⟩ := h.inUse e f hf
  exact isGone_of_inUse hst huse

/-- The ids of executors stay noted, and only an executor with a new id comes to life. -/
theorem Effect.executors (he : Effect cfg t π c t' π') (hman : Manned t)
    (hkey : t.scheduler.executorsManager.Keyed) (hp : t.Possible cfg c) (e : ExecutorId) :
    (e ∈ t.scheduler.executorsManager.usedExecutorIds →
      e ∈ t'.scheduler.executorsManager.usedExecutorIds) ∧
    (t'.Live e → t.Live e ∨ e ∉ t.scheduler.executorsManager.usedExecutorIds ∧ π' = π ∧
      t'.inFlight = t.inFlight) := by
  have hsame : ∀ {s : Scheduler κ} {d : Dict ExecutorId Flight} {used : List ReqId},
      s.executorsManager = t.scheduler.executorsManager →
      (e ∈ t.scheduler.executorsManager.usedExecutorIds →
        e ∈ s.executorsManager.usedExecutorIds) ∧
      ((⟨s, d, used⟩ : Calls κ).Live e → t.Live e) := by
    intro s d used hs
    exact ⟨fun hused => hs ▸ hused, fun h => h.of_status (by dsimp only; rw [hs])⟩
  -- an executor whose status is set was live before, or is not afterwards
  have hset : ∀ {s : Scheduler κ} {d : Dict ExecutorId Flight} {used : List ReqId}
      {e₀ : ExecutorId} {st : ExecutorStatus} {m : ExecutorsManager},
      t.scheduler.executorsManager.setStatus e₀ st = .ok m → (t.Live e₀ ∨ st = .killing) →
      (e ∈ t.scheduler.executorsManager.usedExecutorIds → e ∈ m.usedExecutorIds) ∧
        ((⟨{ s with executorsManager := m }, d, used⟩ : Calls κ).Live e → t.Live e) := by
    intro s d used e₀ st m hm hlive
    obtain ⟨-, hids, hstatus, -, -⟩ :=
      ensures_of_ok (ExecutorsManager.ensures_setStatus _ e₀ st) hm
    refine ⟨fun hused => hids ▸ hused, fun h => ?_⟩
    by_cases hee : e = e₀
    · subst hee
      refine hlive.resolve_right ?_
      rintro rfl
      obtain ⟨st, hst, hne⟩ := live_iff.mp h
      dsimp only at hst
      rw [hstatus, if_pos rfl, Option.some.injEq] at hst
      exact hne hst.symm
    · exact h.of_status (by dsimp only; rw [hstatus, if_neg hee])
  cases he with
  | addRequest refines ledger extends_ enrolled requests dropped deferred =>
      exact (hsame enrolled.executorsManager).imp_right fun h hl => Or.inl (h hl)
  | @schedule env s outs p π₁ _ readied returned course loop =>
      refine ⟨fun hused => by dsimp only; rwa [returned.used], fun h => Or.inl ?_⟩
      by_cases hfound : e ∈ p.found
      · exact readied.isGone_of_found hfound
      · exact h.of_status (by dsimp only; rw [returned.status, if_neg hfound])
  | @manager c m management keyed next_eq =>
      have hof : ∀ {x : Except PyError ExecutorsManager},
          t.next cfg c = (x >>= fun m => pure (t.withManager m)) → x = .ok m := fun hx =>
        manager_of_next hx next_eq
      cases c with
      | addRequest _ | schedule _ | finishExecution _ _ | updateFromOutput _
        | finishRequests _ _ _ | refreshEstimates _ | controlLoad _ _ => cases management
      | startExecution e₀ =>
          have hlive : t.Live e₀ := live_iff.mpr ⟨_, hp.2, by decide⟩
          exact (hset (hof rfl) (Or.inl hlive)).imp_right fun h hl => Or.inl (h hl)
      | setKilling e₀ => exact (hset (hof rfl) (Or.inr rfl)).imp_right fun h hl => Or.inl (h hl)
      | launch e₀ bundleIds =>
          obtain ⟨-, hnew, hexec, hids, -⟩ :=
            ensures_of_ok (ExecutorsManager.ensures_launchExecutor hkey) (hof rfl)
          constructor
          · intro hused
            change e ∈ m.usedExecutorIds
            rw [hids, OrderedSet.mem_add]
            exact Or.inr hused
          · intro h
            by_cases hee : e = e₀
            · exact Or.inr ⟨hee ▸ hnew, rfl, rfl⟩
            · exact Or.inl (h.of_status (by
                simp [withManager, ExecutorsManager.status?, hexec, hee]))
      | announceKill e₀ =>
          obtain ⟨hexec, hids, -⟩ :=
            ensures_of_ok (ExecutorsManager.ensures_announceKill _ e₀) (hof rfl)
          constructor
          · intro hused
            change e ∈ m.usedExecutorIds
            rwa [hids]
          · exact fun h => Or.inl (h.of_status (by
              simp [withManager, ExecutorsManager.status?, hexec]))
      | remove e₀ =>
          have hm : t.scheduler.executorsManager.deleteExecutor e₀ = m := Except.ok.inj (hof rfl)
          subst hm
          refine ⟨fun hused => hused, fun h => Or.inl ?_⟩
          by_cases hee : e = e₀
          · obtain ⟨st, hst, -⟩ := live_iff.mp h
            simp [withManager, ExecutorsManager.status?, ExecutorsManager.deleteExecutor, hee]
              at hst
          · exact h.of_status (by simp [withManager, ExecutorsManager.status?,
              ExecutorsManager.deleteExecutor, hee])
  | finishExecution flight keyed set_eq =>
      exact (hset set_eq (Or.inl (hman.live flight))).imp_right fun h hl => Or.inl (h hl)
  | updateFromOutput flight apply_eq visited applied progressed keyed set_eq =>
      obtain ⟨st, hm⟩ := set_eq
      rw [applied.manager] at hm
      exact (hset hm (Or.inl (hman.live flight))).imp_right fun h hl => Or.inl (h hl)
  | finishRequests finish_eq finished abortable aborted =>
      exact (hsame aborted.manager).imp_right fun h hl => Or.inl (h hl)
  | refreshEstimates soft =>
      exact (hsame soft.executorsManager).imp_right fun h hl => Or.inl (h hl)
  | controlLoad inRange minInRange => exact (hsame rfl).imp_right fun h hl => Or.inl (h hl)

theorem Effect.mem_executorStates (he : Effect cfg t π c t' π')
    (hmem : e ∈ t'.scheduler.executorStates) : e ∈ t.scheduler.executorStates ∨ t.Live e := by
  cases he with
  | addRequest refines ledger extends_ enrolled requests dropped deferred =>
      exact Or.inl (enrolled.executorStates ▸ hmem)
  | schedule readied returned course loop =>
      dsimp only at hmem
      rw [returned.issued.framed.executorStates, readied.recorded] at hmem
      exact Or.inr hmem
  | manager management keyed next_eq => exact Or.inl hmem
  | finishExecution flight keyed set_eq => exact Or.inl hmem
  | updateFromOutput flight apply_eq visited applied progressed keyed set_eq =>
      rw [Dict.mem_def] at hmem ⊢
      exact Or.inl (applied.executorKeys ▸ hmem)
  | finishRequests finish_eq finished abortable aborted =>
      rw [Dict.mem_def] at hmem ⊢
      exact Or.inl (aborted.executorKeys ▸ hmem)
  | refreshEstimates soft => exact Or.inl (soft.framed.executorStates ▸ hmem)
  | controlLoad inRange minInRange => exact Or.inl hmem

theorem Effect.recorded (he : Effect cfg t π c t' π') (hman : Manned t)
    (hkey : t.scheduler.executorsManager.Keyed) (hp : t.Possible cfg c)
    (h : ∀ e ∈ t.scheduler.executorStates, e ∈ t.scheduler.executorsManager.usedExecutorIds) :
    ∀ e ∈ t'.scheduler.executorStates, e ∈ t'.scheduler.executorsManager.usedExecutorIds := by
  intro e hmem
  apply (he.executors hman hkey hp e).1
  rcases he.mem_executorStates hmem with hold | hlive
  · exact h e hold
  · obtain ⟨st, hst, -⟩ := live_iff.mp hlive
    exact hman.used e st hst

theorem Reachable.recorded {allowed : Calls κ → Call → Prop}
    (hdefer : cfg.maxNumUnfinishedRequests = none) (h : Reachable cfg allowed t) :
    ∀ e ∈ t.scheduler.executorStates, e ∈ t.scheduler.executorsManager.usedExecutorIds := by
  apply h.invariant
  · intro t ht e hmem
    obtain ⟨m, -, -, -, hsync, -, -⟩ := built_of_init ht
    obtain ⟨st, hst, -⟩ := (hsync e).mp hmem
    exact (manned_of_init ht).used e st hst
  · intro t c t' hr ht hstep
    have hcons := Reachable.consistent hr
    obtain ⟨π, π', -, he⟩ := hcons.effect hstep
    exact he.recorded (Reachable.manned hdefer hr) hcons.keyed hstep.1 ht

end Calls

end TeDiServe

import TeDiServe.Fleet.Follows

/-!
# Runs of a fleet

In every state of every run without deferral the workers of the executors that are there
follow the scheduler, and the requests are orderly. The one condition is that no id is used
for a new request while it occurs in a message in flight. It holds when ids are unique, and
also when no request is aborted.
-/

namespace TeDiServe

namespace Calls

open Scheduler

variable {κ : Type} {cfg : Config κ} {t t' : Calls κ} {c : Call} {π π' : Placement}

/-! ## Ids in flight -/

structure Noted (t : Calls κ) : Prop where
  known : ∀ r ∈ t.scheduler.requests, r ∈ t.usedReqIds
  flying : ∀ e r, t.InFlightTo e r → r ∈ t.usedReqIds

theorem Effect.inFlightTo (he : Effect cfg t π c t' π') {e : ExecutorId} {r : ReqId} (hq : Quiet t)
    (h : t'.InFlightTo e r) : t.InFlightTo e r ∨ r ∈ t'.scheduler.requests := by
  obtain ⟨f, hf, hr⟩ := h
  cases he with
  | addRequest refines ledger extends_ enrolled requests dropped deferred =>
      exact Or.inl ⟨f, hf, hr⟩
  | @schedule env s outs p π₁ _ readied returned course loop =>
      dsimp only at hf ⊢
      rw [flush_of_quiet (by
        rw [returned.issued.framed.droppedDeferredRequests, (readied.quiet hq.1).2, hq.2]),
        get?_dispatch] at hf
      cases hout : outs.get? e with
      | none =>
          rw [hout] at hf
          exact Or.inl ⟨f, hf, hr⟩
      | some out =>
          rw [hout] at hf
          cases hf
          have hrun := ((returned.issued.sent e out hout).2.2.1.tokens r).mp hr
          obtain ⟨req, hreq, -⟩ := (returned.issued.framed.refines readied.refines).request hrun
          exact Or.inr (Dict.mem_of_get? hreq)
  | manager management keyed next_eq => exact Or.inl ⟨f, hf, hr⟩
  | @finishExecution e₀ res f₀ m flight keyed set_eq =>
      dsimp only at hf
      rw [Dict.get?_set] at hf
      split_ifs at hf with hee
      · cases hf
        exact Or.inl ⟨f₀, hee ▸ flight, hr⟩
      · exact Or.inl ⟨f, hf, hr⟩
  | updateFromOutput flight apply_eq visited applied progressed keyed set_eq =>
      dsimp only at hf
      rw [Dict.get?_erase] at hf
      split_ifs at hf
      exact Or.inl ⟨f, hf, hr⟩
  | finishRequests finish_eq finished abortable aborted => exact Or.inl ⟨f, hf, hr⟩
  | refreshEstimates soft => exact Or.inl ⟨f, hf, hr⟩
  | controlLoad inRange minInRange => exact Or.inl ⟨f, hf, hr⟩

theorem Effect.usedReqIds (he : Effect cfg t π c t' π') : t'.usedReqIds =
    match c with
    | .addRequest req => req.requestId :: t.usedReqIds
    | _ => t.usedReqIds := by
  cases he with
  | @manager c m management keyed next_eq =>
      cases c with
      | addRequest req => cases management
      | _ => rfl
  | _ => rfl

theorem Effect.noted (he : Effect cfg t π c t' π') (hq : Quiet t) (h : Noted t) : Noted t' := by
  have hmono : ∀ r ∈ t.usedReqIds, r ∈ t'.usedReqIds := by
    intro r hr
    rw [he.usedReqIds]
    split
    · exact List.mem_cons_of_mem _ hr
    · exact hr
  have hknown : ∀ r ∈ t'.scheduler.requests, r ∈ t'.usedReqIds := by
    intro r hr
    obtain ⟨req, hreq⟩ := (Dict.mem_iff_exists _ _).mp hr
    rcases he.origin hreq with ⟨req₀, hreq₀, -⟩ | ⟨rfl, rfl⟩
    · exact hmono r (h.known r (Dict.mem_of_get? hreq₀))
    · rw [he.usedReqIds]
      exact List.mem_cons_self
  refine ⟨hknown, fun e r hr => ?_⟩
  rcases he.inFlightTo hq hr with hr | hr
  · exact hmono r (h.flying e r hr)
  · exact hknown r hr

theorem Reachable.noted {allowed : Calls κ → Call → Prop}
    (hdefer : cfg.maxNumUnfinishedRequests = none) (h : Reachable cfg allowed t) : Noted t := by
  apply h.invariant
  · intro t ht
    obtain ⟨m, -, -, -, -, hre, hnone⟩ := built_of_init ht
    constructor
    · intro r hr
      rw [hre.requests] at hr
      exact absurd hr (by simp [Scheduler.empty])
    · rintro e r ⟨f, hf, -⟩
      rw [hnone] at hf
      cases hf
  · intro t c t' hr ht hstep
    obtain ⟨π, π', -, he⟩ := (Reachable.consistent hr).effect hstep
    exact he.noted (Reachable.quiet hdefer hr) ht

theorem Noted.notInFlight (h : Noted t) (hc : t.UniqueIds c) : t.NotInFlight c := by
  cases c with
  | addRequest req => exact fun e f hf hr => hc (h.flying e _ ⟨f, hf, hr⟩)
  | _ => trivial

end Calls

/-! ## The invariant -/

namespace Fleet

open Scheduler

variable {κ : Type} {cfg : Config κ} {w : WorkerConfig} {f f' : Fleet κ Runner}
  {allowed : Fleet κ Runner → FleetEvent → Prop} {ev : FleetEvent} {π : Placement}

structure Agrees (cfg : Config κ) (w : WorkerConfig) (f : Fleet κ Runner) (π : Placement) :
    Prop where
  follows : ∀ e, f.calls.Live e → f.calls.Follows cfg w π e (f.worker (Crew.runners w) e)
  unborn : ∀ e ∉ f.calls.scheduler.executorsManager.usedExecutorIds, f.workers.get? e = none
  orderly : ∀ r req, f.calls.scheduler.requests.get? r = some req → req.Orderly

theorem agrees_of_init (h : Init cfg f) :
    ∃ π, Refines f.calls.scheduler π ∧ Agrees cfg w f π := by
  obtain ⟨hinit, hworkers⟩ := h
  obtain ⟨m, -, hπ, -, -, hre, hnone⟩ := Calls.built_of_init hinit
  refine ⟨_, hπ, ?_, ?_, ?_⟩
  · intro e _
    have hfresh : f.worker (Crew.runners w) e = Runner.empty := by
      rw [worker, hworkers]
      rfl
    rw [hfresh]
    refine Calls.follows_fresh cfg w (by rw [hnone]; rfl) fun r hr => ?_
    cases hr
  · intro e _
    rw [hworkers]
    rfl
  · intro r req hreq
    rw [hre.requests] at hreq
    cases hreq

section Step

variable (hdefer : cfg.maxNumUnfinishedRequests = none)
  (hr : Calls.Reachable cfg Calls.NotInFlight f.calls) (hπ : Refines f.calls.scheduler π)
  (h : Agrees cfg w f π)
include hdefer hr hπ h

/-- An executor that comes to life has a worker that has not been told anything. -/
theorem Agrees.newborn {t' : Calls κ} {e : ExecutorId} (hflight : t'.inFlight = f.calls.inFlight)
    (hnew : e ∉ f.calls.scheduler.executorsManager.usedExecutorIds) :
    t'.Follows cfg w π e Runner.empty ∧ f.workers.get? e = none := by
  refine ⟨Calls.follows_fresh cfg w ?_ ?_, h.unborn e hnew⟩
  · rw [hflight]
    cases hf : f.calls.inFlight.get? e with
    | none => rfl
    | some fl =>
        obtain ⟨st, hst, -⟩ := (Calls.Reachable.manned hdefer hr).inUse e fl hf
        exact absurd ((Calls.Reachable.manned hdefer hr).used e st hst) hnew
  · intro r hrun
    have hhost := hπ.hosted r e (Placement.host?_of_running hrun)
    exact hnew (Calls.Reachable.recorded hdefer hr e hhost)

theorem Agrees.call {c : Call} {t' : Calls κ} {π' : Placement} (hp : f.calls.Possible cfg c)
    (hnew : f.calls.NotInFlight c) (hadd : ∀ req, c = .addRequest req → req.Constructed)
    (hcall : ∀ e res, c ≠ .finishExecution e res) (he : Calls.Effect cfg f.calls π c t' π')
    (hπ' : Refines t'.scheduler π') : Agrees cfg w ⟨t', f.workers⟩ π' := by
  have hman := Calls.Reachable.manned hdefer hr
  have hq := Calls.Reachable.quiet hdefer hr
  have hb := Calls.Reachable.boarded hdefer hr hπ
  have hkey := (Calls.Reachable.consistent hr).keyed
  have horderly : ∀ r req, t'.scheduler.requests.get? r = some req → req.Orderly := by
    intro r req hreq
    rcases he.request_cases hreq with ⟨req₀, hreq₀, hp⟩ | ⟨hc, -⟩ |
      ⟨e, msg, res, req₀, pairs, y, -, hf, hmem, hreq₀, htok, hy, hgo, rfl, -⟩
    · exact (h.orderly r req₀ hreq₀).of_progress hp
    · exact (hadd req hc).orderly
    · obtain ⟨st, predict, -, -, hsampled⟩ :=
        (h.follows e (hman.live hf)).sampled hf hmem hreq₀ htok
      have hord : ({ req₀ with isInExecution := false } : Request).Orderly :=
        (h.orderly r req₀ hreq₀).of_progress rfl
      exact hord.afterStep hsampled hy hgo
  refine ⟨?_, ?_, horderly⟩
  · intro e hlive
    rcases (he.executors hman hkey hp e).2 hlive with hlive | ⟨hunused, rfl, hflight⟩
    · have hfollows := h.follows e hlive
      rcases he.at_executor hq hman hb hπ hp hnew hlive hcall with
        hkept | ⟨msg, hsent⟩ | ⟨-, msg, res, happ⟩
      · exact hfollows.kept hkept
      · exact hfollows.sentTo hsent hπ' horderly
      · exact hfollows.applied happ hπ
    · obtain ⟨hfollows, hnone⟩ := h.newborn hdefer hr hπ hflight hunused
      have hfresh : worker (Crew.runners w) ⟨t', f.workers⟩ e = Runner.empty := by
        simp [worker, Dict.getD, hnone, Crew.runners]
      rw [hfresh]
      exact hfollows
  · intro e hunused
    exact h.unborn e fun hused => hunused ((he.executors hman hkey hp e).1 hused)

omit hπ in
theorem Agrees.execute {e : ExecutorId} {predict : Prediction} {msg : SchedulerOutput}
    {y : Runner × ModelRunnerOutput} {t' : Calls κ} {π' : Placement}
    (hmsg : f.calls.inFlight.get? e = some ⟨msg, none⟩)
    (hy : (f.worker (Crew.runners w) e).executeModel w msg predict = .ok y)
    (he : Calls.Effect cfg f.calls π (.finishExecution e y.2) t' π') :
    π' = π ∧ Agrees cfg w ⟨t', f.workers.set e y.1⟩ π := by
  have hman := Calls.Reachable.manned hdefer hr
  have hkey := (Calls.Reachable.consistent hr).keyed
  have hlives := fun e' => (he.executors hman hkey ⟨msg, hmsg⟩ e').2
  have huseds := fun e' => (he.executors hman hkey ⟨msg, hmsg⟩ e').1
  cases he with
  | manager management keyed next_eq => cases management
  | @finishExecution _ _ fl m flight keyed set_eq =>
      rw [hmsg] at flight
      cases flight
      refine ⟨rfl, ?_, ?_, h.orderly⟩
      · intro e' hlive'
        by_cases hee : e' = e
        · subst hee
          have hfollows := h.follows e' (hman.live hmsg)
          rw [worker_set_self]
          have hexec := ensures_of_ok (hfollows.ensures_executeModel (m := m) hmsg predict) hy
          exact hexec
        · rw [worker_set_of_ne _ _ _ hee]
          rcases hlives e' hlive' with hlive | ⟨-, -, hflight⟩
          · exact (h.follows e' hlive).kept (.of_same (fun _ => Iff.rfl) rfl (by simp [hee])
              fun r _ => .of_eq rfl)
          · have hget := congrArg (fun d => d.get? e) hflight
            dsimp only at hget
            rw [Dict.get?_set_self, hmsg] at hget
            cases hget
      · intro e' hunused
        have hee : e' ≠ e := by
          rintro rfl
          obtain ⟨st, hst, -⟩ := hman.inUse e' _ hmsg
          exact hunused (huseds e' (hman.used e' st hst))
        dsimp only
        rw [Dict.get?_set, if_neg hee]
        exact h.unborn e' fun hused => hunused (huseds e' hused)

theorem Agrees.step (hstep : Step cfg (Crew.runners w) allowed f ev f')
    (hnew : ∀ c, ev = .call c → f.calls.NotInFlight c) :
    ∃ π', Refines f'.calls.scheduler π' ∧ Agrees cfg w f' π' := by
  have hcons := Calls.Reachable.consistent hr
  obtain ⟨t', workers'⟩ := f'
  rcases hstep.cases with ⟨c, rfl, hcall, hadd, hp, hn, hworkers⟩ |
    ⟨e, predict, msg, y, rfl, hmsg, hy, hn, hworkers⟩
  · dsimp only at hn hworkers
    subst hworkers
    obtain ⟨π', he⟩ := ensures_of_ok
      (Calls.ensures_effect hπ hcons.ledger hcons.keyed hp) hn
    have hπ' := (Calls.Effect.consistent hcons hπ he).2
    exact ⟨π', hπ', h.call hdefer hr hπ hp (hnew c rfl) hadd hcall he hπ'⟩
  · dsimp only at hn hworkers
    subst hworkers
    obtain ⟨π', he⟩ := ensures_of_ok
      (Calls.ensures_effect hπ hcons.ledger hcons.keyed (c := .finishExecution e y.2)
        ⟨msg, hmsg⟩) hn
    have hπ' := (Calls.Effect.consistent hcons hπ he).2
    obtain ⟨rfl, hagrees⟩ := h.execute hdefer hr hmsg hy he
    exact ⟨π', hπ', hagrees⟩

end Step

theorem Reachable.agrees (hdefer : cfg.maxNumUnfinishedRequests = none)
    (hcall : ∀ f c, Reachable cfg (Crew.runners w) allowed f → f.calls.Possible cfg c →
      allowed f (.call c) → f.calls.NotInFlight c)
    (h : Reachable cfg (Crew.runners w) allowed f) (hπ : Refines f.calls.scheduler π) :
    Agrees cfg w f π := by
  have hinv : ∃ π, Refines f.calls.scheduler π ∧ Agrees cfg w f π := by
    apply h.invariant
    · exact fun f hf => agrees_of_init hf
    · rintro f ev f' hr ⟨π, hπ, hagrees⟩ hstep
      have hcalls : Calls.Reachable cfg Calls.NotInFlight f.calls :=
        Reachable.calls hr (fun f c hf hp hc => hcall f c hf hp.call hc) fun _ _ _ => trivial
      apply hagrees.step hdefer hcalls hπ hstep
      rintro c rfl
      exact hcall f c hr hstep.1.call hstep.2.1
  obtain ⟨π₀, hπ₀, hagrees⟩ := hinv
  refine ⟨fun e hlive => (hagrees.follows e hlive).kept (.of_same ?_ rfl rfl fun r _ => .of_eq rfl),
    hagrees.unborn, hagrees.orderly⟩
  intro r
  rw [← hπ.residentOn_iff, hπ₀.residentOn_iff]

end Fleet

end TeDiServe

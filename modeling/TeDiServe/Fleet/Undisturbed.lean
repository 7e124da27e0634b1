import TeDiServe.Fleet.Run

/-!
# Runs without kills and aborts

If no executor is killed and no request is aborted, a request ends only with its last step.
So the requests in flight are known, and no id is used again while it is in flight. A request
in the middle of a block stays on its executor, which knows it when the next message comes.
-/

namespace TeDiServe

theorem Request.Constructed.isStartOfNewBlock {req : Request} (h : req.Constructed) :
    req.isStartOfNewBlock = true := by
  obtain ⟨mask, hfresh⟩ := h.fresh
  exact decide_eq_true hfresh.curBlockNumUnmaskedTokens

namespace Calls

open Scheduler

variable {κ : Type} {cfg : Config κ} {t t' : Calls κ} {c : Call} {π π' : Placement}
  {e : ExecutorId} {r : ReqId}

/-- No executor is killed and no request is aborted, and prompts are not empty. -/
def Undisturbed (_ : Calls κ) : Call → Prop
  | .addRequest req => req.Constructed ∧ req.promptTokenIds ≠ []
  | .setKilling _ => False
  | .remove _ => False
  | .finishRequests _ _ _ => False
  | _ => True

def ResultOf (t : Calls κ) (e : ExecutorId) (r : ReqId) : Prop :=
  ∃ msg res, t.inFlight.get? e = some ⟨msg, some res⟩ ∧ r ∈ msg.numScheduledTokens

theorem ResultOf.inFlightTo (h : t.ResultOf e r) : t.InFlightTo e r := by
  obtain ⟨msg, res, hf, hr⟩ := h
  exact ⟨_, hf, hr⟩

/-- Requests are known until a result of theirs is applied. -/
theorem Effect.persists (he : Effect cfg t π c t' π') (hq : Quiet t) (hc : Consistent cfg t)
    (hu : t.Undisturbed c) (hr : r ∈ t.scheduler.requests) :
    r ∈ t'.scheduler.requests ∨ ∃ e, c = .updateFromOutput e ∧ t.ResultOf e r := by
  cases he with
  | addRequest refines ledger extends_ enrolled requests dropped deferred =>
      left
      dsimp only
      rw [requests, Dict.mem_set]
      exact Or.inr hr
  | @schedule env s outs p π₁ _ readied returned course loop =>
      left
      refine (Dict.mem_iff_of_map_eq (returned.issued.framed.requests r)).mpr ?_
      rcases readied.requests r with heq | ⟨hd, -⟩
      · exact (Dict.mem_iff_of_map_eq heq).mpr hr
      · rw [hc.ledger.queue, hq.1] at hd
        cases hd
  | manager management keyed next_eq => exact Or.inl hr
  | finishExecution flight keyed set_eq => exact Or.inl hr
  | @updateFromOutput e msg res s outs m done _ flight apply_eq visited applied progressed keyed
      set_eq =>
      by_cases hmem : r ∈ msg.numScheduledTokens
      · exact Or.inr ⟨e, rfl, msg, res, flight, hmem⟩
      · left
        by_contra hnot
        exact hmem ((visited r).mp (applied.lost r hr hnot).1)
  | finishRequests finish_eq finished abortable aborted => exact hu.elim
  | refreshEstimates soft =>
      left
      dsimp only
      rwa [soft.requests]
  | controlLoad inRange minInRange => exact Or.inl hr

theorem Effect.remains_live (he : Effect cfg t π c t' π') (hn : t.next cfg c = .ok t')
    (hkey : t.scheduler.executorsManager.Keyed) (hu : t.Undisturbed c) (hlive : t.Live e) :
    t'.Live e := by
  have hset : ∀ {s : Scheduler κ} {d : Dict ExecutorId Flight} {e₀ : ExecutorId}
      {st : ExecutorStatus} {m : ExecutorsManager},
      t.scheduler.executorsManager.setStatus e₀ st = .ok m → st ≠ .killing →
      (⟨{ s with executorsManager := m }, d, t.usedReqIds⟩ : Calls κ).Live e := by
    intro s d e₀ st m hm hst
    obtain ⟨-, -, hstatus, -⟩ := ensures_of_ok (ExecutorsManager.ensures_setStatus _ e₀ st) hm
    rw [live_iff] at hlive ⊢
    dsimp only
    rw [hstatus]
    split_ifs
    · exact ⟨st, rfl, hst⟩
    · exact hlive
  cases he with
  | addRequest refines ledger extends_ enrolled requests dropped deferred =>
      rwa [Live, enrolled.executorsManager]
  | @schedule env s outs p π₁ _ readied returned course loop =>
      rw [live_iff] at hlive ⊢
      dsimp only
      rw [returned.status]
      split_ifs
      · exact ⟨_, rfl, by decide⟩
      · exact ⟨_, rfl, by decide⟩
      · exact hlive
  | @manager c m management keyed next_eq =>
      have hof : ∀ {x : Except PyError ExecutorsManager},
          t.next cfg c = (x >>= fun m => pure (t.withManager m)) → x = .ok m := fun hx =>
        manager_of_next hx next_eq
      cases c with
      | addRequest _ | schedule _ | finishExecution _ _ | updateFromOutput _
        | finishRequests _ _ _ | refreshEstimates _ | controlLoad _ _ => cases management
      | startExecution e₀ => exact hset (hof rfl) (by decide)
      | setKilling e₀ => exact hu.elim
      | launch e₀ bundleIds =>
          obtain ⟨-, -, hexec, -⟩ :=
            ensures_of_ok (ExecutorsManager.ensures_launchExecutor hkey) (hof rfl)
          rw [live_iff] at hlive ⊢
          simp only [withManager, ExecutorsManager.status?, hexec, Dict.get?_set] at hlive ⊢
          split_ifs
          · exact ⟨.idle, rfl, by decide⟩
          · exact hlive
      | announceKill e₀ =>
          obtain ⟨hexec, -⟩ :=
            ensures_of_ok (ExecutorsManager.ensures_announceKill _ e₀) (hof rfl)
          rw [live_iff] at hlive ⊢
          simpa only [withManager, ExecutorsManager.status?, hexec] using hlive
      | remove e₀ => exact hu.elim
  | finishExecution flight keyed set_eq => exact hset set_eq (by decide)
  | @updateFromOutput e₀ msg res s outs m done _ flight apply_eq visited applied progressed keyed
      set_eq =>
      simp only [next, flight, Scheduler.updateFromOutput, apply_eq, bind_assoc,
        ok_bind] at hn
      obtain ⟨s', hs', hn⟩ := bind_eq_ok.mp hn
      obtain ⟨st, m', hst, hm', rfl⟩ :=
        ensures_of_ok (ensures_releaseExecutor cfg s e₀) hs'
      cases hn
      rw [applied.manager] at hm'
      refine hset hm' ?_
      rcases hst with ⟨rfl, -⟩ | ⟨rfl, -⟩
      · decide
      · decide
  | finishRequests finish_eq finished abortable aborted => exact hu.elim
  | refreshEstimates soft => rwa [Live, soft.executorsManager]
  | controlLoad inRange minInRange => exact hlive

/-- A request stays on its executor as long as it is known, except that a schedule call may
move it at the start of a block. -/
theorem Effect.stays (he : Effect cfg t π c t' π') (hq' : Quiet t') (hc' : Consistent cfg t')
    (hπ' : Refines t'.scheduler π') (hu : t.Undisturbed c) (hcache : cfg.caching = true)
    (hmid : ∀ env, c = .schedule env → ∃ req, t.scheduler.requests.get? r = some req ∧
      req.isStartOfNewBlock = false) (hlive : t.Live e) (hrun : π r = some (.running e))
    (hknown : r ∈ t'.scheduler.requests) : π' r = some (.running e) := by
  cases he with
  | addRequest refines ledger extends_ enrolled requests dropped deferred =>
      exact (extends_.eq_some_iff (by simp)).mpr hrun
  | @schedule env s outs p π₁ _ readied returned course loop =>
      obtain ⟨req, hreq, hmid⟩ := hmid env rfl
      have hpin : canMigrate cfg req = false := by simp [canMigrate, hcache, hmid]
      exact readied.pinned r req e hreq hpin ((readied.resident r e).mpr ⟨hrun, hlive⟩)
  | manager management keyed next_eq => exact hrun
  | finishExecution flight keyed set_eq => exact hrun
  | updateFromOutput flight apply_eq visited applied progressed keyed set_eq =>
      rcases applied.placement r with hsame | ⟨-, hnone, -⟩
      · rw [hsame, hrun]
      · obtain ⟨l, hl⟩ := hq'.exists_location hc' hπ' hknown
        rw [hnone] at hl
        cases hl
  | finishRequests finish_eq finished abortable aborted => exact hu.elim
  | refreshEstimates soft => exact hrun
  | controlLoad inRange minInRange => exact hrun

/-- Requests in the middle of a block are on executors that are there, and are cached in the
messages in flight. -/
structure Steady (t : Calls κ) (π : Placement) : Prop where
  known : ∀ e r, t.InFlightTo e r → r ∈ t.scheduler.requests
  alive : ∀ e ∈ t.scheduler.executorStates, t.Live e
  running : ∀ r req, t.scheduler.requests.get? r = some req → req.isStartOfNewBlock = false →
    ∃ e, π r = some (.running e)
  cached : ∀ e f r req, t.inFlight.get? e = some f → r ∈ f.message.numScheduledTokens →
    t.scheduler.requests.get? r = some req → req.isStartOfNewBlock = false →
    r ∈ f.message.scheduledCachedReqs.reqIds

section Step

variable (he : Effect cfg t π c t' π') (hp : t.Possible cfg c) (hn : t.next cfg c = .ok t')
  (hu : t.Undisturbed c) (hnew : t.NotInFlight c)
  (hdefer : cfg.maxNumUnfinishedRequests = none) (hr : Reachable cfg NotInFlight t)
  (hπ : Refines t.scheduler π) (h : Steady t π)
include he hp hn hu hnew hdefer hr hπ h

theorem Steady.known_next (e : ExecutorId) (r : ReqId) (hfly : t'.InFlightTo e r) :
    r ∈ t'.scheduler.requests := by
  have hq := Reachable.quiet hdefer hr
  rcases he.inFlightTo hq hfly with hold | hknown
  · rcases he.persists hq (Reachable.consistent hr) hu (h.known e r hold) with
      hknown | ⟨e₀, rfl, hres⟩
    · exact hknown
    · -- the request is on one executor, and its message is not in flight any more
      have hb := Reachable.boarded hdefer hr hπ
      obtain ⟨f₀, hf₀, hmem₀⟩ := hres.inFlightTo
      obtain ⟨f, hf, hmem⟩ := hold
      have hrun₀ := hb e₀ f₀ r hf₀ hmem₀ (h.known e₀ r hres.inFlightTo)
      have hrun := hb e f r hf hmem (h.known e₀ r hres.inFlightTo)
      rw [hrun₀, Option.some.injEq, Loc.running.injEq] at hrun
      subst hrun
      obtain ⟨f', hf', -⟩ := hfly
      cases he with
      | manager management keyed next_eq => cases management
      | updateFromOutput flight apply_eq visited applied progressed keyed set_eq => simp at hf'
  · exact hknown

variable (hcache : cfg.caching = true)
include hcache

theorem Steady.stays {r : ReqId} {req : Request} (hreq : t.scheduler.requests.get? r = some req)
    (hmid : req.isStartOfNewBlock = false) (hknown : r ∈ t'.scheduler.requests) :
    ∃ e, π r = some (.running e) ∧ π' r = some (.running e) := by
  have hr' : Reachable cfg NotInFlight t' := .next hr ⟨hp, hnew, hn⟩
  obtain ⟨e, hrun⟩ := h.running r req hreq hmid
  have hlive := h.alive e (hπ.hosted r e (Placement.host?_of_running hrun))
  exact ⟨e, hrun, he.stays (Reachable.quiet hdefer hr') (Reachable.consistent hr')
    (Effect.consistent (Reachable.consistent hr) hπ he).2 hu hcache
    (fun _ _ => ⟨req, hreq, hmid⟩) hlive hrun hknown⟩

theorem Steady.running_next (r : ReqId) (req' : Request)
    (hreq' : t'.scheduler.requests.get? r = some req') (hmid : req'.isStartOfNewBlock = false) :
    ∃ e, π' r = some (.running e) := by
  have hr' : Reachable cfg NotInFlight t' := .next hr ⟨hp, hnew, hn⟩
  rcases he.request_cases hreq' with ⟨req, hreq, hprog⟩ | ⟨rfl, -⟩ |
    ⟨e, msg, res, req, pairs, y, rfl, hf, hmem, hreq, -⟩
  · obtain ⟨e, -, hrun⟩ := h.stays he hp hn hu hnew hdefer hr hπ hcache hreq
      ((congrArg Request.isStartOfNewBlock hprog).symm.trans hmid) (Dict.mem_of_get? hreq')
    exact ⟨e, hrun⟩
  · rw [Request.Constructed.isStartOfNewBlock hu.1] at hmid
    cases hmid
  · have hrun := Reachable.boarded hdefer hr hπ e _ r hf hmem (Dict.mem_of_get? hreq)
    exact ⟨e, he.stays (Reachable.quiet hdefer hr') (Reachable.consistent hr')
      (Effect.consistent (Reachable.consistent hr) hπ he).2 hu hcache (fun _ hc => by cases hc)
      ((Reachable.manned hdefer hr).live hf) hrun (Dict.mem_of_get? hreq')⟩

theorem Steady.cached_next (e : ExecutorId) (f : Flight) (r : ReqId) (req' : Request)
    (hf : t'.inFlight.get? e = some f) (hmem : r ∈ f.message.numScheduledTokens)
    (hreq' : t'.scheduler.requests.get? r = some req') (hmid : req'.isStartOfNewBlock = false) :
    r ∈ f.message.scheduledCachedReqs.reqIds := by
  have hman := Reachable.manned hdefer hr
  have hsame : SameProgress t t' r → ∃ req, t.scheduler.requests.get? r = some req ∧
      req.isStartOfNewBlock = false := by
    intro hsame
    obtain ⟨req, hreq, hprog⟩ := hsame req' hreq'
    exact ⟨req, hreq, (congrArg Request.isStartOfNewBlock hprog).symm.trans hmid⟩
  by_cases hfin : ∃ e₀ res, c = .finishExecution e₀ res
  · obtain ⟨e₀, res, rfl⟩ := hfin
    cases he with
    | manager management keyed next_eq => cases management
    | @finishExecution _ _ f₀ m flight keyed set_eq =>
        dsimp only at hf
        rw [Dict.get?_set] at hf
        split_ifs at hf with hee
        · cases hf
          exact h.cached e f₀ r req' (hee ▸ flight) hmem hreq' hmid
        · exact h.cached e f r req' hf hmem hreq' hmid
  · have hr' : Reachable cfg NotInFlight t' := .next hr ⟨hp, hnew, hn⟩
    have hlive : t.Live e := by
      rcases (he.executors hman (Reachable.consistent hr).keyed hp e).2
        ((Reachable.manned hdefer hr').live hf) with hlive | ⟨-, -, hflight⟩
      · exact hlive
      · rw [hflight] at hf
        exact hman.live hf
    rcases he.at_executor (Reachable.quiet hdefer hr) hman (Reachable.boarded hdefer hr hπ) hπ hp
      hnew hlive fun e₀ res hc => hfin ⟨e₀, res, hc⟩ with hkept | ⟨msg, hsent⟩ | ⟨-, msg, res, happ⟩
    · rw [hkept.flight] at hf
      obtain ⟨req, hreq, hmid'⟩ := hsame (hkept.same r (Or.inr ⟨f, hf, hmem⟩))
      exact h.cached e f r req hf hmem hreq hmid'
    · rw [hsent.flight] at hf
      cases hf
      have hrun' := (hsent.output.tokens r).mp hmem
      obtain ⟨req, hreq, hmid'⟩ := hsame (hsent.same r)
      obtain ⟨e₁, hrun₁, hrun₁'⟩ := h.stays he hp hn hu hnew hdefer hr hπ hcache hreq hmid'
        (Dict.mem_of_get? hreq')
      rw [hrun', Option.some.injEq, Loc.running.injEq] at hrun₁'
      subst hrun₁'
      exact (hsent.output.cached r).mpr ⟨hrun', hrun₁⟩
    · rw [happ.idle] at hf
      cases hf

theorem Steady.next : Steady t' π' := by
  refine ⟨h.known_next he hp hn hu hnew hdefer hr hπ, ?_, ?_,
    h.cached_next he hp hn hu hnew hdefer hr hπ hcache⟩
  · intro e hmem
    refine he.remains_live hn (Reachable.consistent hr).keyed hu ?_
    exact (he.mem_executorStates hmem).elim (h.alive e) id
  · exact h.running_next he hp hn hu hnew hdefer hr hπ hcache

end Step

/-- Without aborts no id is used for a new request while it is in flight. -/
theorem Steady.notInFlight (h : Steady t π) (hp : t.Possible cfg c) : t.NotInFlight c := by
  cases c with
  | addRequest req => exact fun e f hf hr => hp (h.known e _ ⟨f, hf, hr⟩)
  | _ => trivial

theorem Reachable.steady (hdefer : cfg.maxNumUnfinishedRequests = none)
    (hcache : cfg.caching = true) (h : Reachable cfg Undisturbed t) :
    Reachable cfg NotInFlight t ∧ ∃ π, Refines t.scheduler π ∧ Steady t π := by
  apply h.invariant
  · intro t ht
    obtain ⟨m, -, hπ, -, hsync, hre, hnone⟩ := built_of_init ht
    refine ⟨.start ht, _, hπ, ?_, ?_, ?_, ?_⟩
    · rintro e r ⟨f, hf, -⟩
      rw [hnone] at hf
      cases hf
    · exact fun e hmem => live_iff.mpr ((hsync e).mp hmem)
    · intro r req hreq
      rw [hre.requests] at hreq
      cases hreq
    · intro e f r req hf
      rw [hnone] at hf
      cases hf
  · rintro t c t' - ⟨hr, π, hπ, hsteady⟩ ⟨hp, hu, hn⟩
    have hcons := Reachable.consistent hr
    have hnew := hsteady.notInFlight hp
    obtain ⟨π', he⟩ := ensures_of_ok (ensures_effect hπ hcons.ledger hcons.keyed hp) hn
    exact ⟨.next hr ⟨hp, hnew, hn⟩, π', (Effect.consistent hcons hπ he).2,
      hsteady.next he hp hn hu hnew hdefer hr hπ hcache⟩

end Calls

end TeDiServe

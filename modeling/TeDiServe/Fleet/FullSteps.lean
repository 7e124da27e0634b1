import TeDiServe.Fleet.Undisturbed
import TeDiServe.Placement.Recompute
import TeDiServe.Request.Accounting

/-!
# The number of full steps

The planner counts the full steps that a request still needs: one for every block that has
not been begun. An observer counts the full steps that are executed. When caching is on and
nothing is disturbed, the two agree: a block is begun by a full step, its other steps are
partial, and a request is not moved before its block is complete.
-/

namespace TeDiServe

namespace Request

variable {req : Request} {pairs : List (ℕ × Token)}

/-- The blocks that are left after those before the current one, and after the current one
if it is `begun`. -/
def fullStepsAfter (req : Request) (begun : Bool) : ℤ :=
  (req.outputLength / req.denoiseBlockSize : ℕ) - req.curBlock - (if begun then 1 else 0)

theorem numRecomputeStepsLeft_eq (req : Request) :
    req.numRecomputeStepsLeft = req.fullStepsAfter (!req.isStartOfNewBlock) := by
  unfold numRecomputeStepsLeft fullStepsAfter
  cases req.isStartOfNewBlock with
  | true => rfl
  | false => rfl

/-- A step with pairs of the output completes the block, which was the last one if the
request ends, or leaves it begun. -/
theorem WellFormed.fullSteps_afterStep {y : Request × Bool} (h : req.WellFormed)
    (hne : pairs ≠ []) (hin : req.InOutput pairs) (hy : req.afterStep pairs = .ok y) :
    if y.2 then req.fullStepsAfter true = 0
    else y.1.numRecomputeStepsLeft = req.fullStepsAfter true := by
  rw [Request.afterStep, if_neg hne] at hy
  obtain ⟨req', hreq', hy⟩ := bind_eq_ok.mp hy
  cases hy
  obtain ⟨hstep, hroom, hblock⟩ := ensures_of_ok (req.ensures_updateFromOutput pairs) hreq'
  have hacc := h.accounted.step hne (fun p hp => (hin p hp).2) hstep hroom hblock
  have hlt : req.curBlock < req.maxTokens / req.denoiseBlockSize := by
    obtain ⟨p, hp⟩ := List.exists_mem_of_ne_nil _ hne
    have hle := h.accounted.block_le (hblock p hp) (hin p hp).2
    exact (Nat.le_div_iff_mul_le h.positive).mpr hle
  have hstop := hacc.checkStop_iff
  have hleft : req'.checkStop.1.numRecomputeStepsLeft = req'.numRecomputeStepsLeft := by
    unfold checkStop
    split_ifs
    · rfl
    · rfl
  rw [hleft, numRecomputeStepsLeft, fullStepsAfter, isStartOfNewBlock, outputLength, outputLength,
    hstep.curBlock, hstep.curBlockNumUnmaskedTokens, hstep.maxTokens, hstep.denoiseBlockSize]
  rw [hstep.curBlock, hstep.maxTokens, hstep.denoiseBlockSize] at hstop
  by_cases hfull : req.curBlockNumUnmaskedTokens + pairs.length = req.denoiseBlockSize
  · simp only [advanceBlock, hfull, if_true, decide_true] at hstop ⊢
    split_ifs with hdone
    · rw [← hstop.mp hdone]
      omega
    · omega
  · have hgo : req'.checkStop.2 = false := by
      rw [Bool.eq_false_iff, Ne, hstop]
      simp only [advanceBlock, hfull, if_false]
      omega
    simp [advanceBlock, hfull, hgo, hne]

end Request

namespace Calls

open Scheduler

variable {κ : Type} {cfg : Config κ} {t t' : Calls κ} {c : Call} {π π' : Placement}
  {e : ExecutorId} {r : ReqId} {req : Request}

/-! ## Results in flight -/

/-- Calls make no results, and only the call that applies a result removes it. -/
theorem Effect.resultOf_iff (he : Effect cfg t π c t' π') (hq : Quiet t) (hman : Manned t)
    (hcall : ∀ e res, c ≠ .finishExecution e res) :
    t'.ResultOf e r ↔ t.ResultOf e r ∧ c ≠ .updateFromOutput e := by
  cases he with
  | addRequest refines ledger extends_ enrolled requests dropped deferred =>
      exact ⟨fun h => ⟨h, nofun⟩, And.left⟩
  | @schedule env s outs p π₁ _ readied returned course loop =>
      have hget : ∀ {msg : SchedulerOutput} {res : ModelRunnerOutput},
          ((s.flush p.found outs).entries.foldl (fun d y => d.set y.1 ⟨y.2, none⟩)
            t.inFlight).get? e = some ⟨msg, some res⟩ ↔
          t.inFlight.get? e = some ⟨msg, some res⟩ := by
        intro msg res
        rw [flush_of_quiet (by
          rw [returned.issued.framed.droppedDeferredRequests, (readied.quiet hq.1).2, hq.2]),
          get?_dispatch]
        cases hout : outs.get? e with
        | none => rfl
        | some out =>
            refine ⟨nofun, fun hf => ?_⟩
            exact absurd (returned.issued.sent e out hout).1 (hman.not_mem_found readied hf)
      constructor
      · rintro ⟨msg, res, hf, hr⟩
        exact ⟨⟨msg, res, hget.mp hf, hr⟩, nofun⟩
      · rintro ⟨⟨msg, res, hf, hr⟩, -⟩
        exact ⟨msg, res, hget.mpr hf, hr⟩
  | manager management keyed next_eq =>
      refine ⟨fun h => ⟨h, ?_⟩, And.left⟩
      rintro rfl
      cases management
  | finishExecution flight keyed set_eq => exact absurd rfl (hcall _ _)
  | @updateFromOutput e₀ msg res s outs m done _ flight apply_eq visited applied progressed keyed
      set_eq =>
      unfold ResultOf
      dsimp only
      by_cases hee : e = e₀
      · simp [hee]
      · have hne : (Call.updateFromOutput e₀ : Call) ≠ .updateFromOutput e := by
          intro hc
          cases hc
          exact hee rfl
        simp [Dict.get?_erase, hee, hne]
  | finishRequests finish_eq finished abortable aborted => exact ⟨fun h => ⟨h, nofun⟩, And.left⟩
  | refreshEstimates soft => exact ⟨fun h => ⟨h, nofun⟩, And.left⟩
  | controlLoad inRange minInRange => exact ⟨fun h => ⟨h, nofun⟩, And.left⟩

/-! ## What is owed -/

/-- The full step of the current block was executed: its result is counted, or in flight. -/
def Begun (t : Calls κ) (r : ReqId) (req : Request) : Prop :=
  req.isStartOfNewBlock = false ∨ ∃ e, t.ResultOf e r

def Owes (t : Calls κ) (r : ReqId) (n : ℤ) : Prop :=
  ∃ req begun, t.scheduler.requests.get? r = some req ∧ (begun = true ↔ t.Begun r req) ∧
    n = req.fullStepsAfter begun

theorem owes_of_idle (hreq : t.scheduler.requests.get? r = some req)
    (hidle : ∀ e, ¬t.InFlightTo e r) : t.Owes r req.numRecomputeStepsLeft := by
  refine ⟨req, !req.isStartOfNewBlock, hreq, ?_, req.numRecomputeStepsLeft_eq⟩
  rw [Bool.not_eq_true']
  exact ⟨Or.inl, fun h => h.resolve_right fun ⟨e, hres⟩ => hidle e hres.inFlightTo⟩

theorem Owes.of_same {n : ℤ} (h : t.Owes r n) (hres : ∀ e, t'.ResultOf e r ↔ t.ResultOf e r)
    (hreq : ∀ req, t.scheduler.requests.get? r = some req → ∃ req',
      t'.scheduler.requests.get? r = some req' ∧ req'.progress = req.progress) : t'.Owes r n := by
  obtain ⟨req, begun, hget, hbegun, rfl⟩ := h
  obtain ⟨req', hget', hprog⟩ := hreq req hget
  refine ⟨req', begun, hget', hbegun.trans ?_,
    (congrArg (Request.fullStepsAfter · begun) hprog).symm⟩
  have hmid : req'.isStartOfNewBlock = req.isStartOfNewBlock :=
    (congrArg Request.isStartOfNewBlock hprog :)
  rw [Begun, Begun, hmid]
  exact or_congr Iff.rfl (exists_congr fun e => (hres e).symm)

end Calls

/-! ## Counting -/

def SchedulerOutput.asksInFull (msg : SchedulerOutput) (requests : Dict ReqId Request)
    (r : ReqId) : Bool :=
  match requests.get? r with
  | some req =>
      msg.execStartPos.get? r = some 0 ∧ msg.numScheduledTokens.get? r = some req.numTokens
  | none => false

/-- An observer counts for each request the full steps that are executed. -/
def Fleet.countFull {κ ω : Type} (f : Fleet κ ω) (ev : FleetEvent) (_ : Fleet κ ω)
    (n : ReqId → ℕ) : ReqId → ℕ :=
  match ev with
  | .call _ => n
  | .execute e _ =>
      match f.calls.inFlight.get? e with
      | some flight => fun r =>
          n r + if flight.message.asksInFull f.calls.scheduler.requests r then 1 else 0
      | none => n

/-- The step of a message is a full one exactly at the start of a block. -/
theorem Calls.Snapshot.asksInFull {κ : Type} {cfg : Config κ} {t : Calls κ} {msg : SchedulerOutput}
    {snap : Dict ReqId Request} {r : ReqId} {req : Request} (h : Snapshot cfg t msg snap)
    (hcache : cfg.cachePrefix = true) (hmem : r ∈ msg.numScheduledTokens)
    (hreq : t.scheduler.requests.get? r = some req) (hprompt : req.promptTokenIds ≠ [])
    (hcached : req.isStartOfNewBlock = false → r ∈ msg.scheduledCachedReqs.reqIds) :
    msg.asksInFull t.scheduler.requests r = req.isStartOfNewBlock := by
  obtain ⟨hn, hstart, -⟩ := h.listed r hmem
  obtain ⟨n, hn⟩ := (Dict.mem_iff_exists _ _).mp hn
  obtain ⟨start, hstart⟩ := (Dict.mem_iff_exists _ _).mp hstart
  obtain ⟨req₀, hreq₀, hord, hshape⟩ := h.known r hmem
  obtain ⟨req₁, hreq₁, hprog⟩ := h.same r hmem req hreq
  obtain rfl : req₀ = req₁ := Option.some.inj (hreq₀.symm.trans hreq₁)
  rw [← Request.stepShape_of_progress cfg _ hprog, Dict.getD, hstart, Dict.getD, hn] at hshape
  simp only [SchedulerOutput.asksInFull, hreq, hstart, hn, Option.some.injEq]
  cases hblock : req.isStartOfNewBlock with
  | true =>
      rcases req.stepShape_eq_or cfg (decide (r ∈ msg.scheduledCachedReqs.reqIds)) with
        hfull | ⟨-, hmid⟩
      · rw [hfull, Prod.mk.injEq] at hshape
        exact decide_eq_true hshape
      · rw [hblock] at hmid
        cases hmid
  | false =>
      rw [decide_eq_true (hcached hblock)] at hshape
      have hfst : start = req.curBlockStart := by
        have hfst := congrArg Prod.fst hshape
        simpa [Request.stepShape, Request.determineRunningExecTokens, hcache, hblock] using hfst
      have hlen := List.length_pos_of_ne_nil hprompt
      have hbegin := (hord.of_progress hprog).wellFormed.start
      have hne : start ≠ 0 := by omega
      simp [hne]

namespace Fleet

open Scheduler

variable {κ : Type} {cfg : Config κ} {w : WorkerConfig} {f f' : Fleet κ Runner}

theorem Reachable.undisturbed (hdefer : cfg.maxNumUnfinishedRequests = none)
    (hcache : cfg.caching = true)
    (h : Reachable cfg (Crew.runners w) (Calling Calls.Undisturbed) f) :
    Calls.Reachable cfg Calls.NotInFlight f.calls ∧
      Calls.Reachable cfg Calls.Undisturbed f.calls ∧
      ∃ π, Refines f.calls.scheduler π ∧ f.calls.Steady π ∧ Agrees cfg w f π := by
  have hcalls : ∀ {f : Fleet κ Runner},
      Reachable cfg (Crew.runners w) (Calling Calls.Undisturbed) f →
      Calls.Reachable cfg Calls.Undisturbed f.calls := fun hf =>
    Reachable.calls hf (fun _ _ _ _ hc => hc) fun _ _ _ => trivial
  obtain ⟨hr, π, hπ, hsteady⟩ := Calls.Reachable.steady hdefer hcache (hcalls h)
  refine ⟨hr, hcalls h, π, hπ, hsteady, Reachable.agrees hdefer ?_ h hπ⟩
  intro f c hf hp _
  obtain ⟨-, π, -, hsteady⟩ := Calls.Reachable.steady hdefer hcache (hcalls hf)
  exact hsteady.notInFlight hp

section Step

variable {π : Placement} {r : ReqId} {n : ℤ} (hdefer : cfg.maxNumUnfinishedRequests = none)
  (hr : Calls.Reachable cfg Calls.NotInFlight f.calls) (hπ : Refines f.calls.scheduler π)
  (hsteady : f.calls.Steady π) (hagrees : Agrees cfg w f π)
include hdefer hr hπ hsteady hagrees

omit hsteady in
/-- A call leaves what is owed, or the request ends and owes nothing. -/
theorem owes_call {c : Call} {t' : Calls κ} {π' : Placement} (hp : f.calls.Possible cfg c)
    (hu : f.calls.Undisturbed c) (hcall : ∀ e res, c ≠ .finishExecution e res)
    (he : Calls.Effect cfg f.calls π c t' π') (h : f.calls.Owes r n) :
    t'.Owes r n ∨ r ∉ t'.scheduler.requests ∧ n = 0 := by
  have hq := Calls.Reachable.quiet hdefer hr
  have hman := Calls.Reachable.manned hdefer hr
  have hb := Calls.Reachable.boarded hdefer hr hπ
  have hresult := fun e => he.resultOf_iff (e := e) (r := r) hq hman hcall
  by_cases hstep : ∃ e, c = .updateFromOutput e ∧ f.calls.ResultOf e r
  · obtain ⟨e, rfl, hres⟩ := hstep
    obtain ⟨req, begun, hreq, hbegun, rfl⟩ := h
    rw [hbegun.mpr (Or.inr ⟨e, hres⟩)]
    obtain ⟨msg, res, happ⟩ := he.appliedOn
    obtain ⟨msg', res', hf, hmem⟩ := hres
    obtain ⟨rfl, rfl⟩ : msg = msg' ∧ res = res' := by
      have heq := happ.flight.symm.trans hf
      simpa using heq
    obtain ⟨pairs, y, htok, hy, hget⟩ := happ.stepped r hmem req hreq
    obtain ⟨st, predict, -, -, hsampled⟩ :=
      (hagrees.follows e (hman.live hf)).sampled hf hmem hreq htok
    have hord := hagrees.orderly r req hreq
    have hcount := (hord.wellFormed.of_marked false).fullSteps_afterStep hsampled.ne_nil
      (hord.wellFormed.of_sampled hsampled).2 hy
    cases hdone : y.2 with
    | true =>
        rw [hdone, if_pos rfl] at hcount hget
        exact Or.inr ⟨(Dict.get?_eq_none_iff _ _).mp hget, hcount⟩
    | false =>
        rw [hdone, if_neg Bool.false_ne_true] at hcount hget
        left
        refine ⟨y.1, !y.1.isStartOfNewBlock, hget, ?_, ?_⟩
        · -- the request was in one message, which is not in flight any more
          have hnone : ∀ e', ¬t'.ResultOf e' r := by
            intro e' hres'
            obtain ⟨hres', hne⟩ := (hresult e').mp hres'
            obtain ⟨fl, hfl, hmem'⟩ := hres'.inFlightTo
            have hknown := Dict.mem_of_get? hreq
            have hrun := hb e _ r hf hmem hknown
            rw [hb e' fl r hfl hmem' hknown, Option.some.injEq, Loc.running.injEq] at hrun
            exact hne (congrArg Call.updateFromOutput hrun.symm)
          rw [Bool.not_eq_true']
          exact ⟨Or.inl, fun h => h.resolve_right fun ⟨e', hres'⟩ => hnone e' hres'⟩
        · rw [← Request.numRecomputeStepsLeft_eq, hcount]
          rfl
  · left
    refine h.of_same (fun e => (hresult e).trans (and_iff_left_of_imp ?_)) ?_
    · rintro hres rfl
      exact hstep ⟨e, rfl, hres⟩
    · intro req hreq
      have hknown := (he.persists hq (Calls.Reachable.consistent hr) hu
        (Dict.mem_of_get? hreq)).resolve_right hstep
      obtain ⟨req', hreq'⟩ := (Dict.mem_iff_exists _ _).mp hknown
      refine ⟨req', hreq', ?_⟩
      rcases he.request_cases hreq' with ⟨req₀, hreq₀, hprog⟩ | ⟨rfl, rfl⟩ |
        ⟨e, msg, res, req₀, pairs, y, rfl, hf, hmem, -⟩
      · rw [hreq] at hreq₀
        cases hreq₀
        exact hprog
      · exact absurd (Dict.mem_of_get? hreq) hp
      · exact absurd ⟨e, rfl, msg, res, hf, hmem⟩ hstep

/-- When a message is executed, what is owed goes down by the full step. -/
theorem owes_execute {e : ExecutorId} {msg : SchedulerOutput} {res : ModelRunnerOutput}
    {t' : Calls κ} {π' : Placement} (hcache : cfg.cachePrefix = true)
    (hprompt : ∀ r req, f.calls.scheduler.requests.get? r = some req → req.promptTokenIds ≠ [])
    (hmsg : f.calls.inFlight.get? e = some ⟨msg, none⟩)
    (he : Calls.Effect cfg f.calls π (.finishExecution e res) t' π') (h : f.calls.Owes r n) :
    t'.Owes r (n - if msg.asksInFull f.calls.scheduler.requests r then 1 else 0) := by
  obtain ⟨req, begun, hreq, hbegun, rfl⟩ := h
  have hb := Calls.Reachable.boarded hdefer hr hπ
  cases he with
  | manager management keyed next_eq => cases management
  | @finishExecution _ _ fl m flight keyed set_eq =>
      obtain rfl : fl = ⟨msg, none⟩ := Option.some.inj (flight.symm.trans hmsg)
      by_cases hmem : r ∈ msg.numScheduledTokens
      · have hlive := (Calls.Reachable.manned hdefer hr).live hmsg
        obtain ⟨-, snap, hsnap, -⟩ := (hagrees.follows e hlive).sent msg hmsg
        rw [hsnap.asksInFull hcache hmem hreq (hprompt r req hreq)
          fun hmid => hsteady.cached e _ r req hmsg hmem hreq hmid]
        have hnone : ∀ e', ¬f.calls.ResultOf e' r := by
          rintro e' ⟨msg', res', hf', hmem'⟩
          have hknown := Dict.mem_of_get? hreq
          have hrun := hb e _ r hmsg hmem hknown
          rw [hb e' _ r hf' hmem' hknown, Option.some.injEq, Loc.running.injEq] at hrun
          rw [hrun, hmsg] at hf'
          cases hf'
        have hstart : begun = !req.isStartOfNewBlock := by
          rw [Bool.eq_iff_iff, Bool.not_eq_true', hbegun]
          exact ⟨fun h => h.resolve_right fun ⟨e', hres⟩ => hnone e' hres, Or.inl⟩
        refine ⟨req, true, hreq, iff_of_true rfl (Or.inr ⟨e, msg, res, by simp, hmem⟩), ?_⟩
        rw [hstart]
        cases req.isStartOfNewBlock with
        | true => simp [Request.fullStepsAfter]
        | false => simp [Request.fullStepsAfter]
      · have hfull : msg.asksInFull f.calls.scheduler.requests r = false := by
          have hnone := (Dict.get?_eq_none_iff _ _).mpr hmem
          simp [SchedulerOutput.asksInFull, hreq, hnone]
        rw [hfull, if_neg Bool.false_ne_true, sub_zero]
        refine Calls.Owes.of_same ⟨req, begun, hreq, hbegun, rfl⟩ ?_
          fun req hreq => ⟨req, hreq, rfl⟩
        intro e'
        by_cases hee : e' = e
        · subst hee
          simp [Calls.ResultOf, hmsg, hmem]
        · simp [Calls.ResultOf, hee]

end Step

/-- With prefix caching and without kills and aborts, at every moment when a request is not
in flight: when it finishes, as many more full steps of it have been executed as the planner
counted. -/
theorem recompute_count_exact (hdefer : cfg.maxNumUnfinishedRequests = none)
    (hcache : cfg.cachePrefix = true) {x y : Fleet κ Runner × (ReqId → ℕ)} {r : ReqId}
    {req : Request}
    (h : Transition.Reachable (Transition.WatchedInit (Init cfg) fun _ => 0)
      (Transition.WatchedStep (Step cfg (Crew.runners w) (Calling Calls.Undisturbed)) countFull) x)
    (hreq : x.1.calls.scheduler.requests.get? r = some req)
    (hidle : ∀ e, ¬x.1.calls.InFlightTo e r)
    (hrest : Transition.Reachable (· = x)
      (Transition.WatchedStep (Step cfg (Crew.runners w) fun f ev =>
        Calling Calls.Undisturbed f ev ∧ r ∈ f.calls.scheduler.requests) countFull) y)
    (hend : r ∉ y.1.calls.scheduler.requests) :
    (y.2 r : ℤ) = x.2 r + req.numRecomputeStepsLeft := by
  have hinv : y.1.calls.Owes r (x.2 r + req.numRecomputeStepsLeft - y.2 r) ∨
      r ∉ y.1.calls.scheduler.requests ∧ x.2 r + req.numRecomputeStepsLeft - y.2 r = 0 := by
    apply hrest.invariant (I := fun y => y.1.calls.Owes r
      (x.2 r + req.numRecomputeStepsLeft - y.2 r) ∨ r ∉ y.1.calls.scheduler.requests ∧
        x.2 r + req.numRecomputeStepsLeft - y.2 r = 0)
    · rintro y rfl
      rw [add_sub_cancel_left]
      exact Or.inl (Calls.owes_of_idle hreq hidle)
    · rintro y ev y' hy howes ⟨hstep, hcount⟩
      have hreach := Transition.Reachable.of_watched (h.trans (hy.mono fun y ev y' hs =>
        ⟨⟨hs.1.1, hs.1.2.1.1, hs.1.2.2⟩, hs.2⟩))
      obtain ⟨hr, hu, π, hπ, hsteady, hagrees⟩ := Reachable.undisturbed hdefer
        (by simp [Config.caching, hcache]) hreach
      have hcons := Calls.Reachable.consistent hr
      have howes := howes.resolve_right fun hnot => hnot.1 hstep.2.1.2
      rcases hstep.cases with ⟨c, rfl, hcall, hadd, hp, hn, hworkers⟩ |
        ⟨e, predict, msg, z, rfl, hmsg, hz, hn, hworkers⟩
      · obtain ⟨π', he⟩ := ensures_of_ok
          (Calls.ensures_effect hπ hcons.ledger hcons.keyed hp) hn
        rw [hcount]
        exact owes_call hdefer hr hπ hagrees hp hstep.2.1.1 hcall he howes
      · obtain ⟨π', he⟩ := ensures_of_ok (Calls.ensures_effect hπ hcons.ledger hcons.keyed
          (c := .finishExecution e z.2) ⟨msg, hmsg⟩) hn
        have hprompt : ∀ r req, y.1.calls.scheduler.requests.get? r = some req →
            req.promptTokenIds ≠ [] :=
          Calls.Reachable.forall_requests (P := fun req => req.promptTokenIds ≠ [])
            (fun req req' hne hgoes => by rwa [hgoes.promptTokenIds]) (fun _ _ hadd => hadd.2) hu
        left
        have hnext := owes_execute hdefer hr hπ hsteady hagrees hcache hprompt hmsg he howes
        have hone : (y'.2 r : ℤ) = y.2 r +
            if msg.asksInFull y.1.calls.scheduler.requests r then 1 else 0 := by
          rw [hcount]
          simp only [countFull, hmsg]
          split_ifs
          · rfl
          · rfl
        rwa [hone, ← sub_sub]
  rcases hinv with ⟨req', -, hreq', -⟩ | ⟨-, hzero⟩
  · exact absurd (Dict.mem_of_get? hreq') hend
  · omega

def undisturbed? {ω : Type} (f : Fleet κ ω) : FleetEvent → Bool
  | .call (.addRequest req) =>
      f.calls.genuine? (.addRequest req) && !req.promptTokenIds.isEmpty
  | .call (.setKilling _) => false
  | .call (.remove _) => false
  | .call (.finishRequests _ _ _) => false
  | _ => true

theorem undisturbed_of_undisturbed? {ω : Type} (f : Fleet κ ω) (ev : FleetEvent)
    (h : f.undisturbed? ev = true) : Calling Calls.Undisturbed f ev := by
  cases ev with
  | execute e predict => trivial
  | call c =>
      cases c with
      | addRequest req =>
          simp only [undisturbed?, Bool.and_eq_true, Bool.not_eq_true', List.isEmpty_eq_false_iff]
            at h
          exact ⟨Calls.genuine_of_genuine? f.calls (.addRequest req) h.1, h.2⟩
      | setKilling e => cases h
      | remove e => cases h
      | finishRequests arg status clock => cases h
      | _ => trivial

def unsureStep (e : ExecutorId) : List FleetEvent :=
  [.call (.schedule .still), .call (.startExecution e), .execute e fun _ _ => (7, 0),
    .call (.updateFromOutput e)]

/-- A request that is in the middle of the first of two blocks is moved at the end of the
block. One more full step is counted, and one is executed. -/
theorem recompute_count_exact_small : ∃ (x y : Fleet Unit Runner × (ReqId → ℕ)) (req : Request),
    Transition.Reachable (· = x)
      (Transition.WatchedStep (Step (Config.small true true none) (Crew.runners ⟨2, 8, 0⟩)
        fun f ev => Calling Calls.Undisturbed f ev ∧ "a" ∈ f.calls.scheduler.requests)
        countFull) y ∧
    x.1.calls.scheduler.requests.get? "a" = some req ∧ req.numRecomputeStepsLeft = 1 ∧
    (y.2 "a" : ℤ) = x.2 "a" + req.numRecomputeStepsLeft := by
  obtain ⟨x, hreach, hkeys, ⟨req, hreq, hleft⟩, hrest⟩ := exists_of_ensures
    (reachable_of_replay (Config.small true true none) (Crew.runners ⟨2, 8, 0⟩)
      undisturbed_of_undisturbed? countFull (fun _ => 0) [(0, [0]), (1, [1])]
      [.call (.addRequest (Request.small "a")), .call (.schedule .still),
        .call (.startExecution 0), .call (.announceKill 0), .execute 0 fun _ _ => (7, 0),
        .call (.updateFromOutput 0)])
    (Q := fun x => x.1.calls.inFlight.keys = [] ∧
      (∃ req ∈ x.1.calls.scheduler.requests.get? "a", req.numRecomputeStepsLeft = 1) ∧
      (proceed (Config.small true true none) (Crew.runners ⟨2, 8, 0⟩)
        (fun f ev => f.undisturbed? ev && decide ("a" ∈ f.calls.scheduler.requests)) countFull
        (unsureStep 0 ++ unsureStep 1 ++ unsureStep 1) x).Ensures (fun _ => False) fun y =>
          "a" ∉ y.1.calls.scheduler.requests) (by decide +kernel)
  obtain ⟨y, hy, hend⟩ := hrest.exists_ok
  have hrest : Transition.Reachable (· = x)
      (Transition.WatchedStep (Step (Config.small true true none) (Crew.runners ⟨2, 8, 0⟩)
        fun f ev => Calling Calls.Undisturbed f ev ∧ "a" ∈ f.calls.scheduler.requests)
        countFull) y := by
    refine ensures_of_ok (reachable_of_proceed (fun f ev htest => ?_) _ (.start rfl)) hy
    rw [Bool.and_eq_true] at htest
    exact ⟨undisturbed_of_undisturbed? f ev htest.1, of_decide_eq_true htest.2⟩
  have hidle : ∀ e, ¬x.1.calls.InFlightTo e "a" := by
    rintro e ⟨fl, hfl, -⟩
    rw [Dict.eq_empty_of_keys hkeys] at hfl
    cases hfl
  exact ⟨x, y, req, hrest, hreq, hleft, recompute_count_exact rfl rfl hreach hreq hidle hrest hend⟩

end Fleet

end TeDiServe

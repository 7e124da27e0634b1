import TeDiServe.Placement.Flights

/-!
# Partial steps and the full steps behind them

With caching, a request is executed in full only in the first step of a block. The later
steps of the block execute the positions of the block and rely on what the full step left
in the cache of the executor. An observer takes down where each request was last executed
in full and in which block, and forgets it when the request leaves that executor.

The full step is there for every partial step as long as no id is used again while it
occurs in a message in flight. Otherwise the result of the old message counts for the new
request: its block is begun on an executor that has never executed it in full in that
block.
-/

namespace TeDiServe

/-- The counters after a step in the middle of a block: it is the same block. -/
theorem Request.curBlock_of_afterStep {req : Request} {tokenIds : List (ℕ × Token)}
    {y : Request × Bool} (hy : req.afterStep tokenIds = .ok y)
    (hmid : y.1.isStartOfNewBlock = false) : y.1.curBlock = req.curBlock := by
  unfold Request.afterStep at hy
  by_cases hnil : tokenIds = []
  · rw [if_pos hnil] at hy
    cases hy
    rfl
  · rw [if_neg hnil] at hy
    cases hreq' : req.updateFromOutput tokenIds with
    | error err =>
        rw [hreq'] at hy
        cases hy
    | ok req' =>
        rw [hreq'] at hy
        cases hy
        obtain ⟨hstep, -, -⟩ := ensures_of_ok (req.ensures_updateFromOutput tokenIds) hreq'
        have hblock : req'.checkStop.1.curBlock = req'.curBlock := by
          unfold Request.checkStop
          split_ifs <;> rfl
        have hnum : req'.checkStop.1.isStartOfNewBlock = req'.isStartOfNewBlock := by
          unfold Request.checkStop
          split_ifs <;> rfl
        rw [hnum, Request.isStartOfNewBlock, decide_eq_false_iff_not,
          hstep.curBlockNumUnmaskedTokens] at hmid
        rw [hblock, hstep.curBlock]
        unfold Request.advanceBlock at hmid ⊢
        split_ifs at hmid ⊢
        · exact absurd rfl hmid
        · rfl

/-- A step that is not full is one of a cached request in the middle of a block. -/
theorem Request.stepShape_eq_or {κ : Type} (cfg : Config κ) (cached : Bool) (req : Request) :
    req.stepShape cfg cached = (0, req.numTokens) ∨
      cached = true ∧ req.isStartOfNewBlock = false := by
  unfold Request.stepShape Request.determineRunningExecTokens
  cases cached <;> cases req.isStartOfNewBlock <;> simp

namespace Scheduler

variable {κ : Type} {s : Scheduler κ} {e : ExecutorId} {r : ReqId}

instance : Decidable (ResidentOn s e r) :=
  decidable_of_iff ((s.requestStates.get? r).bind RequestState.executorId = some e) (by
    simp [ResidentOn, Option.bind_eq_some_iff])

end Scheduler

/-- Where a request was last executed in full and in which block, if it is still there. -/
abbrev FullAt := ReqId → Option (ExecutorId × ℕ)

namespace FullAt

open Scheduler

def sentInFull (outs : Dict ExecutorId SchedulerOutput) (r : ReqId) (numTokens : ℕ) :
    Option ExecutorId :=
  (outs.entries.find? fun y =>
    y.2.execStartPos.get? r == some 0 && y.2.numScheduledTokens.get? r == some numTokens).map
      Prod.fst

def note {κ : Type} (s : Scheduler κ) (outs : Dict ExecutorId SchedulerOutput) (last : FullAt) :
    FullAt := fun r =>
  match s.requests.get? r with
  | none => last r
  | some req =>
      match sentInFull outs r req.numTokens with
      | some e => some (e, req.curBlock)
      | none => last r

def keep {κ : Type} (s : Scheduler κ) (last : FullAt) : FullAt := fun r =>
  (last r).filter fun x => decide (s.ResidentOn x.1 r)

def watch {κ : Type} (cfg : Config κ) (t : Calls κ) (c : Call) (t' : Calls κ) (last : FullAt) :
    FullAt :=
  keep t'.scheduler
    (match c with
      | .schedule env =>
          match t.scheduler.schedule cfg env with
          | .ok x => note x.1 x.2 last
          | .error _ => last
      | _ => last)

/-- The partial steps among the messages `outs`, sent from the state `s`, are backed: the
request is on the executor of the message since it was executed there in full, in the block
it is in. -/
def Backs {κ : Type} (last : FullAt) (s : Scheduler κ) (outs : Dict ExecutorId SchedulerOutput) :
    Prop :=
  ∀ e out r req n start, outs.get? e = some out → s.requests.get? r = some req →
    out.numScheduledTokens.get? r = some n → out.execStartPos.get? r = some start →
    n < req.numTokens ∨ 0 < start → last r = some (e, req.curBlock)

section Messages

variable {κ : Type} {cfg : Config κ} {t : Calls κ} {s : Scheduler κ} {p : Plan κ}
  {π π₁ π₂ : Placement} {outs : Dict ExecutorId SchedulerOutput} {last : FullAt}
  {e : ExecutorId} {r : ReqId} {n b : ℕ}

theorem keep_of_resident (h : last r = some (e, b)) (hr : s.ResidentOn e r) :
    keep s last r = some (e, b) := by
  simp [keep, h, hr]

theorem sentInFull_isSome {out : SchedulerOutput} (hout : outs.get? e = some out)
    (hstart : out.execStartPos.get? r = some 0) (hn : out.numScheduledTokens.get? r = some n) :
    (sentInFull outs r n).isSome = true := by
  unfold sentInFull
  rw [Option.isSome_map, List.find?_isSome]
  refine ⟨(e, out), (Dict.mem_entries_iff outs e out).mpr hout, ?_⟩
  simp [hstart, hn]

/-- What an observer knows: where the requests in the middle of a block, and those in a
message in flight, were executed in full in their block. -/
structure Known (t : Calls κ) (π : Placement) (last : FullAt) : Prop where
  resident : ∀ r req e, t.scheduler.requests.get? r = some req → π r = some (.running e) →
    req.isStartOfNewBlock = false → last r = some (e, req.curBlock)
  flying : ∀ e f r req, t.inFlight.get? e = some f → r ∈ f.message.numScheduledTokens →
    t.scheduler.requests.get? r = some req → last r = some (e, req.curBlock)

/-- A request that is sent is executed in full, or it was there before and is in the middle
of a block. -/
theorem full_or_cached (hr : Readied cfg t.scheduler π p π₁ π₂)
    (hret : Returned cfg t.scheduler p π₁ π₂ s outs) {out : SchedulerOutput} {req : Request}
    (hout : outs.get? e = some out) (hmem : r ∈ out.numScheduledTokens)
    (hreq : t.scheduler.requests.get? r = some req) :
    (out.numScheduledTokens.get? r = some req.numTokens ∧ out.execStartPos.get? r = some 0) ∨
      π r = some (.running e) ∧ req.isStartOfNewBlock = false := by
  obtain ⟨-, -, hfor, -⟩ := hret.issued.sent e out hout
  have hrun := (hfor.tokens r).mp hmem
  obtain ⟨req₁, hreq₁, -⟩ := hr.refines.request hrun
  have hprog : req₁.progress = req.progress := by
    rcases hr.requests r with heq | ⟨-, hnone⟩
    · rw [hreq₁, hreq] at heq
      exact Option.some.inj heq
    · rw [hreq₁] at hnone
      cases hnone
  obtain ⟨hn, hstart⟩ := hfor.steps r req₁ hrun hreq₁
  rw [Request.stepShape_of_progress cfg _ hprog] at hn hstart
  rcases req.stepShape_eq_or cfg (decide (π₁ r = some (.running e))) with hfull | ⟨hold, hmid⟩
  · rw [hfull] at hn hstart
    exact Or.inl ⟨hn, hstart⟩
  · exact Or.inr ⟨((hr.resident r e).mp (of_decide_eq_true hold)).1, hmid⟩

theorem Known.backs (h : Known t π last) (hr : Readied cfg t.scheduler π p π₁ π₂)
    (hret : Returned cfg t.scheduler p π₁ π₂ s outs) : Backs last t.scheduler outs := by
  intro e out r req n start hout hreq hn hstart hpart
  rcases full_or_cached hr hret hout (Dict.mem_of_get? hn) hreq with ⟨hn', hstart'⟩ | ⟨hrun, hmid⟩
  · rw [hn, Option.some.injEq] at hn'
    rw [hstart, Option.some.injEq] at hstart'
    omega
  · exact h.resident r req e hreq hrun hmid

theorem executor_of_sent {e' : ExecutorId}
    (hret : Returned cfg t.scheduler p π₁ π₂ s outs) (hrun : π₂ r = some (.running e))
    (h : sentInFull outs r n = some e') : e' = e ∧ e ∈ p.found := by
  unfold sentInFull at h
  obtain ⟨⟨e₁, out⟩, hfind, rfl⟩ := Option.map_eq_some_iff.mp h
  have hout := Dict.get?_of_mem_entries (List.mem_of_find?_eq_some hfind)
  have htest := List.find?_some hfind
  rw [Bool.and_eq_true, beq_iff_eq, beq_iff_eq] at htest
  obtain ⟨hfound, -, hfor, -⟩ := hret.issued.sent e₁ out hout
  have hrun' := (hfor.tokens r).mp (Dict.mem_of_get? htest.2)
  rw [hrun] at hrun'
  cases hrun'
  exact ⟨rfl, hfound⟩

/-- A request that is sent was executed in full in its block, now or before. -/
theorem Known.note_of_sent (h : Known t π last) (hr : Readied cfg t.scheduler π p π₁ π₂)
    (hret : Returned cfg t.scheduler p π₁ π₂ s outs) {out : SchedulerOutput} {req : Request}
    (hout : outs.get? e = some out) (hmem : r ∈ out.numScheduledTokens)
    (hreq : s.requests.get? r = some req) : note s outs last r = some (e, req.curBlock) := by
  have hrun := ((hret.issued.sent e out hout).2.2.1.tokens r).mp hmem
  obtain ⟨req₀, hreq₀, hprog⟩ := hret.exists_request hr hreq
  have hblock : req.curBlock = req₀.curBlock := (congrArg Request.curBlock hprog :)
  simp only [note, hreq]
  cases hsent : sentInFull outs r req.numTokens with
  | some e' =>
      obtain ⟨rfl, -⟩ := executor_of_sent hret hrun hsent
      rfl
  | none =>
      dsimp only
      rcases full_or_cached hr hret hout hmem hreq₀ with ⟨hn, hstart⟩ | ⟨hold, hmid⟩
      · rw [← Request.numTokens_of_progress hprog] at hn
        have hsome := sentInFull_isSome hout hstart hn
        rw [hsent] at hsome
        cases hsome
      · rw [hblock]
        exact h.resident r req₀ e hreq₀ hold hmid

theorem note_of_busy (hret : Returned cfg t.scheduler p π₁ π₂ s outs)
    (hrun : π₂ r = some (.running e)) (hbusy : e ∉ p.found) : note s outs last r = last r := by
  unfold note
  cases s.requests.get? r with
  | none => rfl
  | some req =>
      dsimp only
      cases hsent : sentInFull outs r req.numTokens with
      | none => rfl
      | some e' => exact absurd (executor_of_sent hret hrun hsent).2 hbusy

end Messages

/-! ## Runs -/

section Runs

variable {κ : Type} {cfg : Config κ} {t t' : Calls κ} {c : Call} {π π' : Placement}
  {last : FullAt}

theorem Known.keep (h : Known t π last) (hπ : Refines t.scheduler π) (hb : t.Boarded π) :
    Known t π (keep t.scheduler last) := by
  constructor
  · intro r req e hreq hrun hmid
    exact keep_of_resident (h.resident r req e hreq hrun hmid) (hπ.residentOn_iff.mpr hrun)
  · intro e f r req hf hr hreq
    have hrun := hb e f r hf hr (Dict.mem_of_get? hreq)
    exact keep_of_resident (h.flying e f r req hf hr hreq) (hπ.residentOn_iff.mpr hrun)

theorem Known.schedule {s : Scheduler κ}
    {outs : Dict ExecutorId SchedulerOutput} {p : Plan κ} {π₁ π₂ : Placement}
    (h : Known t π last) (hman : t.Manned) (hb : t.Boarded π)
    (hr : Readied cfg t.scheduler π p π₁ π₂)
    (hret : Returned cfg t.scheduler p π₁ π₂ s outs) :
    Known { t with
      scheduler := s
      inFlight := outs.entries.foldl (fun d y => d.set y.1 ⟨y.2, none⟩) t.inFlight } π₂
      (note s outs last) := by
  constructor
  · intro r req e hreq hrun hmid
    dsimp only at hreq
    by_cases hfound : e ∈ p.found
    · by_cases hout : e ∈ outs
      · obtain ⟨out, hout⟩ := (Dict.mem_iff_exists _ _).mp hout
        exact h.note_of_sent hr hret hout
          (((hret.issued.sent e out hout).2.2.1.tokens r).mpr hrun) hreq
      · exact absurd hrun ((hret.issued.skipped e hfound (by simp) hout).1 r)
    · obtain ⟨req₀, hreq₀, hprog⟩ := hret.exists_request hr hreq
      have hblock : req.curBlock = req₀.curBlock := (congrArg Request.curBlock hprog :)
      have hstart : req.isStartOfNewBlock = req₀.isStartOfNewBlock :=
        (congrArg Request.isStartOfNewBlock hprog :)
      rw [note_of_busy hret hrun hfound, hblock]
      have hold := (hr.resident r e).mp ((hr.busy r e hfound).mp hrun)
      exact h.resident r req₀ e hreq₀ hold.1 (hstart ▸ hmid)
  · intro e f r req hf hmem hreq
    dsimp only at hf hreq
    rw [Calls.get?_dispatch] at hf
    cases hout : outs.get? e with
    | some out =>
        rw [hout] at hf
        cases hf
        exact h.note_of_sent hr hret hout hmem hreq
    | none =>
        rw [hout] at hf
        obtain ⟨req₀, hreq₀, hprog⟩ := hret.exists_request hr hreq
        have hblock : req.curBlock = req₀.curBlock := (congrArg Request.curBlock hprog :)
        have hrun := hman.running_of_running hr hf (hb e f r hf hmem (Dict.mem_of_get? hreq₀))
        rw [note_of_busy hret hrun (hman.not_mem_found hr hf), hblock]
        exact h.flying e f r req₀ hf hmem hreq₀

/-- A result: the requests in the message are executed on its executor, and those that are
in the middle of a block afterwards were in that block before. -/
theorem Known.updateFromOutput {e : ExecutorId} {msg : SchedulerOutput} {res : ModelRunnerOutput}
    {s : Scheduler κ} {outs : List EngineCoreOutput} {m : ExecutorsManager} {done : List ReqId}
    (h : Known t π last) (hb : t.Boarded π)
    (hflight : t.inFlight.get? e = some ⟨msg, some res⟩)
    (happ : Applied cfg { t.scheduler with droppedDeferredRequests := [] } π done s π')
    (hprog : Progressed res t.scheduler msg.numScheduledTokens.keys.reverse s outs) :
    Known { t with
      scheduler := { s with executorsManager := m }
      inFlight := t.inFlight.erase e } π' last := by
  have hrunning : ∀ {r e'}, π' r = some (.running e') → π r = some (.running e') := by
    intro r e' hrun
    rcases happ.placement r with hsame | ⟨-, hnone, -⟩
    · rw [← hsame, hrun]
    · rw [hnone] at hrun
      cases hrun
  constructor
  · intro r req e' hreq hrun hmid
    dsimp only at hreq
    by_cases hmem : r ∈ msg.numScheduledTokens
    · obtain ⟨req₀, hreq₀, -, -⟩ := happ.requests r req hreq
      obtain ⟨tokenIds, y, -, hy, hs⟩ := hprog.stepped r (List.mem_reverse.mpr hmem) req₀ hreq₀
      rw [hs] at hreq
      split_ifs at hreq
      cases hreq
      have hold := hb e _ r hflight hmem (Dict.mem_of_get? hreq₀)
      rw [hrunning hrun, Option.some.injEq, Loc.running.injEq] at hold
      rw [hold, Request.curBlock_of_afterStep hy hmid]
      exact h.flying e _ r req₀ hflight hmem hreq₀
    · rw [hprog.others r (Or.inl fun hr => hmem (List.mem_reverse.mp hr))] at hreq
      exact h.resident r req e' hreq (hrunning hrun) hmid
  · intro e' f r req hf hmem hreq
    dsimp only at hf hreq
    rw [Dict.get?_erase] at hf
    split_ifs at hf with he
    obtain ⟨req₀, hreq₀, -, -⟩ := happ.requests r req hreq
    -- the request is on one executor, so it is not in the message whose result is applied
    have hnot : r ∉ msg.numScheduledTokens := by
      intro hmsg
      have hrun := hb e' f r hf hmem (Dict.mem_of_get? hreq₀)
      rw [hb e _ r hflight hmsg (Dict.mem_of_get? hreq₀), Option.some.injEq,
        Loc.running.injEq] at hrun
      exact he hrun.symm
    rw [hprog.others r (Or.inl fun hr => hnot (List.mem_reverse.mp hr))] at hreq
    exact h.flying e' f r req hf hmem hreq

theorem watch_of_ne (hc : ∀ env, c ≠ .schedule env) : watch cfg t c t' last =
    FullAt.keep t'.scheduler last := by
  cases c with
  | schedule env => exact absurd rfl (hc env)
  | _ => rfl

theorem Known.step (h : Known t π last) (he : Calls.Effect cfg t π c t' π')
    (hp : t.Possible cfg c) (hnew : t.NotInFlight c) (hπ : Refines t.scheduler π) (hq : t.Quiet)
    (hman : t.Manned) (hb : t.Boarded π) (hπ' : Refines t'.scheduler π')
    (hb' : t'.Boarded π') :
    Known t' π' (watch cfg t c t' last) := by
  have hsame : ∀ {s : Scheduler κ}, s.requests = t.scheduler.requests →
      Known { t with scheduler := s } π last := by
    intro s hs
    refine ⟨?_, ?_⟩ <;> dsimp only <;> rw [hs]
    · exact h.resident
    · exact h.flying
  cases he with
  | @addRequest req s _ refines ledger extends_ enrolled requests dropped deferred =>
      rw [watch_of_ne (by simp)]
      refine Known.keep ⟨?_, ?_⟩ hπ' hb'
      · intro r req' e hreq' hrun hmid
        have hold := (extends_.eq_some_iff (by simp)).mp hrun
        obtain ⟨req₀, hreq₀, -⟩ := hπ.request hold
        have hne : r ≠ req.requestId := fun heq => hp (heq ▸ Dict.mem_of_get? hreq₀)
        dsimp only at hreq'
        rw [requests, Dict.get?_set, if_neg hne] at hreq'
        exact h.resident r req' e hreq' hold hmid
      · intro e f r req' hf hmem hreq'
        have hne : r ≠ req.requestId := fun heq => hnew e f hf (heq ▸ hmem)
        dsimp only at hreq'
        rw [requests, Dict.get?_set, if_neg hne] at hreq'
        exact h.flying e f r req' hf hmem hreq'
  | @schedule env s outs p π₁ _ readied returned course loop schedule_eq =>
      have hflush := flush_of_quiet (s := s) (by
        rw [returned.issued.framed.droppedDeferredRequests, (readied.quiet hq.1).2, hq.2])
        p.found outs
      rw [hflush] at hb' schedule_eq ⊢
      simp only [watch, schedule_eq]
      exact (h.schedule hman hb readied returned).keep hπ' hb'
  | manager management keyed next_eq =>
      rw [watch_of_ne (by rintro env rfl; cases management)]
      exact Known.keep (hsame rfl) hπ' hb'
  | @finishExecution e₀ res f₀ m flight keyed set_eq =>
      rw [watch_of_ne (by simp)]
      refine Known.keep ⟨h.resident, ?_⟩ hπ' hb'
      intro e f r req hf hmem hreq
      dsimp only at hf
      rw [Dict.get?_set] at hf
      by_cases he : e = e₀
      · rw [if_pos he, Option.some.injEq] at hf
        rw [← hf] at hmem
        exact h.flying e f₀ r req (he ▸ flight) hmem hreq
      · rw [if_neg he] at hf
        exact h.flying e f r req hf hmem hreq
  | updateFromOutput flight apply_eq visited applied progressed keyed set_eq =>
      rw [watch_of_ne (by simp)]
      exact Known.keep (h.updateFromOutput hb flight applied progressed) hπ' hb'
  | finishRequests finish_eq finished abortable aborted =>
      rw [watch_of_ne (by simp)]
      refine Known.keep ⟨?_, ?_⟩ hπ' hb'
      · intro r req e hreq hrun hmid
        exact h.resident r req e (aborted.requests r req hreq) (aborted.running_iff.mp hrun).1 hmid
      · intro e f r req hf hmem hreq
        exact h.flying e f r req hf hmem (aborted.requests r req hreq)
  | refreshEstimates soft =>
      rw [watch_of_ne (by simp)]
      exact Known.keep (hsame soft.requests) hπ' hb'
  | controlLoad inRange minInRange =>
      rw [watch_of_ne (by simp)]
      exact Known.keep (hsame rfl) hπ' hb'

abbrev Reachable (cfg : Config κ) (allowed : Calls κ → Call → Prop) : Calls κ × FullAt → Prop :=
  Transition.Reachable (Transition.WatchedInit (Calls.Init cfg) fun _ => none)
    (Transition.WatchedStep (Calls.Step cfg allowed) (watch cfg))

theorem Reachable.known (hdefer : cfg.maxNumUnfinishedRequests = none) {x : Calls κ × FullAt}
    (h : Reachable cfg Calls.NotInFlight x) (hπ : Refines x.1.scheduler π) : Known x.1 π x.2 := by
  have hinv : ∃ π, Refines x.1.scheduler π ∧ Known x.1 π x.2 := by
    apply h.invariant
    · rintro ⟨t, last⟩ ⟨ht, -⟩
      obtain ⟨m, -, hπ, -, -, -, hnone⟩ := Calls.built_of_init ht
      refine ⟨_, hπ, ?_, ?_⟩
      · intro r req e _ hrun
        cases hrun
      · intro e f r req hf
        dsimp only at hf
        rw [hnone] at hf
        cases hf
    · rintro ⟨t, last⟩ c ⟨t', last'⟩ hr ⟨π, hπ, hk⟩ ⟨hstep, hlast⟩
      dsimp only at hstep hlast hπ hk
      have hreach := Transition.Reachable.of_watched hr
      have hnext : Calls.Reachable cfg Calls.NotInFlight t' := hreach.next hstep
      have hcons := Calls.Reachable.consistent hreach
      obtain ⟨π', he⟩ := ensures_of_ok
        (Calls.ensures_effect hπ hcons.ledger hcons.keyed hstep.1) hstep.2.2
      have hπ' := (Calls.Effect.consistent hcons hπ he).2
      refine ⟨π', hπ', ?_⟩
      rw [hlast]
      exact hk.step he hstep.1 hstep.2.1 hπ (Calls.Reachable.quiet hdefer hreach)
        (Calls.Reachable.manned hdefer hreach) (Calls.Reachable.boarded hdefer hreach hπ) hπ'
        (Calls.Reachable.boarded hdefer hnext hπ')
  obtain ⟨π₀, hπ₀, hk⟩ := hinv
  refine ⟨?_, hk.flying⟩
  intro r req e hreq hrun hmid
  exact hk.resident r req e hreq (hπ₀.residentOn_iff.mp (hπ.residentOn_iff.mpr hrun)) hmid

/-- Without deferral, in every run in which no id is used for a new request while it occurs
in a message in flight, every partial step is backed by a full one in the same block, after
which the request has stayed on the executor. -/
theorem cached_steps_backed (cfg : Config κ) (hdefer : cfg.maxNumUnfinishedRequests = none)
    {x : Calls κ × FullAt} (h : Reachable cfg Calls.NotInFlight x) {env : ScheduleEnv}
    {s' : Scheduler κ} {outs : Dict ExecutorId SchedulerOutput}
    (hs : x.1.scheduler.schedule cfg env = .ok (s', outs)) :
    Backs x.2 x.1.scheduler outs := by
  have hreach := Transition.Reachable.of_watched h
  have hcons := Calls.Reachable.consistent hreach
  have hq := Calls.Reachable.quiet hdefer hreach
  obtain ⟨π, hπ⟩ := hcons.refines
  obtain ⟨p, π₁, π₂, outs', hr, hret, hflush, -, -⟩ :=
    ensures_of_ok (ensures_schedule_course env hπ hcons.ledger hcons.keyed) hs
  dsimp only at hret hflush
  rw [flush_of_quiet (by
    rw [hret.issued.framed.droppedDeferredRequests, (hr.quiet hq.1).2, hq.2])] at hflush
  rw [hflush]
  exact (Reachable.known hdefer h hπ).backs hr hret

end Runs

/-- The id of a request that is aborted in its second block is used again. The new request
has completed its first block on executor 1 when the result of the old one arrives. -/
def overtakenBlock : List Call :=
  [.addRequest (Request.small "a"), .addRequest (Request.small "b"), .schedule .still,
    .startExecution 0,
    .finishExecution 0 ⟨(Dict.empty.set "a" 0).set "b" 1, [[(1, 7), (2, 8)], [(1, 7)]]⟩,
    .updateFromOutput 0, .schedule .still, .startExecution 0, .launch 1 [1],
    .finishRequests (.many ["a"]) .finishedAborted (fun _ => 0),
    .addRequest (Request.small "a"), .schedule .still, .startExecution 1,
    .finishExecution 1 ⟨Dict.empty.set "a" 0, [[(1, 7), (2, 8)]]⟩, .updateFromOutput 1,
    .finishExecution 0 ⟨(Dict.empty.set "a" 0).set "b" 1, [[(3, 9)], [(2, 8)]]⟩,
    .updateFromOutput 0]

/-- Executor 1 is asked for a partial step in block 1; it has executed the request in full in
block 0 only. -/
theorem cached_step_not_backed : ∃ (x : Calls Unit × FullAt) (s' : Scheduler Unit)
    (outs : Dict ExecutorId SchedulerOutput),
    Reachable (Config.small true true none) (fun _ _ => True) x ∧
    x.1.scheduler.schedule (Config.small true true none) .still = .ok (s', outs) ∧
    (x.1.scheduler.requests.get? "a").map Request.curBlock = some 1 ∧
    x.2 "a" = some (1, 0) ∧
    (∃ out, outs.get? 1 = some out ∧ out.numScheduledTokens.get? "a" = some 2 ∧
      out.execStartPos.get? "a" = some 3) ∧
    ¬ Backs x.2 x.1.scheduler outs := by
  obtain ⟨x, hreach, hlast, ⟨req, hreq, hblock, hnum⟩, hsched⟩ := exists_of_ensures
    (Calls.reachable_of_replayWatched (Config.small true true none) Transition.allows_any
      (watch (Config.small true true none)) (fun _ => none) [(0, [0])]
      overtakenBlock)
    (Q := fun x => x.2 "a" = some (1, 0) ∧
      (∃ req ∈ x.1.scheduler.requests.get? "a", req.curBlock = 1 ∧ req.numTokens = 5) ∧
      (x.1.scheduler.schedule (Config.small true true none) .still).Ensures (fun _ => False)
        fun y => ∃ out ∈ y.2.get? 1, out.numScheduledTokens.get? "a" = some 2 ∧
          out.execStartPos.get? "a" = some 3) (by decide +kernel)
  obtain ⟨⟨s', outs⟩, hs, out, hout, hn, hstart⟩ := hsched.exists_ok
  rw [Option.mem_def] at hreq hout
  refine ⟨x, s', outs, hreach, hs, ?_, hlast, ⟨out, hout, hn, hstart⟩, ?_⟩
  · rw [hreq, Option.map_some, hblock]
  · intro hbacks
    have hback := hbacks 1 out "a" req 2 3 hout hreq hn hstart (Or.inr (by decide))
    rw [hlast, hblock] at hback
    cases hback

/-- A request in the middle of its first block, which it began with a full step. -/
theorem cached_steps_backed_small : ∃ (x : Calls Unit × FullAt) (s' : Scheduler Unit)
    (outs : Dict ExecutorId SchedulerOutput),
    Reachable (Config.small true true none) Calls.NotInFlight x ∧
    x.1.scheduler.schedule (Config.small true true none) .still = .ok (s', outs) ∧
    (∃ out, outs.get? 0 = some out ∧ out.numScheduledTokens.get? "a" = some 2 ∧
      out.execStartPos.get? "a" = some 1) ∧
    Backs x.2 x.1.scheduler outs := by
  obtain ⟨x, hreach, hsched⟩ := exists_of_ensures
    (Calls.reachable_of_replayWatched (Config.small true true none)
      Calls.notInFlight_of_notInFlight? (watch (Config.small true true none)) (fun _ => none)
      [(0, [0])]
      [.addRequest (Request.small "a"), .schedule .still, .startExecution 0,
        .finishExecution 0 ⟨Dict.empty.set "a" 0, [[(1, 7)]]⟩, .updateFromOutput 0])
    (Q := fun x =>
      (x.1.scheduler.schedule (Config.small true true none) .still).Ensures (fun _ => False)
        fun y => ∃ out ∈ y.2.get? 0, out.numScheduledTokens.get? "a" = some 2 ∧
          out.execStartPos.get? "a" = some 1) (by decide +kernel)
  obtain ⟨⟨s', outs⟩, hs, out, hout, hn, hstart⟩ := hsched.exists_ok
  exact ⟨x, s', outs, hreach, hs, ⟨out, hout, hn, hstart⟩, cached_steps_backed _ rfl hreach hs⟩

end FullAt

end TeDiServe

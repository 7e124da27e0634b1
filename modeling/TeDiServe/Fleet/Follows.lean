import TeDiServe.Fleet.Local
import TeDiServe.Worker.Replica

/-!
# Workers follow the scheduler

The scheduler tells a worker only what changes: which requests are new, which go on and which
are to be freed. `Follows` is what makes this enough. Between two messages a worker has the
requests that are on its executor, with the pairs that the scheduler has counted, and perhaps
others that it will be told to free. A message in flight suits the worker, and a result that
is not applied yet is about the requests as they were when the message was sent.

It is kept by every call, as seen from the executor, and by the execution of a message.
-/

namespace TeDiServe

/-! ## Requests -/

structure Request.Orderly (req : Request) : Prop where
  wellFormed : req.WellFormed
  inOutput : req.InOutput req.unmaskedTokenIds

namespace Request

variable {req req' : Request} {pairs : List (ℕ × Token)}

theorem Orderly.of_progress (h : req.Orderly) (hp : req'.progress = req.progress) :
    req'.Orderly := by
  have hprompt : req'.promptTokenIds = req.promptTokenIds := (congrArg Request.promptTokenIds hp :)
  have hmax : req'.maxTokens = req.maxTokens := (congrArg Request.maxTokens hp :)
  have hpairs : req'.unmaskedTokenIds = req.unmaskedTokenIds :=
    (congrArg Request.unmaskedTokenIds hp :)
  refine ⟨h.wellFormed.of_progress hp, ?_⟩
  intro p hin
  rw [hprompt, hmax]
  exact h.inOutput p (hpairs ▸ hin)

theorem Constructed.orderly (h : req.Constructed) : req.Orderly := by
  obtain ⟨mask, hfresh⟩ := h.fresh
  refine ⟨h.wellFormed, fun p hp => ?_⟩
  rw [hfresh.unmaskedTokenIds] at hp
  cases hp

theorem pairs_of_afterStep {y : Request × Bool} (hy : req.afterStep pairs = .ok y) :
    y.1.unmaskedTokenIds = req.unmaskedTokenIds ++ pairs ∧
      y.1.promptTokenIds = req.promptTokenIds ∧ y.1.maxTokens = req.maxTokens := by
  unfold afterStep at hy
  by_cases hnil : pairs = []
  · rw [if_pos hnil] at hy
    cases hy
    exact ⟨by rw [hnil, List.append_nil], rfl, rfl⟩
  · rw [if_neg hnil] at hy
    obtain ⟨req', hreq', hy⟩ := bind_eq_ok.mp hy
    cases hy
    obtain ⟨hstep, -, -⟩ := ensures_of_ok (req.ensures_updateFromOutput pairs) hreq'
    unfold checkStop
    split_ifs
    · exact ⟨hstep.unmaskedTokenIds, hstep.promptTokenIds, hstep.maxTokens⟩
    · exact ⟨hstep.unmaskedTokenIds, hstep.promptTokenIds, hstep.maxTokens⟩

/-- A request that gets pairs is not complete, and they lie in its output. -/
theorem WellFormed.of_sampled {w : WorkerConfig} {msg : SchedulerOutput} {r : ReqId}
    {cell : ℕ → Cell} (h : req.WellFormed)
    (hs : Sampler.Sampled (msg.samplerRow r (req.row w).metadata) cell pairs) :
    req.numUnmaskedTokens < req.maxTokens ∧ req.InOutput pairs := by
  have hout := hs.output
  have hin := hs.inBlock
  rw [SchedulerOutput.samplerRow, req.metadata_row] at hout hin
  dsimp only at hout hin
  have hlive : req.numUnmaskedTokens < req.maxTokens := by
    rcases h.live with hlive | ⟨hzero, -⟩
    · exact hlive
    · omega
  have hle := h.block_le hlive
  rw [Nat.add_mul, Nat.one_mul] at hle
  have hstart := h.start
  refine ⟨hlive, fun p hp => ?_⟩
  obtain ⟨hlow, hhigh⟩ := hin p hp
  omega

theorem Orderly.afterStep {w : WorkerConfig} {msg : SchedulerOutput} {r : ReqId}
    {cell : ℕ → Cell} {y : Request × Bool} (h : req.Orderly)
    (hs : Sampler.Sampled (msg.samplerRow r (req.row w).metadata) cell pairs)
    (hy : req.afterStep pairs = .ok y) (hgo : y.2 = false) : y.1.Orderly := by
  obtain ⟨-, hin⟩ := h.wellFormed.of_sampled hs
  obtain ⟨hpairs, hprompt, hmax⟩ := pairs_of_afterStep hy
  refine ⟨h.wellFormed.afterStep (fun p hp => ?_) hy hgo, fun p hp => ?_⟩
  · rw [h.wellFormed.length]
    exact (hin p hp).2
  · rw [hprompt, hmax]
    rw [hpairs] at hp
    rcases List.mem_append.mp hp with hp | hp
    · exact h.inOutput p hp
    · exact hin p hp

theorem stepShape_fst_le {κ : Type} (cfg : Config κ) (cached : Bool) (req : Request) :
    (req.stepShape cfg cached).1 ≤ req.curBlockStart := by
  cases cached with
  | false => exact Nat.zero_le _
  | true =>
      change (if cfg.cachePrefix && !req.isStartOfNewBlock then req.curBlockStart else 0) ≤ _
      split_ifs
      · exact le_rfl
      · exact Nat.zero_le _

end Request

theorem CachedRequestState.Holds.of_progress {w : WorkerConfig} {st : CachedRequestState}
    {req req' : Request} {pairs : List (ℕ × Token)} (h : st.Holds w req pairs)
    (hp : req'.progress = req.progress) : st.Holds w req' pairs :=
  h.of_eq (congrArg Request.promptTokenIds hp :) (congrArg Request.maxTokens hp :)

namespace Calls

open Scheduler

variable {κ : Type} {cfg : Config κ} {w : WorkerConfig} {t t' : Calls κ} {π π' : Placement}
  {e : ExecutorId} {x : Runner} {msg : SchedulerOutput} {snap : Dict ReqId Request}

/-- The message was made from the requests `snap`. Those that are still known have made no
step since. -/
structure Snapshot (cfg : Config κ) (t : Calls κ) (msg : SchedulerOutput)
    (snap : Dict ReqId Request) : Prop where
  repeats : msg.Repeats snap
  known : ∀ r ∈ msg.numScheduledTokens, ∃ req, snap.get? r = some req ∧ req.Orderly ∧
    (msg.execStartPos.getD r 0, msg.numScheduledTokens.getD r 0) =
      req.stepShape cfg (r ∈ msg.scheduledCachedReqs.reqIds)
  listed : ∀ r ∈ msg.numScheduledTokens, Runner.Listed msg r
  same : ∀ r ∈ msg.numScheduledTokens, ∀ req, t.scheduler.requests.get? r = some req →
    ∃ req₀, snap.get? r = some req₀ ∧ req.progress = req₀.progress
  total : msg.totalNumScheduledTokens ≠ 0 → ∃ r, r ∈ msg.numScheduledTokens

theorem Snapshot.next (h : Snapshot cfg t msg snap)
    (hsame : ∀ r ∈ msg.numScheduledTokens, SameProgress t t' r) : Snapshot cfg t' msg snap := by
  refine ⟨h.repeats, h.known, h.listed, ?_, h.total⟩
  intro r hr req' hreq'
  obtain ⟨req, hreq, hp⟩ := hsame r hr req' hreq'
  obtain ⟨req₀, hreq₀, hp₀⟩ := h.same r hr req hreq
  exact ⟨req₀, hreq₀, hp.trans hp₀⟩

/-- The requests that the worker has, or will have when it has executed the message that is
in flight. -/
def Aboard (t : Calls κ) (e : ExecutorId) (x : Runner) (r : ReqId) : Prop :=
  match t.inFlight.get? e with
  | none => r ∈ x.requests
  | some f => r ∈ f.message.numScheduledTokens

theorem aboard_of_idle (h : t.inFlight.get? e = none) (r : ReqId) :
    t.Aboard e x r ↔ r ∈ x.requests := by
  rw [Aboard, h]

theorem aboard_of_flight {f : Flight} (h : t.inFlight.get? e = some f) (r : ReqId) :
    t.Aboard e x r ↔ r ∈ f.message.numScheduledTokens := by
  rw [Aboard, h]

structure Follows (cfg : Config κ) (w : WorkerConfig) (t : Calls κ) (π : Placement)
    (e : ExecutorId) (x : Runner) : Prop where
  synced : Runner.Synced w x
  resident : ∀ r, π r = some (.running e) → t.Aboard e x r
  aboard : ∀ r, t.Aboard e x r → π r = some (.running e) ∨ r ∈ t.freeOn e
  apart : ∀ r, π r = some (.running e) → r ∉ t.freeOn e
  idle : t.inFlight.get? e = none → ∀ r st req, π r = some (.running e) →
    x.requests.get? r = some st → t.scheduler.requests.get? r = some req →
    st.Holds w req req.unmaskedTokenIds
  sent : ∀ msg, t.inFlight.get? e = some ⟨msg, none⟩ → msg.Suits x ∧ ∃ snap,
    Snapshot cfg t msg snap ∧ ∀ r ∈ msg.scheduledCachedReqs.reqIds, ∀ st req,
      x.requests.get? r = some st → snap.get? r = some req → st.Holds w req req.unmaskedTokenIds
  returned : ∀ msg res, t.inFlight.get? e = some ⟨msg, some res⟩ → ∃ snap predict,
    Snapshot cfg t msg snap ∧ Runner.Executed w msg snap predict x res

theorem follows_fresh (cfg : Config κ) (w : WorkerConfig) (hidle : t.inFlight.get? e = none)
    (hnone : ∀ r, π r ≠ some (.running e)) : Follows cfg w t π e Runner.empty := by
  refine ⟨Runner.synced_empty w, fun r hr => absurd hr (hnone r), ?_,
    fun r hr => absurd hr (hnone r), fun _ r st req hr => absurd hr (hnone r), ?_, ?_⟩
  · intro r hr
    rw [aboard_of_idle hidle] at hr
    exact absurd hr (by simp [Runner.empty])
  · intro msg hmsg
    rw [hidle] at hmsg
    cases hmsg
  · intro msg res hmsg
    rw [hidle] at hmsg
    cases hmsg

/-! ## Calls -/

theorem Follows.kept (h : Follows cfg w t π e x) (hk : Kept t π t' π' e) :
    Follows cfg w t' π' e x := by
  have haboard : ∀ r, t'.Aboard e x r ↔ t.Aboard e x r := by
    intro r
    rw [Aboard, hk.flight, Aboard]
  have hflying : ∀ {f : Flight}, t.inFlight.get? e = some f → ∀ r ∈ f.message.numScheduledTokens,
      SameProgress t t' r := fun hf r hr => hk.same r (Or.inr ⟨_, hf, hr⟩)
  refine ⟨h.synced, fun r hr => (haboard r).mpr (h.resident r (hk.resident r hr)), ?_, ?_, ?_, ?_,
    ?_⟩
  · intro r hr
    rcases h.aboard r ((haboard r).mp hr) with hrun | hfree
    · exact hk.left r hrun
    · exact Or.inr (hk.free r hfree)
  · intro r hr hfree
    rcases hk.freed r hfree with hfree | hnot
    · exact h.apart r (hk.resident r hr) hfree
    · exact hnot hr
  · intro hidle r st req' hr hst hreq'
    rw [hk.flight] at hidle
    have hrun := hk.resident r hr
    obtain ⟨req, hreq, hp⟩ := hk.same r (Or.inl hrun) req' hreq'
    have hpairs : req'.unmaskedTokenIds = req.unmaskedTokenIds :=
      (congrArg Request.unmaskedTokenIds hp :)
    rw [hpairs]
    exact (h.idle hidle r st req hrun hst hreq).of_progress hp
  · intro msg hmsg
    rw [hk.flight] at hmsg
    obtain ⟨hsuits, snap, hsnap, hhold⟩ := h.sent msg hmsg
    exact ⟨hsuits, snap, hsnap.next (hflying hmsg), hhold⟩
  · intro msg res hmsg
    rw [hk.flight] at hmsg
    obtain ⟨snap, predict, hsnap, hexec⟩ := h.returned msg res hmsg
    exact ⟨snap, predict, hsnap.next (hflying hmsg), hexec⟩

theorem Follows.suits (h : Follows cfg w t π e x) (hs : SentTo cfg t π t' π' e msg)
    (hord : ∀ r req, t'.scheduler.requests.get? r = some req → req.Orderly) : msg.Suits x := by
  have hout := hs.output
  have haboard := fun r => aboard_of_idle (x := x) hs.idle r
  refine ⟨hout.nodupNew, hout.nodupCached, ?_, ?_, ?_, ?_, ?_, ?_⟩
  · intro r
    rw [hout.tokens, hout.new, hout.cached]
    tauto
  · intro r hnew hcached
    exact ((hout.new r).mp hnew).2 ((hout.cached r).mp hcached).2
  · intro r hnew hmem
    rcases h.aboard r ((haboard r).mpr hmem) with hrun | hfree
    · exact absurd hrun ((hout.new r).mp hnew).2
    · exact (hs.free r).mpr (Or.inl hfree)
  · intro r hcached
    obtain ⟨hrun', hrun⟩ := (hout.cached r).mp hcached
    refine ⟨(haboard r).mp (h.resident r hrun), fun hfree => ?_⟩
    rcases (hs.free r).mp hfree with hfree | ⟨-, hnot⟩
    · exact h.apart r hrun hfree
    · exact hnot hrun'
  · intro r hmem
    rw [hs.free, hout.cached]
    rcases h.aboard r ((haboard r).mpr hmem) with hrun | hfree
    · tauto
    · exact Or.inl (Or.inl hfree)
  · intro d hd
    obtain ⟨req₀, b, hreq, rfl⟩ := hout.repeats.new d hd
    obtain ⟨req, hget, hp⟩ := Option.map_eq_some_iff.mp hreq
    exact ((hord _ req hget).of_progress hp.symm).inOutput

/-- A message is about the requests as they are after the call. -/
theorem SentTo.snapshot (hs : SentTo cfg t π t' π' e msg) (hπ' : Refines t'.scheduler π')
    (hord : ∀ r req, t'.scheduler.requests.get? r = some req → req.Orderly) :
    Snapshot cfg t' msg t'.scheduler.requests := by
  have hout := hs.output
  refine ⟨hout.repeats, ?_, ?_, fun r _ req hreq => ⟨req, hreq, rfl⟩, hs.total⟩
  · intro r hr
    have hrun := (hout.tokens r).mp hr
    obtain ⟨req, hreq, -⟩ := hπ'.request hrun
    obtain ⟨hn, hstart⟩ := hout.steps r req hrun hreq
    refine ⟨req, hreq, hord r req hreq, ?_⟩
    have hcached : (r ∈ msg.scheduledCachedReqs.reqIds) = (π r = some (.running e)) := by
      rw [hout.cached]
      exact propext (and_iff_right hrun)
    simp only [Dict.getD, hn, hstart, Option.getD_some, hcached]
  · intro r hr
    have hrun := (hout.tokens r).mp hr
    exact ⟨hr, (hout.starts r).mpr hrun, (hout.thresholds r).mpr hrun⟩

variable (h : Follows cfg w t π e x)
include h

theorem Follows.sentTo (hs : SentTo cfg t π t' π' e msg) (hπ' : Refines t'.scheduler π')
    (hord : ∀ r req, t'.scheduler.requests.get? r = some req → req.Orderly) :
    Follows cfg w t' π' e x := by
  have haboard := fun r => aboard_of_flight (x := x) hs.flight r
  refine ⟨h.synced, fun r hr => (haboard r).mpr ((hs.output.tokens r).mpr hr), ?_,
    fun r _ => hs.cleared r, ?_, ?_, ?_⟩
  · exact fun r hr => Or.inl ((hs.output.tokens r).mp ((haboard r).mp hr))
  · intro hidle
    rw [hs.flight] at hidle
    cases hidle
  · intro msg' hmsg'
    rw [hs.flight] at hmsg'
    cases hmsg'
    refine ⟨h.suits hs hord, _, hs.snapshot hπ' hord, ?_⟩
    intro r hr st req' hst hreq'
    have hrun := ((hs.output.cached r).mp hr).2
    obtain ⟨req, hreq, hp⟩ := hs.same r req' hreq'
    have hpairs : req'.unmaskedTokenIds = req.unmaskedTokenIds :=
      (congrArg Request.unmaskedTokenIds hp :)
    rw [hpairs]
    exact (h.idle hs.idle r st req hrun hst hreq).of_progress hp
  · intro msg' res hmsg'
    rw [hs.flight] at hmsg'
    cases hmsg'

/-- The pairs of a result that is not applied yet, in terms of the request as it is now. -/
theorem Follows.sampled {res : ModelRunnerOutput} {r : ReqId} {req : Request}
    {pairs : List (ℕ × Token)} (hf : t.inFlight.get? e = some ⟨msg, some res⟩)
    (hr : r ∈ msg.numScheduledTokens) (hreq : t.scheduler.requests.get? r = some req)
    (htok : res.tokensOf r = some pairs) :
    ∃ st predict, x.requests.get? r = some st ∧ st.Holds w req (req.unmaskedTokenIds ++ pairs) ∧
      Sampler.Sampled (msg.samplerRow r (req.row w).metadata) ((req.row w).cell w predict r)
        pairs := by
  obtain ⟨snap, predict, hsnap, hexec⟩ := h.returned msg res hf
  obtain ⟨req₀, hreq₀, hp⟩ := hsnap.same r hr req hreq
  obtain ⟨req₁, st, hreq₁, hst, hholds, hsampled⟩ := hexec.emitted r hr pairs htok
  obtain rfl : req₀ = req₁ := Option.some.inj (hreq₀.symm.trans hreq₁)
  have hpairs : req.unmaskedTokenIds = req₀.unmaskedTokenIds :=
    (congrArg Request.unmaskedTokenIds hp :)
  have hrow : req.row w = req₀.row w := (congrArg (Request.row w) hp :)
  refine ⟨st, predict, hst, hpairs ▸ hholds.of_progress hp, ?_⟩
  rw [hrow]
  exact hsampled

theorem Follows.applied {res : ModelRunnerOutput} (ha : AppliedOn t π t' π' e msg res)
    (hπ : Refines t.scheduler π) : Follows cfg w t' π' e x := by
  have hexec : ∀ r, r ∈ x.requests ↔ r ∈ msg.numScheduledTokens := by
    obtain ⟨snap, predict, -, hexec⟩ := h.returned msg res ha.flight
    exact hexec.scheduled
  have haboard : ∀ r, t'.Aboard e x r ↔ t.Aboard e x r := by
    intro r
    rw [aboard_of_idle ha.idle, aboard_of_flight ha.flight, hexec]
  refine ⟨h.synced, fun r hr => (haboard r).mpr (h.resident r (ha.resident r hr)), ?_, ?_, ?_, ?_,
    ?_⟩
  · intro r hr
    rcases h.aboard r ((haboard r).mp hr) with hrun | hfree
    · exact ha.left r hrun
    · exact Or.inr (ha.free r hfree)
  · intro r hr hfree
    rcases ha.freed r hfree with hfree | hnot
    · exact h.apart r (ha.resident r hr) hfree
    · exact hnot hr
  · intro _ r st req' hr hst hreq'
    have hrun := ha.resident r hr
    obtain ⟨req, hreq, -⟩ := hπ.request hrun
    have hmem : r ∈ msg.numScheduledTokens := (aboard_of_flight ha.flight r).mp (h.resident r hrun)
    obtain ⟨pairs, y, htok, hy, hs⟩ := ha.stepped r hmem req hreq
    obtain ⟨st', predict, hst', hholds, -⟩ := h.sampled ha.flight hmem hreq htok
    obtain rfl : st = st' := Option.some.inj (hst.symm.trans hst')
    rw [hs] at hreq'
    split_ifs at hreq'
    cases hreq'
    obtain ⟨hpairs, hprompt, hmax⟩ := Request.pairs_of_afterStep hy
    rw [hpairs]
    exact hholds.of_eq hprompt hmax
  · intro msg' hmsg'
    rw [ha.idle] at hmsg'
    cases hmsg'
  · intro msg' res' hmsg'
    rw [ha.idle] at hmsg'
    cases hmsg'

/-! ## Executions -/

theorem Follows.ensures_executeModel {m : ExecutorsManager}
    (hmsg : t.inFlight.get? e = some ⟨msg, none⟩) (predict : Prediction) :
    (x.executeModel w msg predict).Ensures (fun _ => True) fun y =>
      Follows cfg w { t.withManager m with inFlight := t.inFlight.set e ⟨msg, some y.2⟩ } π e
        y.1 := by
  obtain ⟨hsuits, snap, hsnap, hhold⟩ := h.sent msg hmsg
  have hstart : ∀ r ∈ msg.numScheduledTokens, ∀ req, snap.get? r = some req →
      msg.execStartPos.getD r 0 ≤ req.curBlockStart ∧
        req.promptTokenIds.length ≤ req.curBlockStart := by
    intro r hr req hreq
    obtain ⟨req', hreq', hord, hshape⟩ := hsnap.known r hr
    obtain rfl : req = req' := Option.some.inj (hreq.symm.trans hreq')
    have hfst : msg.execStartPos.getD r 0 = (req.stepShape cfg _).1 := congrArg Prod.fst hshape
    refine ⟨hfst ▸ req.stepShape_fst_le cfg _, ?_⟩
    rw [hord.wellFormed.start]
    exact Nat.le_add_right _ _
  refine (h.synced.ensures_executeModel hsuits hsnap.repeats hhold hsnap.listed hsnap.total
    hstart).mono (fun _ _ => trivial) ?_
  rintro ⟨x', res⟩ ⟨-, hexec⟩
  have hflight : (t.inFlight.set e ⟨msg, some res⟩).get? e = some ⟨msg, some res⟩ := by simp
  have haboard : ∀ r, ({ t.withManager m with
      inFlight := t.inFlight.set e ⟨msg, some res⟩ } : Calls κ).Aboard e x' r ↔
      t.Aboard e x r := by
    intro r
    rw [aboard_of_flight hmsg]
    exact aboard_of_flight (f := ⟨msg, some res⟩) hflight r
  refine ⟨hexec.synced, fun r hr => (haboard r).mpr (h.resident r hr),
    fun r hr => h.aboard r ((haboard r).mp hr), h.apart, ?_, ?_, ?_⟩
  · intro hidle
    rw [hflight] at hidle
    cases hidle
  · intro msg' hmsg'
    rw [hflight] at hmsg'
    cases hmsg'
  · intro msg' res' hmsg'
    rw [hflight] at hmsg'
    cases hmsg'
    exact ⟨snap, predict, ⟨hsnap.repeats, hsnap.known, hsnap.listed, hsnap.same, hsnap.total⟩,
      hexec⟩

end Calls

end TeDiServe

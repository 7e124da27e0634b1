import TeDiServe.Placement.Run

/-!
# The token budget of a step

An executor is never promised more tokens than one step may have. The search for an
executor checks the projected batch of the receiver, and every move of a round is
made on the state in which it was checked, so the bound is kept move by move; the
other calls give no executor a request. A message has at most as many tokens as
the requests it schedules, because a step in the middle of a block runs at most
the whole sequence.
-/

namespace TeDiServe

namespace Request.WellFormed

variable {req req' : Request}

theorem of_progress (h : req.WellFormed) (hp : req'.progress = req.progress) :
    req'.WellFormed := by
  have hsize : req'.denoiseBlockSize = req.denoiseBlockSize :=
    (congrArg Request.denoiseBlockSize hp :)
  have hmax : req'.maxTokens = req.maxTokens := (congrArg Request.maxTokens hp :)
  have hprompt : req'.promptTokenIds = req.promptTokenIds :=
    (congrArg Request.promptTokenIds hp :)
  have hpairs : req'.unmaskedTokenIds = req.unmaskedTokenIds :=
    (congrArg Request.unmaskedTokenIds hp :)
  have hblock : req'.curBlock = req.curBlock := (congrArg Request.curBlock hp :)
  have hstart : req'.curBlockStart = req.curBlockStart := (congrArg Request.curBlockStart hp :)
  have hnum : req'.curBlockNumUnmaskedTokens = req.curBlockNumUnmaskedTokens :=
    (congrArg Request.curBlockNumUnmaskedTokens hp :)
  obtain ⟨h1, h2, h3, h4, h5, h6, h7⟩ := h
  rw [← Request.numTokens_of_progress hp] at h3
  unfold numUnmaskedTokens at h5 h7
  rw [← hsize] at h1 h2 h4 h5 h6
  rw [← hmax] at h2 h3 h7
  rw [← hprompt] at h3 h4
  rw [← hpairs] at h5 h7
  rw [← hblock] at h4 h5
  rw [← hnum] at h5 h6
  rw [← hstart] at h4
  exact ⟨h1, h2, h3, h4, h5, h6, h7⟩

theorem stepShape_le {κ : Type} (cfg : Config κ) (cached : Bool) (h : req.WellFormed) :
    (req.stepShape cfg cached).2 ≤ req.numTokens := by
  unfold stepShape determineRunningExecTokens
  cases cached with
  | false => exact le_rfl
  | true =>
      rw [if_pos rfl]
      dsimp only
      split_ifs with hcached
      · apply h.blockSize_le
        simp only [isStartOfNewBlock, Bool.and_eq_true, Bool.not_eq_true',
          decide_eq_false_iff_not] at hcached
        exact hcached.2
      · exact Nat.sub_le _ _
      · exact Nat.sub_le _ _

end Request.WellFormed

namespace Scheduler

variable {κ : Type}

/-! ## The total of a message -/

theorem ensures_makeOutput_total (cfg : Config κ) (env : ScheduleEnv) (t : Tables)
    (s : Scheduler κ) (e : ExecutorId) :
    (s.makeOutput cfg env t e).Ensures (fun _ => True) fun x =>
      x.2.totalNumScheduledTokens = x.2.numScheduledTokens.values.sum := by
  unfold makeOutput
  dsimp only
  apply ensures_bind_any
  intro new
  apply ensures_bind_any
  intro cached
  apply ensures_bind_any
  intro x
  apply ensures_bind_any
  intro s'
  exact rfl

theorem ensures_issue_totals (cfg : Config κ) (env : ScheduleEnv)
    (notAccepting : List ExecutorId) (t : Tables) (found : List ExecutorId)
    (x : Scheduler κ × Dict ExecutorId SchedulerOutput)
    (hx : ∀ e out, x.2.get? e = some out →
      out.totalNumScheduledTokens = out.numScheduledTokens.values.sum) :
    (found.foldlM (issue cfg env notAccepting t) x).Ensures (fun _ => True) fun y =>
      ∀ e out, y.2.get? e = some out →
        out.totalNumScheduledTokens = out.numScheduledTokens.values.sum := by
  refine ensures_foldlM found (fun x e _ hx => ?_) x hx
  refine ensures_issue_of env notAccepting (fun _ => hx) fun m =>
    (ensures_makeOutput_total cfg env t _ e).imp fun y hy e' out hout => ?_
  rcases Dict.get?_set_cases hout with ⟨-, rfl⟩ | ⟨-, hout⟩
  · exact hy
  · exact hx e' out hout

def load (s : Scheduler κ) (out : SchedulerOutput) : ℕ :=
  (out.numScheduledTokens.keys.map fun r => (s.size r).getD 0).sum

/-- The sizes of requests that run on an executor are part of its load. -/
theorem Refines.sum_size_le {es : ExecutorState} {π : Placement} {e : ExecutorId}
    {batch : List ReqId} (h : Refines s π) (hes : s.executorStates.get? e = some es)
    (hnodup : batch.Nodup) (hbatch : ∀ r ∈ batch, π r = some (.running e)) :
    (batch.map fun r => (s.size r).getD 0).sum ≤ es.load s.size := by
  have hmir := h.executors e es hes
  calc (batch.map fun r => (s.size r).getD 0).sum
      = ∑ r ∈ batch.toFinset, (s.size r).getD 0 := (List.sum_toFinset _ hnodup).symm
    _ ≤ ∑ r ∈ es.getProjectedReqIds.toFinset, (s.size r).getD 0 := by
        apply Finset.sum_le_sum_of_subset
        intro r hr
        rw [List.mem_toFinset] at hr
        rw [List.mem_toFinset, hmir.mem_projected_iff]
        exact Placement.host?_of_running (hbatch r hr)
    _ = es.load s.size := hmir.load_eq_sum.symm

end Scheduler

namespace OutputFor

open Scheduler

variable {κ : Type} {cfg : Config κ} {s : Scheduler κ} {π₁ π₂ : Placement} {e : ExecutorId}
  {out : SchedulerOutput}

theorem sum_le (h : OutputFor cfg s.requests π₁ π₂ e out) (hs : Refines s π₂)
    (hwf : ∀ r req, s.requests.get? r = some req → req.WellFormed) :
    out.numScheduledTokens.values.sum ≤ s.load out := by
  have hentry : ∀ x ∈ out.numScheduledTokens.entries, x.2 ≤ (s.size x.1).getD 0 := by
    rintro ⟨r, n⟩ hx
    have hn := Dict.get?_of_mem_entries hx
    have hrun := (h.tokens r).mp (Dict.mem_of_get? hn)
    obtain ⟨req, hreq, -⟩ := hs.request hrun
    have hshape := (h.steps r req hrun hreq).1
    rw [hn, Option.some.injEq] at hshape
    rw [size, hreq, Option.map_some, Option.getD_some]
    dsimp only
    rw [hshape]
    exact (hwf r req hreq).stepShape_le cfg _
  calc out.numScheduledTokens.values.sum
      ≤ (out.numScheduledTokens.entries.map fun x => (s.size x.1).getD 0).sum :=
        List.sum_le_sum hentry
    _ = s.load out := by
        rw [Scheduler.load, Dict.keys, List.map_map]
        rfl

theorem load_le (h : OutputFor cfg s.requests π₁ π₂ e out) {es : ExecutorState} (hs : Refines s π₂)
    (hes : s.executorStates.get? e = some es) : s.load out ≤ es.load s.size :=
  hs.sum_size_le hes out.numScheduledTokens.nodup_keys fun r hr => (h.tokens r).mp hr

end OutputFor

/-! ## The load within a call -/

namespace Scheduler

variable {κ : Type} {cfg : Config κ} {s s' : Scheduler κ} {π π₁ π₂ : Placement} {p : Plan κ}
  {e : ExecutorId}

theorem Aborted.host? {ids : List ReqId} {π' : Placement} {r : ReqId}
    (h : Aborted cfg s π ids s' π') (hr : π'.host? r = some e) : π.host? r = some e := by
  obtain ⟨l', hl', hle⟩ := Option.bind_eq_some_iff.mp hr
  have hnot : r ∉ ids := by
    intro hmem
    obtain ⟨req, hreq, -⟩ := h.refines.request hl'
    exact h.gone r hmem (Dict.mem_of_get? hreq)
  cases hl : π r with
  | none =>
      rcases h.admitted r hl with hnone | ⟨-, hun⟩
      · rw [hnone] at hl'
        cases hl'
      · rw [hun] at hl'
        cases hl'
        cases hle
  | some l =>
      rw [h.kept r hnot l hl] at hl'
      cases hl'
      rw [Placement.host?, hl]
      exact hle

/-- No executor is overloaded when the round begins: admission brings no request to an
executor, and following the executors only takes requests away. -/
theorem Admitted.fits {s₀ s₁ : Scheduler κ} {π₀ : Placement} (h : Admitted cfg π s s₀ π₀)
    (hs : Refines s π) (hfits : Fits cfg s) (h₁ : Refines s₁ π₁) (hre : Reshaped s₀ s₁)
    (hevict : π₁ = π₀.evict (isGone s.executorsManager)) (predict : ReqId → ℚ → ℚ) :
    Fits cfg (s₁.drainStepEstimateUpdates cfg predict).considerIdle := by
  have hfits₀ := hfits.of_executorStates hs h.refines h.enrolled.executorStates
  have hfits₁ : Fits cfg s₁ := by
    apply hfits₀.of_hosts h.refines h₁
    · intro r e hr
      rw [hevict, Placement.host?_evict] at hr
      exact hr.1
    · intro r e _
      simp only [size, hre.requests]
  have hsoft := soft_drainStepEstimateUpdates cfg predict s₁
  have hstart : Refines (s₁.drainStepEstimateUpdates cfg predict).considerIdle π₁ :=
    (hsoft.framed.refines h₁).of_manager _
  exact hfits₁.of_executorStates h₁ hstart hsoft.framed.executorStates

theorem Course.fits {env : ScheduleEnv} {s₀ s₁ : Scheduler κ} {π₀ : Placement}
    (h : Course cfg env s π s₀ π₀ s₁ π₁ p π₂) (hs : Refines s π) (hfits : Fits cfg s) :
    Fits cfg p.scheduler := by
  have h₂ : Fits cfg (s₁.drainStepEstimateUpdates cfg env.predict).considerIdle :=
    h.admitted.fits hs hfits h.refines h.reshaped h.evicted env.predict
  rcases h.derived with ⟨-, -, heq⟩ | ⟨q, hmoves, hin, -, hframed, -⟩
  · rw [heq]
    exact h₂
  · exact (hmoves.fits h₂).of_executorStates hin.refines (hframed.refines hin.refines)
      hframed.executorStates

theorem Course.load_le {env : ScheduleEnv} {s₀ s₁ : Scheduler κ} {π₀ : Placement}
    {outs : Dict ExecutorId SchedulerOutput} {out : SchedulerOutput}
    (h : Course cfg env s π s₀ π₀ s₁ π₁ p π₂) (hs : Refines s π) (hfits : Fits cfg s)
    (hp : Readied cfg s π p π₁ π₂) (hr : Returned cfg s p π₁ π₂ s' outs)
    (hout : outs.get? e = some out) : p.scheduler.load out ≤ cfg.maxNumScheduledTokens := by
  obtain ⟨hfound, -, hfor, -⟩ := hr.issued.sent e out hout
  have hrec : e ∈ p.scheduler.executorStates :=
    (hp.recorded e).mpr (hp.isGone_of_found hfound)
  obtain ⟨es, hes⟩ := (Dict.mem_iff_exists _ _).mp hrec
  exact (hfor.load_le hp.refines hes).trans (h.fits hs hfits e es hes)

theorem Framed.load (h : Framed s s') (out : SchedulerOutput) : s'.load out = s.load out := by
  rw [Scheduler.load, Scheduler.load, h.size_eq]

end Scheduler

/-! ## Runs -/

namespace Calls

open Scheduler

variable {κ : Type} {cfg : Config κ} {t t' : Calls κ} {c : Call} {π π' : Placement}

/-- The calls that the engine makes: a request comes from its constructor, and the
pairs that an executor returns for a request are positions of its sequence, the only
ones that a worker has a row entry for. -/
def Genuine (t : Calls κ) : Call → Prop
  | .addRequest req => req.Constructed
  | .updateFromOutput e => ∀ msg res, t.inFlight.get? e = some ⟨msg, some res⟩ →
      ∀ r req tokenIds, t.scheduler.requests.get? r = some req →
        res.tokensOf r = some tokenIds → ∀ p ∈ tokenIds, p.1 < req.numTokens
  | _ => True

theorem Effect.fits (he : Effect cfg t π c t' π') (h : Refines t.scheduler π)
    (h' : Refines t'.scheduler π') (hfits : Fits cfg t.scheduler) : Fits cfg t'.scheduler := by
  cases he with
  | addRequest refines ledger extends_ enrolled requests dropped deferred =>
      exact hfits.of_executorStates h h' enrolled.executorStates
  | schedule readied returned course loop =>
      obtain ⟨s₀, π₀, s₁, hcourse⟩ := course
      exact (hcourse.fits h hfits).of_executorStates readied.refines h'
        returned.issued.framed.executorStates
  | manager management keyed => exact hfits
  | finishExecution flight keyed => exact hfits
  | updateFromOutput flight apply_eq visited applied progressed keyed =>
      apply hfits.of_hosts h h'
      · intro r e hr
        rcases applied.placement r with heq | ⟨-, hnone, -⟩
        · rwa [Placement.host?, heq] at hr
        · rw [Placement.host?, hnone] at hr
          cases hr
      · intro r e hr
        obtain ⟨n, hn⟩ := Option.ne_none_iff_exists'.mp (h'.size_ne_none_of_host hr)
        obtain ⟨req, hreq, -⟩ := Option.map_eq_some_iff.mp hn
        obtain ⟨req₀, hreq₀, hgo, -⟩ := applied.requests r req hreq
        have hreq₀' : t.scheduler.requests.get? r = some req₀ := hreq₀
        simp only [size, hreq₀', Option.map_some, ← hgo.numTokens]
        exact congrArg (Option.map Request.numTokens) hreq
  | finishRequests finish_eq finished abortable aborted =>
      apply hfits.of_hosts h h' (fun r e => aborted.host?)
      intro r e hr
      obtain ⟨n, hn⟩ := Option.ne_none_iff_exists'.mp (h'.size_ne_none_of_host hr)
      obtain ⟨req, hreq, rfl⟩ := Option.map_eq_some_iff.mp hn
      rw [hn, size, aborted.requests r req hreq, Option.map_some]
  | refreshEstimates soft => exact hfits.of_executorStates h h' soft.framed.executorStates
  | controlLoad inRange minInRange => exact hfits

def Healthy (t : Calls κ) : Prop :=
  ∀ r req, t.scheduler.requests.get? r = some req → req.WellFormed

theorem Effect.healthy (he : Effect cfg t π c t' π') (hgen : t.Genuine c) (h : Healthy t) :
    Healthy t' := by
  intro r req hreq
  rcases he.request_cases hreq with ⟨req₀, hreq₀, hp⟩ | ⟨rfl, -⟩ |
    ⟨e, msg, res, req₀, tokenIds, y, rfl, hf, -, hreq₀, htok, hy, hgo, rfl, -⟩
  · exact (h r req₀ hreq₀).of_progress hp
  · exact Request.Constructed.wellFormed hgen
  · exact ((h r req₀ hreq₀).of_marked false).afterStep
      (hgen msg res hf r req₀ tokenIds hreq₀ htok) hy hgo

/-! ## The result -/

theorem Reachable.fits {allowed : Calls κ → Call → Prop} (h : Reachable cfg allowed t) :
    Fits cfg t.scheduler := by
  apply h.invariant
  · intro t ht e es hes
    obtain ⟨m, -, hπ, -⟩ := built_of_init ht
    have hno : ∀ r, r ∉ es.getProjectedReqIds := by
      intro r hr
      have hhost := (hπ.executors e es hes).mem_projected_iff.mp hr
      rw [Placement.host?_evict] at hhost
      cases hhost.1
    rw [ExecutorState.load, List.eq_nil_iff_forall_not_mem.mpr hno]
    exact Nat.zero_le _
  · intro t c t' hr ht hstep
    have hcons := Reachable.consistent hr
    obtain ⟨π, π', hπ, he⟩ := hcons.effect hstep
    exact he.fits hπ (he.consistent hcons hπ).2 ht

theorem healthy_of_init (h : Init cfg t) : Healthy t := by
  intro r req hreq
  obtain ⟨m, -, -, -, -, hre, -⟩ := built_of_init h
  rw [hre.requests] at hreq
  cases hreq

theorem Reachable.healthy (h : Reachable cfg Genuine t) : Healthy t := by
  apply h.invariant
  · exact fun t ht => healthy_of_init ht
  · intro t c t' hr ht hstep
    obtain ⟨π, π', -, he⟩ := (Reachable.consistent hr).effect hstep
    exact he.healthy hstep.2.1 ht

theorem Reachable.message_le {allowed : Calls κ → Call → Prop} (h : Reachable cfg allowed t)
    {env : ScheduleEnv} {s' : Scheduler κ} {outs : Dict ExecutorId SchedulerOutput}
    (hs : t.scheduler.schedule cfg env = .ok (s', outs)) {e : ExecutorId}
    {out : SchedulerOutput} (hout : outs.get? e = some out) :
    s'.load out ≤ cfg.maxNumScheduledTokens ∧
      (Healthy t → out.totalNumScheduledTokens ≤ s'.load out) := by
  have hcons := Reachable.consistent h
  obtain ⟨π, hπ⟩ := hcons.refines
  obtain ⟨p, π₁, π₂, outs', hp, hr, hflush, ⟨s₀, π₀, s₁, hcourse⟩, hloop⟩ :=
    ensures_of_ok (ensures_schedule_course env hπ hcons.ledger hcons.keyed) hs
  dsimp only at hr hflush hloop
  rw [hflush] at hout
  rcases get?_flush hout with hout | ⟨hempty, hzero, -⟩
  · have hload : s'.load out = p.scheduler.load out := hr.issued.framed.load out
    rw [hload]
    refine ⟨hcourse.load_le hπ (Reachable.fits h) hp hr hout, fun hhealthy => ?_⟩
    have htotal := ensures_of_ok (ensures_issue_totals cfg env p.idleNotAcceptingExecutors
      p.tables p.found (p.scheduler, Dict.empty) fun _ _ hnone => by cases hnone) hloop
    rw [htotal e out hout]
    apply (hr.issued.sent e out hout).2.2.1.sum_le hp.refines
    intro r req hreq
    rcases hp.requests r with heq | ⟨-, hnone⟩
    · obtain ⟨req₀, hreq₀, hprog⟩ := Dict.exists_of_map_eq heq hreq
      exact (hhealthy r req₀ hreq₀).of_progress hprog
    · rw [hreq] at hnone
      cases hnone
  · have hload : s'.load out = 0 := by
      rw [Scheduler.load, hempty]
      rfl
    rw [hload, hzero]
    exact ⟨Nat.zero_le _, fun _ => le_rfl⟩

/-- In every state of every run no executor is promised more tokens than one step may
have, and no message asks for more. -/
theorem token_budget (cfg : Config κ) (h : Reachable cfg Genuine t) :
    (∀ e es, t.scheduler.executorStates.get? e = some es →
      (es.getProjectedReqIds.map fun r => (t.scheduler.size r).getD 0).sum ≤
        cfg.maxNumScheduledTokens) ∧
    ∀ env s' outs, t.scheduler.schedule cfg env = .ok (s', outs) →
      ∀ e out, outs.get? e = some out →
        out.totalNumScheduledTokens ≤ cfg.maxNumScheduledTokens := by
  refine ⟨Reachable.fits h, ?_⟩
  intro env s' outs hs e out hout
  obtain ⟨hload, htotal⟩ := Reachable.message_le h hs hout
  exact (htotal (Reachable.healthy h)).trans hload

def genuine? (t : Calls κ) : Call → Bool
  | .addRequest req =>
      match Request.create req.requestId req.clientIndex req.arrivalTime req.latencySlo
        req.promptTokenIds (req.allTokenIds.getD req.promptTokenIds.length 0) req.maxTokens
        req.denoiseBlockSize with
      | .ok req' => req' = req
      | .error _ => false
  | .updateFromOutput e =>
      match t.inFlight.get? e with
      | some ⟨_, some res⟩ => t.scheduler.requests.entries.all fun x =>
          ((res.tokensOf x.1).getD []).all fun p => p.1 < x.2.numTokens
      | _ => true
  | _ => true

theorem genuine_of_genuine? (t : Calls κ) (c : Call) (h : t.genuine? c = true) :
    t.Genuine c := by
  cases c with
  | addRequest req =>
      cases hreq : Request.create req.requestId req.clientIndex req.arrivalTime req.latencySlo
        req.promptTokenIds (req.allTokenIds.getD req.promptTokenIds.length 0) req.maxTokens
        req.denoiseBlockSize with
      | error err =>
          simp only [genuine?, hreq] at h
          cases h
      | ok req' =>
          simp only [genuine?, hreq] at h
          rw [of_decide_eq_true h] at hreq
          exact ⟨_, _, _, _, _, _, _, _, hreq⟩
  | updateFromOutput e =>
      intro msg res hf r req tokenIds hreq htok p hp
      simp only [genuine?, hf] at h
      have hentry := List.all_eq_true.mp h (r, req) ((Dict.mem_entries_iff _ _ _).mpr hreq)
      rw [htok, Option.getD_some] at hentry
      exact of_decide_eq_true (List.all_eq_true.mp hentry p hp)
  | _ => trivial

/-- Two requests on one executor, one of them in the middle of a block. -/
theorem token_budget_small : ∃ t : Calls Unit,
    Reachable (Config.small true true none) Genuine t ∧
    (∀ e es, t.scheduler.executorStates.get? e = some es →
      (es.getProjectedReqIds.map fun r => (t.scheduler.size r).getD 0).sum ≤ 100) ∧
    (t.scheduler.executorStates.get? 0).map ExecutorState.getProjectedReqIds =
      some ["a", "b"] ∧
    (t.scheduler.requests.get? "a").map Request.curBlockNumUnmaskedTokens = some 1 := by
  obtain ⟨t, hreach, hstate⟩ := exists_of_ensures
    (reachable_of_replay (Config.small true true none) genuine_of_genuine? [(0, [0])]
      [.addRequest (Request.small "a"), .addRequest (Request.small "b"), .schedule .still,
        .startExecution 0,
        .finishExecution 0 ⟨(Dict.empty.set "a" 0).set "b" 1, [[(1, 7)], [(1, 7), (2, 8)]]⟩,
        .updateFromOutput 0])
    (Q := fun t =>
      (t.scheduler.executorStates.get? 0).map ExecutorState.getProjectedReqIds =
        some ["a", "b"] ∧
      (t.scheduler.requests.get? "a").map Request.curBlockNumUnmaskedTokens = some 1)
    (by decide +kernel)
  exact ⟨t, hreach, (token_budget (Config.small true true none) hreach).1, hstate⟩

end Calls

end TeDiServe

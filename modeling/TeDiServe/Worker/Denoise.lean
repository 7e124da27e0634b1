import TeDiServe.Worker.Tracking

/-!
# Denoising one request

A request is denoised by steps of a worker, each of which unmasks some positions of the
current block, and by the scheduler, which counts the pairs. The two agree as long as the
model does not predict the mask token where a position is unmasked: then every position of
the output is emitted once, block by block.

A step may be the first one on a worker or a later one, and with caching it does not
execute all positions. The copy of the probabilities asks for all of them, or for exactly
those of the block.
-/

namespace TeDiServe

/-! ## The loop -/

def SchedulerOutput.single (req : Request) (cached : Bool) (threshold : ℚ) : SchedulerOutput :=
  { scheduledNewReqs := if cached then [] else [NewRequestData.fromRequest req []]
    scheduledCachedReqs :=
      if cached then CachedRequestData.fromRequests [req.requestId] [[]] [req]
      else CachedRequestData.fromRequests [] [] []
    numScheduledTokens := Dict.empty.set req.requestId req.numExecTokens
    execStartPos := Dict.empty.set req.requestId req.execStartPos
    totalNumScheduledTokens := req.numExecTokens
    finishedReqIds := OrderedSet.empty
    freeReqIds := OrderedSet.empty
    confidenceThresholds := Dict.empty.set req.requestId threshold }

/-- What a step depends on: whether the request stays on its worker, the threshold, and
what the model predicts. -/
structure DenoiseInput where
  stays : Bool
  threshold : ℚ
  predict : ℕ → Token × ℚ

/-- The request, its worker, what was emitted so far, and the answer of `check_stop`. -/
structure Denoising where
  request : Request
  worker : Runner
  emitted : List (List (ℕ × Token))
  stopped : Bool

namespace Denoising

variable {κ : Type} {cfg : Config κ} {w : WorkerConfig} {req : Request} {x x' : Denoising}
  {y : DenoiseInput}

def start (req : Request) : Denoising := ⟨req, Runner.empty, [], false⟩

def cached (x : Denoising) (y : DenoiseInput) : Bool := y.stays && !x.emitted.isEmpty

def issued (cfg : Config κ) (x : Denoising) (y : DenoiseInput) : Request :=
  if x.cached y then x.request.determineRunningExecTokens cfg else x.request.determineNewExecTokens

/-- One step of the worker and of the scheduler. A request that does not stay on its worker
comes to a worker without requests. -/
def step (cfg : Config κ) (w : WorkerConfig) (x : Denoising) (y : DenoiseInput) :
    Except PyError Denoising := do
  let req := x.issued cfg y
  let z ← (if x.cached y then x.worker else Runner.empty).executeModel w
    (SchedulerOutput.single req (x.cached y) y.threshold) fun _ => y.predict
  let i ← subscript z.2.reqIdToIndex .reqIdToIndex req.requestId
  let pairs ← Scheduler.generatedTokenIds z.2 i
  let next ← req.afterStep pairs
  pure ⟨next.1, z.1, x.emitted ++ [pairs], next.2⟩

def run (cfg : Config κ) (w : WorkerConfig) (x : Denoising) (inputs : ℕ → DenoiseInput) :
    ℕ → Except PyError Denoising
  | 0 => pure x
  | k + 1 => do
      let x ← run cfg w x inputs k
      x.step cfg w (inputs k)

/-- The step executes all positions or those of the block, and the model does not predict
the mask token where a position may be unmasked. -/
structure Good (cfg : Config κ) (w : WorkerConfig) (x : Denoising) (y : DenoiseInput) : Prop where
  shape : x.request.stepShape cfg (x.cached y) = (0, x.request.numTokens) ∨
    x.request.stepShape cfg (x.cached y) = (x.request.curBlockStart, x.request.denoiseBlockSize)
  token : ∀ pos, Sampler.Eligible
    ((x.request.row w).cell w (fun _ => y.predict) x.request.requestId)
    x.request.curBlockStart x.request.denoiseBlockSize y.threshold pos →
      (y.predict pos).1 ≠ w.maskTokenId

/-- What was emitted up to some step: every step has emitted something, no position twice,
and a position only after all blocks before its own. The request is complete exactly when
all positions are emitted, and when its worker has no mask token left. -/
structure Denoised (w : WorkerConfig) (req : Request) (x : Denoising) : Prop where
  nonempty : ∀ pairs ∈ x.emitted, pairs ≠ []
  distinct : (x.emitted.flatten.map Prod.fst).Nodup
  ordered : BlockOrdered req.promptTokenIds.length req.denoiseBlockSize x.emitted
  stops : x.stopped = true ↔ ∀ pos, req.promptTokenIds.length ≤ pos →
    pos < req.promptTokenIds.length + req.maxTokens → pos ∈ x.emitted.flatten.map Prod.fst
  worker : x.emitted ≠ [] → ∃ st, x.worker.requests.get? req.requestId = some st ∧
    (x.stopped = true ↔ w.maskTokenId ∉ st.outputTokenIds)

structure Sound (w : WorkerConfig) (req : Request) (x : Denoising) : Prop where
  requestId : x.request.requestId = req.requestId
  promptTokenIds : x.request.promptTokenIds = req.promptTokenIds
  maxTokens : x.request.maxTokens = req.maxTokens
  denoiseBlockSize : x.request.denoiseBlockSize = req.denoiseBlockSize
  length : x.request.numTokens = x.request.promptTokenIds.length + x.request.maxTokens
  accounted : x.request.Accounted
  tracked : x.request.Tracked w.maskTokenId
  stops : x.stopped = true ↔ x.request.numUnmaskedTokens = x.request.maxTokens
  flatten : x.emitted.flatten = x.request.unmaskedTokenIds
  nonempty : ∀ pairs ∈ x.emitted, pairs ≠ []
  ordered : BlockOrdered req.promptTokenIds.length req.denoiseBlockSize x.emitted
  worker : x.emitted ≠ [] → Runner.Synced w x.worker ∧
    (∀ r, r ∈ x.worker.requests ↔ r = x.request.requestId) ∧
    ∃ st, x.worker.requests.get? x.request.requestId = some st ∧
      st.Holds w x.request x.request.unmaskedTokenIds

theorem sound_start (h : req.Constructed) (hout : 0 < req.maxTokens) (w : WorkerConfig) :
    Sound w req (start req) := by
  obtain ⟨hwf, htracked, hnil⟩ := h.tracked w.maskTokenId
  refine ⟨rfl, rfl, rfl, rfl, hwf.length, hwf.accounted, htracked, ?_, hnil.symm, ?_, ?_, ?_⟩
  · have hne : ([] : List (ℕ × Token)).length ≠ req.maxTokens := hout.ne
    rw [← hnil] at hne
    exact iff_of_false Bool.false_ne_true hne
  · exact fun pairs hp => absurd hp List.not_mem_nil
  · intro i pairs hi
    cases hi
  · exact fun hc => absurd rfl hc

namespace Sound

theorem denoised (h : Sound w req x) : Denoised w req x := by
  have hpos : x.emitted.flatten.map Prod.fst = x.request.positions := by
    rw [h.flatten]
    rfl
  refine ⟨h.nonempty, hpos ▸ h.tracked.nodup, h.ordered, ?_, ?_⟩
  · rw [h.stops, ← h.tracked.all_iff, hpos, h.promptTokenIds, h.maxTokens]
  · intro hne
    obtain ⟨-, -, st, hst, hholds⟩ := h.worker hne
    rw [h.requestId] at hst
    refine ⟨st, hst, ?_⟩
    rw [h.stops, ← h.tracked.mask_iff, hholds.outputTokenIds]

theorem wellFormed (h : Sound w req x) (hgo : x.stopped = false) : x.request.WellFormed := by
  have hlive : x.request.numUnmaskedTokens < x.request.maxTokens :=
    lt_of_le_of_ne h.accounted.bounded fun hc => by
      rw [← h.stops, hgo] at hc
      cases hc
  exact ⟨h.accounted.positive, h.accounted.divides, h.length, h.accounted.start,
    h.accounted.count, h.accounted.incomplete, Or.inl hlive⟩

theorem lt_maxTokens (h : Sound w req x) (hgo : x.stopped = false) :
    x.request.numUnmaskedTokens < x.request.maxTokens :=
  lt_of_le_of_ne h.accounted.bounded fun hc => by
    rw [← h.stops, hgo] at hc
    cases hc

end Sound

/-! ## One step -/

theorem issued_eq (cfg : Config κ) (x : Denoising) (y : DenoiseInput) : x.issued cfg y =
    { x.request with
      execStartPos := (x.request.stepShape cfg (x.cached y)).1
      numExecTokens := (x.request.stepShape cfg (x.cached y)).2 } := by
  unfold issued Request.stepShape
  split_ifs <;> rfl

theorem repeats_single (req : Request) (cached : Bool) (threshold : ℚ) :
    (SchedulerOutput.single req cached threshold).Repeats (Dict.empty.set req.requestId req) := by
  have hget : ((Dict.empty.set req.requestId req : Dict ReqId Request).get? req.requestId).map
      Request.progress = some req.progress := by
    rw [Dict.get?_set_self, Option.map_some]
  cases cached with
  | true =>
      exact ⟨fun d hd => absurd hd List.not_mem_nil, [[]], [req], rfl, rfl,
        List.Forall₂.cons hget List.Forall₂.nil⟩
  | false =>
      refine ⟨fun d hd => ?_, [], [], rfl, rfl, List.Forall₂.nil⟩
      rw [List.mem_singleton.mp hd]
      exact ⟨req, [], hget, rfl⟩

theorem suits_single {req : Request} {x : Runner} {cached : Bool} {threshold : ℚ}
    (hin : req.InOutput req.unmaskedTokenIds)
    (hknown : ∀ r, r ∈ x.requests ↔ cached = true ∧ r = req.requestId) :
    (SchedulerOutput.single req cached threshold).Suits x := by
  cases cached with
  | true =>
      refine ⟨List.nodup_nil, List.nodup_singleton _, ?_, ?_, ?_, ?_, ?_, ?_⟩
      · intro r
        simp [SchedulerOutput.single, CachedRequestData.fromRequests]
      · exact fun r hr => absurd hr List.not_mem_nil
      · exact fun r hr => absurd hr List.not_mem_nil
      · intro r hr
        refine ⟨(hknown r).mpr ⟨rfl, List.mem_singleton.mp hr⟩, OrderedSet.not_mem_empty r⟩
      · exact fun r hr => Or.inr (List.mem_singleton.mpr ((hknown r).mp hr).2)
      · exact fun d hd => absurd hd List.not_mem_nil
  | false =>
      have hnone : ∀ r, r ∉ x.requests := fun r hr => Bool.false_ne_true ((hknown r).mp hr).1
      refine ⟨List.nodup_singleton _, List.nodup_nil, ?_, ?_, ?_, ?_, ?_, ?_⟩
      · intro r
        simp [SchedulerOutput.single, CachedRequestData.fromRequests, NewRequestData.fromRequest]
      · exact fun r _ hr => absurd hr List.not_mem_nil
      · exact fun r _ hr => absurd hr (hnone r)
      · exact fun r hr => absurd hr List.not_mem_nil
      · exact fun r hr => absurd hr (hnone r)
      · intro d hd
        rw [List.mem_singleton.mp hd]
        exact hin

theorem Sound.worker_next (h : Sound w req x) (y : DenoiseInput) :
    Runner.Synced w (if x.cached y then x.worker else Runner.empty) ∧
    (∀ r, r ∈ (if x.cached y then x.worker else Runner.empty).requests ↔
      x.cached y = true ∧ r = x.request.requestId) ∧
    ∀ st, (if x.cached y then x.worker else Runner.empty).requests.get? x.request.requestId =
      some st → st.Holds w x.request x.request.unmaskedTokenIds := by
  cases hcached : x.cached y with
  | false =>
      refine ⟨Runner.synced_empty w, fun r => ?_, fun st hst => ?_⟩
      · exact iff_of_false (Dict.not_mem_empty r) fun hc => Bool.false_ne_true hc.1
      · cases hst
  | true =>
      have hne : x.emitted ≠ [] := by
        rintro hnil
        rw [cached, hnil, List.isEmpty_nil, Bool.not_true, Bool.and_false] at hcached
        cases hcached
      obtain ⟨hsync, hknown, st, hst, hholds⟩ := h.worker hne
      refine ⟨hsync, fun r => ?_, fun st' hst' => ?_⟩
      · rw [if_pos rfl, hknown r, and_iff_right rfl]
      · rw [if_pos rfl, hst, Option.some.injEq] at hst'
        exact hst' ▸ hholds

theorem Good.shape_pos (h : x.Good cfg w y) (hwf : x.request.WellFormed)
    (hlive : x.request.numUnmaskedTokens < x.request.maxTokens) :
    0 < (x.request.stepShape cfg (x.cached y)).2 := by
  rcases h.shape with hshape | hshape
  · rw [hshape, hwf.length]
    dsimp only
    omega
  · rw [hshape]
    exact hwf.positive

theorem Sound.executable (h : Sound w req x) (hgo : x.stopped = false)
    (hfit : x.request.numTokens ≤ w.maxModelLen) (hgood : x.Good cfg w y) :
    Runner.Executable w (SchedulerOutput.single (x.issued cfg y) (x.cached y) y.threshold)
      (fun _ => y.predict) x.request.requestId ((x.issued cfg y).row w) := by
  have hshape := hgood.shape
  rw [issued_eq]
  generalize x.request.stepShape cfg (x.cached y) = shape at hshape ⊢
  refine (h.tracked.of_issue shape.1 shape.2 x.request.status).executable
    ((h.wellFormed hgo).of_issue shape.1 shape.2 x.request.status) (h.lt_maxTokens hgo) hfit ?_
  have hget : ((Dict.empty.set x.request.requestId shape.1).getD x.request.requestId 0,
      (Dict.empty.set x.request.requestId shape.2).getD x.request.requestId 0) = shape := by
    rw [Dict.getD_of_get? (Dict.get?_set_self _ _ _), Dict.getD_of_get? (Dict.get?_set_self _ _ _)]
  rw [← hget] at hshape
  exact hshape

theorem Sound.ensures_executeModel (h : Sound w req x) (hgo : x.stopped = false)
    (hfit : x.request.numTokens ≤ w.maxModelLen) (hrows : 0 < w.maxNumReqs)
    (hgood : x.Good cfg w y) :
    ((if x.cached y then x.worker else Runner.empty).executeModel w
      (SchedulerOutput.single (x.issued cfg y) (x.cached y) y.threshold) fun _ => y.predict).Ensures
      (fun _ => False) fun z =>
        Runner.Executed w (SchedulerOutput.single (x.issued cfg y) (x.cached y) y.threshold)
          (Dict.empty.set x.request.requestId (x.issued cfg y)) (fun _ => y.predict) z.1 z.2 := by
  obtain ⟨hsync, hknown, hholds⟩ := h.worker_next y
  have hwf := h.wellFormed hgo
  have hlive := h.lt_maxTokens hgo
  have hshape := hgood.shape
  have hexecutable := h.executable hgo hfit hgood
  rw [issued_eq] at hexecutable ⊢
  generalize x.request.stepShape cfg (x.cached y) = shape at hshape hexecutable ⊢
  have hrequest : ∀ r ∈ (Dict.empty.set x.request.requestId shape.2 : Dict ReqId ℕ),
      r = x.request.requestId := by
    intro r hr
    simpa using hr
  have hstart := hwf.start
  have hpos := hwf.positive
  have hlength := hwf.length
  have hfirst : shape.1 ≤ x.request.curBlockStart := by
    rcases hshape with rfl | rfl
    · exact Nat.zero_le _
    · exact Nat.le_refl _
  refine Except.Ensures.mono (hsync.ensures_executeModel (suits_single h.tracked.inOutput hknown)
    (repeats_single _ _ _) ?_ ?_ ?_ ?_) ?_ fun _ hz => hz.2
  · intro r hr st req' hst hreq'
    obtain rfl : r = x.request.requestId := by
      cases hcached : x.cached y with
      | true =>
          rw [hcached] at hr
          exact List.mem_singleton.mp hr
      | false =>
          rw [hcached] at hr
          exact absurd hr List.not_mem_nil
    rw [Dict.get?_set_self, Option.some.injEq] at hreq'
    rw [← hreq']
    exact (hholds st hst).of_eq rfl rfl
  · intro r hr
    rw [hrequest r hr]
    simp only [SchedulerOutput.single]
    exact ⟨(Dict.mem_set _ _ _ _).mpr (Or.inl rfl), (Dict.mem_set _ _ _ _).mpr (Or.inl rfl),
      (Dict.mem_set _ _ _ _).mpr (Or.inl rfl)⟩
  · exact fun _ => ⟨x.request.requestId, (Dict.mem_set _ _ _ _).mpr (Or.inl rfl)⟩
  · intro r hr req' hreq'
    obtain rfl := hrequest r hr
    rw [Dict.get?_set_self, Option.some.injEq] at hreq'
    rw [← hreq']
    refine ⟨?_, hstart ▸ Nat.le_add_right _ _⟩
    exact (Dict.getD_of_get? (Dict.get?_set_self _ _ _) 0).trans_le hfirst
  · rintro _ (hinto | ⟨r, hr, req', hreq', hnot⟩)
    · refine hinto ⟨hrows, fun d hd => ?_⟩
      obtain rfl : d = NewRequestData.fromRequest _ [] := by
        cases hcached : x.cached y with
        | true =>
            rw [hcached] at hd
            exact absurd hd List.not_mem_nil
        | false =>
            rw [hcached] at hd
            exact List.mem_singleton.mp hd
      have hnum := (CachedRequestState.current_state w { x.request with
        execStartPos := shape.1, numExecTokens := shape.2 } []).holds.numTokens
      rw [hlength] at hfit
      exact ⟨Or.inl ((Nat.le_add_right _ _).trans hfit), Or.inl (hnum.trans_le hfit)⟩
    · obtain rfl := hrequest r hr
      rw [Dict.get?_set_self, Option.some.injEq] at hreq'
      subst hreq'
      exact hnot hexecutable

/-- One good step: it emits something, and all is as before. -/
theorem Sound.ensures_step (h : Sound w req x) (hgo : x.stopped = false)
    (hfit : x.request.numTokens ≤ w.maxModelLen) (hrows : 0 < w.maxNumReqs)
    (hgood : x.Good cfg w y) :
    (x.step cfg w y).Ensures (fun _ => False) fun x' => Sound w req x' ∧
      x'.emitted.length = x.emitted.length + 1 ∧
      x.request.numUnmaskedTokens < x'.request.numUnmaskedTokens := by
  have hwf := h.wellFormed hgo
  have hlive := h.lt_maxTokens hgo
  unfold step
  dsimp only
  apply (h.ensures_executeModel hgo hfit hrows hgood).bind
  rintro ⟨worker, res⟩ hexec
  have htoken := hgood.token
  have hcovers := (h.executable hgo hfit hgood).samplable.covers
  have hpositive := hgood.shape_pos hwf hlive
  rw [issued_eq] at hexec hcovers ⊢
  generalize x.request.stepShape cfg (x.cached y) = shape at hexec hcovers hpositive ⊢
  dsimp only at hexec ⊢
  have hmem : x.request.requestId ∈ (Dict.empty.set x.request.requestId shape.2 : Dict ReqId ℕ) :=
    (Dict.mem_set _ _ _ _).mpr (Or.inl rfl)
  obtain ⟨pairs, hpairs⟩ := hexec.complete hpositive.ne' x.request.requestId hmem
  obtain ⟨req', st, hreq', hst, hholds, hsampled⟩ :=
    hexec.emitted x.request.requestId hmem pairs hpairs
  obtain ⟨i, hi, hgen⟩ := ModelRunnerOutput.exists_of_tokensOf hpairs
  rw [Dict.get?_set_self, Option.some.injEq] at hreq'
  subst hreq'
  rw [ensures_bind, subscript_of_get? _ hi, ensures_ok, ensures_bind,
    hgen, ensures_ok, ensures_bind]
  have hwf' := hwf.of_issue shape.1 shape.2 x.request.status
  have hunmasks : Sampler.Unmasks ((x.request.row w).cell w (fun _ => y.predict)
      x.request.requestId) x.request.curBlockStart x.request.denoiseBlockSize
      ((Dict.empty.set x.request.requestId y.threshold).getD x.request.requestId 0) pairs :=
    hsampled.unmasks hcovers
  rw [Dict.getD_of_get? (Dict.get?_set_self _ _ _)] at hunmasks
  obtain ⟨next, hnext, hstep, hacc, htracked, hblock⟩ :=
    (h.tracked.of_issue shape.1 shape.2 x.request.status).step hwf' hlive
      (fun pos hpos hm => ((h.tracked.of_issue shape.1 shape.2 x.request.status).isMask_iff hwf'
        hlive hfit (fun _ => y.predict) x.request.requestId hpos).mp hm) htoken
      hunmasks
  have hafter : Request.afterStep
      { x.request with execStartPos := shape.1, numExecTokens := shape.2 } pairs =
      .ok next.checkStop := by
    rw [Request.afterStep, if_neg hsampled.ne_nil, hnext]
    rfl
  rw [hafter, ensures_ok, ensures_pure]
  obtain ⟨status, hstop, hdone⟩ := next.checkStop_eq
  rw [hstop]
  have hordered : BlockOrdered req.promptTokenIds.length req.denoiseBlockSize
      (x.emitted ++ [pairs]) := by
    refine h.ordered.append fun p hp pos hlow hlt => ?_
    -- the block of the position is complete
    have hbefore : pos < x.request.curBlockStart := by
      have hhigh : p.1 < x.request.curBlockStart + x.request.denoiseBlockSize := (hblock p hp).2
      rw [← h.promptTokenIds] at hlow hlt
      rw [← h.denoiseBlockSize] at hlt
      rw [hwf.start] at hhigh ⊢
      have hsize := hwf.positive
      have hp : (p.1 - x.request.promptTokenIds.length) / x.request.denoiseBlockSize <
          x.request.curBlock + 1 := by
        rw [Nat.div_lt_iff_lt_mul hwf.positive, Nat.add_mul, Nat.one_mul]
        omega
      have hpos := hlt.trans_le (Nat.le_of_lt_succ hp)
      rw [Nat.div_lt_iff_lt_mul hwf.positive] at hpos
      omega
    rw [h.flatten]
    exact h.tracked.complete pos (h.promptTokenIds ▸ hlow) hbefore
  refine ⟨⟨?_, ?_, ?_, ?_, ?_, ?_, ?_, hdone, ?_, ?_, hordered, fun _ => ⟨hexec.synced, ?_, ?_⟩⟩,
    ?_, ?_⟩
  · exact hstep.requestId.trans h.requestId
  · exact hstep.promptTokenIds.trans h.promptTokenIds
  · exact hstep.maxTokens.trans h.maxTokens
  · exact hstep.denoiseBlockSize.trans h.denoiseBlockSize
  · refine hstep.numTokens.trans (hwf.length.trans ?_)
    rw [hstep.promptTokenIds, hstep.maxTokens]
  · exact hacc.of_issue next.execStartPos next.numExecTokens status
  · exact htracked.of_issue next.execStartPos next.numExecTokens status
  · rw [List.flatten_append, h.flatten, List.flatten_singleton]
    exact hstep.unmaskedTokenIds.symm
  · intro step hmem
    rcases List.mem_append.mp hmem with hmem | hmem
    · exact h.nonempty step hmem
    · rw [List.mem_singleton.mp hmem]
      exact hsampled.ne_nil
  · intro r
    rw [hexec.scheduled r]
    simp [SchedulerOutput.single, hstep.requestId]
  · refine ⟨st, ?_, ?_⟩
    · dsimp only
      rw [hstep.requestId]
      exact hst
    · dsimp only
      rw [hstep.unmaskedTokenIds]
      exact hholds.of_eq hstep.promptTokenIds hstep.maxTokens
  · rw [List.length_append, List.length_singleton]
  · have hlen : next.numUnmaskedTokens = x.request.numUnmaskedTokens + pairs.length := by
      simp [Request.numUnmaskedTokens, hstep.unmaskedTokenIds]
    have hpos := List.length_pos_of_ne_nil hsampled.ne_nil
    change _ < next.numUnmaskedTokens
    omega

/-! ## All steps -/

/-- All steps up to the `n`th are done, in full or in their block, and the model predicts no
mask token. -/
theorem Sound.run (h : Sound w req (start req)) (hfit : req.numTokens ≤ w.maxModelLen)
    (hlen : req.numTokens = req.promptTokenIds.length + req.maxTokens)
    (hrows : 0 < w.maxNumReqs) {inputs : ℕ → DenoiseInput}
    (hgood : ∀ k x, (start req).run cfg w inputs k = .ok x → x.stopped = false →
      x.Good cfg w (inputs k)) (k : ℕ)
    (hgo : ∀ j < k, ∀ x, (start req).run cfg w inputs j = .ok x → x.stopped = false) :
    ∃ x, (start req).run cfg w inputs k = .ok x ∧ Sound w req x ∧ x.emitted.length = k ∧
      k ≤ x.request.numUnmaskedTokens := by
  induction k with
  | zero => exact ⟨start req, rfl, h, rfl, Nat.zero_le _⟩
  | succ k ih =>
      obtain ⟨x, hx, hsound, hcount, hle⟩ := ih fun j hj => hgo j (hj.trans (Nat.lt_succ_self k))
      have hstop := hgo k (Nat.lt_succ_self k) x hx
      have hstep := hsound.ensures_step hstop
        (by rw [hsound.length, hsound.promptTokenIds, hsound.maxTokens, ← hlen]; exact hfit) hrows
        (hgood k x hx hstop)
      obtain ⟨x', hx', hsound', hcount', hlt⟩ := hstep.exists_ok
      refine ⟨x', ?_, hsound', by rw [hcount', hcount], by omega⟩
      rw [Denoising.run, hx]
      exact hx'

/-- Every position of the output is emitted exactly once, block by block, if every step
executes all positions or those of the block and the model does not predict the mask token
where it is unmasked: for some number of steps, at most the length of the output, no step
fails, each emits something, and the request is complete exactly after the last one, when
all positions are emitted and the worker has no mask token left. -/
theorem emits_every_position_once (cfg : Config κ) (w : WorkerConfig) (hreq : req.Constructed)
    (hout : 0 < req.maxTokens) (hfit : req.numTokens ≤ w.maxModelLen) (hrows : 0 < w.maxNumReqs)
    (inputs : ℕ → DenoiseInput)
    (hgood : ∀ k x, (start req).run cfg w inputs k = .ok x → x.stopped = false →
      x.Good cfg w (inputs k)) :
    ∃ n, 0 < n ∧ n ≤ req.maxTokens ∧ ∀ k ≤ n, ∃ x, (start req).run cfg w inputs k = .ok x ∧
      x.emitted.length = k ∧ Denoised w req x ∧ (x.stopped = true ↔ k = n) := by
  have hstart := sound_start hreq hout w
  have hlen := (hreq.tracked w.maskTokenId).1.length
  have hrun := hstart.run hfit hlen hrows hgood
  have hex : ∃ n x, (start req).run cfg w inputs n = .ok x ∧ x.stopped = true := by
    by_contra hnone
    push Not at hnone
    obtain ⟨x, hx, hsound, -, hle⟩ := hrun (req.maxTokens + 1) fun j _ x hx =>
      Bool.eq_false_iff.mpr (hnone j x hx)
    have hbound := hsound.accounted.bounded
    rw [hsound.maxTokens] at hbound
    omega
  classical
  have hbefore : ∀ j < Nat.find hex, ∀ x, (start req).run cfg w inputs j = .ok x →
      x.stopped = false := fun j hj x hx =>
    Bool.eq_false_iff.mpr fun hstop => Nat.find_min hex hj ⟨x, hx, hstop⟩
  refine ⟨Nat.find hex, ?_, ?_, fun k hk => ?_⟩
  · rw [Nat.find_pos]
    rintro ⟨x, hx, hstop⟩
    cases hx
    exact Bool.false_ne_true hstop
  · obtain ⟨x, -, hsound, -, hle⟩ := hrun (Nat.find hex) hbefore
    exact hle.trans (hsound.maxTokens ▸ hsound.accounted.bounded)
  · obtain ⟨x, hx, hsound, hcount, -⟩ := hrun k fun j hj => hbefore j (hj.trans_le hk)
    refine ⟨x, hx, hcount, hsound.denoised, fun hstop => ?_, ?_⟩
    · exact le_antisymm hk (Nat.find_min' hex ⟨x, hx, hstop⟩)
    · rintro rfl
      obtain ⟨x', hx', hstop⟩ := Nat.find_spec hex
      rw [hx, Except.ok.injEq] at hx'
      exact hx' ▸ hstop

/-- Six positions in blocks of two, with both caches. -/
theorem emits_six_positions_once : ∃ req, Request.create "a" 0 0 none [1] 0 6 2 = .ok req ∧
    ∃ n, 0 < n ∧ n ≤ 6 ∧ ∀ k ≤ n, ∃ x,
      (start req).run (Config.small true true none) ⟨1, 10, 0⟩
        (fun _ => ⟨true, 1 / 2, fun pos => (7, 1 / (1 + pos))⟩) k = .ok x ∧
      x.emitted.length = k ∧ Denoised ⟨1, 10, 0⟩ req x ∧ (x.stopped = true ↔ k = n) := by
  have hcreate : (Request.create "a" 0 0 none [1] 0 6 2).Ensures (fun _ => False) fun req =>
      req.maxTokens = 6 ∧ req.numTokens = 7 := by
    decide +kernel
  obtain ⟨req, hreq, hmax, hnum⟩ := hcreate.exists_ok
  have honce := emits_every_position_once (Config.small true true none) ⟨1, 10, 0⟩
    ⟨_, _, _, _, _, _, _, _, hreq⟩ (by rw [hmax]; decide) (by rw [hnum]; decide) (by decide)
    (fun _ => ⟨true, 1 / 2, fun pos => (7, 1 / (1 + pos))⟩)
    fun k x _ _ => ⟨x.request.stepShape_of_caches rfl _, fun _ _ => Nat.succ_ne_zero 6⟩
  rw [hmax] at honce
  exact ⟨req, hreq, honce⟩

/-- The model predicts the mask token where a position is unmasked: the position is emitted
again, the scheduler has counted two pairs and stops, and the other position was never
emitted. -/
theorem emits_position_twice : ∃ req, Request.create "a" 0 0 none [1] 0 2 2 = .ok req ∧ ∃ x,
    (start req).run (Config.small true true none) ⟨1, 10, 0⟩
      (fun k => ⟨true, 9 / 10, fun pos => (if k = 0 then 0 else 7, 1 / (1 + pos))⟩) 2 = .ok x ∧
    x.stopped = true ∧ x.emitted = [[(1, 0)], [(1, 7)]] ∧
    (x.worker.requests.get? "a").map CachedRequestState.outputTokenIds = some [7, 0] := by
  have hrun : (Request.create "a" 0 0 none [1] 0 2 2).Ensures (fun _ => False) fun req =>
      ((start req).run (Config.small true true none) ⟨1, 10, 0⟩
        (fun k => ⟨true, 9 / 10, fun pos => (if k = 0 then 0 else 7, 1 / (1 + pos))⟩) 2).Ensures
        (fun _ => False) fun x =>
          x.stopped = true ∧ x.emitted = [[(1, 0)], [(1, 7)]] ∧
          (x.worker.requests.get? "a").map CachedRequestState.outputTokenIds = some [7, 0] := by
    decide +kernel
  obtain ⟨req, hreq, hrun⟩ := hrun.exists_ok
  obtain ⟨x, hx, hafter⟩ := hrun.exists_ok
  exact ⟨req, hreq, x, hx, hafter⟩

end Denoising

end TeDiServe

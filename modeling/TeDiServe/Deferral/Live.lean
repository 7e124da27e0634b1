import TeDiServe.Placement.Run

/-!
# Known requests are not finished

A request gets a finished status in the call that forgets it: when its last token
arrives, or when it is aborted. So the finish reason of an output tells whether the
request was ended, and what is still known has not been.
-/

namespace TeDiServe

theorem Request.Constructed.status {req : Request} (h : req.Constructed) :
    req.status.isFinished = false := by
  obtain ⟨mask, hfresh⟩ := h.fresh
  rw [hfresh.status]
  rfl

/-- A step ends the request exactly if it gives it a finish reason, which is then
that it has stopped. -/
theorem Request.finishReason_of_afterStep {req : Request} {tokenIds : List (ℕ × Token)}
    {y : Request × Bool} (h : req.afterStep tokenIds = .ok y)
    (hlive : req.status.isFinished = false) :
    y.1.status.getFinishedReason = (if y.2 then some .stop else none) ∧
      (y.2 = false → y.1.status.isFinished = false) := by
  have hnone : ∀ st : RequestStatus, st.isFinished = false → st.getFinishedReason = none := by
    intro st
    cases st <;> simp [RequestStatus.isFinished, RequestStatus.getFinishedReason]
  unfold afterStep at h
  by_cases hnil : tokenIds = []
  · rw [if_pos hnil] at h
    cases h
    exact ⟨hnone _ hlive, fun _ => hlive⟩
  rw [if_neg hnil] at h
  cases hreq' : req.updateFromOutput tokenIds with
  | error err =>
      rw [hreq'] at h
      cases h
  | ok req' =>
      rw [hreq'] at h
      cases h
      obtain ⟨hstep, -⟩ := ensures_of_ok (req.ensures_updateFromOutput tokenIds) hreq'
      unfold checkStop
      by_cases hstop : req'.numUnmaskedTokens = req'.maxTokens
      · rw [if_pos hstop]
        exact ⟨rfl, fun hc => by cases hc⟩
      · rw [if_neg hstop]
        rw [← hstep.status] at hlive
        exact ⟨hnone _ hlive, fun _ => hlive⟩

namespace Scheduler

variable {κ : Type} {cfg : Config κ} {s s' : Scheduler κ} {π : Placement} {r : ReqId}
  {e : ExecutorId}

def Live (s : Scheduler κ) : Prop :=
  ∀ r req, s.requests.get? r = some req → req.status.isFinished = false

theorem Live.of_requests (h : Live s)
    (hreq : ∀ r req, s'.requests.get? r = some req → s.requests.get? r = some req) : Live s' :=
  fun r req hr => h r req (hreq r req hr)

theorem Live.of_eq (h : Live s) (heq : s'.requests = s.requests) : Live s' := by
  apply h.of_requests
  intro r req hreq
  rwa [heq] at hreq

theorem Live.setRequest (h : Live s) (r : ReqId) {req : Request}
    (hreq : req.status.isFinished = false) :
    Live { s with requests := s.requests.set r req } := by
  intro r' req' hreq'
  dsimp only at hreq'
  rw [Dict.get?_set] at hreq'
  split_ifs at hreq' with hr
  · cases hreq'
    exact hreq
  · exact h r' req' hreq'

theorem ensures_modifyRequest_live (h : Live s) (r : ReqId) {f : Request → Request}
    (hf : ∀ req, req.status.isFinished = false → (f req).status.isFinished = false) :
    (s.modifyRequest r f).Ensures (fun _ => True) Live := by
  unfold modifyRequest
  rw [ensures_bind, ensures_subscript]
  exact ⟨fun req hreq => h.setRequest r (hf req (h r req hreq)), fun _ => trivial⟩

theorem Live.mark (h : Live s) (e : ExecutorId) :
    Live (s.markExecutorConfidenceThresholdsDirty e) :=
  h.of_eq (soft_markExecutorConfidenceThresholdsDirty s e).requests

/-! ## Stages 5 and 6 -/

theorem ensures_finalize_live (found : List ExecutorId) (old : Dict ReqId (Option ExecutorId))
    {x : Scheduler κ × Tables} (h : Live x.1) (r : ReqId) :
    (finalize cfg found old x r).Ensures (fun _ => True) fun y => Live y.1 := by
  have hleave : ∀ o, (leave cfg x r o).Ensures (fun _ => True) fun y => Live y.1 := by
    intro o
    cases o with
    | none => exact h
    | some e =>
        unfold leave dropRequest freeBlocks
        rw [ensures_bind, ensures_bind, ensures_subscript]
        refine ⟨fun m _ => ?_, fun _ => trivial⟩
        have hfreed : Live
            { x.1.markFree e r with
              kvCacheManagers := (x.1.markFree e r).kvCacheManagers.set e (cfg.kv.free m r) } :=
          h.of_eq rfl
        rw [ensures_pure, ensures_bind]
        exact (ensures_modifyRequest_live hfreed r fun _ _ => rfl).imp fun s' hs' => hs'.mark e
  have harrive : ∀ (y : Scheduler κ × Tables) (o : Option ExecutorId), Live y.1 →
      (arrive cfg y r o).Ensures (fun _ => True) fun z => Live z.1 := by
    intro y o hy
    cases o with
    | none => exact hy
    | some e =>
        have halloc : ∀ req, (y.1.allocate cfg req e).Ensures (fun _ => True) Live := by
          intro req
          unfold allocate
          split_ifs
          · apply ensures_bind_any
            intro m
            split
            · trivial
            · exact hy.of_eq rfl
          · exact hy
        unfold arrive addNewRequest
        apply ensures_bind_any
        intro req
        apply (halloc req).bind
        intro s' hs'
        apply ensures_bind_any
        intro m
        exact (ensures_modifyRequest_live hs' r fun _ _ => rfl).bind fun s'' hs'' => hs''.mark e
  unfold finalize
  apply ensures_bind_any
  intro rs
  dsimp only
  split_ifs
  · exact (hleave _).bind fun y hy => harrive y _ hy
  · split
    · exact h
    · apply ensures_bind_any
      intro _
      unfold addRunningRequest
      apply ensures_bind_any
      intro req
      exact (ensures_modifyRequest_live h r fun _ _ => rfl).bind fun s' hs' => hs'

theorem ensures_stage5_live (env : ScheduleEnv) (found : List ExecutorId)
    (old : Dict ReqId (Option ExecutorId)) {p : Round κ} (h : p.scheduler.Live) :
    (stage5 cfg env found old p).Ensures (fun _ => True) fun x => Live x.1 := by
  have hstart : Live { p.scheduler with confMarkCounter := p.scheduler.confMarkCounter + 1 } :=
    h.of_eq rfl
  exact ensures_foldlM (I := fun x : Scheduler κ × Tables => Live x.1) _
    (fun x r _ hx => ensures_finalize_live found old hx r) _ hstart

theorem ensures_stage6_live (env : ScheduleEnv) (found notAccepting : List ExecutorId)
    (t : Tables) (h : Live s) :
    (found.foldlM (issue cfg env notAccepting t) (s, Dict.empty)).Ensures (fun _ => True)
      fun x => Live x.1 := by
  apply ensures_stage6_of _ _ _ _ env found notAccepting t h
  · exact fun s m hs => hs.of_eq rfl
  · exact fun s r rs c hs _ => hs.of_eq rfl
  · exact fun s r req n hs hreq => hs.setRequest r (hs r req hreq)
  · exact fun s finished free hs => hs.of_eq rfl

theorem Course.live {env : ScheduleEnv} {s₀ s₁ : Scheduler κ} {π₀ π₁ π₂ : Placement} {p : Plan κ}
    (h : Course cfg env s π s₀ π₀ s₁ π₁ p π₂) (hlive : Live s) : p.scheduler.Live := by
  have h₀ : Live s₀ := by
    apply hlive.of_requests
    intro r req hreq
    rcases h.admitted.requests r with heq | ⟨-, hnone⟩
    · rwa [heq] at hreq
    · rw [hnone] at hreq
      cases hreq
  have hstart : Live (s₁.drainStepEstimateUpdates cfg env.predict).considerIdle := by
    apply (h₀.of_eq h.reshaped.requests).of_eq
    exact (soft_drainStepEstimateUpdates cfg env.predict s₁).requests
  rcases h.derived with ⟨-, -, heq⟩ | ⟨q, -, hin, -, -, hstage⟩
  · rw [heq]
    exact hstart
  · have hstage5 := ensures_of_ok
      (ensures_stage5_live env p.found _ (hstart.of_eq hin.moved.requests)) hstage
    exact hstage5

/-! ## What is told -/

theorem Live.stepOutput {res : ModelRunnerOutput} {req : Request}
    {tokenIds : List (ℕ × Token)} {y : Request × Bool} (h : Live s)
    (hreq : s.requests.get? r = some req) (htok : res.tokensOf r = some tokenIds)
    (hy : ({ req with isInExecution := false } : Request).afterStep tokenIds = .ok y) :
    s.stepOutput res r =
      some ⟨req.clientIndex, r, tokenIds, if y.2 then some .stop else none⟩ := by
  rw [← (Request.finishReason_of_afterStep hy (h r req hreq)).1]
  simp [Scheduler.stepOutput, hreq, htok, hy, Except.toOption]

/-- What is told is about a request of the message that is known, and tells whether it has
stopped. -/
theorem Progressed.told {res : ModelRunnerOutput} {done : List ReqId}
    {outs : List EngineCoreOutput} (h : Progressed res s done s' outs) (hlive : Live s)
    {out : EngineCoreOutput} (hout : out ∈ done.reverse.filterMap (s.stepOutput res)) :
    ∃ req y, out.requestId ∈ done ∧ s.requests.get? out.requestId = some req ∧
      res.tokensOf out.requestId = some out.newTokenIds ∧
      ({ req with isInExecution := false } : Request).afterStep out.newTokenIds = .ok y ∧
      (out.finishReason = if y.2 then some .stop else none) ∧
      s'.requests.get? out.requestId = if y.2 then none else some y.1 := by
  obtain ⟨r, hr, hstep⟩ := List.mem_filterMap.mp hout
  rw [List.mem_reverse] at hr
  cases hreq : s.requests.get? r with
  | none =>
      simp [Scheduler.stepOutput, hreq] at hstep
  | some req =>
      obtain ⟨tokenIds, y, htok, hy, hs'⟩ := h.stepped r hr req hreq
      rw [hlive.stepOutput hreq htok hy] at hstep
      cases hstep
      exact ⟨req, y, hr, hreq, htok, hy, rfl, hs'⟩

theorem Progressed.exists_told {res : ModelRunnerOutput} {done : List ReqId}
    {outs : List EngineCoreOutput} (h : Progressed res s done s' outs) (hlive : Live s)
    (hdone : r ∈ done) (hr : r ∈ s.requests) :
    ∃ out ∈ done.reverse.filterMap (s.stepOutput res), out.requestId = r := by
  obtain ⟨req, hreq⟩ := (Dict.mem_iff_exists _ _).mp hr
  obtain ⟨tokenIds, y, htok, hy, -⟩ := h.stepped r hdone req hreq
  exact ⟨_, List.mem_filterMap.mpr
    ⟨r, List.mem_reverse.mpr hdone, hlive.stepOutput hreq htok hy⟩, rfl⟩

theorem Progressed.ends {res : ModelRunnerOutput} {done : List ReqId}
    {outs : List EngineCoreOutput} (h : Progressed res s done s' outs) (hlive : Live s) :
    (∀ out ∈ done.reverse.filterMap (s.stepOutput res), out.finishReason ≠ some .abort) ∧
    ∀ r, (∃ out ∈ done.reverse.filterMap (s.stepOutput res),
        out.finishReason = some .stop ∧ out.requestId = r) ↔
      r ∈ s.requests ∧ r ∉ s'.requests := by
  refine ⟨?_, ?_⟩
  · intro out hout
    obtain ⟨req, y, -, -, -, -, hreason, -⟩ := h.told hlive hout
    rw [hreason]
    cases y.2 <;> simp
  · intro r
    constructor
    · rintro ⟨out, hout, hstop, rfl⟩
      obtain ⟨req, y, -, hreq, -, -, hreason, hs'⟩ := h.told hlive hout
      refine ⟨Dict.mem_of_get? hreq, ?_⟩
      rw [hreason] at hstop
      split_ifs at hstop with hy
      rwa [if_pos hy, Dict.get?_eq_none_iff] at hs'
    · rintro ⟨hr, hnot⟩
      have hdone : r ∈ done := by
        by_contra hc
        rw [Dict.mem_iff_exists, h.others r (Or.inl hc), ← Dict.mem_iff_exists] at hnot
        exact hnot hr
      obtain ⟨out, hout, rfl⟩ := h.exists_told hlive hdone hr
      obtain ⟨req, y, -, -, -, -, hreason, hs'⟩ := h.told hlive hout
      refine ⟨out, hout, ?_, rfl⟩
      rw [hreason]
      split_ifs with hy
      · rfl
      · rw [if_neg hy] at hs'
        exact absurd (Dict.mem_of_get? hs') hnot

end Scheduler

namespace Calls

open Scheduler

variable {κ : Type} {cfg : Config κ} {t t' : Calls κ} {c : Call} {π π' : Placement}

/-- Every request comes from the constructor, and no id is used for two requests. -/
def FreshRequests (t : Calls κ) : Call → Prop
  | .addRequest req => req.requestId ∉ t.usedReqIds ∧ req.Constructed
  | _ => True

theorem Effect.live (he : Effect cfg t π c t' π') (hfresh : t.FreshRequests c)
    (h : t.scheduler.Live) : t'.scheduler.Live := by
  cases he with
  | addRequest refines ledger extends_ enrolled requests dropped deferred =>
      intro r req hreq
      dsimp only at hreq
      rw [requests, Dict.get?_set] at hreq
      split_ifs at hreq with hr
      · cases hreq
        exact hfresh.2.status
      · exact h r req hreq
  | schedule readied returned course loop =>
      obtain ⟨s₀, π₀, s₁, hcourse⟩ := course
      have hstage6 := ensures_of_ok (ensures_stage6_live _ _ _ _ (hcourse.live h)) loop
      exact hstage6
  | manager management keyed => exact h
  | finishExecution flight keyed => exact h
  | @updateFromOutput e msg res s outs m done π' flight apply_eq visited applied progressed keyed =>
      intro r req hreq
      dsimp only at hreq
      by_cases hr : r ∈ msg.numScheduledTokens.keys.reverse
      · obtain ⟨req₀, hreq₀, -⟩ := applied.requests r req hreq
        obtain ⟨tokenIds, y, -, hy, hs⟩ := progressed.stepped r hr req₀ hreq₀
        rw [hs] at hreq
        split_ifs at hreq with hstop
        cases hreq
        exact (Request.finishReason_of_afterStep hy (h r req₀ hreq₀)).2
          (Bool.eq_false_iff.mpr hstop)
      · rw [progressed.others r (Or.inl hr)] at hreq
        exact h r req hreq
  | finishRequests finish_eq finished abortable aborted => exact h.of_requests aborted.requests
  | refreshEstimates soft => exact h.of_eq soft.requests
  | controlLoad inRange minInRange => exact h

end Calls

end TeDiServe

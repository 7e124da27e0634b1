import TeDiServe.Deferral.Live
import TeDiServe.Placement.Budget

/-!
# Conservation of requests

A request that was added is admitted, deferred, dropped but not yet reported, or done:
it has stopped, was aborted while it was running, or was reported as dropped. `Audit`
is a run together with everything that was told to the front end and all running
requests that were aborted, so that what is done can be read off it.
-/

namespace TeDiServe

namespace Calls

variable {κ : Type}

def reports (cfg : Config κ) (t : Calls κ) : Call → List EngineCoreOutput
  | .updateFromOutput e =>
      match t.inFlight.get? e with
      | some ⟨msg, some res⟩ =>
          match t.scheduler.updateFromOutput cfg e msg res with
          | .ok x => x.2
          | .error _ => []
      | _ => []
  | _ => []

/-- The admitted requests that a call aborts. -/
def aborts (t : Calls κ) : Call → List ReqId
  | .finishRequests arg _ _ => arg.ids.filter (· ∈ t.scheduler.requestStates)
  | _ => []

end Calls

structure Audit (κ : Type) where
  calls : Calls κ
  outputs : List EngineCoreOutput
  aborted : List ReqId

inductive Whereabouts where
  | admitted
  | deferred
  | dropped
  | done
  deriving DecidableEq

namespace Audit

open Scheduler

variable {κ : Type} {cfg : Config κ} {a a' : Audit κ} {c : Call} {r : ReqId}

def Init (cfg : Config κ) (a : Audit κ) : Prop :=
  Calls.Init cfg a.calls ∧ a.outputs = [] ∧ a.aborted = []

def Step (cfg : Config κ) (a : Audit κ) (c : Call) (a' : Audit κ) : Prop :=
  Calls.Step cfg Calls.FreshRequests a.calls c a'.calls ∧
    a'.outputs = a.outputs ++ a.calls.reports cfg c ∧ a'.aborted = a.aborted ++ a.calls.aborts c

abbrev Reachable (cfg : Config κ) : Audit κ → Prop :=
  Transition.Reachable (Init cfg) (Step cfg)

def finishedWith (a : Audit κ) (reason : FinishReason) : List ReqId :=
  (a.outputs.filter fun out => out.finishReason = some reason).map EngineCoreOutput.requestId

def droppedIds (a : Audit κ) : List ReqId :=
  a.calls.scheduler.droppedDeferredRequests.map Request.requestId

/-- The request has stopped, was aborted while it was admitted, or was reported as
dropped. -/
def Done (a : Audit κ) (r : ReqId) : Prop :=
  r ∈ a.finishedWith .stop ∨ r ∈ a.aborted ∨ r ∈ a.finishedWith .abort

def At (a : Audit κ) (r : ReqId) : Whereabouts → Prop
  | .admitted => r ∈ a.calls.scheduler.requestStates
  | .deferred => r ∈ a.calls.scheduler.deferredRequestStates
  | .dropped => r ∈ a.droppedIds
  | .done => a.Done r

/-- The books balance: every id that was used is known, dropped or done, and only one
of these. -/
structure Balanced (a : Audit κ) : Prop where
  live : a.calls.scheduler.Live
  used : ∀ r, r ∈ a.calls.usedReqIds ↔
    r ∈ a.calls.scheduler.requests ∨ r ∈ a.droppedIds ∨ a.Done r
  nodup : a.droppedIds.Nodup
  dropped : ∀ r ∈ a.droppedIds, r ∉ a.calls.scheduler.requests ∧ ¬a.Done r
  done : ∀ r, a.Done r → r ∉ a.calls.scheduler.requests
  once : (a.finishedWith .abort).Nodup

theorem balanced_of_init (h : Init cfg a) : Balanced a := by
  obtain ⟨hinit, hout, hab⟩ := h
  obtain ⟨m, -, -, -, -, hre, -⟩ := Calls.built_of_init hinit
  have hreq : a.calls.scheduler.requests = Dict.empty := hre.requests
  have hdrop : a.droppedIds = [] := by
    rw [droppedIds, hre.droppedDeferredRequests]
    rfl
  have hused : a.calls.usedReqIds = [] := by
    obtain ⟨launches, m, s, -, -, ht⟩ := hinit
    rw [ht]
  have hfin : ∀ reason, a.finishedWith reason = [] := by
    intro reason
    rw [finishedWith, hout]
    rfl
  have hdone : ∀ r, ¬a.Done r := by
    intro r
    rw [Done, hfin, hfin, hab]
    simp
  refine ⟨?_, ?_, ?_, ?_, fun r hr => absurd hr (hdone r), ?_⟩
  · intro r req hr
    rw [hreq] at hr
    cases hr
  · intro r
    rw [hused, hreq, hdrop]
    simp [hdone]
  · rw [hdrop]
    exact List.nodup_nil
  · rw [hdrop]
    intro r hr
    cases hr
  · rw [hfin]
    exact List.nodup_nil

namespace Balanced

variable (h : Balanced a)
include h

/-- Some known requests `xs` are dropped and some others, `ys`, are aborted. -/
theorem shed {xs : List Request} {ys : List ReqId} (hlive : a'.calls.scheduler.Live)
    (hused : a'.calls.usedReqIds = a.calls.usedReqIds) (hout : a'.outputs = a.outputs)
    (habort : a'.aborted = a.aborted ++ ys) (hdropped : a'.calls.scheduler.droppedDeferredRequests =
      a.calls.scheduler.droppedDeferredRequests ++ xs) (hnodup : (xs.map Request.requestId).Nodup)
    (hknown : ∀ r, r ∈ a'.calls.scheduler.requests ↔ r ∈ a.calls.scheduler.requests ∧
      r ∉ xs.map Request.requestId ∧ r ∉ ys)
    (hxs : ∀ r ∈ xs.map Request.requestId, r ∈ a.calls.scheduler.requests ∧ r ∉ ys)
    (hys : ∀ r ∈ ys, r ∈ a.calls.scheduler.requests) : Balanced a' := by
  have hids : ∀ r, r ∈ a'.droppedIds ↔ r ∈ a.droppedIds ∨ r ∈ xs.map Request.requestId := by
    intro r
    rw [droppedIds, hdropped, List.map_append, List.mem_append]
    rfl
  have hfin : ∀ reason, a'.finishedWith reason = a.finishedWith reason := by
    intro reason
    rw [finishedWith, hout]
    rfl
  have hdone : ∀ r, a'.Done r ↔ a.Done r ∨ r ∈ ys := by
    intro r
    rw [Done, Done, hfin, hfin, habort, List.mem_append]
    tauto
  refine ⟨hlive, ?_, ?_, ?_, ?_, ?_⟩
  · intro r
    rw [hused, h.used, hids, hdone, hknown]
    have hx := hxs r
    have hy := hys r
    tauto
  · rw [droppedIds, hdropped, List.map_append]
    refine h.nodup.append hnodup ?_
    intro r hr hx
    exact (h.dropped r hr).1 (hxs r hx).1
  · intro r hr
    rw [hknown, hdone]
    rcases (hids r).mp hr with hr | hr
    · obtain ⟨hnot, hnd⟩ := h.dropped r hr
      refine ⟨fun hc => hnot hc.1, ?_⟩
      rintro (hc | hc)
      · exact hnd hc
      · exact hnot (hys r hc)
    · obtain ⟨hk, hny⟩ := hxs r hr
      refine ⟨fun hc => hc.2.1 hr, ?_⟩
      rintro (hc | hc)
      · exact h.done r hc hk
      · exact hny hc
  · intro r hr hk
    rw [hknown] at hk
    rcases (hdone r).mp hr with hr | hr
    · exact h.done r hr hk.1
    · exact hk.2.2 hr
  · rw [hfin]
    exact h.once

theorem same (hlive : a'.calls.scheduler.Live) (hused : a'.calls.usedReqIds = a.calls.usedReqIds)
    (hout : a'.outputs = a.outputs) (habort : a'.aborted = a.aborted)
    (hdropped : a'.calls.scheduler.droppedDeferredRequests =
      a.calls.scheduler.droppedDeferredRequests)
    (hknown : ∀ r, r ∈ a'.calls.scheduler.requests ↔ r ∈ a.calls.scheduler.requests) :
    Balanced a' := by
  have habort' : a'.aborted = a.aborted ++ [] := by rw [habort, List.append_nil]
  have hdropped' : a'.calls.scheduler.droppedDeferredRequests =
      a.calls.scheduler.droppedDeferredRequests ++ [] := by rw [hdropped, List.append_nil]
  apply h.shed hlive hused hout habort' hdropped'
  · exact List.nodup_nil
  · intro r
    rw [hknown]
    simp
  · intro r hr
    cases hr
  · intro r hr
    cases hr

theorem enrol {r₀ : ReqId} (hlive : a'.calls.scheduler.Live) (hnew : r₀ ∉ a.calls.usedReqIds)
    (hused : a'.calls.usedReqIds = r₀ :: a.calls.usedReqIds) (hout : a'.outputs = a.outputs)
    (habort : a'.aborted = a.aborted) (hdropped : a'.calls.scheduler.droppedDeferredRequests =
      a.calls.scheduler.droppedDeferredRequests)
    (hknown : ∀ r, r ∈ a'.calls.scheduler.requests ↔ r = r₀ ∨ r ∈ a.calls.scheduler.requests) :
    Balanced a' := by
  have hids : a'.droppedIds = a.droppedIds := by
    rw [droppedIds, hdropped]
    rfl
  have hfin : ∀ reason, a'.finishedWith reason = a.finishedWith reason := by
    intro reason
    rw [finishedWith, hout]
    rfl
  have hdone : ∀ r, a'.Done r ↔ a.Done r := by
    intro r
    rw [Done, Done, hfin, hfin, habort]
  refine ⟨hlive, ?_, ?_, ?_, ?_, ?_⟩
  · intro r
    rw [hused, List.mem_cons, h.used, hknown, hids, hdone, or_assoc]
  · rw [hids]
    exact h.nodup
  · intro r hr
    rw [hids] at hr
    rw [hknown, hdone]
    refine ⟨?_, (h.dropped r hr).2⟩
    rintro (rfl | hc)
    · exact hnew ((h.used r).mpr (Or.inr (Or.inl hr)))
    · exact (h.dropped r hr).1 hc
  · intro r hr hk
    rw [hdone] at hr
    rcases (hknown r).mp hk with rfl | hk
    · exact hnew ((h.used r).mpr (Or.inr (Or.inr hr)))
    · exact h.done r hr hk
  · rw [hfin]
    exact h.once

/-- The dropped requests are reported, and of the known ones those that `steps` has
finished are forgotten. -/
theorem report {steps : List EngineCoreOutput} (hlive : a'.calls.scheduler.Live)
    (hused : a'.calls.usedReqIds = a.calls.usedReqIds)
    (hout : a'.outputs = a.outputs ++ (a.calls.scheduler.reportDropped.outputs ++ steps))
    (habort : a'.aborted = a.aborted) (hdropped : a'.calls.scheduler.droppedDeferredRequests = [])
    (hreason : ∀ out ∈ steps, out.finishReason ≠ some .abort)
    (hknown : ∀ r, (∃ out ∈ steps, out.finishReason = some .stop ∧ out.requestId = r) ↔
      r ∈ a.calls.scheduler.requests ∧ r ∉ a'.calls.scheduler.requests)
    (hsub : ∀ r, r ∈ a'.calls.scheduler.requests → r ∈ a.calls.scheduler.requests) :
    Balanced a' := by
  have hids : a'.droppedIds = [] := by
    rw [droppedIds, hdropped]
    rfl
  have habs : a'.finishedWith .abort = a.finishedWith .abort ++ a.droppedIds := by
    have hsteps : steps.filter (fun out => out.finishReason = some .abort) = [] := by
      rw [List.filter_eq_nil_iff]
      intro out hmem
      simpa using hreason out hmem
    have hdrop : ∀ l : List Request, ((l.map fun req : Request =>
        ({ clientIndex := req.clientIndex
           requestId := req.requestId
           newTokenIds := []
           finishReason := some .abort } : EngineCoreOutput)).filter
          fun out => out.finishReason = some .abort).map EngineCoreOutput.requestId =
        l.map Request.requestId := by
      intro l
      induction l with
      | nil => rfl
      | cons req l ih => simpa using ih
    rw [finishedWith, hout, List.filter_append, List.filter_append, hsteps, List.append_nil,
      List.map_append]
    exact congrArg _ (hdrop _)
  have hstops : ∀ r, r ∈ a'.finishedWith .stop ↔ r ∈ a.finishedWith .stop ∨
      r ∈ a.calls.scheduler.requests ∧ r ∉ a'.calls.scheduler.requests := by
    intro r
    have hdrop : a.calls.scheduler.reportDropped.outputs.filter
        (fun out => out.finishReason = some .stop) = [] := by
      rw [List.filter_eq_nil_iff]
      intro out hmem
      obtain ⟨req, -, rfl⟩ := List.mem_map.mp hmem
      simp
    rw [← hknown, finishedWith, hout, List.filter_append, List.filter_append, hdrop,
      List.nil_append, List.map_append, List.mem_append]
    apply or_congr Iff.rfl
    simp only [List.mem_map, List.mem_filter, decide_eq_true_eq]
    exact exists_congr fun out => and_assoc
  have hdone : ∀ r, a'.Done r ↔ a.Done r ∨ r ∈ a.droppedIds ∨
      r ∈ a.calls.scheduler.requests ∧ r ∉ a'.calls.scheduler.requests := by
    intro r
    rw [Done, Done, habs, hstops, habort, List.mem_append]
    tauto
  refine ⟨hlive, ?_, ?_, ?_, ?_, ?_⟩
  · intro r
    rw [hused, h.used, hids, hdone]
    have hr := hsub r
    simp only [List.not_mem_nil, false_or]
    tauto
  · rw [hids]
    exact List.nodup_nil
  · rw [hids]
    intro r hr
    cases hr
  · intro r hr hk
    rcases (hdone r).mp hr with hr | hr | hr
    · exact h.done r hr (hsub r hk)
    · exact (h.dropped r hr).1 (hsub r hk)
    · exact hr.2 hk
  · rw [habs]
    refine h.once.append h.nodup ?_
    intro r hr hd
    exact (h.dropped r hd).2 (Or.inr (Or.inr hr))

end Balanced

/-! ## The steps -/

/-- What a call of `schedule()` does not know any more was dropped from the queue. -/
theorem shed_of_schedule {env : ScheduleEnv} {s s' s₀ s₁ : Scheduler κ} {π π₀ π₁ π₂ : Placement}
    {p : Plan κ} {outs : Dict ExecutorId SchedulerOutput}
    (h : Course cfg env s π s₀ π₀ s₁ π₁ p π₂) (hr : Returned cfg s p π₁ π₂ s' outs) :
    Shed s s' := by
  have hplan : ∀ r, r ∈ p.scheduler.requests ↔ r ∈ s₀.requests := by
    have hstart : (s₁.drainStepEstimateUpdates cfg env.predict).considerIdle.requests =
        s₀.requests :=
      (soft_drainStepEstimateUpdates cfg env.predict s₁).requests.trans h.reshaped.requests
    intro r
    rcases h.derived with ⟨-, -, heq⟩ | ⟨q, -, hin, -, hframed, -⟩
    · rw [heq, hstart]
    · rw [hframed.mem_requests, hin.moved.requests, hstart]
  obtain ⟨xs, hxs, hnodup, hmem⟩ := h.admitted.shed
  refine ⟨xs, ?_, hnodup, ?_⟩
  · rw [hr.issued.framed.droppedDeferredRequests, h.droppedDeferredRequests, hxs]
  · intro r
    rw [hmem, hr.issued.framed.mem_requests, hplan]

theorem reports_of_update {t t' : Calls κ} {e : ExecutorId} {msg : SchedulerOutput}
    {res : ModelRunnerOutput} {s : Scheduler κ} {outs : List EngineCoreOutput}
    (hflight : t.inFlight.get? e = some ⟨msg, some res⟩)
    (happ : t.scheduler.applyOutput cfg msg res = .ok (s, outs))
    (hnext : t.next cfg (.updateFromOutput e) = .ok t') :
    t.reports cfg (.updateFromOutput e) = outs := by
  simp only [Calls.next, hflight, updateFromOutput, happ] at hnext
  simp only [Calls.reports, hflight, updateFromOutput, happ]
  cases hrel : s.releaseExecutor cfg e with
  | error err =>
      have hbind : (do
          let x ← (do
            let s ← s.releaseExecutor cfg e
            pure (s, outs) : Except PyError (Scheduler κ × List EngineCoreOutput))
          pure { t with scheduler := x.1, inFlight := t.inFlight.erase e } :
            Except PyError (Calls κ)) = .ok t' := hnext
      rw [hrel] at hbind
      cases hbind
  | ok s' =>
      change (match (do
        let s ← s.releaseExecutor cfg e
        pure (s, outs) : Except PyError (Scheduler κ × List EngineCoreOutput)) with
        | .ok x => x.2
        | .error _ => []) = outs
      rw [hrel]
      rfl

theorem Balanced.step (h : Balanced a) (hcons : Calls.Consistent cfg a.calls)
    (hstep : Step cfg a c a') : Balanced a' := by
  obtain ⟨t', outputs', aborted'⟩ := a'
  obtain ⟨hcall, hout, hab⟩ := hstep
  dsimp only at hcall hout hab
  obtain ⟨π, π', hπ, he⟩ := hcons.effect hcall
  have hl := hcons.ledger
  have hlive := he.live hcall.2.1 h.live
  cases he with
  | addRequest refines ledger extends_ enrolled requests dropped deferred =>
      replace hout := hout.trans (List.append_nil _)
      replace hab := hab.trans (List.append_nil _)
      refine h.enrol hlive hcall.2.1.1 rfl hout hab dropped ?_
      intro r
      dsimp only
      rw [requests, Dict.mem_set]
  | @schedule env s outs p π₁ π₂ readied returned course loop =>
      replace hout := hout.trans (List.append_nil _)
      obtain ⟨s₀, π₀, s₁, hcourse⟩ := course
      obtain ⟨xs, hxs, hnodup, hmem⟩ := shed_of_schedule hcourse returned
      refine h.shed hlive rfl hout hab hxs hnodup ?_ ?_ ?_
      · intro r
        dsimp only
        constructor
        · intro hr
          obtain ⟨req, hreq⟩ := (Dict.mem_iff_exists _ _).mp hr
          obtain ⟨req₀, hreq₀, -⟩ := returned.exists_request readied hreq
          exact ⟨Dict.mem_of_get? hreq₀, fun hc => ((hmem r).mp hc).2 hr, List.not_mem_nil⟩
        · rintro ⟨hr, hnot, -⟩
          by_contra hgone
          rw [returned.issued.framed.mem_requests] at hgone
          rcases readied.requests r with heq | ⟨hdef, hnone⟩
          · exact hgone ((Dict.mem_iff_of_map_eq heq).mpr hr)
          · refine hnot ((hmem r).mpr ⟨hdef, ?_⟩)
            rw [returned.issued.framed.mem_requests]
            exact hgone
      · intro r hr
        exact ⟨(hl.known r).mpr (Or.inr ((hmem r).mp hr).1), List.not_mem_nil⟩
      · intro r hr
        cases hr
  | manager management keyed =>
      have hnil : a.calls.reports cfg c = [] ∧ a.calls.aborts c = [] := by
        cases c <;> first | exact ⟨rfl, rfl⟩ | cases management
      rw [hnil.1, List.append_nil] at hout
      rw [hnil.2, List.append_nil] at hab
      exact h.same hlive rfl hout hab rfl fun _ => Iff.rfl
  | finishExecution flight keyed =>
      replace hout := hout.trans (List.append_nil _)
      replace hab := hab.trans (List.append_nil _)
      exact h.same hlive rfl hout hab rfl fun _ => Iff.rfl
  | @updateFromOutput e msg res s outs m done π' flight apply_eq visited applied progressed keyed =>
      rw [reports_of_update flight apply_eq hcall.2.2, progressed.outputs] at hout
      replace hab := hab.trans (List.append_nil _)
      obtain ⟨hreason, hends⟩ := progressed.ends h.live
      refine h.report hlive rfl hout hab applied.droppedDeferredRequests hreason hends ?_
      intro r hr
      obtain ⟨req, hreq⟩ := (Dict.mem_iff_exists _ _).mp hr
      obtain ⟨req₀, hreq₀, -⟩ := applied.requests r req hreq
      exact Dict.mem_of_get? hreq₀
  | @finishRequests arg status clock s π' finish_eq finished abortable aborted =>
      replace hout := hout.trans (List.append_nil _)
      obtain ⟨xs, hxs, hnodup, hmem⟩ := aborted.shed
      have hys : ∀ r, r ∈ a.calls.aborts (.finishRequests arg status clock) ↔
          r ∈ arg.ids ∧ r ∈ a.calls.scheduler.requestStates := by
        intro r
        rw [Calls.aborts, List.mem_filter, decide_eq_true_eq]
      refine h.shed hlive rfl hout hab hxs hnodup ?_ ?_ ?_
      · intro r
        dsimp only
        rw [hmem, hys]
        constructor
        · intro hr
          obtain ⟨req, hreq⟩ := (Dict.mem_iff_exists _ _).mp hr
          exact ⟨Dict.mem_of_get? (aborted.requests r req hreq), fun hc => hc.2 hr,
            fun hc => aborted.gone r hc.1 hr⟩
        · rintro ⟨hr, hnx, hny⟩
          rcases (hl.known r).mp hr with hst | hdef
          · obtain ⟨l, hloc⟩ := hπ.mem_requestStates_iff.mp hst
            have hloc' := aborted.kept r (fun hc => hny ⟨hc, hst⟩) l hloc
            obtain ⟨req, hreq, -⟩ := aborted.refines.request hloc'
            exact Dict.mem_of_get? hreq
          · by_contra hgone
            exact hnx ⟨hdef, hgone⟩
      · intro r hr
        have hdef := ((hmem r).mp hr).1
        refine ⟨(hl.known r).mpr (Or.inr hdef), ?_⟩
        rw [hys]
        exact fun hc => hl.apart r hc.2 hdef
      · intro r hr
        exact (hl.known r).mpr (Or.inl ((hys r).mp hr).2)
  | refreshEstimates soft =>
      replace hout := hout.trans (List.append_nil _)
      replace hab := hab.trans (List.append_nil _)
      refine h.same hlive rfl hout hab soft.framed.droppedDeferredRequests ?_
      intro r
      exact soft.framed.mem_requests
  | controlLoad inRange minInRange =>
      replace hout := hout.trans (List.append_nil _)
      replace hab := hab.trans (List.append_nil _)
      exact h.same hlive rfl hout hab rfl fun _ => Iff.rfl

theorem Step.dropped (hstep : Step cfg a c a') (hcons : Calls.Consistent cfg a.calls)
    (hr : r ∈ a.droppedIds) : r ∈ a'.droppedIds ∨
      ∃ out ∈ a.calls.reports cfg c, out.requestId = r ∧ out.finishReason = some .abort := by
  obtain ⟨t', outputs', aborted'⟩ := a'
  obtain ⟨hcall, -, -⟩ := hstep
  dsimp only at hcall
  obtain ⟨π, π', -, he⟩ := hcons.effect hcall
  have hkeep : ∀ {s : Scheduler κ}, Shed a.calls.scheduler s →
      r ∈ s.droppedDeferredRequests.map Request.requestId := by
    rintro s ⟨xs, hxs, -⟩
    rw [hxs, List.map_append]
    exact List.mem_append_left _ hr
  unfold droppedIds
  cases he with
  | addRequest refines ledger extends_ enrolled requests dropped deferred =>
      left
      dsimp only
      rw [dropped]
      exact hr
  | schedule readied returned course loop =>
      obtain ⟨s₀, π₀, s₁, hcourse⟩ := course
      exact Or.inl (hkeep (shed_of_schedule hcourse returned))
  | manager management keyed => exact Or.inl hr
  | finishExecution flight keyed => exact Or.inl hr
  | updateFromOutput flight apply_eq visited applied progressed keyed =>
      right
      rw [reports_of_update flight apply_eq hcall.2.2, progressed.outputs]
      obtain ⟨req, hreq, hid⟩ := List.mem_map.mp hr
      exact ⟨_, List.mem_append_left _ (List.mem_map_of_mem hreq), hid, rfl⟩
  | finishRequests finish_eq finished abortable aborted => exact Or.inl (hkeep aborted.shed)
  | refreshEstimates soft =>
      left
      dsimp only
      rw [soft.framed.droppedDeferredRequests]
      exact hr
  | controlLoad inRange minInRange => exact Or.inl hr

end Audit

namespace Calls

open Scheduler

variable {κ : Type} {cfg : Config κ} {t t' : Calls κ} {c : Call} {π π' : Placement}

theorem Effect.within (he : Effect cfg t π c t' π') (h : Refines t.scheduler π)
    (h' : Refines t'.scheduler π') (hnext : t.next cfg c = .ok t')
    (hin : Within cfg t.scheduler) : Within cfg t'.scheduler := by
  have hsub : (∀ r l, π' r = some l → ∃ l', π r = some l') → Within cfg t'.scheduler := by
    intro hloc
    apply hin.of_subset
    intro r hr
    obtain ⟨l, hl⟩ := h'.mem_requestStates_iff.mp hr
    exact h.mem_requestStates_iff.mpr (hloc r l hl)
  cases he with
  | @addRequest req s π' refines ledger extends_ enrolled requests dropped deferred =>
      have hadd : (t.scheduler.addRequest cfg req).Ensures (fun _ => True) (Within cfg) := by
        unfold Scheduler.addRequest
        dsimp only
        split_ifs with hlim
        · exact hin
        · exact ensures_admitRequest_within (Bool.eq_false_iff.mpr hlim) req
      cases hs : t.scheduler.addRequest cfg req with
      | error err =>
          rw [next, hs] at hnext
          cases hnext
      | ok s' =>
          rw [next, hs] at hnext
          have hin' := ensures_of_ok hadd hs
          cases hnext
          exact hin'
  | schedule readied returned course loop =>
      obtain ⟨s₀, π₀, s₁, hcourse⟩ := course
      apply (hcourse.admitted.limit hin).of_subset
      intro r hr
      dsimp only at hr
      rw [returned.issued.framed.mem_requestStates] at hr
      exact hcourse.mem_requestStates.mp hr
  | manager management keyed => exact hin
  | finishExecution flight keyed => exact hin
  | updateFromOutput flight apply_eq visited applied progressed keyed =>
      apply hsub
      intro r l hl
      rcases applied.placement r with heq | ⟨-, hnone, -⟩
      · rw [heq] at hl
        exact ⟨l, hl⟩
      · rw [hnone] at hl
        cases hl
  | finishRequests finish_eq finished abortable aborted => exact aborted.limit hin
  | refreshEstimates soft =>
      apply hin.of_subset
      intro r hr
      exact soft.framed.mem_requestStates.mp hr
  | controlLoad inRange minInRange => exact hsub fun r l hl => ⟨l, hl⟩

end Calls

namespace Audit

open Scheduler

variable {κ : Type} {cfg : Config κ} {a a' : Audit κ} {c : Call} {r : ReqId}

/-! ## Every run -/

theorem Reachable.calls (h : Reachable cfg a) :
    Calls.Reachable cfg Calls.FreshRequests a.calls := by
  induction h with
  | start hinit => exact .start hinit.1
  | next _ hstep ih => exact ih.next hstep.1

theorem Reachable.balanced (h : Reachable cfg a) : Balanced a := by
  apply h.invariant
  · exact fun a ha => balanced_of_init ha
  · intro a c a' hr ha hstep
    exact ha.step (Calls.Reachable.consistent (Reachable.calls hr)) hstep

theorem Reachable.within (h : Reachable cfg a) : Within cfg a.calls.scheduler := by
  apply h.invariant
  · rintro a ⟨hinit, -, -⟩
    obtain ⟨m, -, hπ, -⟩ := Calls.built_of_init hinit
    have hnil : a.calls.scheduler.requestStates.keys = [] := by
      apply List.eq_nil_iff_forall_not_mem.mpr
      intro r hr
      obtain ⟨l, hl⟩ := hπ.mem_requestStates_iff.mp ((Dict.mem_def _ _).mpr hr)
      cases hl
    intro n _
    rw [hnil]
    exact Nat.zero_le n
  · intro a c a' hr ha hstep
    have hcons := Calls.Reachable.consistent (Reachable.calls hr)
    obtain ⟨π, π', hπ, he⟩ := hcons.effect hstep.1
    exact he.within hπ (he.consistent hcons hπ).2 hstep.1.2.2 ha

theorem Balanced.unique {w w' : Whereabouts} (h : Balanced a) (hl : Ledger cfg a.calls.scheduler)
    (hw : a.At r w) (hw' : a.At r w') : w = w' := by
  have hadm : r ∈ a.calls.scheduler.requestStates → r ∈ a.calls.scheduler.requests :=
    fun hr => (hl.known r).mpr (Or.inl hr)
  have hdef : r ∈ a.calls.scheduler.deferredRequestStates → r ∈ a.calls.scheduler.requests :=
    fun hr => (hl.known r).mpr (Or.inr hr)
  cases w <;> cases w' <;> first
    | rfl
    | exact absurd hw' (hl.apart r hw)
    | exact absurd hw (hl.apart r hw')
    | exact absurd (hadm hw) (h.dropped r hw').1
    | exact absurd (hadm hw') (h.dropped r hw).1
    | exact absurd (hdef hw) (h.dropped r hw').1
    | exact absurd (hdef hw') (h.dropped r hw).1
    | exact absurd (hadm hw) (h.done r hw')
    | exact absurd (hadm hw') (h.done r hw)
    | exact absurd (hdef hw) (h.done r hw')
    | exact absurd (hdef hw') (h.done r hw)
    | exact absurd hw' (h.dropped r hw).2
    | exact absurd hw (h.dropped r hw').2

/-- In every state of every run every request that was added is at exactly one place, the
tables of the scheduler agree on the admitted and the deferred requests, the limit is
kept, and a dropped request is reported once, which is how it leaves the list. -/
theorem requests_conserved (cfg : Config κ) (h : Reachable cfg a) :
    (∀ r ∈ a.calls.usedReqIds, ∃! w, a.At r w) ∧
    (∀ r, r ∈ a.calls.scheduler.requests ↔
      r ∈ a.calls.scheduler.requestStates ∨ r ∈ a.calls.scheduler.deferredRequestStates) ∧
    (∀ r, r ∈ a.calls.scheduler.deferredRequestStates ↔
      r ∈ a.calls.scheduler.deferredRequests.map Request.requestId) ∧
    (a.calls.scheduler.deferredRequests.map Request.requestId).Nodup ∧
    (∀ n, cfg.maxNumUnfinishedRequests = some n →
      a.calls.scheduler.requestStates.keys.length ≤ n) ∧
    (a.finishedWith .abort).Nodup ∧
    ∀ c a', Step cfg a c a' → ∀ r ∈ a.droppedIds, r ∈ a'.droppedIds ∨
      ∃ out ∈ a.calls.reports cfg c, out.requestId = r ∧ out.finishReason = some .abort := by
  have hcons := Calls.Reachable.consistent (Reachable.calls h)
  have hl := hcons.ledger
  have hbal := Reachable.balanced h
  refine ⟨?_, hl.known, hl.queue, hl.queueNodup, Reachable.within h, hbal.once, ?_⟩
  · intro r hr
    have hsome : ∃ w, a.At r w := by
      rcases (hbal.used r).mp hr with hreq | hdrop | hdone
      · rcases (hl.known r).mp hreq with hst | hdef
        · exact ⟨.admitted, hst⟩
        · exact ⟨.deferred, hdef⟩
      · exact ⟨.dropped, hdrop⟩
      · exact ⟨.done, hdone⟩
    obtain ⟨w, hw⟩ := hsome
    exact ⟨w, hw, fun w' hw' => hbal.unique hl hw' hw⟩
  · intro c a' hstep r hr
    exact hstep.dropped hcons hr

def next (cfg : Config κ) (a : Audit κ) (c : Call) : Except PyError (Audit κ) := do
  let t ← a.calls.next cfg c
  pure ⟨t, a.outputs ++ a.calls.reports cfg c, a.aborted ++ a.calls.aborts c⟩

def proceed (cfg : Config κ) (calls : List Call) (a : Audit κ) : Except PyError (Audit κ) :=
  calls.foldlM (fun a c =>
    if a.calls.possible? c && (a.calls.uniqueIds? c && a.calls.genuine? c) then a.next cfg c
    else throw .runtime) a

theorem reachable_of_proceed (calls : List Call) (h : Reachable cfg a) :
    (proceed cfg calls a).Ensures (fun _ => True) (Reachable cfg) := by
  refine Transition.ensures_reachable (fun a c a' hn => ?_) calls h
  split_ifs at hn with hc
  rw [Bool.and_eq_true, Bool.and_eq_true] at hc
  obtain ⟨hposs, huniq, hgen⟩ := hc
  have hfresh : a.calls.FreshRequests c := by
    cases c with
    | addRequest req =>
        exact ⟨Calls.uniqueIds_of_uniqueIds? _ _ huniq, Calls.genuine_of_genuine? _ _ hgen⟩
    | _ => trivial
  obtain ⟨t, ht, ha'⟩ := bind_eq_ok.mp hn
  cases ha'
  exact ⟨⟨Calls.possible_of_possible? cfg hposs, hfresh, ht⟩, rfl, rfl⟩

def replay (cfg : Config κ) (launches : List (ExecutorId × List ℕ)) (calls : List Call) :
    Except PyError (Audit κ) := do
  let m ← launches.foldlM (fun m x => m.launchExecutor x.1 x.2) ExecutorsManager.empty
  let s ← (Scheduler.empty m).updateExecutors cfg
  proceed cfg calls ⟨⟨s, Dict.empty, []⟩, [], []⟩

theorem reachable_of_replay (cfg : Config κ) (launches : List (ExecutorId × List ℕ))
    (calls : List Call) : (replay cfg launches calls).Ensures (fun _ => True) (Reachable cfg) :=
  Calls.ensures_launch cfg launches fun _ hs => reachable_of_proceed calls (.start ⟨hs, rfl, rfl⟩)

/-- At most one request at a time: the second one is aborted while it is deferred and
reported with the output of the first one, the third one is dropped, and the fourth one is
still deferred. -/
theorem requests_conserved_small : ∃ a : Audit Unit,
    Reachable (Config.small true true (some 1)) a ∧
    (∀ r ∈ a.calls.usedReqIds, ∃! w, a.At r w) ∧
    a.At "a" .admitted ∧ a.At "b" .done ∧ a.At "c" .dropped ∧ a.At "d" .deferred := by
  obtain ⟨a, hreach, hadm, hdone, hdrop, hdef⟩ := exists_of_ensures
    (reachable_of_replay (Config.small true true (some 1)) [(0, [0])]
      [.addRequest (Request.small "a"), .addRequest (Request.small "b"),
        .addRequest (Request.small "c"), .addRequest (Request.small "d"), .schedule .still,
        .finishRequests (.many ["b"]) .finishedAborted (fun _ => 0), .startExecution 0,
        .finishExecution 0 ⟨Dict.empty.set "a" 0, [[(1, 7)]]⟩, .updateFromOutput 0,
        .finishRequests (.many ["c"]) .finishedAborted (fun _ => 0)])
    (Q := fun a =>
      "a" ∈ a.calls.scheduler.requestStates ∧ "b" ∈ a.finishedWith .abort ∧
      "c" ∈ a.droppedIds ∧ "d" ∈ a.calls.scheduler.deferredRequestStates) (by decide +kernel)
  exact ⟨a, hreach, (requests_conserved _ hreach).1, hadm, Or.inr (Or.inr hdone), hdrop, hdef⟩

end Audit

end TeDiServe

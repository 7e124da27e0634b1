import TeDiServe.Engine.Calls
import TeDiServe.Placement.Abort
import TeDiServe.Placement.Schedule

/-!
# What a call can do

`Effect` lists, for every kind of call, what is known of the state after it when a
placement is behind the state before it. Every invariant of runs is proved by cases
on it, without looking into the calls again.
-/

namespace TeDiServe

namespace ExecutorsManager

variable {m m' : ExecutorsManager} {e : ExecutorId} {bundleIds : List ℕ}

theorem keyed_empty : empty.Keyed := by
  intro e x hx
  cases hx

theorem ensures_launchExecutor (h : m.Keyed) :
    (m.launchExecutor e bundleIds).Ensures (fun _ => True) fun m' => m'.Keyed ∧
      e ∉ m.usedExecutorIds ∧ m'.executors = m.executors.set e ⟨e, bundleIds, .idle⟩ ∧
      m'.usedExecutorIds = m.usedExecutorIds.add e ∧
      m'.waitingToBeKilled = m.waitingToBeKilled.set e false := by
  unfold launchExecutor
  rw [ensures_bind, ensures_pyAssert]
  refine ⟨fun hnew => ?_, fun _ => trivial⟩
  rw [ensures_pure]
  refine ⟨?_, of_decide_eq_true hnew, rfl, rfl, rfl⟩
  intro e' x hx
  dsimp only at hx
  rw [Dict.get?_set] at hx
  by_cases he : e' = e
  · rw [if_pos he, Option.some.injEq] at hx
    rw [← hx, he]
  · rw [if_neg he] at hx
    exact h e' x hx

theorem ensures_announceKill (m : ExecutorsManager) (e : ExecutorId) :
    (m.announceKill e).Ensures (fun _ => True) fun m' => m'.executors = m.executors ∧
      m'.usedExecutorIds = m.usedExecutorIds ∧ e ∈ m.usedExecutorIds ∧
      m'.waitingToBeKilled = m.waitingToBeKilled.set e true := by
  unfold announceKill
  rw [ensures_bind, ensures_pyAssert]
  refine ⟨fun hused => ?_, fun _ => trivial⟩
  rw [ensures_bind, ensures_subscript]
  exact ⟨fun _ _ => ⟨rfl, rfl, of_decide_eq_true hused, rfl⟩, fun _ => trivial⟩

theorem Keyed.deleteExecutor (h : m.Keyed) (e : ExecutorId) : (m.deleteExecutor e).Keyed := by
  intro e' x hx
  unfold ExecutorsManager.deleteExecutor at hx
  dsimp only at hx
  rw [Dict.get?_erase] at hx
  by_cases he : e' = e
  · rw [if_pos he] at hx
    cases hx
  · rw [if_neg he] at hx
    exact h e' x hx

end ExecutorsManager

def Call.isManagement : Call → Bool
  | .startExecution _ | .launch _ _ | .announceKill _ | .setKilling _ | .remove _ => true
  | _ => false

namespace Calls

open Scheduler

variable {κ : Type} {cfg : Config κ} {t : Calls κ} {π : Placement}

/-- The state after a call, when the placement `π` was behind the state before it. -/
inductive Effect (cfg : Config κ) (t : Calls κ) (π : Placement) :
    Call → Calls κ → Placement → Prop
  | addRequest {req : Request} {s : Scheduler κ} {π' : Placement} (refines : Refines s π')
      (ledger : Ledger cfg s) (extends_ : π.Extends π') (enrolled : Enrolled t.scheduler s)
      (requests : s.requests = t.scheduler.requests.set req.requestId req)
      (dropped : s.droppedDeferredRequests = t.scheduler.droppedDeferredRequests)
      (deferred : cfg.maxNumUnfinishedRequests = none →
        s.deferredRequests = t.scheduler.deferredRequests) :
      Effect cfg t π (.addRequest req)
        { t with scheduler := s, usedReqIds := req.requestId :: t.usedReqIds } π'
  | schedule {env : ScheduleEnv} {s : Scheduler κ} {outs : Dict ExecutorId SchedulerOutput}
      {p : Plan κ} {π₁ π₂ : Placement} (readied : Readied cfg t.scheduler π p π₁ π₂)
      (returned : Returned cfg t.scheduler p π₁ π₂ s outs)
      (course : ∃ s₀ π₀ s₁, Course cfg env t.scheduler π s₀ π₀ s₁ π₁ p π₂)
      (loop : p.found.foldlM (issue cfg env p.idleNotAcceptingExecutors p.tables)
        (p.scheduler, Dict.empty) = .ok (s, outs))
      (schedule_eq : t.scheduler.schedule cfg env = .ok (s, s.flush p.found outs)) :
      Effect cfg t π (.schedule env)
        { t with
          scheduler := s
          inFlight := (s.flush p.found outs).entries.foldl
            (fun d y => d.set y.1 ⟨y.2, none⟩) t.inFlight } π₂
  | manager {c : Call} {m : ExecutorsManager} (management : c.isManagement = true)
      (keyed : m.Keyed) (next_eq : t.next cfg c = .ok (t.withManager m)) :
      Effect cfg t π c (t.withManager m) π
  | finishExecution {e : ExecutorId} {res : ModelRunnerOutput} {f : Flight}
      {m : ExecutorsManager} (flight : t.inFlight.get? e = some f) (keyed : m.Keyed)
      (set_eq : t.scheduler.executorsManager.setStatus e .outputReady = .ok m) :
      Effect cfg t π (.finishExecution e res)
        { t.withManager m with inFlight := t.inFlight.set e { f with result := some res } } π
  | updateFromOutput {e : ExecutorId} {msg : SchedulerOutput} {res : ModelRunnerOutput}
      {s : Scheduler κ} {outs : List EngineCoreOutput} {m : ExecutorsManager}
      {done : List ReqId} {π' : Placement}
      (flight : t.inFlight.get? e = some ⟨msg, some res⟩)
      (apply_eq : t.scheduler.applyOutput cfg msg res = .ok (s, outs))
      (visited : ∀ r, r ∈ done ↔ r ∈ msg.numScheduledTokens)
      (applied : Applied cfg { t.scheduler with droppedDeferredRequests := [] } π done s π')
      (progressed : Progressed res t.scheduler msg.numScheduledTokens.keys.reverse s outs)
      (keyed : m.Keyed) (set_eq : ∃ st, s.executorsManager.setStatus e st = .ok m) :
      Effect cfg t π (.updateFromOutput e)
        { t with
          scheduler := { s with executorsManager := m }
          inFlight := t.inFlight.erase e } π'
  | finishRequests {arg : RequestIds} {status : RequestStatus} {clock : ReqId → ℚ}
      {s : Scheduler κ} {π' : Placement}
      (finish_eq : t.scheduler.finishRequests cfg arg status clock = .ok s)
      (finished : status.isFinished = true) (abortable : Abortable t.scheduler π arg)
      (aborted : Aborted cfg t.scheduler π arg.ids s π') :
      Effect cfg t π (.finishRequests arg status clock) { t with scheduler := s } π'
  | refreshEstimates {predict : ReqId → ℚ → ℚ} {s : Scheduler κ} (soft : Soft t.scheduler s) :
      Effect cfg t π (.refreshEstimates predict) { t with scheduler := s } π
  | controlLoad {idx : ReqId → Option ℕ} {minIdx : ℕ}
      (inRange : ∀ r i, idx r = some i → i < cfg.candidateConfidenceThresholds.length)
      (minInRange : minIdx < cfg.candidateConfidenceThresholds.length) :
      Effect cfg t π (.controlLoad idx minIdx)
        { t with scheduler := t.scheduler.controlLoad idx minIdx } π

/-- Every possible call that returns has one of the listed effects. -/
theorem ensures_effect {c : Call} (h : Refines t.scheduler π) (hl : Ledger cfg t.scheduler)
    (hkey : t.scheduler.executorsManager.Keyed) (hp : t.Possible cfg c) :
    (t.next cfg c).Ensures (fun _ => True) fun t' => ∃ π', Effect cfg t π c t' π' := by
  have hset : ∀ {e : ExecutorId} {st : ExecutorStatus}, c.isManagement = true →
      t.next cfg c = (do
        let m ← t.scheduler.executorsManager.setStatus e st
        pure (t.withManager m)) →
      (t.next cfg c).Ensures (fun _ => True) fun t' => ∃ π', Effect cfg t π c t' π' := by
    intro e st hc hn
    cases hm : t.scheduler.executorsManager.setStatus e st with
    | error err =>
        rw [hn, hm]
        trivial
    | ok m =>
        rw [hm] at hn
        rw [hn]
        exact ⟨π, .manager hc (hkey.setStatus hm) hn⟩
  cases c with
  | addRequest req =>
      unfold next
      apply (ensures_addRequest h hl hp).bind_any
      rintro s ⟨π', h', hl', hext, hen, hreqs, hdrop, hdef⟩
      exact ⟨π', .addRequest h' hl' hext hen hreqs hdrop hdef⟩
  | schedule env =>
      unfold next
      apply (ensures_schedule_course env h hl hkey).with_eq.bind_any
      rintro ⟨s, outs⟩ ⟨⟨p, π₁, π₂, outs', hr, hret, hflush, hcourse, hloop⟩, heq⟩
      dsimp only at hret hflush hloop
      subst hflush
      exact ⟨π₂, .schedule hr hret hcourse hloop heq⟩
  | startExecution e => exact hset rfl rfl
  | finishExecution e res =>
      obtain ⟨msg, hf⟩ := hp
      simp only [next, hf, ensures_bind]
      cases hm : t.scheduler.executorsManager.setStatus e .outputReady with
      | error err => trivial
      | ok m => exact ⟨π, .finishExecution hf (hkey.setStatus hm) hm⟩
  | updateFromOutput e =>
      obtain ⟨msg, res, hf⟩ := hp
      simp only [next, hf, Scheduler.updateFromOutput, ensures_bind]
      apply (ensures_applyOutput msg res h hl).with_eq.imp
      rintro ⟨s, outs⟩ ⟨⟨done, π', hdone, happ, hprog⟩, heq⟩
      apply (ensures_releaseExecutor cfg s e).imp
      rintro s' ⟨st, m, -, hm, rfl⟩
      have hk : s.executorsManager.Keyed := by
        rw [happ.manager]
        exact hkey
      exact ⟨π', .updateFromOutput hf heq hdone happ hprog (hk.setStatus hm) ⟨st, hm⟩⟩
  | finishRequests arg status clock =>
      unfold next
      rw [ensures_bind]
      cases hfin : status.isFinished with
      | false =>
          unfold Scheduler.finishRequests
          rw [hfin]
          trivial
      | true =>
          apply (ensures_finishRequests clock h hl hfin arg).with_eq.mono (fun _ _ => trivial)
          rintro s ⟨⟨hab, π', hd⟩, heq⟩
          exact ⟨π', .finishRequests heq hfin hab hd⟩
  | launch e bundleIds =>
      have hn : t.next cfg (.launch e bundleIds) =
          t.scheduler.executorsManager.launchExecutor e bundleIds >>= fun m =>
            pure (t.withManager m) := rfl
      rw [hn, ensures_bind]
      apply (ExecutorsManager.ensures_launchExecutor hkey).with_eq.imp
      rintro m ⟨hm, heq⟩
      exact ⟨π, .manager rfl hm.1 (by rw [hn, heq]; rfl)⟩
  | announceKill e =>
      have hn : t.next cfg (.announceKill e) =
          t.scheduler.executorsManager.announceKill e >>= fun m => pure (t.withManager m) := rfl
      rw [hn, ensures_bind]
      apply (ExecutorsManager.ensures_announceKill _ e).with_eq.imp
      rintro m ⟨hm, heq⟩
      refine ⟨π, .manager rfl ?_ (by rw [hn, heq]; rfl)⟩
      intro e' x hx
      rw [hm.1] at hx
      exact hkey e' x hx
  | setKilling e => exact hset rfl rfl
  | remove e => exact ⟨π, .manager rfl (hkey.deleteExecutor e) rfl⟩
  | refreshEstimates predict =>
      exact ⟨π, .refreshEstimates (soft_processStepEstimateUpdates cfg predict t.scheduler)⟩
  | controlLoad idx minIdx => exact ⟨π, .controlLoad hp.1 hp.2⟩

end Calls

end TeDiServe

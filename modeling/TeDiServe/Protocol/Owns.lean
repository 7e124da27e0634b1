import TeDiServe.Protocol.Run

/-!
# The executors that `schedule()` drives

The messages of `schedule()` go to executors that the call has found idle, except for one:
if stage 6 has issued none and there are dropped requests to report, the message that
reports them goes to the first executor on record. This depends on what the call itself
drops and moves, but the state in which it is called tells when it does not happen: no
executor is idle, or nothing was dropped and nothing has expired, or an idle executor has
a request or an id to free. Such an executor gets a message, since a request that leaves
it has to be freed on it.
-/

namespace TeDiServe

namespace Scheduler

variable {κ : Type} {s : Scheduler κ} {π : Placement} {e : ExecutorId}

/-- The executor has a request, or an id to free. -/
def hasWork (s : Scheduler κ) (e : ExecutorId) : Bool :=
  (s.executorStates.get? e).any (fun es => !es.reqIds.isEmpty) ||
    !(s.freeReqIds.getD e OrderedSet.empty).isEmpty

theorem Refines.hasWork_iff (h : Refines s π) : s.hasWork e = true ↔
    (∃ r, π r = some (.running e)) ∨ ∃ r, r ∈ s.freeReqIds.getD e OrderedSet.empty := by
  unfold hasWork
  rw [Bool.or_eq_true, Bool.not_eq_true', OrderedSet.isEmpty_eq_false_iff]
  apply or_congr_left
  cases hes : s.executorStates.get? e with
  | none =>
      have hno : ∀ r, π r ≠ some (.running e) := fun r hr =>
        (Dict.get?_eq_none_iff _ _).mp hes (h.hosted r e (Placement.host?_of_running hr))
      simp [hno]
  | some es =>
      rw [Option.any_some, Bool.not_eq_true', OrderedSet.isEmpty_eq_false_iff]
      exact exists_congr fun r => (h.executors e es hes).resident r

/-- The call with this plan has no executor, nothing to report, or a message that reports. -/
def Plan.Carries (p : Plan κ) : Prop :=
  p.found = [] ∨ p.scheduler.droppedDeferredRequests = [] ∨
    ∃ e ∈ p.found, p.scheduler.hasWork e = true

end Scheduler

namespace Phase

def Carries {κ : Type} : Phase κ → Prop
  | .issuing _ _ p _ _ => p.Carries
  | _ => True

end Phase

namespace Loop

open Scheduler

variable {κ : Type} {cfg : Config κ} {t t' : Loop κ} {e : ExecutorId} {π : Placement}
  {start : ExecutorsManager} {env : ScheduleEnv} {p : Plan κ}
  {outs : Dict ExecutorId SchedulerOutput}

/-! ## One call -/

theorem Sound.owns_iff (h : Sound cfg t) (hphase : t.phase = .issuing start env p [] outs) :
    (∀ e ∈ t.scheduler.flush p.found outs,
      (start.status? e = some .idle ∨ start.status? e = some .idleNotAcceptingNewRequests) ∧
      t.status? e = some .scheduled ∧ ¬t.Working e) ↔ t.flushDue = false := by
  obtain ⟨π, hπ⟩ := h.placed
  obtain ⟨s₀, π₀, π₁, rfl, hr, hi⟩ := hπ.issuing _ _ _ _ _ hphase
  have hfits := h.fits
  unfold Fits at hfits
  rw [hphase] at hfits
  constructor
  · intro hall
    by_contra hdue
    rw [Bool.not_eq_false, flushDue, hphase] at hdue
    obtain ⟨hfound, hnil, hdrop⟩ := of_decide_eq_true hdue
    -- an executor that was found is on record, so the flush message has a receiver
    obtain ⟨e₀, he₀⟩ := List.exists_mem_of_ne_nil _ hfound
    have hrec : e₀ ∈ t.scheduler.executorStates := by
      rw [hi.framed.executorStates, hr.recorded]
      exact hr.isGone_of_found he₀
    obtain ⟨e, rest, hkeys⟩ := List.exists_cons_of_ne_nil (List.ne_nil_of_mem hrec)
    have hmem : e ∈ t.scheduler.flush p.found outs := by
      unfold flush
      rw [if_pos ⟨hfound, hnil, hdrop⟩]
      unfold makeDropFlushSchedulerOutput
      rw [hkeys]
      simp
    obtain ⟨hidle, hsched, -⟩ := hall e hmem
    refine hfits.2.2 e (hr.mem_found.mpr hidle) (List.not_mem_nil) ?_ hsched
    rw [Dict.mem_def, hnil]
    exact List.not_mem_nil
  · intro hno
    rw [flush_eq hphase hno]
    intro e he
    obtain ⟨out, hout⟩ := (Dict.mem_iff_exists _ _).mp he
    exact ⟨hr.mem_found.mp (hi.sent e out hout).1, hfits.2.1 e he⟩

/-- After a run that never sent the message for dropped requests, with deferral and
dropping or without, a call of `schedule()` returns messages only for executors that were
idle when this call began, are scheduled now, and have neither a task nor an unprocessed
result, exactly if it has not to report dropped requests. -/
theorem schedule_owns_iff (cfg : Config κ)
    (h : Reachable cfg (fun t ev => t.noFlush ev = true) t)
    (hphase : t.phase = .issuing start env p [] outs) :
    (∀ e ∈ t.scheduler.flush p.found outs,
      (start.status? e = some .idle ∨ start.status? e = some .idleNotAcceptingNewRequests) ∧
      t.status? e = some .scheduled ∧ ¬t.Working e) ↔ t.flushDue = false :=
  (sound_of_reachable h fun _ _ _ hallowed => hallowed).owns_iff hphase

theorem Sound.flushDue_of_carries (h : Sound cfg t)
    (hphase : t.phase = .issuing start env p [] outs) (hp : p.Carries) : t.flushDue = false := by
  obtain ⟨π, hπ⟩ := h.placed
  obtain ⟨s₀, π₀, π₁, -, hr, hi⟩ := hπ.issuing _ _ _ _ _ hphase
  unfold flushDue
  rw [hphase]
  apply decide_eq_false
  rintro ⟨hfound, hnil, hdrop⟩
  rcases hp with hnone | hnone | ⟨e, he, hwork⟩
  · exact hfound hnone
  · exact hdrop (hi.framed.droppedDeferredRequests.trans hnone)
  · have hout : e ∉ outs := by
      rw [Dict.mem_def, hnil]
      exact List.not_mem_nil
    obtain ⟨hrun, hfree⟩ := hi.skipped e he List.not_mem_nil hout
    rcases hr.refines.hasWork_iff.mp hwork with ⟨r, hr'⟩ | ⟨r, hr'⟩
    · exact hrun r hr'
    · exact hfree r hr'

/-! ## The state in which `schedule()` is called -/

def found (t : Loop κ) : List ExecutorId :=
  t.scheduler.executorsWithStatus .idle ++
    t.scheduler.executorsWithStatus .idleNotAcceptingNewRequests

/-- `schedule()` is called when no executor is idle, when no request was dropped or is
dropped by this call, or when an idle executor has a request or an id to free. -/
def carriesDropped (cfg : Config κ) (t : Loop κ) : Event → Bool
  | .beginSchedule env =>
      t.found = [] ∨
      t.scheduler.droppedDeferredRequests = [] ∧ t.scheduler.NoneExpired cfg env.admitClock ∨
      ∃ e ∈ t.found, t.scheduler.hasWork e = true
  | _ => true

theorem Placed.ensures_carries (h : Placed cfg t π)
    (hev : t.carriesDropped cfg (.beginSchedule env) = true) :
    (t.scheduler.prepare cfg env).Ensures (fun _ => True) Plan.Carries := by
  apply (ensures_prepare_course env h.refines h.ledger h.keyed).mono (fun _ _ => trivial)
  rintro p ⟨π₁, π₂, hr, s₀, π₀, s₁, hcourse⟩
  have hfound : p.found = t.found := by
    unfold Plan.found found
    rw [hr.idle, hr.notAccepting]
  rcases of_decide_eq_true hev with hnone | ⟨hnil, hexp⟩ | ⟨e, he, hwork⟩
  · exact Or.inl (hfound.trans hnone)
  · have hkept := ensures_of_ok
      (ensures_admitDeferredRequests_dropped h.refines h.ledger hexp) hcourse.admit_eq
    exact Or.inr (Or.inl (hcourse.droppedDeferredRequests.trans (hkept.trans hnil)))
  · rw [← hfound] at he
    refine Or.inr (Or.inr ⟨e, he, hr.refines.hasWork_iff.mpr ?_⟩)
    have hgone := hr.isGone_of_found he
    have hfree := hr.free e ((hr.recorded e).mpr hgone)
    rcases h.refines.hasWork_iff.mp hwork with ⟨r, hrun⟩ | ⟨r, hold⟩
    · -- the round keeps the request on the executor, or it has to be freed there
      by_cases hstay : π₂ r = some (.running e)
      · exact Or.inl ⟨r, hstay⟩
      · exact Or.inr ⟨r, (hfree r).mpr (Or.inr ⟨(hr.resident r e).mpr ⟨hrun, hgone⟩, hstay⟩)⟩
    · exact Or.inr ⟨r, (hfree r).mpr (Or.inl hold)⟩

/-- Only the beginning of a call makes a plan. -/
theorem Sound.ensures_carries (h : Sound cfg t) (hc : t.phase.Carries) {ev : Event}
    (hev : t.carriesDropped cfg ev = true) :
    (t.next cfg ev).Ensures (fun _ => True) fun t' => t'.phase.Carries := by
  obtain ⟨π, hπ⟩ := h.placed
  cases ev with
  | beginSchedule env =>
      simp only [next, beginSchedule]
      split
      · rw [ensures_bind, ensures_raising]
        exact hπ.ensures_carries hev
      · trivial
  | issueNext =>
      simp only [next, issueNext]
      split
      · next hphase =>
          rw [hphase] at hc
          split_ifs
          · trivial
          · exact ensures_bind_any _ fun x => hc
      · trivial
  | skipSchedule | dispatch | endWait | endCollect =>
      simp only [next, skipSchedule, dispatch, endWait, endCollect]
      repeat' split
      all_goals trivial
  | release | finishUpdate =>
      simp only [next, release, finishUpdate]
      repeat' split
      any_goals trivial
      all_goals exact ensures_bind_any _ fun _ => trivial
  | collect =>
      simp only [next, collect]
      repeat' split
      any_goals trivial
      exact ensures_bind_any _ fun m => ensures_bind_any _ fun x => trivial
  | announceKill e | launch e bundleIds => exact ensures_bind_any _ fun m => hc
  | addRequest req | abortRequests ids clock | startExecution n | finishExecution n res
  | setKilling e =>
      simp only [next, addRequest, abortRequests, startExecution, finishExecution, setKilling]
      repeat' split
      any_goals trivial
      all_goals exact ensures_bind_any _ fun _ => hc
  | remove e | refreshEstimates predict | controlLoad idx minIdx =>
      simp only [next, remove, refreshEstimates, controlLoad]
      repeat' split
      all_goals first | exact hc | trivial

theorem Sound.noFlush_of_carries (h : Sound cfg t) (hc : t.phase.Carries) (ev : Event) :
    t.noFlush ev = true := by
  cases ev with
  | dispatch =>
      have hdue : t.flushDue = false := by
        cases hphase : t.phase with
        | issuing start env p rest outs =>
            rw [hphase] at hc
            cases rest with
            | nil => exact h.flushDue_of_carries hphase hc
            | cons e rest => simp [flushDue, hphase]
        | _ => simp [flushDue, hphase]
      simp [Loop.noFlush, hdue]
  | _ => rfl

theorem carries_of_reachable
    (h : Reachable cfg (fun t ev => t.carriesDropped cfg ev = true) t) :
    Sound cfg t ∧ t.phase.Carries := by
  apply h.invariant (I := fun t => Sound cfg t ∧ t.phase.Carries)
  · intro t ht
    refine ⟨sound_of_init ht, ?_⟩
    obtain ⟨launches, m, s, -, -, rfl⟩ := ht
    trivial
  · rintro t ev t' - ⟨hs, hc⟩ hstep
    have hc' := ensures_of_ok (hs.ensures_carries hc hstep.1) hstep.2
    exact ⟨(ensures_of_ok (hs.ensures_next (hs.noFlush_of_carries hc ev)) hstep.2).1, hc'⟩

/-- If in a run, with deferral and dropping or without, every call of `schedule()` is made
when no executor is idle, or no request was dropped before or is dropped by the call, or an
idle executor has a request or an id to free, then every call returns messages only for
executors that were idle when it began, are scheduled now, and have neither a task nor an
unprocessed result. -/
theorem schedule_owns (cfg : Config κ)
    (h : Reachable cfg (fun t ev => t.carriesDropped cfg ev = true) t)
    (hphase : t.phase = .issuing start env p [] outs) :
    ∀ e ∈ t.scheduler.flush p.found outs,
      (start.status? e = some .idle ∨ start.status? e = some .idleNotAcceptingNewRequests) ∧
      t.status? e = some .scheduled ∧ ¬t.Working e := by
  obtain ⟨hs, hc⟩ := carries_of_reachable h
  rw [hphase] at hc
  exact (hs.owns_iff hphase).mpr (hs.flushDue_of_carries hphase hc)

def returned (t : Loop κ) : List ExecutorId :=
  match t.phase with
  | .issuing _ _ p [] outs => (t.scheduler.flush p.found outs).keys
  | _ => []

end Loop

/-- A fast executor has two bundles and a slow one has one; at most ten tokens fit in a
step, and at most two requests are admitted. -/
def Config.twoSpeeds : Config Unit :=
  { Config.small true true (some 2) with
    maxNumScheduledTokens := 10
    latencyProfiles := (Dict.empty.set 1 (.constant 100 10)).set 2 (.constant 100 1)
    tpDegreeToThroughputSupply := (Dict.empty.set 1 1).set 2 1 }

def Request.short (r : ReqId) : Request :=
  { Request.small r with
    promptTokenIds := [1, 1, 1, 1, 1]
    maxTokens := 2
    allTokenIds := [1, 1, 1, 1, 1, 0, 0]
    numExecTokens := 7
    curBlockStart := 5 }

example (r : ReqId) :
    Request.create r 0 0 none [1, 1, 1, 1, 1] 0 2 2 = .ok (Request.short r) := rfl

namespace Loop

/-- Both executors run a step, and a third request waits. -/
def bothRunning : List Event :=
  [.addRequest (Request.small "a"), .addRequest (Request.short "b"),
    .addRequest (Request.small "c"), .beginSchedule .still, .issueNext, .issueNext, .dispatch,
    .startExecution 0, .startExecution 1]

/-- A deferred request is aborted while the slow executor runs a step and the fast one is
idle with a request: the message for that request reports the aborted one. -/
theorem schedule_owns_small : ∃ t : Loop Unit,
    Reachable Config.twoSpeeds (fun t ev => t.carriesDropped Config.twoSpeeds ev = true) t ∧
    t.returned = [0] ∧ t.scheduler.droppedDeferredRequests.map Request.requestId = ["d"] ∧
    t.status? 1 = some .executing ∧
    ∀ e ∈ t.returned, t.status? e = some .scheduled ∧ ¬t.Working e := by
  obtain ⟨t, hreach, hret, hdrop, hbusy⟩ := exists_of_ensures
    (reachable_of_replay Config.twoSpeeds
      (fun t ev (h : carriesDropped Config.twoSpeeds t ev = true) => h)
      [(0, [0, 1]), (1, [2])]
      (bothRunning ++ [
        .finishExecution 0 ⟨Dict.empty.set "a" 0, [[(1, 7)]]⟩, .collect, .release,
        .finishUpdate, .endCollect, .addRequest (Request.small "d"),
        .abortRequests ["d"] (fun _ => 0), .beginSchedule .still, .issueNext]))
    (Q := fun t => t.returned = [0] ∧
      t.scheduler.droppedDeferredRequests.map Request.requestId = ["d"] ∧
      t.status? 1 = some .executing) (by decide +kernel)
  refine ⟨t, hreach, hret, hdrop, hbusy, ?_⟩
  intro e he
  unfold returned at he
  split at he
  · next hphase => exact (schedule_owns _ hreach hphase e he).2
  · cases he

/-- A deferred request is aborted while the fast executor runs a step and the slow one
is idle: the message that reports it goes to the fast executor. -/
theorem schedule_flushes_to_busy : ∃ t : Loop Unit,
    Reachable Config.twoSpeeds (fun _ _ => True) t ∧ t.returned = [0] ∧
    t.status? 0 = some .executing ∧ t.tasks.keys = [0] := by
  exact exists_of_ensures
    (reachable_of_replay Config.twoSpeeds Transition.allows_any [(0, [0, 1]), (1, [2])]
      (bothRunning ++ [
        .finishExecution 1 ⟨Dict.empty.set "b" 0, [[(5, 7), (6, 7)]]⟩, .collect, .release,
        .finishUpdate, .endCollect,
        -- the finished request is freed, and "c" is pending on the fast executor
        .beginSchedule .still, .issueNext, .dispatch, .startExecution 2,
        .finishExecution 2 ⟨Dict.empty, []⟩, .collect, .release, .finishUpdate, .endCollect,
        .addRequest (Request.small "d"), .abortRequests ["d"] (fun _ => 0),
        .beginSchedule .still, .issueNext])) (by decide +kernel)

end Loop

end TeDiServe

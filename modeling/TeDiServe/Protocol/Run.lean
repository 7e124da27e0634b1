import TeDiServe.Protocol.BusyLoop

/-!
# The in-flight protocol over all interleavings

Every event keeps the invariant as long as `schedule()` does not return the message
that reports dropped requests: that message goes to the first executor on record,
whatever it is doing. Without deferral nothing is ever dropped, and the protocol
holds in every interleaving.
-/

namespace TeDiServe

namespace Loop

open Scheduler

variable {κ : Type} {cfg : Config κ} {t t' : Loop κ} {e : ExecutorId}

/-- Every event keeps the invariant and moves executors along their life cycle. -/
theorem Sound.ensures_next (h : Sound cfg t) {ev : Event} (hno : t.noFlush ev = true) :
    (t.next cfg ev).Ensures (fun _ => True) fun t' => Sound cfg t' ∧ LifeCycle t t' := by
  cases ev with
  | addRequest req => exact h.ensures_addRequest req
  | abortRequests ids clock => exact h.ensures_abortRequests ids clock
  | beginSchedule env => exact h.ensures_beginSchedule env
  | skipSchedule => exact h.ensures_skipSchedule
  | issueNext => exact h.ensures_issueNext
  | dispatch => exact h.ensures_dispatch (Bool.not_eq_true' _ ▸ hno :)
  | endWait => exact h.ensures_endWait
  | collect => exact h.ensures_collect
  | release => exact h.ensures_release
  | finishUpdate => exact h.ensures_finishUpdate
  | endCollect => exact h.ensures_endCollect
  | startExecution n => exact h.ensures_startExecution n
  | finishExecution n res => exact h.ensures_finishExecution n res
  | announceKill e => exact h.ensures_announceKill e
  | setKilling e => exact h.ensures_setKilling e
  | remove e => exact h.ensures_remove e
  | launch e bundleIds => exact h.ensures_launch e bundleIds
  | refreshEstimates predict => exact h.ensures_refreshEstimates predict
  | controlLoad idx minIdx => exact h.ensures_controlLoad idx minIdx

theorem launched {launches : List (ExecutorId × List ℕ)} {m : ExecutorsManager}
    (h : launches.foldlM (fun m x => m.launchExecutor x.1 x.2) ExecutorsManager.empty = .ok m) :
    m.Keyed ∧ ∀ e, m.status? e ≠ none → e ∈ m.usedExecutorIds := by
  have hloop := ensures_foldlM (E := fun _ => True)
    (I := fun m : ExecutorsManager =>
      m.Keyed ∧ ∀ e, m.status? e ≠ none → e ∈ m.usedExecutorIds)
    (f := fun (m : ExecutorsManager) (x : ExecutorId × List ℕ) => m.launchExecutor x.1 x.2)
    launches ?_ ExecutorsManager.empty ⟨ExecutorsManager.keyed_empty, fun e he => absurd rfl he⟩
  · have hall := ensures_of_ok hloop h
    exact hall
  · rintro m ⟨e, bundleIds⟩ - ⟨hkey, hused⟩
    apply (ExecutorsManager.ensures_launchExecutor hkey).imp
    rintro m' ⟨hkey', -, hexec, hused', -⟩
    refine ⟨hkey', ?_⟩
    intro e' hne
    rw [hused', OrderedSet.mem_add]
    by_cases he : e' = e
    · exact Or.inl he
    · refine Or.inr (hused e' ?_)
      simp only [ExecutorsManager.status?, hexec, Dict.get?_set, if_neg he] at hne
      exact hne

theorem sound_of_init (h : Init cfg t) : Sound cfg t := by
  obtain ⟨launches, m, s, hm, hs, rfl⟩ := h
  obtain ⟨hkey, hused⟩ := launched hm
  obtain ⟨hr, hl, -, hre, -⟩ := ensures_of_ok
    (ensures_updateExecutors (refines_empty m) (ledger_empty cfg m) hkey) hs
  have hman : s.executorsManager = m := hre.executorsManager
  refine ⟨⟨?_, ?_, List.nodup_nil, ?_⟩, trivial, ⟨?_, List.nodup_nil, ?_⟩, _, hr, hl, ?_, ?_, ?_,
    ?_⟩
  · intro n x hx
    cases hx
  · intro y hy
    cases hy
  · intro e he
    exact absurd he (Dict.not_mem_empty e)
  · intro e he
    cases he
  · intro e he
    change e ∈ s.executorsManager.usedExecutorIds
    unfold Loop.status? start at he
    rw [hman] at he ⊢
    exact hused e he
  · change s.executorsManager.Keyed
    rw [hman]
    exact hkey
  · rintro e m' (⟨b, hb⟩ | ⟨res, hres⟩)
    · cases hb
    · cases hres
  · intro start env p rest outs hp
    cases hp
  · intro _
    obtain ⟨es, rs, caches, free, d, tput, hs', -⟩ := hre
    change s.deferredRequests = [] ∧ s.droppedDeferredRequests = []
    rw [hs']
    exact ⟨rfl, rfl⟩

theorem sound_of_reachable {allowed : Loop κ → Event → Prop} (h : Reachable cfg allowed t)
    (hno : ∀ t ev, Sound cfg t → allowed t ev → t.noFlush ev = true) : Sound cfg t := by
  apply h.invariant
  · exact fun t ht => sound_of_init ht
  · intro t ev t' _ ht hstep
    exact (ensures_of_ok (ht.ensures_next (hno t ev ht hstep.1)) hstep.2).1

/-- Without deferral there is nothing to report. -/
theorem Sound.noFlush (h : Sound cfg t) (hdefer : cfg.maxNumUnfinishedRequests = none)
    (ev : Event) : t.noFlush ev = true := by
  obtain ⟨π, hπ⟩ := h.placed
  have hdrop := (hπ.quiet hdefer).2
  cases ev with
  | dispatch =>
      have hdue : t.flushDue = false := by
        unfold flushDue
        split
        · simp [hdrop]
        · rfl
      simp [Loop.noFlush, hdue]
  | _ => rfl

/-! ## Consequences -/

/-- A message for `e` is made and its result is not yet processed. -/
def Assigned (t : Loop κ) (e : ExecutorId) : Prop :=
  t.Working e ∨ t.phase = .releasing e ∨
    ∃ start env p rest outs, t.phase = .issuing start env p rest outs ∧ e ∈ outs

theorem Sound.status_of_assigned (h : Sound cfg t) (ha : t.Assigned e) :
    t.status? e = some .scheduled ∨ t.status? e = some .executing ∨
      t.status? e = some .outputReady := by
  have hfits := h.fits
  unfold Fits at hfits
  rcases ha with hw | hp | ⟨start, env, p, rest, outs, hp, he⟩
  · exact h.held.status_of_working hw
  · rw [hp] at hfits
    exact Or.inr (Or.inr hfits.1)
  · rw [hp] at hfits
    exact Or.inl (hfits.2.1 e he).1

theorem Sound.not_assigned (h : Sound cfg t)
    (hst : t.status? e = some .idle ∨ t.status? e = some .killing ∨ t.status? e = none) :
    ¬t.Assigned e := by
  intro ha
  rcases h.status_of_assigned ha with hs | hs | hs <;> simp [hs] at hst

def Retired (t : Loop κ) (e : ExecutorId) : Prop :=
  e ∈ t.scheduler.executorsManager.usedExecutorIds ∧
    (t.status? e = some .killing ∨ t.status? e = none)

theorem LifeCycle.retired (h : LifeCycle t t') (hr : t.Retired e) : t'.Retired e := by
  refine ⟨h.used e hr.1, ?_⟩
  rcases hr.2 with hk | hnone
  · rcases h.status e with hst | harrow
    · exact Or.inl (hst.trans hk)
    · rw [hk] at harrow
      generalize t'.status? e = o at harrow
      cases harrow
      exact Or.inr rfl
  · exact Or.inr (h.removed e hr.1 hnone)

theorem LifeCycle.idle_of_killing (h : LifeCycle t t') (hk : t'.status? e = some .killing)
    (hnot : t.status? e ≠ some .killing) : t.status? e = some .idle := by
  rcases h.status e with hst | harrow
  · exact absurd (hst.symm.trans hk) hnot
  · rw [hk] at harrow
    generalize t.status? e = o at harrow
    cases harrow
    rfl

theorem Sound.resident_of_queued (h : Sound cfg t) {y : QueuedOutput} {r : ReqId}
    (hy : y ∈ t.executorOutputQueue) (hr : r ∈ y.message.content.numScheduledTokens)
    (hknown : r ∈ t.scheduler.requests) (hle : t.addedAt.getD r 0 ≤ y.message.number) :
    (∃ rs, t.scheduler.requestStates.get? r = some rs ∧ rs.executorId = some y.executor) ∧
      ∃ es, t.scheduler.executorStates.get? y.executor = some es ∧ r ∈ es.reqIds := by
  obtain ⟨π, hπ⟩ := h.placed
  have hloc := hπ.resident y.executor y.message (Or.inr ⟨y.output, hy⟩) r hr hknown hle
  have hres := hπ.refines.exists_resident_iff.mpr hloc
  exact ⟨(hπ.refines.recordsAgree.resident r y.executor).mp hres, hres⟩

/-- Without deferral, in every state of every interleaving: an executor has at most one
`execute_model` call, and none while a result of it waits; a result is applied together
with the message it was computed from; an executor becomes killing only from idle and
without a message; once killing it gets neither another status nor a message in any
continuation; and a request of a waiting result that is still known, and was not added
after the message was made, is resident on the executor of the result. -/
theorem in_flight_protocol (cfg : Config κ) (hdefer : cfg.maxNumUnfinishedRequests = none)
    (h : Reachable cfg (fun _ _ => True) t) :
    (∀ n n' x x', t.tasks.get? n = some x → t.tasks.get? n' = some x' →
      x.executor = x'.executor → n = n') ∧
    (∀ n x y, t.tasks.get? n = some x → y ∈ t.executorOutputQueue →
      x.executor ≠ y.executor) ∧
    (∀ y ∈ t.executorOutputQueue, t.schedulerOutput y.executor = .ok y.message) ∧
    (∀ ev t' e, t.next cfg ev = .ok t' → t'.status? e = some .killing →
      t.status? e ≠ some .killing → t.status? e = some .idle ∧ ¬t.Assigned e) ∧
    (∀ e t', t.status? e = some .killing →
      Transition.Reachable (fun x => x = t) (Step cfg fun _ _ => True) t' →
      (t'.status? e = some .killing ∨ t'.status? e = none) ∧ ¬t'.Assigned e) ∧
    ∀ y ∈ t.executorOutputQueue, ∀ r, r ∈ y.message.content.numScheduledTokens →
      r ∈ t.scheduler.requests → t.addedAt.getD r 0 ≤ y.message.number →
      (∃ rs, t.scheduler.requestStates.get? r = some rs ∧ rs.executorId = some y.executor) ∧
        ∃ es, t.scheduler.executorStates.get? y.executor = some es ∧ r ∈ es.reqIds := by
  have hsound : ∀ {t : Loop κ}, Reachable cfg (fun _ _ => True) t → Sound cfg t :=
    fun h => sound_of_reachable h fun t ev ht _ => ht.noFlush hdefer ev
  have hs := hsound h
  refine ⟨?_, ?_, ?_, ?_, ?_, ?_⟩
  · intro n n' x x' hx hx' he
    exact hs.held.task_unique hx hx' he
  · intro n x y hx hy
    exact hs.held.executor_ne hx hy
  · intro y hy
    exact hs.held.schedulerOutput_eq hy
  · intro ev t' e hev hk hnot
    have hlife := (ensures_of_ok (hs.ensures_next (hs.noFlush hdefer ev)) hev).2
    have hidle := hlife.idle_of_killing hk hnot
    exact ⟨hidle, hs.not_assigned (Or.inl hidle)⟩
  · intro e t' hk hrun
    have hret : t'.Retired e := by
      refine (hrun.invariant (I := fun u => Reachable cfg (fun _ _ => True) u ∧ u.Retired e)
        ?_ ?_).2
      · rintro u rfl
        exact ⟨h, hs.killers.used e (by simp [hk]), Or.inl hk⟩
      · rintro u ev u' - ⟨hu, hur⟩ hstep
        have husound := hsound hu
        have hlife := (ensures_of_ok (husound.ensures_next (husound.noFlush hdefer ev))
          hstep.2).2
        exact ⟨hu.next hstep, hlife.retired hur⟩
    exact ⟨hret.2, (hsound (h.trans hrun)).not_assigned (Or.inr hret.2)⟩
  · intro y hy r hr hknown hle
    exact hs.resident_of_queued hy hr hknown hle

/-- One executor is killing while the result of the other waits. -/
theorem in_flight_protocol_small : ∃ t : Loop Unit,
    Reachable (Config.small true true none) (fun _ _ => True) t ∧
    t.executorOutputQueue.map QueuedOutput.executor = [0] ∧ t.status? 1 = some .killing ∧
    ¬t.Assigned 1 ∧ ∀ y ∈ t.executorOutputQueue, t.schedulerOutput y.executor = .ok y.message ∧
      ∃ es, t.scheduler.executorStates.get? y.executor = some es ∧ "a" ∈ es.reqIds := by
  obtain ⟨t, hreach, hqueue, hkill, hknown, hmsg⟩ := exists_of_ensures
    (reachable_of_replay (Config.small true true none) Transition.allows_any [(0, [0]), (1, [1])]
      [.addRequest (Request.small "a"), .beginSchedule .still, .announceKill 1, .issueNext,
        .issueNext, .dispatch, .startExecution 0, .setKilling 1,
        .finishExecution 0 ⟨Dict.empty.set "a" 0, [[(1, 7)]]⟩])
    (Q := fun t =>
      t.executorOutputQueue.map QueuedOutput.executor = [0] ∧
      t.status? 1 = some .killing ∧ "a" ∈ t.scheduler.requests ∧
      ∀ y ∈ t.executorOutputQueue, "a" ∈ y.message.content.numScheduledTokens ∧
        t.addedAt.getD "a" 0 ≤ y.message.number) (by decide +kernel)
  obtain ⟨-, -, hb, -, hd, hres⟩ := in_flight_protocol _ rfl hreach
  refine ⟨t, hreach, hqueue, hkill, (hd 1 t hkill (.start rfl)).2, ?_⟩
  intro y hy
  exact ⟨hb y hy, (hres y hy "a" (hmsg y hy).1 hknown (hmsg y hy).2).2⟩

/-- In every step of every run, the status of an executor stays as it is or follows an arrow
of the life cycle, and an executor that is gone does not come back. -/
theorem statuses_follow_life_cycle (cfg : Config κ) (hdefer : cfg.maxNumUnfinishedRequests = none)
    (h : Reachable cfg (fun _ _ => True) t) {ev : Event} (hev : t.next cfg ev = .ok t')
    (e : ExecutorId) :
    (t'.status? e = t.status? e ∨ ExecutorStatus.Arrow (t.status? e) (t'.status? e)) ∧
      (e ∈ t.scheduler.executorsManager.usedExecutorIds → t.status? e = none →
        t'.status? e = none) := by
  have hs := sound_of_reachable h fun t ev ht _ => ht.noFlush hdefer ev
  have hlife := (ensures_of_ok (hs.ensures_next (hs.noFlush hdefer ev)) hev).2
  exact ⟨hlife.status e, hlife.removed e⟩

/-- The task of one executor starts after the other executor was killed. -/
theorem statuses_follow_life_cycle_small : ∃ t t' : Loop Unit,
    Reachable (Config.small true true none) (fun _ _ => True) t ∧
    t.status? 0 = some .scheduled ∧ t'.status? 0 = some .executing ∧
    ExecutorStatus.Arrow (t.status? 0) (t'.status? 0) ∧
    t.status? 1 = none ∧ t'.status? 1 = none := by
  obtain ⟨t, hreach, hbefore, hused, hgone, hnext⟩ := exists_of_ensures
    (reachable_of_replay (Config.small true true none) Transition.allows_any [(0, [0]), (1, [1])]
      [.addRequest (Request.small "a"), .beginSchedule .still, .announceKill 1, .issueNext,
        .issueNext, .dispatch, .setKilling 1, .remove 1])
    (Q := fun t =>
      t.status? 0 = some .scheduled ∧ 1 ∈ t.scheduler.executorsManager.usedExecutorIds ∧
      t.status? 1 = none ∧
      (t.next (Config.small true true none) (.startExecution 0)).Ensures (fun _ => False)
        fun t' => t'.status? 0 = some .executing) (by decide +kernel)
  obtain ⟨t', hok, hafter⟩ := hnext.exists_ok
  have hlife := statuses_follow_life_cycle _ rfl hreach hok
  have hne : t'.status? 0 ≠ t.status? 0 := by
    rw [hbefore, hafter]
    decide
  exact ⟨t, t', hreach, hbefore, hafter, (hlife 0).1.resolve_left hne, hgone,
    (hlife 1).2 hused hgone⟩

/-! ## `schedule()` in one go -/

theorem foldlM_issueNext (start : ExecutorsManager) {env : ScheduleEnv} {p : Plan κ}
    {rest : List ExecutorId} {outs : Dict ExecutorId SchedulerOutput}
    {y : Scheduler κ × Dict ExecutorId SchedulerOutput} (hdown : t.shuttingDown = [])
    (h : rest.foldlM (issue cfg env p.idleNotAcceptingExecutors p.tables) (t.scheduler, outs) =
      .ok y) :
    (List.replicate rest.length Event.issueNext).foldlM (next cfg)
      { t with phase := .issuing start env p rest outs } =
      .ok { t with scheduler := y.1, phase := .issuing start env p [] y.2 } := by
  induction rest generalizing t outs with
  | nil =>
      cases h
      rfl
  | cons e rest ih =>
      rw [List.foldlM_cons] at h
      obtain ⟨x, hx, h⟩ := bind_eq_ok.mp h
      rw [List.length_cons, List.replicate_succ, List.foldlM_cons]
      simp only [next, issueNext]
      rw [if_neg (by simp [hdown]), hx]
      exact ih (t := { t with scheduler := x.1 }) hdown h

theorem foldl_dispatchTo_phase (l : List (ExecutorId × SchedulerOutput)) (t : Loop κ)
    (ph : Phase κ) :
    l.foldl dispatchTo { t with phase := ph } = { l.foldl dispatchTo t with phase := ph } := by
  induction l generalizing t with
  | nil => rfl
  | cons x l ih => exact ih (t.dispatchTo x)

/-- When nothing else happens and no executor is being shut down, the steps of the loop do what
a call of `schedule()` does, and create the tasks for the messages that it returns. -/
theorem schedule_undisturbed (cfg : Config κ) (t : Loop κ) (env : ScheduleEnv) :
    (t.scheduler.schedule cfg env).Ensures (fun _ => True) fun y => ∃ n,
      (Event.beginSchedule env :: (.replicate n .issueNext ++ [.dispatch])).foldlM (next cfg)
        { t with phase := .inputs, shuttingDown := [] } =
      .ok (y.2.entries.foldl dispatchTo
        { t with scheduler := y.1, phase := .collecting true, shuttingDown := [] }) := by
  refine ensures_bind_ok _ fun p hp => ensures_bind_ok _ fun x hx => ⟨p.found.length, ?_⟩
  have hissue := foldlM_issueNext (t := { t with scheduler := p.scheduler, shuttingDown := [] })
    t.scheduler.executorsManager rfl hx
  rw [List.foldlM_cons]
  simp only [next, beginSchedule, hp]
  refine (List.foldlM_append.trans (congrArg (· >>= _) hissue)).trans ?_
  exact congrArg Except.ok (foldl_dispatchTo_phase _ _ _).symm

end Loop

end TeDiServe

import TeDiServe.Protocol.DrainLoop

/-!
# Draining an executor before it is killed

The executors and the kills run beside the busy loop, and they keep `Drains` as well,
except for the announcement of a kill: nothing reads the flag for an executor that is idle
already when the kill is announced, and between two rounds an idle executor may have
requests. In the runs in which a kill is not announced for such an executor, one that is
being killed has no requests.
-/

namespace TeDiServe

namespace Loop

open Scheduler

variable {κ : Type} {cfg : Config κ} {t t' : Loop κ} {e : ExecutorId} {π π' : Placement}

/-! ## The other coroutines -/

theorem Drains.outside {m : ExecutorsManager} (h : Drains cfg t π)
    (hs : t'.scheduler = { t.scheduler with executorsManager := m })
    (hphase : t'.phase = t.phase) (hkey : m.Keyed) (hkills : ∀ e, KillAt t' π e) :
    ∃ π', Drains cfg t' π' ∧ Stays cfg t t' π π' := by
  refine ⟨π, ⟨?_, ?_, ?_, ?_, hkills⟩, Stays.same _ _ _ _⟩
  · rw [hs]
    exact h.refines.of_manager m
  · rw [hs]
    exact h.ledger.of_manager m
  · rw [hs]
    exact hkey
  · intro start env p rest outs hp
    rw [hphase] at hp
    obtain ⟨s₀, π₀, π₁, hr, hi⟩ := h.issuing start env p rest outs hp
    rw [hs]
    exact ⟨s₀, π₀, π₁, hr, hi.of_manager m⟩

section

variable (h : Drains cfg t π)
include h

theorem Drains.ensures_startExecution (n : ℕ) :
    (t.startExecution n).Ensures (fun _ => True) fun t' =>
      ∃ π', Drains cfg t' π' ∧ Stays cfg t t' π π' := by
  unfold startExecution
  split
  · next e c hx =>
    apply (ensures_setStatus t h.keyed e .executing).bind
    rintro m ⟨hkey, hused, hst, hflag, hne⟩
    exact h.outside (m := m) rfl rfl hkey (KillAt.set_status h.kills hst hne hflag hused
      (fun _ he => he) (fun _ hs => Or.inl hs) (fun _ hw => hw) (by simp) (by simp) (by simp)
      (by simp))
  · trivial

theorem Drains.ensures_finishExecution (n : ℕ) (res : ModelRunnerOutput) :
    (t.finishExecution n res).Ensures (fun _ => True) fun t' =>
      ∃ π', Drains cfg t' π' ∧ Stays cfg t t' π π' := by
  unfold finishExecution
  split
  · next e c hx =>
    apply (ensures_setStatus t h.keyed e .outputReady).bind
    rintro m ⟨hkey, hused, hst, hflag, hne⟩
    exact h.outside (m := m) rfl rfl hkey (KillAt.set_status h.kills hst hne hflag hused
      (fun _ he => he) (fun _ hs => Or.inl hs) (fun _ hw => hw) (by simp) (by simp) (by simp)
      (by simp))
  · trivial

/-- A killer that finds the executor idle finds it without requests. -/
theorem Drains.ensures_setKilling (e : ExecutorId) :
    (t.setKilling e).Ensures (fun _ => True) fun t' =>
      ∃ π', Drains cfg t' π' ∧ Stays cfg t t' π π' := by
  unfold setKilling
  split_ifs with hc
  · obtain ⟨hkiller, -, hidle⟩ := hc
    apply (ensures_setStatus t h.keyed e .killing).bind
    rintro m ⟨hkey, hused, hst, hflag, hne⟩
    have hmark : t.isMarked e := ((h.kills e).waiting hkiller).resolve_left hne
    have hvac : π.Vacates e := (h.kills e).marked hidle hmark
    refine h.outside (m := m) rfl rfl hkey (KillAt.set_status h.kills hst hne hflag hused
      (fun _ he => he) ?_ (fun _ hw => List.mem_of_mem_erase hw) ?_ (by simp) (by simp)
      (fun _ => hvac))
    · intro e' he'
      rcases List.mem_cons.mp he' with rfl | he'
      · exact Or.inr ⟨rfl, rfl, hkiller⟩
      · exact Or.inl he'
    · intro he
      obtain ⟨-, st, hst', hno⟩ := (h.kills e).rest he
      rw [hidle, Option.some.injEq] at hst'
      exact absurd hst'.symm hno
  · trivial

/-! ## Runs -/

/-- A kill is announced only for an executor that is not idle or has no requests. -/
def AnnouncedBusy (t : Loop κ) : Event → Prop
  | .announceKill e => t.status? e = some .idle →
      ∀ es, t.scheduler.executorStates.get? e = some es → es.isDrained = true
  | _ => True

theorem Drains.ensures_announceKill (hbusy : t.AnnouncedBusy (.announceKill e)) :
    (t.announceKill e).Ensures (fun _ => True) fun t' =>
      ∃ π', Drains cfg t' π' ∧ Stays cfg t t' π π' := by
  unfold announceKill
  rw [ensures_bind, ensures_raising]
  apply (ExecutorsManager.ensures_announceKill _ e).imp
  rintro m ⟨hexec, hused, hmem, hflag⟩
  have hst : ∀ e', m.status? e' = t.status? e' := by
    intro e'
    simp only [ExecutorsManager.status?, status?, hexec]
  have hkey : m.Keyed := by
    intro e' x hx
    rw [hexec] at hx
    exact h.keyed e' x hx
  have hmark : ∀ e', m.waitingToBeKilled.get? e' = some true ↔ e' = e ∨ t.isMarked e' := by
    intro e'
    rw [hflag, Dict.get?_set]
    by_cases he : e' = e
    · simp [he]
    · simp [he, isMarked]
  refine h.outside (m := m) rfl rfl hkey (KillAt.of_others (e := e) h.kills
    ⟨?_, ?_, ?_, ?_, ?_, ?_, ?_⟩
    (fun e' _ => hst e') (fun e' he => (hmark e').trans (or_iff_right he)) (fun _ he => he)
    (fun _ hs _ => hs) (fun e' hw he => (List.mem_cons.mp hw).resolve_left he) ?_)
  · intro he
    refine ((h.kills e).rest he).imp_right ?_
    rintro ⟨st, hst', hidle⟩
    exact ⟨st, (hst e).trans hst', hidle⟩
  · intro hidle _
    cases hes : t.scheduler.executorStates.get? e with
    | none => exact h.refines.vacates_of_not_mem ((Dict.get?_eq_none_iff _ _).mp hes)
    | some es => exact (h.refines.isDrained_iff hes).mp (hbusy ((hst e).symm.trans hidle) es hes)
  · exact fun hk => (h.kills e).killing ((hst e).symm.trans hk)
  · intro he
    obtain ⟨hno, h1, h2⟩ := (h.kills e).shuttingDown he
    exact ⟨hno, fun hs => h1 ((hst e).symm.trans hs), fun hs => h2 ((hst e).symm.trans hs)⟩
  · exact fun hnone => (h.kills e).gone ((hst e).symm.trans hnone)
  · exact fun _ => Or.inr ((hmark e).mpr (Or.inl rfl))
  · exact fun _ => (hused.symm ▸ hmem : e ∈ m.usedExecutorIds)
  · exact fun e' he => (hused.symm ▸ he : e' ∈ m.usedExecutorIds)

theorem Drains.ensures_remove (e : ExecutorId) :
    (t.remove e).Ensures (fun _ => True) fun t' =>
      ∃ π', Drains cfg t' π' ∧ Stays cfg t t' π π' := by
  unfold remove
  split_ifs with hc
  · have hst := t.status?_deleteExecutor e
    have hself := (hst e).trans (if_pos rfl)
    have hother : ∀ {e'}, e' ≠ e →
        (t.scheduler.executorsManager.deleteExecutor e).status? e' = t.status? e' :=
      fun he => (hst _).trans (if_neg he)
    have hmark : ∀ {e'}, e' ≠ e →
        (t.scheduler.executorsManager.deleteExecutor e).waitingToBeKilled.get? e' =
          t.scheduler.executorsManager.waitingToBeKilled.get? e' := by
      intro e' he
      simp only [ExecutorsManager.deleteExecutor, Dict.get?_erase, if_neg he]
    have hnot : ∀ st, (t.scheduler.executorsManager.deleteExecutor e).status? e ≠ some st := by
      intro st hs
      rw [hself] at hs
      cases hs
    refine h.outside (m := t.scheduler.executorsManager.deleteExecutor e) rfl rfl
      (h.keyed.deleteExecutor e) (KillAt.of_others (e := e) h.kills ⟨?_, ?_, ?_, ?_, ?_, ?_, ?_⟩
      (fun e' he => hother he) (fun e' he => by rw [isMarked, isMarked, ← hmark he]; rfl)
      (fun _ he => he) (fun _ hs _ => List.mem_of_mem_erase hs) (fun _ hw _ => hw) fun _ he => he)
    · exact fun he => absurd hc ((h.kills e).rest he).1
    · exact fun hidle => absurd hidle (hnot _)
    · exact fun hk => absurd hk (hnot _)
    · exact fun _ => ⟨((h.kills e).shuttingDown hc).1, hnot _, hnot _⟩
    · exact fun _ => ((h.kills e).shuttingDown hc).1
    · exact fun _ => Or.inl hself
    · exact fun _ => (h.kills e).used (Or.inr (Or.inr hc))
  · trivial

theorem Drains.ensures_launch (e : ExecutorId) (bundleIds : List ℕ) :
    (t.launch e bundleIds).Ensures (fun _ => True) fun t' =>
      ∃ π', Drains cfg t' π' ∧ Stays cfg t t' π π' := by
  unfold launch
  rw [ensures_bind, ensures_raising]
  apply (ExecutorsManager.ensures_launchExecutor h.keyed).imp
  rintro m ⟨hkey, hfresh, hexec, hused, hflag⟩
  have hst := status?_of_launched hexec
  have hself := (hst e).trans (if_pos rfl)
  have hother : ∀ {e'}, e' ≠ e → m.status? e' = t.status? e' :=
    fun he => (hst _).trans (if_neg he)
  have hmark : ∀ e', m.waitingToBeKilled.get? e' = some true ↔ e' ≠ e ∧ t.isMarked e' := by
    intro e'
    rw [hflag, Dict.get?_set]
    by_cases he : e' = e
    · simp [he]
    · simp [he, isMarked]
  have hunknown : t.status? e = none ∧ e ∉ t.waitingKillers ∧ e ∉ t.shuttingDown := by
    by_contra hk
    rw [not_and_or, not_and_or, not_not, not_not] at hk
    exact hfresh ((h.kills e).used hk)
  refine h.outside (m := m) rfl rfl hkey (KillAt.of_others (e := e) h.kills
    ⟨?_, ?_, ?_, ?_, ?_, ?_, ?_⟩
    (fun e' he => hother he) (fun e' he => (hmark e').trans (and_iff_right he)) (fun _ he => he)
    (fun _ hs _ => hs) (fun _ hw _ => hw) ?_)
  · intro he
    obtain ⟨-, st, hst', -⟩ := (h.kills e).rest he
    rw [hunknown.1] at hst'
    cases hst'
  · exact fun _ hm => absurd rfl ((hmark e).mp hm).1
  · intro hk
    rw [show (t.withManager m).status? e = some .idle from hself] at hk
    cases hk
  · exact fun hs => absurd hs hunknown.2.2
  · intro hnone
    rw [show (t.withManager m).status? e = some .idle from hself] at hnone
    cases hnone
  · exact fun hw => absurd hw hunknown.2.1
  · exact fun _ =>
      (hused.symm ▸ (OrderedSet.mem_add _ _ _).mpr (Or.inl rfl) : e ∈ m.usedExecutorIds)
  · exact fun e' he =>
      (hused.symm ▸ (OrderedSet.mem_add _ _ _).mpr (Or.inr he) : e' ∈ m.usedExecutorIds)

theorem Drains.ensures_next (hcache : cfg.caching = true) {ev : Event} (hev : t.AnnouncedBusy ev) :
    (t.next cfg ev).Ensures (fun _ => True) fun t' =>
      ∃ π', Drains cfg t' π' ∧ Stays cfg t t' π π' := by
  cases ev with
  | addRequest req => exact h.ensures_addRequest req
  | abortRequests ids clock => exact h.ensures_abortRequests ids clock
  | beginSchedule env => exact h.ensures_beginSchedule env
  | skipSchedule => exact h.ensures_skipSchedule
  | issueNext => exact h.ensures_issueNext
  | dispatch => exact h.ensures_dispatch
  | endWait => exact h.ensures_endWait
  | collect => exact h.ensures_collect
  | release => exact h.ensures_release hcache
  | finishUpdate => exact h.ensures_finishUpdate
  | endCollect => exact h.ensures_endCollect
  | startExecution n => exact h.ensures_startExecution n
  | finishExecution n res => exact h.ensures_finishExecution n res
  | announceKill e => exact h.ensures_announceKill hev
  | setKilling e => exact h.ensures_setKilling e
  | remove e => exact h.ensures_remove e
  | launch e bundleIds => exact h.ensures_launch e bundleIds
  | refreshEstimates predict => exact h.ensures_refreshEstimates predict
  | controlLoad idx minIdx => exact h.ensures_controlLoad idx minIdx

end

theorem drains_of_init (h : Init cfg t) : ∃ π, Drains cfg t π := by
  obtain ⟨launches, m, s, hm, hs, rfl⟩ := h
  obtain ⟨hkey, hused⟩ := launched hm
  obtain ⟨hr, hl, -, hre, -⟩ := ensures_of_ok
    (ensures_updateExecutors (refines_empty m) (ledger_empty cfg m) hkey) hs
  have hman : s.executorsManager = m := hre.executorsManager
  have hvac : ∀ e, (Placement.evict (fun _ => none) (isGone m)).Vacates e := by
    intro e r hhost
    have hnone := (Placement.host?_evict.mp hhost).1
    cases hnone
  refine ⟨_, hr, hl, ?_, ?_, fun e => ⟨?_, fun _ _ => hvac e, fun _ => hvac e, ?_,
    fun _ => (hvac e).not_running, ?_, ?_⟩⟩
  · change s.executorsManager.Keyed
    rw [hman]
    exact hkey
  · intro start env p rest outs hp
    cases hp
  · exact fun he => by cases he
  · exact fun he => by cases he
  · exact fun he => by cases he
  · rintro (hsome | hw | hs)
    · change e ∈ s.executorsManager.usedExecutorIds
      unfold Loop.status? start at hsome
      rw [hman] at hsome ⊢
      exact hused e hsome
    · cases hw
    · cases hs

theorem drains_of_reachable (hcache : cfg.caching = true)
    (h : Reachable cfg AnnouncedBusy t) : ∃ π, Drains cfg t π := by
  apply h.invariant
  · exact fun t ht => drains_of_init ht
  · intro t ev t' _ ht hstep
    obtain ⟨π, hπ⟩ := ht
    obtain ⟨π', hπ', -⟩ := ensures_of_ok (hπ.ensures_next hcache hstep.1) hstep.2
    exact ⟨π', hπ'⟩

/-- With caching on, in every interleaving in which kills are announced only for executors
that are not idle or have no requests: an executor that is killing is drained, and no step
takes a request in the middle of a block from its executor while the request is known. -/
theorem drain_before_kill (cfg : Config κ) (hcache : cfg.caching = true)
    (h : Reachable cfg AnnouncedBusy t) :
    (∀ e es, t.status? e = some .killing → t.scheduler.executorStates.get? e = some es →
      es.isDrained = true) ∧
    ∀ ev t' e es r req, t.AnnouncedBusy ev → t.next cfg ev = .ok t' →
      t.scheduler.executorStates.get? e = some es → r ∈ es.reqIds →
      t.scheduler.requests.get? r = some req → req.isStartOfNewBlock = false →
      r ∈ t'.scheduler.requests →
      ∃ es', t'.scheduler.executorStates.get? e = some es' ∧ r ∈ es'.reqIds := by
  obtain ⟨π, hπ⟩ := drains_of_reachable hcache h
  constructor
  · intro e es hk hes
    exact (hπ.refines.isDrained_iff hes).mpr ((hπ.kills e).killing hk)
  · intro ev t' e es r req hev hnext hes hr hreq hblock hknown
    obtain ⟨π', hπ', hstays⟩ := ensures_of_ok (hπ.ensures_next hcache hev) hnext
    have hrun : π r = some (.running e) := ((hπ.refines.executors e es hes).resident r).mp hr
    have hcan : canMigrate cfg req = false := by
      unfold canMigrate
      rw [hcache, hblock]
      rfl
    exact hπ'.refines.exists_resident_iff.mpr (hstays r req e hreq hcan hrun hknown)

def announcedBusy? (t : Loop κ) : Event → Bool
  | .announceKill e => t.status? e ≠ some .idle ∨
      (t.scheduler.executorStates.get? e).all ExecutorState.isDrained
  | _ => true

theorem announcedBusy_of_announcedBusy? (t : Loop κ) (ev : Event)
    (h : t.announcedBusy? ev = true) : t.AnnouncedBusy ev := by
  cases ev with
  | announceKill e =>
      intro hidle es hes
      have hall := (of_decide_eq_true h).resolve_left (not_not.mpr hidle)
      rw [hes] at hall
      exact hall
  | _ => trivial

/-- A kill is announced while the executor runs a step. Its request completes a block and
moves to a new executor, and then the killer goes on. -/
theorem drain_before_kill_small : ∃ t : Loop Unit,
    Reachable (Config.small true true none) AnnouncedBusy t ∧ t.status? 0 = some .killing ∧
    ∃ es, t.scheduler.executorStates.get? 0 = some es ∧ es.isDrained = true := by
  obtain ⟨t, hreach, hkill, hrec⟩ := exists_of_ensures
    (reachable_of_replay (Config.small true true none) announcedBusy_of_announcedBusy? [(0, [0])]
      [.addRequest (Request.small "a"), .beginSchedule .still, .issueNext, .dispatch,
        .startExecution 0, .announceKill 0,
        .finishExecution 0 ⟨Dict.empty.set "a" 0, [[(1, 7), (2, 7)]]⟩, .collect, .release,
        .finishUpdate, .launch 1 [1], .endCollect, .beginSchedule .still, .issueNext, .issueNext,
        .dispatch, .startExecution 2, .finishExecution 2 ⟨Dict.empty, []⟩, .collect, .release,
        .setKilling 0])
    (Q := fun t =>
      t.status? 0 = some .killing ∧ 0 ∈ t.scheduler.executorStates) (by decide +kernel)
  obtain ⟨es, hes⟩ := (Dict.mem_iff_exists _ _).mp hrec
  exact ⟨t, hreach, hkill, es, hes, (drain_before_kill _ rfl hreach).1 0 es hkill hes⟩

/-- A kill is announced right after a step, when the executor is idle: it is killing with
a request in the middle of a block, and the next round evicts the request and starts it
on the other executor. -/
theorem killing_with_resident : ∃ t t' : Loop Unit,
    Reachable (Config.small true true none) (fun _ _ => True) t ∧ t.status? 0 = some .killing ∧
    (t.scheduler.executorStates.get? 0).map ExecutorState.isDrained = some false ∧
    (t.scheduler.requestStates.get? "a").map RequestState.executorId = some (some 0) ∧
    (t.scheduler.requests.get? "a").map Request.curBlockNumUnmaskedTokens = some 1 ∧
    t.next (Config.small true true none) (.beginSchedule .still) = .ok t' ∧
    (t'.scheduler.requestStates.get? "a").map RequestState.executorId = some (some 1) := by
  obtain ⟨t, hreach, ⟨hkill, hdrained, hhost, hblock⟩, hnext⟩ := exists_of_ensures
    (reachable_of_replay (Config.small true true none) Transition.allows_any [(0, [0]), (1, [1])]
      [.addRequest (Request.small "a"), .beginSchedule .still, .issueNext, .issueNext, .dispatch,
        .startExecution 0, .finishExecution 0 ⟨Dict.empty.set "a" 0, [[(1, 7)]]⟩, .collect,
        .release, .announceKill 0, .setKilling 0, .finishUpdate, .endCollect])
    (Q := fun t =>
      (t.status? 0 = some .killing ∧
      (t.scheduler.executorStates.get? 0).map ExecutorState.isDrained = some false ∧
      (t.scheduler.requestStates.get? "a").map RequestState.executorId = some (some 0) ∧
      (t.scheduler.requests.get? "a").map Request.curBlockNumUnmaskedTokens = some 1) ∧
      (t.next (Config.small true true none) (.beginSchedule .still)).Ensures (fun _ => False)
        fun t' => (t'.scheduler.requestStates.get? "a").map RequestState.executorId =
          some (some 1)) (by decide +kernel)
  obtain ⟨t', ht', hmoved⟩ := hnext.exists_ok
  exact ⟨t, t', hreach, hkill, hdrained, hhost, hblock, ht', hmoved⟩

end Loop

end TeDiServe

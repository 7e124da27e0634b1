import TeDiServe.Protocol.Sound

/-!
# The events of the other coroutines

A task changes the status of the executor it works for, a kill that of an idle
executor, and a launch that of an id that was never used. None of these executors is
one that the busy loop deals with.
-/

namespace TeDiServe

namespace Loop

open Scheduler

variable {κ : Type} {cfg : Config κ} {t t' : Loop κ} {e : ExecutorId} {n : ℕ}

theorem LifeCycle.of_status (hst : ∀ e, t'.status? e = t.status? e)
    (hused : t'.scheduler.executorsManager.usedExecutorIds =
      t.scheduler.executorsManager.usedExecutorIds) : LifeCycle t t' := by
  refine ⟨fun e => Or.inl (hst e), ?_, ?_⟩
  · intro e he
    rw [hused]
    exact he
  · intro e _ hnone
    rw [hst]
    exact hnone

theorem LifeCycle.of_arrow {o : Option ExecutorStatus}
    (hst : ∀ e', t'.status? e' = if e' = e then o else t.status? e')
    (harrow : ExecutorStatus.Arrow (t.status? e) o) (hne : t.status? e ≠ none)
    (hused : t'.scheduler.executorsManager.usedExecutorIds =
      t.scheduler.executorsManager.usedExecutorIds) : LifeCycle t t' := by
  refine ⟨?_, ?_, ?_⟩
  · intro e'
    rw [hst]
    by_cases he : e' = e
    · rw [if_pos he, he]
      exact Or.inr harrow
    · rw [if_neg he]
      exact Or.inl rfl
  · intro e' he'
    rw [hused]
    exact he'
  · intro e' _ hnone
    have he : e' ≠ e := by
      rintro rfl
      exact hne hnone
    rw [hst, if_neg he]
    exact hnone

theorem ensures_setStatus (t : Loop κ) (hkey : t.scheduler.executorsManager.Keyed)
    (e : ExecutorId) (st : ExecutorStatus) :
    (raising (t.scheduler.executorsManager.setStatus e st)).Ensures (fun _ => True) fun m =>
      m.Keyed ∧ m.usedExecutorIds = t.scheduler.executorsManager.usedExecutorIds ∧
        (∀ e', m.status? e' = if e' = e then some st else t.status? e') ∧
        m.waitingToBeKilled = t.scheduler.executorsManager.waitingToBeKilled ∧
        t.status? e ≠ none := by
  rw [ensures_raising]
  cases hm : t.scheduler.executorsManager.setStatus e st with
  | error err => trivial
  | ok m =>
      obtain ⟨hflag, hused, hst, -, hkeys⟩ := ensures_of_ok
        (ExecutorsManager.ensures_setStatus t.scheduler.executorsManager e st) hm
      refine ⟨hkey.setStatus hm, hused, hst, hflag, ?_⟩
      -- the new manager has a status for `e`, and the keys are the same
      intro hnone
      have hnot : e ∉ m.executors := by
        rw [Dict.mem_def, hkeys]
        exact (Dict.get?_eq_none_iff _ _).mp (Option.map_eq_none_iff.mp hnone)
      have hsome := (hst e).trans (if_pos rfl)
      rw [ExecutorsManager.status?, (Dict.get?_eq_none_iff _ _).mpr hnot] at hsome
      cases hsome

theorem status?_deleteExecutor (t : Loop κ) (e e' : ExecutorId) :
    (t.scheduler.executorsManager.deleteExecutor e).status? e' =
      if e' = e then none else t.status? e' := by
  simp only [ExecutorsManager.deleteExecutor, ExecutorsManager.status?, status?, Dict.get?_erase]
  split_ifs
  · rfl
  · rfl

theorem status?_of_launched {m : ExecutorsManager} {bundleIds : List ℕ}
    (h : m.executors = t.scheduler.executorsManager.executors.set e ⟨e, bundleIds, .idle⟩)
    (e' : ExecutorId) : m.status? e' = if e' = e then some .idle else t.status? e' := by
  simp only [ExecutorsManager.status?, status?, h, Dict.get?_set]
  split_ifs
  · rfl
  · rfl

theorem Killers.of_arrow {o : ExecutorStatus} (h : Killers t)
    (hshut : t'.shuttingDown = t.shuttingDown) (hlife : LifeCycle t t')
    (hst : ∀ e', t'.status? e' = if e' = e then some o else t.status? e')
    (hne : t.status? e ≠ none) : Killers t' := by
  apply h.of_status hshut hlife
  · intro e' hk
    rw [hst]
    by_cases he : e' = e
    · rw [if_pos he]
      exact Option.some_ne_none o
    · rw [if_neg he, hk]
      exact Option.some_ne_none _
  · intro e' hnew
    rw [hst] at hnew
    by_cases he : e' = e
    · rw [he]
      exact hne
    · rw [if_neg he] at hnew
      exact hnew

/-! ## Tasks -/

variable (h : Sound cfg t)
include h

theorem Sound.ensures_startExecution (n : ℕ) :
    (t.startExecution n).Ensures (fun _ => True) fun t' => Sound cfg t' ∧ LifeCycle t t' := by
  obtain ⟨π, hπ⟩ := h.placed
  unfold startExecution
  split
  · next e c hx =>
    apply (ensures_setStatus t hπ.keyed e .executing).bind
    rintro m ⟨hkey, hused, hst, -⟩
    have hwork : t.Working e := working_of_task hx
    have hnow : t.status? e = some .scheduled := (h.held.task n _ hx).1
    have hne : t.status? e ≠ none := by simp [hnow]
    have hlife : LifeCycle t
        { t.withManager m with tasks := t.tasks.set n ⟨e, c, true⟩ } := by
      refine LifeCycle.of_arrow (e := e) hst ?_ hne hused
      rw [hnow]
      exact .execute
    refine ⟨?_, hlife⟩
    refine h.outside (m := m) rfl rfl rfl ?_ hkey ?_ ?_ hlife ?_
    · intro e' m'
      exact inFlight_start hx (by rfl) (by rfl) e' m'
    · exact h.held.start hx hst rfl rfl ⟨rfl, rfl, rfl⟩
    · exact h.killers.of_arrow rfl hlife hst hne
    · intro e' hnot _
      have he : e' ≠ e := fun heq => hnot (heq ▸ hwork)
      exact (hst e').trans (if_neg he)
  · trivial

theorem Sound.ensures_finishExecution (n : ℕ) (res : ModelRunnerOutput) :
    (t.finishExecution n res).Ensures (fun _ => True) fun t' => Sound cfg t' ∧ LifeCycle t t' := by
  obtain ⟨π, hπ⟩ := h.placed
  unfold finishExecution
  split
  · next e c hx =>
    apply (ensures_setStatus t hπ.keyed e .outputReady).bind
    rintro m ⟨hkey, hused, hst, -⟩
    have hwork : t.Working e := working_of_task hx
    have hnow : t.status? e = some .executing := (h.held.task n _ hx).1
    have hne : t.status? e ≠ none := by simp [hnow]
    have hlife : LifeCycle t
        { t.withManager m with
          tasks := t.tasks.erase n
          executorOutputQueue := t.executorOutputQueue ++ [⟨e, res, ⟨n, c⟩⟩] } := by
      refine LifeCycle.of_arrow (e := e) hst ?_ hne hused
      rw [hnow]
      exact .finish
    refine ⟨?_, hlife⟩
    refine h.outside (m := m) rfl rfl rfl ?_ hkey ?_ ?_ hlife ?_
    · intro e' m'
      exact inFlight_finish hx (by rfl) (by rfl) e' m'
    · exact h.held.finish hx hst rfl rfl ⟨rfl, rfl, rfl⟩
    · exact h.killers.of_arrow rfl hlife hst hne
    · intro e' hnot _
      have he : e' ≠ e := fun heq => hnot (heq ▸ hwork)
      exact (hst e').trans (if_neg he)
  · trivial

/-! ## Kills and launches -/

theorem Sound.ensures_announceKill (e : ExecutorId) :
    (t.announceKill e).Ensures (fun _ => True) fun t' => Sound cfg t' ∧ LifeCycle t t' := by
  obtain ⟨π, hπ⟩ := h.placed
  unfold announceKill
  rw [ensures_bind, ensures_raising]
  apply (ExecutorsManager.ensures_announceKill _ e).imp
  rintro m ⟨hexec, hused, -⟩
  have hst : ∀ e', m.status? e' = t.status? e' := by
    intro e'
    simp only [ExecutorsManager.status?, status?, hexec]
  have hkey : m.Keyed := by
    intro e' x hx
    rw [hexec] at hx
    exact hπ.keyed e' x hx
  have hlife : LifeCycle t
      { t.withManager m with waitingKillers := e :: t.waitingKillers } :=
    LifeCycle.of_status hst hused
  refine ⟨?_, hlife⟩
  refine h.outside (m := m) rfl rfl rfl (fun _ _ => Iff.rfl) hkey ?_ ?_ hlife ?_
  · exact h.held.of_status rfl rfl ⟨rfl, rfl, rfl⟩ fun e' _ => hst e'
  · refine h.killers.of_status rfl hlife ?_ ?_
    · intro e' hk hnone
      have hno := (hst e').symm.trans hnone
      rw [hk] at hno
      cases hno
    · intro e' hne hnone
      exact hne ((hst e').trans hnone)
  · exact fun e' _ _ => hst e'

theorem Sound.ensures_setKilling (e : ExecutorId) :
    (t.setKilling e).Ensures (fun _ => True) fun t' => Sound cfg t' ∧ LifeCycle t t' := by
  obtain ⟨π, hπ⟩ := h.placed
  unfold setKilling
  split_ifs with hc
  · obtain ⟨-, hnot, hidle⟩ := hc
    apply (ensures_setStatus t hπ.keyed e .killing).bind
    rintro m ⟨hkey, hused, hst, -⟩
    have hwork : ¬t.Working e := h.held.not_working_of_status hidle (Or.inl rfl)
    have hne : t.status? e ≠ none := by simp [hidle]
    have hlife : LifeCycle t
        { t.withManager m with
          waitingKillers := t.waitingKillers.erase e
          shuttingDown := e :: t.shuttingDown } := by
      refine LifeCycle.of_arrow (e := e) hst ?_ hne hused
      rw [hidle]
      exact .kill
    refine ⟨?_, hlife⟩
    refine h.outside (m := m) rfl rfl rfl (fun _ _ => Iff.rfl) hkey ?_ ?_ hlife ?_
    · refine h.held.of_status rfl rfl ⟨rfl, rfl, rfl⟩ ?_
      intro e' hw
      have he : e' ≠ e := fun heq => hwork (heq ▸ hw)
      exact (hst e').trans (if_neg he)
    · refine ⟨?_, List.nodup_cons.mpr ⟨hnot, h.killers.nodup⟩, ?_⟩
      · intro e' he'
        refine (hst e').trans ?_
        rcases List.mem_cons.mp he' with rfl | he'
        · exact if_pos rfl
        · have he : e' ≠ e := fun heq => hnot (heq ▸ he')
          rw [if_neg he]
          exact h.killers.killing e' he'
      · intro e' hnew
        apply hlife.used
        apply h.killers.used
        intro hnone
        have he : e' ≠ e := fun heq => hne (heq ▸ hnone)
        exact hnew (((hst e').trans (if_neg he)).trans hnone)
    · intro e' _ hbusy
      have he : e' ≠ e := by
        rintro rfl
        rw [hidle] at hbusy
        simp at hbusy
      exact (hst e').trans (if_neg he)
  · trivial

theorem Sound.ensures_remove (e : ExecutorId) :
    (t.remove e).Ensures (fun _ => True) fun t' => Sound cfg t' ∧ LifeCycle t t' := by
  obtain ⟨π, hπ⟩ := h.placed
  unfold remove
  split_ifs with hc
  · have hkill := h.killers.killing e hc
    have hst := t.status?_deleteExecutor e
    have hwork : ¬t.Working e :=
      h.held.not_working_of_status hkill (Or.inr (Or.inr (Or.inr rfl)))
    have hne : t.status? e ≠ none := by simp [hkill]
    have hlife : LifeCycle t
        { t.withManager (t.scheduler.executorsManager.deleteExecutor e) with
          shuttingDown := t.shuttingDown.erase e } := by
      refine LifeCycle.of_arrow (e := e) hst ?_ hne rfl
      rw [hkill]
      exact .remove
    refine ⟨?_, hlife⟩
    refine h.outside (m := t.scheduler.executorsManager.deleteExecutor e) rfl rfl rfl
      (fun _ _ => Iff.rfl) (hπ.keyed.deleteExecutor e) ?_ ?_ hlife ?_
    · refine h.held.of_status rfl rfl ⟨rfl, rfl, rfl⟩ ?_
      intro e' hw
      have he : e' ≠ e := fun heq => hwork (heq ▸ hw)
      exact (hst e').trans (if_neg he)
    · refine ⟨?_, h.killers.nodup.erase e, ?_⟩
      · intro e' he'
        obtain ⟨he, hmem⟩ := (h.killers.nodup.mem_erase_iff).mp he'
        refine (hst e').trans ?_
        rw [if_neg he]
        exact h.killers.killing e' hmem
      · intro e' hnew
        apply hlife.used
        apply h.killers.used
        intro hnone
        have he : e' ≠ e := fun heq => hne (heq ▸ hnone)
        exact hnew (((hst e').trans (if_neg he)).trans hnone)
    · intro e' _ hbusy
      have he : e' ≠ e := by
        rintro rfl
        rw [hkill] at hbusy
        simp at hbusy
      exact (hst e').trans (if_neg he)
  · trivial

theorem Sound.ensures_launch (e : ExecutorId) (bundleIds : List ℕ) :
    (t.launch e bundleIds).Ensures (fun _ => True) fun t' => Sound cfg t' ∧ LifeCycle t t' := by
  obtain ⟨π, hπ⟩ := h.placed
  unfold launch
  rw [ensures_bind, ensures_raising]
  apply (ExecutorsManager.ensures_launchExecutor hπ.keyed).imp
  rintro m ⟨hkey, hfresh, hexec, hused, -⟩
  have hnone : t.status? e = none := by
    by_contra hne
    exact hfresh (h.killers.used e hne)
  have hst := status?_of_launched hexec
  have hlife : LifeCycle t (t.withManager m) := by
    refine ⟨?_, ?_, ?_⟩
    · intro e'
      change m.status? e' = t.status? e' ∨
        ExecutorStatus.Arrow (t.status? e') (m.status? e')
      rw [hst e']
      by_cases he : e' = e
      · rw [if_pos he, he, hnone]
        exact Or.inr .launch
      · rw [if_neg he]
        exact Or.inl rfl
    · intro e' he'
      change e' ∈ m.usedExecutorIds
      rw [hused, OrderedSet.mem_add]
      exact Or.inr he'
    · intro e' he' hno
      have he : e' ≠ e := fun heq => hfresh (heq ▸ he')
      exact ((hst e').trans (if_neg he)).trans hno
  refine ⟨?_, hlife⟩
  have hkeep : ∀ e', t.status? e' ≠ none → m.status? e' = t.status? e' := by
    intro e' hne
    have he : e' ≠ e := fun heq => hne (heq ▸ hnone)
    exact (hst e').trans (if_neg he)
  refine h.outside (m := m) rfl rfl rfl (fun _ _ => Iff.rfl) hkey ?_ ?_ hlife ?_
  · refine h.held.of_status rfl rfl ⟨rfl, rfl, rfl⟩ ?_
    intro e' hw
    apply hkeep
    rcases h.held.status_of_working hw with hs | hs | hs <;> simp [hs]
  · refine ⟨?_, h.killers.nodup, ?_⟩
    · intro e' he'
      have hk := h.killers.killing e' he'
      exact (hkeep e' (by simp [hk])).trans hk
    · intro e' hnew
      change e' ∈ m.usedExecutorIds
      rw [hused, OrderedSet.mem_add]
      by_cases he : e' = e
      · exact Or.inl he
      · refine Or.inr (h.killers.used e' fun hno => hnew ?_)
        exact ((hst e').trans (if_neg he)).trans hno
  · intro e' _ hbusy
    apply hkeep
    rcases hbusy with hs | hs | hs <;> simp [hs]

end Loop

end TeDiServe

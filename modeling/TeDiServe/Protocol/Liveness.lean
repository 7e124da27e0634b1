import TeDiServe.Library.Slots
import TeDiServe.Protocol.Run

/-!
# The busy loop comes back to its clients

A coroutine of the engine may have to wait for another one: the busy loop for a result
or for the lock of an executor that is being shut down, a `kill_executor` for an
executor to become idle. No circle of such waits is reachable, and until something new
comes, the coroutines that are there have only finitely much to do.
-/

namespace TeDiServe

/-- What the coroutines that are there do: the rest of a round of the busy loop, the
tasks, and the `kill_executor`s that have announced themselves. -/
def Event.isOwn : Event → Bool
  | .issueNext | .dispatch | .endWait | .collect | .release | .finishUpdate | .endCollect
  | .startExecution _ | .finishExecution _ _ | .setKilling _ | .remove _ => true
  | _ => false

namespace Loop

open Scheduler

variable {κ : Type} {cfg : Config κ} {t t' : Loop κ} {ev : Event}

/-! ## The work that is left -/

/-- The steps that are left of the round, with those of the tasks it is going to
create. -/
def phaseWork : Phase κ → ℕ
  | .inputs => 0
  | .issuing _ _ _ rest outs => 9 + 7 * rest.length + 6 * outs.keys.length
  | .collecting isWaiting => if isWaiting then 2 else 1
  | .releasing _ => 3
  | .finishing _ => 2

def taskWork (tasks : Dict ℕ ExecuteTask) : ℕ :=
  (tasks.values.map fun x => if x.isExecuting then 5 else 6).sum

def sideWork (t : Loop κ) : ℕ :=
  taskWork t.tasks + 4 * t.executorOutputQueue.length + 2 * t.waitingKillers.length +
    t.shuttingDown.length

def work (t : Loop κ) : ℕ := phaseWork t.phase + t.sideWork

theorem taskWork_of_get? {tasks : Dict ℕ ExecuteTask} {n : ℕ} {x : ExecuteTask}
    (h : tasks.get? n = some x) :
    taskWork tasks = (if x.isExecuting then 5 else 6) + taskWork (tasks.erase n) := by
  simpa [taskWork] using ((Dict.values_perm_erase h).map _).sum_eq

theorem taskWork_set (tasks : Dict ℕ ExecuteTask) (n : ℕ) (x : ExecuteTask) :
    taskWork (tasks.set n x) = (if x.isExecuting then 5 else 6) + taskWork (tasks.erase n) := by
  simpa [taskWork] using ((Dict.values_set_perm tasks n x).map _).sum_eq

theorem taskWork_erase_le (tasks : Dict ℕ ExecuteTask) (n : ℕ) :
    taskWork (tasks.erase n) ≤ taskWork tasks := by
  cases h : tasks.get? n with
  | none => rw [Dict.erase_of_not_mem ((Dict.get?_eq_none_iff _ _).mp h)]
  | some x => exact (taskWork_of_get? h).symm ▸ Nat.le_add_left _ _

theorem sideWork_foldl_dispatchTo (l : List (ExecutorId × SchedulerOutput)) (t : Loop κ) :
    (l.foldl dispatchTo t).sideWork ≤ t.sideWork + 6 * l.length := by
  induction l generalizing t with
  | nil => exact le_rfl
  | cons x l ih =>
      have hset := taskWork_set t.tasks t.numMessages ⟨x.1, x.2, false⟩
      have herase := taskWork_erase_le t.tasks t.numMessages
      have hstep : (t.dispatchTo x).sideWork ≤ t.sideWork + 6 := by
        simp [sideWork, dispatchTo, hset]
        omega
      have hrest := ih (t.dispatchTo x)
      simp only [List.foldl_cons, List.length_cons]
      omega

theorem length_flush_le (s : Scheduler κ) (found : List ExecutorId)
    (outs : Dict ExecutorId SchedulerOutput) :
    (s.flush found outs).entries.length ≤ outs.keys.length + 1 := by
  unfold flush makeDropFlushSchedulerOutput
  split_ifs
  · cases s.executorStates.keys <;> simp [Dict.empty, Dict.set, Dict.insertEntry]
  · simp [Dict.keys]

theorem ensures_work_issueNext (cfg : Config κ) (t : Loop κ) :
    (t.issueNext cfg).Ensures (fun _ => True) fun t' => t'.work < t.work := by
  unfold issueNext
  split
  · rename_i start env p e rest outs hphase
    split_ifs
    · trivial
    · rw [ensures_bind, ensures_raising]
      have hlen : ∀ {x : Scheduler κ × Dict ExecutorId SchedulerOutput},
          x.2.keys.length ≤ outs.keys.length + 1 →
          ({ t with scheduler := x.1, phase := .issuing start env p rest x.2 } : Loop κ).work <
            t.work := by
        intro x hx
        simp only [work, sideWork, hphase, phaseWork, List.length_cons]
        omega
      refine ensures_issue_of env _ (fun m => hlen (Nat.le_succ _)) fun m => ?_
      cases makeOutput cfg env p.tables { t.scheduler with executorsManager := m } e with
      | error err => trivial
      | ok y =>
          refine hlen (x := (y.1, outs.set e y.2)) ?_
          by_cases he : e ∈ outs
          · rw [Dict.keys_set_of_mem _ _ _ he]
            exact Nat.le_succ _
          · exact (Dict.length_keys_set he _).le
  · trivial

/-- Every step of a coroutine that is there uses up some of the work. -/
theorem ensures_work (cfg : Config κ) (t : Loop κ) (hev : ev.isOwn = true) :
    (t.next cfg ev).Ensures (fun _ => True) fun t' => t'.work < t.work := by
  cases ev with
  | issueNext => exact ensures_work_issueNext cfg t
  | dispatch =>
      simp only [next, dispatch]
      split
      · rename_i p outs hphase
        have hflush := length_flush_le t.scheduler p.found outs
        have hfold := sideWork_foldl_dispatchTo (t.scheduler.flush p.found outs).entries t
        simp only [ensures_ok, work, hphase, phaseWork]
        change 2 + sideWork (List.foldl _ _ _) < _
        simp only [List.length_nil]
        omega
      · trivial
  | collect =>
      simp only [next, collect]
      split
      · rename_i b y ys hphase hqueue
        split_ifs
        · trivial
        · refine ensures_bind_any _ fun m => ensures_bind_any _ fun x => ?_
          simp only [ensures_pure, work, sideWork, hphase, hqueue, phaseWork, List.length_cons]
          cases b <;> simp <;> omega
      · trivial
  -- the loop goes on to a place from which fewer steps are left
  | endWait | release | finishUpdate | endCollect =>
      simp only [next, endWait, release, finishUpdate, endCollect]
      repeat' split
      all_goals first
        | trivial
        | exact ensures_bind_any _ fun _ => by simp [work, sideWork, phaseWork, *]
        | simp [work, sideWork, phaseWork, *]
  | startExecution n =>
      simp only [next, startExecution]
      split
      · rename_i e c hx
        refine ensures_bind_any _ fun m => ?_
        simp [work, sideWork, withManager, taskWork_set, taskWork_of_get? hx]
      · trivial
  | finishExecution n res =>
      simp only [next, finishExecution]
      split
      · rename_i e c hx
        refine ensures_bind_any _ fun m => ?_
        simp [work, sideWork, withManager, taskWork_of_get? hx]
        omega
      · trivial
  | setKilling e =>
      simp only [next, setKilling]
      split_ifs with h
      · refine ensures_bind_any _ fun m => ?_
        have hpos := List.length_pos_of_mem h.1
        simp only [ensures_pure, work, sideWork, withManager, List.length_cons,
          List.length_erase_of_mem h.1]
        omega
      · trivial
  | remove e =>
      simp only [next, remove]
      split_ifs with h
      · have hpos := List.length_pos_of_mem h
        simp only [ensures_ok, work, sideWork, withManager, List.length_erase_of_mem h]
        omega
      · trivial
  | _ => cases hev

theorem ensures_work_foldlM (events : List Event) (hown : ∀ ev ∈ events, ev.isOwn = true)
    (t : Loop κ) : (events.foldlM (next cfg) t).Ensures (fun _ => True) fun t' =>
      events.length + t'.work ≤ t.work := by
  induction events generalizing t with
  | nil => exact (Nat.zero_add _).le
  | cons ev events ih =>
      rw [List.foldlM_cons, ensures_bind]
      apply (ensures_work cfg t (hown ev (by simp))).imp
      intro u hu
      apply (ih (fun ev h => hown ev (by simp [h])) u).imp
      intro t' ht'
      simp only [List.length_cons]
      omega

/-! ## Nothing waits for ever -/

def Waiting (cfg : Config κ) (t : Loop κ) : Prop :=
  ∀ ev : Event, ev.isOwn = true → t.next cfg ev = .error .blocked

@[simp] theorem map_raising_ne_blocked {α β : Type} (x : Except PyError α) (f : α → β) :
    f <$> raising x ≠ .error .blocked := by
  cases x <;> exact fun h => nomatch h

@[simp] theorem raising_bind_eq_blocked {α β : Type} {x : Except PyError α}
    {f : α → Except Halt β} :
    raising x >>= f = .error .blocked ↔ ∃ a, x = .ok a ∧ f a = .error .blocked := by
  cases x with
  | error err =>
      simp only [reduceCtorEq, false_and, exists_false, iff_false]
      exact fun h => nomatch h
  | ok a =>
      simp only [Except.ok.injEq, exists_eq_left']
      rfl

theorem Waiting.tasks (h : Waiting cfg t) (n : ℕ) : t.tasks.get? n = none := by
  cases hx : t.tasks.get? n with
  | none => rfl
  | some x =>
      obtain ⟨e, c, _ | _⟩ := x
      · simpa [next, startExecution, hx] using h (.startExecution n) rfl
      · simpa [next, finishExecution, hx] using
          h (.finishExecution n ⟨.empty, []⟩) rfl

theorem Waiting.shuttingDown (h : Waiting cfg t) : t.shuttingDown = [] := by
  rw [List.eq_nil_iff_forall_not_mem]
  intro e he
  simpa [next, remove, he] using h (.remove e) rfl

/-- Nobody holds a lock then, and the loop can only wait for results that are there. -/
theorem Waiting.phase (h : Waiting cfg t) (hs : Sound cfg t) : t.phase = .inputs := by
  have hdown := h.shuttingDown
  cases hphase : t.phase with
  | inputs => rfl
  | issuing start env p rest outs =>
      cases rest with
      | nil => simpa [next, dispatch, hphase] using h .dispatch rfl
      | cons e rest =>
          simpa [next, issueNext, hphase, hdown] using h .issueNext rfl
  | collecting b =>
      cases hqueue : t.executorOutputQueue with
      | cons y ys =>
          have hy : y.executor ∈ t.backgroundTasks.keys :=
            Dict.mem_of_get? (hs.held.queued y (by simp [hqueue])).2.task
          simpa [next, collect, hphase, hqueue, List.ne_nil_of_mem hy]
            using h .collect rfl
      | nil =>
          cases b with
          | false => simpa [next, endCollect, hphase, hqueue] using h .endCollect rfl
          | true =>
              have hback : t.backgroundTasks.keys = [] := by
                rw [List.eq_nil_iff_forall_not_mem]
                intro e he
                rcases hs.held.live e he with ⟨m, ⟨b, hx⟩ | ⟨res, hy⟩⟩ | hno
                · simp [h.tasks] at hx
                · simp [hqueue] at hy
                · simp [hphase, Phase.updating?] at hno
              simpa [next, endWait, hphase, hback] using h .endWait rfl
  | releasing e =>
      simpa [next, release, hphase, hdown] using h .release rfl
  | finishing e =>
      simpa [next, finishUpdate, hphase] using h .finishUpdate rfl

/-- From every reachable state, whatever the coroutines that are there do in whatever
order ends after at most as many steps as there is work, and when each of them has to wait
then the busy loop is back at its clients, no task is left, and every executor whose
shutdown was started is gone. -/
theorem returns_to_clients (cfg : Config κ) (hdefer : cfg.maxNumUnfinishedRequests = none)
    (h : Reachable cfg (fun _ _ => True) t) (events : List Event)
    (hown : ∀ ev ∈ events, ev.isOwn = true)
    (hrun : events.foldlM (next cfg) t = .ok t') :
    events.length ≤ t.work ∧
      (Waiting cfg t' → t'.phase = .inputs ∧ t'.tasks.keys = [] ∧ t'.shuttingDown = []) := by
  have hlen := ensures_of_ok (ensures_work_foldlM events hown t) hrun
  refine ⟨by omega, fun hwait => ?_⟩
  have hreach : Reachable cfg (fun _ _ => True) t' :=
    ensures_of_ok (Transition.ensures_reachable (fun t ev t' hn => ⟨trivial, hn⟩) events h) hrun
  have hsound := sound_of_reachable hreach fun t ev ht _ => ht.noFlush hdefer ev
  refine ⟨hwait.phase hsound, ?_, hwait.shuttingDown⟩
  rw [List.eq_nil_iff_forall_not_mem]
  exact fun n => (Dict.get?_eq_none_iff _ n).mp (hwait.tasks n)

/-- One message is on its way, and another executor is going to be killed: after eight steps
no work is left. -/
theorem returns_to_clients_small : ∃ t t' : Loop Unit,
    Reachable (Config.small true true none) (fun _ _ => True) t ∧ 8 ≤ t.work ∧ t'.work = 0 := by
  obtain ⟨t, hreach, hends⟩ := exists_of_ensures
    (reachable_of_replay (Config.small true true none) Transition.allows_any [(0, [0]), (1, [1])]
      [.addRequest (Request.small "a"), .beginSchedule .still, .announceKill 1, .issueNext,
        .issueNext, .dispatch])
    (Q := fun t =>
      ([.setKilling 1, .remove 1, .startExecution 0,
        .finishExecution 0 ⟨Dict.empty.set "a" 0, [[(1, 7)]]⟩, .collect, .release, .finishUpdate,
        .endCollect].foldlM (next (Config.small true true none)) t).Ensures (fun _ => False)
          fun t' => t'.work = 0) (by decide +kernel)
  obtain ⟨t', hrun, hwork⟩ := hends.exists_ok
  exact ⟨t, t', hreach, (returns_to_clients _ rfl hreach _ (by decide) hrun).1, hwork⟩

end Loop

end TeDiServe

import TeDiServe.Engine.Loop
import TeDiServe.Placement.Run

/-!
# The books of the engine loop

An executor is working while a task or an unprocessed result of it exists. The
books are right when the status of every working executor says where its message
is, and `background_tasks` and `scheduler_outputs` name exactly that message. Then
no executor has two messages, and nothing but the holder of a message changes the
status of its executor.

Every change of a status is one of the arrows of a life cycle, from the launch of an
executor to its removal.
-/

namespace TeDiServe

/-- The life cycle of an executor; `none` is an executor that does not exist. -/
inductive ExecutorStatus.Arrow : Option ExecutorStatus → Option ExecutorStatus → Prop
  | launch : Arrow none (some .idle)
  | consider : Arrow (some .idle) (some .consideredForScheduling)
  | considerNotAccepting :
      Arrow (some .idleNotAcceptingNewRequests) (some .consideredForScheduling)
  | giveBack : Arrow (some .consideredForScheduling) (some .idle)
  | schedule : Arrow (some .consideredForScheduling) (some .scheduled)
  | execute : Arrow (some .scheduled) (some .executing)
  | finish : Arrow (some .executing) (some .outputReady)
  | release : Arrow (some .outputReady) (some .idle)
  | releaseNotAccepting : Arrow (some .outputReady) (some .idleNotAcceptingNewRequests)
  | kill : Arrow (some .idle) (some .killing)
  | remove : Arrow (some .killing) none

def ExecuteTask.status (x : ExecuteTask) : ExecutorStatus :=
  if x.isExecuting then .executing else .scheduled

namespace Loop

open Scheduler

variable {κ : Type} {cfg : Config κ} {t t' : Loop κ} {e : ExecutorId} {n : ℕ}
  {u : Option ExecutorId}

/-! ## Working executors -/

/-- The message is with a task of `e`, or its result is in the queue. -/
def InFlight (t : Loop κ) (e : ExecutorId) (m : Message) : Prop :=
  (∃ b, t.tasks.get? m.number = some ⟨e, m.content, b⟩) ∨
    ∃ res, ⟨e, res, m⟩ ∈ t.executorOutputQueue

def Working (t : Loop κ) (e : ExecutorId) : Prop := ∃ m, t.InFlight e m

structure Booked (t : Loop κ) (e : ExecutorId) (m : Message) : Prop where
  task : t.backgroundTasks.get? e = some m.number
  message : t.schedulerOutputs.get? e = some (some m)
  number : m.number < t.numMessages

/-- Nothing was entered in the books. -/
structure SameBooks (t t' : Loop κ) : Prop where
  background : t'.backgroundTasks = t.backgroundTasks
  outputs : t'.schedulerOutputs = t.schedulerOutputs
  number : t'.numMessages = t.numMessages

theorem SameBooks.booked (h : SameBooks t t') {m : Message} (hm : t.Booked e m) :
    t'.Booked e m := by
  refine ⟨?_, ?_, ?_⟩
  · rw [h.background]
    exact hm.task
  · rw [h.outputs]
    exact hm.message
  · rw [h.number]
    exact hm.number

/-- The books agree with the tasks and the queue. The executor `u` is the one whose
result is being processed. -/
structure Held (t : Loop κ) (u : Option ExecutorId) : Prop where
  task : ∀ n x, t.tasks.get? n = some x →
    t.status? x.executor = some x.status ∧ t.Booked x.executor ⟨n, x.content⟩
  queued : ∀ y ∈ t.executorOutputQueue,
    t.status? y.executor = some .outputReady ∧ t.Booked y.executor y.message
  nodup : (t.executorOutputQueue.map QueuedOutput.executor).Nodup
  live : ∀ e, e ∈ t.backgroundTasks → t.Working e ∨ u = some e

theorem working_of_task {x : ExecuteTask} (h : t.tasks.get? n = some x) :
    t.Working x.executor :=
  ⟨⟨n, x.content⟩, Or.inl ⟨x.isExecuting, h⟩⟩

theorem working_of_queued {y : QueuedOutput} (h : y ∈ t.executorOutputQueue) :
    t.Working y.executor :=
  ⟨y.message, Or.inr ⟨y.output, h⟩⟩

section

variable (h : Held t u)
include h

theorem Held.booked {m : Message} (hm : t.InFlight e m) : t.Booked e m := by
  rcases hm with ⟨b, hx⟩ | ⟨res, hy⟩
  · exact (h.task _ _ hx).2
  · exact (h.queued _ hy).2

theorem Held.status_of_working (hw : t.Working e) :
    t.status? e = some .scheduled ∨ t.status? e = some .executing ∨
      t.status? e = some .outputReady := by
  obtain ⟨m, ⟨b, hx⟩ | ⟨res, hy⟩⟩ := hw
  · have hst := (h.task _ _ hx).1
    cases b with
    | true => exact Or.inr (Or.inl hst)
    | false => exact Or.inl hst
  · exact Or.inr (Or.inr (h.queued _ hy).1)

theorem Held.not_working (h₁ : t.status? e ≠ some .scheduled) (h₂ : t.status? e ≠ some .executing)
    (h₃ : t.status? e ≠ some .outputReady) : ¬t.Working e := by
  intro hw
  rcases h.status_of_working hw with hst | hst | hst
  · exact h₁ hst
  · exact h₂ hst
  · exact h₃ hst

theorem Held.not_working_of_status {st : ExecutorStatus} (hst : t.status? e = some st)
    (hno : st = .idle ∨ st = .idleNotAcceptingNewRequests ∨ st = .consideredForScheduling ∨
      st = .killing) : ¬t.Working e := by
  apply h.not_working
  · rw [hst]
    rcases hno with rfl | rfl | rfl | rfl <;> simp
  · rw [hst]
    rcases hno with rfl | rfl | rfl | rfl <;> simp
  · rw [hst]
    rcases hno with rfl | rfl | rfl | rfl <;> simp

/-- The books do not depend on the executors that are not working. -/
theorem Held.of_status (htasks : t'.tasks = t.tasks)
    (hqueue : t'.executorOutputQueue = t.executorOutputQueue) (hbooks : SameBooks t t')
    (hst : ∀ e, t.Working e → t'.status? e = t.status? e) : Held t' u := by
  refine ⟨?_, ?_, by rw [hqueue]; exact h.nodup, ?_⟩
  · intro n x hx
    rw [htasks] at hx
    rw [hst _ (working_of_task hx)]
    exact ⟨(h.task n x hx).1, hbooks.booked (h.task n x hx).2⟩
  · intro y hy
    rw [hqueue] at hy
    rw [hst _ (working_of_queued hy)]
    exact ⟨(h.queued y hy).1, hbooks.booked (h.queued y hy).2⟩
  · intro e he
    rw [hbooks.background] at he
    unfold Working InFlight
    rw [htasks, hqueue]
    exact h.live e he

theorem Held.task_unique {n' : ℕ} {x x' : ExecuteTask} (hx : t.tasks.get? n = some x)
    (hx' : t.tasks.get? n' = some x') (he : x.executor = x'.executor) : n = n' := by
  have hb := (h.task n x hx).2.task
  rw [he, (h.task n' x' hx').2.task] at hb
  exact (Option.some.inj hb).symm

theorem Held.executor_ne {x : ExecuteTask} {y : QueuedOutput} (hx : t.tasks.get? n = some x)
    (hy : y ∈ t.executorOutputQueue) : x.executor ≠ y.executor := by
  intro he
  have hst := (h.task n x hx).1
  rw [he, (h.queued y hy).1] at hst
  unfold ExecuteTask.status at hst
  cases hb : x.isExecuting <;> simp [hb] at hst

end

/-! ## What the events do to the books -/

theorem inFlight_dispatchTo (x : ExecutorId × SchedulerOutput) {m : Message}
    (hm : m.number ≠ t.numMessages) : (t.dispatchTo x).InFlight e m ↔ t.InFlight e m := by
  unfold InFlight
  simp only [Loop.dispatchTo, Dict.get?_set, if_neg hm]

theorem Held.dispatchTo (h : Held t none) {x : ExecutorId × SchedulerOutput}
    (hst : t.status? x.1 = some .scheduled) (hnot : ¬t.Working x.1) :
    Held (t.dispatchTo x) none := by
  have hbook : ∀ {e m}, e ≠ x.1 → t.Booked e m → (t.dispatchTo x).Booked e m := by
    intro e m hne hb
    refine ⟨?_, ?_, Nat.lt_succ_of_lt hb.number⟩
    · simp only [Loop.dispatchTo, Dict.get?_set, if_neg hne]
      exact hb.task
    · simp only [Loop.dispatchTo, Dict.get?_set, if_neg hne]
      exact hb.message
  have hne : ∀ {e}, t.Working e → e ≠ x.1 := fun hw heq => hnot (heq ▸ hw)
  refine ⟨?_, ?_, h.nodup, ?_⟩
  · intro n y hy
    simp only [Loop.dispatchTo, Dict.get?_set] at hy
    by_cases hn : n = t.numMessages
    · rw [if_pos hn, Option.some.injEq] at hy
      rw [← hy, hn]
      refine ⟨hst, ?_, ?_, Nat.lt_succ_self _⟩
      · simp [Loop.dispatchTo]
      · simp [Loop.dispatchTo]
    · rw [if_neg hn] at hy
      exact ⟨(h.task n y hy).1, hbook (hne (working_of_task hy)) (h.task n y hy).2⟩
  · intro y hy
    exact ⟨(h.queued y hy).1, hbook (hne (working_of_queued hy)) (h.queued y hy).2⟩
  · intro e he
    refine Or.inl ?_
    simp only [Loop.dispatchTo, Dict.mem_set] at he
    by_cases heq : e = x.1
    · refine ⟨⟨t.numMessages, x.2⟩, Or.inl ⟨false, ?_⟩⟩
      simp [Loop.dispatchTo, heq]
    · rcases h.live e (he.resolve_left heq) with ⟨m, hm⟩ | hno
      · exact ⟨m, (inFlight_dispatchTo x (h.booked hm).number.ne).mpr hm⟩
      · cases hno

section Task

variable {c : SchedulerOutput}

theorem inFlight_start (hx : t.tasks.get? n = some ⟨e, c, false⟩)
    (htasks : t'.tasks = t.tasks.set n ⟨e, c, true⟩)
    (hqueue : t'.executorOutputQueue = t.executorOutputQueue) (e' : ExecutorId) (m : Message) :
    t'.InFlight e' m ↔ t.InFlight e' m := by
  unfold InFlight
  rw [htasks, hqueue]
  apply or_congr_left
  rw [Dict.get?_set]
  by_cases hn : m.number = n
  · simp [hn, hx]
  · simp [hn]

theorem Held.start (h : Held t u) (hx : t.tasks.get? n = some ⟨e, c, false⟩)
    (hst : ∀ e', t'.status? e' = if e' = e then some .executing else t.status? e')
    (htasks : t'.tasks = t.tasks.set n ⟨e, c, true⟩)
    (hqueue : t'.executorOutputQueue = t.executorOutputQueue)
    (hbooks : SameBooks t t') : Held t' u := by
  refine ⟨?_, ?_, by rw [hqueue]; exact h.nodup, ?_⟩
  · intro n' y hy
    rw [htasks, Dict.get?_set] at hy
    by_cases hn : n' = n
    · rw [if_pos hn, Option.some.injEq] at hy
      rw [← hy, hn, hst, if_pos rfl]
      exact ⟨rfl, hbooks.booked (h.task n _ hx).2⟩
    · rw [if_neg hn] at hy
      have hne : y.executor ≠ e := fun heq => hn (h.task_unique hy hx heq)
      rw [hst, if_neg hne]
      exact ⟨(h.task n' y hy).1, hbooks.booked (h.task n' y hy).2⟩
  · intro y hy
    rw [hqueue] at hy
    have hne : y.executor ≠ e := fun heq => h.executor_ne hx hy heq.symm
    rw [hst, if_neg hne]
    exact ⟨(h.queued y hy).1, hbooks.booked (h.queued y hy).2⟩
  · intro e' he'
    rw [hbooks.background] at he'
    unfold Working
    simp only [inFlight_start hx htasks hqueue]
    exact h.live e' he'

theorem inFlight_finish {res : ModelRunnerOutput} (hx : t.tasks.get? n = some ⟨e, c, true⟩)
    (htasks : t'.tasks = t.tasks.erase n)
    (hqueue : t'.executorOutputQueue = t.executorOutputQueue ++ [⟨e, res, ⟨n, c⟩⟩])
    (e' : ExecutorId) (m : Message) : t'.InFlight e' m ↔ t.InFlight e' m := by
  unfold InFlight
  rw [htasks, hqueue, Dict.get?_erase]
  constructor
  · rintro (⟨b, hb⟩ | ⟨res', hy⟩)
    · split_ifs at hb
      exact Or.inl ⟨b, hb⟩
    · rcases List.mem_append.mp hy with hy | hy
      · exact Or.inr ⟨res', hy⟩
      · cases List.mem_singleton.mp hy
        exact Or.inl ⟨true, hx⟩
  · rintro (⟨b, hb⟩ | ⟨res', hy⟩)
    · by_cases hn : m.number = n
      · rw [hn, hx] at hb
        cases hb
        refine Or.inr ⟨res, List.mem_append_right _ (List.mem_singleton.mpr ?_)⟩
        rw [← hn]
      · rw [if_neg hn]
        exact Or.inl ⟨b, hb⟩
    · exact Or.inr ⟨res', List.mem_append_left _ hy⟩

theorem Held.finish {res : ModelRunnerOutput} (h : Held t u)
    (hx : t.tasks.get? n = some ⟨e, c, true⟩)
    (hst : ∀ e', t'.status? e' = if e' = e then some .outputReady else t.status? e')
    (htasks : t'.tasks = t.tasks.erase n)
    (hqueue : t'.executorOutputQueue = t.executorOutputQueue ++ [⟨e, res, ⟨n, c⟩⟩])
    (hbooks : SameBooks t t') : Held t' u := by
  refine ⟨?_, ?_, ?_, ?_⟩
  · intro n' y hy
    rw [htasks, Dict.get?_erase] at hy
    split_ifs at hy with hn
    have hne : y.executor ≠ e := fun heq => hn (h.task_unique hy hx heq)
    rw [hst, if_neg hne]
    exact ⟨(h.task n' y hy).1, hbooks.booked (h.task n' y hy).2⟩
  · intro y hy
    rw [hqueue] at hy
    rcases List.mem_append.mp hy with hy | hy
    · have hne : y.executor ≠ e := fun heq => h.executor_ne hx hy heq.symm
      rw [hst, if_neg hne]
      exact ⟨(h.queued y hy).1, hbooks.booked (h.queued y hy).2⟩
    · rw [List.mem_singleton.mp hy, hst, if_pos rfl]
      exact ⟨rfl, hbooks.booked (h.task n _ hx).2⟩
  · rw [hqueue, List.map_append]
    apply h.nodup.append (List.nodup_singleton _)
    intro e' he' hmem
    obtain ⟨y, hy, rfl⟩ := List.mem_map.mp he'
    exact h.executor_ne hx hy (List.mem_singleton.mp hmem).symm
  · intro e' he'
    rw [hbooks.background] at he'
    unfold Working
    simp only [inFlight_finish hx htasks hqueue]
    exact h.live e' he'

end Task

theorem Held.collect (h : Held t none) {y : QueuedOutput} {ys : List QueuedOutput}
    (hq : t.executorOutputQueue = y :: ys) (htasks : t'.tasks = t.tasks)
    (hqueue : t'.executorOutputQueue = ys) (hbooks : SameBooks t t')
    (hst : ∀ e, t'.status? e = t.status? e) :
    Held t' (some y.executor) ∧ ¬t'.Working y.executor := by
  have hy : y ∈ t.executorOutputQueue := by
    rw [hq]
    exact List.mem_cons_self
  have hmem : ∀ {y'}, y' ∈ ys → y' ∈ t.executorOutputQueue := by
    intro y' hy'
    rw [hq]
    exact List.mem_cons_of_mem y hy'
  have hnodup := h.nodup
  rw [hq, List.map_cons, List.nodup_cons] at hnodup
  refine ⟨⟨?_, ?_, by rw [hqueue]; exact hnodup.2, ?_⟩, ?_⟩
  · intro n x hx
    rw [htasks] at hx
    rw [hst]
    exact ⟨(h.task n x hx).1, hbooks.booked (h.task n x hx).2⟩
  · intro y' hy'
    rw [hqueue] at hy'
    rw [hst]
    exact ⟨(h.queued y' (hmem hy')).1, hbooks.booked (h.queued y' (hmem hy')).2⟩
  · intro e he
    rw [hbooks.background] at he
    rcases h.live e he with ⟨m, ⟨b, hx⟩ | ⟨res, hy'⟩⟩ | hno
    · refine Or.inl ⟨m, Or.inl ⟨b, ?_⟩⟩
      rw [htasks]
      exact hx
    · rw [hq] at hy'
      rcases List.mem_cons.mp hy' with rfl | hy'
      · exact Or.inr rfl
      · refine Or.inl ⟨m, Or.inr ⟨res, ?_⟩⟩
        rw [hqueue]
        exact hy'
    · cases hno
  · rintro ⟨m, ⟨b, hx⟩ | ⟨res, hy'⟩⟩
    · rw [htasks] at hx
      exact h.executor_ne hx hy rfl
    · rw [hqueue] at hy'
      exact hnodup.1 (List.mem_map.mpr ⟨_, hy', rfl⟩)

/-- The message whose result was processed is struck out. -/
theorem Held.strike (h : Held t (some e)) (hnot : ¬t.Working e) (htasks : t'.tasks = t.tasks)
    (hqueue : t'.executorOutputQueue = t.executorOutputQueue)
    (hback : t'.backgroundTasks = t.backgroundTasks.erase e)
    (houts : t'.schedulerOutputs = t.schedulerOutputs.set e none)
    (hnum : t'.numMessages = t.numMessages) (hst : ∀ e, t'.status? e = t.status? e) :
    Held t' none := by
  have hbook : ∀ {e' m}, t.Working e' → t.Booked e' m → t'.Booked e' m := by
    intro e' m hw hb
    have hne : e' ≠ e := fun heq => hnot (heq ▸ hw)
    refine ⟨?_, ?_, by rw [hnum]; exact hb.number⟩
    · rw [hback, Dict.get?_erase, if_neg hne]
      exact hb.task
    · rw [houts, Dict.get?_set, if_neg hne]
      exact hb.message
  refine ⟨?_, ?_, by rw [hqueue]; exact h.nodup, ?_⟩
  · intro n x hx
    rw [htasks] at hx
    rw [hst]
    exact ⟨(h.task n x hx).1, hbook (working_of_task hx) (h.task n x hx).2⟩
  · intro y hy
    rw [hqueue] at hy
    rw [hst]
    exact ⟨(h.queued y hy).1, hbook (working_of_queued hy) (h.queued y hy).2⟩
  · intro e' he'
    rw [hback, Dict.mem_erase] at he'
    refine Or.inl ?_
    unfold Working InFlight
    rw [htasks, hqueue]
    exact (h.live e' he'.2).resolve_right fun heq => he'.1 (Option.some.inj heq).symm

end Loop

end TeDiServe

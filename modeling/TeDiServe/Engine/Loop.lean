import TeDiServe.Engine.Calls

/-!
# The engine loop and the coroutines around it

The busy loop handles the clients, calls `schedule()`, creates one `execute_model`
task for every message, and applies the results that the tasks put in a queue. The
tasks run on their own, and so do the coroutines that launch and kill executors. A
coroutine runs alone until it awaits; `Phase` has the places where the busy loop
may await, and an event is what one coroutine does from one await to the next.

The lock `cond[e]` is held across an await only by a `kill_executor` that shuts the
executor down; a `kill_executor` that waits for the executor to become idle has
given it up.

Messages are compared by identity, so each is given a number when its task is
created. The numbers, the messages kept in the queue next to the results, and the
number of messages at the time a request was added are not in the program.
-/

namespace TeDiServe

structure Message where
  number : ℕ
  content : SchedulerOutput

/-- An `execute_model` coroutine whose result is not there yet. -/
structure ExecuteTask where
  executor : ExecutorId
  content : SchedulerOutput
  isExecuting : Bool

/-- An entry of `executor_output_queue`, with the message it was computed from. -/
structure QueuedOutput where
  executor : ExecutorId
  output : ModelRunnerOutput
  message : Message

/-- Where the busy loop stands. Stage 6 of `schedule()` is in progress for the
executors `rest`, for a call that found the manager as `start`. -/
inductive Phase (κ : Type) where
  | inputs
  | issuing (start : ExecutorsManager) (env : ScheduleEnv) (plan : Scheduler.Plan κ)
      (rest : List ExecutorId) (outs : Dict ExecutorId SchedulerOutput)
  | collecting (isWaiting : Bool)
  | releasing (e : ExecutorId)
  | finishing (e : ExecutorId)

structure Loop (κ : Type) where
  scheduler : Scheduler κ
  phase : Phase κ
  schedulerOutputs : Dict ExecutorId (Option Message)
  backgroundTasks : Dict ExecutorId ℕ
  tasks : Dict ℕ ExecuteTask
  executorOutputQueue : List QueuedOutput
  waitingKillers : List ExecutorId
  shuttingDown : List ExecutorId
  numMessages : ℕ
  addedAt : Dict ReqId ℕ

inductive Event where
  | addRequest (req : Request)
  | abortRequests (ids : List ReqId) (clock : ReqId → ℚ)
  | beginSchedule (env : ScheduleEnv)
  | skipSchedule
  | issueNext
  | dispatch
  | endWait
  | collect
  | release
  | finishUpdate
  | endCollect
  | startExecution (n : ℕ)
  | finishExecution (n : ℕ) (res : ModelRunnerOutput)
  | announceKill (e : ExecutorId)
  | setKilling (e : ExecutorId)
  | remove (e : ExecutorId)
  | launch (e : ExecutorId) (bundleIds : List ℕ)
  | refreshEstimates (predict : ReqId → ℚ → ℚ)
  | controlLoad (idx : Dict ReqId ℕ) (minIdx : ℕ)

/-- Why an event does not happen: the coroutine is not there or has to wait, or it
raises. -/
inductive Halt where
  | blocked
  | raised (err : PyError)
  deriving DecidableEq, Repr

def raising {α : Type} (x : Except PyError α) : Except Halt α :=
  x.mapError .raised

namespace Loop

variable {κ : Type}

def withManager (t : Loop κ) (m : ExecutorsManager) : Loop κ :=
  { t with scheduler := { t.scheduler with executorsManager := m } }

def status? (t : Loop κ) (e : ExecutorId) : Option ExecutorStatus :=
  t.scheduler.executorsManager.status? e

/-! ## The clients -/

/-- The front end sends no request whose id is still in use. -/
def addRequest (cfg : Config κ) (t : Loop κ) (req : Request) : Except Halt (Loop κ) :=
  match t.phase with
  | .inputs =>
      if req.requestId ∈ t.scheduler.requests then throw .blocked
      else do
        let s ← raising (t.scheduler.addRequest cfg req)
        pure { t with scheduler := s, addedAt := t.addedAt.set req.requestId t.numMessages }
  | _ => throw .blocked

def abortRequests (cfg : Config κ) (t : Loop κ) (ids : List ReqId) (clock : ReqId → ℚ) :
    Except Halt (Loop κ) :=
  match t.phase with
  | .inputs => do
      let s ← raising (t.scheduler.finishRequests cfg (.many ids) .finishedAborted clock)
      pure { t with scheduler := s }
  | _ => throw .blocked

/-! ## `_process_engine_step` -/

/-- `schedule()` up to its first await. -/
def beginSchedule (cfg : Config κ) (t : Loop κ) (env : ScheduleEnv) : Except Halt (Loop κ) :=
  match t.phase with
  | .inputs => do
      let p ← raising (t.scheduler.prepare cfg env)
      pure
        { t with
          scheduler := p.scheduler
          phase := .issuing t.scheduler.executorsManager env p p.found Dict.empty }
  | _ => throw .blocked

def skipSchedule (t : Loop κ) : Except Halt (Loop κ) :=
  match t.phase with
  | .inputs => .ok { t with phase := .collecting true }
  | _ => throw .blocked

/-- Stage 6 for the next executor. An executor is given back under its lock. -/
def issueNext (cfg : Config κ) (t : Loop κ) : Except Halt (Loop κ) :=
  match t.phase with
  | .issuing start env p (e :: rest) outs =>
      if e ∈ t.shuttingDown ∧ e ∉ p.tables.numScheduledTokens ∧
          (t.scheduler.freeReqIds.getD e OrderedSet.empty).isEmpty then throw .blocked
      else do
        let x ← raising (Scheduler.issue cfg env p.idleNotAcceptingExecutors p.tables
          (t.scheduler, outs) e)
        pure { t with scheduler := x.1, phase := .issuing start env p rest x.2 }
  | _ => throw .blocked

def dispatchTo (t : Loop κ) (x : ExecutorId × SchedulerOutput) : Loop κ :=
  { t with
    schedulerOutputs := t.schedulerOutputs.set x.1 (some ⟨t.numMessages, x.2⟩)
    backgroundTasks := t.backgroundTasks.set x.1 t.numMessages
    tasks := t.tasks.set t.numMessages ⟨x.1, x.2, false⟩
    numMessages := t.numMessages + 1 }

def dispatch (t : Loop κ) : Except Halt (Loop κ) :=
  match t.phase with
  | .issuing _ _ p [] outs =>
      .ok
        { (t.scheduler.flush p.found outs).entries.foldl dispatchTo t with
          phase := .collecting true }
  | _ => throw .blocked

/-- `schedule()` is about to return the message that reports dropped requests. -/
def flushDue (t : Loop κ) : Bool :=
  match t.phase with
  | .issuing _ _ p [] outs =>
      p.found ≠ [] ∧ outs.keys = [] ∧ t.scheduler.droppedDeferredRequests ≠ []
  | _ => false

/-! ## `_process_executor_output_queue` -/

/-- Without background tasks nothing is waited for. -/
def endWait (t : Loop κ) : Except Halt (Loop κ) :=
  match t.phase with
  | .collecting true =>
      if t.backgroundTasks.keys = [] then .ok { t with phase := .collecting false }
      else throw .blocked
  | _ => throw .blocked

/-- `scheduler_outputs[e]`, which has to be a message. -/
def schedulerOutput (t : Loop κ) (e : ExecutorId) : Except PyError Message := do
  let m ← subscript t.schedulerOutputs .schedulerOutputs e
  match m with
  | some m => pure m
  | none => throw .attribute

/-- Take a result from the queue and apply it, up to the await for the lock. -/
def collect (cfg : Config κ) (t : Loop κ) : Except Halt (Loop κ) :=
  match t.phase, t.executorOutputQueue with
  | .collecting isWaiting, y :: ys =>
      if isWaiting ∧ t.backgroundTasks.keys = [] then throw .blocked
      else do
        let m ← raising (t.schedulerOutput y.executor)
        let x ← raising (t.scheduler.applyOutput cfg m.content y.output)
        pure
          { t with
            scheduler := x.1
            phase := .releasing y.executor
            executorOutputQueue := ys }
  | _, _ => throw .blocked

/-- The end of `update_from_output`, under the lock of the executor. -/
def release (cfg : Config κ) (t : Loop κ) : Except Halt (Loop κ) :=
  match t.phase with
  | .releasing e =>
      if e ∈ t.shuttingDown then throw .blocked
      else do
        let s ← raising (t.scheduler.releaseExecutor cfg e)
        pure { t with scheduler := s, phase := .finishing e }
  | _ => throw .blocked

def finishUpdate (t : Loop κ) : Except Halt (Loop κ) :=
  match t.phase with
  | .finishing e => do
      let _ ← raising (subscript t.backgroundTasks .backgroundTasks e)
      pure
        { t with
          phase := .collecting false
          schedulerOutputs := t.schedulerOutputs.set e none
          backgroundTasks := t.backgroundTasks.erase e }
  | _ => throw .blocked

def endCollect (t : Loop κ) : Except Halt (Loop κ) :=
  match t.phase, t.executorOutputQueue with
  | .collecting false, [] => .ok { t with phase := .inputs }
  | _, _ => throw .blocked

/-! ## `execute_model` -/

def startExecution (t : Loop κ) (n : ℕ) : Except Halt (Loop κ) :=
  match t.tasks.get? n with
  | some ⟨e, c, false⟩ => do
      let m ← raising (t.scheduler.executorsManager.setStatus e .executing)
      pure { t.withManager m with tasks := t.tasks.set n ⟨e, c, true⟩ }
  | _ => throw .blocked

def finishExecution (t : Loop κ) (n : ℕ) (res : ModelRunnerOutput) : Except Halt (Loop κ) :=
  match t.tasks.get? n with
  | some ⟨e, c, true⟩ => do
      let m ← raising (t.scheduler.executorsManager.setStatus e .outputReady)
      pure
        { t.withManager m with
          tasks := t.tasks.erase n
          executorOutputQueue := t.executorOutputQueue ++ [⟨e, res, ⟨n, c⟩⟩] }
  | _ => throw .blocked

/-! ## `kill_executor` and `launch_executor` -/

def announceKill (t : Loop κ) (e : ExecutorId) : Except Halt (Loop κ) := do
  let m ← raising (t.scheduler.executorsManager.announceKill e)
  pure { t.withManager m with waitingKillers := e :: t.waitingKillers }

/-- A waiting `kill_executor` gets the lock and finds the executor idle. -/
def setKilling (t : Loop κ) (e : ExecutorId) : Except Halt (Loop κ) :=
  if e ∈ t.waitingKillers ∧ e ∉ t.shuttingDown ∧ t.status? e = some .idle then do
    let m ← raising (t.scheduler.executorsManager.setStatus e .killing)
    pure
      { t.withManager m with
        waitingKillers := t.waitingKillers.erase e
        shuttingDown := e :: t.shuttingDown }
  else throw .blocked

def remove (t : Loop κ) (e : ExecutorId) : Except Halt (Loop κ) :=
  if e ∈ t.shuttingDown then
    .ok
      { t.withManager (t.scheduler.executorsManager.deleteExecutor e) with
        shuttingDown := t.shuttingDown.erase e }
  else throw .blocked

def launch (t : Loop κ) (e : ExecutorId) (bundleIds : List ℕ) : Except Halt (Loop κ) := do
  let m ← raising (t.scheduler.executorsManager.launchExecutor e bundleIds)
  pure (t.withManager m)

/-! ## The threads

The refresh of the step estimates and load control run between two calls of the
scheduler. -/

def refreshEstimates (cfg : Config κ) (t : Loop κ) (predict : ReqId → ℚ → ℚ) :
    Except Halt (Loop κ) :=
  match t.phase with
  | .inputs => .ok { t with scheduler := t.scheduler.processStepEstimateUpdates cfg predict }
  | _ => throw .blocked

def controlLoad (cfg : Config κ) (t : Loop κ) (idx : Dict ReqId ℕ) (minIdx : ℕ) :
    Except Halt (Loop κ) :=
  match t.phase with
  | .inputs =>
      if (∀ x ∈ idx.entries, x.2 < cfg.candidateConfidenceThresholds.length) ∧
          minIdx < cfg.candidateConfidenceThresholds.length then
        .ok { t with scheduler := t.scheduler.controlLoad idx.get? minIdx }
      else throw .blocked
  | _ => throw .blocked

/-! ## Runs -/

def next (cfg : Config κ) (t : Loop κ) : Event → Except Halt (Loop κ)
  | .addRequest req => t.addRequest cfg req
  | .abortRequests ids clock => t.abortRequests cfg ids clock
  | .beginSchedule env => t.beginSchedule cfg env
  | .skipSchedule => t.skipSchedule
  | .issueNext => t.issueNext cfg
  | .dispatch => t.dispatch
  | .endWait => t.endWait
  | .collect => t.collect cfg
  | .release => t.release cfg
  | .finishUpdate => t.finishUpdate
  | .endCollect => t.endCollect
  | .startExecution n => t.startExecution n
  | .finishExecution n res => t.finishExecution n res
  | .announceKill e => t.announceKill e
  | .setKilling e => t.setKilling e
  | .remove e => t.remove e
  | .launch e bundleIds => t.launch e bundleIds
  | .refreshEstimates predict => t.refreshEstimates cfg predict
  | .controlLoad idx minIdx => t.controlLoad cfg idx minIdx

def start (s : Scheduler κ) : Loop κ :=
  ⟨s, .inputs, Dict.empty, Dict.empty, Dict.empty, [], [], [], 0, Dict.empty⟩

def Init (cfg : Config κ) (t : Loop κ) : Prop :=
  ∃ (launches : List (ExecutorId × List ℕ)) (m : ExecutorsManager) (s : Scheduler κ),
    launches.foldlM (fun m x => m.launchExecutor x.1 x.2) ExecutorsManager.empty = .ok m ∧
    (Scheduler.empty m).updateExecutors cfg = .ok s ∧ t = start s

def Step (cfg : Config κ) (allowed : Loop κ → Event → Prop) (t : Loop κ) (ev : Event)
    (t' : Loop κ) : Prop :=
  allowed t ev ∧ t.next cfg ev = .ok t'

abbrev Reachable (cfg : Config κ) (allowed : Loop κ → Event → Prop) : Loop κ → Prop :=
  Transition.Reachable (Init cfg) (Step cfg allowed)

def noFlush (t : Loop κ) : Event → Bool
  | .dispatch => !t.flushDue
  | _ => true

def replay (cfg : Config κ) (test : Loop κ → Event → Bool)
    (launches : List (ExecutorId × List ℕ)) (events : List Event) : Except Halt (Loop κ) := do
  let m ← raising (launches.foldlM (fun m x => m.launchExecutor x.1 x.2) ExecutorsManager.empty)
  let s ← raising ((Scheduler.empty m).updateExecutors cfg)
  events.foldlM (fun t ev => if test t ev then t.next cfg ev else throw .blocked) (start s)

theorem ensures_raising {α : Type} (x : Except PyError α) (E : Halt → Prop) (Q : α → Prop) :
    (raising x).Ensures E Q ↔ x.Ensures (fun err => E (.raised err)) Q := by
  cases x <;> rfl

theorem raising_eq_ok {α : Type} {x : Except PyError α} {a : α} :
    raising x = .ok a ↔ x = .ok a := by
  cases x <;> simp [raising, Except.mapError]

theorem reachable_of_replay (cfg : Config κ) {test : Loop κ → Event → Bool}
    {allowed : Loop κ → Event → Prop} (htest : ∀ t ev, test t ev = true → allowed t ev)
    (launches : List (ExecutorId × List ℕ)) (events : List Event) :
    (replay cfg test launches events).Ensures (fun _ => True) (Reachable cfg allowed) := by
  refine ensures_bind_ok _ fun m hm => ensures_bind_ok _ fun s hs =>
    Transition.ensures_reachable (fun t ev t' hn => ?_) events
      (.start ⟨launches, m, s, raising_eq_ok.mp hm, raising_eq_ok.mp hs, rfl⟩)
  split_ifs at hn with hok
  exact ⟨htest t ev hok, hn⟩

end Loop

end TeDiServe

import TeDiServe.Library.Transition
import TeDiServe.Scheduler.Output

/-!
# Runs made of calls

The scheduler as its surroundings see it: its methods are called one at a time, in
any order, while executors run the messages that were sent to them, and executors
come and go. `Calls` is the scheduler together with the messages in flight, `Call`
is everything that may happen, and `next` is what it does.

A call that raises ends the run. A request is added only when the scheduler knows
no request with its id; whether an id may be used again later is a condition on
runs that is stated where it matters.
-/

namespace TeDiServe

/-- A message that was sent, with the result of the executor once it is there. -/
structure Flight where
  message : SchedulerOutput
  result : Option ModelRunnerOutput

structure Calls (κ : Type) where
  scheduler : Scheduler κ
  inFlight : Dict ExecutorId Flight
  usedReqIds : List ReqId

inductive Call where
  | addRequest (req : Request)
  | schedule (env : ScheduleEnv)
  | startExecution (e : ExecutorId)
  | finishExecution (e : ExecutorId) (res : ModelRunnerOutput)
  | updateFromOutput (e : ExecutorId)
  | finishRequests (arg : Scheduler.RequestIds) (status : RequestStatus)
      (clock : ReqId → ℚ)
  | launch (e : ExecutorId) (bundleIds : List ℕ)
  | announceKill (e : ExecutorId)
  | setKilling (e : ExecutorId)
  | remove (e : ExecutorId)
  | refreshEstimates (predict : ReqId → ℚ → ℚ)
  | controlLoad (idx : ReqId → Option ℕ) (minIdx : ℕ)

namespace Scheduler

variable {κ : Type}

/-- What load control writes: new indices for some of the records, and one for the
requests to come. How it computes them is left open. -/
def controlLoad (s : Scheduler κ) (idx : ReqId → Option ℕ) (minIdx : ℕ) : Scheduler κ :=
  let write := fun r (rs : RequestState) =>
    { rs with maxConfidenceThresholdIdx := (idx r).getD rs.maxConfidenceThresholdIdx }
  { s with
    requestStates := s.requestStates.mapEntries write
    deferredRequestStates := s.deferredRequestStates.mapEntries write
    minMaxConfidenceThresholdIdx := minIdx }

end Scheduler

namespace Calls

variable {κ : Type}

/-- When something may happen. A call of the scheduler may happen at any time. -/
def Possible (cfg : Config κ) (t : Calls κ) : Call → Prop
  | .addRequest req => req.requestId ∉ t.scheduler.requests
  | .schedule _ => True
  | .startExecution e =>
      (∃ msg, t.inFlight.get? e = some ⟨msg, none⟩) ∧
        t.scheduler.executorsManager.status? e = some .scheduled
  | .finishExecution e _ => ∃ msg, t.inFlight.get? e = some ⟨msg, none⟩
  | .updateFromOutput e => ∃ msg res, t.inFlight.get? e = some ⟨msg, some res⟩
  | .finishRequests _ _ _ => True
  | .launch _ _ => True
  | .announceKill _ => True
  | .setKilling e => t.scheduler.executorsManager.status? e = some .idle
  | .remove e => t.scheduler.executorsManager.status? e = some .idle ∨
      t.scheduler.executorsManager.status? e = some .killing
  | .refreshEstimates _ => True
  | .controlLoad idx minIdx =>
      (∀ r i, idx r = some i → i < cfg.candidateConfidenceThresholds.length) ∧
        minIdx < cfg.candidateConfidenceThresholds.length

def withManager (t : Calls κ) (m : ExecutorsManager) : Calls κ :=
  { t with scheduler := { t.scheduler with executorsManager := m } }

def next (cfg : Config κ) (t : Calls κ) : Call → Except PyError (Calls κ)
  | .addRequest req => do
      let s ← t.scheduler.addRequest cfg req
      pure { t with scheduler := s, usedReqIds := req.requestId :: t.usedReqIds }
  | .schedule env => do
      let x ← t.scheduler.schedule cfg env
      pure
        { t with
          scheduler := x.1
          inFlight := x.2.entries.foldl (fun d y => d.set y.1 ⟨y.2, none⟩) t.inFlight }
  | .startExecution e => do
      let m ← t.scheduler.executorsManager.setStatus e .executing
      pure (t.withManager m)
  | .finishExecution e res =>
      match t.inFlight.get? e with
      | none => .ok t
      | some f => do
          let m ← t.scheduler.executorsManager.setStatus e .outputReady
          pure { t.withManager m with inFlight := t.inFlight.set e { f with result := some res } }
  | .updateFromOutput e =>
      match t.inFlight.get? e with
      | some ⟨msg, some res⟩ => do
          let x ← t.scheduler.updateFromOutput cfg e msg res
          pure { t with scheduler := x.1, inFlight := t.inFlight.erase e }
      | _ => .ok t
  | .finishRequests arg status clock => do
      let s ← t.scheduler.finishRequests cfg arg status clock
      pure { t with scheduler := s }
  | .launch e bundleIds => do
      let m ← t.scheduler.executorsManager.launchExecutor e bundleIds
      pure (t.withManager m)
  | .announceKill e => do
      let m ← t.scheduler.executorsManager.announceKill e
      pure (t.withManager m)
  | .setKilling e => do
      let m ← t.scheduler.executorsManager.setStatus e .killing
      pure (t.withManager m)
  | .remove e => .ok (t.withManager (t.scheduler.executorsManager.deleteExecutor e))
  | .refreshEstimates predict =>
      .ok { t with scheduler := t.scheduler.processStepEstimateUpdates cfg predict }
  | .controlLoad idx minIdx =>
      .ok { t with scheduler := t.scheduler.controlLoad idx minIdx }

/-- The scheduler is built when some executors have been launched, all idle. -/
def Init (cfg : Config κ) (t : Calls κ) : Prop :=
  ∃ (launches : List (ExecutorId × List ℕ)) (m : ExecutorsManager) (s : Scheduler κ),
    launches.foldlM (fun m x => m.launchExecutor x.1 x.2) ExecutorsManager.empty = .ok m ∧
    (Scheduler.empty m).updateExecutors cfg = .ok s ∧ t = ⟨s, Dict.empty, []⟩

def Step (cfg : Config κ) (allowed : Calls κ → Call → Prop) (t : Calls κ) (c : Call)
    (t' : Calls κ) : Prop :=
  t.Possible cfg c ∧ allowed t c ∧ t.next cfg c = .ok t'

abbrev Reachable (cfg : Config κ) (allowed : Calls κ → Call → Prop) : Calls κ → Prop :=
  Transition.Reachable (Init cfg) (Step cfg allowed)

/-- No id is used for two requests. -/
def UniqueIds (t : Calls κ) : Call → Prop
  | .addRequest req => req.requestId ∉ t.usedReqIds
  | _ => True

/-! ## Replaying a list of calls -/

/-- Whether a call is possible, as a test. Load control is not replayed. -/
def possible? (t : Calls κ) : Call → Bool
  | .addRequest req => req.requestId ∉ t.scheduler.requests
  | .startExecution e =>
      (t.inFlight.get? e).any (fun f => f.result.isNone) &&
        t.scheduler.executorsManager.status? e == some .scheduled
  | .finishExecution e _ => (t.inFlight.get? e).any fun f => f.result.isNone
  | .updateFromOutput e => (t.inFlight.get? e).any fun f => f.result.isSome
  | .setKilling e => t.scheduler.executorsManager.status? e == some .idle
  | .remove e => t.scheduler.executorsManager.status? e == some .idle ||
      t.scheduler.executorsManager.status? e == some .killing
  | .controlLoad _ _ => false
  | _ => true

theorem possible_of_possible? (cfg : Config κ) {t : Calls κ} {c : Call}
    (h : t.possible? c = true) : t.Possible cfg c := by
  have hflight : ∀ {e : ExecutorId} {p : Flight → Bool}, (t.inFlight.get? e).any p = true →
      ∃ f, t.inFlight.get? e = some f ∧ p f = true := by
    intro e p hp
    cases hf : t.inFlight.get? e with
    | none =>
        rw [hf] at hp
        cases hp
    | some f =>
        rw [hf] at hp
        exact ⟨f, rfl, hp⟩
  cases c with
  | addRequest req => exact (of_decide_eq_true h :)
  | schedule env => trivial
  | startExecution e =>
      simp only [possible?, Bool.and_eq_true, beq_iff_eq] at h
      obtain ⟨⟨msg, res⟩, hf, hres⟩ := hflight h.1
      cases res with
      | none => exact ⟨⟨msg, hf⟩, h.2⟩
      | some res => cases hres
  | finishExecution e res =>
      obtain ⟨⟨msg, res⟩, hf, hres⟩ := hflight h
      cases res with
      | none => exact ⟨msg, hf⟩
      | some res => cases hres
  | updateFromOutput e =>
      obtain ⟨⟨msg, res⟩, hf, hres⟩ := hflight h
      cases res with
      | none => cases hres
      | some res => exact ⟨msg, res, hf⟩
  | finishRequests arg status clock => trivial
  | launch e bundleIds => trivial
  | announceKill e => trivial
  | setKilling e => simpa [possible?, Possible] using h
  | remove e => simpa [possible?, Possible] using h
  | refreshEstimates predict => trivial
  | controlLoad idx minIdx => cases h

def proceed (cfg : Config κ) (test : Calls κ → Call → Bool) (calls : List Call) (t : Calls κ) :
    Except PyError (Calls κ) :=
  calls.foldlM (fun t c =>
    if t.possible? c && test t c then t.next cfg c else throw .runtime) t

theorem reachable_of_proceed {cfg : Config κ} {test : Calls κ → Call → Bool}
    {allowed : Calls κ → Call → Prop} (htest : ∀ t c, test t c = true → allowed t c)
    (calls : List Call) {t : Calls κ} (h : Reachable cfg allowed t) :
    (proceed cfg test calls t).Ensures (fun _ => True) (Reachable cfg allowed) := by
  refine Transition.ensures_reachable (fun t c t' hn => ?_) calls h
  split_ifs at hn with hc
  rw [Bool.and_eq_true] at hc
  exact ⟨possible_of_possible? cfg hc.1, htest t c hc.2, hn⟩

theorem ensures_launch (cfg : Config κ) (launches : List (ExecutorId × List ℕ)) {β : Type}
    {g : Scheduler κ → Except PyError β} {Q : β → Prop}
    (hg : ∀ s, Init cfg ⟨s, Dict.empty, []⟩ → (g s).Ensures (fun _ => True) Q) :
    (do let m ← launches.foldlM (fun m x => m.launchExecutor x.1 x.2) ExecutorsManager.empty
        let s ← (Scheduler.empty m).updateExecutors cfg
        g s : Except PyError β).Ensures (fun _ => True) Q :=
  ensures_bind_ok _ fun m hm => ensures_bind_ok _ fun s hs => hg s ⟨launches, m, s, hm, hs, rfl⟩

def replay (cfg : Config κ) (test : Calls κ → Call → Bool)
    (launches : List (ExecutorId × List ℕ)) (calls : List Call) : Except PyError (Calls κ) := do
  let m ← launches.foldlM (fun m x => m.launchExecutor x.1 x.2) ExecutorsManager.empty
  let s ← (Scheduler.empty m).updateExecutors cfg
  calls.foldlM (fun t c =>
    if t.possible? c && test t c then t.next cfg c else throw .runtime) ⟨s, Dict.empty, []⟩

theorem reachable_of_replay (cfg : Config κ) {test : Calls κ → Call → Bool}
    {allowed : Calls κ → Call → Prop} (htest : ∀ t c, test t c = true → allowed t c)
    (launches : List (ExecutorId × List ℕ)) (calls : List Call) :
    (replay cfg test launches calls).Ensures (fun _ => True) (Reachable cfg allowed) :=
  ensures_launch cfg launches fun _ hs => reachable_of_proceed htest calls (.start hs)

def replayWatched {γ : Type} (cfg : Config κ) (test : Calls κ → Call → Bool)
    (watch : Calls κ → Call → Calls κ → γ → γ) (g₀ : γ) (launches : List (ExecutorId × List ℕ))
    (calls : List Call) : Except PyError (Calls κ × γ) := do
  let m ← launches.foldlM (fun m x => m.launchExecutor x.1 x.2) ExecutorsManager.empty
  let s ← (Scheduler.empty m).updateExecutors cfg
  calls.foldlM (fun x c =>
    if x.1.possible? c && test x.1 c then do
      let t ← x.1.next cfg c
      pure (t, watch x.1 c t x.2)
    else throw .runtime) (⟨s, Dict.empty, []⟩, g₀)

theorem reachable_of_replayWatched {γ : Type} (cfg : Config κ) {test : Calls κ → Call → Bool}
    {allowed : Calls κ → Call → Prop} (htest : ∀ t c, test t c = true → allowed t c)
    (watch : Calls κ → Call → Calls κ → γ → γ) (g₀ : γ) (launches : List (ExecutorId × List ℕ))
    (calls : List Call) :
    (replayWatched cfg test watch g₀ launches calls).Ensures (fun _ => True)
      (Transition.Reachable (Transition.WatchedInit (Init cfg) g₀)
        (Transition.WatchedStep (Step cfg allowed) watch)) := by
  refine ensures_launch cfg launches fun s hs =>
    Transition.ensures_reachable (fun x c y hn => ?_) calls (.start ⟨hs, rfl⟩)
  split_ifs at hn with hc
  rw [Bool.and_eq_true] at hc
  obtain ⟨t, ht, hy⟩ := bind_eq_ok.mp hn
  cases hy
  exact ⟨⟨possible_of_possible? cfg hc.1, htest x.1 c hc.2, ht⟩, rfl⟩

def uniqueIds? (t : Calls κ) : Call → Bool
  | .addRequest req => req.requestId ∉ t.usedReqIds
  | _ => true

theorem uniqueIds_of_uniqueIds? (t : Calls κ) (c : Call) (h : t.uniqueIds? c = true) :
    t.UniqueIds c := by
  cases c with
  | addRequest req => exact (of_decide_eq_true h :)
  | _ => trivial

end Calls

/-! ## A small instance -/

def LatencyProfile.constant (size : ℕ) (latency : ℚ) : LatencyProfile :=
  ⟨[(size, latency)], List.pairwise_singleton _ _⟩

/-- A configuration with one threshold, one latency for all batches, and block
tables that never run out. -/
def Config.small (cachePrefix cacheSuffix : Bool) (maxNumUnfinishedRequests : Option ℕ) :
    Config Unit :=
  { maxNumScheduledTokens := 100
    candidateConfidenceThresholds := [9 / 10]
    defaultConfidenceThreshold := 9 / 10
    cachePrefix, cacheSuffix
    requestLatencySlo := 100
    maxNumUnfinishedRequests
    enableDropping := false
    syncStepPrediction := false
    stepEstimatorRefreshUnmaskedTokenDelta := 100
    latencyProfiles := Dict.empty.set 1 (.constant 100 1)
    tpDegreeToThroughputSupply := Dict.empty.set 1 1
    getInitialDefaultPredictions := fun _ => Dict.empty.set (9 / 10) 4
    kv := ⟨fun _ => (), fun _ _ _ => some (), fun _ _ => [], fun _ _ => ()⟩ }

def ScheduleEnv.still : ScheduleEnv :=
  ⟨fun _ => 0, fun _ _ => 0, fun _ _ => 0, id, fun l => List.Perm.refl l⟩

/-- A request with a prompt of one token, four tokens to generate, and blocks of two. -/
def Request.small (r : ReqId) : Request :=
  { requestId := r
    clientIndex := 0
    arrivalTime := 0
    latencySlo := none
    promptTokenIds := [1]
    maxTokens := 4
    unmaskedTokenIds := []
    allTokenIds := [1, 0, 0, 0, 0]
    isInExecution := false
    numComputedTokens := 0
    numLastUnmaskedTokens := 0
    numDenoiseRan := 0
    execStartPos := 0
    numExecTokens := 5
    denoiseBlockSize := 2
    curBlock := 0
    curBlockStart := 1
    curBlockNumUnmaskedTokens := 0
    curBlockDenoiseRan := 0
    status := .waiting }

example (r : ReqId) : Request.create r 0 0 none [1] 0 4 2 = .ok (Request.small r) := rfl

end TeDiServe

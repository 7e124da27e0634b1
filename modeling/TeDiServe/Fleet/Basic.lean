import TeDiServe.Placement.Budget
import TeDiServe.Placement.Flights
import TeDiServe.Worker.Runner

/-!
# The scheduler and its workers

The system of calls leaves open what an executor returns. Here every executor has a worker
that executes the messages sent to it, and what it returns is what the scheduler gets. The
scheduler and the workers only know each other's messages, which are copies.

What a worker is and what it makes of a message is an argument, since some results need to
know more of a worker than others. A message that a worker cannot execute ends the run.
Requests come from the constructor.
-/

namespace TeDiServe

/-- How workers behave: what they are when their executor is launched, and what they make of
a message. -/
structure Crew (ω : Type) where
  fresh : ExecutorId → ω
  execute : ω → SchedulerOutput → Prediction → Except PyError (ω × ModelRunnerOutput)

def Crew.runners (w : WorkerConfig) : Crew Runner :=
  ⟨fun _ => Runner.empty, fun x msg predict => x.executeModel w msg predict⟩

/-- The scheduler with the messages in flight, and the workers that have executed one. -/
structure Fleet (κ ω : Type) where
  calls : Calls κ
  workers : Dict ExecutorId ω

inductive FleetEvent where
  | call (c : Call)
  | execute (e : ExecutorId) (predict : Prediction)

namespace Fleet

variable {κ ω : Type} {cfg : Config κ} {crew : Crew ω}

def worker (crew : Crew ω) (f : Fleet κ ω) (e : ExecutorId) : ω :=
  f.workers.getD e (crew.fresh e)

@[simp] theorem worker_set_self (crew : Crew ω) (t : Calls κ) (d : Dict ExecutorId ω)
    (e : ExecutorId) (x : ω) : worker crew ⟨t, d.set e x⟩ e = x := by
  simp [worker, Dict.getD]

theorem worker_set_of_ne (crew : Crew ω) (t : Calls κ) {f : Fleet κ ω} (x : ω)
    {e e' : ExecutorId} (h : e' ≠ e) :
    worker crew ⟨t, f.workers.set e x⟩ e' = f.worker crew e' := by
  simp [worker, Dict.getD, h]

/-- When something may happen. What an executor returns comes from its worker. -/
def Possible (cfg : Config κ) (f : Fleet κ ω) : FleetEvent → Prop
  | .call (.finishExecution _ _) => False
  | .call (.addRequest req) => req.Constructed ∧ f.calls.Possible cfg (.addRequest req)
  | .call c => f.calls.Possible cfg c
  | .execute e _ => ∃ msg, f.calls.inFlight.get? e = some ⟨msg, none⟩

def next (cfg : Config κ) (crew : Crew ω) (f : Fleet κ ω) :
    FleetEvent → Except PyError (Fleet κ ω)
  | .call c => do
      let t ← f.calls.next cfg c
      pure { f with calls := t }
  | .execute e predict =>
      match f.calls.inFlight.get? e with
      | none => .ok f
      | some flight => do
          let y ← crew.execute (f.worker crew e) flight.message predict
          let t ← f.calls.next cfg (.finishExecution e y.2)
          pure ⟨t, f.workers.set e y.1⟩

def Init (cfg : Config κ) (f : Fleet κ ω) : Prop :=
  Calls.Init cfg f.calls ∧ f.workers = Dict.empty

def Step (cfg : Config κ) (crew : Crew ω) (allowed : Fleet κ ω → FleetEvent → Prop)
    (f : Fleet κ ω) (ev : FleetEvent) (f' : Fleet κ ω) : Prop :=
  f.Possible cfg ev ∧ allowed f ev ∧ f.next cfg crew ev = .ok f'

abbrev Reachable (cfg : Config κ) (crew : Crew ω) (allowed : Fleet κ ω → FleetEvent → Prop) :
    Fleet κ ω → Prop :=
  Transition.Reachable (Init cfg) (Step cfg crew allowed)

def Calling (allowed : Calls κ → Call → Prop) (f : Fleet κ ω) : FleetEvent → Prop
  | .call c => allowed f.calls c
  | .execute _ _ => True

/-! ## What happens to the scheduler -/

variable {allowed : Fleet κ ω → FleetEvent → Prop} {f f' : Fleet κ ω} {ev : FleetEvent}

theorem Possible.call {c : Call} (h : f.Possible cfg (.call c)) : f.calls.Possible cfg c := by
  cases c with
  | finishExecution e res => exact h.elim
  | addRequest req => exact h.2
  | _ => exact h

/-- A step is a call that does not concern the workers, or the execution of a message. -/
theorem Step.cases (h : Step cfg crew allowed f ev f') :
    (∃ c, ev = .call c ∧ (∀ e res, c ≠ .finishExecution e res) ∧
      (∀ req, c = .addRequest req → req.Constructed) ∧ f.calls.Possible cfg c ∧
      f.calls.next cfg c = .ok f'.calls ∧ f'.workers = f.workers) ∨
    ∃ e predict msg y, ev = .execute e predict ∧
      f.calls.inFlight.get? e = some ⟨msg, none⟩ ∧
      crew.execute (f.worker crew e) msg predict = .ok y ∧
      f.calls.next cfg (.finishExecution e y.2) = .ok f'.calls ∧
      f'.workers = f.workers.set e y.1 := by
  obtain ⟨hp, -, hn⟩ := h
  cases ev with
  | call c =>
      left
      obtain ⟨t, ht, hn⟩ := bind_eq_ok.mp hn
      cases hn
      refine ⟨c, rfl, ?_, ?_, hp.call, ht, rfl⟩
      · rintro e res rfl
        exact hp
      · rintro req rfl
        exact hp.1
  | execute e predict =>
      right
      obtain ⟨msg, hmsg⟩ := hp
      simp only [next, hmsg] at hn
      obtain ⟨y, hy, hn⟩ := bind_eq_ok.mp hn
      obtain ⟨t, ht, hn⟩ := bind_eq_ok.mp hn
      cases hn
      exact ⟨e, predict, msg, y, rfl, hmsg, hy, ht, rfl⟩

theorem Step.exists_call (h : Step cfg crew allowed f ev f') :
    ∃ c, (ev = .call c ∨ ∃ e res, c = .finishExecution e res) ∧ f.calls.Possible cfg c ∧
      f.calls.next cfg c = .ok f'.calls := by
  rcases h.cases with ⟨c, hev, -, -, hp, hn, -⟩ | ⟨e, predict, msg, y, -, hmsg, -, hn, -⟩
  · exact ⟨c, Or.inl hev, hp, hn⟩
  · exact ⟨.finishExecution e y.2, Or.inr ⟨e, y.2, rfl⟩, ⟨msg, hmsg⟩, hn⟩

/-- The scheduler of a fleet makes a run of calls. A condition on calls has to hold where the
fleet makes them. -/
theorem Reachable.calls {allowed' : Calls κ → Call → Prop}
    (h : Reachable cfg crew allowed f)
    (hcall : ∀ f c, Reachable cfg crew allowed f → f.Possible cfg (.call c) →
      allowed f (.call c) → allowed' f.calls c)
    (hfinish : ∀ t e res, allowed' t (.finishExecution e res)) :
    Calls.Reachable cfg allowed' f.calls := by
  induction h with
  | start hinit => exact .start hinit.1
  | @next f f' ev hr hstep ih =>
      obtain ⟨c, hc, hp, hn⟩ := hstep.exists_call
      refine ih.next (a := c) ⟨hp, ?_, hn⟩
      rcases hc with rfl | ⟨e, res, rfl⟩
      · exact hcall f c hr hstep.1 hstep.2.1
      · exact hfinish f.calls e res

/-! ## Replays -/

def possible? (f : Fleet κ ω) : FleetEvent → Bool
  | .call (.finishExecution _ _) => false
  | .call c => f.calls.genuine? c && f.calls.possible? c
  | .execute e _ => (f.calls.inFlight.get? e).any fun flight => flight.result.isNone

theorem possible_of_possible? (cfg : Config κ) (h : f.possible? ev = true) :
    f.Possible cfg ev := by
  cases ev with
  | call c =>
      have hcall : (∀ e res, c ≠ .finishExecution e res) →
          f.calls.Genuine c ∧ f.calls.Possible cfg c := by
        intro hc
        have hboth : (f.calls.genuine? c && f.calls.possible? c) = true := by
          cases c with
          | finishExecution e res => exact absurd rfl (hc e res)
          | _ => exact h
        rw [Bool.and_eq_true] at hboth
        exact ⟨Calls.genuine_of_genuine? f.calls c hboth.1,
          Calls.possible_of_possible? cfg hboth.2⟩
      cases c with
      | finishExecution e res => cases h
      | addRequest req => exact hcall fun _ _ hc => by cases hc
      | _ => exact (hcall fun _ _ hc => by cases hc).2
  | execute e predict =>
      cases hf : f.calls.inFlight.get? e with
      | none =>
          simp only [possible?, hf] at h
          cases h
      | some flight =>
          obtain ⟨msg, res⟩ := flight
          simp only [possible?, hf, Option.any_some] at h
          rw [Option.isNone_iff_eq_none] at h
          exact ⟨msg, by rw [hf, h]⟩

def proceed {γ : Type} (cfg : Config κ) (crew : Crew ω) (test : Fleet κ ω → FleetEvent → Bool)
    (watch : Fleet κ ω → FleetEvent → Fleet κ ω → γ → γ) (events : List FleetEvent)
    (x : Fleet κ ω × γ) : Except PyError (Fleet κ ω × γ) :=
  events.foldlM (fun x ev =>
    if x.1.possible? ev && test x.1 ev then do
      let f ← x.1.next cfg crew ev
      pure (f, watch x.1 ev f x.2)
    else throw .runtime) x

theorem reachable_of_proceed {γ : Type} {test : Fleet κ ω → FleetEvent → Bool}
    (htest : ∀ f ev, test f ev = true → allowed f ev)
    {watch : Fleet κ ω → FleetEvent → Fleet κ ω → γ → γ} {init : Fleet κ ω × γ → Prop}
    (events : List FleetEvent) {x : Fleet κ ω × γ}
    (hx : Transition.Reachable init (Transition.WatchedStep (Step cfg crew allowed) watch) x) :
    (proceed cfg crew test watch events x).Ensures (fun _ => True)
      (Transition.Reachable init (Transition.WatchedStep (Step cfg crew allowed) watch)) := by
  refine Transition.ensures_reachable (fun x ev y hn => ?_) events hx
  split_ifs at hn with hc
  rw [Bool.and_eq_true] at hc
  obtain ⟨f, hf, hy⟩ := bind_eq_ok.mp hn
  cases hy
  exact ⟨⟨possible_of_possible? cfg hc.1, htest x.1 ev hc.2, hf⟩, rfl⟩

def replay {γ : Type} (cfg : Config κ) (crew : Crew ω) (test : Fleet κ ω → FleetEvent → Bool)
    (watch : Fleet κ ω → FleetEvent → Fleet κ ω → γ → γ) (g₀ : γ)
    (launches : List (ExecutorId × List ℕ)) (events : List FleetEvent) :
    Except PyError (Fleet κ ω × γ) := do
  let m ← launches.foldlM (fun m x => m.launchExecutor x.1 x.2) ExecutorsManager.empty
  let s ← (Scheduler.empty m).updateExecutors cfg
  proceed cfg crew test watch events (⟨⟨s, Dict.empty, []⟩, Dict.empty⟩, g₀)

theorem reachable_of_replay {γ : Type} (cfg : Config κ) (crew : Crew ω)
    {test : Fleet κ ω → FleetEvent → Bool} (htest : ∀ f ev, test f ev = true → allowed f ev)
    (watch : Fleet κ ω → FleetEvent → Fleet κ ω → γ → γ) (g₀ : γ)
    (launches : List (ExecutorId × List ℕ)) (events : List FleetEvent) :
    (replay cfg crew test watch g₀ launches events).Ensures (fun _ => True)
      (Transition.Reachable (Transition.WatchedInit (Init cfg) g₀)
        (Transition.WatchedStep (Step cfg crew allowed) watch)) :=
  Calls.ensures_launch cfg launches fun _ hs =>
    reachable_of_proceed htest events (.start ⟨⟨hs, rfl⟩, rfl⟩)

end Fleet

end TeDiServe

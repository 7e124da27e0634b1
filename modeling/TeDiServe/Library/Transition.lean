import Mathlib.Logic.Basic
import Mathlib.Tactic.Common
import TeDiServe.Library.Outcome

/-!
# Labelled transition systems

A system is given by its initial states and a step relation with labels.
`Reachable` are the states of its runs. A property that holds initially and that
every step keeps, holds in every reachable state; a step may use what is already
known about reachable states. A run may be watched: what the observer takes down is
part of the state of the watched system, and its steps are those of the system.
-/

namespace Transition

variable {σ α : Type} {init : σ → Prop} {step step' : σ → α → σ → Prop} {s : σ}

inductive Reachable (init : σ → Prop) (step : σ → α → σ → Prop) : σ → Prop
  | start {s : σ} : init s → Reachable init step s
  | next {s s' : σ} {a : α} : Reachable init step s → step s a s' → Reachable init step s'

theorem Reachable.invariant {I : σ → Prop} (h : Reachable init step s)
    (hinit : ∀ s, init s → I s)
    (hstep : ∀ s a s', Reachable init step s → I s → step s a s' → I s') : I s := by
  induction h with
  | start hs => exact hinit _ hs
  | next hr hs ih => exact hstep _ _ _ hr ih hs

theorem Reachable.mono (h : Reachable init step s)
    (hstep : ∀ s a s', step s a s' → step' s a s') : Reachable init step' s := by
  induction h with
  | start hs => exact .start hs
  | next _ hs ih => exact ih.next (hstep _ _ _ hs)

theorem Reachable.trans {s' : σ} (h : Reachable init step s)
    (h' : Reachable (fun x => x = s) step s') : Reachable init step s' := by
  induction h' with
  | start hs => exact hs ▸ h
  | next _ hs ih => exact ih.next hs

/-- A computation that makes one step after the other stays in the reachable states. -/
theorem ensures_reachable {ε : Type*} {f : σ → α → Except ε σ}
    (hf : ∀ s a s', f s a = .ok s' → step s a s') (l : List α) (h : Reachable init step s) :
    (l.foldlM f s).Ensures (fun _ => True) (Reachable init step) := by
  refine Except.ensures_foldlM l (fun s a _ hs => ?_) s h
  cases hn : f s a with
  | ok s' => exact hs.next (hf s a s' hn)
  | error e => trivial

theorem allows_any (_ : σ) (_ : α) (_ : true = true) : True :=
  trivial

/-! ## Watching a run -/

section Watching

variable {γ : Type} {g₀ : γ} {watch : σ → α → σ → γ → γ}

/-- The run is watched from the start by an observer that knows `g₀`. -/
def WatchedInit (init : σ → Prop) (g₀ : γ) (x : σ × γ) : Prop :=
  init x.1 ∧ x.2 = g₀

/-- The observer takes down what a step does, and does not take part in it. -/
def WatchedStep (step : σ → α → σ → Prop) (watch : σ → α → σ → γ → γ) (x : σ × γ) (a : α)
    (x' : σ × γ) : Prop :=
  step x.1 a x'.1 ∧ x'.2 = watch x.1 a x'.1 x.2

theorem Reachable.of_watched {x : σ × γ}
    (h : Reachable (WatchedInit init g₀) (WatchedStep step watch) x) : Reachable init step x.1 := by
  induction h with
  | start hs => exact .start hs.1
  | next _ hs ih => exact ih.next hs.1

end Watching

end Transition

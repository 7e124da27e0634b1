import TeDiServe.Placement.Stages
import Mathlib.Logic.Relation

/-!
# The moves of a round

A scheduling round is a sequence of moves of single requests. A move that brings a
request to another executor finds room for it there, and no move brings a request
back to the executor on which it was running when the round began. Two things
follow for the whole sequence: no executor is overloaded by it, and the record of
a request that ends up running where it was has never been written.
-/

namespace TeDiServe

namespace Scheduler

variable {κ : Type} {cfg : Config κ} {s s' s₁ : Scheduler κ} {π π' π₁ : Placement} {r : ReqId}
  {e : ExecutorId}

/-- One request changes its location, in a round that began with placement `π₁`. -/
inductive Move (cfg : Config κ) (π₁ : Placement) :
    Scheduler κ × Placement → Scheduler κ × Placement → Prop
  | mk {s s' : Scheduler κ} {π : Placement} {r : ReqId} {l l' : Loc} (hr : π r = some l)
      (before : Refines s π) (after : Refines s' (Function.update π r (some l')))
      (moved : Moved s s')
      (others : ∀ r', r' ≠ r → s'.requestStates.get? r' = s.requestStates.get? r')
      (room : ∀ e, l'.executor? = some e → l.executor? = some e ∨ Room cfg s r e)
      (fresh : ∀ e, l' = .running e → π₁ r ≠ some (.running e)) :
      Move cfg π₁ (s, π) (s', Function.update π r (some l'))

abbrev Moves (cfg : Config κ) (π₁ : Placement) :
    Scheduler κ × Placement → Scheduler κ × Placement → Prop :=
  Relation.ReflTransGen (Move cfg π₁)

def RoundAsks (cfg : Config κ) (s₁ : Scheduler κ) (π₁ : Placement) (n : ℕ) : Prop :=
  ∃ s π r l cur, Moves cfg π₁ (s₁, π₁) (s, π) ∧ Refines s π ∧ π r = some l ∧
    (∀ e, cur = some e → π r = some (.running e)) ∧ SearchAsks cfg s r cur n

/-! ## The load -/

def Fits (cfg : Config κ) (s : Scheduler κ) : Prop :=
  ∀ e es, s.executorStates.get? e = some es → es.load s.size ≤ cfg.maxNumScheduledTokens

theorem Fits.of_executorStates (hfits : Fits cfg s) (h : Refines s π) (h' : Refines s' π')
    (heq : s'.executorStates = s.executorStates) : Fits cfg s' := by
  intro e es hes
  have hmir' := h'.executors e es hes
  rw [heq] at hes
  rw [(h.executors e es hes).load_congr hmir']
  exact hfits e es hes

theorem Fits.of_hosts (hfits : Fits cfg s) (h : Refines s π) (h' : Refines s' π')
    (hhost : ∀ r e, π'.host? r = some e → π.host? r = some e)
    (hsize : ∀ r e, π'.host? r = some e → s'.size r = s.size r) : Fits cfg s' := by
  intro e es' hes'
  have hmir' := h'.executors e es' hes'
  cases hes : s.executorStates.get? e with
  | some es =>
      exact ((h.executors e es hes).load_le hmir' (fun r => hhost r e)
        fun r => hsize r e).trans (hfits e es hes)
  | none =>
      -- an executor without a record hosts nothing
      have hno : ∀ r, r ∉ es'.getProjectedReqIds := by
        intro r hr
        have hmem := h.hosted r e (hhost r e (hmir'.mem_projected_iff.mp hr))
        rw [Dict.mem_iff_exists, hes] at hmem
        simp at hmem
      rw [ExecutorState.load, List.eq_nil_iff_forall_not_mem.mpr hno]
      exact Nat.zero_le _

theorem Move.fits {x y : Scheduler κ × Placement} (h : Move cfg π₁ x y) (hfits : Fits cfg x.1) :
    Fits cfg y.1 := by
  cases h with
  | @mk s s' π r l l' hr before after moved others room fresh =>
      intro e es' hes'
      have hsize : s'.size = s.size := by
        funext r'
        simp [size, moved.requests]
      obtain ⟨es, hes⟩ := (Dict.mem_iff_exists _ _).mp
        (moved.mem_executorStates.mp (Dict.mem_of_get? hes'))
      have hmir := before.executors e es hes
      have hmir' := after.executors e es' hes'
      rw [hsize] at hmir' ⊢
      by_cases hgain : l'.executor? = some e ∧ l.executor? ≠ some e
      · obtain ⟨x, hx, hle⟩ := (room e hgain.1).resolve_left hgain.2
        rw [hes, Option.some.injEq] at hx
        rw [← hx] at hle
        exact (hmir.load_le_add hmir').trans hle
      · refine (hmir.load_le hmir' ?_ fun _ _ => rfl).trans (hfits e es hes)
        intro r' hr'
        by_cases hrr : r' = r
        · rw [hrr, Placement.host?_update_self, Option.bind_some] at hr'
          rw [hrr, Placement.host?, hr, Option.bind_some]
          by_contra hl
          exact hgain ⟨hr', hl⟩
        · rwa [Placement.host?_update_of_ne π hrr] at hr'

theorem Moves.fits {x y : Scheduler κ × Placement} (h : Moves cfg π₁ x y)
    (hfits : Fits cfg x.1) : Fits cfg y.1 := by
  induction h with
  | refl => exact hfits
  | tail _ hmove ih => exact hmove.fits ih

/-! ## Requests that stay -/

/-- The record of a request that runs where it ran at the start of the round is the
one it had then. -/
theorem Moves.stays {x : Scheduler κ × Placement} (h : Moves cfg π₁ (s₁, π₁) x)
    (hr₁ : π₁ r = some (.running e)) (hr : x.2 r = some (.running e)) :
    x.1.requestStates.get? r = s₁.requestStates.get? r := by
  induction h with
  | refl => rfl
  | tail _ hmove ih =>
      cases hmove with
      | @mk s s' π r' l l' hr' before after moved others room fresh =>
          dsimp only at hr ih ⊢
          by_cases hrr : r = r'
          · subst hrr
            rw [Function.update_self, Option.some.injEq] at hr
            exact absurd hr₁ (fresh e hr)
          · rw [Function.update_of_ne hrr] at hr
            rw [others r hrr]
            exact ih hr

end Scheduler

end TeDiServe

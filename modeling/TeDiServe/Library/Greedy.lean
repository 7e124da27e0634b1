import Mathlib.Algebra.Order.BigOperators.Group.List
import Mathlib.Data.List.Lex
import Mathlib.Order.Bounds.Defs
import Mathlib.Tactic.Abel
import Mathlib.Tactic.Linarith

/-!
# Greedy choices under a budget

Every item of a list gets one of the choices `0, …, last`, and each choice has a
cost. The greedy assignment goes through the items in order. For each it keeps
back what the later items cost at choice `last`, and takes the first choice that
the rest of the budget pays for, or `last` when there is none. Items may also be
forced to take `last`.

If the budget pays for everything at choice `last`, it pays for the greedy
assignment. If moreover no choice costs more than an earlier one, the greedy
assignment is the least one in the lexicographic order that the budget pays for.
-/

namespace Greedy

variable {α β : Type} [AddCommGroup β] {cost : α → ℕ → β} {forced : α → Bool} {last : ℕ}
  {budget spent : β} {l : List α} {v : List ℕ}

/-- The cost of all items at choice `last`. -/
def reserve (cost : α → ℕ → β) (last : ℕ) (l : List α) : β :=
  (l.map fun a => cost a last).sum

/-- What is kept back for the items after each one. -/
def reserves (cost : α → ℕ → β) (last : ℕ) : List α → List β
  | [] => []
  | _ :: l => reserve cost last l :: reserves cost last l

def total (cost : α → ℕ → β) (l : List α) (v : List ℕ) : β :=
  (List.zipWith cost l v).sum

@[simp] theorem reserve_cons (a : α) (l : List α) :
    reserve cost last (a :: l) = cost a last + reserve cost last l := by
  simp [reserve]

@[simp] theorem total_cons (a : α) (l : List α) (i : ℕ) (v : List ℕ) :
    total cost (a :: l) (i :: v) = cost a i + total cost l v := by
  simp [total]

/-- The first choice that fits, or `last`. -/
def pick (fits : ℕ → Bool) (last : ℕ) : ℕ :=
  ((List.range last).find? fits).getD last

section Assign

variable [LinearOrder β]

/-- The greedy assignment, when `spent` is already used. -/
def assign (cost : α → ℕ → β) (forced : α → Bool) (last : ℕ) (budget : β) :
    β → List α → List ℕ
  | _, [] => []
  | spent, a :: l =>
      let i := if forced a then last
        else pick (fun i => spent + cost a i + reserve cost last l ≤ budget) last
      i :: assign cost forced last budget (spent + cost a i) l

/-- A choice for every item, with `last` for the forced ones. -/
def Admissible (forced : α → Bool) (last : ℕ) (l : List α) (v : List ℕ) : Prop :=
  List.Forall₂ (fun a i => i ≤ last ∧ (forced a = true → i = last)) l v

def Decreasing (cost : α → ℕ → β) (last : ℕ) (l : List α) : Prop :=
  ∀ a ∈ l, ∀ i j, i ≤ j → j ≤ last → cost a j ≤ cost a i

theorem pick_le (fits : ℕ → Bool) (last : ℕ) : pick fits last ≤ last := by
  unfold pick
  cases h : (List.range last).find? fits with
  | none => exact le_rfl
  | some i => exact (List.mem_range.mp (List.mem_of_find?_eq_some h)).le

theorem fits_pick (fits : ℕ → Bool) (h : fits last = true) : fits (pick fits last) = true := by
  unfold pick
  cases hf : (List.range last).find? fits with
  | none => exact h
  | some i => exact List.find?_some hf

theorem pick_le_of_fits {fits : ℕ → Bool} {i : ℕ} (hi : i ≤ last) (h : fits i = true) :
    pick fits last ≤ i := by
  unfold pick
  rcases hi.eq_or_lt with rfl | hlt
  · exact pick_le fits i
  cases hf : (List.range last).find? fits with
  | none =>
      rw [List.find?_eq_none] at hf
      exact absurd h (hf i (List.mem_range.mpr hlt))
  | some j =>
      obtain ⟨-, as, bs, hrange, hbefore⟩ := List.find?_eq_some_iff_append.mp hf
      by_contra hij
      have hmem : i ∈ as := by
        have hsplit : i ∈ as ++ j :: bs := hrange ▸ List.mem_range.mpr hlt
        have hsorted := hrange ▸ List.pairwise_lt_range (n := last)
        rcases List.mem_append.mp hsplit with hm | hm
        · exact hm
        · rcases List.mem_cons.mp hm with rfl | hm
          · exact absurd le_rfl hij
          · have := (List.pairwise_cons.mp (List.pairwise_append.mp hsorted).2.1).1 i hm
            exact absurd this.le hij
      simpa [h] using hbefore i hmem

theorem pick_succ (fits : ℕ → Bool) (h : fits 0 = false) (last : ℕ) :
    pick fits (last + 1) = pick (fun i => fits (i + 1)) last + 1 := by
  unfold pick
  rw [List.range_succ_eq_map, List.find?_cons_of_neg (by simp [h]), List.find?_map]
  cases hf : (List.range last).find? (fits ∘ Nat.succ) with
  | none =>
      have hf' : (List.range last).find? (fun i => fits (i + 1)) = none := hf
      simp [hf']
  | some i =>
      have hf' : (List.range last).find? (fun i => fits (i + 1)) = some i := hf
      simp [hf']

theorem pick_eq_last {fits : ℕ → Bool} (h : ∀ i < last, fits i = false) :
    pick fits last = last := by
  unfold pick
  rw [List.find?_eq_none.mpr]
  · rfl
  · intro i hi
    simp [h i (List.mem_range.mp hi)]

theorem admissible_assign (spent : β) (l : List α) :
    Admissible forced last l (assign cost forced last budget spent l) := by
  induction l generalizing spent with
  | nil => exact List.Forall₂.nil
  | cons a l ih =>
      refine List.Forall₂.cons ⟨?_, fun hf => if_pos hf⟩ (ih _)
      split_ifs
      · exact le_rfl
      · exact pick_le _ _

theorem le_of_mem_assign {spent : β} {l : List α} {i : ℕ}
    (hi : i ∈ assign cost forced last budget spent l) : i ≤ last := by
  induction l generalizing spent with
  | nil => cases hi
  | cons a l ih =>
      rcases List.mem_cons.mp hi with rfl | hi
      · split_ifs
        · exact le_rfl
        · exact pick_le _ _
      · exact ih hi

/-- The budget that pays for everything at choice `last` pays for the greedy
assignment. -/
theorem spent_add_total_assign_le (forced : α → Bool)
    (h : spent + reserve cost last l ≤ budget) :
    spent + total cost l (assign cost forced last budget spent l) ≤ budget := by
  induction l generalizing spent with
  | nil => simpa [reserve, total, assign] using h
  | cons a l ih =>
      rw [reserve_cons, ← add_assoc] at h
      rw [assign, total_cons, ← add_assoc]
      apply ih
      split_ifs
      · exact h
      · simpa using fits_pick (fun i =>
          decide (spent + cost a i + reserve cost last l ≤ budget)) (decide_eq_true h)

variable [IsOrderedAddMonoid β]

theorem reserve_le_total (hdec : Decreasing cost last l) (hv : Admissible forced last l v) :
    reserve cost last l ≤ total cost l v := by
  induction hv with
  | nil => exact le_rfl
  | @cons a i l v hi _ ih =>
      rw [reserve_cons, total_cons]
      exact add_le_add (hdec a List.mem_cons_self i last hi.1 le_rfl)
        (ih fun b hb => hdec b (List.mem_cons_of_mem a hb))

/-- No affordable assignment comes before the greedy one. -/
theorem assign_le (hdec : Decreasing cost last l) (hv : Admissible forced last l v)
    (h : spent + total cost l v ≤ budget) : assign cost forced last budget spent l ≤ v := by
  induction hv generalizing spent with
  | nil => exact le_rfl
  | @cons a i l v hi hrest ih =>
      have hdec' : Decreasing cost last l := fun b hb => hdec b (List.mem_cons_of_mem a hb)
      rw [total_cons, ← add_assoc] at h
      have hfits : spent + cost a i + reserve cost last l ≤ budget :=
        (add_le_add le_rfl (reserve_le_total hdec' hrest)).trans h
      rw [assign]
      generalize hj : (if forced a = true then last
        else pick (fun i => decide (spent + cost a i + reserve cost last l ≤ budget)) last) = j
      have hle : j ≤ i := by
        rw [← hj]
        by_cases hf : forced a = true
        · rw [if_pos hf, hi.2 hf]
        · rw [if_neg hf]
          exact pick_le_of_fits hi.1 (decide_eq_true hfits)
      rcases hle.eq_or_lt with rfl | hlt
      · exact List.cons_le_cons j (ih hdec' h)
      · exact le_of_lt (List.Lex.rel hlt)

/-- With decreasing costs the greedy assignment is the least affordable one. -/
theorem isLeast_assign (forced : α → Bool) (hdec : Decreasing cost last l)
    (h : spent + reserve cost last l ≤ budget) :
    IsLeast {v | Admissible forced last l v ∧ spent + total cost l v ≤ budget}
      (assign cost forced last budget spent l) :=
  ⟨⟨admissible_assign spent l, spent_add_total_assign_le forced h⟩,
    fun _ hv => assign_le hdec hv.1 hv.2⟩

theorem assign_eq_replicate (hdec : Decreasing cost last l)
    (h : budget < spent + reserve cost last l) :
    assign cost forced last budget spent l = List.replicate l.length last := by
  induction l generalizing spent with
  | nil => rfl
  | cons a l ih =>
      rw [reserve_cons, ← add_assoc] at h
      have hpick : (if forced a = true then last
          else pick (fun i => decide (spent + cost a i + reserve cost last l ≤ budget)) last) =
          last := by
        split_ifs
        · rfl
        · apply pick_eq_last
          intro i hi
          rw [decide_eq_false_iff_not, not_le]
          refine h.trans_le (add_le_add (add_le_add le_rfl ?_) le_rfl)
          exact hdec a List.mem_cons_self i last hi.le le_rfl
      rw [assign, hpick, List.length_cons, List.replicate_succ,
        ih (fun b hb => hdec b (List.mem_cons_of_mem a hb)) h]

end Assign

end Greedy

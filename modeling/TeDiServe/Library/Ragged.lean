import Mathlib.Algebra.GroupWithZero.Nat
import Mathlib.Algebra.BigOperators.Group.List.Basic
import Mathlib.Data.List.Range

/-!
# Rows of different lengths, one after the other

A ragged table is stored as the concatenation of its rows. `Ragged.starts` are the places
where the rows begin. Array programs find them by a cumulative sum, spread a value of every
row over its places with `repeatEach`, and number the places of each row by subtracting its
beginning. The lemmas here say that this does what it should, row by row.
-/

namespace Ragged

variable {α β γ δ : Type*}

def cumsum (ns : List ℕ) : List ℕ := (ns.scanl (· + ·) 0).tail

def repeatEach (xs : List α) (ns : List ℕ) : List α :=
  (xs.zip ns).flatMap fun x => List.replicate x.2 x.1

/-- The places where the rows begin, if the first one begins at `c`. -/
def starts : ℕ → List ℕ → List ℕ
  | _, [] => []
  | c, n :: ns => c :: starts (c + n) ns

@[simp] theorem length_starts (c : ℕ) (ns : List ℕ) : (starts c ns).length = ns.length := by
  induction ns generalizing c with
  | nil => rfl
  | cons n ns ih => rw [starts, List.length_cons, ih, List.length_cons]

theorem tail_scanl_cons (c n : ℕ) (ns : List ℕ) :
    ((n :: ns).scanl (· + ·) c).tail = (c + n) :: (ns.scanl (· + ·) (c + n)).tail := by
  cases ns with
  | nil => simp
  | cons m ns => simp

theorem zipWith_sub_scanl (c : ℕ) (ns : List ℕ) :
    List.zipWith (· - ·) (ns.scanl (· + ·) c).tail ns = starts c ns := by
  induction ns generalizing c with
  | nil => rfl
  | cons n ns ih => rw [tail_scanl_cons, List.zipWith_cons_cons, ih, Nat.add_sub_cancel, starts]

theorem zipWith_sub_cumsum (ns : List ℕ) :
    List.zipWith (· - ·) (cumsum ns) ns = starts 0 ns :=
  zipWith_sub_scanl 0 ns

theorem getLastD_scanl (c : ℕ) (ns : List ℕ) :
    (ns.scanl (· + ·) c).tail.getLastD c = c + ns.sum := by
  induction ns generalizing c with
  | nil => rfl
  | cons n ns ih =>
      rw [tail_scanl_cons, List.getLastD_cons, ih, List.sum_cons, Nat.add_assoc]

theorem getLastD_cumsum (ns : List ℕ) : (cumsum ns).getLastD 0 = ns.sum :=
  (getLastD_scanl 0 ns).trans (Nat.zero_add _)

theorem range'_sum (c : ℕ) (ns : List ℕ) :
    List.range' c ns.sum = ((starts c ns).zip ns).flatMap fun x => List.range' x.1 x.2 := by
  induction ns generalizing c with
  | nil => rfl
  | cons n ns ih =>
      rw [starts, List.zip_cons_cons, List.flatMap_cons, ← ih, List.sum_cons]
      exact List.range'_append_1.symm

theorem zipWith_flatMap (f : β → γ → δ) {g : α → List β} {h : α → List γ} {l : List α}
    (hlen : ∀ a ∈ l, (g a).length = (h a).length) :
    List.zipWith f (l.flatMap g) (l.flatMap h) = l.flatMap fun a => List.zipWith f (g a) (h a) := by
  induction l with
  | nil => rfl
  | cons a l ih =>
      rw [List.flatMap_cons, List.flatMap_cons, List.zipWith_append (hlen a List.mem_cons_self),
        ih fun b hb => hlen b (List.mem_cons_of_mem a hb), List.flatMap_cons]

theorem zipWith_replicate (f : α → β → γ) (a : α) (l : List β) {n : ℕ} (hn : n = l.length) :
    List.zipWith f (List.replicate n a) l = l.map (f a) := by
  subst hn
  induction l with
  | nil => rfl
  | cons b l ih =>
      rw [List.length_cons, List.replicate_succ, List.zipWith_cons_cons, ih, List.map_cons]

/-- Subtracting the beginnings numbers the places of every row. -/
theorem zipWith_sub_repeatEach (ns : List ℕ) :
    List.zipWith (· - ·) (List.range ns.sum) (repeatEach (starts 0 ns) ns) =
      ns.flatMap List.range := by
  have hrow : ∀ x : ℕ × ℕ,
      List.zipWith (· - ·) (List.range' x.1 x.2) (List.replicate x.2 x.1) = List.range x.2 := by
    refine fun x => List.ext_getElem (by simp) fun i hi hi' => ?_
    rw [List.getElem_zipWith, List.getElem_range', List.getElem_replicate, List.getElem_range]
    omega
  rw [List.range_eq_range', range'_sum, repeatEach, zipWith_flatMap _ (by simp)]
  simp only [hrow]
  rw [← List.flatMap_map, List.map_snd_zip (by simp)]

/-- A place of a row, counted from the beginning of the table. -/
theorem getElem?_flatMap (f : α → List β) {l : List α} {i j : ℕ} {a : α} (ha : l[i]? = some a)
    (hj : j < (f a).length) :
    (l.flatMap f)[((l.take i).map fun b => (f b).length).sum + j]? = (f a)[j]? := by
  induction l generalizing i with
  | nil => cases ha
  | cons b l ih =>
      rw [List.flatMap_cons]
      cases i with
      | zero =>
          rw [List.getElem?_cons_zero, Option.some.injEq] at ha
          subst ha
          rw [List.take_zero, List.map_nil, List.sum_nil, Nat.zero_add,
            List.getElem?_append_left hj]
      | succ i =>
          rw [List.getElem?_cons_succ] at ha
          rw [List.take_succ_cons, List.map_cons, List.sum_cons, Nat.add_assoc,
            List.getElem?_append_right (Nat.le_add_right _ _), Nat.add_sub_cancel_left, ih ha]

/-- Every place of the table is one of a row. -/
theorem exists_of_getElem?_flatMap (f : α → List β) {l : List α} {k : ℕ} {b : β}
    (h : (l.flatMap f)[k]? = some b) : ∃ i a j, l[i]? = some a ∧ (f a)[j]? = some b ∧
      k = ((l.take i).map fun b => (f b).length).sum + j := by
  induction l generalizing k with
  | nil => cases h
  | cons a l ih =>
      rw [List.flatMap_cons] at h
      rcases Nat.lt_or_ge k (f a).length with hlt | hle
      · rw [List.getElem?_append_left hlt] at h
        exact ⟨0, a, k, rfl, h, by simp⟩
      · rw [List.getElem?_append_right hle] at h
        obtain ⟨i, a', j, ha', hj, hk⟩ := ih h
        refine ⟨i + 1, a', j, ha', hj, ?_⟩
        rw [List.take_succ_cons, List.map_cons, List.sum_cons]
        omega

theorem getElem?_flatten {width : ℕ} {l : List (List α)} (hwidth : ∀ row ∈ l, row.length = width)
    (i : ℕ) {j : ℕ} (hj : j < width) :
    l.flatten[j + i * width]? = l[i]?.bind fun row => row[j]? := by
  induction l generalizing i with
  | nil => rfl
  | cons row l ih =>
      have hlen := hwidth row List.mem_cons_self
      rw [List.flatten_cons]
      cases i with
      | zero =>
          rw [Nat.zero_mul, Nat.add_zero, List.getElem?_append_left (hlen ▸ hj)]
          rfl
      | succ i =>
          have hplace : j + (i + 1) * width = row.length + (j + i * width) := by
            rw [hlen, Nat.succ_mul]
            omega
          rw [hplace, List.getElem?_append_right (Nat.le_add_right _ _), Nat.add_sub_cancel_left,
            ih (fun row' hrow' => hwidth row' (List.mem_cons_of_mem row hrow')) i]
          rfl

end Ragged

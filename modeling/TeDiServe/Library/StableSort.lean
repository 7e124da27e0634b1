import Mathlib.Data.List.Sort

/-!
# The first choice of a stable sort

A program that sorts its candidates by a key and takes the first one that will do takes
the one with the least key, and the earliest among those. The order of two elements in a
list without repetition is said with the sublist of the two.
-/

namespace List

variable {α β : Type*} {l : List α} {a b : α}

theorem Nodup.not_pair_sublist (h : l.Nodup) (hab : [a, b] <+ l) : ¬[b, a] <+ l := by
  induction l with
  | nil => cases hab
  | cons x l ih =>
      rw [nodup_cons] at h
      intro hba
      cases hab with
      | cons _ hab =>
          cases hba with
          | cons _ hba => exact ih h.2 hab hba
          | cons_cons _ hba => exact h.1 (hab.subset (mem_cons_of_mem _ mem_cons_self))
      | cons_cons _ hab =>
          cases hba with
          | cons _ hba => exact h.1 (hba.subset (mem_cons_of_mem _ mem_cons_self))
          | cons_cons _ hba => exact h.1 (hba.subset mem_cons_self)

theorem pair_sublist_or (ha : a ∈ l) (hb : b ∈ l) (hne : a ≠ b) : [a, b] <+ l ∨ [b, a] <+ l := by
  induction l with
  | nil => cases ha
  | cons x l ih =>
      rcases mem_cons.mp ha with rfl | hal
      · rcases mem_cons.mp hb with rfl | hbl
        · exact absurd rfl hne
        · exact Or.inl ((singleton_sublist.mpr hbl).cons_cons a)
      · rcases mem_cons.mp hb with rfl | hbl
        · exact Or.inr ((singleton_sublist.mpr hal).cons_cons b)
        · exact (ih hal hbl).imp (·.cons x) (·.cons x)

/-- What is found comes before everything else that could have been found. -/
theorem pair_sublist_of_find? {p : α → Bool} (h : l.find? p = some a) (hb : b ∈ l)
    (hpb : p b = true) (hne : b ≠ a) : [a, b] <+ l := by
  obtain ⟨s, t, rfl, hs⟩ := (find?_eq_some_iff_append.mp h).2
  have hbt : b ∈ t := by
    rcases mem_append.mp hb with hb | hb
    · exact absurd hpb (by simpa using hs b hb)
    · exact (mem_cons.mp hb).resolve_left hne
  exact ((singleton_sublist.mpr hbt).cons_cons a).trans (sublist_append_right _ _)

/-- The first candidate after sorting has the least key, and it is the earliest of those. -/
theorem key_le_of_find?_insertionSort [LinearOrder β] {key : α → β} {p : α → Bool}
    (hl : l.Nodup) (h : (l.insertionSort fun x y => key x ≤ key y).find? p = some a)
    (hb : b ∈ l) (hpb : p b = true) (hne : b ≠ a) :
    key a < key b ∨ key a = key b ∧ [a, b] <+ l := by
  have hmem : b ∈ l.insertionSort fun x y => key x ≤ key y := (mem_insertionSort _).mpr hb
  have ha : a ∈ l := (mem_insertionSort _).mp (mem_of_find?_eq_some h)
  have hpair := pair_sublist_of_find? h hmem hpb hne
  have hle : key a ≤ key b := by
    have hsorted := (pairwise_insertionSort (fun x y : α => key x ≤ key y) l).sublist hpair
    simpa using hsorted
  refine hle.lt_or_eq.imp id fun heq => ⟨heq, ?_⟩
  refine (pair_sublist_or ha hb hne.symm).resolve_right fun hba => ?_
  have hnodup : (l.insertionSort fun x y => key x ≤ key y).Nodup :=
    (perm_insertionSort _ l).nodup_iff.mpr hl
  exact hnodup.not_pair_sublist hpair (pair_sublist_insertionSort heq.ge hba)

end List

import Mathlib.Algebra.GroupWithZero.Nat
import Mathlib.Data.List.Dedup
import Mathlib.Data.List.Perm.Subperm
import Mathlib.Order.Lattice
import Mathlib.Order.Nat

/-!
# Lists

What a program uses of its lists besides reading them: members of lists of known length,
largest elements, numbers of elements from bounds on their sum, and what is dropped from the
left end of a queue.
-/

namespace List

/-! ## Members -/

theorem exists_ne_of_length {α : Type*} [DecidableEq α] {l : List α} {a : α} (hnodup : l.Nodup)
    (ha : a ∈ l) (hlen : l.length ≠ 1) : ∃ b ∈ l, b ≠ a := by
  obtain ⟨b, hb⟩ : ∃ b, b ∈ l.erase a := by
    have hpos := List.length_pos_of_mem ha
    rw [← List.length_pos_iff_exists_mem, List.length_erase_of_mem ha]
    omega
  obtain ⟨hne, hb⟩ := hnodup.mem_erase_iff.mp hb
  exact ⟨b, hb, hne⟩

theorem head?_map_eq {α β : Type*} {f : α → β} {l : List α} {b : α}
    (h : ∀ a ∈ l, ∀ {b}, b ∈ l → f a = f b) (hb : b ∈ l) : l.head?.map f = some (f b) := by
  cases l with
  | nil => simp at hb
  | cons a l => exact congrArg some (h a List.mem_cons_self hb)

theorem dedup_eq_singleton {α : Type*} [DecidableEq α] {l : List α} {a : α} (hne : l ≠ [])
    (h : ∀ b ∈ l, b = a) : l.dedup = [a] := by
  rw [← List.perm_singleton, List.perm_ext_iff_of_nodup l.nodup_dedup (List.nodup_singleton a)]
  intro b
  rw [List.mem_dedup, List.mem_singleton]
  refine ⟨h b, ?_⟩
  rintro rfl
  obtain ⟨c, hc⟩ := List.exists_mem_of_ne_nil l hne
  exact h c hc ▸ hc

theorem eq_of_countP_le_one {α : Type*} {l : List α} {p : α → Bool} (h : l.countP p ≤ 1) {a b : α}
    (ha : a ∈ l) (hb : b ∈ l) (hpa : p a = true) (hpb : p b = true) : a = b := by
  by_contra hne
  have hsub : [a, b].Subperm (l.filter p) := by
    apply List.Nodup.subperm (by simpa using hne)
    intro c hc
    rw [List.mem_filter]
    rcases List.mem_cons.mp hc with rfl | hc
    · exact ⟨ha, hpa⟩
    · rw [List.mem_singleton] at hc
      rw [hc]
      exact ⟨hb, hpb⟩
  have hle := hsub.length_le
  rw [← List.countP_eq_length_filter] at hle
  simp only [List.length_cons, List.length_nil] at hle
  omega

theorem exists_pieces {α β : Type*} [DecidableEq α] (size : α → ℕ) {l : List α} (hl : l.Nodup)
    {bs : List β} (hsum : (l.map size).sum = bs.length) :
    ∃ piece : α → List β, (∀ a ∈ l, (piece a).length = size a) ∧ l.flatMap piece = bs := by
  induction l generalizing bs with
  | nil =>
      refine ⟨fun _ => [], by simp, ?_⟩
      rw [List.flatMap_nil, List.nil_eq, ← List.length_eq_zero_iff, ← hsum]
      rfl
  | cons a l ih =>
      rw [List.nodup_cons] at hl
      rw [List.map_cons, List.sum_cons] at hsum
      have hdrop : (l.map size).sum = (bs.drop (size a)).length := by
        rw [List.length_drop]
        omega
      obtain ⟨piece, hlen, hflat⟩ := ih hl.2 hdrop
      have hother : ∀ a' ∈ l, Function.update piece a (bs.take (size a)) a' = piece a' :=
        fun a' ha' => Function.update_of_ne (fun (h : a' = a) => hl.1 (h ▸ ha')) _ _
      refine ⟨Function.update piece a (bs.take (size a)), ?_, ?_⟩
      · intro a' ha'
        rcases List.mem_cons.mp ha' with rfl | hmem
        · rw [Function.update_self, List.length_take]
          omega
        · rw [hother a' hmem, hlen a' hmem]
      · rw [List.flatMap_cons, Function.update_self, List.flatMap_congr hother, hflat]
        exact List.take_append_drop _ _

theorem map_fst_zipIdx_zip {α β : Type*} {l : List α} {l' : List β} (h : l.length ≤ l'.length) :
    ((l.zip l').zipIdx.map fun z => z.1.1) = l :=
  calc ((l.zip l').zipIdx.map fun z => z.1.1)
    _ = ((l.zip l').zipIdx.map Prod.fst).map Prod.fst := List.map_map.symm
    _ = l := by rw [List.zipIdx_map_fst, List.map_fst_zip h]

/-! ## Largest elements -/

theorem le_foldl_max (ns : List ℕ) (n : ℕ) : n ≤ ns.foldl max n ∧ ∀ m ∈ ns, m ≤ ns.foldl max n := by
  induction ns generalizing n with
  | nil => exact ⟨le_rfl, by simp⟩
  | cons k ns ih =>
      obtain ⟨hle, hall⟩ := ih (max n k)
      refine ⟨(le_max_left n k).trans hle, ?_⟩
      exact List.forall_mem_cons.mpr ⟨(le_max_right n k).trans hle, hall⟩

theorem exists_last_largest {α : Type*} (f : α → ℕ) {l : List α} (h : l ≠ []) :
    ∃ s a t, l = s ++ a :: t ∧ (∀ b ∈ s, f b ≤ f a) ∧ ∀ b ∈ t, f b < f a := by
  induction l with
  | nil => exact absurd rfl h
  | cons c l ih =>
      by_cases hl : l = []
      · exact ⟨[], c, l, rfl, by simp, by simp [hl]⟩
      · obtain ⟨s, a, t, rfl, hs, ht⟩ := ih hl
        by_cases hle : f c ≤ f a
        · exact ⟨c :: s, a, t, rfl, List.forall_mem_cons.mpr ⟨hle, hs⟩, ht⟩
        · refine ⟨[], c, s ++ a :: t, rfl, by simp, ?_⟩
          intro b hb
          rcases List.mem_append.mp hb with hb | hb
          · exact (hs b hb).trans_lt (Nat.lt_of_not_le hle)
          · rcases List.mem_cons.mp hb with rfl | hb
            · exact Nat.lt_of_not_le hle
            · exact (ht b hb).trans (Nat.lt_of_not_le hle)

theorem exists_max {γ : Type*} [Preorder γ] [Std.Total (α := γ) (· ≤ ·)] {l : List γ}
    (hne : l ≠ []) : ∃ v ∈ l, ∀ a ∈ l, a ≤ v := by
  induction l with
  | nil => exact absurd rfl hne
  | cons a l ih =>
      by_cases hnil : l = []
      · exact ⟨a, List.mem_cons_self, by simp [hnil]⟩
      · obtain ⟨v, hv, hmax⟩ := ih hnil
        rcases Std.Total.total (r := (· ≤ ·)) a v with hle | hle
        · exact ⟨v, List.mem_cons_of_mem a hv, List.forall_mem_cons.mpr ⟨hle, hmax⟩⟩
        · exact ⟨a, List.mem_cons_self,
            List.forall_mem_cons.mpr ⟨le_refl a, fun b hb => (hmax b hb).trans hle⟩⟩

/-! ## Numbers of elements -/

theorem length_le_of_subset_range' {l : List ℕ} {a n : ℕ} (hnodup : l.Nodup)
    (hsub : ∀ pos ∈ l, a ≤ pos ∧ pos < a + n) : l.length ≤ n := by
  have hsubperm : l.Subperm (List.range' a n) :=
    hnodup.subperm fun pos hpos => List.mem_range'_1.mpr (hsub pos hpos)
  have hle := hsubperm.length_le
  rwa [List.length_range'] at hle

theorem forall_mem_iff_length {l : List ℕ} {a n : ℕ} (hnodup : l.Nodup)
    (hsub : ∀ pos ∈ l, a ≤ pos ∧ pos < a + n) :
    (∀ pos, a ≤ pos → pos < a + n → pos ∈ l) ↔ l.length = n := by
  have hsubperm : l.Subperm (List.range' a n) :=
    hnodup.subperm fun pos hpos => List.mem_range'_1.mpr (hsub pos hpos)
  constructor
  · intro hall
    have hle := (List.nodup_range' (s := a) (n := n)).subperm fun pos hpos =>
      hall pos (List.mem_range'_1.mp hpos).1 (List.mem_range'_1.mp hpos).2
    have hlen := hle.length_le
    rw [List.length_range'] at hlen
    exact le_antisymm (length_le_of_subset_range' hnodup hsub) hlen
  · intro hlen pos hlow hhigh
    have hperm := hsubperm.perm_of_length_le (by rw [List.length_range', hlen])
    exact hperm.mem_iff.mpr (List.mem_range'_1.mpr ⟨hlow, hhigh⟩)

theorem length_mul_le_mul_sum {α : Type*} {l : List α} {f : α → ℕ} {b n : ℕ}
    (hlarge : ∀ a ∈ l, b < n * f a) : l.length * (b + 1) ≤ n * (l.map f).sum := by
  induction l with
  | nil => simp
  | cons a l ih =>
      have hhead : b + 1 ≤ n * f a := hlarge a List.mem_cons_self
      have hrest := ih fun c hc => hlarge c (List.mem_cons_of_mem a hc)
      rw [List.length_cons, List.map_cons, List.sum_cons, Nat.succ_mul, Nat.mul_add n,
        Nat.add_comm]
      exact Nat.add_le_add hhead hrest

theorem length_le_of_sum_le {α : Type*} {l : List α} {f : α → ℕ} {b n : ℕ}
    (hlarge : ∀ a ∈ l, b < (n + 1) * f a) (hsum : (l.map f).sum ≤ b) : l.length ≤ n := by
  by_contra hlong
  have hlt : (n + 1) * b < (n + 1) * b := calc
    (n + 1) * b < (n + 1) * (b + 1) := Nat.mul_lt_mul_of_pos_left (by omega) (by omega)
    _ ≤ l.length * (b + 1) := Nat.mul_le_mul_right _ (Nat.lt_of_not_le hlong)
    _ ≤ (n + 1) * (l.map f).sum := length_mul_le_mul_sum hlarge
    _ ≤ (n + 1) * b := Nat.mul_le_mul_left _ hsum
  exact Nat.lt_irrefl _ hlt

/-! ## Queues -/

/-- What was dropped for being expired earlier is dropped later as well. -/
theorem dropWhile_dropWhile_append {α : Type*} {p q : α → Bool} (h : ∀ a, p a = true → q a = true)
    (l l' : List α) : (l.dropWhile p ++ l').dropWhile q = (l ++ l').dropWhile q := by
  induction l with
  | nil => rfl
  | cons a l ih =>
      by_cases ha : p a = true
      · rw [List.dropWhile_cons_of_pos ha, ih, List.cons_append,
          List.dropWhile_cons_of_pos (h a ha)]
      · rw [List.dropWhile_cons_of_neg ha]

theorem dropWhile_eq_filter_iff {α : Type*} (p : α → Prop) [DecidablePred p] (l : List α) :
    l.dropWhile (fun a => ¬p a) = l.filter p ↔ l.Pairwise fun a b => p a → p b := by
  induction l with
  | nil => simp
  | cons a l ih =>
      by_cases ha : p a
      · have hall : (∀ b ∈ l, p b) → l.Pairwise fun a b => p a → p b :=
          fun h => List.pairwise_of_forall_mem_list fun _ _ b hb _ => h b hb
        simpa [ha, List.pairwise_cons, eq_comm (a := l)] using hall
      · simpa [ha] using ih

end List

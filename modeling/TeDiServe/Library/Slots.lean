import TeDiServe.Library.Dict
import Mathlib.Data.List.Range
import Mathlib.Data.List.ReduceOption
import Mathlib.Data.List.Perm.Lattice

/-!
# Tables of rows with holes

`Slots K V` is a table whose rows belong to keys. A dictionary says which row a key has.
Removing a key leaves a hole, a new key takes the lowest hole or else a row at the end,
and `condense` moves rows from the end into the holes that are left, so that the rows in
use are the first ones. The table also keeps account of what was done to it since the
last `reset`.

A reader of the table cares for its contents, `get?`, and not for where a row is. Every
operation has a lemma that says what it does to the contents, and `Valid` is the
agreement between rows, dictionary and holes that makes these lemmas true.
-/

/-- Rows with their keys, the row of every key, and what was done since the last reset:
the rows that became holes and were not filled, the moves, and the rows given out. -/
structure Slots (K V : Type*) where
  cells : List (Option (K × V))
  index : Dict K ℕ
  removed : List ℕ
  moved : List (ℕ × ℕ)
  added : List ℕ

/-- Keys with different numbers, which fill what is left of the first `n` numbers. -/
theorem Dict.length_keys_add {K : Type*} [DecidableEq K] {d : Dict K ℕ} {l : List ℕ} {n : ℕ}
    (hinj : ∀ k k' i, d.get? k = some i → d.get? k' = some i → k = k')
    (hlt : ∀ k i, d.get? k = some i → i < n ∧ i ∉ l)
    (hcover : ∀ i < n, i ∉ l → ∃ k, d.get? k = some i)
    (hl : l.Nodup) (hln : ∀ i ∈ l, i < n) : d.keys.length + l.length = n := by
  have hvalues : d.values.Nodup := by
    refine List.Nodup.map_on ?_ (List.Nodup.of_map Prod.fst d.nodup)
    rintro ⟨k, i⟩ hk ⟨k', i'⟩ hk' (rfl : i = i')
    rw [mem_entries_iff] at hk hk'
    rw [hinj k k' i hk hk']
  have hmem : ∀ i, i ∈ d.values ↔ ∃ k, d.get? k = some i := by
    intro i
    simp [values, mem_entries_iff]
  have hperm : (d.values ++ l).Perm (List.range n) := by
    rw [List.perm_ext_iff_of_nodup ?_ List.nodup_range]
    · intro i
      rw [List.mem_append, hmem, List.mem_range]
      constructor
      · rintro (⟨k, hk⟩ | hi)
        · exact (hlt k i hk).1
        · exact hln i hi
      · intro hi
        by_cases hil : i ∈ l
        · exact Or.inr hil
        · exact Or.inl (hcover i hi hil)
    · apply hvalues.append hl
      intro i hi hil
      obtain ⟨k, hk⟩ := (hmem i).mp hi
      exact (hlt k i hk).2 hil
  have hlen := hperm.length_eq
  rw [List.length_append, List.length_range] at hlen
  simpa [keys, values] using hlen

theorem Dict.length_keys_set {K V : Type*} [DecidableEq K] {d : Dict K V} {k : K} (h : k ∉ d)
    (v : V) : (d.set k v).keys.length = d.keys.length + 1 := by
  have hperm := (values_set_perm d k v).length_eq
  rw [erase_of_not_mem h] at hperm
  simpa [keys, values] using hperm

namespace Slots

variable {K V : Type*} [DecidableEq K]

def empty : Slots K V := ⟨[], Dict.empty, [], [], []⟩

def size (t : Slots K V) : ℕ := t.index.keys.length

def get? (t : Slots K V) (k : K) : Option V :=
  (t.index.get? k).bind fun i => (t.cells[i]?.join).map Prod.snd

def remove (t : Slots K V) (k : K) : Slots K V :=
  match t.index.get? k with
  | none => t
  | some i =>
      { t with
        cells := t.cells.set i none
        index := t.index.erase k
        removed := t.removed ++ [i] }

/-- The row of the next key: the lowest hole, or else the row after the last one. -/
def nextIndex (t : Slots K V) : ℕ := t.removed.min?.getD t.size

def insert (t : Slots K V) (k : K) (v : V) : Slots K V :=
  let i := t.nextIndex
  { t with
    cells := if i = t.cells.length then t.cells ++ [some (k, v)] else t.cells.set i (some (k, v))
    index := t.index.set k i
    removed := t.removed.erase i
    added := t.added ++ [i] }

def modifyAt (t : Slots K V) (i : ℕ) (f : V → V) : Slots K V :=
  { t with cells := t.cells.modify i (Option.map fun x => (x.1, f x.2)) }

def lastFilled (removed : List ℕ) : ℕ → ℕ
  | 0 => 0
  | last + 1 => if last + 1 ∈ removed then lastFilled removed last else last + 1

/-- Move rows from the end into the holes, the lowest hole first. The first argument
bounds the number of moves. The result is missing if a row to be moved has no key. -/
def slide : ℕ → ℕ → Slots K V → Option (Slots K V)
  | 0, _, t => some t
  | n + 1, last, t =>
      match t.removed.min? with
      | none => some t
      | some hole =>
          let last := lastFilled t.removed last
          if last ≤ hole then some t
          else
            match t.cells[last]?.join with
            | none => none
            | some (k, v) =>
                slide n (last - 1)
                  { t with
                    cells := (t.cells.set hole (some (k, v))).set last none
                    index := t.index.set k hole
                    removed := t.removed.erase hole
                    moved := t.moved ++ [(last, hole)] }

/-- Fill the holes with rows from the end, and cut off what is left there. -/
def condense (t : Slots K V) : Option (Slots K V) :=
  if t.removed = [] then some t
  else if t.size = 0 then some { t with cells := [] }
  else
    (slide t.removed.length (t.size + t.removed.length - 1) t).map fun t =>
      { t with cells := t.cells.take t.size }

def isChanged (t : Slots K V) : Bool :=
  !(t.removed.isEmpty && t.moved.isEmpty && t.added.isEmpty)

def reset (t : Slots K V) : Slots K V := { t with removed := [], moved := [], added := [] }

def rows (t : Slots K V) : List (K × V) := t.cells.reduceOption

structure Valid (t : Slots K V) : Prop where
  filled : ∀ k i, t.index.get? k = some i → ∃ v, t.cells[i]? = some (some (k, v))
  holes : ∀ i ∈ t.removed, i < t.cells.length ∧ ∀ k, t.index.get? k ≠ some i
  covered : ∀ i < t.cells.length, i ∉ t.removed → ∃ k, t.index.get? k = some i
  nodup : t.removed.Nodup

variable {t t' : Slots K V} {k k' : K} {v : V} {i : ℕ}

theorem get?_of_index (hi : t.index.get? k = some i) (hv : t.cells[i]? = some (some (k', v))) :
    t.get? k = some v := by
  simp [get?, hi, hv]

theorem get?_of_not_mem (h : k ∉ t.index) : t.get? k = none := by
  rw [get?, (Dict.get?_eq_none_iff _ _).mpr h, Option.bind_none]

theorem get?_congr (hmem : k ∈ t'.index ↔ k ∈ t.index)
    (hrow : ∀ i, t'.index.get? k = some i → ∃ v, t'.cells[i]? = some (some (k, v)) ∧
      t.get? k = some v) : t'.get? k = t.get? k := by
  by_cases hk : k ∈ t'.index
  · obtain ⟨i, hi⟩ := (Dict.mem_iff_exists _ _).mp hk
    obtain ⟨v, hv, hget⟩ := hrow i hi
    rw [get?_of_index hi hv, hget]
  · rw [get?_of_not_mem hk, get?_of_not_mem fun h => hk (hmem.mpr h)]

theorem valid_empty : (empty : Slots K V).Valid := by
  refine ⟨?_, ?_, ?_, List.nodup_nil⟩
  · intro k i hi
    cases hi
  · intro i hi
    cases hi
  · intro i hi
    cases hi

/-! ## What was done -/

theorem remove_of_isChanged (h : (t.remove k).isChanged = false) : t.remove k = t := by
  unfold remove at h ⊢
  cases hi : t.index.get? k with
  | none => rfl
  | some i =>
      rw [hi] at h
      simp [isChanged] at h

theorem foldl_remove_of_isChanged {l : List K} (h : (l.foldl remove t).isChanged = false) :
    l.foldl remove t = t := by
  induction l generalizing t with
  | nil => rfl
  | cons k l ih =>
      rw [List.foldl_cons] at h ⊢
      have hrest := ih h
      rw [hrest] at h ⊢
      exact remove_of_isChanged h

@[simp] theorem isChanged_insert (t : Slots K V) (k : K) (v : V) :
    (t.insert k v).isChanged = true := by
  simp [isChanged, insert]

omit [DecidableEq K] in
theorem map_rows_modifyAt {β : Type*} {g : V → β} {f : V → V}
    (h : ∀ k v, t.cells[i]? = some (some (k, v)) → g (f v) = g v) :
    (t.modifyAt i f).rows.map (fun x => g x.2) = t.rows.map fun x => g x.2 := by
  rw [rows, rows, ← List.reduceOption_map, ← List.reduceOption_map]
  congr 1
  apply List.ext_getElem?
  intro j
  rw [List.getElem?_map, List.getElem?_map, modifyAt, List.getElem?_modify]
  cases hj : t.cells[j]? with
  | none => rfl
  | some x =>
      by_cases hij : i = j
      · cases x with
        | none => simp [hij]
        | some x =>
            subst hij
            simp [h x.1 x.2 hj]
      · simp [hij]

namespace Valid

section

variable (h : t.Valid)
include h

theorem exists_row (hi : t.index.get? k = some i) :
    ∃ v, t.cells[i]? = some (some (k, v)) ∧ t.get? k = some v := by
  obtain ⟨v, hv⟩ := h.filled k i hi
  exact ⟨v, hv, get?_of_index hi hv⟩

theorem get?_eq_none_iff : t.get? k = none ↔ k ∉ t.index := by
  constructor
  · intro hnone hk
    obtain ⟨i, hi⟩ := (Dict.mem_iff_exists _ _).mp hk
    obtain ⟨v, -, hv⟩ := h.exists_row hi
    rw [hnone] at hv
    cases hv
  · exact get?_of_not_mem

theorem mem_index_iff : k ∈ t.index ↔ ∃ v, t.get? k = some v := by
  rw [← not_iff_not, ← h.get?_eq_none_iff, ← Option.not_isSome_iff_eq_none,
    Option.isSome_iff_exists]

theorem lt_length (hi : t.index.get? k = some i) : i < t.cells.length := by
  obtain ⟨v, hv⟩ := h.filled k i hi
  exact (List.getElem?_eq_some_iff.mp hv).1

theorem not_removed (hi : t.index.get? k = some i) : i ∉ t.removed :=
  fun hmem => (h.holes i hmem).2 k hi

theorem eq_of_index (hi : t.index.get? k = some i) (hi' : t.index.get? k' = some i) : k = k' := by
  obtain ⟨v, hv⟩ := h.filled k i hi
  obtain ⟨v', hv'⟩ := h.filled k' i hi'
  rw [hv] at hv'
  cases hv'
  rfl

theorem size_add : t.size + t.removed.length = t.cells.length :=
  Dict.length_keys_add (fun _ _ _ => h.eq_of_index)
    (fun _ _ hi => ⟨h.lt_length hi, h.not_removed hi⟩) h.covered h.nodup
    fun i hi => (h.holes i hi).1

/-! ## Removing and adding keys -/

theorem remove (k : K) : (t.remove k).Valid := by
  unfold Slots.remove
  cases hi : t.index.get? k with
  | none => exact h
  | some i =>
      have hlt := h.lt_length hi
      refine ⟨?_, ?_, ?_, ?_⟩
      · intro k' j hj
        rw [Dict.get?_erase] at hj
        split_ifs at hj with hk
        have hne : i ≠ j := by
          rintro rfl
          exact hk (h.eq_of_index hj hi)
        obtain ⟨v, hv⟩ := h.filled k' j hj
        refine ⟨v, ?_⟩
        rw [List.getElem?_set_ne hne]
        exact hv
      · intro j hj
        rw [List.length_set]
        rcases List.mem_append.mp hj with hj | hj
        · refine ⟨(h.holes j hj).1, fun k' hk' => ?_⟩
          rw [Dict.get?_erase] at hk'
          split_ifs at hk'
          exact (h.holes j hj).2 k' hk'
        · rw [List.mem_singleton] at hj
          subst hj
          refine ⟨hlt, fun k' hk' => ?_⟩
          rw [Dict.get?_erase] at hk'
          split_ifs at hk' with hk
          exact hk (h.eq_of_index hk' hi)
      · intro j hj hnot
        rw [List.length_set] at hj
        rw [List.mem_append, List.mem_singleton, not_or] at hnot
        obtain ⟨k', hk'⟩ := h.covered j hj hnot.1
        refine ⟨k', ?_⟩
        rw [Dict.get?_erase, if_neg]
        · exact hk'
        · rintro rfl
          rw [hi, Option.some.injEq] at hk'
          exact hnot.2 hk'.symm
      · rw [List.nodup_append]
        refine ⟨h.nodup, List.nodup_singleton i, ?_⟩
        intro j hj j' hj' hjj
        rw [List.mem_singleton] at hj'
        rw [hjj, hj'] at hj
        exact h.not_removed hi hj

theorem get?_remove (k k' : K) : (t.remove k).get? k' = if k' = k then none else t.get? k' := by
  unfold Slots.remove
  cases hi : t.index.get? k with
  | none =>
      dsimp only
      split_ifs with hk
      · rw [hk, get?, hi, Option.bind_none]
      · rfl
  | some i =>
      dsimp only
      split_ifs with hk
      · simp [get?, hk]
      · simp only [get?, Dict.get?_erase, if_neg hk]
        cases hj : t.index.get? k' with
        | none => rfl
        | some j =>
            have hne : i ≠ j := by
              rintro rfl
              exact hk (h.eq_of_index hj hi)
            rw [Option.bind_some, Option.bind_some, List.getElem?_set_ne hne]

theorem foldl_remove (l : List K) : (l.foldl Slots.remove t).Valid ∧
    (∀ k, (l.foldl Slots.remove t).get? k = if k ∈ l then none else t.get? k) ∧
    (l.foldl Slots.remove t).cells.length = t.cells.length := by
  induction l generalizing t with
  | nil => exact ⟨h, fun k => rfl, rfl⟩
  | cons k l ih =>
      obtain ⟨hvalid, hget, hlen⟩ := ih (h.remove k)
      have hlength : (t.remove k).cells.length = t.cells.length := by
        unfold Slots.remove
        cases t.index.get? k with
        | none => rfl
        | some i => exact List.length_set
      refine ⟨hvalid, ?_, hlen.trans hlength⟩
      intro k'
      rw [List.foldl_cons, hget, h.get?_remove]
      by_cases hk : k' = k
      · simp [hk]
      · simp [hk]

theorem nextIndex_cases : t.nextIndex ∈ t.removed ∧ t.nextIndex < t.cells.length ∨
    t.removed = [] ∧ t.nextIndex = t.cells.length := by
  unfold nextIndex
  cases hmin : t.removed.min? with
  | none =>
      have hnil : t.removed = [] := List.min?_eq_none_iff.mp hmin
      have hsize := h.size_add
      rw [hnil, List.length_nil, Nat.add_zero] at hsize
      exact Or.inr ⟨hnil, hsize⟩
  | some hole =>
      have hmem := List.min?_mem hmin
      exact Or.inl ⟨hmem, (h.holes hole hmem).1⟩

/-- There is a row for one more key among the first `n` exactly if fewer than `n` keys
are there. -/
theorem nextIndex_lt_iff {n : ℕ} (hn : t.cells.length ≤ n) : t.nextIndex < n ↔ t.size < n := by
  have hsize := h.size_add
  rcases h.nextIndex_cases with ⟨hmem, hlt⟩ | ⟨hnil, heq⟩
  · have hpos := List.length_pos_of_mem hmem
    constructor <;> intro <;> omega
  · rw [hnil, List.length_nil, Nat.add_zero] at hsize
    rw [heq, hsize]

theorem getElem?_insert (k : K) (v : V) (j : ℕ) :
    (t.insert k v).cells[j]? = if j = t.nextIndex then some (some (k, v)) else t.cells[j]? := by
  simp only [Slots.insert]
  rcases h.nextIndex_cases with ⟨-, hlt⟩ | ⟨-, heq⟩
  · rw [if_neg (Nat.ne_of_lt hlt), List.getElem?_set]
    simp only [hlt, if_true, eq_comm]
  · rw [heq, if_pos rfl, List.getElem?_append]
    rcases Nat.lt_trichotomy j t.cells.length with hj | hj | hj
    · rw [if_pos hj, if_neg (Nat.ne_of_lt hj)]
    · simp [hj]
    · rw [if_neg (Nat.lt_asymm hj), if_neg (Nat.ne_of_gt hj), List.getElem?_eq_none hj.le,
        List.getElem?_eq_none]
      rw [List.length_singleton]
      omega

theorem length_insert (k : K) (v : V) :
    (t.insert k v).cells.length = max t.cells.length (t.nextIndex + 1) := by
  simp only [Slots.insert]
  rcases h.nextIndex_cases with ⟨-, hlt⟩ | ⟨-, heq⟩
  · rw [if_neg (Nat.ne_of_lt hlt), List.length_set]
    omega
  · rw [heq, if_pos rfl, List.length_append, List.length_singleton]
    omega

theorem index_ne_nextIndex (k : K) : t.index.get? k ≠ some t.nextIndex := by
  intro hk
  rcases h.nextIndex_cases with ⟨hmem, -⟩ | ⟨-, heq⟩
  · exact h.not_removed hk hmem
  · exact absurd (h.lt_length hk) (by omega)

theorem insert (hk : k ∉ t.index) (v : V) : (t.insert k v).Valid := by
  have hnone : t.index.get? k = none := (Dict.get?_eq_none_iff _ _).mpr hk
  have hrem : ∀ j, j ∈ (t.insert k v).removed ↔ j ≠ t.nextIndex ∧ j ∈ t.removed :=
    fun j => h.nodup.mem_erase_iff
  refine ⟨?_, ?_, ?_, h.nodup.erase _⟩
  · intro k' j hj
    simp only [Slots.insert, Dict.get?_set] at hj
    rw [h.getElem?_insert]
    split_ifs at hj with hk'
    · rw [Option.some.injEq] at hj
      rw [if_pos hj.symm, hk']
      exact ⟨v, rfl⟩
    · rw [if_neg]
      · exact h.filled k' j hj
      · rintro rfl
        exact h.index_ne_nextIndex k' hj
  · intro j hj
    obtain ⟨hne, hj⟩ := (hrem j).mp hj
    obtain ⟨hlt, hfree⟩ := h.holes j hj
    refine ⟨by rw [h.length_insert]; omega, fun k' hk' => ?_⟩
    simp only [Slots.insert, Dict.get?_set] at hk'
    split_ifs at hk'
    · rw [Option.some.injEq] at hk'
      exact hne hk'.symm
    · exact hfree k' hk'
  · intro j hj hnot
    rw [hrem, not_and] at hnot
    rw [h.length_insert] at hj
    by_cases hnext : j = t.nextIndex
    · exact ⟨k, by simp [Slots.insert, hnext]⟩
    · have hlt : j < t.cells.length := by
        rcases h.nextIndex_cases with ⟨-, hlt⟩ | ⟨-, heq⟩ <;> omega
      obtain ⟨k', hk'⟩ := h.covered j hlt (hnot hnext)
      refine ⟨k', ?_⟩
      simp only [Slots.insert, Dict.get?_set]
      rw [if_neg]
      · exact hk'
      · rintro rfl
        rw [hnone] at hk'
        cases hk'

end

theorem size_insert (hk : k ∉ t.index) (v : V) : (t.insert k v).size = t.size + 1 :=
  Dict.length_keys_set hk _

variable (h : t.Valid)
include h

theorem get?_insert (k k' : K) (v : V) :
    (t.insert k v).get? k' = if k' = k then some v else t.get? k' := by
  split_ifs with hk
  · have hi : (t.insert k v).index.get? k' = some t.nextIndex := by simp [Slots.insert, hk]
    exact get?_of_index hi (by rw [h.getElem?_insert, if_pos rfl])
  · have hi : (t.insert k v).index.get? k' = t.index.get? k' := by simp [Slots.insert, hk]
    rw [get?, get?, hi]
    cases hj : t.index.get? k' with
    | none => rfl
    | some j =>
        rw [Option.bind_some, Option.bind_some, h.getElem?_insert, if_neg]
        rintro rfl
        exact h.index_ne_nextIndex k' hj

/-! ## Writing into a row -/

theorem modifyAt (i : ℕ) (f : V → V) : (t.modifyAt i f).Valid := by
  refine ⟨?_, ?_, ?_, h.nodup⟩
  · intro k j hj
    obtain ⟨v, hv⟩ := h.filled k j hj
    simp only [Slots.modifyAt, List.getElem?_modify, hv]
    by_cases hij : i = j
    · exact ⟨f v, by simp [hij]⟩
    · exact ⟨v, by simp [hij]⟩
  · intro j hj
    simp only [Slots.modifyAt, List.length_modify]
    exact h.holes j hj
  · intro j hj hnot
    simp only [Slots.modifyAt, List.length_modify] at hj
    exact h.covered j hj hnot

theorem get?_modifyAt (hi : t.index.get? k = some i) (f : V → V) (k' : K) :
    (t.modifyAt i f).get? k' = if k' = k then (t.get? k').map f else t.get? k' := by
  simp only [get?, Slots.modifyAt, List.getElem?_modify]
  cases hj : t.index.get? k' with
  | none => simp
  | some j =>
      obtain ⟨v, hv⟩ := h.filled k' j hj
      by_cases hk : k' = k
      · rw [hk, hi, Option.some.injEq] at hj
        simp [hk, hj, hv]
      · have hne : i ≠ j := by
          rintro rfl
          exact hk (h.eq_of_index hj hi)
        simp [hk, hne, hv]

/-! ## Tables without holes -/

theorem isSome_of_mem (hnil : t.removed = []) {x : Option (K × V)} (hx : x ∈ t.cells) :
    x.isSome = true := by
  obtain ⟨i, hi, rfl⟩ := List.mem_iff_getElem.mp hx
  obtain ⟨k, hk⟩ := h.covered i hi (by simp [hnil])
  obtain ⟨v, hv⟩ := h.filled k i hk
  rw [List.getElem?_eq_getElem hi, Option.some.injEq] at hv
  rw [hv]
  rfl

theorem map_some_rows (hnil : t.removed = []) : t.rows.map some = t.cells := by
  rw [rows, List.reduceOption, List.map_filterMap_some_eq_filter_map_isSome, List.map_id,
    List.filter_eq_self]
  exact fun x hx => h.isSome_of_mem hnil hx

/-- Without holes the rows are in the order of the dictionary. -/
theorem getElem?_rows (hnil : t.removed = []) (i : ℕ) (k : K) (v : V) :
    t.rows[i]? = some (k, v) ↔ t.index.get? k = some i ∧ t.get? k = some v := by
  have hrows := h.map_some_rows hnil
  have hcell : t.rows[i]? = some (k, v) ↔ t.cells[i]? = some (some (k, v)) := by
    rw [← hrows, List.getElem?_map]
    simp
  rw [hcell]
  constructor
  · intro hv
    have hlt := (List.getElem?_eq_some_iff.mp hv).1
    obtain ⟨k', hk'⟩ := h.covered i hlt (by simp [hnil])
    obtain ⟨v', hv', hget⟩ := h.exists_row hk'
    rw [hv] at hv'
    cases hv'
    exact ⟨hk', hget⟩
  · rintro ⟨hi, hget⟩
    obtain ⟨v', hv', hget'⟩ := h.exists_row hi
    rw [hget, Option.some.injEq] at hget'
    rw [hv', hget']

end Valid

/-! ## Filling the holes -/

theorem lastFilled_le (removed : List ℕ) (last : ℕ) : lastFilled removed last ≤ last := by
  induction last with
  | zero => exact le_refl _
  | succ last ih =>
      unfold lastFilled
      split_ifs
      · exact ih.trans (Nat.le_succ last)
      · exact le_refl _

theorem mem_of_lastFilled_lt {removed : List ℕ} {last : ℕ} (h : lastFilled removed last < i)
    (hi : i ≤ last) : i ∈ removed := by
  induction last with
  | zero => exact absurd (Nat.le_zero.mp hi ▸ h) (Nat.not_lt_zero _)
  | succ last ih =>
      unfold lastFilled at h
      split_ifs at h with hmem
      · rcases Nat.lt_or_eq_of_le hi with hlt | rfl
        · exact ih h (Nat.lt_succ_iff.mp hlt)
        · exact hmem
      · exact absurd hi (Nat.not_le_of_lt h)

theorem lastFilled_not_mem {removed : List ℕ} {last : ℕ} (h : 0 < lastFilled removed last) :
    lastFilled removed last ∉ removed := by
  induction last with
  | zero => cases h
  | succ last ih =>
      unfold lastFilled at h ⊢
      split_ifs at h ⊢ with hmem
      · exact ih h
      · exact hmem

/-- While the holes of `t₀` are filled: the rows after `last` are not in use any more, and
the others have a key or are holes. -/
structure Sliding (t₀ t : Slots K V) (last : ℕ) : Prop where
  kept : ∀ k i, t.index.get? k = some i → i ≤ last ∧ i ∉ t.removed ∧
    ∃ v, t.cells[i]? = some (some (k, v)) ∧ t₀.get? k = some v
  keys : ∀ k, k ∈ t.index ↔ k ∈ t₀.index
  covered : ∀ i ≤ last, i ∉ t.removed → ∃ k, t.index.get? k = some i
  nodup : t.removed.Nodup
  fits : last < t.cells.length

namespace Sliding

variable {t₀ : Slots K V} {last : ℕ}

variable (h : Sliding t₀ t last)
include h

theorem eq_of_index (hi : t.index.get? k = some i) (hi' : t.index.get? k' = some i) : k = k' := by
  obtain ⟨-, -, v, hv, -⟩ := h.kept k i hi
  obtain ⟨-, -, v', hv', -⟩ := h.kept k' i hi'
  rw [hv] at hv'
  cases hv'
  rfl

theorem skip (hpos : 0 < t.size) :
    Sliding t₀ t (lastFilled t.removed last) ∧ lastFilled t.removed last ∉ t.removed := by
  have hbound : ∀ k i, t.index.get? k = some i → i ≤ lastFilled t.removed last := by
    intro k i hi
    obtain ⟨hle, hnot, -⟩ := h.kept k i hi
    exact Nat.le_of_not_lt fun hlt => hnot (mem_of_lastFilled_lt hlt hle)
  have hle := lastFilled_le t.removed last
  refine ⟨⟨?_, h.keys, ?_, h.nodup, hle.trans_lt h.fits⟩, ?_⟩
  · intro k i hi
    obtain ⟨-, hrest⟩ := h.kept k i hi
    exact ⟨hbound k i hi, hrest⟩
  · intro i hi
    exact h.covered i (hi.trans hle)
  · rcases Nat.eq_zero_or_pos (lastFilled t.removed last) with hzero | hlast
    · -- the first row has a key, because there is one
      obtain ⟨k, hk⟩ := List.exists_mem_of_length_pos hpos
      obtain ⟨i, hi⟩ := (Dict.mem_iff_exists t.index k).mp hk
      have hi0 := hbound k i hi
      rw [hzero, Nat.le_zero] at hi0
      rw [hzero, ← hi0]
      exact (h.kept k i hi).2.1
    · exact lastFilled_not_mem hlast

theorem move {hole : ℕ} (hhole : hole ∈ t.removed) (hlt : hole < last)
    (hk : t.index.get? k = some last) (hv : t.cells[last]? = some (some (k, v)))
    (m : List (ℕ × ℕ)) :
    Sliding t₀ { t with
      cells := (t.cells.set hole (some (k, v))).set last none
      index := t.index.set k hole
      removed := t.removed.erase hole
      moved := m } (last - 1) := by
  have hrem : ∀ j, j ∈ t.removed.erase hole ↔ j ≠ hole ∧ j ∈ t.removed :=
    fun j => h.nodup.mem_erase_iff
  have hne : last ≠ hole := Nat.ne_of_gt hlt
  refine ⟨?_, ?_, ?_, h.nodup.erase _, ?_⟩
  · intro k' i hi
    dsimp only at hi ⊢
    rw [Dict.get?_set] at hi
    split_ifs at hi with hk'
    · rw [Option.some.injEq] at hi
      subst hk' hi
      obtain ⟨-, -, v', hv', hget⟩ := h.kept k' last hk
      rw [hv] at hv'
      cases hv'
      refine ⟨by omega, fun hc => ((hrem hole).mp hc).1 rfl, v, ?_, hget⟩
      rw [List.getElem?_set_ne hne, List.getElem?_set_self (hlt.trans h.fits)]
    · obtain ⟨hle, hnot, v', hv', hget⟩ := h.kept k' i hi
      have hil : i ≠ last := by
        rintro rfl
        exact hk' (h.eq_of_index hi hk)
      have hih : i ≠ hole := by
        rintro rfl
        exact hnot hhole
      refine ⟨by omega, fun hc => hnot ((hrem i).mp hc).2, v', ?_, hget⟩
      rw [List.getElem?_set_ne hil.symm, List.getElem?_set_ne hih.symm]
      exact hv'
  · intro k'
    dsimp only
    rw [Dict.mem_set, h.keys]
    refine or_iff_right_of_imp ?_
    rintro rfl
    exact (h.keys k').mp (Dict.mem_of_get? hk)
  · intro i hi hnot
    dsimp only at hnot ⊢
    rw [hrem, not_and] at hnot
    by_cases hih : i = hole
    · exact ⟨k, by rw [Dict.get?_set_self, hih]⟩
    · obtain ⟨k', hk'⟩ := h.covered i (by omega) (hnot hih)
      refine ⟨k', ?_⟩
      rw [Dict.get?_set, if_neg]
      · exact hk'
      · rintro rfl
        rw [hk, Option.some.injEq] at hk'
        omega
  · simp only [List.length_set]
    have := h.fits
    omega

/-- When all holes are behind the last row, the rows in use are the first ones. -/
theorem finish (hend : ∀ i ∈ t.removed, last < i) : t.size = last + 1 ∧
    ({ t with cells := t.cells.take t.size } : Slots K V).reset.Valid ∧
      ∀ k, ({ t with cells := t.cells.take t.size } : Slots K V).get? k = t₀.get? k := by
  have hsize : t.size + ([] : List ℕ).length = last + 1 := by
    apply Dict.length_keys_add (fun _ _ _ => h.eq_of_index)
    · intro k i hi
      exact ⟨Nat.lt_succ_of_le (h.kept k i hi).1, List.not_mem_nil⟩
    · intro i hi _
      have hi' := Nat.le_of_lt_succ hi
      exact h.covered i hi' fun hmem => absurd (hend i hmem) (Nat.not_lt_of_le hi')
    · exact List.nodup_nil
    · intro i hi
      cases hi
  rw [List.length_nil, Nat.add_zero] at hsize
  have hrow : ∀ k i, t.index.get? k = some i →
      ∃ v, (t.cells.take t.size)[i]? = some (some (k, v)) ∧ t₀.get? k = some v := by
    intro k i hi
    obtain ⟨hle, -, v, hv, hget⟩ := h.kept k i hi
    exact ⟨v, by rw [List.getElem?_take, if_pos (by omega), hv], hget⟩
  refine ⟨hsize, ⟨?_, ?_, ?_, List.nodup_nil⟩, ?_⟩
  · intro k i hi
    obtain ⟨v, hv, -⟩ := hrow k i hi
    exact ⟨v, hv⟩
  · intro i hi
    cases hi
  · intro i hi _
    simp only [reset, List.length_take] at hi
    have hi' : i ≤ last := by omega
    exact h.covered i hi' fun hmem => absurd (hend i hmem) (Nat.not_lt_of_le hi')
  · intro k
    exact get?_congr (h.keys k) (hrow k)

theorem slide (hpos : 0 < t.size) {n : ℕ} (hn : t.removed.length ≤ n) :
    ∃ t' last', slide n last t = some t' ∧ Sliding t₀ t' last' ∧ (∀ i ∈ t'.removed, last' < i) ∧
      (t.isChanged = true → t'.isChanged = true) := by
  induction n generalizing t last with
  | zero =>
      have hnil : t.removed = [] := List.length_eq_zero_iff.mp (Nat.le_zero.mp hn)
      refine ⟨t, last, rfl, h, ?_, id⟩
      intro i hi
      rw [hnil] at hi
      cases hi
  | succ n ih =>
      unfold Slots.slide
      cases hmin : t.removed.min? with
      | none =>
          rw [List.min?_eq_none_iff] at hmin
          refine ⟨t, last, rfl, h, ?_, id⟩
          intro i hi
          rw [hmin] at hi
          cases hi
      | some hole =>
          obtain ⟨hhole, hleast⟩ := List.min?_eq_some_iff.mp hmin
          obtain ⟨hskip, hnot⟩ := h.skip hpos
          dsimp only
          by_cases hle : lastFilled t.removed last ≤ hole
          · rw [if_pos hle]
            refine ⟨t, _, rfl, hskip, ?_, id⟩
            intro i hi
            refine lt_of_le_of_ne (hle.trans (hleast i hi)) ?_
            rintro heq
            exact hnot (heq ▸ hi)
          · rw [if_neg hle]
            obtain ⟨k, hk⟩ := hskip.covered _ (le_refl _) hnot
            obtain ⟨-, -, v, hv, -⟩ := hskip.kept k _ hk
            rw [hv, Option.join_some]
            dsimp only
            have hmove := hskip.move hhole (Nat.lt_of_not_le hle) hk hv
              (t.moved ++ [(lastFilled t.removed last, hole)])
            have hsize : 0 < (t.index.set k hole).keys.length := by
              rw [Dict.keys_set_of_mem _ _ _ (Dict.mem_of_get? hk)]
              exact hpos
            obtain ⟨t', last', ht', hs', hend, hch⟩ := ih hmove hsize (by
              dsimp only
              rw [List.length_erase_of_mem hhole]
              omega)
            refine ⟨t', last', ht', hs', hend, fun _ => hch ?_⟩
            simp [isChanged]

end Sliding

namespace Valid

theorem sliding (h : t.Valid) (hpos : 0 < t.cells.length) : Sliding t t (t.cells.length - 1) := by
  refine ⟨?_, fun _ => Iff.rfl, ?_, h.nodup, by omega⟩
  · intro k i hi
    have hlt := h.lt_length hi
    exact ⟨by omega, h.not_removed hi, h.exists_row hi⟩
  · intro i hi
    exact h.covered i (by omega)

/-- Condensing keeps the contents and leaves no holes. -/
theorem condense (h : t.Valid) : ∃ t', t.condense = some t' ∧ t'.reset.Valid ∧
    (∀ k, t'.get? k = t.get? k) ∧ t'.cells.length = t.size ∧
    (t'.isChanged = false → t' = t) := by
  unfold Slots.condense
  have hsize := h.size_add
  by_cases hnil : t.removed = []
  · rw [if_pos hnil]
    rw [hnil, List.length_nil, Nat.add_zero] at hsize
    refine ⟨t, rfl, ⟨h.filled, ?_, ?_, List.nodup_nil⟩, fun _ => rfl, hsize.symm, fun _ => rfl⟩
    · intro i hi
      cases hi
    · intro i hi _
      exact h.covered i hi (by simp [hnil])
  rw [if_neg hnil]
  have hchanged : t.isChanged = true := by simp [isChanged, hnil]
  by_cases hzero : t.size = 0
  · rw [if_pos hzero]
    have hnone : ∀ k, k ∉ t.index := by
      intro k hk
      rw [Dict.mem_def, List.length_eq_zero_iff.mp hzero] at hk
      cases hk
    refine ⟨_, rfl, ⟨?_, ?_, ?_, List.nodup_nil⟩, ?_, hzero.symm, ?_⟩
    · intro k i hi
      exact absurd (Dict.mem_of_get? hi) (hnone k)
    · intro i hi
      cases hi
    · intro i hi
      cases hi
    · intro k
      rw [get?_of_not_mem (hnone k), get?_of_not_mem]
      exact hnone k
    · intro hch
      rw [isChanged] at hch hchanged
      rw [hch] at hchanged
      cases hchanged
  rw [if_neg hzero, hsize]
  have hpos : 0 < t.cells.length := by omega
  obtain ⟨t', last, ht', hs', hend, hch⟩ :=
    (h.sliding hpos).slide (Nat.pos_of_ne_zero hzero) (le_refl _)
  obtain ⟨hcount, hvalid, hget⟩ := hs'.finish hend
  have hkeys : t'.size = t.size :=
    ((List.perm_ext_iff_of_nodup t'.index.nodup_keys t.index.nodup_keys).mpr hs'.keys).length_eq
  refine ⟨_, by rw [ht', Option.map_some], hvalid, hget, ?_, ?_⟩
  · have := hs'.fits
    rw [List.length_take]
    omega
  · intro hno
    have hyes := hch hchanged
    rw [isChanged] at hno hyes
    rw [hno] at hyes
    cases hyes

end Valid

end Slots

import Mathlib.Data.List.Induction
import Mathlib.Data.List.Lattice
import Mathlib.Data.List.Nodup
import Mathlib.Data.List.Pairwise
import Mathlib.Data.List.Sort

/-!
# Insertion-ordered dictionaries and sets

`Dict K V` is the dictionary of a scripting language: a finite map that is
iterated in the order in which its keys were first inserted. Overwriting a key
keeps its place, a new key goes to the end, and a removed key that comes back is
a new key. The entries carry the proof that no key occurs twice, so a lookup,
the list of keys and the iteration order never disagree. `OrderedSet α` is the
set with the same iteration order.

The lookup after an update is given by `Dict.get?_set` and `Dict.get?_erase`,
membership after an update by `OrderedSet.mem_add` and `OrderedSet.mem_discard`.
Nothing else about the list of entries is needed to reason about a program that
only reads and writes keys.
-/

theorem Option.cases_of_map_eq {α β : Type*} {f : α → β} {o o' : Option α}
    (h : o'.map f = o.map f) :
    o' = none ∧ o = none ∨ ∃ a' a, o' = some a' ∧ o = some a ∧ f a' = f a := by
  cases o with
  | none => exact Or.inl ⟨Option.map_eq_none_iff.mp h, rfl⟩
  | some a =>
      obtain ⟨a', ha', hf⟩ := Option.map_eq_some_iff.mp h
      exact Or.inr ⟨a', a, ha', rfl, hf⟩

/-- A loop in which every iteration can only add its own part to what is observed
has observed, at the end, the parts of all iterations. -/
theorem List.foldl_iff_exists_or {σ α : Type*} {f : σ → α → σ} {P : σ → Prop} {R : α → Prop}
    (l : List α) (h : ∀ s, ∀ a ∈ l, P (f s a) ↔ R a ∨ P s) (s : σ) :
    P (l.foldl f s) ↔ (∃ a ∈ l, R a) ∨ P s := by
  induction l generalizing s with
  | nil => simp
  | cons a l ih =>
      rw [List.foldl_cons, ih (fun s b hb => h s b (List.mem_cons_of_mem a hb)),
        h s a List.mem_cons_self, List.exists_mem_cons_iff, or_left_comm, or_assoc]

/-- A finite map that remembers the order in which its keys were inserted. -/
structure Dict (K V : Type*) where
  entries : List (K × V)
  nodup : (entries.map Prod.fst).Nodup

namespace Dict

variable {K V : Type*} [DecidableEq K]

def lookupEntry : List (K × V) → K → Option V
  | [], _ => none
  | (k', v) :: l, k => if k' = k then some v else lookupEntry l k

/-- Overwrite the entry of `k` in place, or append a new one. -/
def insertEntry : List (K × V) → K → V → List (K × V)
  | [], k, v => [(k, v)]
  | (k', v') :: l, k, v =>
      if k' = k then (k, v) :: l else (k', v') :: insertEntry l k v

def eraseEntry : List (K × V) → K → List (K × V)
  | [], _ => []
  | (k', v') :: l, k =>
      if k' = k then eraseEntry l k else (k', v') :: eraseEntry l k

theorem mem_keys_insertEntry (l : List (K × V)) (k k' : K) (v : V) :
    k' ∈ (insertEntry l k v).map Prod.fst ↔ k' = k ∨ k' ∈ l.map Prod.fst := by
  induction l with
  | nil => simp [insertEntry]
  | cons a l ih =>
      by_cases h : a.1 = k
      · simp [insertEntry, h]
      · simp only [insertEntry, h, if_false, List.map_cons, List.mem_cons, ih]
        tauto

theorem nodup_insertEntry (l : List (K × V)) (k : K) (v : V) (hl : (l.map Prod.fst).Nodup) :
    ((insertEntry l k v).map Prod.fst).Nodup := by
  induction l with
  | nil => simp [insertEntry]
  | cons a l ih =>
      rw [List.map_cons, List.nodup_cons] at hl
      by_cases h : a.1 = k
      · simp only [insertEntry, h, if_true, List.map_cons, List.nodup_cons]
        exact ⟨h ▸ hl.1, hl.2⟩
      · simp only [insertEntry, if_neg h, List.map_cons, List.nodup_cons]
        refine ⟨?_, ih hl.2⟩
        rw [mem_keys_insertEntry]
        rintro (hk | hk)
        · exact h hk
        · exact hl.1 hk

theorem mem_keys_eraseEntry (l : List (K × V)) (k k' : K) :
    k' ∈ (eraseEntry l k).map Prod.fst ↔ k' ≠ k ∧ k' ∈ l.map Prod.fst := by
  induction l with
  | nil => simp [eraseEntry]
  | cons a l ih =>
      by_cases h : a.1 = k
      · simp only [eraseEntry, h, if_true, ih, List.map_cons, List.mem_cons]
        tauto
      · simp only [eraseEntry, h, if_false, List.map_cons, List.mem_cons, ih]
        constructor
        · rintro (rfl | hk)
          · exact ⟨h, Or.inl rfl⟩
          · exact ⟨hk.1, Or.inr hk.2⟩
        · rintro ⟨hne, rfl | hk⟩
          · exact Or.inl rfl
          · exact Or.inr ⟨hne, hk⟩

theorem nodup_eraseEntry (l : List (K × V)) (k : K) (hl : (l.map Prod.fst).Nodup) :
    ((eraseEntry l k).map Prod.fst).Nodup := by
  induction l with
  | nil => simp [eraseEntry]
  | cons a l ih =>
      rw [List.map_cons, List.nodup_cons] at hl
      by_cases h : a.1 = k
      · simpa only [eraseEntry, h, if_true] using ih hl.2
      · simp only [eraseEntry, h, if_false, List.map_cons, List.nodup_cons,
          mem_keys_eraseEntry, not_and]
        exact ⟨fun _ => hl.1, ih hl.2⟩

theorem eraseEntry_of_not_mem {l : List (K × V)} {k : K} (h : k ∉ l.map Prod.fst) :
    eraseEntry l k = l := by
  induction l with
  | nil => rfl
  | cons a l ih =>
      rw [List.map_cons, List.mem_cons, not_or] at h
      have ha : ¬ a.1 = k := fun h' => h.1 h'.symm
      simp only [eraseEntry, ha, if_false, ih h.2]

def empty : Dict K V := ⟨[], by simp⟩

def get? (d : Dict K V) (k : K) : Option V := lookupEntry d.entries k

/-- `d[k] = v`. -/
def set (d : Dict K V) (k : K) (v : V) : Dict K V :=
  ⟨insertEntry d.entries k v, nodup_insertEntry d.entries k v d.nodup⟩

/-- `d.pop(k, None)`. -/
def erase (d : Dict K V) (k : K) : Dict K V :=
  ⟨eraseEntry d.entries k, nodup_eraseEntry d.entries k d.nodup⟩

def keys (d : Dict K V) : List K := d.entries.map Prod.fst

def values (d : Dict K V) : List V := d.entries.map Prod.snd

/-- The dictionary with every value transformed, in a way that depends on its key. -/
def mapEntries {W : Type*} (f : K → V → W) (d : Dict K V) : Dict K W :=
  ⟨d.entries.map fun x => (x.1, f x.1 x.2), by simpa [Function.comp_def] using d.nodup⟩

def mapValues {W : Type*} (f : V → W) (d : Dict K V) : Dict K W :=
  d.mapEntries fun _ => f

/-- The value under `k`, or the default of a dictionary with defaults. -/
def getD (d : Dict K V) (k : K) (v : V) : V := (d.get? k).getD v

instance : Membership K (Dict K V) := ⟨fun d k => k ∈ d.keys⟩

instance (d : Dict K V) (k : K) : Decidable (k ∈ d) :=
  inferInstanceAs (Decidable (k ∈ d.keys))

omit [DecidableEq K] in
theorem nodup_keys (d : Dict K V) : d.keys.Nodup := d.nodup

omit [DecidableEq K] in
theorem mem_def (d : Dict K V) (k : K) : k ∈ d ↔ k ∈ d.keys := Iff.rfl

@[simp] theorem get?_empty (k : K) : (empty : Dict K V).get? k = none := rfl

omit [DecidableEq K] in
@[simp] theorem keys_empty : (empty : Dict K V).keys = [] := rfl

omit [DecidableEq K] in
theorem eq_empty_of_keys {d : Dict K V} (h : d.keys = []) : d = empty := by
  obtain ⟨l, hl⟩ := d
  have hnil : l = [] := List.map_eq_nil_iff.mp h
  subst hnil
  rfl

@[simp] theorem get?_set (d : Dict K V) (k : K) (v : V) (k' : K) :
    (d.set k v).get? k' = if k' = k then some v else d.get? k' := by
  obtain ⟨l, hl⟩ := d
  change lookupEntry (insertEntry l k v) k' = if k' = k then some v else lookupEntry l k'
  clear hl
  induction l with
  | nil => simp [insertEntry, lookupEntry, eq_comm]
  | cons a l ih =>
      by_cases h : a.1 = k
      · by_cases hk : k' = k
        · simp [insertEntry, lookupEntry, h, hk]
        · have hk' : ¬ k = k' := fun h' => hk h'.symm
          simp [insertEntry, lookupEntry, h, hk, hk']
      · by_cases ha : a.1 = k'
        · have hk : ¬ k' = k := fun h' => h (ha.trans h')
          simp [insertEntry, lookupEntry, ha, hk]
        · simp only [insertEntry, lookupEntry, h, ha, if_false, ih]

@[simp] theorem get?_erase (d : Dict K V) (k k' : K) :
    (d.erase k).get? k' = if k' = k then none else d.get? k' := by
  obtain ⟨l, hl⟩ := d
  change lookupEntry (eraseEntry l k) k' = if k' = k then none else lookupEntry l k'
  clear hl
  induction l with
  | nil => simp [eraseEntry, lookupEntry]
  | cons a l ih =>
      by_cases h : a.1 = k
      · by_cases hk : k' = k
        · rw [if_pos hk] at ih
          simpa only [eraseEntry, h, if_true, hk] using hk ▸ ih
        · have hk' : ¬ k = k' := fun h' => hk h'.symm
          simp [eraseEntry, lookupEntry, h, ih, hk, hk']
      · by_cases ha : a.1 = k'
        · have hk : ¬ k' = k := fun h' => h (ha.trans h')
          simp [eraseEntry, lookupEntry, ha, hk]
        · simp only [eraseEntry, lookupEntry, h, ha, if_false, ih]

theorem get?_set_self (d : Dict K V) (k : K) (v : V) : (d.set k v).get? k = some v := by
  rw [get?_set, if_pos rfl]

theorem get?_set_cases {d : Dict K V} {k k' : K} {v w : V} (h : (d.set k v).get? k' = some w) :
    k' = k ∧ w = v ∨ k' ≠ k ∧ d.get? k' = some w := by
  rw [get?_set] at h
  split_ifs at h with hk
  · exact Or.inl ⟨hk, (Option.some.inj h).symm⟩
  · exact Or.inr ⟨hk, h⟩

theorem get?_erase_cases {d : Dict K V} {k k' : K} {w : V} (h : (d.erase k).get? k' = some w) :
    k' ≠ k ∧ d.get? k' = some w := by
  rw [get?_erase] at h
  split_ifs at h with hk
  exact ⟨hk, h⟩

theorem get?_set_set (d : Dict K V) (k : K) (v w : V) (k' : K) :
    ((d.set k v).set k w).get? k' = if k' = k then some w else d.get? k' := by
  rw [get?_set, get?_set]
  split_ifs <;> rfl

@[simp] theorem getD_empty (k : K) (w : V) : (empty : Dict K V).getD k w = w := rfl

@[simp] theorem getD_set (d : Dict K V) (k : K) (v : V) (k' : K) (w : V) :
    (d.set k v).getD k' w = if k' = k then v else d.getD k' w := by
  unfold getD
  rw [get?_set]
  split_ifs <;> rfl

theorem getD_of_get? {d : Dict K V} {k : K} {v : V} (h : d.get? k = some v) (w : V) :
    d.getD k w = v := by
  rw [getD, h, Option.getD_some]

theorem get?_eq_none_iff (d : Dict K V) (k : K) : d.get? k = none ↔ k ∉ d := by
  obtain ⟨l, hl⟩ := d
  change lookupEntry l k = none ↔ k ∉ l.map Prod.fst
  clear hl
  induction l with
  | nil => simp [lookupEntry]
  | cons a l ih =>
      by_cases h : a.1 = k
      · simp [lookupEntry, h]
      · have h' : ¬ k = a.1 := fun h' => h h'.symm
        simp only [lookupEntry, h, if_false, ih, List.map_cons, List.mem_cons, h',
          false_or]

theorem mem_iff_exists (d : Dict K V) (k : K) : k ∈ d ↔ ∃ v, d.get? k = some v := by
  rw [← Option.isSome_iff_exists, Option.isSome_iff_ne_none, Ne, get?_eq_none_iff,
    not_not]

theorem mem_of_get? {d : Dict K V} {k : K} {v : V} (h : d.get? k = some v) : k ∈ d :=
  (mem_iff_exists d k).mpr ⟨v, h⟩

@[simp] theorem mem_set (d : Dict K V) (k k' : K) (v : V) :
    k' ∈ d.set k v ↔ k' = k ∨ k' ∈ d :=
  mem_keys_insertEntry d.entries k k' v

@[simp] theorem mem_erase (d : Dict K V) (k k' : K) :
    k' ∈ d.erase k ↔ k' ≠ k ∧ k' ∈ d :=
  mem_keys_eraseEntry d.entries k k'

omit [DecidableEq K] in
@[simp] theorem not_mem_empty (k : K) : k ∉ (empty : Dict K V) := by
  simp [mem_def]

theorem keys_set_of_mem (d : Dict K V) (k : K) (v : V) (h : k ∈ d) :
    (d.set k v).keys = d.keys := by
  obtain ⟨l, hl⟩ := d
  change k ∈ l.map Prod.fst at h
  change (insertEntry l k v).map Prod.fst = l.map Prod.fst
  clear hl
  induction l with
  | nil => simp at h
  | cons a l ih =>
      by_cases ha : a.1 = k
      · simp [insertEntry, ha]
      · have hk : ¬ k = a.1 := fun h' => ha h'.symm
        rw [List.map_cons, List.mem_cons, or_iff_right hk] at h
        simp only [insertEntry, ha, if_false, List.map_cons, ih h]

theorem keys_set_set_of_mem (d : Dict K V) (k : K) (v w : V) (h : k ∈ d) :
    ((d.set k v).set k w).keys = d.keys := by
  rw [keys_set_of_mem _ k w ((mem_set d k k v).mpr (Or.inl rfl)), keys_set_of_mem d k v h]

omit [DecidableEq K] in
@[simp] theorem keys_mapValues {W : Type*} (f : V → W) (d : Dict K V) :
    (d.mapValues f).keys = d.keys := by
  simp [keys, mapValues, mapEntries, Function.comp_def]

@[simp] theorem get?_mapEntries {W : Type*} (f : K → V → W) (d : Dict K V) (k : K) :
    (d.mapEntries f).get? k = (d.get? k).map (f k) := by
  obtain ⟨l, hl⟩ := d
  change lookupEntry (l.map fun x => (x.1, f x.1 x.2)) k = (lookupEntry l k).map (f k)
  clear hl
  induction l with
  | nil => rfl
  | cons a l ih =>
      by_cases h : a.1 = k
      · simp [lookupEntry, h]
      · simp only [List.map_cons, lookupEntry, h, if_false, ih]

@[simp] theorem get?_mapValues {W : Type*} (f : V → W) (d : Dict K V) (k : K) :
    (d.mapValues f).get? k = (d.get? k).map f :=
  get?_mapEntries (fun _ => f) d k

omit [DecidableEq K] in
@[simp] theorem keys_mapEntries {W : Type*} (f : K → V → W) (d : Dict K V) :
    (d.mapEntries f).keys = d.keys := by
  simp [keys, mapEntries, Function.comp_def]

theorem set_mapEntries {W : Type*} {f g : K → V → W} {d : Dict K V} {k : K} {v : V}
    (hk : d.get? k = some v) (hfg : ∀ k', k' ≠ k → g k' = f k') :
    (d.mapEntries f).set k (g k v) = d.mapEntries g := by
  obtain ⟨l, hl⟩ := d
  change lookupEntry l k = some v at hk
  simp only [mapEntries, set, mk.injEq]
  induction l with
  | nil => cases hk
  | cons a l ih =>
      rw [List.map_cons, List.nodup_cons] at hl
      by_cases ha : a.1 = k
      · subst ha
        simp only [lookupEntry, if_true, Option.some.injEq] at hk
        simp only [List.map_cons, insertEntry, if_true, hk, List.cons.injEq, true_and]
        apply List.map_congr_left
        intro b hb
        rw [hfg b.1 fun hba => hl.1 (hba ▸ List.mem_map_of_mem (f := Prod.fst) hb)]
      · simp only [lookupEntry, ha, if_false] at hk
        simp only [List.map_cons, insertEntry, ha, if_false, hfg a.1 ha, ih hl.2 hk]

theorem values_set_perm (d : Dict K V) (k : K) (v : V) :
    (d.set k v).values.Perm (v :: (d.erase k).values) := by
  obtain ⟨l, hl⟩ := d
  change ((insertEntry l k v).map Prod.snd).Perm (v :: (eraseEntry l k).map Prod.snd)
  induction l with
  | nil => exact List.Perm.refl _
  | cons a l ih =>
      rw [List.map_cons, List.nodup_cons] at hl
      by_cases h : a.1 = k
      · have hsame : eraseEntry l k = l := eraseEntry_of_not_mem (h ▸ hl.1)
        simp only [insertEntry, eraseEntry, h, if_true, hsame, List.map_cons]
        exact List.Perm.refl _
      · simp only [insertEntry, eraseEntry, h, if_false, List.map_cons]
        exact ((ih hl.2).cons a.2).trans (List.Perm.swap v a.2 _)

theorem values_perm_erase {d : Dict K V} {k : K} {v : V} (h : d.get? k = some v) :
    d.values.Perm (v :: (d.erase k).values) := by
  obtain ⟨l, hl⟩ := d
  change lookupEntry l k = some v at h
  change (l.map Prod.snd).Perm (v :: (eraseEntry l k).map Prod.snd)
  induction l with
  | nil => cases h
  | cons a l ih =>
      rw [List.map_cons, List.nodup_cons] at hl
      by_cases ha : a.1 = k
      · have hsame : eraseEntry l k = l := eraseEntry_of_not_mem (ha ▸ hl.1)
        simp only [lookupEntry, ha, if_true, Option.some.injEq] at h
        simp only [eraseEntry, ha, if_true, hsame, List.map_cons, h]
        exact List.Perm.refl _
      · simp only [lookupEntry, ha, if_false] at h
        simp only [eraseEntry, ha, if_false, List.map_cons]
        exact ((ih hl.2 h).cons a.2).trans (List.Perm.swap v a.2 _)

theorem erase_of_not_mem {d : Dict K V} {k : K} (h : k ∉ d) : d.erase k = d := by
  obtain ⟨l, hl⟩ := d
  simp only [erase, mk.injEq]
  exact eraseEntry_of_not_mem h

/-- What the lists of a dictionary hold together, split at one key. -/
theorem flatten_values_perm (d : Dict K (List V)) (k : K) :
    d.values.flatten.Perm (d.getD k [] ++ (d.erase k).values.flatten) := by
  cases h : d.get? k with
  | none =>
      rw [erase_of_not_mem ((get?_eq_none_iff d k).mp h), getD, h]
      exact List.Perm.refl _
  | some v =>
      rw [getD_of_get? h]
      exact (values_perm_erase h).flatten

theorem flatten_values_set_perm (d : Dict K (List V)) (k : K) (v : List V) :
    (d.set k v).values.flatten.Perm (v ++ (d.erase k).values.flatten) :=
  (values_set_perm d k v).flatten

theorem get?_of_mem_entries {d : Dict K V} {k : K} {v : V}
    (h : (k, v) ∈ d.entries) : d.get? k = some v := by
  obtain ⟨l, hl⟩ := d
  change (k, v) ∈ l at h
  change lookupEntry l k = some v
  induction l with
  | nil => simp at h
  | cons a l ih =>
      rw [List.map_cons, List.nodup_cons] at hl
      rcases List.mem_cons.mp h with rfl | hmem
      · simp [lookupEntry]
      · have hne : ¬ a.1 = k := by
          intro hk
          exact hl.1 (hk ▸ List.mem_map_of_mem (f := Prod.fst) hmem)
        simp only [lookupEntry, hne, if_false]
        exact ih hl.2 hmem

theorem mem_entries_iff (d : Dict K V) (k : K) (v : V) :
    (k, v) ∈ d.entries ↔ d.get? k = some v := by
  constructor
  · exact get?_of_mem_entries
  · intro h
    obtain ⟨⟨k', v'⟩, hmem, rfl⟩ := List.mem_map.mp (mem_of_get? h)
    have := get?_of_mem_entries hmem
    rw [h] at this
    cases this
    exact hmem

theorem mapEntries_congr {W : Type*} {f g : K → V → W} {d : Dict K V}
    (h : ∀ k v, d.get? k = some v → f k v = g k v) : d.mapEntries f = d.mapEntries g := by
  simp only [mapEntries, mk.injEq]
  apply List.map_congr_left
  rintro ⟨k, v⟩ hx
  rw [h k v (get?_of_mem_entries hx)]

omit [DecidableEq K] in
theorem mapEntries_eq_self (d : Dict K V) : (d.mapEntries fun _ v => v) = d := by
  simp [mapEntries]

theorem values_eq_map_getD (d : Dict K V) (v : V) : d.values = d.keys.map fun k => d.getD k v := by
  unfold values keys
  rw [List.map_map]
  apply List.map_congr_left
  rintro ⟨k, w⟩ hmem
  exact (getD_of_get? ((d.mem_entries_iff k w).mp hmem) v).symm

/-- Membership in a dictionary is decided by any image of the lookup. -/
theorem mem_iff_of_map_eq {W : Type*} {d d' : Dict K V} {f : V → W} {k : K}
    (h : (d'.get? k).map f = (d.get? k).map f) : k ∈ d' ↔ k ∈ d := by
  have hnone : d'.get? k = none ↔ d.get? k = none := by
    rw [← Option.map_eq_none_iff (f := f), h, Option.map_eq_none_iff]
  rw [get?_eq_none_iff, get?_eq_none_iff] at hnone
  exact not_iff_not.mp hnone

theorem exists_of_map_eq {W : Type*} {d d' : Dict K V} {f : V → W} {k : K} {v : V}
    (h : (d'.get? k).map f = (d.get? k).map f) (hv : d'.get? k = some v) :
    ∃ w, d.get? k = some w ∧ f v = f w := by
  rw [hv, Option.map_some] at h
  obtain ⟨w, hw, hfw⟩ := Option.map_eq_some_iff.mp h.symm
  exact ⟨w, hw, hfw.symm⟩

/-! ## Dictionaries of lists -/

section Lists

variable {d : Dict K (List V)} {k k' : K} {v : V}

theorem mem_of_getD_ne_nil (h : d.getD k [] ≠ []) : k ∈ d := by
  by_contra hno
  rw [getD, (get?_eq_none_iff _ _).mpr hno] at h
  exact h rfl

theorem nodup_getD (hnodup : d.values.flatten.Nodup) (hk : k ∈ d) : (d.getD k []).Nodup := by
  rw [values_eq_map_getD _ [], List.nodup_flatten] at hnodup
  exact hnodup.1 _ (List.mem_map_of_mem hk)

theorem eq_of_mem_getD (hnodup : d.values.flatten.Nodup) (hv : v ∈ d.getD k [])
    (hv' : v ∈ d.getD k' []) : k = k' := by
  have hmem : ∀ {n}, v ∈ d.getD n [] → n ∈ d.keys :=
    fun hn => mem_of_getD_ne_nil (List.ne_nil_of_mem hn)
  rw [values_eq_map_getD _ [], List.nodup_flatten, List.pairwise_map] at hnodup
  by_contra hne
  have hsymm : Std.Symm fun x y : K => (d.getD x []).Disjoint (d.getD y []) :=
    ⟨fun _ _ h => h.symm⟩
  exact hnodup.2.forall (hmem hv) (hmem hv') hne hv hv'

theorem mem_flatten_of_mem_getD (hv : v ∈ d.getD k []) : v ∈ d.values.flatten := by
  unfold getD at hv
  cases hk : d.get? k with
  | none =>
      rw [hk] at hv
      cases hv
  | some vs =>
      rw [hk] at hv
      exact List.mem_flatten.mpr
        ⟨vs, List.mem_map.mpr ⟨(k, vs), (mem_entries_iff _ _ _).mpr hk, rfl⟩, hv⟩

theorem exists_mem_getD_of_mem_flatten (hv : v ∈ d.values.flatten) :
    ∃ k ∈ d, v ∈ d.getD k [] := by
  obtain ⟨vs, hvs, hv⟩ := List.mem_flatten.mp hv
  obtain ⟨⟨k, vs⟩, hk, rfl⟩ := List.mem_map.mp hvs
  have hget := (mem_entries_iff _ _ _).mp hk
  exact ⟨k, mem_of_get? hget, by rwa [getD_of_get? hget]⟩

end Lists

/-! ## Assignments in a loop -/

section Fold

variable {α : Type*} (f : α → K) (g : α → V)

theorem mem_foldl_set (l : List α) (d : Dict K V) (k : K) :
    k ∈ l.foldl (fun d x => d.set (f x) (g x)) d ↔ k ∈ l.map f ∨ k ∈ d := by
  rw [List.foldl_iff_exists_or (P := fun d => k ∈ d) l fun d a _ => mem_set d (f a) k (g a)]
  simp only [List.mem_map, eq_comm]

theorem get?_foldl_set_of_not_mem (l : List α) (d : Dict K V) {k : K} (hk : k ∉ l.map f) :
    (l.foldl (fun d x => d.set (f x) (g x)) d).get? k = d.get? k := by
  induction l generalizing d with
  | nil => rfl
  | cons a l ih =>
      rw [List.map_cons, List.mem_cons, not_or] at hk
      rw [List.foldl_cons, ih _ hk.2, get?_set, if_neg hk.1]

/-- A value that is given by its key may be assigned several times. -/
theorem get?_foldl_set (v : K → V) (l : List K) (d : Dict K V) (k : K) :
    (l.foldl (fun d a => d.set a (v a)) d).get? k = if k ∈ l then some (v k) else d.get? k := by
  induction l generalizing d with
  | nil => simp
  | cons a l ih =>
      rw [List.foldl_cons, ih, get?_set]
      by_cases hk : k = a
      · simp [hk]
      · simp [hk]

theorem get?_foldl_set_of_mem (l : List α) (d : Dict K V) (hl : (l.map f).Nodup) {a : α}
    (ha : a ∈ l) : (l.foldl (fun d x => d.set (f x) (g x)) d).get? (f a) = some (g a) := by
  induction l generalizing d with
  | nil => simp at ha
  | cons b l ih =>
      rw [List.map_cons, List.nodup_cons] at hl
      rw [List.foldl_cons]
      rcases List.mem_cons.mp ha with rfl | ha
      · rw [get?_foldl_set_of_not_mem f g l _ hl.1, get?_set, if_pos rfl]
      · exact ih _ hl.2 ha

end Fold

theorem get?_foldl_erase (l : List K) (d : Dict K V) (k : K) :
    (l.foldl erase d).get? k = if k ∈ l then none else d.get? k := by
  induction l generalizing d with
  | nil => rfl
  | cons k' l ih =>
      rw [List.foldl_cons, ih, get?_erase]
      by_cases hk : k = k'
      · simp [hk]
      · simp [hk]

/-! ## Groups -/

section Groups

variable {α : Type*} (key : α → K)

/-- The elements of a list under their keys, each group in the order of the list. -/
def groupBy (l : List α) : Dict K (List α) :=
  l.foldl (fun d a => d.set (key a) (d.getD (key a) [] ++ [a])) empty

theorem groupBy_concat (l : List α) (a : α) : groupBy key (l ++ [a]) =
    (groupBy key l).set (key a) ((groupBy key l).getD (key a) [] ++ [a]) := by
  rw [groupBy, List.foldl_append]
  rfl

theorem getD_groupBy (l : List α) (k : K) :
    (groupBy key l).getD k [] = l.filter (key · = k) := by
  induction l using List.reverseRecOn with
  | nil => rfl
  | append_singleton l a ih =>
      rw [groupBy_concat, getD_set, List.filter_append]
      by_cases hk : k = key a
      · subst hk
        simp [ih]
      · simp [hk, Ne.symm hk, ih]

theorem mem_groupBy (l : List α) (k : K) : k ∈ groupBy key l ↔ ∃ a ∈ l, key a = k := by
  induction l using List.reverseRecOn with
  | nil => simp [groupBy]
  | append_singleton l a ih =>
      rw [groupBy_concat, mem_set, ih]
      simp [or_and_right, exists_or, or_comm, eq_comm]

theorem flatten_groupBy_perm (l : List α) : (groupBy key l).values.flatten.Perm l := by
  induction l using List.reverseRecOn with
  | nil => exact List.Perm.refl _
  | append_singleton l a ih =>
      rw [groupBy_concat]
      refine (flatten_values_set_perm _ _ _).trans ?_
      rw [List.append_assoc]
      refine (List.perm_append_comm_assoc _ _ _).trans (List.perm_append_comm.trans ?_)
      exact ((flatten_values_perm _ (key a)).symm.trans ih).append_right [a]

end Groups

end Dict

/-- A finite set that remembers the order in which its elements were added. -/
structure OrderedSet (α : Type*) where
  items : List α
  nodup : items.Nodup

namespace OrderedSet

variable {α : Type*} [DecidableEq α]

instance : Membership α (OrderedSet α) := ⟨fun s a => a ∈ s.items⟩

instance (s : OrderedSet α) (a : α) : Decidable (a ∈ s) :=
  inferInstanceAs (Decidable (a ∈ s.items))

omit [DecidableEq α] in
theorem mem_def (s : OrderedSet α) (a : α) : a ∈ s ↔ a ∈ s.items := Iff.rfl

def empty : OrderedSet α := ⟨[], List.nodup_nil⟩

def add (s : OrderedSet α) (a : α) : OrderedSet α :=
  if h : a ∈ s.items then s
  else ⟨s.items ++ [a], by
    rw [List.nodup_append]
    exact ⟨s.nodup, List.nodup_singleton a, by
      intro x hx y hy hxy
      rw [List.mem_singleton] at hy
      exact h (hy ▸ hxy ▸ hx)⟩⟩

def discard (s : OrderedSet α) (a : α) : OrderedSet α :=
  ⟨s.items.erase a, s.nodup.erase a⟩

/-- The set of the elements of a list, in order of first occurrence. -/
def ofList (l : List α) : OrderedSet α := l.foldl add empty

def isEmpty (s : OrderedSet α) : Bool := s.items.isEmpty

omit [DecidableEq α] in
@[simp] theorem not_mem_empty (a : α) : a ∉ (empty : OrderedSet α) := by
  simp [mem_def, empty]

@[simp] theorem mem_add (s : OrderedSet α) (a b : α) : b ∈ s.add a ↔ b = a ∨ b ∈ s := by
  unfold add
  split_ifs with h
  · constructor
    · exact Or.inr
    · rintro (rfl | hb)
      · exact h
      · exact hb
  · simp only [mem_def, List.mem_append, List.mem_singleton]
    tauto

@[simp] theorem mem_discard (s : OrderedSet α) (a b : α) :
    b ∈ s.discard a ↔ b ≠ a ∧ b ∈ s :=
  s.nodup.mem_erase_iff

theorem mem_foldl_add (l : List α) (s : OrderedSet α) (b : α) :
    b ∈ l.foldl add s ↔ b ∈ l ∨ b ∈ s := by
  rw [List.foldl_iff_exists_or (P := fun s => b ∈ s) l fun s a _ => mem_add s a b]
  simp

omit [DecidableEq α] in
theorem isEmpty_iff (s : OrderedSet α) : s.isEmpty = true ↔ ∀ a, a ∉ s := by
  rw [isEmpty, List.isEmpty_iff, List.eq_nil_iff_forall_not_mem]
  exact Iff.rfl

omit [DecidableEq α] in
theorem isEmpty_eq_false_iff {s : OrderedSet α} : s.isEmpty = false ↔ ∃ a, a ∈ s := by
  rw [Bool.eq_false_iff, ne_eq, isEmpty_iff, not_forall_not]

omit [DecidableEq α] in
theorem items_eq_singleton {s : OrderedSet α} {a : α} (h : ∀ b, b ∈ s ↔ b = a) :
    s.items = [a] := by
  apply List.perm_singleton.mp
  rw [List.perm_ext_iff_of_nodup s.nodup (List.nodup_singleton a)]
  intro b
  rw [List.mem_singleton, ← mem_def, h]

omit [DecidableEq α] in
theorem items_eq_nil {s : OrderedSet α} (h : ∀ a, a ∉ s) : s.items = [] :=
  List.eq_nil_iff_forall_not_mem.mpr h

end OrderedSet

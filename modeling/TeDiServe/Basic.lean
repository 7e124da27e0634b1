import TeDiServe.Library.Dict
import TeDiServe.Library.Outcome
import Mathlib.Algebra.GroupWithZero.Nat
import Mathlib.Data.Rat.Defs
import Mathlib.Algebra.Order.Ring.Rat
import Mathlib.Order.WithBot

/-!
# Identifiers, exceptions and indexing

Request ids are the strings of the front end and executor ids are the small
integers handed out by the resource manager; the scheduler only compares them.
Latencies, thresholds, predictions and clock readings are rationals, the exact
values of the floats that the code compares. A Python exception is a value of
`PyError`, and a dictionary lookup that fails names the dictionary.
-/

namespace TeDiServe

export Except (ensures_ok ensures_pure ensures_error ensures_throw ensures_bind ensures_of_ok
  ensures_of_error exists_of_ensures ok_bind error_bind bind_eq_ok ensures_any ensures_bind_ok
  ensures_bind_any ensures_foldlM ensures_foldlM_rest ensures_mapM mapM_eq_ok ensures_mapM_mem)

abbrev ReqId := String

abbrev ExecutorId := ℕ

abbrev Token := ℕ

/-- The dictionaries whose subscription may raise a `KeyError`. -/
inductive Table where
  | requests
  | requestStates
  | deferredRequestStates
  | executorStates
  | executors
  | waitingToBeKilled
  | kvCacheManagers
  | reqToTokensNeeded
  | predNumStepsLeft
  | latencyProfiles
  | throughputSupply
  | numScheduledTokens
  | execStartPos
  | reqToNewBlockIds
  | reqIdToIndex
  | confidenceThresholds
  | cachedRequests
  | schedulerOutputs
  | backgroundTasks
  | bundleToNode
  deriving DecidableEq, Repr

inductive PyError where
  | assertion
  | zeroDivision
  | key (d : Table)
  | index
  | type
  | value
  | attribute
  | unboundLocal
  | runtime
  deriving DecidableEq, Repr

/-- `d[k]`, which raises a `KeyError` on an absent key. -/
def subscript {K V : Type} [DecidableEq K] (d : Dict K V) (t : Table) (k : K) :
    Except PyError V :=
  match d.get? k with
  | some v => .ok v
  | none => .error (.key t)

def pyAssert (b : Bool) : Except PyError Unit :=
  if b then .ok () else .error .assertion

def pyMax : List ℕ → Except PyError ℕ
  | [] => .error .value
  | n :: ns => .ok (ns.foldl max n)

/-- `sorted(l, key=key)`: the keys are computed first and the sort is stable. -/
def sortedByKey {α β : Type} [LinearOrder β] (key : α → Except PyError β) (l : List α) :
    Except PyError (List α) := do
  let ks ← l.mapM key
  pure (((ks.zip l).insertionSort fun x y => x.1 ≤ y.1).map Prod.snd)

/-- `l[:n]` with the negative indices of Python. -/
def sliceTo {α : Type} (l : List α) (n : ℤ) : List α :=
  l.take (if 0 ≤ n then n.toNat else l.length - n.natAbs)

def slice {α : Type} (l : List α) (i j : ℤ) : List α :=
  let clamp := fun k : ℤ => if 0 ≤ k then k.toNat else l.length - k.natAbs
  (l.take (clamp j)).drop (clamp i)

def setItem {α : Type} (l : List α) (i : ℤ) (v : α) : Except PyError (List α) :=
  if 0 ≤ i ∧ i < l.length then .ok (l.set i.toNat v)
  else if i < 0 ∧ 0 ≤ i + l.length then .ok (l.set (i + l.length).toNat v)
  else .error .index

theorem ensures_subscript {K V : Type} [DecidableEq K] (d : Dict K V) (t : Table) (k : K)
    (E : PyError → Prop) (Q : V → Prop) :
    (subscript d t k).Ensures E Q ↔
      (∀ v, d.get? k = some v → Q v) ∧ (d.get? k = none → E (.key t)) := by
  unfold subscript
  cases h : d.get? k with
  | none => simp
  | some v => simp

theorem subscript_of_get? {K V : Type} [DecidableEq K] {d : Dict K V} {k : K} {v : V}
    (t : Table) (h : d.get? k = some v) : subscript d t k = .ok v := by
  simp [subscript, h]

@[simp] theorem ensures_pyAssert (b : Bool) (E : PyError → Prop) (Q : Unit → Prop) :
    (pyAssert b).Ensures E Q ↔ (b = true → Q ()) ∧ (b = false → E .assertion) := by
  cases b <;> simp [pyAssert]

theorem ensures_pyMax (l : List ℕ) :
    (pyMax l).Ensures (fun e => e = .value ∧ l = []) fun _ => l ≠ [] := by
  cases l <;> simp [pyMax]

/-- Sorting permutes the list, and raises only what the key raises. -/
theorem ensures_sortedByKey {α β : Type} [LinearOrder β] {key : α → Except PyError β}
    {E : PyError → Prop} (l : List α) (hkey : ∀ a ∈ l, (key a).Ensures E fun _ => True) :
    (sortedByKey key l).Ensures E fun l' => l'.Perm l := by
  unfold sortedByKey
  refine (ensures_mapM l hkey).bind fun ks hks => ?_
  rw [ensures_pure]
  have hlen : l.length ≤ ks.length := hks.length_eq.le
  have hperm := (List.perm_insertionSort (fun x y : β × α => x.1 ≤ y.1) (ks.zip l)).map Prod.snd
  rwa [List.map_snd_zip hlen] at hperm

theorem ensures_sortedByKey_sorted {α β : Type} [LinearOrder β] {key : α → Except PyError β}
    {E : PyError → Prop} (l : List α) (hkey : ∀ a ∈ l, (key a).Ensures E fun _ => True) :
    (sortedByKey key l).Ensures E fun l' =>
      l'.Pairwise fun a b => ∀ k k', key a = .ok k → key b = .ok k' → k ≤ k' := by
  have hval : ∀ a ∈ l, (key a).Ensures E fun k => key a = .ok k := by
    intro a ha
    have h := hkey a ha
    cases hk : key a with
    | ok k => rfl
    | error err =>
        rw [hk] at h
        exact h
  unfold sortedByKey
  refine (ensures_mapM l hval).bind fun ks hks => ?_
  rw [ensures_pure, List.pairwise_map]
  have hzip : ∀ x ∈ ks.zip l, key x.2 = .ok x.1 := by
    intro x hx
    clear hkey hval
    induction hks with
    | nil => cases hx
    | cons hab _ ih =>
        rw [List.zip_cons_cons] at hx
        rcases List.mem_cons.mp hx with rfl | hx
        · exact hab
        · exact ih hx
  have hsorted := List.pairwise_insertionSort (fun x y : β × α => x.1 ≤ y.1) (ks.zip l)
  refine hsorted.imp_of_mem fun {x y} hx hy hxy k k' hk hk' => ?_
  rw [List.mem_insertionSort] at hx hy
  rw [hzip x hx, Except.ok.injEq] at hk
  rw [hzip y hy, Except.ok.injEq] at hk'
  rw [← hk, ← hk']
  exact hxy

theorem sortedByKey_ok {α β : Type} [LinearOrder β] (key : α → β) (l : List α) :
    sortedByKey (fun a => .ok (key a)) l = .ok (l.insertionSort fun a b => key a ≤ key b) := by
  have hzip : (l.map key).zip l = l.map fun a => (key a, a) := by
    induction l with
    | nil => rfl
    | cons a l ih => rw [List.map_cons, List.zip_cons_cons, ih, List.map_cons]
  have hkeys : l.mapM (fun a => (.ok (key a) : Except PyError β)) = .ok (l.map key) :=
    List.mapM_pure
  have hsort := List.map_insertionSort (fun a b : α => key a ≤ key b)
    (fun x y : β × α => x.1 ≤ y.1) (fun a => (key a, a)) l fun _ _ _ _ => Iff.rfl
  unfold sortedByKey
  rw [hkeys]
  change Except.ok _ = _
  rw [hzip, ← hsort, List.map_map]
  exact congrArg Except.ok (List.map_id _)

theorem slice_map {α β : Type} (f : α → β) (l : List α) (a b : ℤ) :
    slice (l.map f) a b = (slice l a b).map f := by
  simp only [slice, List.length_map, List.map_drop, List.map_take]

theorem slice_natCast {α : Type} (l : List α) (i j : ℕ) :
    slice l (i : ℤ) (j : ℤ) = (l.take j).drop i := by
  simp [slice]

theorem setItem_of_lt {α : Type} (l : List α) (i : ℕ) (v : α) (h : i < l.length) :
    setItem l (i : ℤ) v = .ok (l.set i v) := by
  simp [setItem, h]

theorem ensures_setItem_length {α : Type} (l : List α) (i : ℤ) (v : α) :
    (setItem l i v).Ensures (fun e => e = .index) fun l' => l'.length = l.length := by
  unfold setItem
  split_ifs <;> simp

end TeDiServe

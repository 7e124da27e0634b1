import Mathlib.Algebra.GroupWithZero.Nat
import Mathlib.Data.List.Nodup
import Mathlib.Logic.Relation
import Mathlib.Algebra.BigOperators.Group.List.Basic

/-!
# Connected components by breadth-first search

`search` walks over the unvisited neighbours of a queue, `components` starts a
search at every node that no earlier search has visited. A search is given as many
steps as there are edges, and one more for its first node. For a symmetric
neighbourhood relation the results are the connected components of the nodes.
-/

namespace Components

variable {α : Type} [DecidableEq α]

/-- One search: `seen` are the nodes of earlier searches, `comp` those of this one.
The first argument of the recursion bounds the number of steps. -/
def search (adj : α → List α) (seen : List α) : ℕ → List α → List α → List α
  | 0, _, comp => comp
  | _ + 1, [], comp => comp
  | n + 1, u :: queue, comp =>
      if u ∈ seen ++ comp then search adj seen n queue comp
      else search adj seen n (queue ++ (adj u).filter (· ∉ seen ++ (comp ++ [u]))) (comp ++ [u])

def components (adj : α → List α) (fuel : ℕ) : List α → List α → List (List α)
  | _, [] => []
  | seen, node :: nodes =>
      if node ∈ seen then components adj fuel seen nodes
      else
        search adj seen fuel [node] [] ::
          components adj fuel (seen ++ search adj seen fuel [node] []) nodes

/-- The number of edges at nodes that have not been visited. -/
def load (adj : α → List α) (nodes visited : List α) : ℕ :=
  ((nodes.filter (· ∉ visited)).map fun u => (adj u).length).sum

def componentsOf (adj : α → List α) (nodes : List α) : List (List α) :=
  components adj (load adj nodes [] + 1) [] nodes

theorem load_cons (adj : α → List α) (a : α) (nodes visited : List α) :
    load adj (a :: nodes) visited =
      (if a ∈ visited then 0 else (adj a).length) + load adj nodes visited := by
  unfold load
  by_cases ha : a ∈ visited <;> simp [ha]

theorem load_anti (adj : α → List α) (nodes : List α) {visited visited' : List α}
    (h : visited ⊆ visited') : load adj nodes visited' ≤ load adj nodes visited := by
  induction nodes with
  | nil => simp [load]
  | cons a nodes ih =>
      rw [load_cons, load_cons]
      by_cases ha : a ∈ visited
      · simp [ha, h ha, ih]
      · rw [if_neg ha]
        split_ifs <;> omega

theorem load_visit (adj : α → List α) {nodes visited : List α} {u : α} (hu : u ∈ nodes)
    (hnot : u ∉ visited) :
    load adj nodes (visited ++ [u]) + (adj u).length ≤ load adj nodes visited := by
  induction nodes with
  | nil => simp at hu
  | cons a nodes ih =>
      rw [load_cons, load_cons]
      by_cases ha : a = u
      · subst ha
        have hrest := load_anti adj nodes (List.subset_append_left visited [a])
        rw [if_pos (by simp), if_neg hnot]
        omega
      · have hrest := ih ((List.mem_cons.mp hu).resolve_left (Ne.symm ha))
        have hmem : a ∈ visited ++ [u] ↔ a ∈ visited := by simp [ha]
        simp only [hmem]
        omega

abbrev Linked (adj : α → List α) : α → α → Prop := Relation.ReflTransGen fun a b => b ∈ adj a

structure Found (adj : α → List α) (nodes seen : List α) (node : α) (comp : List α) :
    Prop where
  nodup : comp.Nodup
  within : comp ⊆ nodes
  fresh : ∀ u ∈ comp, u ∉ seen
  start : node ∈ comp
  linked : ∀ u ∈ comp, Linked adj node u
  closed : ∀ u ∈ comp, ∀ v ∈ adj u, v ∈ seen ∨ v ∈ comp

/-- The invariant of a search. Its last field keeps the search from running out of
steps. -/
structure Searching (adj : α → List α) (nodes seen : List α) (node : α) (fuel : ℕ)
    (queue comp : List α) : Prop where
  nodup : comp.Nodup
  within : comp ⊆ nodes
  queued : queue ⊆ nodes
  fresh : ∀ u ∈ comp, u ∉ seen
  start : node ∈ comp ∨ node ∈ queue
  linked : ∀ u, u ∈ comp ∨ u ∈ queue → Linked adj node u
  closed : ∀ u ∈ comp, ∀ v ∈ adj u, v ∈ seen ∨ v ∈ comp ∨ v ∈ queue
  fuel : queue.length + load adj nodes (seen ++ comp) ≤ fuel

variable {adj : α → List α} {nodes seen queue comp : List α} {node u : α} {fuel : ℕ}

theorem Searching.skip (h : Searching adj nodes seen node (fuel + 1) (u :: queue) comp)
    (hnode : node ∉ seen) (hu : u ∈ seen ++ comp) :
    Searching adj nodes seen node fuel queue comp := by
  refine ⟨h.nodup, h.within, fun v hv => h.queued (List.mem_cons_of_mem u hv), h.fresh, ?_, ?_,
    ?_, ?_⟩
  · rcases h.start with hs | hs
    · exact .inl hs
    · rcases List.mem_cons.mp hs with rfl | hs
      · exact .inl ((List.mem_append.mp hu).resolve_left hnode)
      · exact .inr hs
  · rintro v (hv | hv)
    · exact h.linked v (.inl hv)
    · exact h.linked v (.inr (List.mem_cons_of_mem u hv))
  · intro v hv w hw
    rcases h.closed v hv w hw with hw | hw | hw
    · exact .inl hw
    · exact .inr (.inl hw)
    · rcases List.mem_cons.mp hw with rfl | hw
      · rcases List.mem_append.mp hu with hu | hu
        · exact .inl hu
        · exact .inr (.inl hu)
      · exact .inr (.inr hw)
  · have := h.fuel
    rw [List.length_cons] at this
    omega

theorem Searching.visit (h : Searching adj nodes seen node (fuel + 1) (u :: queue) comp)
    (hnodes : ∀ u ∈ nodes, adj u ⊆ nodes) (hu : u ∉ seen ++ comp) :
    Searching adj nodes seen node fuel
      (queue ++ (adj u).filter (· ∉ seen ++ (comp ++ [u]))) (comp ++ [u]) := by
  rw [List.mem_append, not_or] at hu
  have hin : u ∈ nodes := h.queued List.mem_cons_self
  have hlink : Linked adj node u := h.linked u (.inr List.mem_cons_self)
  refine ⟨?_, ?_, ?_, ?_, ?_, ?_, ?_, ?_⟩
  · rw [List.nodup_append]
    refine ⟨h.nodup, List.nodup_singleton u, ?_⟩
    rintro v hv w hw rfl
    exact hu.2 (List.mem_singleton.mp hw ▸ hv)
  · intro v hv
    rcases List.mem_append.mp hv with hv | hv
    · exact h.within hv
    · exact List.mem_singleton.mp hv ▸ hin
  · intro v hv
    rcases List.mem_append.mp hv with hv | hv
    · exact h.queued (List.mem_cons_of_mem u hv)
    · exact hnodes u hin (List.mem_filter.mp hv).1
  · intro v hv
    rcases List.mem_append.mp hv with hv | hv
    · exact h.fresh v hv
    · exact List.mem_singleton.mp hv ▸ hu.1
  · rcases h.start with hs | hs
    · exact .inl (List.mem_append_left _ hs)
    · rcases List.mem_cons.mp hs with rfl | hs
      · exact .inl (by simp)
      · exact .inr (List.mem_append_left _ hs)
  · rintro v (hv | hv)
    · rcases List.mem_append.mp hv with hv | hv
      · exact h.linked v (.inl hv)
      · exact List.mem_singleton.mp hv ▸ hlink
    · rcases List.mem_append.mp hv with hv | hv
      · exact h.linked v (.inr (List.mem_cons_of_mem u hv))
      · exact hlink.tail (List.mem_filter.mp hv).1
  · intro v hv w hw
    -- the neighbours of `u` are queued unless they have been visited
    by_cases hmem : w ∈ seen ++ (comp ++ [u])
    · rcases List.mem_append.mp hmem with hmem | hmem
      · exact .inl hmem
      · exact .inr (.inl hmem)
    · rcases List.mem_append.mp hv with hv | hv
      · rcases h.closed v hv w hw with hw' | hw' | hw'
        · exact .inl hw'
        · exact .inr (.inl (List.mem_append_left _ hw'))
        · rcases List.mem_cons.mp hw' with rfl | hw'
          · exact .inr (.inl (by simp))
          · exact .inr (.inr (List.mem_append_left _ hw'))
      · obtain rfl := List.mem_singleton.mp hv
        exact .inr (.inr (List.mem_append_right _ (List.mem_filter.mpr ⟨hw, by simpa using hmem⟩)))
  · have hload := load_visit adj hin (by simp [hu] : u ∉ seen ++ comp)
    have hfilter := List.length_filter_le (fun v => decide (v ∉ seen ++ (comp ++ [u]))) (adj u)
    have hfuel := h.fuel
    rw [List.append_assoc] at hload
    rw [List.length_cons] at hfuel
    rw [List.length_append]
    omega

section

variable (hnodes : ∀ u ∈ nodes, adj u ⊆ nodes)
include hnodes

theorem Searching.found (hnode : node ∉ seen) (h : Searching adj nodes seen node fuel queue comp) :
    Found adj nodes seen node (search adj seen fuel queue comp) := by
  have hend : ∀ {fuel comp}, Searching adj nodes seen node fuel [] comp →
      Found adj nodes seen node comp := by
    intro fuel comp h
    exact
      { nodup := h.nodup
        within := h.within
        fresh := h.fresh
        start := h.start.resolve_right (by simp)
        linked := fun u hu => h.linked u (.inl hu)
        closed := fun u hu v hv => (h.closed u hu v hv).imp id (·.resolve_right (by simp)) }
  fun_induction search adj seen fuel queue comp with
  | case1 queue comp =>
      have hempty : queue = [] := List.eq_nil_of_length_eq_zero (by have := h.fuel; omega)
      subst hempty
      exact hend h
  | case2 => exact hend h
  | case3 comp n u queue hu ih => exact ih (h.skip hnode hu)
  | case4 comp n u queue hu ih => exact ih (h.visit hnodes hu)

theorem found_search (hnode : node ∉ seen) (hin : node ∈ nodes)
    (hfuel : load adj nodes [] + 1 ≤ fuel) :
    Found adj nodes seen node (search adj seen fuel [node] []) := by
  refine Searching.found hnodes hnode ⟨List.nodup_nil, by simp, by simpa using hin, by simp,
    by simp, ?_, by simp, ?_⟩
  · rintro u (hu | hu)
    · simp at hu
    · rw [List.mem_singleton.mp hu]
  · have := load_anti adj nodes (List.nil_subset (seen ++ []))
    rw [List.length_singleton]
    omega

/-- What the searches for `todo` add to what has been seen. -/
structure Splits (adj : α → List α) (nodes seen todo : List α) (cs : List (List α)) : Prop where
  covers : ∀ u ∈ todo, u ∈ seen ∨ ∃ c ∈ cs, u ∈ c
  within : ∀ c ∈ cs, c ⊆ nodes
  nodup : cs.flatten.Nodup
  fresh : ∀ c ∈ cs, ∀ u ∈ c, u ∉ seen
  nonempty : ∀ c ∈ cs, c ≠ []
  closed : ∀ c ∈ cs, ∀ u ∈ c, adj u ⊆ c
  linked : ∀ c ∈ cs, ∀ u ∈ c, ∀ v ∈ c, Linked adj u v

theorem splits_components (hsymm : ∀ u v, v ∈ adj u → u ∈ adj v)
    (hfuel : load adj nodes [] + 1 ≤ fuel) (todo : List α) :
    ∀ seen, todo ⊆ nodes → (∀ u ∈ seen, adj u ⊆ seen) →
      Splits adj nodes seen todo (components adj fuel seen todo) := by
  induction todo with
  | nil =>
      intro seen _ _
      exact ⟨by simp, by simp [components], by simp [components], by simp [components],
        by simp [components], by simp [components], by simp [components]⟩
  | cons node todo ih =>
      intro seen htodo hseen
      rw [List.cons_subset] at htodo
      unfold components
      split_ifs with hmem
      · have hrest := ih seen htodo.2 hseen
        refine { hrest with covers := ?_ }
        exact List.forall_mem_cons.mpr ⟨.inl hmem, hrest.covers⟩
      · have hfound := found_search hnodes hmem htodo.1 hfuel
        generalize search adj seen fuel [node] [] = comp at hfound
        have hclosed : ∀ u ∈ comp, adj u ⊆ comp := by
          intro u hu v hv
          rcases hfound.closed u hu v hv with hv' | hv'
          · exact absurd (hseen v hv' (hsymm u v hv)) (hfound.fresh u hu)
          · exact hv'
        have hrest := ih (seen ++ comp) htodo.2 (by
          intro u hu
          rcases List.mem_append.mp hu with hu | hu
          · exact fun v hv => List.mem_append_left _ (hseen u hu hv)
          · exact fun v hv => List.mem_append_right _ (hclosed u hu hv))
        have hback : ∀ u v, Linked adj u v → Linked adj v u := by
          have : Std.Symm fun a b => b ∈ adj a := ⟨fun a b hab => hsymm a b hab⟩
          exact Relation.ReflTransGen.stdSymm.symm
        refine ⟨?_, ?_, ?_, ?_, ?_, ?_, ?_⟩
        · intro u hu
          rcases List.mem_cons.mp hu with rfl | hu
          · exact .inr ⟨comp, List.mem_cons_self, hfound.start⟩
          · rcases hrest.covers u hu with hu | ⟨c, hc, huc⟩
            · rcases List.mem_append.mp hu with hu | hu
              · exact .inl hu
              · exact .inr ⟨comp, List.mem_cons_self, hu⟩
            · exact .inr ⟨c, List.mem_cons_of_mem _ hc, huc⟩
        · exact List.forall_mem_cons.mpr ⟨hfound.within, hrest.within⟩
        · rw [List.flatten_cons, List.nodup_append]
          refine ⟨hfound.nodup, hrest.nodup, ?_⟩
          rintro u hu v hv rfl
          obtain ⟨c, hc, huc⟩ := List.mem_flatten.mp hv
          exact hrest.fresh c hc u huc (List.mem_append_right _ hu)
        · refine List.forall_mem_cons.mpr ⟨hfound.fresh, fun c hc u hu hus => ?_⟩
          exact hrest.fresh c hc u hu (List.mem_append_left _ hus)
        · exact List.forall_mem_cons.mpr ⟨List.ne_nil_of_mem hfound.start, hrest.nonempty⟩
        · exact List.forall_mem_cons.mpr ⟨hclosed, hrest.closed⟩
        · refine List.forall_mem_cons.mpr ⟨fun u hu v hv => ?_, hrest.linked⟩
          exact (hback node u (hfound.linked u hu)).trans (hfound.linked v hv)

theorem splits_componentsOf (hsymm : ∀ u v, v ∈ adj u → u ∈ adj v) :
    Splits adj nodes [] nodes (componentsOf adj nodes) :=
  splits_components hnodes hsymm (Nat.le_refl _) nodes [] (List.Subset.refl nodes) (by simp)

end

theorem componentsOf_cons_of_isolated (h : adj node = []) (nodes : List α) :
    componentsOf adj (node :: nodes) =
      [node] :: components adj (load adj (node :: nodes) [] + 1) [node] nodes := by
  have hsearch : search adj [] (load adj (node :: nodes) [] + 1) [node] [] = [node] := by
    rw [search, if_neg (by simp), h]
    cases load adj (node :: nodes) [] <;> simp [search]
  rw [componentsOf, components, if_neg (by simp), hsearch, List.nil_append]

end Components

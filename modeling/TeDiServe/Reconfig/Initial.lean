import TeDiServe.Reconfig.Assigning

/-!
# The first configuration

What `get_initial_config` returns is an assignment of the bundles. But small executors are
spread over the nodes, and a larger one that comes after them may not find a node, although
there is one if the small ones share a node.

The order of the nodes breaks ties. So this does not happen exactly if every node but the
last one with bundles has one bundle at most.
-/

namespace TeDiServe

/-! ## Small executors that spoil the nodes -/

namespace Assigning

variable {nodeToBundles : Dict String (List ℕ)} {x : Assigning} {m : String}

def occupied (nodeToBundles : Dict String (List ℕ)) : List String :=
  nodeToBundles.keys.filter fun m => nodeToBundles.getD m [] ≠ []

theorem mem_occupied : m ∈ occupied nodeToBundles ↔ nodeToBundles.getD m [] ≠ [] := by
  simp only [occupied, List.mem_filter, decide_eq_true_eq]
  exact ⟨fun h => h.2, fun h => ⟨Dict.mem_of_getD_ne_nil h, h⟩⟩

theorem nodup_occupied (nodeToBundles : Dict String (List ℕ)) : (occupied nodeToBundles).Nodup :=
  nodeToBundles.nodup_keys.filter _

/-- One executor of one bundle was put on every node of `full`, and the other nodes have all
their bundles. -/
structure Spread (nodeToBundles : Dict String (List ℕ)) (full : List String) (x : Assigning) :
    Prop where
  taken : ∀ m ∈ full, x.count m = 1 ∧
    (x.available nodeToBundles m).length < (nodeToBundles.getD m []).length
  free : ∀ m ∉ full, x.count m = 0 ∧ x.available nodeToBundles m = nodeToBundles.getD m []

theorem Spread.step {full rest : List String} (hnodup : nodeToBundles.values.flatten.Nodup)
    (h : Spread nodeToBundles full x) (hnodes : occupied nodeToBundles = full ++ m :: rest)
    (e : ExecutorId) :
    (assignExecutor nodeToBundles x e 1).Ensures (fun _ => False)
      (Spread nodeToBundles (full ++ [m])) := by
  have hocc : (full ++ m :: rest).Nodup := hnodes ▸ nodup_occupied nodeToBundles
  have hm : m ∉ full := fun hmem => by
    rw [List.nodup_append] at hocc
    exact hocc.2.2 m hmem m List.mem_cons_self rfl
  have hne : nodeToBundles.getD m [] ≠ [] := by
    rw [← mem_occupied, hnodes]
    exact List.mem_append_right _ List.mem_cons_self
  have hmem := Dict.mem_of_getD_ne_nil hne
  have hroom : 1 ≤ (x.available nodeToBundles m).length := by
    rw [(h.free m hm).2]
    exact List.length_pos_of_ne_nil hne
  apply (ensures_assignExecutor_chosen nodeToBundles x e 1).mono
  · exact fun _ hnone => absurd (hnone m hmem) (Nat.not_lt.mpr hroom)
  rintro x' ⟨m₁, hchosen, rfl⟩
  have hm₁ : m₁ = m := by
    by_contra hne₁
    have hnonneg : 0 ≤ x.count m₁ := by
      by_cases hfull : m₁ ∈ full
      · rw [(h.taken m₁ hfull).1]
        exact zero_le_one
      · rw [(h.free m₁ hfull).1]
    rcases hchosen.least m hmem hroom (Ne.symm hne₁) with hlt | ⟨heq, hpair⟩
    · rw [(h.free m hm).1] at hlt
      omega
    · have hfull : m₁ ∉ full := fun hfull => by
        rw [(h.taken m₁ hfull).1, (h.free m hm).1] at heq
        exact one_ne_zero heq
      have hocc₁ : m₁ ∈ occupied nodeToBundles := by
        rw [mem_occupied, ← (h.free m₁ hfull).2]
        exact List.ne_nil_of_length_pos hchosen.enough
      rw [hnodes, List.mem_append, List.mem_cons] at hocc₁
      have hrest := (hocc₁.resolve_left hfull).resolve_left hne₁
      -- the next node comes before all that are left
      have hback : [m, m₁].Sublist nodeToBundles.keys := by
        refine List.Sublist.trans ?_ (List.filter_sublist (p := fun m =>
          decide (nodeToBundles.getD m [] ≠ [])))
        change [m, m₁].Sublist (occupied nodeToBundles)
        rw [hnodes]
        exact ((List.singleton_sublist.mpr hrest).cons_cons m).trans (List.sublist_append_right _ _)
      exact nodeToBundles.nodup_keys.not_pair_sublist hback hpair
  subst hm₁
  obtain ⟨b, bs, hbs⟩ := List.exists_cons_of_ne_nil (List.ne_nil_of_length_pos hroom)
  have htake : (x.available nodeToBundles m₁).take 1 = [b] := by rw [hbs]; rfl
  have hb : b ∈ nodeToBundles.getD m₁ [] :=
    (mem_available.mp (hbs ▸ List.mem_cons_self)).1
  rw [htake]
  have hcount : ∀ m',
      (x.assign e m₁ [b]).count m' = if m' = m₁ then x.count m₁ + 1 else x.count m' :=
    fun m' => Dict.getD_set _ _ _ _ _
  have havail : ∀ m', (x.assign e m₁ [b]).available nodeToBundles m' =
      (x.available nodeToBundles m').filter (· ≠ b) := by
    intro m'
    simp only [available, List.filter_filter, assign, List.foldl_cons, List.foldl_nil,
      OrderedSet.mem_add, not_or, Bool.decide_and, ne_eq, decide_not]
  constructor
  · intro m' hm'
    rw [hcount, havail]
    rcases List.mem_append.mp hm' with hm' | hm'
    · have hne' : m' ≠ m₁ := fun hc => hm (hc ▸ hm')
      rw [if_neg hne']
      exact ⟨(h.taken m' hm').1, (List.length_filter_le _ _).trans_lt (h.taken m' hm').2⟩
    · rw [List.mem_singleton] at hm'
      rw [if_pos hm', (h.free m₁ hm).1, hm', (h.free m₁ hm).2]
      exact ⟨rfl, List.length_filter_lt_length_iff_exists.mpr ⟨b, hb, by simp⟩⟩
  · intro m' hm'
    rw [List.mem_append, List.mem_singleton, not_or] at hm'
    rw [hcount, havail, if_neg hm'.2, (h.free m' hm'.1).2]
    refine ⟨(h.free m' hm'.1).1, List.filter_eq_self.mpr fun b' hb' => ?_⟩
    rw [decide_eq_true_eq]
    rintro rfl
    exact hm'.2 (Dict.eq_of_mem_getD hnodup hb' hb)

theorem Spread.loop (hnodup : nodeToBundles.values.flatten.Nodup) {full : List String}
    (h : Spread nodeToBundles full x) (mid rest : List String)
    (hnodes : occupied nodeToBundles = full ++ mid ++ rest) (ids : List ExecutorId)
    (hlen : ids.length = mid.length) :
    (ids.foldlM (fun x e => assignExecutor nodeToBundles x e 1) x).Ensures (fun _ => False)
      (Spread nodeToBundles (full ++ mid)) := by
  induction mid generalizing full x ids with
  | nil =>
      obtain rfl := List.length_eq_zero_iff.mp hlen
      rw [List.append_nil]
      exact h
  | cons m mid ih =>
      obtain ⟨e, ids, rfl⟩ := List.exists_cons_of_length_eq_add_one hlen
      rw [List.foldlM_cons, ensures_bind]
      rw [List.append_assoc, List.cons_append] at hnodes
      apply (h.step hnodup hnodes e).imp
      intro x' h'
      have hrest := ih h' (by rw [hnodes]; simp) ids (by simpa using hlen)
      rwa [List.append_assoc, List.singleton_append] at hrest

end Assigning

def spoilingSizes (k n : ℕ) : Dict ExecutorId ℕ where
  entries := (List.range k).map (fun e => (e, 1)) ++ [(k, n)]
  nodup := by
    rw [List.map_append, List.map_map, List.map_singleton]
    exact (List.nodup_range.map fun _ _ h => h).append (List.nodup_singleton _) (by simp)

section Spoiling

open Assigning

variable {nodeToBundles : Dict String (List ℕ)} {s t : List String} {a : String}

/-- If one small executor is put on every node up to the last one of the largest nodes, no
node is left for an executor of that size. -/
theorem raises_of_spoilingSizes (hnodup : nodeToBundles.values.flatten.Nodup)
    (hnodes : occupied nodeToBundles = s ++ a :: t)
    (hs : ∀ m ∈ s, (nodeToBundles.getD m []).length ≤ (nodeToBundles.getD a []).length)
    (ht : ∀ m ∈ t, (nodeToBundles.getD m []).length < (nodeToBundles.getD a []).length) :
    (getInitialConfig nodeToBundles false
      ((spoilingSizes (s.length + 1) (nodeToBundles.getD a []).length).mapValues Int.ofNat)).Ensures
      (fun _ => True) fun _ => False := by
  have hentries : ((spoilingSizes (s.length + 1) (nodeToBundles.getD a []).length).mapValues
      Int.ofNat).entries = (List.range (s.length + 1)).map (fun e => (e, (1 : ℤ))) ++
        [(s.length + 1, ((nodeToBundles.getD a []).length : ℤ))] := by
    simp [Dict.mapValues, Dict.mapEntries, spoilingSizes]
  have hne : nodeToBundles.getD a [] ≠ [] := by
    rw [← mem_occupied, hnodes]
    exact List.mem_append_right _ List.mem_cons_self
  unfold getInitialConfig
  rw [if_neg Bool.false_ne_true, hentries, List.foldlM_append, List.foldlM_map,
    ensures_bind, ensures_bind]
  have hempty : Spread nodeToBundles [] ⟨.empty, .empty, .empty⟩ := by
    refine ⟨fun m hm => absurd hm List.not_mem_nil, fun m _ => ⟨rfl, ?_⟩⟩
    exact List.filter_eq_self.mpr fun b _ => decide_eq_true (OrderedSet.not_mem_empty b)
  apply (hempty.loop hnodup (s ++ [a]) t (by rw [hnodes]; simp) _ (by simp)).mono
    fun _ _ => trivial
  intro x hx
  rw [List.nil_append] at hx
  rw [List.foldlM_cons, ensures_bind]
  apply (ensures_assignExecutor_chosen nodeToBundles x _ _).mono fun _ _ => trivial
  rintro x' ⟨m, hm, -⟩
  have henough := hm.enough
  by_cases hfull : m ∈ s ++ [a]
  · have hlt := (hx.taken m hfull).2
    rcases List.mem_append.mp hfull with hms | hma
    · have := hs m hms
      omega
    · rw [List.mem_singleton] at hma
      rw [hma] at hlt henough
      omega
  · rw [(hx.free m hfull).2] at henough
    by_cases hocc : nodeToBundles.getD m [] = []
    · rw [hocc] at henough
      exact absurd (List.length_pos_of_ne_nil hne) (Nat.not_lt.mpr henough)
    · have hmt : m ∈ t := by
        have hmem := mem_occupied.mpr hocc
        rw [hnodes, List.mem_append, List.mem_cons] at hmem
        rw [List.mem_append, List.mem_singleton, not_or] at hfull
        exact (hmem.resolve_left hfull.1).resolve_left hfull.2
      have := ht m hmt
      omega

theorem mem_spoilingSizes {k n : ℕ} {e : ExecutorId} {i : ℕ} :
    (spoilingSizes k n).get? e = some i ↔ e < k ∧ i = 1 ∨ e = k ∧ i = n := by
  rw [← Dict.mem_entries_iff]
  simp [spoilingSizes, eq_comm]

theorem nodup_other_bundles (hnodup : nodeToBundles.values.flatten.Nodup)
    (hnodes : occupied nodeToBundles = s ++ a :: t) :
    (nodeToBundles.getD a [] ++ (s ++ t).flatMap fun m => nodeToBundles.getD m []).Nodup := by
  have hall : ((occupied nodeToBundles).flatMap fun m => nodeToBundles.getD m []).Nodup := by
    rw [Dict.values_eq_map_getD _ []] at hnodup
    exact hnodup.sublist (List.filter_sublist.flatMap _)
  have hperm : (s ++ a :: t).Perm (a :: (s ++ t)) := List.perm_middle
  rw [hnodes] at hall
  exact (hperm.flatMap_right _).nodup_iff.mp hall

/-- The small executors can share the other nodes, if these have enough bundles. -/
theorem assignment_of_spoilingSizes (hnodup : nodeToBundles.values.flatten.Nodup)
    (hnodes : occupied nodeToBundles = s ++ a :: t) {k : ℕ}
    (hk : k ≤ ((s ++ t).flatMap fun m => nodeToBundles.getD m []).length) :
    ∃ c, Assignment nodeToBundles (spoilingSizes k (nodeToBundles.getD a []).length) c := by
  have hall := nodup_other_bundles hnodup hnodes
  have ha : a ∈ nodeToBundles := Dict.mem_of_getD_ne_nil (mem_occupied.mp (by
    rw [hnodes]
    exact List.mem_append_right _ List.mem_cons_self))
  have hnode : ∀ b ∈ (s ++ t).flatMap (fun m => nodeToBundles.getD m []),
      ∃ m ∈ nodeToBundles, b ∈ nodeToBundles.getD m [] := by
    intro b hb
    obtain ⟨m, -, hb⟩ := List.mem_flatMap.mp hb
    exact ⟨m, Dict.mem_of_getD_ne_nil (List.ne_nil_of_mem hb), hb⟩
  generalize (s ++ t).flatMap (fun m => nodeToBundles.getD m []) = others at hk hall hnode
  rw [List.nodup_append] at hall
  obtain ⟨hbundles, hothers, hapart⟩ := hall
  have hmem : ∀ {e}, e < k → others.getD e 0 ∈ others := by
    intro e he
    rw [List.getD_eq_getElem _ _ (he.trans_le hk)]
    exact List.getElem_mem _
  let c : ExecutorConfig :=
    { entries := (List.range k).map (fun e => (e, [others.getD e 0])) ++
        [(k, nodeToBundles.getD a [])]
      nodup := by
        rw [List.map_append, List.map_map, List.map_singleton]
        exact (List.nodup_range.map fun _ _ h => h).append (List.nodup_singleton _) (by simp) }
  have hget : ∀ {e bs}, c.get? e = some bs ↔
      e < k ∧ bs = [others.getD e 0] ∨ e = k ∧ bs = nodeToBundles.getD a [] := by
    intro e bs
    rw [← Dict.mem_entries_iff]
    simp [c, eq_comm]
  refine ⟨c, ?_, ?_, ?_, ?_, ?_⟩
  · intro e
    simp only [Dict.mem_iff_exists, hget, mem_spoilingSizes]
    constructor
    · rintro ⟨bs, ⟨he, -⟩ | ⟨he, -⟩⟩
      · exact ⟨1, Or.inl ⟨he, rfl⟩⟩
      · exact ⟨_, Or.inr ⟨he, rfl⟩⟩
    · rintro ⟨n, ⟨he, -⟩ | ⟨he, -⟩⟩
      · exact ⟨_, Or.inl ⟨he, rfl⟩⟩
      · exact ⟨_, Or.inr ⟨he, rfl⟩⟩
  · intro e bs n hbs hn
    rw [hget] at hbs
    rw [mem_spoilingSizes] at hn
    rcases hbs with ⟨he, rfl⟩ | ⟨he, rfl⟩
    · rcases hn with ⟨-, rfl⟩ | ⟨he', -⟩
      · rfl
      · exact absurd he' he.ne
    · rcases hn with ⟨he', -⟩ | ⟨-, rfl⟩
      · exact absurd he he'.ne
      · rfl
  · intro e bs hbs
    rcases hget.mp hbs with ⟨-, rfl⟩ | ⟨-, rfl⟩
    · exact List.nodup_singleton _
    · exact hbundles
  · intro e bs hbs
    rcases hget.mp hbs with ⟨he, rfl⟩ | ⟨-, rfl⟩
    · obtain ⟨m, hm, hb⟩ := hnode _ (hmem he)
      exact ⟨m, hm, by simpa using hb⟩
    · exact ⟨a, ha, List.Subset.refl _⟩
  · apply disjointBundles_of_get?
    intro e₁ e₂ bs₁ bs₂ h₁ h₂ hne b hb hb'
    rcases hget.mp h₁ with ⟨he₁, rfl⟩ | ⟨he₁, rfl⟩
    · rw [List.mem_singleton] at hb
      rcases hget.mp h₂ with ⟨he₂, rfl⟩ | ⟨-, rfl⟩
      · rw [hb, List.mem_singleton, List.getD_eq_getElem _ _ (he₁.trans_le hk),
          List.getD_eq_getElem _ _ (he₂.trans_le hk), hothers.getElem_inj_iff] at hb'
        exact hne hb'
      · exact hapart b hb' b (hb ▸ hmem he₁) rfl
    · rcases hget.mp h₂ with ⟨he₂, rfl⟩ | ⟨he₂, -⟩
      · rw [List.mem_singleton] at hb'
        exact hapart b hb b (hb' ▸ hmem he₂) rfl
      · exact hne (he₁.trans he₂.symm)

theorem exists_of_not_singlesFirst (h : ¬SinglesFirst nodeToBundles) :
    ∃ m m', [m, m'].Sublist (occupied nodeToBundles) ∧ 2 ≤ (nodeToBundles.getD m []).length := by
  unfold SinglesFirst at h
  rw [List.pairwise_iff_forall_sublist] at h
  push Not at h
  obtain ⟨x, y, hxy, hy, hx⟩ := h
  have hget : ∀ z ∈ [x, y], nodeToBundles.getD z.1 [] = z.2 := fun z hz =>
    Dict.getD_of_get? ((Dict.mem_entries_iff _ z.1 z.2).mp (hxy.subset hz)) _
  have hgx := hget x List.mem_cons_self
  have hgy := hget y (List.mem_cons_of_mem _ List.mem_cons_self)
  refine ⟨x.1, y.1, ?_, by rw [hgx]; exact hx⟩
  have hsub := (hxy.map Prod.fst).filter fun m => decide (nodeToBundles.getD m [] ≠ [])
  have hne : x.2 ≠ [] := List.ne_nil_of_length_pos (by omega)
  simpa [hgx, hgy, hy, hne, occupied, Dict.keys] using hsub

/-- Then the other nodes have enough bundles for the small executors. -/
theorem length_lt_of_not_singlesFirst (hnodes : occupied nodeToBundles = s ++ a :: t)
    (h : ¬SinglesFirst nodeToBundles) :
    s.length < ((s ++ t).flatMap fun m => nodeToBundles.getD m []).length := by
  have hone : ∀ m ∈ s ++ t, 1 ≤ (nodeToBundles.getD m []).length := by
    intro m hm
    apply List.length_pos_of_ne_nil
    rw [← mem_occupied, hnodes]
    rcases List.mem_append.mp hm with hm | hm
    · exact List.mem_append_left _ hm
    · exact List.mem_append_right _ (List.mem_cons_of_mem a hm)
  have hsum : ∀ l : List String, (∀ m ∈ l, 1 ≤ (nodeToBundles.getD m []).length) →
      l.length ≤ (l.flatMap fun m => nodeToBundles.getD m []).length := by
    intro l hl
    rw [List.length_flatMap]
    have hle := List.length_le_sum_of_one_le (l.map fun m => (nodeToBundles.getD m []).length)
      (by simpa using hl)
    rwa [List.length_map] at hle
  by_cases htail : t = []
  · obtain ⟨m, m', hpair, htwo⟩ := exists_of_not_singlesFirst h
    rw [hnodes, htail] at hpair
    have hnodup : (s ++ [a]).Nodup := htail ▸ hnodes ▸ nodup_occupied nodeToBundles
    have hm : m ∈ s := by
      rcases List.mem_append.mp (hpair.subset List.mem_cons_self) with hm | hm
      · exact hm
      · -- nothing comes after the last node
        rw [List.mem_singleton] at hm
        rw [hm] at hpair
        have hne : m' ≠ a := by
          rintro rfl
          simpa using hpair.nodup hnodup
        have hm' : m' ∈ s := by
          have hmem := hpair.subset (List.mem_cons_of_mem a List.mem_cons_self)
          rw [List.mem_append, List.mem_singleton] at hmem
          exact hmem.resolve_right hne
        exact absurd hpair (hnodup.not_pair_sublist
          ((List.singleton_sublist.mpr hm').append (List.Sublist.refl [a])))
    obtain ⟨s₁, s₂, rfl⟩ := List.append_of_mem hm
    have h₁ := hsum s₁ fun m hm => hone m (by simp [hm])
    have h₂ := hsum s₂ fun m hm => hone m (by simp [hm])
    rw [htail, List.append_nil, List.flatMap_append, List.flatMap_cons]
    simp only [List.length_append, List.length_cons]
    omega
  · have hle := hsum (s ++ t) hone
    have hpos := List.length_pos_of_ne_nil htail
    rw [List.length_append] at hle
    omega

end Spoiling

/-- An assignment is found whenever there is one, for all executors, exactly if every node
before the last one with bundles has one bundle at most. -/
theorem initial_config_complete_iff {nodeToBundles : Dict String (List ℕ)}
    (hnodup : nodeToBundles.values.flatten.Nodup) :
    (∀ sizes, Complete nodeToBundles sizes) ↔ Assigning.SinglesFirst nodeToBundles := by
  constructor
  · intro hall
    by_contra hno
    have hne : Assigning.occupied nodeToBundles ≠ [] := by
      obtain ⟨m, m', hpair, -⟩ := exists_of_not_singlesFirst hno
      exact List.ne_nil_of_mem (hpair.subset List.mem_cons_self)
    obtain ⟨s, a, t, hnodes, hs, ht⟩ :=
      List.exists_last_largest (fun m => (nodeToBundles.getD m []).length) hne
    have hraise := raises_of_spoilingSizes hnodup hnodes hs ht
    have hex := assignment_of_spoilingSizes hnodup hnodes
      (length_lt_of_not_singlesFirst hnodes hno)
    have hcomplete := hall (spoilingSizes (s.length + 1) (nodeToBundles.getD a []).length)
    unfold Complete at hcomplete
    cases hrun : getInitialConfig nodeToBundles false ((spoilingSizes (s.length + 1)
        (nodeToBundles.getD a []).length).mapValues Int.ofNat) with
    | error err =>
        rw [hrun] at hcomplete
        exact hcomplete hex
    | ok c =>
        rw [hrun] at hraise
        exact hraise
  · exact fun h sizes => Assigning.complete_of_singlesFirst hnodup h sizes

/-- A node with one bundle before a node with two, and executors of one and two bundles. -/
theorem initial_config_complete_small :
    Assigning.SinglesFirst ((Dict.empty.set "a" [0]).set "b" [1, 2]) ∧
    Complete ((Dict.empty.set "a" [0]).set "b" [1, 2]) ((Dict.empty.set 0 1).set 1 2) := by
  have hfirst : Assigning.SinglesFirst ((Dict.empty.set "a" [0]).set "b" [1, 2]) := by
    unfold Assigning.SinglesFirst
    decide
  exact ⟨hfirst, (initial_config_complete_iff (by decide)).mpr hfirst _⟩

def twoNodes : Dict String (List ℕ) := (Dict.empty.set "a" [0, 1]).set "b" [2, 3]

/-- Two executors with one bundle are put on different nodes, and then there is no node for
an executor with two bundles, although there is an assignment. -/
theorem initial_config_spreads :
    (getInitialConfig twoNodes false ((spoilingSizes 2 2).mapValues Int.ofNat)).Ensures
      (fun err => err = .runtime) (fun _ => False) ∧
    ∃ c, Assignment twoNodes (spoilingSizes 2 2) c := by
  constructor
  · decide +kernel
  · have hnodup : twoNodes.values.flatten.Nodup := by decide
    have hnodes : Assigning.occupied twoNodes = ["a"] ++ "b" :: [] := by decide
    exact assignment_of_spoilingSizes hnodup hnodes (by decide)

end TeDiServe

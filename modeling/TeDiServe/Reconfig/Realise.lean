import TeDiServe.Reconfig.Movement

/-!
# Realising an abstract plan

The first optimiser returns for every node how many executors of every TP degree it should
have. If they take up all bundles of the node, the bundles are shared out by cutting the
node's list: the slots of the plan are among those of the second optimiser, and what they are
given satisfies its constraints without keeping any executor. What can go wrong is that the
model is not built, because a degree does not divide the number of bundles of a node or
because an executor that is there has a size that is no candidate.
-/

namespace TeDiServe

/-- The counts are about the nodes and the candidate degrees, and the executors that they
ask for take up all bundles of every node. -/
structure AllGpusUsed (nodeToBundles : Dict String (List ℕ)) (degrees : List ℕ)
    (xNg : Dict (String × ℕ) ℕ) : Prop where
  keys : ∀ x ∈ xNg.entries, x.1.1 ∈ nodeToBundles ∧ x.1.2 ∈ degrees
  sum : ∀ n ∈ nodeToBundles, ((xNg.entries.filter (·.1.1 = n)).map fun x => x.1.2 * x.2).sum =
    (nodeToBundles.getD n []).length

section Plan

variable {nodeToBundles : Dict String (List ℕ)} {degrees : List ℕ} {xNg : Dict (String × ℕ) ℕ}
  {caps : Dict (String × ℕ) ℕ} {old : ExecutorConfig} {s : Slot} {n : String} {g : ℕ}

/-! ## The slots of the plan -/

theorem getD_requiredCounts (xNg : Dict (String × ℕ) ℕ) (g : ℕ) :
    (requiredCounts xNg).getD g 0 = (slotsOf xNg).countP (·.tpDegree = g) := by
  have hfold : ∀ (l : List ((String × ℕ) × ℕ)) (d : Dict ℕ ℕ),
      (l.foldl (fun d x => if 0 < x.2 then d.set x.1.2 (d.getD x.1.2 0 + x.2) else d) d).getD g 0 =
        d.getD g 0 + (l.map fun x => if x.1.2 = g then x.2 else 0).sum := by
    intro l
    induction l with
    | nil => simp
    | cons x l ih =>
        intro d
        rw [List.foldl_cons, ih, List.map_cons, List.sum_cons, ← Nat.add_assoc]
        congr 1
        by_cases hpos : 0 < x.2
        · rw [if_pos hpos, Dict.getD_set]
          by_cases hg : x.1.2 = g
          · rw [if_pos hg, if_pos hg.symm, hg]
          · rw [if_neg hg, if_neg (Ne.symm hg)]
            rfl
        · rw [if_neg hpos, Nat.eq_zero_of_not_pos hpos, ite_self]
          rfl
  unfold requiredCounts slotsOf
  rw [hfold, List.countP_flatMap, Dict.getD_empty, Nat.zero_add]
  congr 1
  refine List.map_congr_left fun x _ => ?_
  rw [Function.comp_apply, List.countP_map]
  by_cases hg : x.1.2 = g
  · simp [hg, Function.comp_def]
  · simp [hg, Function.comp_def]

section

variable (hused : AllGpusUsed nodeToBundles degrees xNg)
include hused

/-- The slots of a node need as many bundles as it has. -/
theorem AllGpusUsed.sum_tpDegree (hn : n ∈ nodeToBundles) :
    (((slotsOf xNg).filter (·.node = n)).map Slot.tpDegree).sum =
      (nodeToBundles.getD n []).length := by
  rw [← hused.sum n hn]
  unfold slotsOf
  induction xNg.entries with
  | nil => rfl
  | cons x l ih =>
      rw [List.flatMap_cons, List.filter_append, List.map_append, List.sum_append, ih]
      by_cases hx : x.1.1 = n
      · simp [hx, List.filter_map, Function.comp_def, Nat.mul_comm]
      · simp [hx, List.filter_map, Function.comp_def]

theorem AllGpusUsed.node_mem (hs : s ∈ slotsOf xNg) :
    s.node ∈ nodeToBundles ∧ s.tpDegree ∈ degrees := by
  obtain ⟨c, hc, -⟩ := mem_slotsOf.mp hs
  exact hused.keys _ ((Dict.mem_entries_iff _ _ _).mpr hc)

theorem AllGpusUsed.mem_slotsOf_caps (hpos : ∀ g ∈ degrees, 0 < g)
    (hcaps : Capacities nodeToBundles degrees caps) (hs : s ∈ slotsOf xNg) : s ∈ slotsOf caps := by
  obtain ⟨c, hc, hlt⟩ := mem_slotsOf.mp hs
  have hentry := (Dict.mem_entries_iff _ _ _).mpr hc
  obtain ⟨hn, hg⟩ := hused.node_mem hs
  have hle : s.tpDegree * c ≤ (nodeToBundles.getD s.node []).length := by
    rw [← hused.sum _ hn]
    exact List.single_le_sum (by simp) _
      (List.mem_map.mpr ⟨_, List.mem_filter.mpr ⟨hentry, decide_eq_true rfl⟩, rfl⟩)
  have hfits : c ≤ (nodeToBundles.getD s.node []).length / s.tpDegree := by
    rw [Nat.le_div_iff_mul_le (hpos _ hg), Nat.mul_comm]
    exact hle
  exact mem_slotsOf.mpr
    ⟨_, (hcaps _ _ _).mpr ⟨hn, hg, hpos _ hg, by omega, rfl⟩, by omega⟩

theorem AllGpusUsed.perm_filter (hpos : ∀ g ∈ degrees, 0 < g)
    (hcaps : Capacities nodeToBundles degrees caps) :
    ((slotsOf caps).filter (· ∈ slotsOf xNg)).Perm (slotsOf xNg) := by
  refine (List.perm_ext_iff_of_nodup ((nodup_slotsOf caps).filter _) (nodup_slotsOf xNg)).mpr
    fun s => ?_
  rw [List.mem_filter, decide_eq_true_eq]
  exact ⟨And.right, fun hs => ⟨hused.mem_slotsOf_caps hpos hcaps hs, hs⟩⟩

/-! ## Sharing out the bundles -/

structure SharedOut (nodeToBundles : Dict String (List ℕ)) (xNg : Dict (String × ℕ) ℕ)
    (piece : Slot → List ℕ) : Prop where
  length : ∀ s ∈ slotsOf xNg, (piece s).length = s.tpDegree
  flatMap : ∀ n ∈ nodeToBundles,
    ((slotsOf xNg).filter (·.node = n)).flatMap piece = nodeToBundles.getD n []

theorem AllGpusUsed.exists_sharedOut : ∃ piece, SharedOut nodeToBundles xNg piece := by
  have hnode : ∀ n ∈ nodeToBundles, ∃ piece : Slot → List ℕ,
      (∀ s ∈ (slotsOf xNg).filter (·.node = n), (piece s).length = s.tpDegree) ∧
      ((slotsOf xNg).filter (·.node = n)).flatMap piece = nodeToBundles.getD n [] :=
    fun n hn =>
      List.exists_pieces Slot.tpDegree ((nodup_slotsOf xNg).filter _) (hused.sum_tpDegree hn)
  choose! piece hlen hflat using hnode
  refine ⟨fun s => piece s.node s, fun s hs => ?_, fun n hn => ?_⟩
  · exact hlen _ (hused.node_mem hs).1 s (List.mem_filter.mpr ⟨hs, decide_eq_true rfl⟩)
  · rw [← hflat n hn]
    refine List.flatMap_congr fun s hs => ?_
    rw [of_decide_eq_true (List.mem_filter.mp hs).2]

end

def planValues (xNg : Dict (String × ℕ) ℕ) (piece : Slot → List ℕ) : SlotValues where
  u := fun s => s ∈ slotsOf xNg
  a := fun s b => s ∈ slotsOf xNg ∧ b ∈ piece s
  mKeep := fun _ _ => false

section Pieces

variable {piece : Slot → List ℕ} (hshare : SharedOut nodeToBundles xNg piece)
  (hused : AllGpusUsed nodeToBundles degrees xNg)
  (hnodup : nodeToBundles.values.flatten.Nodup)

include hshare hused

theorem SharedOut.mem_node (hs : s ∈ slotsOf xNg) {b : ℕ} (hb : b ∈ piece s) :
    b ∈ nodeToBundles.getD s.node [] := by
  rw [← hshare.flatMap _ (hused.node_mem hs).1]
  exact List.mem_flatMap.mpr ⟨s, List.mem_filter.mpr ⟨hs, decide_eq_true rfl⟩, hb⟩

include hnodup

theorem SharedOut.nodup_piece (hs : s ∈ slotsOf xNg) : (piece s).Nodup := by
  have hflat := Dict.nodup_getD hnodup (hused.node_mem hs).1
  rw [← hshare.flatMap _ (hused.node_mem hs).1, List.nodup_flatMap] at hflat
  exact hflat.1 s (List.mem_filter.mpr ⟨hs, decide_eq_true rfl⟩)

theorem SharedOut.slot_unique {s' : Slot} (hs : s ∈ slotsOf xNg) (hs' : s' ∈ slotsOf xNg) {b : ℕ}
    (hb : b ∈ piece s) (hb' : b ∈ piece s') : s' = s := by
  have hnode := Dict.eq_of_mem_getD hnodup (hshare.mem_node hused hs' hb')
    (hshare.mem_node hused hs hb)
  have hflat := Dict.nodup_getD hnodup (hused.node_mem hs).1
  rw [← hshare.flatMap _ (hused.node_mem hs).1, List.nodup_flatMap] at hflat
  have hsymm : Std.Symm (Function.onFun List.Disjoint piece) := ⟨fun _ _ h => h.symm⟩
  by_contra hne
  exact hflat.2.forall (List.mem_filter.mpr ⟨hs', decide_eq_true hnode⟩)
    (List.mem_filter.mpr ⟨hs, decide_eq_true rfl⟩) hne hb' hb

theorem SharedOut.fill (s : Slot) :
    (nodeToBundles.getD s.node []).countP ((planValues xNg piece).a s) =
      s.tpDegree * ((planValues xNg piece).u s).toNat := by
  by_cases hs : s ∈ slotsOf xNg
  · have hperm : ((nodeToBundles.getD s.node []).filter (· ∈ piece s)).Perm (piece s) := by
      refine (List.perm_ext_iff_of_nodup ((Dict.nodup_getD hnodup (hused.node_mem hs).1).filter _)
        (hshare.nodup_piece hused hnodup hs)).mpr fun b => ?_
      rw [List.mem_filter, decide_eq_true_eq]
      exact ⟨And.right, fun hb => ⟨hshare.mem_node hused hs hb, hb⟩⟩
    simp only [planValues, hs, true_and, decide_true, Bool.toNat_true, Nat.mul_one]
    rw [List.countP_eq_length_filter, hperm.length_eq, hshare.length s hs]
  · simp [planValues, hs]

theorem SharedOut.exclusive (hpos : ∀ g ∈ degrees, 0 < g)
    (hcaps : Capacities nodeToBundles degrees caps) {b : ℕ} (hb : b ∈ nodeToBundles.getD n []) :
    ((slotsOf caps).filter (·.node = n)).countP ((planValues xNg piece).a · b) = 1 := by
  have hb' := hb
  rw [← hshare.flatMap n (Dict.mem_of_getD_ne_nil (List.ne_nil_of_mem hb))] at hb'
  obtain ⟨s, hs, hbs⟩ := List.mem_flatMap.mp hb'
  obtain ⟨hs, hn⟩ := List.mem_filter.mp hs
  have hmem : s ∈ (slotsOf caps).filter (·.node = n) :=
    List.mem_filter.mpr ⟨hused.mem_slotsOf_caps hpos hcaps hs, hn⟩
  rw [← List.count_eq_one_of_mem ((nodup_slotsOf caps).filter _) hmem]
  refine List.countP_congr fun s' _ => ?_
  simp only [planValues, decide_eq_true_eq, beq_iff_eq]
  constructor
  · rintro ⟨hs', hbs'⟩
    exact hshare.slot_unique hused hnodup hs hs' hbs hbs'
  · rintro rfl
    exact ⟨hs, hbs⟩

omit hshare hnodup in
theorem AllGpusUsed.required (hpos : ∀ g ∈ degrees, 0 < g)
    (hcaps : Capacities nodeToBundles degrees caps) (g : ℕ) :
    ((slotsOf caps).filter (·.tpDegree = g)).countP (planValues xNg piece).u =
      (requiredCounts xNg).getD g 0 := by
  rw [getD_requiredCounts, ← (hused.perm_filter hpos hcaps).countP_eq, List.countP_filter,
    List.countP_filter]
  refine List.countP_congr fun s _ => ?_
  simp only [planValues, Bool.and_eq_true, decide_eq_true_eq]
  exact And.comm

theorem SharedOut.constraints (hpos : ∀ g ∈ degrees, 0 < g)
    (hcaps : Capacities nodeToBundles degrees caps) (info : Dict ExecutorId ExecInfo) :
    SlotConstraints nodeToBundles degrees caps (requiredCounts xNg) info
      (planValues xNg piece) where
  fill := fun s _ => hshare.fill hused hnodup s
  exclusive := fun b _ n hn _ =>
    hshare.exclusive hused hnodup hpos hcaps ((get?_bundleToNode hnodup b n).mp hn)
  required := fun g _ _ => hused.required hpos hcaps g
  keepOnce := fun _ _ => by simp [planValues]
  keepUsed := fun _ _ _ _ hkeep => by cases hkeep
  keepAssigned := fun _ _ _ _ hkeep => by cases hkeep

end Pieces

/-! ## When a plan can be realised -/

def SizesAreCandidates (degrees : List ℕ) (old : ExecutorConfig) : Prop :=
  ∀ e bs, old.get? e = some bs → bs ≠ [] → bs.length ∈ degrees

/-- There are slots of the size of an executor if and only if its size is a candidate. -/
theorem capacity_pos_iff (hpos : ∀ g ∈ degrees, 0 < g)
    (hdiv : Divisible nodeToBundles degrees) (hcaps : Capacities nodeToBundles degrees caps)
    {bs : List ℕ} (hne : bs ≠ []) {i : ExecInfo} (hi : i.Describes nodeToBundles bs) :
    0 < caps.getD (i.node, i.tpDegree) 0 ↔ bs.length ∈ degrees := by
  obtain ⟨b, hb⟩ := List.exists_mem_of_ne_nil bs hne
  have hnode : i.node ∈ nodeToBundles :=
    Dict.mem_of_getD_ne_nil (List.ne_nil_of_mem (hi.1 hb))
  rw [← hi.2.1]
  constructor
  · intro h
    cases hget : caps.get? (i.node, i.tpDegree) with
    | none => simp [Dict.getD, hget] at h
    | some c => exact ((hcaps _ _ _).mp hget).2.1
  · intro hg
    have hlen := List.length_pos_of_mem (hi.1 hb)
    have hc : 0 < (nodeToBundles.getD i.node []).length / i.tpDegree :=
      Nat.div_pos (Nat.le_of_dvd hlen (hdiv _ hnode _ hg (hpos _ hg))) (hpos _ hg)
    rw [Dict.getD_of_get? ((hcaps _ _ _).mpr ⟨hnode, hg, hpos _ hg, hc, rfl⟩)]
    exact hc

/-- The model is built and has a solution exactly if every candidate degree divides the
number of bundles of every node and the executors have candidate sizes. -/
theorem plan_realisable_iff (hnodup : nodeToBundles.values.flatten.Nodup)
    (hpos : ∀ g ∈ degrees, 0 < g)
    (hlocal : ∀ e bs, old.get? e = some bs → ∃ n, bs ⊆ nodeToBundles.getD n [])
    (hused : AllGpusUsed nodeToBundles degrees xNg) :
    (∃ info caps, ModelBuilt nodeToBundles degrees xNg old info caps ∧
      ∃ v, SlotConstraints nodeToBundles degrees caps (requiredCounts xNg) info v) ↔
      Divisible nodeToBundles degrees ∧ SizesAreCandidates degrees old := by
  have hinfo := ensures_oldExecInfo_iff hnodup old
  have hslots := ensures_slotCapacities_iff nodeToBundles degrees
  constructor
  · rintro ⟨info, caps, hbuilt, -⟩
    have hinfo := ensures_of_ok hinfo hbuilt.described
    obtain ⟨hdiv, hcaps⟩ := ensures_of_ok hslots hbuilt.divided
    refine ⟨hdiv, fun e bs he hne => ?_⟩
    obtain ⟨n, hsub⟩ := hlocal e bs he
    have hi : ExecInfo.Describes nodeToBundles ⟨n, bs.length, bs.insertionSort (· ≤ ·)⟩ bs :=
      ⟨hsub, rfl, rfl⟩
    have hentry := (Dict.mem_entries_iff _ _ _).mpr ((hinfo e _).mpr ⟨bs, he, hne, hi⟩)
    exact (capacity_pos_iff hpos hdiv hcaps hne hi).mp
      ((checkCapacities_iff.mp hbuilt.checked).2 _ hentry)
  · rintro ⟨hdiv, hsizes⟩
    obtain ⟨info, hinfo_eq, hinfo⟩ := Except.Ensures.exists_ok
      (hinfo.mono (fun _ ⟨e, bs, he, hno⟩ => hno (hlocal e bs he)) fun _ h => h)
    obtain ⟨caps, hcaps_eq, -, hcaps⟩ := Except.Ensures.exists_ok
      (hslots.mono (fun _ hno => hno hdiv) fun _ h => h)
    have hcheck : checkCapacities caps degrees (requiredCounts xNg) info = .ok () := by
      refine checkCapacities_iff.mpr ⟨fun g _ hnone => ?_, fun x hx => ?_⟩
      · rw [getD_requiredCounts, List.countP_eq_zero]
        intro s hs
        rw [decide_eq_true_eq]
        exact hnone s (hused.mem_slotsOf_caps hpos hcaps hs)
      · obtain ⟨bs, he, hne, hi⟩ := (hinfo x.1 x.2).mp ((Dict.mem_entries_iff _ _ _).mp hx)
        exact (capacity_pos_iff hpos hdiv hcaps hne hi).mpr (hsizes x.1 bs he hne)
    obtain ⟨piece, hshare⟩ := hused.exists_sharedOut
    exact ⟨info, caps, ⟨hinfo_eq, hcaps_eq, hcheck⟩, _,
      hshare.constraints hused hnodup hpos hcaps info⟩

end Plan

/-- Four bundles that are held by executors of two and of one are shared out anew. -/
theorem plan_realisable_even : ∃ info caps,
    ModelBuilt fourBundles [4, 2, 1] (Dict.empty.set ("n", 2) 2) unevenConfig info caps ∧
      ∃ v, SlotConstraints fourBundles [4, 2, 1] caps (requiredCounts (Dict.empty.set ("n", 2) 2))
        info v := by
  have hnode : ∀ n ∈ fourBundles, n = "n" := fun n hn => List.mem_singleton.mp hn
  have hsub : ∀ x ∈ unevenConfig.entries, x.2 ⊆ fourBundles.getD "n" [] := by decide
  have hsizes : ∀ x ∈ unevenConfig.entries, x.2.length ∈ [4, 2, 1] := by decide
  refine (plan_realisable_iff (by decide) (by decide) ?_ ⟨?_, ?_⟩).mpr ⟨?_, ?_⟩
  · exact fun e bs he => ⟨"n", hsub (e, bs) ((Dict.mem_entries_iff _ _ _).mpr he)⟩
  · decide
  · intro n hn
    rw [hnode n hn]
    decide
  · intro n hn
    rw [hnode n hn]
    decide
  · exact fun e bs he _ => hsizes (e, bs) ((Dict.mem_entries_iff _ _ _).mpr he)

def threeBundles : Dict String (List ℕ) := Dict.empty.set "n" [0, 1, 2]

def brokenConfig : ExecutorConfig := (Dict.empty.set 0 [0, 1]).set 1 [2]

/-- One executor of two and one of one use all three bundles, and the model is not built. -/
theorem plan_of_three_bundles :
    (getInitialConfig threeBundles false ((Dict.empty.set 0 2).set 1 1)).Ensures (fun _ => False)
      (fun c => c.entries = brokenConfig.entries) ∧
    brokenConfig.DisjointBundles ∧
    AllGpusUsed threeBundles [2, 1] ((Dict.empty.set ("n", 2) 1).set ("n", 1) 1) ∧
    ∀ v, (getMinimumMovementConfig threeBundles [2, 1]
      ((Dict.empty.set ("n", 2) 1).set ("n", 1) 1) brokenConfig v).Ensures
        (fun err => err = .assertion) fun _ => False := by
  refine ⟨by decide +kernel, by decide, ⟨by decide, ?_⟩, fun v => ?_⟩
  · intro n hn
    rw [List.mem_singleton.mp hn]
    decide
  · have hmodel : (oldExecInfo threeBundles brokenConfig).Ensures (fun _ => False) fun _ =>
        (slotCapacities threeBundles [2, 1]).Ensures (fun err => err = .assertion)
          fun _ => False := by
      decide +kernel
    unfold getMinimumMovementConfig
    rw [ensures_bind]
    refine hmodel.mono (fun _ h => h.elim) fun _ hslots => ?_
    exact hslots.bind fun _ h => h.elim

end TeDiServe

import TeDiServe.Reconfig.Layout

/-!
# Reading a configuration off a solution

The constraints of the second optimiser say of every slot how many bundles it has, and of
every bundle that it is in one slot of its node. So the slots in use share out all bundles.
An executor that is kept in a slot has its old bundles there, because the slot has as many
as the executor had. Two executors cannot be kept in one slot, since they have no bundle in
common. None of this is posted as a constraint.
-/

namespace TeDiServe

open ExecutorConfig

def SlotValues.bundles (nodeToBundles : Dict String (List ℕ)) (v : SlotValues) (s : Slot) :
    List ℕ :=
  ((nodeToBundles.getD s.node []).filter (v.a s)).insertionSort (· ≤ ·)

theorem SlotValues.mem_bundles {nodeToBundles : Dict String (List ℕ)} {v : SlotValues} {s : Slot}
    {b : ℕ} :
    b ∈ v.bundles nodeToBundles s ↔ b ∈ nodeToBundles.getD s.node [] ∧ v.a s b = true := by
  rw [SlotValues.bundles, List.mem_insertionSort, List.mem_filter]

section Solution

variable {nodeToBundles : Dict String (List ℕ)} {degrees : List ℕ} {caps : Dict (String × ℕ) ℕ}
  {required : Dict ℕ ℕ} {info : Dict ExecutorId ExecInfo} {v : SlotValues} {old : ExecutorConfig}
  {s s' : Slot} {b : ℕ} {n : String}

namespace SlotConstraints

variable (hv : SlotConstraints nodeToBundles degrees caps required info v)

include hv

theorem length_bundles (hs : s ∈ slotsOf caps) (hu : v.u s = true) :
    (v.bundles nodeToBundles s).length = s.tpDegree := by
  rw [SlotValues.bundles, List.length_insertionSort, ← List.countP_eq_length_filter,
    hv.fill s hs, hu]
  exact Nat.mul_one _

theorem used_of_mem (hs : s ∈ slotsOf caps) (hb : b ∈ v.bundles nodeToBundles s) :
    v.u s = true := by
  obtain ⟨hmem, ha⟩ := SlotValues.mem_bundles.mp hb
  by_contra hu
  have hzero := hv.fill s hs
  rw [Bool.eq_false_iff.mpr hu, Bool.toNat_false, Nat.mul_zero, List.countP_eq_zero] at hzero
  exact hzero b hmem ha

section

variable (hnodup : nodeToBundles.values.flatten.Nodup)
include hnodup

theorem exists_slot (hdiv : Divisible nodeToBundles degrees)
    (hcaps : Capacities nodeToBundles degrees caps) (hpos : ∃ g ∈ degrees, 0 < g)
    (hb : b ∈ nodeToBundles.getD n []) : ∃ s ∈ slotsOf caps, b ∈ v.bundles nodeToBundles s := by
  obtain ⟨g, hg, hpos⟩ := hpos
  have hn : n ∈ nodeToBundles := Dict.mem_of_getD_ne_nil (List.ne_nil_of_mem hb)
  have hcap : 0 < (nodeToBundles.getD n []).length / g :=
    Nat.div_pos (Nat.le_of_dvd (List.length_pos_of_mem hb) (hdiv n hn g hg hpos)) hpos
  have hslot : (⟨n, g, 0⟩ : Slot) ∈ slotsOf caps :=
    mem_slotsOf.mpr ⟨_, (hcaps n g _).mpr ⟨hn, hg, hpos, hcap, rfl⟩, hcap⟩
  have hone := hv.exclusive b (Dict.mem_flatten_of_mem_getD hb) n
    ((get?_bundleToNode hnodup b n).mpr hb) (List.ne_nil_of_mem
      (List.mem_filter.mpr ⟨hslot, decide_eq_true rfl⟩))
  obtain ⟨s, hs, ha⟩ := List.countP_pos_iff.mp (hone ▸ Nat.one_pos)
  obtain ⟨hs, hnode⟩ := List.mem_filter.mp hs
  refine ⟨s, hs, SlotValues.mem_bundles.mpr ⟨?_, ha⟩⟩
  rwa [of_decide_eq_true hnode]

theorem slot_unique (hs : s ∈ slotsOf caps) (hs' : s' ∈ slotsOf caps)
    (hb : b ∈ v.bundles nodeToBundles s) (hb' : b ∈ v.bundles nodeToBundles s') : s = s' := by
  obtain ⟨hmem, ha⟩ := SlotValues.mem_bundles.mp hb
  obtain ⟨hmem', ha'⟩ := SlotValues.mem_bundles.mp hb'
  have hnode := Dict.eq_of_mem_getD hnodup hmem' hmem
  have hslot : s ∈ (slotsOf caps).filter (·.node = s.node) :=
    List.mem_filter.mpr ⟨hs, decide_eq_true rfl⟩
  have hslot' : s' ∈ (slotsOf caps).filter (·.node = s.node) :=
    List.mem_filter.mpr ⟨hs', decide_eq_true hnode⟩
  have hone := hv.exclusive b (Dict.mem_flatten_of_mem_getD hmem) s.node
    ((get?_bundleToNode hnodup b _).mpr hmem) (List.ne_nil_of_mem hslot)
  exact List.eq_of_countP_le_one hone.le hslot hslot' ha ha'

/-- The slots in use share out all bundles. -/
theorem perm_bundles (hdiv : Divisible nodeToBundles degrees)
    (hcaps : Capacities nodeToBundles degrees caps) (hpos : ∃ g ∈ degrees, 0 < g) :
    (((slotsOf caps).filter v.u).flatMap (v.bundles nodeToBundles)).Perm
      nodeToBundles.values.flatten := by
  have hslot : ∀ {s}, s ∈ (slotsOf caps).filter v.u → s ∈ slotsOf caps :=
    fun hs => List.mem_of_mem_filter hs
  rw [List.perm_ext_iff_of_nodup ?_ hnodup]
  · intro b
    rw [List.mem_flatMap]
    constructor
    · rintro ⟨s, -, hb⟩
      exact Dict.mem_flatten_of_mem_getD (SlotValues.mem_bundles.mp hb).1
    · intro hb
      obtain ⟨n, -, hb⟩ := Dict.exists_mem_getD_of_mem_flatten hb
      obtain ⟨s, hs, hb⟩ := hv.exists_slot hnodup hdiv hcaps hpos hb
      exact ⟨s, List.mem_filter.mpr ⟨hs, hv.used_of_mem hs hb⟩, hb⟩
  · rw [List.nodup_flatMap]
    constructor
    · intro s hs
      obtain ⟨c, hc, -⟩ := mem_slotsOf.mp (hslot hs)
      have hn := ((hcaps _ _ _).mp hc).1
      exact (List.perm_insertionSort _ _).nodup_iff.mpr ((Dict.nodup_getD hnodup hn).filter _)
    · refine ((nodup_slotsOf caps).filter _).imp_of_mem fun {s s'} hs hs' hne b hb hb' => ?_
      exact hne (hv.slot_unique hnodup (hslot hs) (hslot hs') hb hb')

end

theorem usedSlots_eq :
    usedSlots nodeToBundles caps v =
      .ok (((slotsOf caps).filter v.u).map fun s => (s, v.bundles nodeToBundles s)) := by
  unfold usedSlots
  refine mapM_eq_ok fun s hs => ?_
  obtain ⟨hs, hu⟩ := List.mem_filter.mp hs
  have hlen := hv.length_bundles hs hu
  rw [SlotValues.bundles, List.length_insertionSort] at hlen
  dsimp only
  rw [if_neg (not_not.mpr hlen)]
  rfl

theorem countP_used (g : ℕ) :
    ((slotsOf caps).filter v.u).countP
      ((fun bs => decide (bs.length = g)) ∘ v.bundles nodeToBundles) =
      ((slotsOf caps).filter (·.tpDegree = g)).countP v.u := by
  rw [List.countP_filter, List.countP_filter]
  apply List.countP_congr
  intro s hs
  simp only [Function.comp_apply, Bool.and_eq_true, decide_eq_true_eq]
  rw [and_comm]
  refine and_congr_right fun hu => ?_
  rw [hv.length_bundles hs hu]

theorem perm_of_mKeep {e : ExecutorId} {i : ExecInfo} {bs : List ℕ} (hi : info.get? e = some i)
    (hdesc : i.Describes nodeToBundles bs) (honce : bs.Nodup) {k : ℕ}
    (hk : k < caps.getD (i.node, i.tpDegree) 0) (hkeep : v.mKeep e k = true) :
    (⟨i.node, i.tpDegree, k⟩ : Slot) ∈ (slotsOf caps).filter v.u ∧
      (v.bundles nodeToBundles ⟨i.node, i.tpDegree, k⟩).Perm bs := by
  obtain ⟨hsub, hdeg, hbs⟩ := hdesc
  have hentry := (Dict.mem_entries_iff info e i).mpr hi
  have hu := hv.keepUsed _ hentry k hk hkeep
  have hs : (⟨i.node, i.tpDegree, k⟩ : Slot) ∈ slotsOf caps := by
    rw [mem_slotsOf]
    unfold Dict.getD at hk
    cases hcap : caps.get? (i.node, i.tpDegree) with
    | none =>
        rw [hcap] at hk
        exact absurd hk (Nat.not_lt_zero k)
    | some c =>
        rw [hcap] at hk
        exact ⟨c, rfl, hk⟩
  refine ⟨List.mem_filter.mpr ⟨hs, hu⟩, ?_⟩
  have hle : bs.Subperm (v.bundles nodeToBundles ⟨i.node, i.tpDegree, k⟩) := by
    refine honce.subperm fun b hb => SlotValues.mem_bundles.mpr ⟨hsub hb, ?_⟩
    refine hv.keepAssigned _ hentry k hk hkeep b ?_
    rw [hbs, List.mem_insertionSort]
    exact hb
  refine (hle.perm_of_length_le ?_).symm
  rw [hv.length_bundles hs hu, hdeg]

end SlotConstraints

/-! ## Kept executors -/

structure KeptIn (nodeToBundles : Dict String (List ℕ)) (caps : Dict (String × ℕ) ℕ)
    (v : SlotValues) (old : ExecutorConfig) (done : List ExecutorId)
    (x : ExecutorConfig × OrderedSet Slot) : Prop where
  kept : ∀ e bs, x.1.get? e = some bs → e ∈ done ∧ ∃ bs₀, old.get? e = some bs₀ ∧ bs.Perm bs₀
  values : x.1.values.Perm (x.2.items.map (v.bundles nodeToBundles))
  slots : ∀ s ∈ x.2, s ∈ (slotsOf caps).filter v.u ∧
    ∃ e ∈ done, ∃ bs₀, old.get? e = some bs₀ ∧ (v.bundles nodeToBundles s).Perm bs₀

theorem find?_usedSlots {l : List Slot} {s : Slot} (f : Slot → List ℕ) (hs : s ∈ l) :
    (l.map fun s => (s, f s)).find? (fun y => y.1 = s) = some (s, f s) := by
  induction l with
  | nil => cases hs
  | cons s' l ih =>
      rw [List.map_cons, List.find?_cons]
      by_cases heq : s' = s
      · simp [heq]
      · simp only [heq, decide_false]
        exact ih ((List.mem_cons.mp hs).resolve_left (Ne.symm heq))

section

variable (hv : SlotConstraints nodeToBundles degrees caps required info v)
include hv

theorem KeptIn.step (hdisj : old.DisjointBundles) {done : List ExecutorId}
    {x : ExecutorConfig × OrderedSet Slot} (h : KeptIn nodeToBundles caps v old done x)
    {e : ExecutorId} {i : ExecInfo} {bs : List ℕ} (hi : info.get? e = some i)
    (hold : old.get? e = some bs) (hne : bs ≠ []) (hdesc : i.Describes nodeToBundles bs)
    (honce : bs.Nodup) (he : e ∉ done) :
    KeptIn nodeToBundles caps v old (done ++ [e]) (keepExecutor caps v
      (((slotsOf caps).filter v.u).map fun s => (s, v.bundles nodeToBundles s)) x e i) := by
  have hmono : KeptIn nodeToBundles caps v old (done ++ [e]) x := by
    refine ⟨fun e' bs' he' => ?_, h.values, fun s hs => ?_⟩
    · obtain ⟨hmem, hrest⟩ := h.kept e' bs' he'
      exact ⟨List.mem_append_left _ hmem, hrest⟩
    · obtain ⟨hs, e', he', hrest⟩ := h.slots s hs
      exact ⟨hs, e', List.mem_append_left _ he', hrest⟩
  unfold keepExecutor
  cases hfind : (List.range (caps.getD (i.node, i.tpDegree) 0)).find? (v.mKeep e) with
  | none => exact hmono
  | some k =>
      obtain ⟨hused, hperm⟩ := hv.perm_of_mKeep hi hdesc honce
        (List.mem_range.mp (List.mem_of_find?_eq_some hfind)) (List.find?_some hfind)
      dsimp only
      rw [find?_usedSlots _ hused]
      dsimp only
      generalize (⟨i.node, i.tpDegree, k⟩ : Slot) = s at hused hperm
      have hnew : e ∉ x.1 := fun hmem => by
        obtain ⟨bs', hbs'⟩ := (Dict.mem_iff_exists _ _).mp hmem
        exact he (h.kept e bs' hbs').1
      -- an executor in the same slot has a bundle in common
      have hslot : s ∉ x.2 := fun hmem => by
        obtain ⟨-, e', he', bs', hold', hperm'⟩ := h.slots s hmem
        obtain ⟨b, hb⟩ := List.exists_mem_of_ne_nil bs hne
        have hee' : e ≠ e' := fun hc => he (hc ▸ he')
        exact hdisj.not_mem hold hold' hee' hb (hperm'.mem_iff.mp (hperm.mem_iff.mpr hb))
      constructor
      · intro e' bs' he'
        dsimp only at he'
        rw [Dict.get?_set] at he'
        split_ifs at he' with heq
        · rw [Option.some.injEq] at he'
          refine ⟨by simp [heq], bs, heq ▸ hold, he' ▸ hperm⟩
        · exact hmono.kept e' bs' he'
      · have hitems : (x.2.add s).items = x.2.items ++ [s] := by
          rw [OrderedSet.add, dif_neg ((OrderedSet.mem_def _ _).not.mp hslot)]
        rw [hitems, List.map_append, List.map_singleton]
        refine (Dict.values_set_perm _ _ _).trans ?_
        rw [Dict.erase_of_not_mem hnew]
        exact (h.values.cons _).trans (List.perm_append_singleton _ _).symm
      · intro s' hs'
        rcases (OrderedSet.mem_add _ _ _).mp hs' with rfl | hs'
        · exact ⟨hused, e, by simp, bs, hold, hperm⟩
        · exact hmono.slots s' hs'

theorem keptIn_foldl (hdisj : old.DisjointBundles) (honce : ∀ e bs, old.get? e = some bs → bs.Nodup)
    (hinfo : ∀ e i, info.get? e = some i ↔
      ∃ bs, old.get? e = some bs ∧ bs ≠ [] ∧ i.Describes nodeToBundles bs) :
    KeptIn nodeToBundles caps v old info.keys (info.entries.foldl (fun x y => keepExecutor caps v
      (((slotsOf caps).filter v.u).map fun s => (s, v.bundles nodeToBundles s)) x y.1 y.2)
      (.empty, .empty)) := by
  have hall : ∀ (l : List (ExecutorId × ExecInfo)) (done : List ExecutorId)
      (x : ExecutorConfig × OrderedSet Slot), (∀ y ∈ l, y ∈ info.entries) →
      (done ++ l.map Prod.fst).Nodup → KeptIn nodeToBundles caps v old done x →
      KeptIn nodeToBundles caps v old (done ++ l.map Prod.fst)
        (l.foldl (fun x y => keepExecutor caps v
          (((slotsOf caps).filter v.u).map fun s => (s, v.bundles nodeToBundles s)) x y.1 y.2)
          x) := by
    intro l
    induction l with
    | nil =>
        intro done x _ _ hx
        rw [List.map_nil, List.append_nil]
        exact hx
    | cons y l ih =>
        intro done x hl hdone hx
        have hy := (Dict.mem_entries_iff info y.1 y.2).mp (hl y List.mem_cons_self)
        obtain ⟨bs, hold, hne, hdesc⟩ := (hinfo y.1 y.2).mp hy
        have he : y.1 ∉ done := fun hmem => by
          rw [List.nodup_append] at hdone
          exact hdone.2.2 y.1 hmem y.1 List.mem_cons_self rfl
        have hstep := hx.step hv hdisj hy hold hne hdesc (honce _ _ hold) he
        rw [List.map_cons] at hdone ⊢
        have hassoc : done ++ y.1 :: l.map Prod.fst = (done ++ [y.1]) ++ l.map Prod.fst := by
          rw [List.append_assoc, List.singleton_append]
        rw [hassoc] at hdone ⊢
        exact ih _ _ (fun z hz => hl z (List.mem_cons_of_mem y hz)) hdone hstep
  refine hall info.entries [] _ (fun y hy => hy) info.nodup ⟨?_, .refl _, ?_⟩
  · intro e bs he
    cases he
  · intro s hs
    exact absurd hs (OrderedSet.not_mem_empty s)

end

/-! ## New executors -/

/-- The slots that are not kept get new executors, one each. -/
theorem foldl_fillSlot (f : Slot → List ℕ) (assigned : OrderedSet Slot) (l : List Slot)
    (x : ExecutorConfig × ExecutorId) (hx : ∀ e ∈ x.1, e < x.2) :
    ((l.map fun s => (s, f s)).foldl (fillSlot assigned) x).1.values.Perm
      (x.1.values ++ (l.filter (· ∉ assigned)).map f) ∧
    (∀ e, e < x.2 →
      ((l.map fun s => (s, f s)).foldl (fillSlot assigned) x).1.get? e = x.1.get? e) := by
  induction l generalizing x with
  | nil => exact ⟨by simp, fun _ _ => rfl⟩
  | cons s l ih =>
      rw [List.map_cons, List.foldl_cons, fillSlot, List.filter_cons]
      by_cases hs : s ∈ assigned
      · rw [if_pos hs, if_neg (by simpa using hs)]
        exact ih x hx
      · rw [if_neg hs, if_pos (by simpa using hs), List.map_cons]
        have hnew : x.2 ∉ x.1 := fun hmem => lt_irrefl _ (hx _ hmem)
        obtain ⟨hvalues, hget⟩ := ih (x.1.set x.2 (f s), x.2 + 1) (by
          intro e he
          rcases (Dict.mem_set _ _ _ _).mp he with rfl | he
          · exact Nat.lt_succ_self _
          · exact Nat.lt_succ_of_lt (hx e he))
        constructor
        · refine hvalues.trans ?_
          have hset := Dict.values_set_perm x.1 x.2 (f s)
          rw [Dict.erase_of_not_mem hnew] at hset
          refine (hset.append_right _).trans ?_
          exact List.perm_middle.symm
        · intro e he
          rw [hget e (Nat.lt_succ_of_lt he), Dict.get?_set, if_neg he.ne]

end Solution

/-- What a configuration that was read off has to be: it uses every bundle once, every
executor is on one node, the counts are the required ones, an old executor has its old
bundles, every slot in use has one executor, and the new ids are larger than the old ones. -/
structure Extracted (nodeToBundles : Dict String (List ℕ)) (degrees : List ℕ)
    (required : Dict ℕ ℕ) (old : ExecutorConfig) (slots : List (List ℕ)) (new : ExecutorConfig) :
    Prop where
  usesOnce : new.UsesOnce nodeToBundles.values.flatten
  onNode : ∀ e bs, new.get? e = some bs → ∃ n ∈ nodeToBundles, bs ⊆ nodeToBundles.getD n []
  counts : ∀ g ∈ degrees, new.values.countP (·.length = g) = required.getD g 0
  kept : ∀ e bs bs₀, new.get? e = some bs → old.get? e = some bs₀ → bs.Perm bs₀
  slots : new.values.Perm slots
  larger : ∀ e ∈ new, e ∉ old → ∀ e' ∈ old, e' < e

/-- Whatever values satisfy the constraints, a configuration is read off them. -/
theorem movement_extraction_sound {nodeToBundles : Dict String (List ℕ)} {degrees : List ℕ}
    {xNg : Dict (String × ℕ) ℕ} {old : ExecutorConfig} {info : Dict ExecutorId ExecInfo}
    {caps : Dict (String × ℕ) ℕ} {v : SlotValues} (hnodup : nodeToBundles.values.flatten.Nodup)
    (hdisj : old.DisjointBundles) (honce : ∀ x ∈ old.entries, x.2.Nodup)
    (hpos : ∃ g ∈ degrees, 0 < g)
    (hbuilt : ModelBuilt nodeToBundles degrees xNg old info caps)
    (hv : SlotConstraints nodeToBundles degrees caps (requiredCounts xNg) info v) :
    ∃ new, getMinimumMovementConfig nodeToBundles degrees xNg old v = .ok new ∧
      Extracted nodeToBundles degrees (requiredCounts xNg) old
        (((slotsOf caps).filter v.u).map (v.bundles nodeToBundles)) new := by
  have hinfo := ensures_of_ok (ensures_oldExecInfo_iff hnodup old) hbuilt.described
  obtain ⟨hdiv, hcaps⟩ :=
    ensures_of_ok (ensures_slotCapacities_iff nodeToBundles degrees) hbuilt.divided
  have hbundles := hv.perm_bundles hnodup hdiv hcaps hpos
  have hkept := keptIn_foldl hv hdisj
    (fun e bs he => honce (e, bs) ((Dict.mem_entries_iff _ _ _).mpr he)) hinfo
  have htotal : ((((slotsOf caps).filter v.u).map fun s => (s, v.bundles nodeToBundles s)).map
      fun y => y.2.length).sum = nodeToBundles.values.flatten.length := by
    rw [← hbundles.length_eq, List.length_flatMap, List.map_map]
    rfl
  suffices hens : (getMinimumMovementConfig nodeToBundles degrees xNg old v).Ensures
      (fun _ => False) (Extracted nodeToBundles degrees (requiredCounts xNg) old
        (((slotsOf caps).filter v.u).map (v.bundles nodeToBundles))) from hens.exists_ok
  unfold getMinimumMovementConfig
  rw [hbuilt.described, ensures_bind, ensures_ok, hbuilt.divided,
    ensures_bind, ensures_ok, hbuilt.checked, ensures_bind,
    ensures_ok, hv.usedSlots_eq, ensures_bind, ensures_ok, pyAssert,
    if_pos (decide_eq_true htotal), ensures_bind, ensures_ok]
  dsimp only
  rw [ensures_pure]
  generalize info.entries.foldl (fun x y => keepExecutor caps v
    (((slotsOf caps).filter v.u).map fun s => (s, v.bundles nodeToBundles s)) x y.1 y.2)
    (.empty, .empty) = kept at hkept
  have hold : ∀ e ∈ kept.1, e ∈ old := by
    intro e he
    obtain ⟨bs, hbs⟩ := (Dict.mem_iff_exists _ _).mp he
    obtain ⟨-, bs₀, hbs₀, -⟩ := hkept.kept e bs hbs
    exact Dict.mem_of_get? hbs₀
  obtain ⟨hvalues, hget⟩ := foldl_fillSlot (v.bundles nodeToBundles) kept.2
    ((slotsOf caps).filter v.u) (kept.1, nextId old) fun e he => lt_nextId (hold e he)
  generalize ((((slotsOf caps).filter v.u).map fun s => (s, v.bundles nodeToBundles s)).foldl
    (fillSlot kept.2) (kept.1, nextId old)).1 = new at hvalues hget
  -- every slot in use has one executor
  have hslots : new.values.Perm (((slotsOf caps).filter v.u).map (v.bundles nodeToBundles)) := by
    have hperm : (kept.2.items ++ ((slotsOf caps).filter v.u).filter (· ∉ kept.2)).Perm
        ((slotsOf caps).filter v.u) := by
      rw [List.perm_ext_iff_of_nodup ?_ ((nodup_slotsOf caps).filter _)]
      · intro s
        rw [List.mem_append, List.mem_filter, decide_eq_true_eq]
        constructor
        · rintro (hs | hs)
          · exact (hkept.slots s hs).1
          · exact hs.1
        · intro hs
          by_cases hmem : s ∈ kept.2
          · exact Or.inl hmem
          · exact Or.inr ⟨hs, hmem⟩
      · refine kept.2.nodup.append (((nodup_slotsOf caps).filter _).filter _) fun s hs hs' => ?_
        exact of_decide_eq_true (List.mem_filter.mp hs').2 hs
    refine hvalues.trans ((hkept.values.append_right _).trans ?_)
    rw [← List.map_append]
    exact hperm.map _
  have hslot : ∀ e bs, new.get? e = some bs →
      ∃ s ∈ (slotsOf caps).filter v.u, v.bundles nodeToBundles s = bs := by
    intro e bs hbs
    have hmem : bs ∈ new.values :=
      List.mem_map.mpr ⟨(e, bs), (Dict.mem_entries_iff _ _ _).mpr hbs, rfl⟩
    rw [hslots.mem_iff] at hmem
    exact List.mem_map.mp hmem
  refine ⟨?_, ?_, ?_, ?_, hslots, ?_⟩
  · exact usesOnce_of_perm (hslots.flatten.trans hbundles) hnodup
  · intro e bs hbs
    obtain ⟨s, hs, rfl⟩ := hslot e bs hbs
    obtain ⟨c, hc, -⟩ := mem_slotsOf.mp (List.mem_of_mem_filter hs)
    exact ⟨s.node, ((hcaps _ _ _).mp hc).1, fun b hb => (SlotValues.mem_bundles.mp hb).1⟩
  · intro g hg
    rw [hslots.countP_eq, List.countP_map, hv.countP_used]
    by_cases hnone : (slotsOf caps).filter (·.tpDegree = g) = []
    · rw [hnone]
      refine ((checkCapacities_iff.mp hbuilt.checked).1 g hg fun s hs hdeg => ?_).symm
      exact List.filter_eq_nil_iff.mp hnone s hs (decide_eq_true hdeg)
    · exact hv.required g hg hnone
  · intro e bs bs₀ hbs hbs₀
    rw [hget e (lt_nextId (Dict.mem_of_get? hbs₀))] at hbs
    obtain ⟨-, bs₁, hbs₁, hperm⟩ := hkept.kept e bs hbs
    rw [hbs₀, Option.some.injEq] at hbs₁
    rw [hbs₁]
    exact hperm
  · intro e he hno e' he'
    refine (lt_nextId he').trans_le (Nat.le_of_not_lt fun hlt => hno ?_)
    obtain ⟨bs, hbs⟩ := (Dict.mem_iff_exists _ _).mp he
    rw [hget e hlt] at hbs
    exact hold e (Dict.mem_of_get? hbs)

def fourBundles : Dict String (List ℕ) := Dict.empty.set "n" [0, 1, 2, 3]

def unevenConfig : ExecutorConfig := ((Dict.empty.set 0 [0, 1]).set 1 [2]).set 2 [3]

def evenSlots : SlotValues where
  u := fun s => s.tpDegree = 2
  a := fun s b => s.tpDegree = 2 ∧ b / 2 = s.index
  mKeep := fun e k => e = 0 ∧ k = 0

/-- The first executor is kept and the others are replaced by one. -/
theorem movement_extraction_even : ∃ (info : Dict ExecutorId ExecInfo)
    (caps : Dict (String × ℕ) ℕ) (new : ExecutorConfig),
    ModelBuilt fourBundles [2, 1] (Dict.empty.set ("n", 2) 2) unevenConfig info caps ∧
    SlotConstraints fourBundles [2, 1] caps (requiredCounts (Dict.empty.set ("n", 2) 2)) info
      evenSlots ∧
    getMinimumMovementConfig fourBundles [2, 1] (Dict.empty.set ("n", 2) 2) unevenConfig evenSlots =
      .ok new ∧
    new.UsesOnce fourBundles.values.flatten := by
  have hmodel : (oldExecInfo fourBundles unevenConfig).Ensures (fun _ => False) fun info =>
      (slotCapacities fourBundles [2, 1]).Ensures (fun _ => False) fun caps =>
        (checkCapacities caps [2, 1] (requiredCounts (Dict.empty.set ("n", 2) 2)) info).Ensures
          (fun _ => False) fun _ =>
            SlotConstraints fourBundles [2, 1] caps (requiredCounts (Dict.empty.set ("n", 2) 2))
              info evenSlots := by
    decide +kernel
  obtain ⟨info, hinfo, hmodel⟩ := hmodel.exists_ok
  obtain ⟨caps, hcaps, hmodel⟩ := hmodel.exists_ok
  obtain ⟨_, hcheck, hv⟩ := hmodel.exists_ok
  have hbuilt : ModelBuilt fourBundles [2, 1] (Dict.empty.set ("n", 2) 2) unevenConfig info caps :=
    ⟨hinfo, hcaps, hcheck⟩
  obtain ⟨new, hok, hnew⟩ := movement_extraction_sound (by decide) (by decide) (by decide)
    ⟨2, by decide, by decide⟩ hbuilt hv
  exact ⟨info, caps, new, hbuilt, hv, hok, hnew.usesOnce⟩

end TeDiServe

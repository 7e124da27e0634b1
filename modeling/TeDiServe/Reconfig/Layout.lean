import TeDiServe.Reconfig.Initial

/-!
# The slots of the second optimiser

The second optimiser works on slots: every node has as many slots of a TP degree as its
bundles allow, provided that the degree divides their number. What the code computes from
the layout, the candidate degrees and the current configuration is described here, with
the conditions under which it raises. `SlotConstraints` are the constraints that it posts
about the binary variables.
-/

namespace TeDiServe

variable {nodeToBundles : Dict String (List ℕ)} {old : ExecutorConfig} {degrees : List ℕ}

/-! ## Bundles and nodes -/

section

variable (hnodup : nodeToBundles.values.flatten.Nodup)
include hnodup

theorem get?_bundleToNode (b : ℕ) (n : String) :
    (bundleToNode nodeToBundles).get? b = some n ↔ b ∈ nodeToBundles.getD n [] := by
  have heq : bundleToNode nodeToBundles =
      (nodeToBundles.entries.flatMap fun x => x.2.map fun b => (b, x.1)).foldl
        (fun d p => d.set p.1 p.2) .empty := by
    rw [List.foldl_flatMap]
    simp only [List.foldl_map]
    rfl
  have hkeys : (nodeToBundles.entries.flatMap fun x => x.2.map fun b => (b, x.1)).map Prod.fst =
      nodeToBundles.values.flatten := by
    rw [List.map_flatMap]
    simp [Dict.values, List.flatMap, Function.comp_def]
  have hget : ∀ p ∈ nodeToBundles.entries.flatMap fun x => x.2.map fun b => (b, x.1),
      (bundleToNode nodeToBundles).get? p.1 = some p.2 := by
    intro p hp
    rw [heq]
    exact Dict.get?_foldl_set_of_mem Prod.fst Prod.snd _ _ (hkeys ▸ hnodup) hp
  have hmem : ∀ {b n}, b ∈ nodeToBundles.getD n [] →
      (b, n) ∈ nodeToBundles.entries.flatMap fun x => x.2.map fun b => (b, x.1) := by
    intro b n hb
    obtain ⟨bs, hbs⟩ :=
      (Dict.mem_iff_exists _ _).mp (Dict.mem_of_getD_ne_nil (List.ne_nil_of_mem hb))
    rw [Dict.getD_of_get? hbs] at hb
    exact List.mem_flatMap.mpr ⟨(n, bs), (Dict.mem_entries_iff _ _ _).mpr hbs,
      List.mem_map.mpr ⟨b, hb, rfl⟩⟩
  constructor
  · intro h
    obtain ⟨n', -, hb⟩ :=
      Dict.exists_mem_getD_of_mem_flatten (mem_flatten_of_mem_bundleToNode (Dict.mem_of_get? h))
    obtain rfl : n = n' := Option.some.inj (h.symm.trans (hget (b, n') (hmem hb)))
    exact hb
  · exact fun hb => hget (b, n) (hmem hb)

def ExecInfo.Describes (nodeToBundles : Dict String (List ℕ)) (i : ExecInfo) (bs : List ℕ) : Prop :=
  bs ⊆ nodeToBundles.getD i.node [] ∧ i.tpDegree = bs.length ∧
    i.bundles = bs.insertionSort (· ≤ ·)

theorem ensures_nodes (bs : List ℕ) :
    (bs.mapM (subscript (bundleToNode nodeToBundles) .bundleToNode)).Ensures
      (fun _ => ¬∃ n, bs ⊆ nodeToBundles.getD n []) fun nodes =>
        nodes.length = bs.length ∧
        ∀ n, (∀ n' ∈ nodes, n' = n) ↔ bs ⊆ nodeToBundles.getD n [] := by
  have hone : ∀ b ∈ bs, (subscript (bundleToNode nodeToBundles) .bundleToNode b).Ensures
      (fun _ => ¬∃ n, bs ⊆ nodeToBundles.getD n []) fun n => b ∈ nodeToBundles.getD n [] := by
    intro b hb
    rw [ensures_subscript]
    refine ⟨fun n hn => (get?_bundleToNode hnodup b n).mp hn, ?_⟩
    rintro hnone ⟨n, hsub⟩
    rw [(get?_bundleToNode hnodup b n).mpr (hsub hb)] at hnone
    cases hnone
  refine (ensures_mapM bs hone).imp fun nodes hnodes => ⟨hnodes.length_eq.symm, fun n => ?_⟩
  clear hone
  induction hnodes with
  | nil => simp
  | cons hb _ ih =>
      rw [List.forall_mem_cons, List.cons_subset, ih]
      refine and_congr_left fun _ => ⟨fun h => h ▸ hb, fun h => Dict.eq_of_mem_getD hnodup hb h⟩

/-- The old executors with bundles are described, if all of them are on one node each. -/
theorem ensures_oldExecInfo_iff (old : ExecutorConfig) :
    (oldExecInfo nodeToBundles old).Ensures
      (fun _ => ∃ e bs, old.get? e = some bs ∧ ¬∃ n, bs ⊆ nodeToBundles.getD n []) fun info =>
      ∀ e i, info.get? e = some i ↔
        ∃ bs, old.get? e = some bs ∧ bs ≠ [] ∧ i.Describes nodeToBundles bs := by
  unfold oldExecInfo
  refine (ensures_foldlM_rest (fun rest (info : Dict ExecutorId ExecInfo) =>
    ∃ done, old.entries = done ++ rest ∧ ∀ e i, info.get? e = some i ↔
      ∃ bs, (e, bs) ∈ done ∧ bs ≠ [] ∧ i.Describes nodeToBundles bs) ?_ _ _
    ⟨[], rfl, fun e i => by simp⟩).imp ?_
  · rintro info ⟨e, bs⟩ rest ⟨done, hdone, hinfo⟩
    have hold : old.get? e = some bs := (Dict.mem_entries_iff _ _ _).mp (by
      rw [hdone]
      exact List.mem_append_right _ List.mem_cons_self)
    have hnew : ∀ bs', (e, bs') ∉ done := by
      intro bs' hmem
      have hkeys := old.nodup
      rw [hdone, List.map_append, List.nodup_append] at hkeys
      exact hkeys.2.2 e (List.mem_map.mpr ⟨_, hmem, rfl⟩) e
        (List.mem_map_of_mem (f := Prod.fst) List.mem_cons_self) rfl
    have hdone' : old.entries = (done ++ [(e, bs)]) ++ rest := by
      rw [hdone, List.append_assoc, List.singleton_append]
    dsimp only
    by_cases hnil : bs = []
    · rw [if_pos hnil]
      refine ⟨done ++ [(e, bs)], hdone', fun e' i => ?_⟩
      rw [hinfo]
      constructor
      · rintro ⟨bs', hmem, hrest⟩
        exact ⟨bs', List.mem_append_left _ hmem, hrest⟩
      · rintro ⟨bs', hmem, hne, hrest⟩
        rcases List.mem_append.mp hmem with hmem | hmem
        · exact ⟨bs', hmem, hne, hrest⟩
        · rw [List.mem_singleton, Prod.mk.injEq] at hmem
          exact absurd (hmem.2.trans hnil) hne
    · rw [if_neg hnil, ensures_bind]
      apply (ensures_nodes hnodup bs).mono fun _ herr => ⟨e, bs, hold, herr⟩
      rintro nodes ⟨hlen, hnodes⟩
      have hne : nodes ≠ [] := by
        rw [← List.length_pos_iff, hlen]
        exact List.length_pos_of_ne_nil hnil
      split
      · next n hn =>
        have hsub : bs ⊆ nodeToBundles.getD n [] := by
          rw [← hnodes]
          intro n' hn'
          rw [← List.mem_dedup, hn] at hn'
          exact List.mem_singleton.mp hn'
        rw [ensures_pure]
        refine ⟨done ++ [(e, bs)], hdone', fun e' i => ?_⟩
        rw [Dict.get?_set]
        split_ifs with heq
        · subst heq
          rw [Option.some.injEq]
          constructor
          · rintro rfl
            exact ⟨bs, by simp, hnil, hsub, rfl, rfl⟩
          · rintro ⟨bs', hmem, hne', hsub', hdeg, hbs⟩
            rcases List.mem_append.mp hmem with hmem | hmem
            · exact absurd hmem (hnew bs')
            · rw [List.mem_singleton, Prod.mk.injEq] at hmem
              obtain ⟨-, rfl⟩ := hmem
              obtain ⟨b, hb⟩ := List.exists_mem_of_ne_nil bs' hne'
              have hnode := Dict.eq_of_mem_getD hnodup (hsub hb) (hsub' hb)
              obtain ⟨n', g, bs''⟩ := i
              simp_all
        · rw [hinfo]
          constructor
          · rintro ⟨bs', hmem, hrest⟩
            exact ⟨bs', List.mem_append_left _ hmem, hrest⟩
          · rintro ⟨bs', hmem, hrest⟩
            rcases List.mem_append.mp hmem with hmem | hmem
            · exact ⟨bs', hmem, hrest⟩
            · rw [List.mem_singleton, Prod.mk.injEq] at hmem
              exact absurd hmem.1 heq
      · next hno =>
        refine ⟨e, bs, hold, ?_⟩
        rintro ⟨n, hsub⟩
        exact hno n (List.dedup_eq_singleton hne ((hnodes n).mpr hsub))
  · rintro info ⟨done, hdone, hinfo⟩ e i
    rw [List.append_nil] at hdone
    rw [hinfo, ← hdone]
    simp only [Dict.mem_entries_iff]

end

/-! ## Slots -/

def Divisible (nodeToBundles : Dict String (List ℕ)) (degrees : List ℕ) : Prop :=
  ∀ n ∈ nodeToBundles, ∀ g ∈ degrees, 0 < g → g ∣ (nodeToBundles.getD n []).length

def Capacities (nodeToBundles : Dict String (List ℕ)) (degrees : List ℕ)
    (caps : Dict (String × ℕ) ℕ) : Prop :=
  ∀ n g c, caps.get? (n, g) = some c ↔
    n ∈ nodeToBundles ∧ g ∈ degrees ∧ 0 < g ∧ 0 < c ∧ c = (nodeToBundles.getD n []).length / g

theorem ensures_nodeCapacities (n : String) (len : ℕ) (gs : List ℕ)
    (caps : Dict (String × ℕ) ℕ) :
    (gs.foldlM (fun (caps : Dict (String × ℕ) ℕ) g =>
      if g = 0 then pure caps
      else do
        pyAssert (len % g = 0)
        pure (if 0 < len / g then caps.set (n, g) (len / g) else caps)) caps).Ensures
      (fun _ => ∃ g ∈ gs, 0 < g ∧ ¬g ∣ len) fun caps' =>
        (∀ g ∈ gs, 0 < g → g ∣ len) ∧ ∀ n' g, caps'.get? (n', g) =
          if n' = n ∧ g ∈ gs ∧ 0 < g ∧ 0 < len / g then some (len / g) else caps.get? (n', g) := by
  induction gs generalizing caps with
  | nil =>
      refine ⟨by simp, fun n' g => ?_⟩
      rw [if_neg (by simp)]
  | cons g gs ih =>
      rw [List.foldlM_cons, ensures_bind]
      by_cases hg : g = 0
      · rw [if_pos hg, ensures_pure]
        apply (ih caps).mono
        · rintro _ ⟨g', hg', hrest⟩
          exact ⟨g', List.mem_cons_of_mem g hg', hrest⟩
        · rintro caps' ⟨hdvd, hget⟩
          refine ⟨?_, fun n' g' => ?_⟩
          · intro g' hg' hpos
            rcases List.mem_cons.mp hg' with rfl | hg'
            · omega
            · exact hdvd g' hg' hpos
          · rw [hget]
            congr 1
            rw [eq_iff_iff, List.mem_cons]
            constructor
            · rintro ⟨h₁, h₂, h₃⟩
              exact ⟨h₁, Or.inr h₂, h₃⟩
            · rintro ⟨h₁, h₂ | h₂, h₃⟩
              · omega
              · exact ⟨h₁, h₂, h₃⟩
      · rw [if_neg hg, ensures_bind, ensures_pyAssert]
        have hpos := Nat.pos_of_ne_zero hg
        refine ⟨fun hmod => ?_, fun hmod => ⟨g, List.mem_cons_self, hpos, ?_⟩⟩
        · have hdvd := Nat.dvd_of_mod_eq_zero (of_decide_eq_true hmod)
          rw [ensures_pure]
          apply (ih _).mono
          · rintro _ ⟨g', hg', hrest⟩
            exact ⟨g', List.mem_cons_of_mem g hg', hrest⟩
          · rintro caps' ⟨hall, hget⟩
            refine ⟨List.forall_mem_cons.mpr ⟨fun _ => hdvd, hall⟩, fun n' g' => ?_⟩
            have hfirst : (if 0 < len / g then caps.set (n, g) (len / g) else caps).get? (n', g') =
                if n' = n ∧ g' = g ∧ 0 < len / g then some (len / g) else caps.get? (n', g') := by
              by_cases hlen : 0 < len / g
              · rw [if_pos hlen, Dict.get?_set]
                simp [hlen]
              · rw [if_neg hlen]
                simp [hlen]
            rw [hget, hfirst]
            by_cases h₁ : n' = n ∧ g' ∈ gs ∧ 0 < g' ∧ 0 < len / g'
            · rw [if_pos h₁, if_pos ⟨h₁.1, List.mem_cons_of_mem g h₁.2.1, h₁.2.2⟩]
            · rw [if_neg h₁]
              by_cases h₂ : n' = n ∧ g' = g ∧ 0 < len / g
              · obtain ⟨rfl, rfl, hlen⟩ := h₂
                rw [if_pos ⟨rfl, rfl, hlen⟩, if_pos ⟨rfl, List.mem_cons_self, hpos, hlen⟩]
              · rw [if_neg h₂, if_neg]
                rintro ⟨h₃, h₄, h₅, h₆⟩
                rcases List.mem_cons.mp h₄ with rfl | h₄
                · exact h₂ ⟨h₃, rfl, h₆⟩
                · exact h₁ ⟨h₃, h₄, h₅, h₆⟩
        · intro hdvd
          exact of_decide_eq_false hmod (Nat.mod_eq_zero_of_dvd hdvd)

theorem ensures_slotCapacities_iff (nodeToBundles : Dict String (List ℕ)) (degrees : List ℕ) :
    (slotCapacities nodeToBundles degrees).Ensures (fun _ => ¬Divisible nodeToBundles degrees)
      fun caps => Divisible nodeToBundles degrees ∧ Capacities nodeToBundles degrees caps := by
  unfold slotCapacities
  refine (ensures_foldlM_rest (fun rest (caps : Dict (String × ℕ) ℕ) =>
    ∃ done, nodeToBundles.entries = done ++ rest ∧
      (∀ x ∈ done, ∀ g ∈ degrees, 0 < g → g ∣ x.2.length) ∧
      ∀ n g c, caps.get? (n, g) = some c ↔ ∃ bs, (n, bs) ∈ done ∧
        g ∈ degrees ∧ 0 < g ∧ 0 < c ∧ c = bs.length / g) ?_ _ _
    ⟨[], rfl, by simp, fun n g c => by simp⟩).imp ?_
  · rintro caps ⟨n, bs⟩ rest ⟨done, hdone, hdvd, hcaps⟩
    have hget : nodeToBundles.get? n = some bs := (Dict.mem_entries_iff _ _ _).mp (by
      rw [hdone]
      exact List.mem_append_right _ List.mem_cons_self)
    have hnew : ∀ bs', (n, bs') ∉ done := by
      intro bs' hmem
      have hkeys := nodeToBundles.nodup
      rw [hdone, List.map_append, List.nodup_append] at hkeys
      exact hkeys.2.2 n (List.mem_map.mpr ⟨_, hmem, rfl⟩) n
        (List.mem_map_of_mem (f := Prod.fst) List.mem_cons_self) rfl
    apply (ensures_nodeCapacities n bs.length degrees caps).mono
    · rintro _ ⟨g, hg, hpos, hno⟩ hall
      have hdvd := hall n (Dict.mem_of_get? hget) g hg hpos
      rw [Dict.getD_of_get? hget] at hdvd
      exact hno hdvd
    · rintro caps' ⟨hdvd', hcaps'⟩
      refine ⟨done ++ [(n, bs)], ?_, ?_, fun n' g c => ?_⟩
      · rw [hdone, List.append_assoc, List.singleton_append]
      · intro x hx
        rcases List.mem_append.mp hx with hx | hx
        · exact hdvd x hx
        · rw [List.mem_singleton] at hx
          rw [hx]
          exact hdvd'
      · rw [hcaps']
        simp only [List.mem_append, List.mem_singleton, Prod.mk.injEq]
        split_ifs with h
        · obtain ⟨rfl, hg, hpos, hlen⟩ := h
          rw [Option.some.injEq]
          constructor
          · rintro rfl
            exact ⟨bs, Or.inr ⟨rfl, rfl⟩, hg, hpos, hlen, rfl⟩
          · rintro ⟨bs', hmem | ⟨-, rfl⟩, -, -, -, hc⟩
            · exact absurd hmem (hnew bs')
            · exact hc.symm
        · rw [hcaps]
          constructor
          · rintro ⟨bs', hmem, hrest⟩
            exact ⟨bs', Or.inl hmem, hrest⟩
          · rintro ⟨bs', hmem | ⟨rfl, rfl⟩, hg, hpos, hc, hlen⟩
            · exact ⟨bs', hmem, hg, hpos, hc, hlen⟩
            · exact absurd ⟨rfl, hg, hpos, hlen ▸ hc⟩ h
  · rintro caps ⟨done, hdone, hdvd, hcaps⟩
    rw [List.append_nil] at hdone
    constructor
    · intro n hn g hg hpos
      obtain ⟨bs, hbs⟩ := (Dict.mem_iff_exists _ _).mp hn
      rw [Dict.getD_of_get? hbs]
      exact hdvd (n, bs) (hdone ▸ (Dict.mem_entries_iff _ _ _).mpr hbs) g hg hpos
    · intro n g c
      rw [hcaps, ← hdone]
      simp only [Dict.mem_entries_iff]
      constructor
      · rintro ⟨bs, hbs, hg, hpos, hc, hlen⟩
        refine ⟨Dict.mem_of_get? hbs, hg, hpos, hc, ?_⟩
        rw [hlen, Dict.getD_of_get? hbs]
      · rintro ⟨hn, hg, hpos, hc, hlen⟩
        obtain ⟨bs, hbs⟩ := (Dict.mem_iff_exists _ _).mp hn
        rw [Dict.getD_of_get? hbs] at hlen
        exact ⟨bs, hbs, hg, hpos, hc, hlen⟩

theorem mem_slotsOf {caps : Dict (String × ℕ) ℕ} {s : Slot} :
    s ∈ slotsOf caps ↔ ∃ c, caps.get? (s.node, s.tpDegree) = some c ∧ s.index < c := by
  unfold slotsOf
  simp only [List.mem_flatMap, List.mem_map, List.mem_range]
  constructor
  · rintro ⟨⟨k, c⟩, hmem, i, hi, rfl⟩
    exact ⟨c, (Dict.mem_entries_iff _ _ _).mp hmem, hi⟩
  · rintro ⟨c, hc, hi⟩
    exact ⟨((s.node, s.tpDegree), c), (Dict.mem_entries_iff _ _ _).mpr hc, s.index, hi, rfl⟩

theorem nodup_slotsOf (caps : Dict (String × ℕ) ℕ) : (slotsOf caps).Nodup := by
  unfold slotsOf
  rw [List.nodup_flatMap]
  constructor
  · rintro ⟨k, c⟩ -
    refine List.nodup_range.map fun i j hij => ?_
    rw [Slot.mk.injEq] at hij
    exact hij.2.2
  · refine (List.pairwise_map.mp caps.nodup).imp ?_
    rintro x y hne s hs hs'
    obtain ⟨i, -, rfl⟩ := List.mem_map.mp hs
    obtain ⟨j, -, hj⟩ := List.mem_map.mp hs'
    rw [Slot.mk.injEq] at hj
    exact hne (Prod.ext hj.1.symm hj.2.1.symm)

/-! ## The constraints -/

/-- The constraints that are posted. Sums of binary variables are numbers of variables that
are set. -/
structure SlotConstraints (nodeToBundles : Dict String (List ℕ)) (degrees : List ℕ)
    (caps : Dict (String × ℕ) ℕ) (required : Dict ℕ ℕ) (info : Dict ExecutorId ExecInfo)
    (v : SlotValues) : Prop where
  fill : ∀ s ∈ slotsOf caps,
    (nodeToBundles.getD s.node []).countP (v.a s) = s.tpDegree * (v.u s).toNat
  exclusive : ∀ b ∈ nodeToBundles.values.flatten, ∀ n ∈ (bundleToNode nodeToBundles).get? b,
    (slotsOf caps).filter (·.node = n) ≠ [] →
    ((slotsOf caps).filter (·.node = n)).countP (v.a · b) = 1
  required : ∀ g ∈ degrees, (slotsOf caps).filter (·.tpDegree = g) ≠ [] →
    ((slotsOf caps).filter (·.tpDegree = g)).countP v.u = required.getD g 0
  keepOnce : ∀ x ∈ info.entries,
    (List.range (caps.getD (x.2.node, x.2.tpDegree) 0)).countP (v.mKeep x.1) ≤ 1
  keepUsed : ∀ x ∈ info.entries, ∀ k < caps.getD (x.2.node, x.2.tpDegree) 0,
    v.mKeep x.1 k = true → v.u ⟨x.2.node, x.2.tpDegree, k⟩ = true
  keepAssigned : ∀ x ∈ info.entries, ∀ k < caps.getD (x.2.node, x.2.tpDegree) 0,
    v.mKeep x.1 k = true → ∀ b ∈ x.2.bundles, v.a ⟨x.2.node, x.2.tpDegree, k⟩ b = true

instance (nodeToBundles : Dict String (List ℕ)) (degrees : List ℕ)
    (caps : Dict (String × ℕ) ℕ) (required : Dict ℕ ℕ) (info : Dict ExecutorId ExecInfo)
    (v : SlotValues) :
    Decidable (SlotConstraints nodeToBundles degrees caps required info v) :=
  decidable_of_iff
    ((∀ s ∈ slotsOf caps,
        (nodeToBundles.getD s.node []).countP (v.a s) = s.tpDegree * (v.u s).toNat) ∧
      (∀ b ∈ nodeToBundles.values.flatten, ∀ n ∈ (bundleToNode nodeToBundles).get? b,
        (slotsOf caps).filter (·.node = n) ≠ [] →
        ((slotsOf caps).filter (·.node = n)).countP (v.a · b) = 1) ∧
      (∀ g ∈ degrees, (slotsOf caps).filter (·.tpDegree = g) ≠ [] →
        ((slotsOf caps).filter (·.tpDegree = g)).countP v.u = required.getD g 0) ∧
      (∀ x ∈ info.entries,
        (List.range (caps.getD (x.2.node, x.2.tpDegree) 0)).countP (v.mKeep x.1) ≤ 1) ∧
      (∀ x ∈ info.entries, ∀ k < caps.getD (x.2.node, x.2.tpDegree) 0,
        v.mKeep x.1 k = true → v.u ⟨x.2.node, x.2.tpDegree, k⟩ = true) ∧
      ∀ x ∈ info.entries, ∀ k < caps.getD (x.2.node, x.2.tpDegree) 0,
        v.mKeep x.1 k = true → ∀ b ∈ x.2.bundles, v.a ⟨x.2.node, x.2.tpDegree, k⟩ b = true)
    ⟨fun h => ⟨h.1, h.2.1, h.2.2.1, h.2.2.2.1, h.2.2.2.2.1, h.2.2.2.2.2⟩,
      fun h => ⟨h.fill, h.exclusive, h.required, h.keepOnce, h.keepUsed, h.keepAssigned⟩⟩

theorem checkCapacities_iff {caps : Dict (String × ℕ) ℕ} {required : Dict ℕ ℕ}
    {info : Dict ExecutorId ExecInfo} :
    checkCapacities caps degrees required info = .ok () ↔
      (∀ g ∈ degrees, (∀ s ∈ slotsOf caps, s.tpDegree ≠ g) → required.getD g 0 = 0) ∧
        ∀ x ∈ info.entries, 0 < caps.getD (x.2.node, x.2.tpDegree) 0 := by
  unfold checkCapacities
  by_cases hnone : ∃ g ∈ degrees, (∀ s ∈ slotsOf caps, s.tpDegree ≠ g) ∧ required.getD g 0 ≠ 0
  · rw [if_pos hnone]
    refine iff_of_false (fun h => by cases h) fun h => ?_
    obtain ⟨g, hg, hslots, hreq⟩ := hnone
    exact hreq (h.1 g hg hslots)
  · have hall : ∀ g ∈ degrees, (∀ s ∈ slotsOf caps, s.tpDegree ≠ g) → required.getD g 0 = 0 :=
      fun g hg hslots => by_contra fun hreq => hnone ⟨g, hg, hslots, hreq⟩
    rw [if_neg hnone, pyAssert]
    by_cases hinfo : ∀ x ∈ info.entries, 0 < caps.getD (x.2.node, x.2.tpDegree) 0
    · rw [if_pos (decide_eq_true hinfo)]
      exact iff_of_true rfl ⟨hall, hinfo⟩
    · rw [if_neg (by simpa using hinfo)]
      exact iff_of_false (fun h => by cases h) fun h => hinfo h.2

/-- The model was built: the old executors are on one node each, the degrees divide the
bundles, and there are slots for what is required and for what is there. -/
structure ModelBuilt (nodeToBundles : Dict String (List ℕ)) (degrees : List ℕ)
    (xNg : Dict (String × ℕ) ℕ) (old : ExecutorConfig) (info : Dict ExecutorId ExecInfo)
    (caps : Dict (String × ℕ) ℕ) : Prop where
  described : oldExecInfo nodeToBundles old = .ok info
  divided : slotCapacities nodeToBundles degrees = .ok caps
  checked : checkCapacities caps degrees (requiredCounts xNg) info = .ok ()

end TeDiServe

import TeDiServe.Placement.Issue
import TeDiServe.Reconfig.Completeness
import TeDiServe.Reconfig.Planner

/-!
# What plans contain

Whatever the optimisers answer, a plan that is adopted has passed the checks at the end
of `plan_reconfiguration`: it uses every bundle once and keeps the bundles of the
executors it keeps. The executors it does not keep have ids larger than all of the
current configuration, and no executor of it is without bundles. The executors of the
first configuration have disjoint bundles.
-/

namespace TeDiServe

open ExecutorConfig ReconfigCommands

theorem lt_nextId {old : ExecutorConfig} {e : ExecutorId} (he : e ∈ old) : e < nextId old := by
  unfold nextId
  rw [Dict.mem_def] at he
  cases hkeys : old.keys with
  | nil =>
      rw [hkeys] at he
      cases he
  | cons e₀ es =>
      rw [hkeys] at he
      obtain ⟨hle, hall⟩ := List.le_foldl_max es e₀
      apply Nat.lt_succ_of_le
      rcases List.mem_cons.mp he with rfl | he
      · exact hle
      · exact hall e he

section Extraction

variable {nodeToBundles : Dict String (List ℕ)} {old : ExecutorConfig}

theorem mem_flatten_of_mem_bundleToNode {b : ℕ} (h : b ∈ bundleToNode nodeToBundles) :
    b ∈ nodeToBundles.values.flatten := by
  have hnode : ∀ (d : Dict ℕ String), ∀ x ∈ nodeToBundles.entries,
      (b ∈ x.2.foldl (fun d b => d.set b x.1) d ↔ b ∈ x.2 ∨ b ∈ d) := by
    intro d x _
    have hmem := Dict.mem_foldl_set (fun b : ℕ => b) (fun _ => x.1) x.2 d b
    rw [List.map_id'] at hmem
    exact hmem
  unfold bundleToNode at h
  rw [List.foldl_iff_exists_or (P := fun d => b ∈ d) _ hnode] at h
  rcases h with ⟨x, hx, hb⟩ | h
  · exact List.mem_flatten.mpr ⟨x.2, List.mem_map.mpr ⟨x, hx, rfl⟩, hb⟩
  · exact absurd h (Dict.not_mem_empty b)

theorem ensures_oldExecInfo (nodeToBundles : Dict String (List ℕ)) (old : ExecutorConfig) :
    (oldExecInfo nodeToBundles old).Ensures (fun _ => True) fun info =>
      (∀ e, e ∈ info → e ∈ old) ∧
        ∀ x ∈ old.entries, x.2 ⊆ nodeToBundles.values.flatten := by
  unfold oldExecInfo
  refine (ensures_foldlM_rest (E := fun _ => True)
    (fun rest (info : Dict ExecutorId ExecInfo) => (∀ x ∈ rest, x.1 ∈ old) ∧
      (∀ e, e ∈ info → e ∈ old) ∧
      ∀ x ∈ old.entries, x ∈ rest ∨ x.2 ⊆ nodeToBundles.values.flatten) ?_ _ _
    ⟨?_, fun e he => absurd he (Dict.not_mem_empty e), fun x hx => Or.inl hx⟩).imp ?_
  · rintro info x rest ⟨hrest, hinfo, hall⟩
    have hold : ∀ y ∈ rest, y.1 ∈ old := fun y hy => hrest y (List.mem_cons_of_mem x hy)
    have hdone : x.2 ⊆ nodeToBundles.values.flatten → ∀ y ∈ old.entries,
        y ∈ rest ∨ y.2 ⊆ nodeToBundles.values.flatten := by
      intro hx y hy
      rcases hall y hy with hmem | hsub
      · rcases List.mem_cons.mp hmem with rfl | hmem
        · exact Or.inr hx
        · exact Or.inl hmem
      · exact Or.inr hsub
    split_ifs with hempty
    · exact ⟨hold, hinfo, hdone (by rw [hempty]; exact List.nil_subset _)⟩
    · have hbundle : ∀ b ∈ x.2,
          (subscript (bundleToNode nodeToBundles) .bundleToNode b).Ensures (fun _ => True)
            fun _ => b ∈ nodeToBundles.values.flatten := by
        intro b _
        rw [ensures_subscript]
        exact ⟨fun n hn => mem_flatten_of_mem_bundleToNode (Dict.mem_of_get? hn),
          fun _ => trivial⟩
      apply (ensures_mapM (R := fun b _ => b ∈ nodeToBundles.values.flatten) x.2
        hbundle).bind
      intro nodes hnodes
      have hsub : x.2 ⊆ nodeToBundles.values.flatten := by
        intro b hb
        obtain ⟨_, -, hmem⟩ := exists_mem_zip_of_forall2 hnodes hb
        exact hmem
      split
      · refine ⟨hold, ?_, hdone hsub⟩
        intro e he
        rcases (Dict.mem_set _ _ _ _).mp he with rfl | he
        · exact hrest x List.mem_cons_self
        · exact hinfo e he
      · trivial
  · exact fun x hx => List.mem_map.mpr ⟨x, hx, rfl⟩
  · rintro info ⟨-, hinfo, hall⟩
    exact ⟨hinfo, fun x hx => (hall x hx).resolve_left List.not_mem_nil⟩

theorem ensures_slotCapacities (nodeToBundles : Dict String (List ℕ)) (degrees : List ℕ) :
    (slotCapacities nodeToBundles degrees).Ensures (fun _ => True) fun caps =>
      ∀ s ∈ slotsOf caps, 0 < s.tpDegree := by
  unfold slotCapacities
  refine (ensures_foldlM (E := fun _ => True)
    (I := fun caps : Dict (String × ℕ) ℕ => ∀ k, k ∈ caps → 0 < k.2) _ ?_ _
    fun k hk => absurd hk (Dict.not_mem_empty k)).imp ?_
  · intro caps x _ hcaps
    refine ensures_foldlM degrees (fun caps g _ hcaps => ?_) caps hcaps
    by_cases hg : g = 0
    · rw [if_pos hg]
      exact hcaps
    · rw [if_neg hg, ensures_bind, ensures_pyAssert]
      refine ⟨fun _ => ?_, fun _ => trivial⟩
      rw [ensures_pure]
      split_ifs
      · intro k hk
        rcases (Dict.mem_set _ _ _ _).mp hk with rfl | hk
        · exact Nat.pos_of_ne_zero hg
        · exact hcaps k hk
      · exact hcaps
  · intro caps hcaps s hs
    obtain ⟨x, hx, hs⟩ := List.mem_flatMap.mp hs
    obtain ⟨k, -, rfl⟩ := List.mem_map.mp hs
    exact hcaps x.1 (List.mem_map.mpr ⟨x, hx, rfl⟩)

theorem ensures_usedSlots {caps : Dict (String × ℕ) ℕ} (v : SlotValues)
    (hcaps : ∀ s ∈ slotsOf caps, 0 < s.tpDegree) :
    (usedSlots nodeToBundles caps v).Ensures (fun _ => True) fun used =>
      ∀ y ∈ used, y.2 ≠ [] := by
  unfold usedSlots
  refine ensures_mapM_mem _ fun s hs => ?_
  have hpos := hcaps s (List.mem_of_mem_filter hs)
  dsimp only
  split_ifs with hlen
  · trivial
  · rw [ensures_pure]
    intro hnil
    have hzero := congrArg List.length hnil
    rw [List.length_insertionSort, not_not.mp hlen, List.length_nil] at hzero
    exact hpos.ne' hzero

/-- The executors of a plan are kept ones or have larger ids, and all have bundles. -/
theorem ensures_getMinimumMovementConfig (degrees : List ℕ) (xNg : Dict (String × ℕ) ℕ)
    (v : SlotValues) :
    (getMinimumMovementConfig nodeToBundles degrees xNg old v).Ensures (fun _ => True)
      fun new => (∀ e bs, new.get? e = some bs → bs ≠ [] ∧ (e ∈ old ∨ nextId old ≤ e)) ∧
        ∀ x ∈ old.entries, x.2 ⊆ nodeToBundles.values.flatten := by
  unfold getMinimumMovementConfig
  apply (ensures_oldExecInfo nodeToBundles old).bind
  rintro info ⟨hinfo, hknown⟩
  apply (ensures_slotCapacities nodeToBundles degrees).bind
  intro caps hcaps
  apply ensures_bind_any
  intro _
  apply (ensures_usedSlots v hcaps).bind
  intro used hused
  apply ensures_bind_any
  intro _
  rw [ensures_pure]
  refine ⟨?_, hknown⟩
  have hkept : ∀ (l : List (ExecutorId × ExecInfo)) (x : ExecutorConfig × OrderedSet Slot),
      (∀ y ∈ l, y.1 ∈ old) → (∀ e bs, x.1.get? e = some bs → bs ≠ [] ∧ e ∈ old) →
      ∀ e bs, (l.foldl (fun x y => keepExecutor caps v used x y.1 y.2) x).1.get? e = some bs →
        bs ≠ [] ∧ e ∈ old := by
    intro l
    induction l with
    | nil => exact fun x _ hx => hx
    | cons y l ih =>
        intro x hl hx
        refine ih _ (fun z hz => hl z (List.mem_cons_of_mem y hz)) ?_
        intro e bs he
        dsimp only at he
        unfold keepExecutor at he
        split at he
        · exact hx e bs he
        · split at he
          · exact hx e bs he
          · next z hz =>
            rw [Dict.get?_set] at he
            split_ifs at he with heq
            · rw [Option.some.injEq] at he
              rw [heq, ← he]
              exact ⟨hused z (List.mem_of_find?_eq_some hz), hl y List.mem_cons_self⟩
            · exact hx e bs he
  have hnew : ∀ (assigned : OrderedSet Slot) (l : List (Slot × List ℕ))
      (x : ExecutorConfig × ExecutorId), (∀ y ∈ l, y.2 ≠ []) → nextId old ≤ x.2 →
      (∀ e bs, x.1.get? e = some bs → bs ≠ [] ∧ (e ∈ old ∨ nextId old ≤ e)) →
      ∀ e bs, (l.foldl (fillSlot assigned) x).1.get? e = some bs →
        bs ≠ [] ∧ (e ∈ old ∨ nextId old ≤ e) := by
    intro assigned l
    induction l with
    | nil => exact fun x _ _ hx => hx
    | cons y l ih =>
        intro x hl hle hx
        have hrest : ∀ z ∈ l, z.2 ≠ [] := fun z hz => hl z (List.mem_cons_of_mem y hz)
        rw [List.foldl_cons]
        unfold fillSlot
        split_ifs
        · exact ih x hrest hle hx
        · refine ih _ hrest (Nat.le_succ_of_le hle) ?_
          intro e bs he
          rw [Dict.get?_set] at he
          split_ifs at he with heq
          · rw [Option.some.injEq] at he
            rw [heq, ← he]
            exact ⟨hl y List.mem_cons_self, Or.inr hle⟩
          · exact hx e bs he
  refine hnew _ used _ hused le_rfl ?_
  intro e bs he
  have hall := hkept info.entries (.empty, .empty)
    (fun y hy => hinfo y.1 (List.mem_map.mpr ⟨y, hy, rfl⟩))
    (fun e bs he => by cases he) e bs he
  exact ⟨hall.1, Or.inl hall.2⟩

theorem usesOnce_of_perm {c : ExecutorConfig} {bundles : List ℕ}
    (h : c.values.flatten.Perm bundles) (hnodup : bundles.Nodup) : c.UsesOnce bundles := by
  have hin : ∀ x ∈ c.entries, ∀ b ∈ x.2, b ∈ c.values.flatten := fun x hx b hb =>
    List.mem_flatten.mpr ⟨x.2, List.mem_map.mpr ⟨x, hx, rfl⟩, hb⟩
  obtain ⟨honce, hpair⟩ := List.nodup_flatten.mp (h.nodup_iff.mpr hnodup)
  refine ⟨?_, ?_, ?_, ?_⟩
  · exact fun x hx b hb => h.mem_iff.mp (hin x hx b hb)
  · intro b hb
    obtain ⟨bs, hbs, hb⟩ := List.mem_flatten.mp (h.mem_iff.mpr hb)
    obtain ⟨x, hx, rfl⟩ := List.mem_map.mp hbs
    exact ⟨x, hx, hb⟩
  · intro x hx y hy hne b hb hb'
    have hsymm : Std.Symm fun x y : ExecutorId × List ℕ => x.2.Disjoint y.2 :=
      ⟨fun _ _ h => h.symm⟩
    have hdisj := (List.pairwise_map.mp hpair).forall hx hy
      (fun heq => hne (congrArg Prod.fst heq))
    exact hdisj hb hb'
  · exact fun x hx => honce x.2 (List.mem_map.mpr ⟨x, hx, rfl⟩)

/-- A plan that passes the checks at the end uses every bundle once and keeps the
bundles of the executors it keeps. -/
theorem ensures_checkPlan (current new : ExecutorConfig) :
    (checkPlan nodeToBundles current new).Ensures (fun _ => True) fun _ =>
      new.UsesOnce nodeToBundles.values.flatten ∧ Retains current new := by
  unfold checkPlan
  dsimp only
  rw [ensures_bind, ensures_pyAssert]
  refine ⟨fun hsorted => ?_, fun _ => trivial⟩
  rw [ensures_bind, ensures_pyAssert]
  refine ⟨fun hnodup => ?_, fun _ => trivial⟩
  rw [ensures_pyAssert]
  refine ⟨fun hkeep => ?_, fun _ => trivial⟩
  have hperm : new.values.flatten.Perm nodeToBundles.values.flatten :=
    (List.perm_insertionSort (· ≤ ·) _).symm.trans
      (of_decide_eq_true hsorted ▸ List.perm_insertionSort (· ≤ ·) _)
  refine ⟨usesOnce_of_perm hperm (hperm.nodup_iff.mp (of_decide_eq_true hnodup)), ?_⟩
  intro x hx y hy heq
  have hsame := of_decide_eq_true hkeep y hy x hx heq.symm
  exact ⟨hsame.2, hsame.1⟩

/-- A plan is the current configuration, or it uses every bundle once, keeps the bundles
of the executors it keeps, and gives the others bundles and larger ids. -/
structure Planned (nodeToBundles : Dict String (List ℕ)) (old new : ExecutorConfig) : Prop where
  within : ∀ x ∈ old.entries, x.2 ⊆ nodeToBundles.values.flatten
  usesOnce : new.UsesOnce nodeToBundles.values.flatten
  retains : Retains old new
  nonempty : ∀ e bs, new.get? e = some bs → bs ≠ []
  larger : ∀ e ∈ toLaunch old new, ∀ e' ∈ old, e' < e

theorem ensures_planReconfiguration (degrees : List ℕ) (hasWorkload : Bool)
    (answers : PlannerAnswers) :
    (planReconfiguration nodeToBundles degrees hasWorkload old answers).Ensures (fun _ => True)
      fun new => new = old ∨ Planned nodeToBundles old new := by
  unfold planReconfiguration
  by_cases hwork : (!hasWorkload) = true
  · rw [if_pos hwork]
    exact Or.inl rfl
  · rw [if_neg hwork, ensures_bind]
    apply (ensures_getMinimumMovementConfig degrees answers.free.xNg answers.slots).imp
    rintro new ⟨hids, hwithin⟩
    dsimp only
    split_ifs
    · apply (ensures_checkPlan old new).bind
      rintro _ ⟨honce, hkeep⟩
      refine Or.inr ⟨hwithin, honce, hkeep, fun e bs he => (hids e bs he).1, ?_⟩
      intro e he e' he'
      obtain ⟨henew, heold⟩ := (mem_toLaunch old new e).mp he
      obtain ⟨bs, hbs⟩ := (new.mem_iff_exists e).mp henew
      exact (lt_nextId he').trans_le ((hids e bs hbs).2.resolve_left heold)
    · apply ensures_bind_any
      intro _
      exact Or.inl rfl

end Extraction

/-! ## The first configuration -/

theorem disjointBundles_of_get? {c : ExecutorConfig}
    (h : ∀ e e' bs bs', c.get? e = some bs → c.get? e' = some bs' → e ≠ e' →
      ∀ b ∈ bs, b ∉ bs') : c.DisjointBundles :=
  fun x hx y hy hne => h x.1 y.1 x.2 y.2 ((c.mem_entries_iff x.1 x.2).mp hx)
    ((c.mem_entries_iff y.1 y.2).mp hy) hne

theorem ensures_assignExecutor {nodeToBundles : Dict String (List ℕ)} {x : Assigning}
    (hused : ∀ e bs, x.config.get? e = some bs → ∀ b ∈ bs, b ∈ x.usedBundles)
    (hdisj : x.config.DisjointBundles) (e : ExecutorId) (n : ℤ) :
    (assignExecutor nodeToBundles x e n).Ensures (fun _ => True) fun x' =>
      (∀ e bs, x'.config.get? e = some bs → ∀ b ∈ bs, b ∈ x'.usedBundles) ∧
        x'.config.DisjointBundles := by
  unfold assignExecutor
  apply ensures_bind_any
  intro nodes
  cases nodes.find? fun n' => n ≤ (x.available nodeToBundles n').length with
  | none => trivial
  | some nodeIp =>
      dsimp only
      rw [ensures_pure]
      have hfresh : ∀ b ∈ sliceTo (x.available nodeToBundles nodeIp) n, b ∉ x.usedBundles := by
        intro b hb
        have hmem : b ∈ x.available nodeToBundles nodeIp := List.mem_of_mem_take hb
        simpa using (List.mem_filter.mp hmem).2
      generalize sliceTo (x.available nodeToBundles nodeIp) n = bundles at hfresh
      have hget : ∀ {e' bs}, (x.config.set e bundles).get? e' = some bs →
          e' = e ∧ bs = bundles ∨ e' ≠ e ∧ x.config.get? e' = some bs := by
        intro e' bs he'
        rw [Dict.get?_set] at he'
        by_cases heq : e' = e
        · rw [if_pos heq, Option.some.injEq] at he'
          exact Or.inl ⟨heq, he'.symm⟩
        · rw [if_neg heq] at he'
          exact Or.inr ⟨heq, he'⟩
      constructor
      · intro e' bs he' b hb
        rw [OrderedSet.mem_foldl_add]
        rcases hget he' with ⟨-, rfl⟩ | ⟨-, he'⟩
        · exact Or.inl hb
        · exact Or.inr (hused e' bs he' b hb)
      · apply disjointBundles_of_get?
        intro e₁ e₂ bs₁ bs₂ h₁ h₂ hne b hb hb'
        rcases hget h₁ with ⟨rfl, rfl⟩ | ⟨-, hold₁⟩
        · rcases hget h₂ with ⟨heq, -⟩ | ⟨-, hold₂⟩
          · exact hne heq.symm
          · exact hfresh b hb (hused e₂ bs₂ hold₂ b hb')
        · rcases hget h₂ with ⟨-, rfl⟩ | ⟨-, hold₂⟩
          · exact hfresh b hb' (hused e₁ bs₁ hold₁ b hb)
          · exact hdisj.not_mem hold₁ hold₂ hne hb hb'

theorem ensures_getInitialConfig (nodeToBundles : Dict String (List ℕ)) (fake : Bool)
    (numGpus : Dict ExecutorId ℤ) :
    (getInitialConfig nodeToBundles fake numGpus).Ensures (fun _ => True)
      ExecutorConfig.DisjointBundles := by
  unfold getInitialConfig
  by_cases hfake : fake = true
  · rw [if_pos hfake, ensures_pure]
    have hall : ∀ (l : List ExecutorId) (c : ExecutorConfig),
        (∀ e bs, c.get? e = some bs → bs = [e]) →
        ∀ e bs, (l.foldl (fun c e => c.set e [e]) c).get? e = some bs → bs = [e] := by
      intro l
      induction l with
      | nil => exact fun c hc => hc
      | cons e l ih =>
          intro c hc
          refine ih (c.set e [e]) ?_
          intro e' bs he'
          rw [Dict.get?_set] at he'
          split_ifs at he' with heq
          · rw [Option.some.injEq] at he'
            rw [heq, he']
          · exact hc e' bs he'
    have hown := hall numGpus.keys .empty fun e bs he => by cases he
    apply disjointBundles_of_get?
    intro e e' bs bs' he he' hne b hb hb'
    rw [hown e bs he, List.mem_singleton] at hb
    rw [hown e' bs' he', List.mem_singleton] at hb'
    exact hne (hb.symm.trans hb')
  · rw [if_neg hfake, ensures_bind]
    refine (ensures_foldlM (E := fun _ => True) (I := fun x : Assigning =>
      (∀ e bs, x.config.get? e = some bs → ∀ b ∈ bs, b ∈ x.usedBundles) ∧
        x.config.DisjointBundles) _
      (fun x y _ hx => ensures_assignExecutor hx.1 hx.2 y.1 y.2) _ ⟨?_, ?_⟩).imp ?_
    · intro e bs he
      cases he
    · intro x hx
      cases hx
    · exact fun x hx => hx.2

end TeDiServe

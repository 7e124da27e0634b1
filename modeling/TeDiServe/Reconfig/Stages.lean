import TeDiServe.Reconfig.Wiring

/-!
# The stages

The stages are the connected components of the graph that joins a kill and a launch
when they share a bundle. So every kill and every launch is in exactly one stage, a
kill and a launch that share a bundle are in the same one, and whatever a shared
bundle carries over from one executor to another is the same throughout a stage.
-/

namespace TeDiServe

variable (ord : SetOrder) (old new : ExecutorConfig)

theorem mem_linkAdjacent (adj : Dict ExecutorId (OrderedSet ExecutorId))
    (k l u v : ExecutorId) :
    v ∈ (linkAdjacent adj k l).getD u .empty ↔
      (u = k ∧ v = l ∨ u = l ∧ v = k) ∨ v ∈ adj.getD u .empty := by
  unfold linkAdjacent
  rw [Dict.getD_set]
  by_cases hl : u = l
  · rw [if_pos hl, OrderedSet.mem_add, Dict.getD_set]
    by_cases hk : l = k
    · rw [if_pos hk, OrderedSet.mem_add]
      simp [hl, hk]
    · simp [hl, hk]
  · rw [if_neg hl, Dict.getD_set]
    by_cases hk : u = k
    · rw [if_pos hk, OrderedSet.mem_add, hk]
      have hkl : k ≠ l := fun h => hl (hk.trans h)
      simp [hkl]
    · simp [hl, hk]

def Adjacent (u v : ExecutorId) : Prop :=
  u ∈ toKill old new ∧ v ∈ toLaunch old new ∧ sharesBundle old new u v = true ∨
    u ∈ toLaunch old new ∧ v ∈ toKill old new ∧ sharesBundle old new v u = true

theorem mem_adjacency (kills launches : List ExecutorId) (u v : ExecutorId) :
    v ∈ (adjacency old new kills launches).getD u .empty ↔
      ∃ k ∈ kills, ∃ l ∈ launches, sharesBundle old new k l = true ∧
        (u = k ∧ v = l ∨ u = l ∧ v = k) := by
  have hstep : ∀ (adj : Dict ExecutorId (OrderedSet ExecutorId)) (k l : ExecutorId),
      v ∈ (if sharesBundle old new k l then linkAdjacent adj k l else adj).getD u .empty ↔
        (sharesBundle old new k l = true ∧ (u = k ∧ v = l ∨ u = l ∧ v = k)) ∨
          v ∈ adj.getD u .empty := by
    intro adj k l
    split_ifs with h
    · rw [mem_linkAdjacent]
      simp [h]
    · simp [h]
  unfold adjacency
  rw [List.foldl_iff_exists_or (P := fun adj => v ∈ Dict.getD adj u .empty) kills
    fun adj k _ => List.foldl_iff_exists_or (P := fun adj => v ∈ Dict.getD adj u .empty) launches
      (fun adj l _ => hstep adj k l) adj]
  simp

theorem mem_neighbours (u v : ExecutorId) :
    v ∈ neighbours ord (adjacency old new (ord.order (toKill old new))
      (ord.order (toLaunch old new))) u ↔ Adjacent old new u v := by
  unfold neighbours
  rw [SetOrder.mem_order, ← OrderedSet.mem_def, mem_adjacency]
  simp only [SetOrder.mem_order]
  constructor
  · rintro ⟨k, hk, l, hl, hs, ⟨rfl, rfl⟩ | ⟨rfl, rfl⟩⟩
    · exact .inl ⟨hk, hl, hs⟩
    · exact .inr ⟨hl, hk, hs⟩
  · rintro (⟨hu, hv, hs⟩ | ⟨hu, hv, hs⟩)
    · exact ⟨u, hu, v, hv, hs, .inl ⟨rfl, rfl⟩⟩
    · exact ⟨v, hv, u, hu, hs, .inr ⟨rfl, rfl⟩⟩

variable {old new} in
theorem Adjacent.symm {u v : ExecutorId} (h : Adjacent old new u v) : Adjacent old new v u := by
  rcases h with ⟨hu, hv, hs⟩ | ⟨hu, hv, hs⟩
  · exact .inr ⟨hv, hu, hs⟩
  · exact .inl ⟨hv, hu, hs⟩

def Stage.members (st : Stage) : List ExecutorId := st.kills ++ st.launches

structure Staging (stages : List Stage) : Prop where
  kills : ∀ k, k ∈ toKill old new ↔ ∃ st ∈ stages, k ∈ st.kills
  launches : ∀ l, l ∈ toLaunch old new ↔ ∃ st ∈ stages, l ∈ st.launches
  apart : stages.Pairwise fun st st' => ∀ u ∈ st.members, u ∉ st'.members
  nonempty : ∀ st ∈ stages, ∃ u, u ∈ st.members
  closed : ∀ st ∈ stages, ∀ u ∈ st.members, ∀ v, Adjacent old new u v → v ∈ st.members
  uniform : ∀ {β : Type} (f : ExecutorId → β), (∀ u v, Adjacent old new u v → f u = f v) →
    ∀ st ∈ stages, ∀ u ∈ st.members, ∀ v ∈ st.members, f u = f v

variable {old new} {stages : List Stage} {st : Stage} {k l : ExecutorId}

theorem Staging.kill (h : Staging old new stages) (hst : st ∈ stages) (hk : k ∈ st.kills) :
    k ∈ toKill old new :=
  (h.kills k).mpr ⟨st, hst, hk⟩

theorem Staging.launch (h : Staging old new stages) (hst : st ∈ stages) (hl : l ∈ st.launches) :
    l ∈ toLaunch old new :=
  (h.launches l).mpr ⟨st, hst, hl⟩

theorem not_mem_toLaunch (hk : k ∈ toKill old new) : k ∉ toLaunch old new := by
  rw [mem_toKill] at hk
  simp [hk.1]

section

variable (h : Staging old new stages)
include h

theorem Staging.mem_kills (hst : st ∈ stages) (hk : k ∈ toKill old new) (hm : k ∈ st.members) :
    k ∈ st.kills :=
  (List.mem_append.mp hm).resolve_right fun hl => not_mem_toLaunch hk (h.launch hst hl)

theorem Staging.mem_launches (hst : st ∈ stages) (hl : l ∈ toLaunch old new) (hm : l ∈ st.members) :
    l ∈ st.launches :=
  (List.mem_append.mp hm).resolve_left fun hk => not_mem_toLaunch (h.kill hst hk) hl

/-- A launch is in the stage of every kill that it shares a bundle with. -/
theorem Staging.together (hst : st ∈ stages) (hk : k ∈ st.kills) (hl : l ∈ toLaunch old new)
    (hs : sharesBundle old new k l = true) : l ∈ st.launches :=
  h.mem_launches hst hl (h.closed st hst k (List.mem_append_left _ hk) l
    (.inl ⟨h.kill hst hk, hl, hs⟩))

theorem Staging.together' (hst : st ∈ stages) (hl : l ∈ st.launches) (hk : k ∈ toKill old new)
    (hs : sharesBundle old new k l = true) : k ∈ st.kills :=
  h.mem_kills hst hk (h.closed st hst l (List.mem_append_right _ hl) k
    (.inr ⟨h.launch hst hl, hk, hs⟩))

end

variable (old new)

@[simp] theorem mem_members_stageOf (kills comp : List ExecutorId) (u : ExecutorId) :
    u ∈ (stageOf kills comp).members ↔ u ∈ comp := by
  simp only [stageOf, Stage.members, List.mem_append, List.mem_filter, decide_eq_true_eq]
  tauto

/-- Stages made of components of the overlap graph. -/
theorem staging_of_splits {kills launches : List ExecutorId} {adj : ExecutorId → List ExecutorId}
    {cs : List (List ExecutorId)} (hkills : ∀ u, u ∈ kills ↔ u ∈ toKill old new)
    (hlaunches : ∀ u, u ∈ launches ↔ u ∈ toLaunch old new)
    (hadj : ∀ u v, v ∈ adj u ↔ Adjacent old new u v)
    (h : Components.Splits adj (kills ++ launches) [] (kills ++ launches) cs) :
    Staging old new (cs.map (stageOf kills)) := by
  have hcover : ∀ u ∈ kills ++ launches, ∃ c ∈ cs, u ∈ c := fun u hu =>
    (h.covers u hu).resolve_left (by simp)
  refine ⟨?_, ?_, ?_, ?_, ?_, ?_⟩
  · intro k
    rw [← hkills]
    simp only [List.mem_map, exists_exists_and_eq_and, stageOf, List.mem_filter,
      decide_eq_true_eq]
    constructor
    · intro hk
      obtain ⟨c, hc, hkc⟩ := hcover k (List.mem_append_left _ hk)
      exact ⟨c, hc, hkc, hk⟩
    · rintro ⟨c, -, -, hk⟩
      exact hk
  · intro l
    rw [← hlaunches]
    simp only [List.mem_map, exists_exists_and_eq_and, stageOf, List.mem_filter,
      decide_eq_true_eq]
    constructor
    · intro hl
      obtain ⟨c, hc, hlc⟩ := hcover l (List.mem_append_right _ hl)
      refine ⟨c, hc, hlc, fun hk => ?_⟩
      exact not_mem_toLaunch ((hkills l).mp hk) ((hlaunches l).mp hl)
    · rintro ⟨c, hc, hlc, hk⟩
      exact (List.mem_append.mp (h.within c hc hlc)).resolve_left hk
  · rw [List.pairwise_map]
    refine (List.nodup_flatten.mp h.nodup).2.imp fun hdisjoint u hu hu' => ?_
    rw [mem_members_stageOf] at hu hu'
    exact hdisjoint hu hu'
  · simp only [List.forall_mem_map, mem_members_stageOf]
    exact fun c hc => List.exists_mem_of_ne_nil c (h.nonempty c hc)
  · simp only [List.forall_mem_map, mem_members_stageOf]
    exact fun c hc u hu v huv => h.closed c hc u hu ((hadj u v).mpr huv)
  · intro β f hf
    simp only [List.forall_mem_map, mem_members_stageOf]
    intro c hc u hu v hv
    -- along every edge of a path the value stays the same
    have hpath : ∀ w, Components.Linked adj u w → f u = f w := by
      intro w hw
      induction hw with
      | refl => rfl
      | tail _ hedge ih => exact ih.trans (hf _ _ ((hadj _ _).mp hedge))
    exact hpath v (h.linked c hc u hu v hv)

theorem staging_buildStages : Staging old new (buildStages ord old new) := by
  refine staging_of_splits old new (ord.mem_order _) (ord.mem_order _)
    (mem_neighbours ord old new) (Components.splits_componentsOf ?_ ?_)
  · intro u _ v hv
    rw [mem_neighbours] at hv
    rw [List.mem_append, SetOrder.mem_order, SetOrder.mem_order]
    rcases hv with ⟨_, hv, _⟩ | ⟨_, hv, _⟩
    · exact .inr hv
    · exact .inl hv
  · intro u v huv
    rw [mem_neighbours] at huv ⊢
    exact huv.symm

section Edges

variable {old new} {prevStage : List CommandId} {p c : CommandId}

theorem not_stageEdge_dummy : ¬StageEdge old new prevStage stages p .dummy := by
  induction stages generalizing prevStage with
  | nil => exact id
  | cons st stages ih =>
      rintro (⟨-, k, -, hc⟩ | ⟨l, -, k, -, -, -, hc⟩ | h)
      · exact CommandId.noConfusion hc
      · exact CommandId.noConfusion hc
      · exact ih h

theorem mem_of_stageEdge {u : ExecutorId}
    (h : StageEdge old new prevStage stages p (.executor u)) : ∃ st ∈ stages, u ∈ st.members := by
  induction stages generalizing prevStage with
  | nil => exact h.elim
  | cons st stages ih =>
      rcases h with ⟨-, k, hk, hc⟩ | ⟨l, hl, k, -, -, -, hc⟩ | h
      · obtain rfl := CommandId.executor.inj hc
        exact ⟨st, List.mem_cons_self, List.mem_append_left _ hk⟩
      · obtain rfl := CommandId.executor.inj hc
        exact ⟨st, List.mem_cons_self, List.mem_append_right _ hl⟩
      · obtain ⟨st', hst', hu⟩ := ih h
        exact ⟨st', List.mem_cons_of_mem st hst', hu⟩

theorem stageEdge_head {u : ExecutorId} (hrest : ∀ st' ∈ stages, u ∉ st'.members) :
    StageEdge old new prevStage (st :: stages) p (.executor u) ↔
      (p ∈ prevStage ∧ u ∈ st.kills) ∨
        OverlapEdge old new st.kills st.launches p (.executor u) := by
  have hno : ¬StageEdge old new (st.launches.map .executor) stages p (.executor u) := by
    intro h
    obtain ⟨st', hst', hu⟩ := mem_of_stageEdge h
    exact hrest st' hst' hu
  simp [StageEdge, hno]

theorem stageEdge_tail {u : ExecutorId} (hu : u ∉ st.members) :
    StageEdge old new prevStage (st :: stages) p (.executor u) ↔
      StageEdge old new (st.launches.map .executor) stages p (.executor u) := by
  rw [Stage.members, List.mem_append, not_or] at hu
  refine ⟨?_, fun h => .inr (.inr h)⟩
  rintro (⟨-, k, hk, hc⟩ | ⟨l, hl, k, -, -, -, hc⟩ | h)
  · exact absurd (CommandId.executor.inj hc ▸ hk) hu.1
  · exact absurd (CommandId.executor.inj hc ▸ hl) hu.2
  · exact h

theorem stageEdge_of_overlap (hst : st ∈ stages)
    (h : OverlapEdge old new st.kills st.launches p c) :
    StageEdge old new prevStage stages p c := by
  induction stages generalizing prevStage with
  | nil => simp at hst
  | cons st' stages ih =>
      rcases List.mem_cons.mp hst with rfl | hst
      · exact .inr (.inl h)
      · exact .inr (.inr (ih hst))

theorem Staging.stageEdge (h : Staging old new stages) (hk : k ∈ toKill old new)
    (hl : l ∈ toLaunch old new) (hs : sharesBundle old new k l = true) :
    StageEdge old new prevStage stages (.executor k) (.executor l) := by
  obtain ⟨st, hst, hkst⟩ := (h.kills k).mp hk
  exact stageEdge_of_overlap hst ⟨l, h.together hst hkst hl hs, k, hkst, hs, rfl, rfl⟩

end Edges

end TeDiServe

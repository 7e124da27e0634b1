import TeDiServe.Reconfig.Commands

/-!
# The edges between the commands

The loops that wire the commands only ever add edges, so each of them is described
by the edges that it adds. Parents and children get their edges in pairs and stay
two descriptions of one relation.
-/

namespace TeDiServe

namespace ReconfigCommands

/-- `g'` has the commands of `g` and, on top of the edges of `g`, those of `R`. -/
structure Adds (R : CommandId → CommandId → Prop) (g g' : ReconfigCommands) : Prop where
  cmds : g'.cmds = g.cmds
  parents : ∀ p c, p ∈ g'.parentsOf c ↔ R p c ∨ p ∈ g.parentsOf c
  children : ∀ p c, c ∈ g'.childrenOf p ↔ R p c ∨ c ∈ g.childrenOf p
  keys : ∀ c, c ∈ g'.parents ↔ (∃ p, R p c) ∨ c ∈ g.parents

namespace Adds

variable {R S : CommandId → CommandId → Prop} {g g' g'' : ReconfigCommands}

theorem refl (g : ReconfigCommands) : Adds (fun _ _ => False) g g :=
  ⟨rfl, by simp, by simp, by simp⟩

theorem trans (h : Adds R g g') (h' : Adds S g' g'') : Adds (fun p c => R p c ∨ S p c) g g'' where
  cmds := h'.cmds.trans h.cmds
  parents p c := by rw [h'.parents, h.parents, or_left_comm, or_assoc]
  children p c := by rw [h'.children, h.children, or_left_comm, or_assoc]
  keys c := by rw [h'.keys, h.keys, exists_or, or_left_comm, or_assoc]

theorem congr (h : Adds R g g') (hRS : ∀ p c, R p c ↔ S p c) : Adds S g g' := by
  have : R = S := funext₂ fun p c => propext (hRS p c)
  exact this ▸ h

theorem addEdge (g : ReconfigCommands) (p c : CommandId) :
    Adds (fun q d => q = p ∧ d = c) g (g.addEdge p c) where
  cmds := rfl
  parents q d := by
    unfold ReconfigCommands.addEdge parentsOf
    rw [Dict.getD_set]
    by_cases hd : d = c
    · rw [if_pos hd, OrderedSet.mem_add, hd]
      simp
    · simp [hd]
  children q d := by
    unfold ReconfigCommands.addEdge childrenOf
    rw [Dict.getD_set]
    by_cases hq : q = p
    · rw [if_pos hq, OrderedSet.mem_add, hq]
      simp
    · simp [hq]
  keys d := by simp [ReconfigCommands.addEdge]

theorem foldl {α : Type} {f : ReconfigCommands → α → ReconfigCommands}
    {R : α → CommandId → CommandId → Prop} (l : List α) (g : ReconfigCommands)
    (h : ∀ g, ∀ a ∈ l, Adds (R a) g (f g a)) :
    Adds (fun p c => ∃ a ∈ l, R a p c) g (l.foldl f g) where
  cmds := by
    induction l generalizing g with
    | nil => rfl
    | cons a l ih =>
        rw [List.foldl_cons, ih _ fun g b hb => h g b (List.mem_cons_of_mem a hb)]
        exact (h g a List.mem_cons_self).cmds
  parents p c := List.foldl_iff_exists_or (P := fun g => p ∈ g.parentsOf c) l
    (fun g a ha => (h g a ha).parents p c) g
  children p c := List.foldl_iff_exists_or (P := fun g => c ∈ g.childrenOf p) l
    (fun g a ha => (h g a ha).children p c) g
  keys c := by
    rw [List.foldl_iff_exists_or (P := fun g => c ∈ g.parents) l
      (fun g a ha => (h g a ha).keys c) g]
    refine or_congr_left ⟨?_, ?_⟩
    · rintro ⟨a, ha, p, hp⟩
      exact ⟨p, a, ha, hp⟩
    · rintro ⟨p, a, ha, hp⟩
      exact ⟨a, ha, p, hp⟩

end Adds

@[simp] theorem parentsOf_create (old new : ExecutorConfig) (p c : CommandId) :
    p ∉ (create old new).parentsOf c := by
  simp [create, parentsOf]

@[simp] theorem childrenOf_create (old new : ExecutorConfig) (p c : CommandId) :
    c ∉ (create old new).childrenOf p := by
  simp [create, childrenOf]

section Built

variable {old new : ExecutorConfig} {R : CommandId → CommandId → Prop} {g : ReconfigCommands}

theorem Adds.mem_parentsOf (h : Adds R (create old new) g) (p c : CommandId) :
    p ∈ g.parentsOf c ↔ R p c := by
  rw [h.parents]
  simp

theorem Adds.wellFormed (h : Adds R (create old new) g) (hroot : ∀ p, ¬R p .dummy) :
    g.graph.WellFormed .dummy where
  mirror p c := by
    change c ∈ g.childrenOf p ↔ p ∈ g.parentsOf c
    rw [h.children, h.parents]
    simp
  root p hp := hroot p ((h.mem_parentsOf p .dummy).mp hp)

theorem get?_cmds_create (e : ExecutorId) : (create old new).cmds.get? (.executor e) =
    if e ∈ toKill old new then some .kill
    else if e ∈ toLaunch old new then some (.launch (new.getD e [])) else none := by
  have hinj : Function.Injective CommandId.executor := fun _ _ h => CommandId.executor.inj h
  have hkills : ((toKill old new).map CommandId.executor).Nodup :=
    (old.nodup_keys.filter _).map hinj
  have hlaunches : ((toLaunch old new).map CommandId.executor).Nodup :=
    (new.nodup_keys.filter _).map hinj
  have hnot : ∀ l : List ExecutorId, e ∉ l → CommandId.executor e ∉ l.map .executor :=
    fun l he => (List.mem_map_of_injective hinj).not.mpr he
  unfold create
  rw [Dict.get?_set, if_neg CommandId.noConfusion]
  split_ifs with hk hl
  · exact Dict.get?_foldl_set_of_mem CommandId.executor (fun _ => CommandKind.kill) _ _ hkills hk
  · rw [Dict.get?_foldl_set_of_not_mem _ _ _ _ (hnot _ hk)]
    exact Dict.get?_foldl_set_of_mem CommandId.executor
      (fun e => CommandKind.launch (new.getD e [])) _ _ hlaunches hl
  · rw [Dict.get?_foldl_set_of_not_mem _ _ _ _ (hnot _ hk),
      Dict.get?_foldl_set_of_not_mem _ _ _ _ (hnot _ hl), Dict.get?_empty]

theorem Adds.isKill_iff (h : Adds R (create old new) g) (e : ExecutorId) :
    g.cmds.get? (.executor e) = some .kill ↔ e ∈ old ∧ e ∉ new := by
  rw [h.cmds, get?_cmds_create, ← mem_toKill]
  split_ifs <;> simp_all

theorem Adds.isLaunch_iff (h : Adds R (create old new) g) (e : ExecutorId) (bs : List ℕ) :
    g.cmds.get? (.executor e) = some (.launch bs) ↔ new.get? e = some bs ∧ e ∉ old := by
  rw [h.cmds, get?_cmds_create]
  cases hnew : new.get? e with
  | none =>
      have hnot : e ∉ new := (new.get?_eq_none_iff e).mp hnew
      split_ifs <;> simp_all
  | some bs' =>
      have hmem : e ∈ new := Dict.mem_of_get? hnew
      rw [Dict.getD_of_get? hnew]
      split_ifs <;> simp_all

end Built

end ReconfigCommands

open ReconfigCommands

section Edges

variable (ord : SetOrder) (old new : ExecutorConfig)

def OverlapEdge (kills launches : List ExecutorId) (p c : CommandId) : Prop :=
  ∃ l ∈ launches, ∃ k ∈ kills, sharesBundle old new k l = true ∧
    p = .executor k ∧ c = .executor l

theorem adds_linkOverlap (g : ReconfigCommands) (k l : ExecutorId) :
    Adds (fun p c => sharesBundle old new k l = true ∧ p = .executor k ∧ c = .executor l) g
      (linkOverlap old new g k l) := by
  unfold linkOverlap
  split_ifs with h
  · exact (Adds.addEdge g _ _).congr fun p c => by simp [h]
  · exact (Adds.refl g).congr fun p c => by simp [h]

theorem adds_linkOverlaps (g : ReconfigCommands) (kills launches : List ExecutorId) :
    Adds (OverlapEdge old new kills launches) g
      (launches.foldl (fun g l => kills.foldl (fun g k => linkOverlap old new g k l) g) g) :=
  Adds.foldl launches g fun g l _ => Adds.foldl kills g fun g k _ => adds_linkOverlap old new g k l

/-- Commands without parents get the dummy as parent. -/
theorem adds_dummy (g : ReconfigCommands) (es : List ExecutorId) :
    Adds (fun p c => p = .dummy ∧ ∃ e ∈ es, c = .executor e ∧ c ∉ g.parents) g
      (es.foldl (fun g e => if .executor e ∈ g.parents then g
        else g.addEdge .dummy (.executor e)) g) := by
  induction es generalizing g with
  | nil => exact (Adds.refl g).congr fun p c => by simp
  | cons e es ih =>
      rw [List.foldl_cons]
      split_ifs with he
      · refine (ih g).congr fun p c => and_congr_right fun _ => ?_
        rw [List.exists_mem_cons_iff]
        refine (or_iff_right ?_).symm
        rintro ⟨rfl, hc⟩
        exact hc he
      · refine ((Adds.addEdge g _ _).trans (ih _)).congr fun p c => ?_
        have hkeys : c ∈ (g.addEdge .dummy (.executor e)).parents ↔
            c = .executor e ∨ c ∈ g.parents := by
          rw [(Adds.addEdge g _ _).keys]
          simp
        rw [List.exists_mem_cons_iff, ← and_or_left, hkeys]
        refine and_congr_right fun _ => ?_
        by_cases hc : c = .executor e
        · simp [hc, he]
        · simp [hc]

def ParallelEdge (p c : CommandId) : Prop :=
  OverlapEdge old new (toKill old new) (toLaunch old new) p c ∨
    p = .dummy ∧ (∃ e, (e ∈ toKill old new ∨ e ∈ toLaunch old new) ∧ c = .executor e) ∧
      ∀ q, ¬OverlapEdge old new (toKill old new) (toLaunch old new) q c

theorem adds_parallel :
    Adds (ParallelEdge old new) (create old new) (createStagewiseParallelCommand ord old new) := by
  have hover := adds_linkOverlaps old new (create old new) (ord.order (toKill old new))
    (ord.order (toLaunch old new))
  refine (hover.trans (adds_dummy _ _)).congr fun p c => ?_
  have hedge : ∀ q d, OverlapEdge old new (ord.order (toKill old new))
      (ord.order (toLaunch old new)) q d ↔
        OverlapEdge old new (toKill old new) (toLaunch old new) q d := by
    simp [OverlapEdge]
  have hkeys : ∀ d : CommandId, d ∉ (create old new).parents := by simp [create]
  simp only [hover.keys, hedge, hkeys, or_false, not_exists, ParallelEdge, SetOrder.mem_order,
    List.mem_append]
  refine or_congr_right (and_congr_right fun _ => ⟨?_, ?_⟩)
  · rintro ⟨e, he, rfl, hno⟩
    exact ⟨⟨e, he.symm, rfl⟩, hno⟩
  · rintro ⟨⟨e, he, rfl⟩, hno⟩
    exact ⟨e, he.symm, rfl, hno⟩

def StageEdge : List CommandId → List Stage → CommandId → CommandId → Prop
  | _, [], _, _ => False
  | prevStage, stage :: stages, p, c =>
      (p ∈ prevStage ∧ ∃ k ∈ stage.kills, c = .executor k) ∨
        OverlapEdge old new stage.kills stage.launches p c ∨
          StageEdge (stage.launches.map .executor) stages p c

theorem adds_wireStage (g : ReconfigCommands) (prevStage : List CommandId) (stage : Stage) :
    Adds (fun p c => (p ∈ prevStage ∧ ∃ k ∈ stage.kills, c = .executor k) ∨
      OverlapEdge old new stage.kills stage.launches p c) g
      (wireStage old new g prevStage stage) := by
  have hkills : Adds (fun p c => ∃ k ∈ stage.kills, ∃ q ∈ prevStage, p = q ∧ c = .executor k) g
      (stage.kills.foldl (fun g k =>
        prevStage.foldl (fun g p => g.addEdge p (.executor k)) g) g) :=
    Adds.foldl _ g fun g k _ => Adds.foldl _ g fun g p _ => Adds.addEdge g p (.executor k)
  refine (hkills.trans (adds_linkOverlaps old new _ _ _)).congr fun p c => or_congr_left ?_
  constructor
  · rintro ⟨k, hk, q, hq, rfl, hc⟩
    exact ⟨hq, k, hk, hc⟩
  · rintro ⟨hp, k, hk, hc⟩
    exact ⟨k, hk, p, hp, rfl, hc⟩

theorem adds_wireStages (g : ReconfigCommands) (prevStage : List CommandId)
    (stages : List Stage) :
    Adds (StageEdge old new prevStage stages) g (wireStages old new g prevStage stages) := by
  induction stages generalizing g prevStage with
  | nil => exact Adds.refl g
  | cons stage stages ih =>
      exact ((adds_wireStage old new g prevStage stage).trans (ih _ _)).congr fun p c => or_assoc

theorem adds_sequential :
    Adds (StageEdge old new [.dummy] (buildStages ord old new)) (create old new)
      (createStagewiseSequentialCommand ord old new) :=
  adds_wireStages old new _ _ _

end Edges

end TeDiServe

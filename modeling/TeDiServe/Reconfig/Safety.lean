import TeDiServe.Reconfig.Stages

/-!
# Reconfiguration is safe

Whatever the order in which concurrent commands enter and finish, each runs at most
once and only after all its parents, and a launch has the kills whose bundles it
needs among its parents. So no bundle ever belongs to two executors at a time.
-/

namespace TeDiServe

namespace ExecutorConfig

def DisjointBundles (c : ExecutorConfig) : Prop :=
  ∀ x ∈ c.entries, ∀ y ∈ c.entries, x.1 ≠ y.1 → ∀ b ∈ x.2, b ∉ y.2

instance (c : ExecutorConfig) : Decidable c.DisjointBundles :=
  inferInstanceAs (Decidable (∀ x ∈ c.entries, ∀ y ∈ c.entries, x.1 ≠ y.1 → ∀ b ∈ x.2, b ∉ y.2))

def Retains (old new : ExecutorConfig) : Prop :=
  ∀ x ∈ old.entries, ∀ y ∈ new.entries, x.1 = y.1 → x.2 ⊆ y.2 ∧ y.2 ⊆ x.2

instance (old new : ExecutorConfig) : Decidable (Retains old new) :=
  inferInstanceAs
    (Decidable (∀ x ∈ old.entries, ∀ y ∈ new.entries, x.1 = y.1 → x.2 ⊆ y.2 ∧ y.2 ⊆ x.2))

variable {c old new : ExecutorConfig} {e e' : ExecutorId} {bs bs' : List ℕ}

theorem DisjointBundles.not_mem (h : c.DisjointBundles) (he : c.get? e = some bs)
    (he' : c.get? e' = some bs') (hne : e ≠ e') {b : ℕ} (hb : b ∈ bs) : b ∉ bs' :=
  h (e, bs) ((c.mem_entries_iff e bs).mpr he) (e', bs') ((c.mem_entries_iff e' bs').mpr he') hne
    b hb

theorem Retains.mem_iff (h : Retains old new) (he : old.get? e = some bs)
    (he' : new.get? e = some bs') (b : ℕ) : b ∈ bs ↔ b ∈ bs' := by
  obtain ⟨h₁, h₂⟩ := h (e, bs) ((old.mem_entries_iff e bs).mpr he) (e, bs')
    ((new.mem_entries_iff e bs').mpr he') rfl
  exact ⟨fun hb => h₁ hb, fun hb => h₂ hb⟩

end ExecutorConfig

open ExecutorConfig ReconfigCommands TaskGraph

theorem sharesBundle_iff {old new : ExecutorConfig} {k l : ExecutorId} {bs bs' : List ℕ}
    (hk : old.get? k = some bs) (hl : new.get? l = some bs') :
    sharesBundle old new k l = true ↔ ∃ b, b ∈ bs ∧ b ∈ bs' := by
  rw [sharesBundle, Dict.getD_of_get? hk, Dict.getD_of_get? hl, overlaps_iff]
  simp only [and_comm]

/-- The executor `e` holds the bundles `bs`: it is one of the old executors and its
kill has not finished, or its launch has begun. -/
def Live (old : ExecutorConfig) (g : ReconfigCommands) (x : Execution CommandId)
    (e : ExecutorId) (bs : List ℕ) : Prop :=
  (old.get? e = some bs ∧
      ¬(g.cmds.get? (.executor e) = some .kill ∧ .executor e ∈ x.finished)) ∨
    (g.cmds.get? (.executor e) = some (.launch bs) ∧ .executor e ∈ x.started)

/-- What both ways to build the commands have in common: `R` are the edges. -/
structure Ordered (old new : ExecutorConfig) (R : CommandId → CommandId → Prop)
    (g : ReconfigCommands) : Prop where
  edges : Adds R (create old new) g
  root : ∀ p, ¬R p .dummy
  overlap : ∀ k ∈ toKill old new, ∀ l ∈ toLaunch old new, sharesBundle old new k l = true →
    R (.executor k) (.executor l)

section Build

variable (ord : SetOrder) (old new : ExecutorConfig)

theorem ordered_parallel :
    Ordered old new (ParallelEdge old new) (createStagewiseParallelCommand ord old new) where
  edges := adds_parallel ord old new
  root := by
    rintro p (⟨l, -, k, -, -, -, hc⟩ | ⟨-, ⟨e, -, hc⟩, -⟩)
    · exact CommandId.noConfusion hc
    · exact CommandId.noConfusion hc
  overlap k hk l hl hs := .inl ⟨l, hl, k, hk, hs, rfl, rfl⟩

theorem ordered_sequential :
    Ordered old new (StageEdge old new [.dummy] (buildStages ord old new))
      (createStagewiseSequentialCommand ord old new) where
  edges := adds_sequential ord old new
  root _ := not_stageEdge_dummy
  overlap _ hk _ hl hs := (staging_buildStages ord old new).stageEdge hk hl hs

end Build

namespace Ordered

variable {old new : ExecutorConfig} {R : CommandId → CommandId → Prop} {g : ReconfigCommands}
  {x : Execution CommandId} {k l e e' : ExecutorId} {bs bs' : List ℕ}

variable (h : Ordered old new R g)
include h

theorem wellFormed : g.graph.WellFormed .dummy :=
  h.edges.wellFormed h.root

theorem kill_before_launch (hx : g.graph.Reachable .dummy x) (hk : old.get? k = some bs)
    (hkn : k ∉ new) (hl : new.get? l = some bs') (hln : l ∉ old) (hb : ∃ b, b ∈ bs ∧ b ∈ bs')
    (hstarted : .executor l ∈ x.started) : .executor k ∈ x.finished := by
  have hedge : R (.executor k) (.executor l) :=
    h.overlap k ((mem_toKill old new k).mpr ⟨Dict.mem_of_get? hk, hkn⟩) l
      ((mem_toLaunch old new l).mpr ⟨Dict.mem_of_get? hl, hln⟩) ((sharesBundle_iff hk hl).mpr hb)
  exact finished_of_started h.wellFormed hx hstarted ((h.edges.mem_parentsOf _ _).mpr hedge)

/-- A live executor is an old one that is kept or still there, or a new one. -/
theorem live_cases (hlive : Live old g x e bs) :
    (old.get? e = some bs ∧ (e ∈ new ∨ .executor e ∉ x.finished)) ∨
      (new.get? e = some bs ∧ e ∉ old ∧ .executor e ∈ x.started) := by
  rcases hlive with ⟨he, hnot⟩ | ⟨he, hs⟩
  · refine .inl ⟨he, ?_⟩
    rw [h.edges.isKill_iff] at hnot
    by_contra hno
    rw [not_or, not_not] at hno
    exact hnot ⟨⟨Dict.mem_of_get? he, hno.1⟩, hno.2⟩
  · obtain ⟨he, hno⟩ := (h.edges.isLaunch_iff e bs).mp he
    exact .inr ⟨he, hno, hs⟩

theorem disjoint_old_new (hx : g.graph.Reachable .dummy x) (hnew : new.DisjointBundles)
    (hkeep : Retains old new) (he : old.get? e = some bs)
    (hlive : e ∈ new ∨ .executor e ∉ x.finished) (he' : new.get? e' = some bs') (hne : e' ∉ old)
    (hs : .executor e' ∈ x.started) {b : ℕ} (hb : b ∈ bs) : b ∉ bs' := by
  intro hb'
  by_cases hen : e ∈ new
  · obtain ⟨bs'', he''⟩ := (new.mem_iff_exists e).mp hen
    have hdiff : e ≠ e' := fun heq => hne (heq ▸ Dict.mem_of_get? he)
    exact hnew.not_mem he'' he' hdiff ((hkeep.mem_iff he he'' b).mp hb) hb'
  · exact hlive.resolve_left hen (h.kill_before_launch hx he hen he' hne ⟨b, hb, hb'⟩ hs)

theorem disjoint_live (hx : g.graph.Reachable .dummy x) (hold : old.DisjointBundles)
    (hnew : new.DisjointBundles) (hkeep : Retains old new) (hlive : Live old g x e bs)
    (hlive' : Live old g x e' bs') (hne : e ≠ e') : ∀ b ∈ bs, b ∉ bs' := by
  intro b hb
  rcases h.live_cases hlive with ⟨he, hk⟩ | ⟨he, heo, hs⟩
  · rcases h.live_cases hlive' with ⟨he', -⟩ | ⟨he', heo', hs'⟩
    · exact hold.not_mem he he' hne hb
    · exact h.disjoint_old_new hx hnew hkeep he hk he' heo' hs' hb
  · rcases h.live_cases hlive' with ⟨he', hk'⟩ | ⟨he', -, -⟩
    · exact fun hb' => h.disjoint_old_new hx hnew hkeep he' hk' he heo hs hb' hb
    · exact hnew.not_mem he he' hne hb

end Ordered

/-- The safety of a reconfiguration, for both ways to build its commands, in every
state of every interleaving. Commands enter at most once, none fails an assertion or
misses a parent, a launch has begun only if the kills of all executors that share a
bundle with it have finished, and live executors have disjoint bundles. -/
theorem reconfiguration_safe (ord : SetOrder) (old new : ExecutorConfig)
    (hold : old.DisjointBundles) (hnew : new.DisjointBundles) (hkeep : Retains old new)
    (g : ReconfigCommands) (hg : g = createStagewiseParallelCommand ord old new ∨
      g = createStagewiseSequentialCommand ord old new)
    (x : Execution CommandId) (hx : g.graph.Reachable .dummy x) :
    x.started.Nodup ∧ (∀ c ∈ x.spawned, c ∉ x.started) ∧
      (∀ c ∈ x.spawned, (x.parents c).isEmpty = true) ∧
      (∀ a, (g.graph.act x a).Ensures (fun f => f = .blocked) fun _ => True) ∧
      (∀ k l bs bs', old.get? k = some bs → k ∉ new → new.get? l = some bs' → l ∉ old →
        (∃ b, b ∈ bs ∧ b ∈ bs') → .executor l ∈ x.started → .executor k ∈ x.finished) ∧
      ∀ e e' bs bs', Live old g x e bs → Live old g x e' bs' → e ≠ e' → ∀ b ∈ bs, b ∉ bs' := by
  obtain ⟨R, h⟩ : ∃ R, Ordered old new R g := by
    rcases hg with rfl | rfl
    · exact ⟨_, ordered_parallel ord old new⟩
    · exact ⟨_, ordered_sequential ord old new⟩
  have horderly := orderly_of_reachable h.wellFormed hx
  obtain ⟨-, hstarted, hapart⟩ := List.nodup_append.mp horderly.once
  refine ⟨hstarted, fun c hc hc' => hapart c hc c hc' rfl, ?_, ?_, ?_, ?_⟩
  · exact fun c hc => horderly.isEmpty_parents h.wellFormed (.inl hc)
  · exact fun a => (ensures_act horderly h.wellFormed a).imp fun _ _ => trivial
  · exact fun k l bs bs' hk hkn hl hln hb hs => h.kill_before_launch hx hk hkn hl hln hb hs
  · exact fun e e' bs bs' he he' hne => h.disjoint_live hx hold hnew hkeep he he' hne

def SetOrder.insertion : SetOrder := ⟨id, fun _ => .refl _⟩

def ExecutorConfig.uneven : ExecutorConfig := (Dict.empty.set 0 [0, 1]).set 1 [2]

def ExecutorConfig.renewed : ExecutorConfig := (Dict.empty.set 1 [2]).set 2 [0, 1]

theorem reconfiguration_safe_small :
    ∃ x, (createStagewiseSequentialCommand .insertion uneven renewed).graph.Reachable .dummy x ∧
      .executor 2 ∈ x.started ∧ .executor 0 ∈ x.finished := by
  have hrun : ((createStagewiseSequentialCommand .insertion uneven renewed).graph.replay .dummy
      [.enter .dummy, .finish .dummy, .enter (.executor 0), .finish (.executor 0),
        .enter (.executor 2)]).Ensures (fun _ => False) fun x => .executor 2 ∈ x.started := by
    decide +kernel
  obtain ⟨x, hok, hs⟩ := hrun.exists_ok
  have hx := ensures_of_ok (reachable_of_replay _ _ _) hok
  have hsafe := reconfiguration_safe .insertion uneven renewed (by decide) (by decide)
    (by decide) _ (.inr rfl) x hx
  exact ⟨x, hx, hs, hsafe.2.2.2.2.1 0 2 [0, 1] [0, 1] (by decide) (by decide) (by decide)
    (by decide) ⟨0, by decide, by decide⟩ hs⟩

end TeDiServe

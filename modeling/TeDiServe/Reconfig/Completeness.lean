import TeDiServe.Library.Lists
import TeDiServe.Reconfig.Safety

/-!
# When a reconfiguration is carried out in full

A command that nothing leads to from the dummy is never executed. The parallel
command has no such command. In the sequential one a launch without an overlapping
kill gets no parent, and the kills after a stage without launches get none either;
both are skipped silently, and everything that waits for them as well.
-/

namespace TeDiServe

namespace ExecutorConfig

structure UsesOnce (bundles : List ℕ) (c : ExecutorConfig) : Prop where
  within : ∀ x ∈ c.entries, x.2 ⊆ bundles
  covers : ∀ b ∈ bundles, ∃ x ∈ c.entries, b ∈ x.2
  disjoint : c.DisjointBundles
  once : ∀ x ∈ c.entries, x.2.Nodup

end ExecutorConfig

open ExecutorConfig ReconfigCommands TaskGraph

def Killed (g : ReconfigCommands) (x : Execution CommandId) (e : ExecutorId) : Prop :=
  g.cmds.get? (.executor e) = some .kill ∧ .executor e ∈ x.finished

def Launched (g : ReconfigCommands) (x : Execution CommandId) (e : ExecutorId) : Prop :=
  (∃ bs, g.cmds.get? (.executor e) = some (.launch bs)) ∧ .executor e ∈ x.finished

/-- The commands can be executed to the end, and at the end of every execution
exactly the executors that had to go are killed, exactly those that had to come are
launched, and the live executors are those of the new configuration. -/
def Completes (old new : ExecutorConfig) (g : ReconfigCommands) : Prop :=
  (∃ x, g.graph.Reachable .dummy x ∧ x.Terminal) ∧
    ∀ x, g.graph.Reachable .dummy x → x.Terminal →
      (∀ e, Killed g x e ↔ e ∈ old ∧ e ∉ new) ∧ (∀ e, Launched g x e ↔ e ∈ new ∧ e ∉ old) ∧
        ∀ e, (∃ bs, Live old g x e bs) ↔ e ∈ new

namespace Ordered

variable {old new : ExecutorConfig} {R : CommandId → CommandId → Prop} {g : ReconfigCommands}
  {x : Execution CommandId}

theorem exists_terminal (h : Ordered old new R g)
    (hin : ∀ p e, R p (.executor e) → e ∈ toKill old new ∨ e ∈ toLaunch old new) :
    ∃ x, g.graph.Reachable .dummy x ∧ x.Terminal := by
  refine TaskGraph.exists_terminal h.wellFormed
    (.dummy :: (toKill old new ++ toLaunch old new).map .executor)
    List.mem_cons_self fun c p hp => ?_
  cases c with
  | dummy => exact List.mem_cons_self
  | executor e =>
      refine List.mem_cons_of_mem _ (List.mem_map.mpr ⟨e, ?_, rfl⟩)
      exact List.mem_append.mpr (hin p e ((h.edges.mem_parentsOf _ _).mp hp))

theorem completes (h : Ordered old new R g)
    (hend : ∃ x, g.graph.Reachable .dummy x ∧ x.Terminal)
    (hall : ∀ x, g.graph.Reachable .dummy x → x.Terminal →
      ∀ e, e ∈ toKill old new ∨ e ∈ toLaunch old new → .executor e ∈ x.finished) :
    Completes old new g := by
  refine ⟨hend, fun x hx ht => ?_⟩
  have hfin := hall x hx ht
  have hkill : ∀ e, Killed g x e ↔ e ∈ old ∧ e ∉ new := by
    intro e
    rw [Killed, h.edges.isKill_iff]
    exact ⟨And.left, fun he => ⟨he, hfin e (.inl ((mem_toKill old new e).mpr he))⟩⟩
  have hlaunch : ∀ e bs, new.get? e = some bs → e ∉ old → .executor e ∈ x.finished :=
    fun e bs he hno => hfin e (.inr ((mem_toLaunch old new e).mpr ⟨Dict.mem_of_get? he, hno⟩))
  refine ⟨hkill, ?_, ?_⟩
  · intro e
    simp only [Launched, h.edges.isLaunch_iff]
    constructor
    · rintro ⟨⟨bs, he, hno⟩, -⟩
      exact ⟨Dict.mem_of_get? he, hno⟩
    · rintro ⟨he, hno⟩
      obtain ⟨bs, he⟩ := (new.mem_iff_exists e).mp he
      exact ⟨⟨bs, he, hno⟩, hlaunch e bs he hno⟩
  · intro e
    constructor
    · rintro ⟨bs, hlive⟩
      rcases hlive with ⟨he, hnot⟩ | ⟨he, -⟩
      · by_contra hno
        exact hnot ((hkill e).mpr ⟨Dict.mem_of_get? he, hno⟩)
      · exact Dict.mem_of_get? ((h.edges.isLaunch_iff e bs).mp he).1
    · intro he
      obtain ⟨bs, hbs⟩ := (new.mem_iff_exists e).mp he
      by_cases hold : e ∈ old
      · obtain ⟨bs', hbs'⟩ := (old.mem_iff_exists e).mp hold
        exact ⟨bs', .inl ⟨hbs', fun hk => ((hkill e).mp hk).2 he⟩⟩
      · have hstarted := (orderly_of_reachable h.wellFormed hx).finished _
          (hlaunch e bs hbs hold)
        exact ⟨bs, .inr ⟨(h.edges.isLaunch_iff e bs).mpr ⟨hbs, hold⟩, hstarted⟩⟩

end Ordered

theorem parallel_completes (ord : SetOrder) (old new : ExecutorConfig) :
    Completes old new (createStagewiseParallelCommand ord old new) := by
  have h := ordered_parallel ord old new
  refine h.completes (h.exists_terminal ?_) fun x hx ht => ?_
  · rintro p e (⟨l, hl, -, -, -, -, hc⟩ | ⟨-, ⟨e', he', hc⟩, -⟩)
    · exact .inr (CommandId.executor.inj hc ▸ hl)
    · exact CommandId.executor.inj hc ▸ he'
  · have hroot := root_finished_of_terminal h.wellFormed hx ht
    -- a command waits for the dummy only, or for kills that wait for the dummy only
    have hfree : ∀ e, e ∈ toKill old new ∨ e ∈ toLaunch old new →
        (∀ q, ¬OverlapEdge old new (toKill old new) (toLaunch old new) q (.executor e)) →
          .executor e ∈ x.finished := by
      intro e he hno
      refine finished_of_terminal h.wellFormed hx ht (p := .dummy)
        ((h.edges.mem_parentsOf _ _).mpr (.inr ⟨rfl, ⟨e, he, rfl⟩, hno⟩)) fun q hq => ?_
      rcases (h.edges.mem_parentsOf _ _).mp hq with hq | ⟨rfl, -⟩
      · exact absurd hq (hno q)
      · exact hroot
    have hkill : ∀ k ∈ toKill old new, .executor k ∈ x.finished := by
      intro k hk
      refine hfree k (.inl hk) ?_
      rintro q ⟨l, hl, -, -, -, -, hc⟩
      exact not_mem_toLaunch hk (CommandId.executor.inj hc ▸ hl)
    rintro e (he | he)
    · exact hkill e he
    · by_cases hno : ∃ q, OverlapEdge old new (toKill old new) (toLaunch old new) q (.executor e)
      · obtain ⟨p, hp⟩ := hno
        refine finished_of_terminal h.wellFormed hx ht
          ((h.edges.mem_parentsOf _ _).mpr (.inl hp)) fun q hq => ?_
        rcases (h.edges.mem_parentsOf _ _).mp hq with ⟨l, -, k, hk, -, rfl, -⟩ | ⟨rfl, -⟩
        · exact hkill k hk
        · exact hroot
      · exact hfree e (.inr he) (not_exists.mp hno)

/-- It is carried out in full from every configuration to every other, in whatever order its
commands run, and before the end some command can always begin or finish. -/
theorem parallel_never_stuck (ord : SetOrder) (old new : ExecutorConfig) :
    Completes old new (createStagewiseParallelCommand ord old new) ∧
      ∀ x, (createStagewiseParallelCommand ord old new).graph.Reachable .dummy x → ¬x.Terminal →
        ∃ a x', (createStagewiseParallelCommand ord old new).graph.act x a = .ok x' := by
  have hwf := (ordered_parallel ord old new).wellFormed
  refine ⟨parallel_completes ord old new, fun x hx hend => ?_⟩
  obtain ⟨a, x', hact, -⟩ := exists_act hwf (orderly_of_reachable hwf hx) hend
  exact ⟨a, x', hact⟩

section Sequential

variable {old new : ExecutorConfig} {stages : List Stage} {st : Stage} {k l : ExecutorId}
  {prevStage : List CommandId} {p : CommandId}

/-- A launch only ever waits for kills that it shares a bundle with. -/
theorem exists_kill_of_stageEdge (hkills : ∀ st ∈ stages, ∀ k ∈ st.kills, k ∈ toKill old new)
    (hl : l ∈ toLaunch old new) (h : StageEdge old new prevStage stages p (.executor l)) :
    ∃ k ∈ toKill old new, sharesBundle old new k l = true := by
  induction stages generalizing prevStage with
  | nil => exact h.elim
  | cons st stages ih =>
      rcases h with ⟨-, k, hk, hc⟩ | ⟨l', -, k, hk, hs, -, hc⟩ | h
      · obtain rfl := CommandId.executor.inj hc
        exact absurd hl (not_mem_toLaunch (hkills st List.mem_cons_self _ hk))
      · obtain rfl := CommandId.executor.inj hc
        exact ⟨k, hkills st List.mem_cons_self k hk, hs⟩
      · exact ih (fun st' hst' => hkills st' (List.mem_cons_of_mem st hst')) h

structure Chained (old new : ExecutorConfig) (stages : List Stage) : Prop where
  apart : stages.Pairwise fun st st' => ∀ u ∈ st.members, u ∉ st'.members
  kill : ∀ st ∈ stages, ∀ k ∈ st.kills, k ∉ st.launches
  served : ∀ st ∈ stages, ∀ l ∈ st.launches, ∃ k ∈ st.kills, sharesBundle old new k l = true
  linked : (∀ st ∈ stages, ∃ l, l ∈ st.launches) ∨ stages.length ≤ 1

theorem Chained.tail (h : Chained old new (st :: stages)) : Chained old new stages where
  apart := (List.pairwise_cons.mp h.apart).2
  kill st' hst' := h.kill st' (List.mem_cons_of_mem st hst')
  served st' hst' := h.served st' (List.mem_cons_of_mem st hst')
  linked := by
    rcases h.linked with hl | hl
    · exact .inl fun st' hst' => hl st' (List.mem_cons_of_mem st hst')
    · rw [List.length_cons] at hl
      exact .inr (by omega)

theorem Chained.finished {g : ReconfigCommands} {x : Execution CommandId}
    (hg : g.graph.WellFormed .dummy) (hx : g.graph.Reachable .dummy x) (ht : x.Terminal)
    (h : Chained old new stages)
    (hedges : ∀ st ∈ stages, ∀ u ∈ st.members, ∀ p,
      p ∈ g.parentsOf (.executor u) ↔ StageEdge old new prevStage stages p (.executor u))
    (hprev : ∀ p ∈ prevStage, p ∈ x.finished) (hne : stages ≠ [] → ∃ p, p ∈ prevStage) :
    ∀ st ∈ stages, ∀ u ∈ st.members, .executor u ∈ x.finished := by
  induction stages generalizing prevStage with
  | nil => simp
  | cons st stages ih =>
      obtain ⟨hapart, -⟩ := List.pairwise_cons.mp h.apart
      have hhead : ∀ u ∈ st.members, ∀ p, p ∈ g.parentsOf (.executor u) ↔
          (p ∈ prevStage ∧ u ∈ st.kills) ∨
            OverlapEdge old new st.kills st.launches p (.executor u) := by
        intro u hu p
        rw [hedges st List.mem_cons_self u hu]
        exact stageEdge_head fun st' hst' => hapart st' hst' u hu
      have hkills : ∀ k ∈ st.kills, .executor k ∈ x.finished := by
        intro k hk
        have hparents := hhead k (List.mem_append_left _ hk)
        obtain ⟨p, hp⟩ := hne (by simp)
        refine finished_of_terminal hg hx ht ((hparents p).mpr (.inl ⟨hp, hk⟩)) fun q hq => ?_
        rcases (hparents q).mp hq with ⟨hq, -⟩ | ⟨l, hl, -, -, -, -, hc⟩
        · exact hprev q hq
        · exact absurd (CommandId.executor.inj hc ▸ hl) (h.kill st List.mem_cons_self k hk)
      have hlaunches : ∀ l ∈ st.launches, .executor l ∈ x.finished := by
        intro l hl
        have hparents := hhead l (List.mem_append_right _ hl)
        obtain ⟨k, hk, hs⟩ := h.served st List.mem_cons_self l hl
        refine finished_of_terminal hg hx ht
          ((hparents (.executor k)).mpr (.inr ⟨l, hl, k, hk, hs, rfl, rfl⟩)) fun q hq => ?_
        rcases (hparents q).mp hq with ⟨-, hk'⟩ | ⟨l', -, k', hk', -, rfl, -⟩
        · exact absurd hl (h.kill st List.mem_cons_self l hk')
        · exact hkills k' hk'
      have hedges' : ∀ st' ∈ stages, ∀ u ∈ st'.members, ∀ p, p ∈ g.parentsOf (.executor u) ↔
          StageEdge old new (st.launches.map .executor) stages p (.executor u) := by
        intro st' hst' u hu p
        rw [hedges st' (List.mem_cons_of_mem st hst') u hu]
        exact stageEdge_tail fun hu' => hapart st' hst' u hu' hu
      have hrest := ih h.tail hedges' (by simpa using hlaunches) (by
        intro hstages
        rcases h.linked with hl | hl
        · obtain ⟨l, hl⟩ := hl st List.mem_cons_self
          exact ⟨_, List.mem_map_of_mem hl⟩
        · rw [List.length_cons] at hl
          exact absurd (List.eq_nil_of_length_eq_zero (by omega)) hstages)
      intro st' hst' u hu
      rcases List.mem_cons.mp hst' with rfl | hst'
      · exact (List.mem_append.mp hu).elim (hkills u) (hlaunches u)
      · exact hrest st' hst' u hu

/-- When the new configuration uses every bundle, the bundles of an executor that is
killed go to executors that are launched. -/
theorem exists_launch_of_bundles {bundles : List ℕ} (hold : old.DisjointBundles)
    (hwithin : ∀ y ∈ old.entries, y.2 ⊆ bundles) (hnew : new.UsesOnce bundles)
    (hkeep : Retains old new) (hk : k ∈ toKill old new) (hne : old.getD k [] ≠ []) :
    ∃ l ∈ toLaunch old new, sharesBundle old new k l = true := by
  obtain ⟨hk, hkn⟩ := (mem_toKill old new k).mp hk
  obtain ⟨bs, hbs⟩ := (old.mem_iff_exists k).mp hk
  rw [Dict.getD_of_get? hbs] at hne
  obtain ⟨b, hb⟩ := List.exists_mem_of_ne_nil bs hne
  obtain ⟨⟨l, bs'⟩, hl, hb'⟩ :=
    hnew.covers b (hwithin (k, bs) ((old.mem_entries_iff k bs).mpr hbs) hb)
  have hlnew : new.get? l = some bs' := (new.mem_entries_iff l bs').mp hl
  have hlold : l ∉ old := by
    intro hlold
    obtain ⟨bs'', hbs''⟩ := (old.mem_iff_exists l).mp hlold
    have hne : k ≠ l := fun h => hkn (h ▸ Dict.mem_of_get? hlnew)
    exact hold.not_mem hbs hbs'' hne hb ((hkeep.mem_iff hbs'' hlnew b).mpr hb')
  exact ⟨l, (mem_toLaunch old new l).mpr ⟨Dict.mem_of_get? hlnew, hlold⟩,
    (sharesBundle_iff hbs hlnew).mpr ⟨b, hb, hb'⟩⟩

theorem Staging.exists_kill (h : Staging old new stages)
    (hlaunch : ∀ l ∈ toLaunch old new, ∃ k ∈ toKill old new, sharesBundle old new k l = true)
    (hst : st ∈ stages) : ∃ k, k ∈ st.kills := by
  obtain ⟨u, hu⟩ := h.nonempty st hst
  rcases List.mem_append.mp hu with hu | hu
  · exact ⟨u, hu⟩
  · obtain ⟨k, hk, hs⟩ := hlaunch u (h.launch hst hu)
    exact ⟨k, h.together' hst hu hk hs⟩

theorem Staging.chained (h : Staging old new stages)
    (hlaunch : ∀ l ∈ toLaunch old new, ∃ k ∈ toKill old new, sharesBundle old new k l = true)
    (hkill : (∀ k ∈ toKill old new, ∃ l ∈ toLaunch old new, sharesBundle old new k l = true) ∨
      (toKill old new).length ≤ 1) : Chained old new stages where
  apart := h.apart
  kill st hst k hk hk' := not_mem_toLaunch (h.kill hst hk) (h.launch hst hk')
  served st hst l hl := by
    obtain ⟨k, hk, hs⟩ := hlaunch l (h.launch hst hl)
    exact ⟨k, h.together' hst hl hk hs, hs⟩
  linked := by
    rcases hkill with hkill | hkill
    · refine .inl fun st hst => ?_
      obtain ⟨k, hk⟩ := h.exists_kill hlaunch hst
      obtain ⟨l, hl, hs⟩ := hkill k (h.kill hst hk)
      exact ⟨l, h.together hst hk hl hs⟩
    · refine .inr ?_
      cases hstages : stages with
      | nil => simp
      | cons st rest =>
          cases rest with
          | nil => simp
          | cons st' rest =>
              -- two stages would have two kills
              have hst : st ∈ stages := by simp [hstages]
              have hst' : st' ∈ stages := by simp [hstages]
              obtain ⟨k, hk⟩ := h.exists_kill hlaunch hst
              obtain ⟨k', hk'⟩ := h.exists_kill hlaunch hst'
              have heq : k = k' := by
                have h₁ := h.kill hst hk
                have h₂ := h.kill hst' hk'
                match hlist : toKill old new, hkill with
                | [], _ => simp [hlist] at h₁
                | [a], _ =>
                    rw [hlist, List.mem_singleton] at h₁ h₂
                    exact h₁.trans h₂.symm
              have hapart := (List.pairwise_cons.mp (hstages ▸ h.apart)).1 st' List.mem_cons_self
              exact absurd (List.mem_append_left _ (heq ▸ hk'))
                (hapart k (List.mem_append_left _ hk))

theorem Staging.member (h : Staging old new stages) {e : ExecutorId}
    (he : e ∈ toKill old new ∨ e ∈ toLaunch old new) : ∃ st ∈ stages, e ∈ st.members := by
  rcases he with he | he
  · obtain ⟨st, hst, hk⟩ := (h.kills e).mp he
    exact ⟨st, hst, List.mem_append_left _ hk⟩
  · obtain ⟨st, hst, hl⟩ := (h.launches e).mp he
    exact ⟨st, hst, List.mem_append_right _ hl⟩

theorem exists_terminal_sequential (ord : SetOrder) (old new : ExecutorConfig) :
    ∃ x, (createStagewiseSequentialCommand ord old new).graph.Reachable .dummy x ∧
      x.Terminal := by
  refine (ordered_sequential ord old new).exists_terminal fun p e he => ?_
  obtain ⟨st, hst, hm⟩ := mem_of_stageEdge he
  have h := staging_buildStages ord old new
  exact (List.mem_append.mp hm).imp (h.kill hst) (h.launch hst)

theorem sequential_completes (ord : SetOrder)
    (hlaunch : ∀ l ∈ toLaunch old new, ∃ k ∈ toKill old new, sharesBundle old new k l = true)
    (hkill : (∀ k ∈ toKill old new, ∃ l ∈ toLaunch old new, sharesBundle old new k l = true) ∨
      (toKill old new).length ≤ 1) :
    Completes old new (createStagewiseSequentialCommand ord old new) := by
  have h := ordered_sequential ord old new
  have hstages := staging_buildStages ord old new
  refine h.completes (exists_terminal_sequential ord old new) fun x hx ht e he => ?_
  obtain ⟨st, hst, hm⟩ := hstages.member he
  have hroot := root_finished_of_terminal h.wellFormed hx ht
  exact (hstages.chained hlaunch hkill).finished h.wellFormed hx ht
    (fun _ _ u _ p => h.edges.mem_parentsOf p (.executor u)) (by simpa using hroot)
    (fun _ => ⟨.dummy, List.mem_singleton_self _⟩) st hst e hm

/-- A launch that shares no bundle with a kill is never carried out. -/
theorem exists_kill_of_completes (ord : SetOrder)
    (h : Completes old new (createStagewiseSequentialCommand ord old new))
    (hl : l ∈ toLaunch old new) : ∃ k ∈ toKill old new, sharesBundle old new k l = true := by
  have hord := ordered_sequential ord old new
  obtain ⟨⟨x, hx, ht⟩, hall⟩ := h
  obtain ⟨-, hfin⟩ := ((hall x hx ht).2.1 l).mpr ((mem_toLaunch old new l).mp hl)
  have hstarted := (orderly_of_reachable hord.wellFormed hx).finished _ hfin
  obtain ⟨p, hp, -⟩ := exists_parent_of_started hord.wellFormed hx hstarted (by simp)
  exact exists_kill_of_stageEdge (fun st hst k hk => (staging_buildStages ord old new).kill hst hk)
    hl ((hord.edges.mem_parentsOf _ _).mp hp)

def SetOrder.first (k : ExecutorId) : SetOrder where
  order l := if k ∈ l then k :: l.erase k else l
  perm l := by
    split_ifs with hk
    · exact (List.perm_cons_erase hk).symm
    · exact .refl l

/-- A kill that shares no bundle with a launch may be a stage of its own and the
first one. -/
theorem buildStages_first (hk : k ∈ toKill old new)
    (hno : ∀ l ∈ toLaunch old new, sharesBundle old new k l = false) :
    ∃ rest, buildStages (.first k) old new = ⟨[k], []⟩ :: rest := by
  have hkills : (SetOrder.first k).order (toKill old new) = k :: (toKill old new).erase k := by
    simp only [SetOrder.first, if_pos hk]
  have hadj : neighbours (.first k) (adjacency old new ((SetOrder.first k).order (toKill old new))
      ((SetOrder.first k).order (toLaunch old new))) k = [] := by
    rw [List.eq_nil_iff_forall_not_mem]
    intro v hv
    rcases (mem_neighbours (.first k) old new k v).mp hv with ⟨-, hv, hs⟩ | ⟨hl, -, -⟩
    · simp [hno v hv] at hs
    · exact not_mem_toLaunch hk hl
  rw [hkills] at hadj
  simp only [buildStages, hkills, List.cons_append,
    Components.componentsOf_cons_of_isolated hadj, List.map_cons]
  refine ⟨_, congrArg₂ List.cons ?_ rfl⟩
  simp [stageOf]

/-- After a first stage without launches the kills of the second have no parent. -/
theorem not_completes_first (hk : k ∈ toKill old new)
    (hno : ∀ l ∈ toLaunch old new, sharesBundle old new k l = false)
    (htwo : 1 < (toKill old new).length) :
    ¬Completes old new (createStagewiseSequentialCommand (.first k) old new) := by
  intro h
  have hord := ordered_sequential (.first k) old new
  have hstages := staging_buildStages (.first k) old new
  obtain ⟨rest, hrest⟩ := buildStages_first hk hno
  rw [hrest] at hord hstages
  obtain ⟨hapart, hapart'⟩ := List.pairwise_cons.mp hstages.apart
  obtain ⟨k', hk', hne⟩ := List.exists_ne_of_length (old.nodup_keys.filter _) hk htwo.ne'
  -- the other kill is in a later stage, so there is a second stage; it has a kill
  cases rest with
  | nil =>
      obtain ⟨st, hst, hst'⟩ := (hstages.kills k').mp hk'
      rw [List.mem_singleton.mp hst, List.mem_singleton] at hst'
      exact hne hst'
  | cons st rest =>
      have hst : st ∈ ⟨[k], []⟩ :: st :: rest := by simp
      have hlaunch := fun l hl => exists_kill_of_completes (l := l) (.first k) h hl
      obtain ⟨k₂, hk₂⟩ := hstages.exists_kill hlaunch hst
      have hm : k₂ ∈ st.members := List.mem_append_left _ hk₂
      have hkill := hstages.kill hst hk₂
      obtain ⟨⟨x, hx, ht⟩, hall⟩ := h
      obtain ⟨-, hfin⟩ := ((hall x hx ht).1 k₂).mpr ((mem_toKill old new k₂).mp hkill)
      have hstarted := (orderly_of_reachable hord.wellFormed hx).finished _ hfin
      obtain ⟨p, hp, -⟩ := exists_parent_of_started hord.wellFormed hx hstarted (by simp)
      have hedge := (hord.edges.mem_parentsOf _ _).mp hp
      rw [stageEdge_tail fun h₁ => hapart st List.mem_cons_self k₂ h₁ hm,
        stageEdge_head fun st' hst' => (List.pairwise_cons.mp hapart').1 st' hst' k₂ hm] at hedge
      rcases hedge with ⟨hp, -⟩ | ⟨l, hl, -, -, -, -, hc⟩
      · simp at hp
      · exact not_mem_toLaunch hkill (CommandId.executor.inj hc ▸ hstages.launch hst hl)

/-- When the sequential command is carried out in full, whatever the order in which
sets are traversed: every executor that is launched shares a bundle with one that is
killed, and an executor without any bundle is killed only if it is the only one. -/
theorem sequential_completes_iff (bundles : List ℕ) (old new : ExecutorConfig)
    (hold : old.DisjointBundles) (hwithin : ∀ y ∈ old.entries, y.2 ⊆ bundles)
    (hnew : new.UsesOnce bundles) (hkeep : Retains old new) :
    (∀ ord, Completes old new (createStagewiseSequentialCommand ord old new)) ↔
      (∀ l ∈ toLaunch old new, ∃ k ∈ toKill old new, sharesBundle old new k l = true) ∧
        ((∀ k ∈ toKill old new, old.getD k [] ≠ []) ∨ (toKill old new).length ≤ 1) := by
  constructor
  · intro h
    refine ⟨fun l hl => exists_kill_of_completes .insertion (h .insertion) hl, ?_⟩
    by_contra hno
    push Not at hno
    obtain ⟨⟨k, hk, hempty⟩, htwo⟩ := hno
    refine not_completes_first hk (fun l _ => ?_) htwo (h (.first k))
    simp [sharesBundle, hempty, overlaps]
  · rintro ⟨hlaunch, hkill⟩ ord
    refine sequential_completes ord hlaunch (hkill.imp_left fun hne k hk => ?_)
    exact exists_launch_of_bundles hold hwithin hnew hkeep hk (hne k hk)

theorem sequential_completes_small :
    Completes uneven renewed (createStagewiseSequentialCommand .insertion uneven renewed) :=
  (sequential_completes_iff [0, 1, 2] uneven renewed (by decide) (by decide)
    ⟨by decide, by decide, by decide, by decide⟩ (by decide)).mpr (by decide) .insertion

def ExecutorConfig.half : ExecutorConfig := Dict.empty.set 0 [0]

/-- A second executor takes the bundle that was unused. -/
def ExecutorConfig.full : ExecutorConfig := (Dict.empty.set 0 [0]).set 1 [1]

/-- The launch on a bundle that was unused has no parent and is skipped: the
commands end after the dummy, and the second executor is never launched. -/
theorem sequential_skips_launch :
    half.DisjointBundles ∧ (∀ y ∈ half.entries, y.2 ⊆ [0, 1]) ∧ full.UsesOnce [0, 1] ∧
      Retains half full ∧
      ∃ x, (createStagewiseSequentialCommand .insertion half full).graph.Reachable .dummy x ∧
        x.Terminal ∧
        ¬Launched (createStagewiseSequentialCommand .insertion half full) x 1 ∧
        1 ∈ full ∧ 1 ∉ half := by
  have hrun : ((createStagewiseSequentialCommand .insertion half full).graph.replay .dummy
      [.enter .dummy, .finish .dummy]).Ensures (fun _ => False) fun x =>
        x.spawned = [] ∧ (∀ c ∈ x.started, c ∈ x.finished) ∧ .executor 1 ∉ x.finished := by
    decide +kernel
  obtain ⟨x, hok, hs, hf, hnot⟩ := hrun.exists_ok
  have hx := ensures_of_ok (reachable_of_replay _ _ _) hok
  exact ⟨by decide, by decide, ⟨by decide, by decide, by decide, by decide⟩, by decide,
    x, hx, ⟨hs, hf⟩, fun h => hnot h.2, by decide, by decide⟩

end Sequential

end TeDiServe

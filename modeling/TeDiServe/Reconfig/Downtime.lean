import TeDiServe.Placement.Executors
import TeDiServe.Reconfig.Completeness

/-!
# No downtime

While a reconfiguration is carried out, some executor serves at every moment. The
kills of the first stage are the children of the dummy; every other kill waits for a
launch. So it is enough that the first stage does not kill all executors. A stage
lies on one node, since executors that share a bundle are on the same node; on two
nodes or more the executors of the other nodes are left, and on one node a plan
whose first stage kills all executors is not carried out.

The scheduler takes the maximum over its executors when it gives up one of them.
As long as some executor serves, that maximum is over a non-empty set.
-/

namespace TeDiServe

def nodeToBundles (nodeIps : List (Option String)) : Dict String (List ℕ) :=
  nodeIps.zipIdx.foldl (fun d x =>
    match x.1 with
    | none => d
    | some nodeIp => d.set nodeIp (d.getD nodeIp [] ++ [x.2])) .empty

section Nodes

variable (nodeIps : List (Option String))

theorem mem_nodeToBundles (n : String) (b : ℕ) :
    b ∈ (nodeToBundles nodeIps).getD n [] ↔ nodeIps[b]? = some (some n) := by
  have hstep : ∀ (d : Dict String (List ℕ)), ∀ x ∈ nodeIps.zipIdx,
      b ∈ Dict.getD (match x.1 with
        | none => d
        | some nodeIp => d.set nodeIp (d.getD nodeIp [] ++ [x.2])) n [] ↔
          x = (some n, b) ∨ b ∈ d.getD n [] := by
    rintro d ⟨ip, i⟩ -
    cases ip with
    | none => simp
    | some m =>
        rw [Dict.getD_set]
        by_cases hm : n = m
        · subst hm
          simp [or_comm, eq_comm]
        · simp [hm, Ne.symm hm]
  unfold nodeToBundles
  rw [List.foldl_iff_exists_or (P := fun d => b ∈ Dict.getD d n []) _ hstep]
  simp [List.mem_zipIdx_iff_getElem?]

theorem mem_nodeToBundles_iff (n : String) :
    n ∈ nodeToBundles nodeIps ↔ ∃ b, b ∈ (nodeToBundles nodeIps).getD n [] := by
  have hstep : ∀ (d : Dict String (List ℕ)), ∀ x ∈ nodeIps.zipIdx,
      n ∈ (match x.1 with
        | none => d
        | some nodeIp => d.set nodeIp (d.getD nodeIp [] ++ [x.2])) ↔ x.1 = some n ∨ n ∈ d := by
    rintro d ⟨ip, i⟩ -
    cases ip with
    | none => simp
    | some m => simp [eq_comm]
  simp only [mem_nodeToBundles]
  unfold nodeToBundles
  rw [List.foldl_iff_exists_or (P := fun d => n ∈ d) _ hstep]
  simp [List.mem_zipIdx_iff_getElem?]

def ExecutorConfig.NodeLocal (c : ExecutorConfig) : Prop :=
  ∀ x ∈ c.entries, ∃ y ∈ (nodeToBundles nodeIps).entries, x.2 ⊆ y.2

instance (c : ExecutorConfig) : Decidable (c.NodeLocal nodeIps) :=
  inferInstanceAs (Decidable (∀ x ∈ c.entries, ∃ y ∈ (nodeToBundles nodeIps).entries, x.2 ⊆ y.2))

theorem ExecutorConfig.NodeLocal.node_eq {c : ExecutorConfig} (h : c.NodeLocal nodeIps)
    {e : ExecutorId} {b b' : ℕ} (hb : b ∈ c.getD e []) (hb' : b' ∈ c.getD e []) :
    nodeIps[b]? = nodeIps[b']? := by
  cases he : c.get? e with
  | none => simp [Dict.getD, he] at hb
  | some bs =>
      rw [Dict.getD_of_get? he] at hb hb'
      obtain ⟨⟨n, ns⟩, hn, hsub⟩ := h (e, bs) ((c.mem_entries_iff e bs).mpr he)
      have hget := Dict.getD_of_get? ((Dict.mem_entries_iff _ n ns).mp hn) []
      have hnode : ∀ b ∈ bs, nodeIps[b]? = some (some n) := by
        intro b hb
        rw [← mem_nodeToBundles, hget]
        exact hsub hb
      rw [hnode b hb, hnode b' hb']

end Nodes

open ExecutorConfig ReconfigCommands TaskGraph

/-- The executor `e` accepts work: it is an old executor whose kill has not begun, or
its launch has finished. -/
def Serving (old : ExecutorConfig) (g : ReconfigCommands) (x : Execution CommandId)
    (e : ExecutorId) : Prop :=
  (e ∈ old ∧ ¬(g.cmds.get? (.executor e) = some .kill ∧ .executor e ∈ x.started)) ∨
    Launched g x e

section FirstStage

variable {old new : ExecutorConfig} {stages : List Stage} {prevStage : List CommandId}
  {p c : CommandId} {k : ExecutorId} {g : ReconfigCommands} {x : Execution CommandId}

theorem not_stageEdge_of_dummy (h : .dummy ∉ prevStage) :
    ¬StageEdge old new prevStage stages .dummy c := by
  induction stages generalizing prevStage with
  | nil => exact id
  | cons st stages ih =>
      rintro (⟨hp, -⟩ | ⟨_, _, _, _, _, hp, _⟩ | hedge)
      · exact h hp
      · exact CommandId.noConfusion hp
      · exact ih (by simp) hedge

theorem kill_of_stageEdge_dummy (h : StageEdge old new prevStage stages .dummy c) :
    ∃ st rest, stages = st :: rest ∧ ∃ k ∈ st.kills, c = .executor k := by
  cases stages with
  | nil => exact h.elim
  | cons st rest =>
      refine ⟨st, rest, rfl, ?_⟩
      rcases h with ⟨-, hk⟩ | ⟨_, _, _, _, _, hp, _⟩ | h
      · exact hk
      · exact CommandId.noConfusion hp
      · exact absurd h (not_stageEdge_of_dummy (by simp))

theorem launch_of_stageEdge
    (hlaunches : ∀ st ∈ stages, ∀ l ∈ st.launches, l ∈ toLaunch old new)
    (hk : k ∈ toKill old new) (h : StageEdge old new prevStage stages p (.executor k)) :
    p ∈ prevStage ∨ ∃ l ∈ toLaunch old new, p = .executor l := by
  induction stages generalizing prevStage with
  | nil => exact h.elim
  | cons st stages ih =>
      rcases h with ⟨hp, -⟩ | ⟨l, hl, -, -, -, -, hc⟩ | h
      · exact .inl hp
      · obtain rfl := CommandId.executor.inj hc
        exact absurd (hlaunches st List.mem_cons_self _ hl) (not_mem_toLaunch hk)
      · rcases ih (fun st' hst' => hlaunches st' (List.mem_cons_of_mem st hst')) h with hp | hp
        · obtain ⟨l, hl, rfl⟩ := List.mem_map.mp hp
          exact .inr ⟨l, hlaunches st List.mem_cons_self l hl, rfl⟩
        · exact .inr hp

/-- One executor that is not killed in the first stage is enough. -/
theorem exists_serving (ord : SetOrder) (old new : ExecutorConfig)
    (hx : (createStagewiseSequentialCommand ord old new).graph.Reachable .dummy x)
    {e : ExecutorId} (he : e ∈ old)
    (hfirst : .dummy ∉ (createStagewiseSequentialCommand ord old new).parentsOf (.executor e)) :
    ∃ e', Serving old (createStagewiseSequentialCommand ord old new) x e' := by
  have h := ordered_sequential ord old new
  have hstages := staging_buildStages ord old new
  by_cases hk : (createStagewiseSequentialCommand ord old new).cmds.get? (.executor e) =
      some .kill ∧ .executor e ∈ x.started
  · have hkill : e ∈ toKill old new := (mem_toKill old new e).mpr ((h.edges.isKill_iff e).mp hk.1)
    obtain ⟨p, hp, hfin⟩ := exists_parent_of_started h.wellFormed hx hk.2 (by simp)
    have hedge := (h.edges.mem_parentsOf _ _).mp hp
    rcases launch_of_stageEdge (fun st hst l hl => hstages.launch hst hl) hkill hedge with
      hp' | ⟨l, hl, rfl⟩
    · obtain rfl := List.mem_singleton.mp hp'
      exact absurd hp hfirst
    · obtain ⟨hl, hlo⟩ := (mem_toLaunch old new l).mp hl
      obtain ⟨bs, hbs⟩ := (new.mem_iff_exists l).mp hl
      exact ⟨l, .inr ⟨⟨bs, (h.edges.isLaunch_iff l bs).mpr ⟨hbs, hlo⟩⟩, hfin⟩⟩
  · exact ⟨e, .inl ⟨he, hk⟩⟩

end FirstStage

theorem getD_of_not_mem {c : ExecutorConfig} {e : ExecutorId} (he : e ∉ c) : c.getD e [] = [] := by
  rw [Dict.getD, (c.get?_eq_none_iff e).mpr he]
  rfl

section Guard

variable (ord : SetOrder) (old new : ExecutorConfig)

/-- As many children of the dummy as executors: all are killed in the first stage. -/
theorem exists_later_of_length
    (h : ((createStagewiseSequentialCommand ord old new).childrenOf .dummy).items.length ≠
      old.keys.length) :
    ∃ e ∈ old, .dummy ∉ (createStagewiseSequentialCommand ord old new).parentsOf (.executor e) := by
  have hord := ordered_sequential ord old new
  have hstages := staging_buildStages ord old new
  by_contra hall
  push Not at hall
  refine h ?_
  have hmem : ∀ c, c ∈ ((createStagewiseSequentialCommand ord old new).childrenOf .dummy).items ↔
      c ∈ old.keys.map .executor := by
    intro c
    refine (hord.wellFormed.mirror .dummy c).trans ?_
    rw [List.mem_map]
    constructor
    · intro hc
      obtain ⟨st, rest, hst, k, hk, rfl⟩ :=
        kill_of_stageEdge_dummy ((hord.edges.mem_parentsOf _ _).mp hc)
      have hmem : st ∈ buildStages ord old new := hst ▸ List.mem_cons_self
      have hkill := hstages.kill hmem hk
      exact ⟨k, ((mem_toKill old new k).mp hkill).1, rfl⟩
    · rintro ⟨e, he, rfl⟩
      exact hall e he
  have hnodup : (old.keys.map CommandId.executor).Nodup :=
    old.nodup_keys.map fun _ _ h => CommandId.executor.inj h
  have hperm := (List.perm_ext_iff_of_nodup
    ((createStagewiseSequentialCommand ord old new).childrenOf .dummy).nodup hnodup).mpr hmem
  rw [hperm.length_eq, List.length_map]

theorem exists_later_of_nodes {nodeIps : List (Option String)} {b b' : ℕ}
    (hlocal : old.NodeLocal nodeIps) (hlocal' : new.NodeLocal nodeIps)
    (hne : nodeIps[b]? ≠ nodeIps[b']?) {e e' : ExecutorId} (hb : b ∈ old.getD e [])
    (hb' : b' ∈ old.getD e' [])
    (he : .dummy ∈ (createStagewiseSequentialCommand ord old new).parentsOf (.executor e)) :
    .dummy ∉ (createStagewiseSequentialCommand ord old new).parentsOf (.executor e') := by
  intro he'
  have hord := ordered_sequential ord old new
  have hstages := staging_buildStages ord old new
  obtain ⟨st, rest, hst, k, hk, hek⟩ :=
    kill_of_stageEdge_dummy ((hord.edges.mem_parentsOf _ _).mp he)
  obtain ⟨st', rest', hst', k', hk', hek'⟩ :=
    kill_of_stageEdge_dummy ((hord.edges.mem_parentsOf _ _).mp he')
  obtain ⟨rfl, -⟩ := List.cons.inj (hst.symm.trans hst')
  obtain rfl := CommandId.executor.inj hek
  obtain rfl := CommandId.executor.inj hek'
  have hmem : st ∈ buildStages ord old new := hst ▸ List.mem_cons_self
  -- the node of an executor is that of its first bundle, and so of any of them
  let node : ExecutorId → Option (Option (Option String)) := fun u =>
    (old.getD u [] ++ new.getD u []).head?.map fun b => nodeIps[b]?
  have hkill : ∀ u ∈ toKill old new, ∀ b ∈ old.getD u [], node u = some nodeIps[b]? := by
    intro u hu b hb
    have hnone : new.getD u [] = [] := getD_of_not_mem ((mem_toKill old new u).mp hu).2
    simp only [node, hnone, List.append_nil]
    exact List.head?_map_eq (fun a ha => hlocal.node_eq nodeIps ha) hb
  have hlaunch : ∀ u ∈ toLaunch old new, ∀ b ∈ new.getD u [], node u = some nodeIps[b]? := by
    intro u hu b hb
    have hnone : old.getD u [] = [] := getD_of_not_mem ((mem_toLaunch old new u).mp hu).2
    simp only [node, hnone, List.nil_append]
    exact List.head?_map_eq (fun a ha => hlocal'.node_eq nodeIps ha) hb
  have hedge : ∀ k ∈ toKill old new, ∀ l ∈ toLaunch old new, sharesBundle old new k l = true →
      node k = node l := by
    intro k hk l hl hs
    obtain ⟨b, hbl, hbk⟩ := (overlaps_iff _ _).mp hs
    rw [hkill k hk b hbk, hlaunch l hl b hbl]
  have huniform := hstages.uniform node
    (by
      rintro u v (⟨hu, hv, hs⟩ | ⟨hu, hv, hs⟩)
      · exact hedge u hu v hv hs
      · exact (hedge v hv u hu hs).symm)
    st hmem e (List.mem_append_left _ hk) e' (List.mem_append_left _ hk')
  rw [hkill e (hstages.kill hmem hk) b hb, hkill e' (hstages.kill hmem hk') b' hb'] at huniform
  exact hne (Option.some.inj huniform)

end Guard

namespace Scheduler

variable {κ : Type} {cfg : Config κ} {s : Scheduler κ} {e e₀ : ExecutorId}

theorem ensures_refreshSupply_of_mem (h : e₀ ∈ s.executorStates) :
    (s.refreshSupply cfg).Ensures (fun err => err ≠ .value) fun s' =>
      s'.executorStates = s.executorStates ∧ s'.executorsManager = s.executorsManager := by
  obtain ⟨x, hx, -⟩ := List.mem_map.mp h
  have hvalues : s.executorStates.values.map ExecutorState.tpDegree ≠ [] :=
    List.ne_nil_of_mem (List.mem_map_of_mem (List.mem_map_of_mem hx))
  unfold refreshSupply updateThroughputSupply
  rw [ensures_bind]
  refine (ensures_pyMax _).mono (fun err herr => absurd herr.2 hvalues) fun d _ => ?_
  rw [ensures_bind]
  have hone : ∀ es ∈ s.executorStates.values,
      (subscript cfg.tpDegreeToThroughputSupply .throughputSupply es.tpDegree).Ensures
        (fun err => err ≠ .value) fun _ => True := by
    intro es _
    rw [ensures_subscript]
    exact ⟨fun _ _ => trivial, fun _ => PyError.noConfusion⟩
  exact (ensures_mapM_mem _ hone).imp fun _ _ => ⟨rfl, rfl⟩

theorem ensures_addExecutor_of_keyed (hkey : s.executorsManager.Keyed) :
    (s.addExecutor cfg e).Ensures (fun err => err ≠ .value) fun s' =>
      s'.executorsManager = s.executorsManager ∧
        ∀ e', e' ∈ s'.executorStates ↔ e' = e ∨ e' ∈ s.executorStates := by
  unfold addExecutor
  rw [ensures_bind, ensures_pyAssert]
  refine ⟨fun _ => ?_, fun _ => PyError.noConfusion⟩
  rw [ensures_bind, ensures_subscript]
  refine ⟨fun x hx => ?_, fun _ => PyError.noConfusion⟩
  rw [hkey e x hx]
  have hself : e ∈ s.executorStates.set e (ExecutorState.ofExecutor x) := by simp
  refine (ensures_refreshSupply_of_mem hself).imp ?_
  rintro s' ⟨hstates, hman⟩
  rw [hstates, hman]
  exact ⟨rfl, by simp⟩

theorem ensures_foldlM_modifyRequestState (f : RequestState → RequestState) (l : List ReqId) :
    (l.foldlM (fun (s : Scheduler κ) r => s.modifyRequestState r f) s).Ensures
      (fun err => err ≠ .value) fun s' =>
        s'.executorStates = s.executorStates ∧ s'.executorsManager = s.executorsManager := by
  refine ensures_foldlM l (fun s' r _ hs' => ?_) s ⟨rfl, rfl⟩
  unfold modifyRequestState
  rw [ensures_bind, ensures_subscript]
  exact ⟨fun rs _ => hs', fun _ => PyError.noConfusion⟩

theorem ensures_removeExecutor_of_mem (h : e₀ ∈ s.executorStates) (hne : e₀ ≠ e) :
    (s.removeExecutor cfg e).Ensures (fun err => err ≠ .value) fun s' =>
      s'.executorsManager = s.executorsManager ∧ e₀ ∈ s'.executorStates := by
  unfold removeExecutor
  rw [ensures_bind, ensures_pyAssert]
  refine ⟨fun _ => ?_, fun _ => PyError.noConfusion⟩
  rw [ensures_bind, ensures_subscript]
  refine ⟨fun es _ => ?_, fun _ => PyError.noConfusion⟩
  refine (ensures_foldlM_modifyRequestState _ _).bind ?_
  rintro s₁ ⟨hs₁, hm₁⟩
  refine (ensures_foldlM_modifyRequestState _ _).bind ?_
  rintro s₂ ⟨hs₂, hm₂⟩
  refine (ensures_foldlM_modifyRequestState _ _).bind ?_
  rintro s₃ ⟨hs₃, hm₃⟩
  rw [ensures_bind, ensures_subscript]
  refine ⟨fun m _ => ?_, fun _ => PyError.noConfusion⟩
  have hmem : e₀ ∈ s₃.executorStates.erase e := by
    rw [hs₃, hs₂, hs₁, Dict.mem_erase]
    exact ⟨hne, h⟩
  refine (ensures_refreshSupply_of_mem hmem).imp ?_
  rintro s' ⟨hs', hm'⟩
  exact ⟨by rw [hm', hm₃, hm₂, hm₁], by rw [hs']; exact hmem⟩

/-- As long as some executor exists that is not being killed, no maximum is taken
over an empty set. -/
theorem ensures_updateExecutors_of_serving (hkey : s.executorsManager.Keyed)
    {st : ExecutorStatus} (hst : s.executorsManager.status? e₀ = some st) (hne : st ≠ .killing) :
    (s.updateExecutors cfg).Ensures (fun err => err ≠ .value) fun _ => True := by
  have hgone : isGone s.executorsManager e₀ = false := by
    simp [isGone, hst, hne]
  have hin : e₀ ∈ s.executorsManager.executors := by
    rw [ExecutorsManager.status?, Option.map_eq_some_iff] at hst
    obtain ⟨x, hx, -⟩ := hst
    exact Dict.mem_of_get? hx
  unfold updateExecutors
  refine (ensures_foldlM_rest (E := fun err => err ≠ PyError.value)
    (fun rest (s' : Scheduler κ) => s'.executorsManager = s.executorsManager ∧
      (e₀ ∈ rest ∨ e₀ ∈ s'.executorStates)) ?_ _ s ⟨rfl, .inl hin⟩).bind ?_
  · rintro s' e rest ⟨hman, hmem⟩
    split_ifs with he
    · refine ⟨hman, ?_⟩
      rcases hmem with hmem | hmem
      · rcases List.mem_cons.mp hmem with rfl | hmem
        · exact .inr he
        · exact .inl hmem
      · exact .inr hmem
    · refine (ensures_addExecutor_of_keyed (hman ▸ hkey)).imp ?_
      rintro s'' ⟨hman', hmem'⟩
      refine ⟨hman'.trans hman, ?_⟩
      rw [hmem']
      rcases hmem with hmem | hmem
      · rcases List.mem_cons.mp hmem with rfl | hmem
        · exact .inr (.inl rfl)
        · exact .inl hmem
      · exact .inr (.inr hmem)
  · rintro s₁ ⟨hman, hmem⟩
    have hmem : e₀ ∈ s₁.executorStates := hmem.resolve_left (by simp)
    refine (ensures_foldlM (I := fun s' => s'.executorsManager = s.executorsManager ∧
      e₀ ∈ s'.executorStates) _ ?_ s₁ ⟨hman, hmem⟩).imp fun _ _ => trivial
    rintro s' e - ⟨hman', hmem'⟩
    split_ifs with he
    · have hne' : e₀ ≠ e := by
        rintro rfl
        rw [hman', hgone] at he
        exact Bool.noConfusion he
      refine (ensures_removeExecutor_of_mem hmem' hne').imp ?_
      rintro s'' ⟨hman'', hmem''⟩
      exact ⟨hman''.trans hman', hmem''⟩
    · exact ⟨hman', hmem'⟩

end Scheduler

theorem exists_executor_of_node {nodeIps : List (Option String)} {old : ExecutorConfig}
    (hold : old.UsesOnce (nodeToBundles nodeIps).values.flatten) {n : String}
    (hn : n ∈ nodeToBundles nodeIps) :
    ∃ b, nodeIps[b]? = some (some n) ∧ ∃ e ∈ old, b ∈ old.getD e [] := by
  obtain ⟨b, hb⟩ := (mem_nodeToBundles_iff nodeIps n).mp hn
  obtain ⟨bs, hbs⟩ := (Dict.mem_iff_exists _ n).mp hn
  have hflat : b ∈ (nodeToBundles nodeIps).values.flatten := by
    rw [Dict.getD_of_get? hbs] at hb
    exact List.mem_flatten.mpr
      ⟨bs, List.mem_map.mpr ⟨(n, bs), (Dict.mem_entries_iff _ n bs).mpr hbs, rfl⟩, hb⟩
  obtain ⟨⟨e, bs'⟩, he, hb'⟩ := hold.covers b hflat
  have hget := (old.mem_entries_iff e bs').mp he
  refine ⟨b, (mem_nodeToBundles nodeIps n b).mp hb, e, Dict.mem_of_get? hget, ?_⟩
  rw [Dict.getD_of_get? hget]
  exact hb'

/-- The commands of a reconfiguration leave some executor out of the first stage. -/
theorem exists_later_of_reconfig (ord : SetOrder) {nodeIps : List (Option String)}
    {old planned : ExecutorConfig} (initialConfig : ExecutorConfig)
    (hnodes : (nodeToBundles nodeIps).keys ≠ [])
    (hold : old.UsesOnce (nodeToBundles nodeIps).values.flatten)
    (hlocal : old.NodeLocal nodeIps) (hlocal' : planned.NodeLocal nodeIps) :
    ∃ new, (reconfig ord (nodeToBundles nodeIps) old initialConfig planned).2 =
        createStagewiseSequentialCommand ord old new ∧
      ∃ e ∈ old,
        .dummy ∉ (createStagewiseSequentialCommand ord old new).parentsOf (.executor e) := by
  obtain ⟨n, hn⟩ := List.exists_mem_of_ne_nil _ hnodes
  obtain ⟨b, hb, e, he, hbe⟩ := exists_executor_of_node hold hn
  have hnonempty : old.keys.length ≠ 0 := fun h =>
    List.ne_nil_of_mem he (List.eq_nil_of_length_eq_zero h)
  unfold reconfig
  rw [if_neg hnonempty]
  dsimp only
  split_ifs with hguard
  · refine ⟨old, rfl, e, he, fun hdummy => ?_⟩
    obtain ⟨st, rest, hst, k, hk, -⟩ := kill_of_stageEdge_dummy
      (((ordered_sequential ord old old).edges.mem_parentsOf _ _).mp hdummy)
    have hmem : st ∈ buildStages ord old old := hst ▸ List.mem_cons_self
    have hkill := (staging_buildStages ord old old).kill hmem hk
    rw [mem_toKill] at hkill
    exact hkill.2 hkill.1
  · refine ⟨planned, rfl, ?_⟩
    by_cases hone : (nodeToBundles nodeIps).keys.length = 1
    · exact exists_later_of_length ord old planned fun hlen => hguard ⟨hone, hlen⟩
    · -- some bundle is on another node, and so is its executor
      obtain ⟨n', hn', hne⟩ := List.exists_ne_of_length (Dict.nodup_keys _) hn hone
      obtain ⟨b', hb', e', he', hbe'⟩ := exists_executor_of_node hold hn'
      by_cases hfirst : .dummy ∈
          (createStagewiseSequentialCommand ord old planned).parentsOf (.executor e)
      · refine ⟨e', he', exists_later_of_nodes ord old planned hlocal hlocal' ?_ hbe hbe' hfirst⟩
        rw [hb, hb']
        simpa using hne.symm
      · exact ⟨e, he, hfirst⟩

/-- While a reconfiguration is carried out, at every moment of every interleaving some
executor is live and serves. So, whenever the scheduler compares its records with a
manager that has every serving executor, no maximum is taken over an empty set.
Beyond being node-local nothing is asked of the plan. -/
theorem no_downtime (ord : SetOrder) (nodeIps : List (Option String))
    (old initialConfig planned : ExecutorConfig)
    (hnodes : (nodeToBundles nodeIps).keys ≠ [])
    (hold : old.UsesOnce (nodeToBundles nodeIps).values.flatten)
    (hlocal : old.NodeLocal nodeIps) (hlocal' : planned.NodeLocal nodeIps)
    (g : ReconfigCommands)
    (hg : g = (reconfig ord (nodeToBundles nodeIps) old initialConfig planned).2)
    (x : Execution CommandId) (hx : g.graph.Reachable .dummy x) :
    (∃ e, Serving old g x e ∧ ∃ bs, Live old g x e bs) ∧
      ∀ {κ : Type} (cfg : Config κ) (s : Scheduler κ), s.executorsManager.Keyed →
        (∀ e, Serving old g x e →
          ∃ st, s.executorsManager.status? e = some st ∧ st ≠ .killing) →
        (s.updateExecutors cfg).Ensures (fun err => err ≠ .value) fun _ => True := by
  obtain ⟨new, hnew, e, he, hlater⟩ :=
    exists_later_of_reconfig ord initialConfig hnodes hold hlocal hlocal'
  obtain rfl := hg.trans hnew
  obtain ⟨e₀, hserving⟩ := exists_serving ord old new hx he hlater
  have hlive : ∃ bs, Live old (createStagewiseSequentialCommand ord old new) x e₀ bs := by
    have horderly := orderly_of_reachable (ordered_sequential ord old new).wellFormed hx
    rcases hserving with ⟨he₀, hnot⟩ | ⟨⟨bs, hbs⟩, hfin⟩
    · obtain ⟨bs, hbs⟩ := (old.mem_iff_exists e₀).mp he₀
      exact ⟨bs, .inl ⟨hbs, fun hk => hnot ⟨hk.1, horderly.finished _ hk.2⟩⟩⟩
    · exact ⟨bs, .inr ⟨hbs, horderly.finished _ hfin⟩⟩
  refine ⟨⟨e₀, hserving, hlive⟩, fun cfg s hkey hman => ?_⟩
  obtain ⟨st, hst, hne⟩ := hman e₀ hserving
  exact Scheduler.ensures_updateExecutors_of_serving hkey hst hne

/-- Two nodes, one executor on each; that of the first node is replaced. -/
theorem no_downtime_small :
    ∃ x, (reconfig .insertion (nodeToBundles [some "a", some "a", some "b"]) uneven uneven
        renewed).2.graph.Reachable .dummy x ∧ .executor 0 ∈ x.started ∧
      ∃ e, Serving uneven (reconfig .insertion (nodeToBundles [some "a", some "a", some "b"])
        uneven uneven renewed).2 x e := by
  have hrun : ((reconfig .insertion (nodeToBundles [some "a", some "a", some "b"]) uneven uneven
      renewed).2.graph.replay .dummy
        [.enter .dummy, .finish .dummy, .enter (.executor 0)]).Ensures (fun _ => False)
          fun x => .executor 0 ∈ x.started := by
    decide +kernel
  obtain ⟨x, hok, hs⟩ := hrun.exists_ok
  have hx := ensures_of_ok (reachable_of_replay _ _ _) hok
  obtain ⟨⟨e, he, -⟩, -⟩ := no_downtime .insertion [some "a", some "a", some "b"] uneven uneven
    renewed (by decide +kernel)
    ⟨by decide +kernel, by decide +kernel, by decide +kernel, by decide +kernel⟩
    (by decide +kernel) (by decide +kernel) _ rfl x hx
  exact ⟨x, hx, hs, e, he⟩

end TeDiServe

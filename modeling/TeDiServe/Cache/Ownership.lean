import TeDiServe.Cache.Account

/-!
# Who owns the KV cache blocks

The scheduler takes blocks for a request when it comes to an executor in stage 5, and
gives them back when the request is moved away, stops or is aborted; an executor that is
given up takes its whole pool with it. So on every executor exactly the residents have
blocks, each of them as many as it needed when it came.
-/

namespace TeDiServe

namespace Scheduler

open Round

variable {κ : Type} {cfg : Config κ} {s s' : Scheduler κ} {π π₁ π₂ : Placement}
  {r : ReqId} {e : ExecutorId} {a : Account κ} {share : ReqId → ExecutorId → ℕ}

/-! ## The executors -/

/-- The managers of the executors that the scheduler has a record of: those it knew
before have kept theirs, the others have a new one. -/
def Renewed (cfg : Config κ) (s s' : Scheduler κ) : Prop :=
  ∀ e m, e ∈ s'.executorStates → s'.kvCacheManagers.get? e = some m →
    e ∈ s.executorStates ∧ s.kvCacheManagers.get? e = some m ∨
      e ∉ s.executorStates ∧ m = cfg.kv.create e

theorem ensures_modifyRequestStates_frame (f : RequestState → RequestState) (l : List ReqId)
    (s : Scheduler κ) :
    (l.foldlM (fun (s : Scheduler κ) r => s.modifyRequestState r f) s).Ensures (fun _ => True)
      fun s' => ∃ d, s' = { s with requestStates := d } := by
  refine ensures_foldlM (E := fun _ => True)
    (I := fun s' => ∃ d, s' = { s with requestStates := d }) l ?_ s ⟨_, rfl⟩
  rintro s' r - ⟨d, rfl⟩
  unfold modifyRequestState
  apply ensures_bind_any
  exact fun rs => ⟨_, rfl⟩

theorem ensures_updateExecutors_renewed (hkey : s.executorsManager.Keyed) :
    (s.updateExecutors cfg).Ensures (fun _ => True) (Renewed cfg s) := by
  have hsupply : ∀ s' : Scheduler κ, (s'.refreshSupply cfg).Ensures (fun _ => True) fun s'' =>
      ∃ d v, s'' = { s' with maxTpDegree := d, throughputSupply := v } :=
    fun s' => (ensures_refreshSupply cfg s').mono (fun _ _ => trivial) fun _ hs => hs
  unfold updateExecutors
  apply (ensures_foldlM (E := fun _ => True) (I := fun s' => Renewed cfg s s' ∧
    s'.executorsManager = s.executorsManager ∧
    ∀ e ∈ s.executorStates, e ∈ s'.executorStates) _ ?_ s ?_).bind
  · rintro s₁ ⟨h₁, -, -⟩
    refine ensures_foldlM (E := fun _ => True) (I := Renewed cfg s) _ ?_ s₁ h₁
    intro s' e _ hs'
    split_ifs
    · unfold removeExecutor
      apply ensures_bind_any
      intro _
      apply ensures_bind_any
      intro es
      apply (ensures_modifyRequestStates_frame _ _ s').bind
      rintro s'' ⟨d, rfl⟩
      apply (ensures_modifyRequestStates_frame _ _ _).bind
      rintro s'' ⟨d', rfl⟩
      apply (ensures_modifyRequestStates_frame _ _ _).bind
      rintro s'' ⟨d'', rfl⟩
      apply ensures_bind_any
      intro m
      apply (hsupply _).imp
      rintro s'' ⟨dg, v, rfl⟩
      intro e' m' he' hm'
      dsimp only at he' hm'
      rw [Dict.get?_erase] at hm'
      split_ifs at hm'
      exact hs' e' m' ((Dict.mem_erase _ _ _).mp he').2 hm'
    · exact hs'
  · rintro s' e - ⟨hs', hman, hsub⟩
    split_ifs with he
    · exact ⟨hs', hman, hsub⟩
    · unfold addExecutor
      apply ensures_bind_any
      intro _
      rw [ensures_bind, ensures_subscript]
      refine ⟨fun x hx => ?_, fun _ => trivial⟩
      rw [hman] at hx
      have hid : x.id = e := hkey e x hx
      apply (hsupply _).imp
      rintro s'' ⟨dg, v, rfl⟩
      refine ⟨?_, hman, fun e' he' => (Dict.mem_set _ _ _ _).mpr (Or.inr (hsub e' he'))⟩
      intro e' m' he' hm'
      dsimp only at he' hm'
      rw [hid, Dict.get?_set] at hm'
      split_ifs at hm' with hne
      · cases hm'
        exact Or.inr ⟨fun hc => he (hne ▸ hsub e' hc), by rw [hne]⟩
      · rw [hid, Dict.mem_set, or_iff_right hne] at he'
        exact hs' e' m' he' hm'
  · exact ⟨fun e m he hm => Or.inl ⟨he, hm⟩, rfl, fun _ he => he⟩

/-! ## A whole call of `schedule()` -/

theorem Looked.owned {env : ScheduleEnv} {s₀ s₁ : Scheduler κ} {π₀ : Placement}
    (ha : cfg.kv.Accounts a) (h : Looked cfg env s π s₀ π₀ s₁ π₁) (hπ : Refines s π)
    (hkey : s.executorsManager.Keyed) (hown : Owned a s share fun r e => π r = some (.running e))
    (hzero : ∀ r e, π r ≠ some (.running e) → share r e = 0) :
    Owned a s₁ share fun r e => π₁ r = some (.running e) := by
  have hkey₀ : s₀.executorsManager.Keyed := by
    rw [h.admitted.enrolled.executorsManager]
    exact hkey
  have hrenew := ensures_of_ok (ensures_updateExecutors_renewed hkey₀) h.update_eq
  intro e m he hm
  have hhost : ∀ r, π₁ r = some (.running e) ↔ π r = some (.running e) := by
    intro r
    rw [h.resident]
    exact and_iff_left ((h.recorded e).mp he)
  simp only [hhost]
  rcases hrenew e m he hm with ⟨he₀, hm₀⟩ | ⟨he₀, rfl⟩
  · rw [h.admitted.enrolled.executorStates] at he₀
    rw [h.admitted.enrolled.kvCacheManagers] at hm₀
    exact hown e m he₀ hm₀
  · obtain ⟨hsound, hblocks⟩ := ha.create e
    refine ⟨hsound, fun r => ?_⟩
    have hno : π r ≠ some (.running e) := by
      intro hr
      rw [h.admitted.enrolled.executorStates] at he₀
      exact he₀ (hπ.hosted r e (Placement.host?_of_running hr))
    rw [hblocks, hzero r e hno]
    exact ⟨rfl, iff_of_false (by simp) hno⟩

theorem ensures_stage5_owned (hc : cfg.caching = true) (ha : cfg.kv.Accounts a)
    (env : ScheduleEnv) {found : List ExecutorId} {s₁ : Scheduler κ} {q : Round κ}
    {old : Dict ReqId (Option ExecutorId)} (hin : InRound cfg found s₁ π₁ q π₂)
    (h₁ : Refines s₁ π₁) (hcaches : ∀ e ∈ s₁.executorStates, e ∈ s₁.kvCacheManagers)
    (hold : ∀ r ∈ s₁.requestStates, (old.get? r).join = π₁.resident? r)
    (hown : Owned a s₁ share fun r e => π₁ r = some (.running e)) :
    (stage5 cfg env found old q).Ensures (fun _ => True) fun x =>
      Owned a x.1 (shareAfter a s₁.requests π₁ π₂ share) fun r e => π₂ r = some (.running e) := by
  have hreqs : q.scheduler.requests = s₁.requests := hin.moved.requests
  apply (ensures_stage5_with env (E := fun _ => True) (J := fun done s =>
    SameAmounts s₁.requests s ∧
    Owned a s (inStage5 a s₁.requests π₁ π₂ share done) (hostInStage5 π₁ π₂ done))
      hin h₁ hcaches hold ?_ ?_).mono (fun _ _ => trivial)
  · rintro x ⟨done, hdone, hw, -, hx⟩
    refine hx.of_eq rfl (fun _ he => he) fun r e he hhost => ?_
    unfold inStage5 hostInStage5 at hhost ⊢
    by_cases hr : r ∈ done
    · rw [if_pos hr, if_pos hr]
      exact ⟨rfl, Iff.rfl⟩
    · rw [if_neg hr, if_neg hr] at hhost ⊢
      have hsame : π₂ r = some (.running e) ↔ π₁ r = some (.running e) := by
        rw [hdone] at hr
        rw [← Placement.resident?_eq_some_iff, ← Placement.resident?_eq_some_iff,
          hin.unnoted r hr]
      exact ⟨shareAfter_eq hsame hhost, hsame⟩
  · obtain ⟨es, rs, hs, -⟩ := id hin.moved
    refine ⟨fun r => by rw [← hreqs], ?_⟩
    refine hown.of_eq (by rw [hs]) (fun e he => hin.moved.mem_executorStates.mp he)
      fun r e _ _ => ?_
    rw [inStage5, if_neg List.not_mem_nil, hostInStage5, if_neg List.not_mem_nil]
    exact ⟨rfl, Iff.rfl⟩
  · rintro done rest s t r hframed hnot hmem - ⟨hsame, hs⟩
    obtain ⟨hknown, hfound⟩ := hin.noted r hmem
    obtain ⟨l, hl⟩ :=
      hin.refines.mem_requestStates_iff.mp (hin.moved.mem_requestStates.mpr hknown)
    apply (ensures_finalize_visit hc (hframed.refines hin.refines) hl (hold r hknown) hfound
      hsame).mono (fun _ _ => trivial)
    rintro x ⟨hsame', hes, hvisit⟩
    exact ⟨hsame', hs.visit_done ha h₁.ids hes hvisit hnot⟩

/-- The managers are not touched between the executors and stage 5. -/
theorem Owned.starts (hown : Owned a s share fun r e => π r = some (.running e))
    (h : Starts s s') : Owned a s' share fun r e => π r = some (.running e) := by
  refine hown.of_eq h.kvCacheManagers (fun e he => ?_) fun _ _ _ _ => ⟨rfl, Iff.rfl⟩
  rwa [h.framed.executorStates] at he

theorem Course.owned {env : ScheduleEnv} {s₀ s₁ : Scheduler κ} {π₀ : Placement} {p : Plan κ}
    (hc : cfg.caching = true) (ha : cfg.kv.Accounts a)
    (h : Course cfg env s π s₀ π₀ s₁ π₁ p π₂)
    (hown : Owned a s₁ share fun r e => π₁ r = some (.running e)) :
    Owned a p.scheduler (shareAfter a s₁.requests π₁ π₂ share)
      fun r e => π₂ r = some (.running e) := by
  have hstarts := starts_considerIdle cfg env.predict s₁
  have hown' := hown.starts hstarts
  rcases h.derived with ⟨-, hsame, heq⟩ | ⟨q, -, hin, -, -, hstage⟩
  · rw [heq, hsame]
    exact hown'.of_eq rfl (fun _ he => he)
      fun r e _ hhost => ⟨shareAfter_eq Iff.rfl hhost, Iff.rfl⟩
  · generalize (s₁.drainStepEstimateUpdates cfg env.predict).considerIdle = start
      at hstarts hown' hin
    have hold : ∀ r ∈ start.requestStates,
        ((s₁.requestStates.mapValues RequestState.executorId).get? r).join = π₁.resident? r :=
      fun r hr => h.refines.old_executor (hstarts.framed.mem_requestStates.mp hr)
    have hx := ensures_of_ok (ensures_stage5_owned hc ha env hin
      (hstarts.framed.refines h.refines) (h.ledger.of_kept hstarts.framed.kept).caches hold hown')
      hstage
    rwa [hstarts.requests] at hx

end Scheduler

/-! ## Runs -/

namespace Calls

open Scheduler

variable {κ : Type} {cfg : Config κ} {t t' : Calls κ} {c : Call} {π π' : Placement}
  {a : Account κ} {share : ReqId → ExecutorId → ℕ}

theorem Effect.owned (hc : cfg.caching = true) (ha : cfg.kv.Accounts a)
    (he : Effect cfg t π c t' π') (hcons : Consistent cfg t) (hπ : Refines t.scheduler π)
    (hown : Owned a t.scheduler share fun r e => π r = some (.running e))
    (hzero : ∀ r e, π r ≠ some (.running e) → share r e = 0) :
    Owned a t'.scheduler (shareAfter a t.scheduler.requests π π' share)
      fun r e => π' r = some (.running e) := by
  have hkeep : ∀ r e (_ : share r e ≠ 0 ↔ π r = some (.running e)),
      shareAfter a t.scheduler.requests π π share r e = share r e ∧
        (π r = some (.running e) ↔ π r = some (.running e)) :=
    fun r e hhost => ⟨shareAfter_eq Iff.rfl hhost, Iff.rfl⟩
  cases he with
  | addRequest refines ledger extends_ enrolled requests dropped deferred =>
      refine hown.of_eq enrolled.kvCacheManagers (fun e he => ?_) fun r e _ hhost => ?_
      · dsimp only at he
        rwa [enrolled.executorStates] at he
      · have hsame : π' r = some (.running e) ↔ π r = some (.running e) := by
          rcases extends_ r with heq | ⟨hnone, hnew⟩
          · rw [heq]
          · rw [hnone, hnew]
            simp
        exact ⟨shareAfter_eq hsame hhost, hsame⟩
  | @schedule env s outs p π₁ _ readied returned course loop =>
      obtain ⟨s₀, π₀, s₁, hcourse⟩ := course
      have hplan := hcourse.owned hc ha
        (hcourse.toLooked.owned ha hπ hcons.keyed hown hzero)
      have hkv := ensures_of_ok (ensures_stage6_of
        (P := fun s => s.kvCacheManagers = _) (fun _ _ hs => hs) (fun _ _ _ _ hs _ => hs)
        (fun _ _ _ _ hs _ => hs) (fun _ _ _ hs => hs) _ _ _ _ rfl) loop
      have hback : ∀ e, e ∈ s.executorStates → e ∈ p.scheduler.executorStates := by
        intro e he
        rwa [returned.issued.framed.executorStates] at he
      refine hplan.of_eq hkv hback fun r e he _ => ⟨?_, Iff.rfl⟩
      have hres : π₁ r = some (.running e) ↔ π r = some (.running e) := by
        rw [readied.resident]
        exact and_iff_left ((readied.recorded e).mp (hback e he))
      unfold shareAfter
      by_cases hrun : π' r = some (.running e)
      · have hknown : r ∈ s₁.requests := by
          have hstate := readied.refines.mem_requestStates_iff.mpr ⟨_, hrun⟩
          rw [hcourse.reshaped.requests]
          exact hcourse.admitted.refines.known r (hcourse.mem_requestStates.mp hstate)
        have hsame : s₁.requests.get? r = t.scheduler.requests.get? r :=
          (hcourse.requests r).resolve_right fun hnone =>
            (Dict.get?_eq_none_iff _ _).mp hnone.2 hknown
        simp only [if_pos hrun, hres, needOf, hsame]
      · rw [if_neg hrun, if_neg hrun]
  | manager management keyed => exact hown.of_eq rfl (fun _ he => he) fun r e _ => hkeep r e
  | finishExecution flight keyed => exact hown.of_eq rfl (fun _ he => he) fun r e _ => hkeep r e
  | @updateFromOutput e msg res s outs m done π' flight apply_eq visited applied progressed keyed =>
      have hkeys : ∀ e, e ∈ s.executorStates ↔ e ∈ t.scheduler.executorStates := by
        intro e
        rw [Dict.mem_def, applied.executorKeys]
        rfl
      refine hown.freed ha applied.blocks (fun e he => (hkeys e).mp he) ?_ fun r e hnot hhost => ?_
      · rintro r e ⟨-, hnone⟩
        have hno : π' r ≠ some (.running e) := by simp [hnone]
        exact ⟨by rw [shareAfter, if_neg hno], hno⟩
      · have hsame : π' r = some (.running e) ↔ π r = some (.running e) := by
          rcases applied.placement r with heq | ⟨-, hnone, e', hrun⟩
          · rw [heq]
          · rw [hnone]
            exact iff_of_false (by simp) fun hc => hnot ⟨hc, hnone⟩
        exact ⟨shareAfter_eq hsame hhost, hsame⟩
  | @finishRequests arg status clock s π' finish_eq finished abortable aborted =>
      have hkeys : ∀ e, e ∈ s.executorStates ↔ e ∈ t.scheduler.executorStates := by
        intro e
        rw [Dict.mem_def, aborted.executorKeys]
        rfl
      refine hown.freed ha aborted.blocks (fun e he => (hkeys e).mp he) ?_ fun r e hnot hhost => ?_
      · rintro r e ⟨hr, -⟩
        have hno : π' r ≠ some (.running e) := fun hc => (aborted.running_iff.mp hc).2 hr
        exact ⟨by rw [shareAfter, if_neg hno], hno⟩
      · have hsame : π' r = some (.running e) ↔ π r = some (.running e) := by
          rw [aborted.running_iff]
          exact and_iff_left_of_imp fun hrun hr => hnot ⟨hr, hrun⟩
        exact ⟨shareAfter_eq hsame hhost, hsame⟩
  | refreshEstimates soft =>
      refine hown.of_eq soft.kvCacheManagers (fun e he => ?_) fun r e _ => hkeep r e
      dsimp only at he
      rwa [soft.framed.executorStates] at he
  | controlLoad inRange minInRange => exact hown.of_eq rfl (fun _ he => he) fun r e _ => hkeep r e

theorem owned_of_init (ha : cfg.kv.Accounts a) (ht : Init cfg t) :
    ∃ π, Refines t.scheduler π ∧ (∀ r e, π r ≠ some (.running e)) ∧
      Owned a t.scheduler (fun _ _ => 0) fun r e => π r = some (.running e) := by
  obtain ⟨m', -, hπ, -⟩ := built_of_init ht
  obtain ⟨launches, m, s, hm, hs, rfl⟩ := ht
  have hno : ∀ r e, Placement.evict (fun _ => none) (isGone m') r ≠ some (.running e) := by
    intro r e hr
    cases hr
  refine ⟨_, hπ, hno, ?_⟩
  have hkey : (Scheduler.empty m : Scheduler κ).executorsManager.Keyed := keyed_of_launches hm
  have hrenew := ensures_of_ok (ensures_updateExecutors_renewed hkey) hs
  intro e k he hk
  rcases hrenew e k he hk with ⟨hempty, -⟩ | ⟨-, rfl⟩
  · exact absurd hempty (Dict.not_mem_empty e)
  · obtain ⟨hsound, hblocks⟩ := ha.create e
    exact ⟨hsound, fun r => ⟨hblocks r, iff_of_false (by simp) (hno r e)⟩⟩

/-- In every state of every run exactly the residents have blocks; whatever each step that
gives blocks to a request makes of its share is kept as long as the request stays. -/
theorem Reachable.owned_with {allowed : Calls κ → Call → Prop} (hc : cfg.caching = true)
    (ha : cfg.kv.Accounts a) {P : Calls κ → ReqId → ExecutorId → ℕ → Prop}
    (hkeep : ∀ {t c t' π π' r e n}, Step cfg allowed t c t' → Effect cfg t π c t' π' →
      Refines t.scheduler π → π r = some (.running e) → π' r = some (.running e) → P t r e n →
      P t' r e n)
    (hnew : ∀ {t c t' π π' r e}, Step cfg allowed t c t' → Effect cfg t π c t' π' →
      Refines t.scheduler π → π r ≠ some (.running e) → π' r = some (.running e) →
      P t' r e (needOf a t.scheduler.requests r e))
    (h : Reachable cfg allowed t) :
    ∃ π share, Refines t.scheduler π ∧
      Owned a t.scheduler share (fun r e => π r = some (.running e)) ∧
      (∀ r e, π r ≠ some (.running e) → share r e = 0) ∧
      ∀ r e, π r = some (.running e) → P t r e (share r e) := by
  apply h.invariant (I := fun t => ∃ π share, Refines t.scheduler π ∧
    Owned a t.scheduler share (fun r e => π r = some (.running e)) ∧
    (∀ r e, π r ≠ some (.running e) → share r e = 0) ∧
    ∀ r e, π r = some (.running e) → P t r e (share r e))
  · intro t ht
    obtain ⟨π, hπ, hno, hown⟩ := owned_of_init ha ht
    exact ⟨π, _, hπ, hown, fun _ _ _ => rfl, fun r e hr => absurd hr (hno r e)⟩
  · rintro t c t' hr ⟨π, share, hπ, hown, hzero, hP⟩ hstep
    have hcons := Reachable.consistent hr
    obtain ⟨π', he⟩ := ensures_of_ok
      (ensures_effect hπ hcons.ledger hcons.keyed hstep.1) hstep.2.2
    refine ⟨π', _, (he.consistent hcons hπ).2, he.owned hc ha hcons hπ hown hzero, ?_, ?_⟩
    · intro r e hr'
      rw [shareAfter, if_neg hr']
    · intro r e hr'
      rw [shareAfter, if_pos hr']
      split_ifs with hbefore
      · exact hkeep hstep he hπ hbefore hr' (hP r e hbefore)
      · exact hnew hstep he hπ hbefore hr'

theorem Reachable.owned {allowed : Calls κ → Call → Prop} (hc : cfg.caching = true)
    (ha : cfg.kv.Accounts a) (h : Reachable cfg allowed t) :
    ∃ π share, Refines t.scheduler π ∧
      Owned a t.scheduler share fun r e => π r = some (.running e) := by
  obtain ⟨π, share, hπ, hown, -⟩ := Reachable.owned_with (P := fun _ _ _ _ => True) hc ha
    (fun _ _ _ _ _ _ => trivial) (fun _ _ _ _ _ => trivial) h
  exact ⟨π, share, hπ, hown⟩

/-- In every state of every run exactly the residents of an executor have blocks there, no
two of them share a block, and no block is lost. -/
theorem blocks_owned (config : ExecutorId → KVCacheConfig) (cfg : Config KVCacheManager)
    (hkv : cfg.kv = KVCacheManager.ops config) (hc : cfg.caching = true)
    {allowed : Calls KVCacheManager → Call → Prop} {t : Calls KVCacheManager}
    (h : Reachable cfg allowed t) {e : ExecutorId} {es : ExecutorState}
    (hes : t.scheduler.executorStates.get? e = some es) :
    ∃ m, t.scheduler.kvCacheManagers.get? e = some m ∧
      (∀ r, m.getBlockIds r ≠ [] ↔ r ∈ es.reqIds) ∧
      (∀ r r', r ≠ r' → (m.getBlockIds r).Disjoint (m.getBlockIds r')) ∧
      m.blockPool.freeBlockQueue.length + (m.reqToBlocks.values.map List.length).sum =
        (config e).numBlocks - 1 := by
  have hacc : cfg.kv.Accounts (KVCacheManager.account config) := by
    rw [hkv]
    exact KVCacheManager.accounts config
  obtain ⟨π, share, hπ, hown⟩ := Reachable.owned hc hacc h
  have he : e ∈ t.scheduler.executorStates := Dict.mem_of_get? hes
  obtain ⟨m, hm⟩ := (Dict.mem_iff_exists _ _).mp ((Reachable.consistent h).ledger.caches e he)
  obtain ⟨hsound, hblocks⟩ := hown e m he hm
  have hacc' : m.Accounted (config e) := hsound
  refine ⟨m, hm, ?_, fun r r' hne => hacc'.disjoint hne, hacc'.length⟩
  intro r
  obtain ⟨hlen, hhost⟩ := hblocks r
  have hlen' : (m.getBlockIds r).length = share r e := hlen
  rw [← List.length_pos_iff, hlen', Nat.pos_iff_ne_zero, hhost]
  exact ((hπ.executors e es hes).resident r).symm

def blockConfig : KVCacheConfig := ⟨7, 3, 100, false, by decide, by decide, by decide⟩

def blocksSmall : Config KVCacheManager :=
  { maxNumScheduledTokens := 100
    candidateConfidenceThresholds := [9 / 10]
    defaultConfidenceThreshold := 9 / 10
    cachePrefix := true
    cacheSuffix := true
    requestLatencySlo := 100
    maxNumUnfinishedRequests := none
    enableDropping := false
    syncStepPrediction := false
    stepEstimatorRefreshUnmaskedTokenDelta := 100
    latencyProfiles := Dict.empty.set 1 (.constant 100 1)
    tpDegreeToThroughputSupply := Dict.empty.set 1 1
    getInitialDefaultPredictions := fun _ => Dict.empty.set (9 / 10) 4
    kv := KVCacheManager.ops fun _ => blockConfig }

/-- Two requests get two blocks each; the blocks of the one that is aborted go to the end
of the queue, and the next request gets those at its front. -/
theorem blocks_owned_small : ∃ t : Calls KVCacheManager, ∃ es m,
    Reachable blocksSmall UniqueIds t ∧ t.scheduler.executorStates.get? 0 = some es ∧
    t.scheduler.kvCacheManagers.get? 0 = some m ∧
    (∀ r, m.getBlockIds r ≠ [] ↔ r ∈ es.reqIds) ∧
    (∀ r r', r ≠ r' → (m.getBlockIds r).Disjoint (m.getBlockIds r')) ∧
    m.blockPool.freeBlockQueue.length + (m.reqToBlocks.values.map List.length).sum = 6 ∧
    m.getBlockIds "b" = [3, 4] ∧ m.getBlockIds "c" = [5, 6] ∧
    m.blockPool.freeBlockQueue = [2, 1] := by
  obtain ⟨t, hreach, es, hes, m, hm, hb, hc, hfree⟩ := exists_of_ensures
    (reachable_of_replay blocksSmall uniqueIds_of_uniqueIds? [(0, [0])]
      [.addRequest (Request.small "a"), .addRequest (Request.small "b"), .schedule .still,
        .finishRequests (.many ["a"]) .finishedAborted (fun _ => 0), .startExecution 0,
        .finishExecution 0 ⟨(Dict.empty.set "a" 0).set "b" 1, [[(1, 7)], [(1, 7)]]⟩,
        .updateFromOutput 0, .addRequest (Request.small "c"), .schedule .still])
    (Q := fun t => ∃ es ∈ t.scheduler.executorStates.get? 0,
      ∃ m ∈ t.scheduler.kvCacheManagers.get? 0, m.getBlockIds "b" = [3, 4] ∧
        m.getBlockIds "c" = [5, 6] ∧ m.blockPool.freeBlockQueue = [2, 1]) (by decide +kernel)
  obtain ⟨m', hm', hown, hdisj, hlen⟩ :=
    blocks_owned (fun _ => blockConfig) blocksSmall rfl rfl hreach hes
  rw [Option.mem_def.mp hm, Option.some.injEq] at hm'
  rw [← hm'] at hown hdisj hlen
  exact ⟨t, es, m, hreach, hes, hm, hown, hdisj, hlen, hb, hc, hfree⟩

end Calls

end TeDiServe

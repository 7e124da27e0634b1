import TeDiServe.Cache.Ownership

/-!
# How many blocks a resident has

An allocation takes blocks for the tokens that the request has computed before and for its
whole sequence. The counter of computed tokens grows with every step, although a step
computes positions again that were computed before. So a request has the blocks of its
sequence when it is allocated for the first time, and more after it was moved.
-/

namespace TeDiServe

/-- An allocation for the request takes the blocks of its sequence. -/
def KVCacheConfig.Exact (config : KVCacheConfig) (req : Request) : Prop :=
  KVCacheManager.cdiv (min (req.numComputedTokens + req.numTokens) config.maxModelLen)
    config.blockSize = KVCacheManager.cdiv req.numTokens config.blockSize

instance (config : KVCacheConfig) (req : Request) : Decidable (config.Exact req) :=
  inferInstanceAs (Decidable (_ = _))

namespace Scheduler

variable {κ : Type} {cfg : Config κ} {s : Scheduler κ} {π : Placement} {r : ReqId}
  {e : ExecutorId}

/-- The request may come to the executor in the next call: the executor exists, and is
not the one of the request, which exists no more or is one that the request may leave. -/
def MayCome (cfg : Config κ) (s : Scheduler κ) (r : ReqId) (req : Request) (e : ExecutorId) :
    Prop :=
  isGone s.executorsManager e = false ∧ s.executorOf r ≠ some e ∧
    ∀ e₀ ∈ s.executorOf r, isGone s.executorsManager e₀ = false → canMigrate cfg req = true

instance (cfg : Config κ) (s : Scheduler κ) (r : ReqId) (req : Request) (e : ExecutorId) :
    Decidable (MayCome cfg s r req e) :=
  inferInstanceAs (Decidable (_ ∧ _ ∧ _))

end Scheduler

namespace Calls

open Scheduler

/-- Wherever a request may come to in a call, an allocation takes the blocks of its
sequence. -/
def ExactSteps (config : ExecutorId → KVCacheConfig) (cfg : Config KVCacheManager)
    (t : Calls KVCacheManager) : Call → Prop
  | .schedule _ => ∀ r req e, t.scheduler.requests.get? r = some req →
      MayCome cfg t.scheduler r req e → (config e).Exact req
  | _ => True

variable {κ : Type} {cfg : Config κ} {t t' : Calls κ} {c : Call} {π π' : Placement} {r : ReqId}
  {e : ExecutorId}

/-- Only a call of `schedule()` makes a request resident, on an executor to which it may
come. -/
theorem Effect.mayCome (he : Effect cfg t π c t' π') (hπ : Refines t.scheduler π)
    (hbefore : π r ≠ some (.running e)) (hafter : π' r = some (.running e)) :
    (∃ env, c = .schedule env) ∧ ∃ req, t.scheduler.requests.get? r = some req ∧
      MayCome cfg t.scheduler r req e := by
  cases he with
  | addRequest refines ledger extends_ enrolled requests dropped deferred =>
      rcases extends_ r with heq | ⟨-, hnew⟩
      · exact absurd (heq.symm.trans hafter) hbefore
      · rw [hnew] at hafter
        cases hafter
  | @schedule env s outs p π₁ _ readied returned course loop =>
      refine ⟨⟨env, rfl⟩, ?_⟩
      obtain ⟨req₂, hreq₂, -⟩ := readied.refines.request hafter
      obtain ⟨req, hreq, hp⟩ : ∃ req, t.scheduler.requests.get? r = some req ∧
          req₂.progress = req.progress := by
        rcases readied.requests r with heq | ⟨-, hnone⟩
        · exact Dict.exists_of_map_eq heq hreq₂
        · rw [hreq₂] at hnone
          cases hnone
      have hrec := readied.refines.hosted r e (Placement.host?_of_running hafter)
      refine ⟨req, hreq, (readied.recorded e).mp hrec, ?_, ?_⟩
      · rw [Ne, hπ.executorOf_eq_some_iff]
        exact hbefore
      · intro e₀ he₀ hgone
        rw [Option.mem_def, hπ.executorOf_eq_some_iff] at he₀
        rw [← Bool.not_eq_false]
        intro hpin
        have hstay := readied.pinned r req e₀ hreq hpin ((readied.resident r e₀).mpr ⟨he₀, hgone⟩)
        rw [hafter, Option.some.injEq, Loc.running.injEq] at hstay
        rw [hstay] at hbefore
        exact hbefore he₀
  | manager management keyed => exact absurd hafter hbefore
  | finishExecution flight keyed => exact absurd hafter hbefore
  | updateFromOutput flight apply_eq visited applied progressed keyed =>
      rcases applied.placement r with heq | ⟨-, hnone, -⟩
      · exact absurd (heq.symm.trans hafter) hbefore
      · rw [hnone] at hafter
        cases hafter
  | finishRequests finish_eq finished abortable aborted =>
      exact absurd (aborted.running_iff.mp hafter).1 hbefore
  | refreshEstimates soft => exact absurd hafter hbefore
  | controlLoad inRange minInRange => exact absurd hafter hbefore

/-- In every run of such steps a resident has exactly the blocks of its sequence. -/
theorem residents_hold_exactly (config : ExecutorId → KVCacheConfig)
    (cfg : Config KVCacheManager) (hkv : cfg.kv = KVCacheManager.ops config)
    (hc : cfg.caching = true) {t : Calls KVCacheManager}
    (h : Reachable cfg (ExactSteps config cfg) t) {es : ExecutorState} {req : Request}
    (hes : t.scheduler.executorStates.get? e = some es) (hr : r ∈ es.reqIds)
    (hreq : t.scheduler.requests.get? r = some req) :
    ∃ m, t.scheduler.kvCacheManagers.get? e = some m ∧
      (m.getBlockIds r).length = KVCacheManager.cdiv req.numTokens (config e).blockSize := by
  have hacc : cfg.kv.Accounts (KVCacheManager.account config) := by
    rw [hkv]
    exact KVCacheManager.accounts config
  have hinv : ∃ π share, Refines t.scheduler π ∧
      Owned (KVCacheManager.account config) t.scheduler share
        (fun r e => π r = some (.running e)) ∧
      (∀ r e, π r ≠ some (.running e) → share r e = 0) ∧
      ∀ r e, π r = some (.running e) → ∀ req, t.scheduler.requests.get? r = some req →
        share r e = KVCacheManager.cdiv req.numTokens (config e).blockSize := by
    refine Reachable.owned_with (P := fun t r e n => ∀ req,
      t.scheduler.requests.get? r = some req →
        n = KVCacheManager.cdiv req.numTokens (config e).blockSize) hc hacc ?_ ?_ h
    · intro t c t' π π' r e n hstep he hπ hbefore hafter hn req hreq
      rcases he.origin hreq with ⟨req₀, hreq₀, hg⟩ | ⟨rfl, rfl⟩
      · rw [hg.numTokens]
        exact hn req₀ hreq₀
      · obtain ⟨req₀, hreq₀, -⟩ := hπ.request hbefore
        exact absurd (Dict.mem_of_get? hreq₀) hstep.1
    · intro t c t' π π' r e hstep he hπ hbefore hafter req hreq
      obtain ⟨⟨env, rfl⟩, req₀, hreq₀, hcome⟩ := he.mayCome hπ hbefore hafter
      rcases he.origin hreq with ⟨req₁, hreq₁, hg⟩ | ⟨hc, -⟩
      · rw [hreq₀, Option.some.injEq] at hreq₁
        rw [needOf, hreq₀, Option.map_some, Option.getD_some, hg.numTokens, ← hreq₁]
        exact hstep.2.1 r req₀ e hreq₀ hcome
      · cases hc
  obtain ⟨π, share, hπ, hown, -, hexact⟩ := hinv
  have he : e ∈ t.scheduler.executorStates := Dict.mem_of_get? hes
  obtain ⟨m, hm⟩ := (Dict.mem_iff_exists _ _).mp ((Reachable.consistent h).ledger.caches e he)
  have hrun := ((hπ.executors e es hes).resident r).mp hr
  refine ⟨m, hm, ?_⟩
  rw [← hexact r e hrun req hreq]
  exact ((hown e m he hm).2 r).1

def exactSteps? (config : ExecutorId → KVCacheConfig) (cfg : Config KVCacheManager)
    (t : Calls KVCacheManager) : Call → Bool
  | .schedule _ => t.scheduler.requests.entries.all fun x =>
      t.scheduler.executorsManager.executors.keys.all fun e =>
        decide (MayCome cfg t.scheduler x.1 x.2 e → (config e).Exact x.2)
  | _ => true

theorem exactSteps_of_exactSteps? (config : ExecutorId → KVCacheConfig)
    (cfg : Config KVCacheManager) (t : Calls KVCacheManager) (c : Call)
    (h : exactSteps? config cfg t c = true) : ExactSteps config cfg t c := by
  cases c with
  | schedule env =>
      intro r req e hreq hcome
      have hentry := List.all_eq_true.mp h (r, req) ((Dict.mem_entries_iff _ _ _).mpr hreq)
      have he : e ∈ t.scheduler.executorsManager.executors.keys := by
        rw [← Dict.mem_def]
        by_contra hnot
        have hnone := (Dict.get?_eq_none_iff _ _).mpr hnot
        have hgone := hcome.1
        rw [isGone, ExecutorsManager.status?, hnone] at hgone
        cases hgone
      exact of_decide_eq_true (List.all_eq_true.mp hentry e he) hcome
  | _ => trivial

/-- A request that has completed its first block on the only executor. -/
theorem residents_hold_exactly_small : ∃ t : Calls KVCacheManager, ∃ es req m,
    Reachable blocksSmall (ExactSteps (fun _ => blockConfig) blocksSmall) t ∧
    t.scheduler.executorStates.get? 0 = some es ∧ "a" ∈ es.reqIds ∧
    t.scheduler.requests.get? "a" = some req ∧ req.numComputedTokens = 5 ∧
    t.scheduler.kvCacheManagers.get? 0 = some m ∧ (m.getBlockIds "a").length = 2 := by
  obtain ⟨t, hreach, es, hes, req, hreq, hr, hcomputed, htwo⟩ := exists_of_ensures
    (reachable_of_replay blocksSmall (exactSteps_of_exactSteps? (fun _ => blockConfig) blocksSmall)
      [(0, [0])]
      [.addRequest (Request.small "a"), .schedule .still, .startExecution 0,
        .finishExecution 0 ⟨Dict.empty.set "a" 0, [[(1, 7), (2, 8)]]⟩, .updateFromOutput 0])
    (Q := fun t =>
      ∃ es ∈ t.scheduler.executorStates.get? 0, ∃ req ∈ t.scheduler.requests.get? "a",
      "a" ∈ es.reqIds ∧ req.numComputedTokens = 5 ∧
      KVCacheManager.cdiv req.numTokens blockConfig.blockSize = 2) (by decide +kernel)
  obtain ⟨m, hm, hlen⟩ :=
    residents_hold_exactly (fun _ => blockConfig) blocksSmall rfl rfl hreach hes hr hreq
  exact ⟨t, es, req, m, hreach, hes, hr, hreq, hcomputed, hm, hlen.trans htwo⟩

/-- After its first block the request is moved, because its executor is to be killed: it
gets four blocks of three tokens for a sequence of five. -/
theorem moved_resident_holds_more : ∃ t : Calls KVCacheManager, ∃ es req m,
    Reachable blocksSmall UniqueIds t ∧
    t.scheduler.executorStates.get? 1 = some es ∧ "a" ∈ es.reqIds ∧
    t.scheduler.requests.get? "a" = some req ∧
    t.scheduler.kvCacheManagers.get? 1 = some m ∧
    KVCacheManager.cdiv req.numTokens blockConfig.blockSize = 2 ∧
    (m.getBlockIds "a").length = 4 := by
  obtain ⟨t, hreach, es, hes, req, hreq, m, hm, hr, htwo, hfour⟩ := exists_of_ensures
    (reachable_of_replay blocksSmall uniqueIds_of_uniqueIds? [(0, [0]), (1, [1])]
      [.addRequest (Request.small "a"), .schedule .still, .startExecution 0,
        .finishExecution 0 ⟨Dict.empty.set "a" 0, [[(1, 7), (2, 8)]]⟩, .announceKill 0,
        .updateFromOutput 0, .schedule .still])
    (Q := fun t =>
      ∃ es ∈ t.scheduler.executorStates.get? 1, ∃ req ∈ t.scheduler.requests.get? "a",
      ∃ m ∈ t.scheduler.kvCacheManagers.get? 1, "a" ∈ es.reqIds ∧
      KVCacheManager.cdiv req.numTokens blockConfig.blockSize = 2 ∧
      (m.getBlockIds "a").length = 4) (by decide +kernel)
  exact ⟨t, es, req, m, hreach, hes, hr, hreq, hm, htwo, hfour⟩

end Calls

end TeDiServe

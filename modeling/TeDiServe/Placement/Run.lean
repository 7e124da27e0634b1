import TeDiServe.Placement.Effect

/-!
# Placement consistency over whole runs

Every call keeps a placement behind the records of the scheduler. The statement of
`placement_consistent` does not mention placements: it says of the records
themselves that they mirror each other, in every state of every run.
-/

namespace TeDiServe

namespace Scheduler

variable {κ : Type} {cfg : Config κ} {s s' : Scheduler κ} {π : Placement} {r : ReqId}
  {e : ExecutorId}

theorem refines_empty (m : ExecutorsManager) :
    Refines (Scheduler.empty m : Scheduler κ) (fun _ => none) := by
  refine ⟨?_, ?_, ?_, ?_, ?_⟩
  · intro e es hes
    cases hes
  · intro r
    exact .none
  · intro r e hr
    cases hr
  · intro r hr
    exact absurd hr (Dict.not_mem_empty r)
  · intro r req hreq
    cases hreq

theorem ledger_empty (cfg : Config κ) (m : ExecutorsManager) :
    Ledger cfg (Scheduler.empty m : Scheduler κ) := by
  refine ⟨?_, ?_, ?_, List.nodup_nil, ?_, ?_, ?_, ?_, ?_, ?_⟩
  · intro r
    simp [Scheduler.empty]
  · intro r hr
    exact absurd hr (Dict.not_mem_empty r)
  · intro r
    simp [Scheduler.empty]
  · intro r rs hrs
    cases hrs
  · intro r hr
    exact absurd hr (OrderedSet.not_mem_empty r)
  · intro e he
    exact absurd he (Dict.not_mem_empty e)
  · intro r rs hrs
    cases hrs
  · intro r rs hrs
    cases hrs
  · intro hne
    exact List.length_pos_of_ne_nil hne

theorem Refines.controlLoad (h : Refines s π) (idx : ReqId → Option ℕ) (minIdx : ℕ) :
    Refines (s.controlLoad idx minIdx) π := by
  refine ⟨h.executors, ?_, h.hosted, ?_, h.ids⟩
  · intro r
    have hloc := h.located r
    simp only [Scheduler.controlLoad, Dict.get?_mapEntries]
    cases hrs : s.requestStates.get? r with
    | none =>
        rw [hrs] at hloc
        exact hloc
    | some rs =>
        obtain ⟨l, hl, hrep⟩ := h.location hrs
        rw [hl, Option.map_some]
        exact .some ⟨hrep.executorId, hrep.pendingExecutorId, hrep.executorsToFree, hrep.status⟩
  · intro r hr
    apply h.known r
    rw [Dict.mem_iff_exists] at hr ⊢
    simp only [Scheduler.controlLoad, Dict.get?_mapEntries] at hr
    obtain ⟨rs, hrs⟩ := hr
    obtain ⟨rs', hrs', -⟩ := Option.map_eq_some_iff.mp hrs
    exact ⟨rs', hrs'⟩

theorem Ledger.controlLoad (h : Ledger cfg s) {idx : ReqId → Option ℕ} {minIdx : ℕ}
    (hidx : ∀ r i, idx r = some i → cfg.IdxOk i) (hmin : cfg.IdxOk minIdx) :
    Ledger cfg (s.controlLoad idx minIdx) := by
  have hmem : ∀ (d : Dict ReqId RequestState) (f : ReqId → RequestState → RequestState) r,
      r ∈ d.mapEntries f ↔ r ∈ d := by
    intro d f r
    rw [Dict.mem_iff_exists, Dict.mem_iff_exists, Dict.get?_mapEntries]
    simp only [Option.map_eq_some_iff]
    constructor
    · rintro ⟨v, w, hw, -⟩
      exact ⟨w, hw⟩
    · rintro ⟨w, hw⟩
      exact ⟨f r w, w, hw, rfl⟩
  have hok : ∀ r (rs : RequestState), cfg.IdxOk rs.maxConfidenceThresholdIdx →
      cfg.IdxOk ((idx r).getD rs.maxConfidenceThresholdIdx) := by
    intro r rs hrs
    cases hi : idx r with
    | none => exact hrs
    | some i => exact hidx r i hi
  refine ⟨?_, ?_, ?_, h.queueNodup, ?_, h.estimates, h.caches, ?_, ?_, hmin⟩
  · intro r
    simp only [Scheduler.controlLoad, hmem]
    exact h.known r
  · intro r
    simp only [Scheduler.controlLoad, hmem]
    exact h.apart r
  · intro r
    simp only [Scheduler.controlLoad, hmem]
    exact h.queue r
  · intro r rs hrs
    simp only [Scheduler.controlLoad, Dict.get?_mapEntries, Option.map_eq_some_iff] at hrs
    obtain ⟨rs', hrs', rfl⟩ := hrs
    have hrep := h.waiting r rs' hrs'
    exact ⟨hrep.executorId, hrep.pendingExecutorId, hrep.executorsToFree, hrep.status⟩
  · intro r rs hrs
    simp only [Scheduler.controlLoad, Dict.get?_mapEntries, Option.map_eq_some_iff] at hrs
    obtain ⟨rs', hrs', rfl⟩ := hrs
    exact hok r rs' (h.indices r rs' hrs')
  · intro r rs hrs
    simp only [Scheduler.controlLoad, Dict.get?_mapEntries, Option.map_eq_some_iff] at hrs
    obtain ⟨rs', hrs', rfl⟩ := hrs
    exact hok r rs' (h.deferredIndices r rs' hrs')

end Scheduler

/-! ## What a placement says about the records -/

namespace Scheduler

variable {κ : Type} {s : Scheduler κ} {π : Placement} {r : ReqId} {e : ExecutorId}

structure RecordsAgree (s : Scheduler κ) : Prop where
  resident : ∀ r e, (∃ es, s.executorStates.get? e = some es ∧ r ∈ es.reqIds) ↔
    ∃ rs, s.requestStates.get? r = some rs ∧ rs.executorId = some e
  pending : ∀ r e, (∃ es, s.executorStates.get? e = some es ∧ r ∈ es.pendingRequestAdditions) ↔
    ∃ rs, s.requestStates.get? r = some rs ∧ rs.executorId = none ∧
      rs.pendingExecutorId = some e
  placed : ∀ r rs e, s.requestStates.get? r = some rs → rs.executorId = some e →
    rs.pendingExecutorId = some e ∧ ∀ e', e' ∈ rs.executorsToFree ↔ e' = e
  unplaced : ∀ r rs, s.requestStates.get? r = some rs → rs.executorId = none →
    ∀ e, e ∉ rs.executorsToFree
  tokenKeys : ∀ e es, s.executorStates.get? e = some es → ∀ r,
    r ∈ es.reqToTokensNeeded ↔ r ∈ es.reqIds ∨ r ∈ es.pendingRequestAdditions
  tokenCounts : ∀ e es, s.executorStates.get? e = some es → ∀ r n,
    es.reqToTokensNeeded.get? r = some n →
      ∃ req, s.requests.get? r = some req ∧ n = req.numTokens

variable (h : Refines s π)
include h

theorem Refines.exists_resident_iff :
    (∃ es, s.executorStates.get? e = some es ∧ r ∈ es.reqIds) ↔ π r = some (.running e) := by
  constructor
  · rintro ⟨es, hes, hr⟩
    exact ((h.executors e es hes).resident r).mp hr
  · intro hr
    obtain ⟨es, hes, hmir⟩ := h.executor (Placement.host?_of_running hr)
    exact ⟨es, hes, (hmir.resident r).mpr hr⟩

theorem Refines.exists_pending_iff :
    (∃ es, s.executorStates.get? e = some es ∧ r ∈ es.pendingRequestAdditions) ↔
      π r = some (.pending e) := by
  constructor
  · rintro ⟨es, hes, hr⟩
    exact ((h.executors e es hes).pending r).mp hr
  · intro hr
    obtain ⟨es, hes, hmir⟩ := h.executor (Placement.host?_of_pending hr)
    exact ⟨es, hes, (hmir.pending r).mpr hr⟩

theorem Refines.exists_location_iff {p : RequestState → Prop} {l : Loc}
    (hp : ∀ rs l', rs.Represents l' → (p rs ↔ l' = l)) :
    (∃ rs, s.requestStates.get? r = some rs ∧ p rs) ↔ π r = some l := by
  constructor
  · rintro ⟨rs, hrs, hprs⟩
    obtain ⟨l', hl', hrep⟩ := h.location hrs
    rw [hl', (hp rs l' hrep).mp hprs]
  · intro hr
    obtain ⟨rs, hrs, hrep⟩ := h.represents hr
    exact ⟨rs, hrs, (hp rs l hrep).mpr rfl⟩

theorem Refines.recordsAgree : s.RecordsAgree := by
  refine ⟨?_, ?_, ?_, ?_, ?_, ?_⟩
  · intro r e
    rw [h.exists_resident_iff, h.exists_location_iff]
    intro rs l hrep
    rw [hrep.executorId]
    cases l <;> simp [Loc.resident?]
  · intro r e
    rw [h.exists_pending_iff, h.exists_location_iff]
    intro rs l hrep
    rw [hrep.executorId, hrep.pendingExecutorId]
    cases l <;> simp [Loc.resident?, Loc.executor?]
  · intro r rs e hrs he
    obtain ⟨l, -, hrep⟩ := h.location hrs
    have hl : l = .running e := by
      rw [hrep.executorId] at he
      cases l <;> simp_all [Loc.resident?]
    rw [hl] at hrep
    refine ⟨hrep.pendingExecutorId, ?_⟩
    intro e'
    rw [hrep.executorsToFree]
    simp [Loc.resident?, eq_comm]
  · intro r rs hrs hnone e he
    obtain ⟨l, -, hrep⟩ := h.location hrs
    rw [hrep.executorsToFree, ← hrep.executorId, hnone] at he
    cases he
  · intro e es hes r
    have hmir := h.executors e es hes
    rw [hmir.resident, hmir.pending, ← Placement.host?_eq_some_iff, Dict.mem_iff_exists,
      hmir.tokens]
    constructor
    · rintro ⟨n, hn⟩
      by_contra hno
      rw [if_neg hno] at hn
      cases hn
    · intro hhost
      rw [if_pos hhost]
      exact Option.ne_none_iff_exists'.mp (h.size_ne_none_of_host hhost)
  · intro e es hes r n hn
    have hmir := h.executors e es hes
    rw [hmir.tokens] at hn
    split_ifs at hn
    obtain ⟨req, hreq, hsize⟩ := Option.map_eq_some_iff.mp hn
    exact ⟨req, hreq, hsize.symm⟩

end Scheduler

/-! ## The invariant -/

namespace Calls

open Scheduler

variable {κ : Type} {cfg : Config κ} {t t' : Calls κ} {c : Call}

structure Consistent (cfg : Config κ) (t : Calls κ) : Prop where
  refines : ∃ π, Refines t.scheduler π
  ledger : Ledger cfg t.scheduler
  keyed : t.scheduler.executorsManager.Keyed

theorem Consistent.withManager (h : Consistent cfg t) {m : ExecutorsManager} (hm : m.Keyed) :
    Consistent cfg (t.withManager m) := by
  obtain ⟨π, hπ⟩ := h.refines
  exact ⟨⟨π, hπ.of_manager m⟩, h.ledger.of_manager m, hm⟩

theorem keyed_of_launches {launches : List (ExecutorId × List ℕ)} {m : ExecutorsManager}
    (h : launches.foldlM (fun m x => m.launchExecutor x.1 x.2) ExecutorsManager.empty = .ok m) :
    m.Keyed := by
  have hloop := ensures_foldlM (E := fun _ => True) (I := ExecutorsManager.Keyed)
    (f := fun (m : ExecutorsManager) (x : ExecutorId × List ℕ) => m.launchExecutor x.1 x.2)
    launches (fun m x _ hk => (ExecutorsManager.ensures_launchExecutor hk).imp fun _ h => h.1)
    ExecutorsManager.empty ExecutorsManager.keyed_empty
  exact ensures_of_ok hloop h

theorem built_of_init (h : Init cfg t) : ∃ m, m.Keyed ∧
    Refines t.scheduler (Placement.evict (fun _ => none) (isGone m)) ∧
    Ledger cfg t.scheduler ∧ Synced t.scheduler ∧
    Reshaped (Scheduler.empty m) t.scheduler ∧ t.inFlight = Dict.empty := by
  obtain ⟨launches, m, s, hm, hs, rfl⟩ := h
  have hkey := keyed_of_launches hm
  obtain ⟨h, hl, hsync, hre, -⟩ := ensures_of_ok
    (ensures_updateExecutors (refines_empty m) (ledger_empty cfg m) hkey) hs
  exact ⟨m, hkey, h, hl, hsync, hre, rfl⟩

theorem consistent_of_init (h : Init cfg t) : Consistent cfg t := by
  obtain ⟨m, hkey, hπ, hl, -, hre, -⟩ := built_of_init h
  refine ⟨⟨_, hπ⟩, hl, ?_⟩
  rw [hre.executorsManager]
  exact hkey

theorem Effect.consistent {π π' : Placement} (h : Consistent cfg t) (hπ : Refines t.scheduler π)
    (he : Effect cfg t π c t' π') : Consistent cfg t' ∧ Refines t'.scheduler π' := by
  cases he with
  | addRequest refines ledger extends_ enrolled requests dropped deferred =>
      refine ⟨⟨⟨_, refines⟩, ledger, ?_⟩, refines⟩
      dsimp only
      rw [enrolled.executorsManager]
      exact h.keyed
  | schedule readied returned course loop =>
      have hπ' := returned.issued.framed.refines readied.refines
      exact ⟨⟨⟨_, hπ'⟩, readied.ledger.of_kept returned.issued.framed.kept, returned.keyed⟩, hπ'⟩
  | manager management keyed => exact ⟨h.withManager keyed, hπ.of_manager _⟩
  | finishExecution flight keyed =>
      exact ⟨⟨⟨π, hπ.of_manager _⟩, h.ledger.of_manager _, keyed⟩, hπ.of_manager _⟩
  | updateFromOutput flight apply_eq visited applied progressed keyed =>
      exact ⟨⟨⟨_, applied.refines.of_manager _⟩, applied.ledger.of_manager _, keyed⟩,
        applied.refines.of_manager _⟩
  | finishRequests finish_eq finished abortable aborted =>
      refine ⟨⟨⟨_, aborted.refines⟩, aborted.ledger, ?_⟩, aborted.refines⟩
      dsimp only
      rw [aborted.manager]
      exact h.keyed
  | refreshEstimates soft =>
      have hπ' := soft.framed.refines hπ
      refine ⟨⟨⟨_, hπ'⟩, h.ledger.of_kept soft.framed.kept, ?_⟩, hπ'⟩
      dsimp only
      rw [soft.executorsManager]
      exact h.keyed
  | controlLoad inRange minInRange =>
      exact ⟨⟨⟨π, hπ.controlLoad _ _⟩, h.ledger.controlLoad (fun r i hi _ => inRange r i hi)
        (fun _ => minInRange), h.keyed⟩, hπ.controlLoad _ _⟩

theorem Consistent.effect {allowed : Calls κ → Call → Prop} (h : Consistent cfg t)
    (hstep : Step cfg allowed t c t') :
    ∃ π π', Refines t.scheduler π ∧ Effect cfg t π c t' π' := by
  obtain ⟨π, hπ⟩ := h.refines
  obtain ⟨π', he⟩ := ensures_of_ok (ensures_effect hπ h.ledger h.keyed hstep.1) hstep.2.2
  exact ⟨π, π', hπ, he⟩

theorem Reachable.consistent {allowed : Calls κ → Call → Prop} (h : Reachable cfg allowed t) :
    Consistent cfg t := by
  apply h.invariant
  · exact fun t ht => consistent_of_init ht
  · intro t c t' _ ht hstep
    obtain ⟨π, π', hπ, he⟩ := ht.effect hstep
    exact (he.consistent ht hπ).1

/-- Where the requests come from: they were known before with the same progress, or this is
the call that adds them, or they have made a step. -/
theorem Effect.request_cases {π π' : Placement} {r : ReqId} {req : Request}
    (he : Effect cfg t π c t' π') (hreq : t'.scheduler.requests.get? r = some req) :
    (∃ req₀, t.scheduler.requests.get? r = some req₀ ∧ req.progress = req₀.progress) ∨
    (c = .addRequest req ∧ req.requestId = r) ∨
    ∃ e msg res req₀ tokenIds y, c = .updateFromOutput e ∧
      t.inFlight.get? e = some ⟨msg, some res⟩ ∧ r ∈ msg.numScheduledTokens ∧
      t.scheduler.requests.get? r = some req₀ ∧ res.tokensOf r = some tokenIds ∧
      ({ req₀ with isInExecution := false } : Request).afterStep tokenIds = .ok y ∧
      y.2 = false ∧ req = y.1 ∧ req₀.Goes req := by
  cases he with
  | addRequest refines ledger extends_ enrolled requests dropped deferred =>
      dsimp only at hreq
      rw [requests, Dict.get?_set] at hreq
      split_ifs at hreq with hr
      · cases hreq
        exact Or.inr (Or.inl ⟨rfl, hr.symm⟩)
      · exact Or.inl ⟨req, hreq, rfl⟩
  | schedule readied returned course loop => exact Or.inl (returned.exists_request readied hreq)
  | manager management keyed => exact Or.inl ⟨req, hreq, rfl⟩
  | finishExecution flight keyed => exact Or.inl ⟨req, hreq, rfl⟩
  | @updateFromOutput e msg res s outs m done π' flight apply_eq visited applied progressed keyed =>
      dsimp only at hreq
      by_cases hr : r ∈ msg.numScheduledTokens.keys.reverse
      · obtain ⟨req₀, hreq₀, hgoes, -⟩ := applied.requests r req hreq
        obtain ⟨tokenIds, y, htok, hy, hs⟩ := progressed.stepped r hr req₀ hreq₀
        rw [hs] at hreq
        split_ifs at hreq with hstop
        exact Or.inr (Or.inr ⟨e, msg, res, req₀, tokenIds, y, rfl, flight, List.mem_reverse.mp hr,
          hreq₀, htok, hy, Bool.eq_false_iff.mpr hstop, (Option.some.inj hreq).symm, hgoes⟩)
      · rw [progressed.others r (Or.inl hr)] at hreq
        exact Or.inl ⟨req, hreq, rfl⟩
  | finishRequests finish_eq finished abortable aborted =>
      exact Or.inl ⟨req, aborted.requests r req hreq, rfl⟩
  | refreshEstimates soft => exact Or.inl (Dict.exists_of_map_eq (soft.framed.requests r) hreq)
  | controlLoad inRange minInRange => exact Or.inl ⟨req, hreq, rfl⟩

theorem Effect.origin {π π' : Placement} {r : ReqId} {req : Request}
    (he : Effect cfg t π c t' π') (hreq : t'.scheduler.requests.get? r = some req) :
    (∃ req₀, t.scheduler.requests.get? r = some req₀ ∧ req₀.Goes req) ∨
      c = .addRequest req ∧ req.requestId = r := by
  rcases he.request_cases hreq with ⟨req₀, hreq₀, hp⟩ | hadd |
    ⟨e, msg, res, req₀, tokenIds, y, -, -, -, hreq₀, -, -, -, -, hgoes⟩
  · exact Or.inl ⟨req₀, hreq₀, Or.inl hp⟩
  · exact Or.inr hadd
  · exact Or.inl ⟨req₀, hreq₀, hgoes⟩

/-- What holds of the requests that are added, and is kept by the steps of a request, holds
of all requests. -/
theorem Reachable.forall_requests {P : Request → Prop} {allowed : Calls κ → Call → Prop}
    (hgoes : ∀ req req', P req → req.Goes req' → P req')
    (hadd : ∀ t req, allowed t (.addRequest req) → P req) (h : Reachable cfg allowed t) :
    ∀ r req, t.scheduler.requests.get? r = some req → P req := by
  apply h.invariant
  · intro t ht r req hreq
    obtain ⟨m, -, -, -, -, hre, -⟩ := built_of_init ht
    rw [hre.requests] at hreq
    cases hreq
  · intro t c t' hr ht hstep
    obtain ⟨π, π', -, he⟩ := (Reachable.consistent hr).effect hstep
    intro r req hreq
    rcases he.origin hreq with ⟨req₀, hreq₀, hg⟩ | ⟨rfl, -⟩
    · exact hgoes req₀ req (ht r req₀ hreq₀) hg
    · exact hadd t req hstep.2.1

/-! ## Without deferral -/

def Quiet (t : Calls κ) : Prop :=
  t.scheduler.deferredRequests = [] ∧ t.scheduler.droppedDeferredRequests = []

theorem Quiet.of_effect (hdefer : cfg.maxNumUnfinishedRequests = none) {π π' : Placement}
    (hq : Quiet t) (he : Effect cfg t π c t' π') : Quiet t' := by
  cases he with
  | addRequest refines ledger extends_ enrolled requests dropped deferred =>
      exact ⟨(deferred hdefer).trans hq.1, dropped.trans hq.2⟩
  | schedule readied returned course loop =>
      have hf := returned.issued.framed
      exact ⟨hf.deferredRequests.trans (readied.quiet hq.1).1,
        hf.droppedDeferredRequests.trans ((readied.quiet hq.1).2.trans hq.2)⟩
  | manager management keyed => exact hq
  | finishExecution flight keyed => exact hq
  | updateFromOutput flight apply_eq visited applied progressed keyed =>
      exact ⟨applied.deferredRequests.trans hq.1, applied.droppedDeferredRequests⟩
  | finishRequests finish_eq finished abortable aborted =>
      exact ⟨(aborted.quiet hq.1).1, (aborted.quiet hq.1).2.trans hq.2⟩
  | refreshEstimates soft =>
      exact ⟨soft.framed.deferredRequests.trans hq.1,
        soft.framed.droppedDeferredRequests.trans hq.2⟩
  | controlLoad inRange minInRange => exact hq

theorem Reachable.quiet {allowed : Calls κ → Call → Prop}
    (hdefer : cfg.maxNumUnfinishedRequests = none) (h : Reachable cfg allowed t) : Quiet t := by
  apply h.invariant
  · intro t ht
    obtain ⟨m, -, -, -, -, ⟨es, rs, caches, free, d, tput, hs, -⟩, -⟩ := built_of_init ht
    unfold Quiet
    rw [hs]
    exact ⟨rfl, rfl⟩
  · intro t c t' hr ht hstep
    obtain ⟨π, π', -, he⟩ := (Reachable.consistent hr).effect hstep
    exact ht.of_effect hdefer he

theorem Quiet.mem_requests_iff (hq : Quiet t) (h : Consistent cfg t) (r : ReqId) :
    r ∈ t.scheduler.requests ↔ r ∈ t.scheduler.requestStates := by
  rw [h.ledger.known, h.ledger.queue, hq.1]
  simp

/-! ## The result -/

/-- Without deferral and with blocks always available, in every state of every run:
the records mirror each other; every known request has a record; no request is on
two executors, running or pending; and `schedule()` fails on no assertion and on no
missing record, and loses no request, whatever has moved or was killed. -/
theorem placement_consistent (cfg : Config κ) (hdefer : cfg.maxNumUnfinishedRequests = none)
    (halloc : Allocates cfg) (h : Reachable cfg UniqueIds t) :
    t.scheduler.RecordsAgree ∧
    (∀ r, r ∈ t.scheduler.requests ↔ r ∈ t.scheduler.requestStates) ∧
    (∀ r e e' es es', t.scheduler.executorStates.get? e = some es →
      t.scheduler.executorStates.get? e' = some es' →
      r ∈ es.reqToTokensNeeded → r ∈ es'.reqToTokensNeeded → e = e') ∧
    (∀ env err, t.scheduler.schedule cfg env = .error err → err.isPlacement = false) ∧
    ∀ env s' outs, t.scheduler.schedule cfg env = .ok (s', outs) →
      ∀ r, r ∈ s'.requests ↔ r ∈ t.scheduler.requests := by
  have hcon := Reachable.consistent h
  have hq := Reachable.quiet hdefer h
  obtain ⟨π, hπ⟩ := hcon.refines
  have hsched := fun env => ensures_schedule env hπ hcon.ledger hcon.keyed
  refine ⟨hπ.recordsAgree, hq.mem_requests_iff hcon, ?_, ?_, ?_⟩
  · intro r e e' es es' hes hes' hr hr'
    have hhost : ∀ e es, t.scheduler.executorStates.get? e = some es →
        r ∈ es.reqToTokensNeeded → π.host? r = some e := by
      intro e es hes hr
      have hmir := hπ.executors e es hes
      rw [hπ.recordsAgree.tokenKeys e es hes, hmir.resident, hmir.pending,
        ← Placement.host?_eq_some_iff] at hr
      exact hr
    have heq := (hhost e es hes hr).symm.trans (hhost e' es' hes' hr')
    exact Option.some.inj heq
  · intro env err herr
    exact (ensures_of_error (hsched env) herr).1 halloc
  · intro env s' outs hok r
    obtain ⟨p, π₁, π₂, outs', hr, hret, -⟩ := ensures_of_ok (hsched env) hok
    rw [hret.issued.framed.mem_requests]
    constructor
    · exact hr.mem_requests
    · intro hmem
      rcases hr.requests r with hp | ⟨hd, -⟩
      · exact (Dict.mem_iff_of_map_eq hp).mpr hmem
      · rw [hcon.ledger.queue, hq.1] at hd
        cases hd

/-- A run in which an executor is killed after a step of its request: the request is
still known, and unscheduled again. -/
theorem placement_consistent_small : ∃ t : Calls Unit,
    Reachable (Config.small true true none) UniqueIds t ∧ t.scheduler.RecordsAgree ∧
    t.scheduler.requests.keys = ["a", "b"] ∧
    (t.scheduler.requestStates.get? "a").map RequestState.status = some .unscheduled ∧
    (t.scheduler.requestStates.get? "b").bind RequestState.executorId = some 1 := by
  obtain ⟨t, hreach, hstate⟩ := exists_of_ensures
    (reachable_of_replay (Config.small true true none) uniqueIds_of_uniqueIds? [(0, [0]), (1, [1])]
      [.addRequest (Request.small "a"), .addRequest (Request.small "b"), .schedule .still,
        .startExecution 0, .finishExecution 0 ⟨Dict.empty.set "a" 0, [[(1, 7)]]⟩,
        .updateFromOutput 0, .setKilling 0, .schedule .still])
    (Q := fun t =>
      t.scheduler.requests.keys = ["a", "b"] ∧
      (t.scheduler.requestStates.get? "a").map RequestState.status = some .unscheduled ∧
      (t.scheduler.requestStates.get? "b").bind RequestState.executorId = some 1)
    (by decide +kernel)
  have hall := placement_consistent (Config.small true true none) rfl (fun _ _ _ => rfl) hreach
  exact ⟨t, hreach, hall.1, hstate⟩

end Calls

end TeDiServe

import TeDiServe.Cache.Exact

/-!
# The order of the visits of stage 5

Stage 5 visits the noted requests in the order in which a Python set is traversed. A visit
frees the blocks of a request where it leaves before it allocates new ones where it comes,
but the visits of different requests are not sorted: a request may come to an executor
before those that leave it have been visited. So every order succeeds exactly when what
comes to an executor fits before anything is freed there, and it is not enough that it fits
afterwards.

The messages depend on the order only in the order of their entries.
-/

namespace TeDiServe

def ScheduleEnv.reorder (env : ScheduleEnv) (order : List ReqId → List ReqId)
    (h : ∀ l, (order l).Perm l) : ScheduleEnv :=
  { env with setOrder := order, setOrder_perm := h }

namespace Scheduler

open Round

variable {κ : Type} {cfg : Config κ} {env : ScheduleEnv} {s s₀ s₁ : Scheduler κ}
  {π π₀ π₁ π₂ : Placement} {q : Round κ} {r : ReqId} {e : ExecutorId} {a : Account κ}
  {share : ReqId → ExecutorId → ℕ}

def foundIdle (s : Scheduler κ) : List ExecutorId :=
  s.executorsWithStatus .idle ++ s.executorsWithStatus .idleNotAcceptingNewRequests

def oldExecutors (s : Scheduler κ) : Dict ReqId (Option ExecutorId) :=
  s.requestStates.mapValues RequestState.executorId

/-- A call comes to stage 5 with the round `q`, which began in the state `s₁`. -/
structure AtStage5 (cfg : Config κ) (env : ScheduleEnv) (s s₁ : Scheduler κ) (q : Round κ) :
    Prop where
  looked : s.lookAround cfg env = .ok s₁
  idle : s₁.foundIdle ≠ []
  round : planRound cfg (s₁.executorsWithStatus .idle)
    (s₁.executorsWithStatus .idleNotAcceptingNewRequests)
    (s₁.drainStepEstimateUpdates cfg env.predict).considerIdle = .ok q

def visitAll (cfg : Config κ) (env : ScheduleEnv) (s₁ : Scheduler κ) (q : Round κ)
    (order : List ReqId → List ReqId) (h : ∀ l, (order l).Perm l) :
    Except PyError (Scheduler κ × Tables) :=
  stage5 cfg (env.reorder order h) s₁.foundIdle s₁.oldExecutors q

def arrivals (s₁ : Scheduler κ) (q : Round κ) (e : ExecutorId) : List ReqId :=
  q.requestsInSchedulerOutput.items.filter fun r =>
    s₁.executorOf r ≠ some e ∧ q.scheduler.executorOf r = some e

def departures (s₁ : Scheduler κ) (q : Round κ) (e : ExecutorId) : List ReqId :=
  q.requestsInSchedulerOutput.items.filter fun r =>
    s₁.executorOf r = some e ∧ q.scheduler.executorOf r ≠ some e

def demand (a : Account κ) (s₁ : Scheduler κ) (q : Round κ) (e : ExecutorId) : ℕ :=
  ((arrivals s₁ q e).map fun r => needOf a q.scheduler.requests r e).sum

/-- What comes to the executor is something, and fits before anything is freed. -/
def FitsBefore (a : Account κ) (s₁ : Scheduler κ) (q : Round κ) (e : ExecutorId) : Prop :=
  (∀ r ∈ arrivals s₁ q e, ∀ req, q.scheduler.requests.get? r = some req → 0 < req.numTokens) ∧
    ∀ m, q.scheduler.kvCacheManagers.get? e = some m → demand a s₁ q e ≤ a.spare m

/-! ## What is known before stage 5 -/

structure Before (cfg : Config κ) (a : Account κ) (s₁ : Scheduler κ) (π₁ : Placement)
    (q : Round κ) (π₂ : Placement) (share : ReqId → ExecutorId → ℕ) : Prop where
  start : ∃ s', Starts s₁ s' ∧ Refines s' π₁ ∧ InRound cfg s₁.foundIdle s' π₁ q π₂ ∧
    (∀ e ∈ s'.executorStates, e ∈ s'.kvCacheManagers) ∧
    ∀ r ∈ s'.requestStates, (s₁.oldExecutors.get? r).join = π₁.resident? r
  refines : Refines s₁ π₁
  owned : Owned a q.scheduler share fun r e => π₁ r = some (.running e)

theorem AtStage5.before (ha : cfg.kv.Accounts a)
    (h : AtStage5 cfg env s s₁ q) (hs : Refines s π) (hl : Ledger cfg s)
    (hkey : s.executorsManager.Keyed)
    (hown : Owned a s share fun r e => π r = some (.running e))
    (hzero : ∀ r e, π r ≠ some (.running e) → share r e = 0) :
    ∃ s₀ π₀ π₁ π₂, Looked cfg env s π s₀ π₀ s₁ π₁ ∧ Before cfg a s₁ π₁ q π₂ share := by
  obtain ⟨s₀, π₀, π₁, hlook⟩ := ensures_of_ok (ensures_lookAround env hs hl hkey) h.looked
  have hstarts := starts_considerIdle cfg env.predict s₁
  obtain ⟨hfound, hdisj, hnodup⟩ := idle_of_synced hlook.synced
  have hround := h.round
  generalize (s₁.drainStepEstimateUpdates cfg env.predict).considerIdle = s' at hstarts hround
  have h' : Refines s' π₁ := hstarts.framed.refines hlook.refines
  obtain ⟨π₂, hq⟩ := ensures_of_ok (ensures_planRound h'
    (fun e he => by rw [hstarts.framed.executorStates]; exact hfound e he) hdisj hnodup
    fun e => hstarts.mem_executors hlook.synced) hround
  refine ⟨s₀, π₀, π₁, π₂, hlook, ⟨s', hstarts, h', hq.inRound,
    (hlook.ledger.of_kept hstarts.framed.kept).caches, ?_⟩, hlook.refines, ?_⟩
  · intro r hr
    exact hlook.refines.old_executor (hstarts.framed.mem_requestStates.mp hr)
  · have hown' := (hlook.owned ha hs hkey hown hzero).starts hstarts
    obtain ⟨es, rs, heq, -⟩ := id hq.inRound.moved
    exact hown'.of_eq (by rw [heq])
      (fun e he => hq.inRound.moved.mem_executorStates.mp he) fun _ _ _ _ => ⟨rfl, Iff.rfl⟩

namespace Before

variable (h : Before cfg a s₁ π₁ q π₂ share)
include h

theorem mem_arrivals : r ∈ arrivals s₁ q e ↔ r ∈ q.requestsInSchedulerOutput ∧
    π₁ r ≠ some (.running e) ∧ π₂ r = some (.running e) := by
  obtain ⟨s', -, -, hin, -⟩ := h.start
  rw [arrivals, List.mem_filter, decide_eq_true_eq, Ne, h.refines.executorOf_eq_some_iff,
    hin.refines.executorOf_eq_some_iff]
  rfl

theorem named : Named q.scheduler.requests := by
  obtain ⟨s', -, -, hin, -⟩ := h.start
  exact hin.refines.ids

/-- The rule for stage 5: a visit changes the managers as `Visit` says, and raises an
assertion only when it finds too few blocks. -/
theorem ensures_visitAll (env : ScheduleEnv) (hc : cfg.caching = true) (ha : cfg.kv.Accounts a)
    {order : List ReqId → List ReqId} (hperm : ∀ l, (order l).Perm l) {E : PyError → Prop}
    {J : List ReqId → Scheduler κ → Prop}
    (hstart : ∀ s, s.kvCacheManagers = q.scheduler.kvCacheManagers → J [] s)
    (hvisit : ∀ done rest s r, r ∉ done → r ∈ q.requestsInSchedulerOutput →
      order q.requestsInSchedulerOutput.items = done.reverse ++ r :: rest →
      Framed q.scheduler s →
      Owned a s (inStage5 a q.scheduler.requests π₁ π₂ share done) (hostInStage5 π₁ π₂ done) →
      J done s →
      (∀ e, π₁ r ≠ some (.running e) → π₂ r = some (.running e) →
        Starved cfg q.scheduler.requests s r e → E .assertion) ∧
      ∀ s', (∀ e m', s'.kvCacheManagers.get? e = some m' → ∃ m,
        s.kvCacheManagers.get? e = some m ∧
          Visit cfg q.scheduler.requests π₁ π₂ r e m m') → J (r :: done) s') :
    (visitAll cfg env s₁ q order hperm).Ensures (fun err => err = .assertion ∧ E err) fun x =>
      ∃ done, (∀ r, r ∈ done ↔ r ∈ q.requestsInSchedulerOutput) ∧ Framed q.scheduler x.1 ∧
        J done x.1 := by
  obtain ⟨s', -, hs', hin, hcaches, hold⟩ := h.start
  unfold visitAll
  apply (ensures_stage5_with (env.reorder order hperm)
    (E := fun err => err = .assertion → E .assertion) (J := fun done s =>
      SameAmounts q.scheduler.requests s ∧
      Owned a s (inStage5 a q.scheduler.requests π₁ π₂ share done) (hostInStage5 π₁ π₂ done) ∧
      J done s) hin hs' hcaches hold ?_ ?_).mono
  · rintro err ⟨⟨rfl, -⟩, hE⟩
    exact ⟨rfl, hE rfl⟩
  · rintro x ⟨done, hdone, hw, -, -, hj⟩
    exact ⟨done, hdone, hw.framed, hj⟩
  · refine ⟨fun r => rfl, ?_, hstart _ rfl⟩
    refine h.owned.of_eq rfl (fun _ he => he) fun r e _ _ => ?_
    rw [inStage5, if_neg List.not_mem_nil, hostInStage5, if_neg List.not_mem_nil]
    exact ⟨rfl, Iff.rfl⟩
  · rintro done rest s t r hframed hnot hmem horder ⟨hsame, hown, hj⟩
    obtain ⟨hknown, hfound⟩ := hin.noted r hmem
    obtain ⟨l, hl⟩ :=
      hin.refines.mem_requestStates_iff.mp (hin.moved.mem_requestStates.mpr hknown)
    obtain ⟨hstarved, hnext⟩ := hvisit done rest s r hnot hmem horder hframed hown hj
    apply (ensures_finalize_visit hc (hframed.refines hin.refines) hl (hold r hknown) hfound
      hsame).mono
    · intro err hassert herr
      obtain ⟨e, h₁, h₂, hst⟩ := hassert herr
      exact hstarved e h₁ h₂ hst
    · rintro x ⟨hsame', hes, hvis⟩
      exact ⟨hsame', hown.visit_done ha h.named hes hvis hnot, hnext x.1 hvis⟩

theorem exists_manager (hr : π₂ r = some (.running e)) :
    e ∈ q.scheduler.executorStates ∧ ∃ m, q.scheduler.kvCacheManagers.get? e = some m := by
  obtain ⟨s', -, -, hin, hcaches, -⟩ := h.start
  have he := hin.refines.hosted r e (Placement.host?_of_running hr)
  refine ⟨he, (Dict.mem_iff_exists _ _).mp ?_⟩
  rw [hin.moved.kept.caches]
  exact hcaches e (hin.moved.mem_executorStates.mp he)

omit h in
theorem nodup_arrivals : (arrivals s₁ q e).Nodup :=
  q.requestsInSchedulerOutput.nodup.filter _

omit h in
theorem allocates_iff (ha : cfg.kv.Accounts a) {done : List ReqId} {m : κ} {req : Request}
    (hnamed : Named q.scheduler.requests) (hnot : r ∉ done)
    (hown : Owned a s (inStage5 a q.scheduler.requests π₁ π₂ share done)
      (hostInStage5 π₁ π₂ done))
    (he : e ∈ s.executorStates) (hm : s.kvCacheManagers.get? e = some m)
    (hold : π₁ r ≠ some (.running e))
    (hreq : (q.scheduler.requests.get? r).map Request.amount = some req.amount) :
    a.sound e m ∧ a.blocks m req.requestId = 0 ∧
      ((cfg.kv.allocateSlots m req req.numTokens).isSome ↔
        0 < req.numTokens ∧ needOf a q.scheduler.requests r e ≤ a.spare m) := by
  obtain ⟨hsound, hblocks⟩ := hown e m he hm
  obtain ⟨hself, hhost⟩ := hblocks r
  rw [hostInStage5, if_neg hnot] at hhost
  have hzero : a.blocks m req.requestId = 0 := by
    rw [hnamed.requestId hreq, hself]
    exact not_not.mp fun hc => hold (hhost.mp hc)
  refine ⟨hsound, hzero, ?_⟩
  rw [needOf_eq hreq]
  exact ha.allocates hsound hzero

/-! ## Every order succeeds when everything fits before -/

omit h in
theorem sum_arrivals_sdiff (done : List ReqId) (hr : r ∈ arrivals s₁ q e) (hnot : r ∉ done) :
    needOf a q.scheduler.requests r e +
      ∑ r' ∈ (arrivals s₁ q e).toFinset \ (r :: done).toFinset,
        needOf a q.scheduler.requests r' e =
    ∑ r' ∈ (arrivals s₁ q e).toFinset \ done.toFinset, needOf a q.scheduler.requests r' e := by
  have hset : (arrivals s₁ q e).toFinset \ (r :: done).toFinset =
      ((arrivals s₁ q e).toFinset \ done.toFinset).erase r := by
    ext r'
    simp only [List.toFinset_cons, Finset.mem_sdiff, Finset.mem_insert, Finset.mem_erase,
      List.mem_toFinset]
    tauto
  rw [hset]
  exact Finset.add_sum_erase _ (fun r' => needOf a q.scheduler.requests r' e)
    (Finset.mem_sdiff.mpr
      ⟨List.mem_toFinset.mpr hr, fun hc => hnot (List.mem_toFinset.mp hc)⟩)

theorem ensures_visitAll_of_fits (env : ScheduleEnv) (hc : cfg.caching = true)
    (ha : cfg.kv.Accounts a) (hfits : ∀ e, FitsBefore a s₁ q e) {order : List ReqId → List ReqId}
    (hperm : ∀ l, (order l).Perm l) :
    (visitAll cfg env s₁ q order hperm).Ensures (fun _ => False) fun x =>
      Framed q.scheduler x.1 := by
  apply (h.ensures_visitAll env hc ha hperm (E := fun _ => False) (J := fun done s => ∀ e m,
    s.kvCacheManagers.get? e = some m →
      ∑ r ∈ (arrivals s₁ q e).toFinset \ done.toFinset, needOf a q.scheduler.requests r e ≤
        a.spare m) ?_ ?_).mono (fun _ hf => hf.2)
  · rintro x ⟨done, -, hframed, -⟩
    exact hframed
  · intro s hkv e m hm
    rw [hkv] at hm
    have hle := (hfits e).2 m hm
    rw [demand, ← List.sum_toFinset _ nodup_arrivals] at hle
    simpa using hle
  · intro done rest s r hnot hmem _ hframed hown hj
    refine ⟨?_, ?_⟩
    · rintro e hold hnew ⟨m, req, hm, hreq, hnone⟩
      have hr : r ∈ arrivals s₁ q e := h.mem_arrivals.mpr ⟨hmem, hold, hnew⟩
      have he : e ∈ s.executorStates := by
        rw [hframed.executorStates]
        exact (h.exists_manager hnew).1
      obtain ⟨-, -, hiff⟩ := allocates_iff ha h.named hnot hown he hm hold hreq
      have hpos : 0 < req.numTokens := by
        obtain ⟨req₀, hreq₀, heq⟩ := Option.map_eq_some_iff.mp hreq
        have hsize := (hfits e).1 r hr req₀ hreq₀
        simp only [Request.amount, Prod.mk.injEq] at heq
        rwa [heq.2.2] at hsize
      have hle := hj e m hm
      rw [← sum_arrivals_sdiff done hr hnot] at hle
      have hsome := hiff.mpr ⟨hpos, by omega⟩
      rw [hnone] at hsome
      cases hsome
    · intro s' hvis e m' hm'
      obtain ⟨m, hm, hv⟩ := hvis e m' hm'
      have hle := hj e m hm
      have hfewer : ∑ r' ∈ (arrivals s₁ q e).toFinset \ (r :: done).toFinset,
          needOf a q.scheduler.requests r' e ≤ a.spare m := by
        refine (Finset.sum_le_sum_of_subset ?_).trans hle
        exact Finset.sdiff_subset_sdiff (Finset.Subset.refl _) (by simp)
      cases hv with
      | stays same => exact hfewer
      | leaves old new =>
          have he : e ∈ s.executorStates := by
            rw [hframed.executorStates]
            obtain ⟨s', -, h', hin, -⟩ := h.start
            exact hin.moved.mem_executorStates.mpr
              (h'.hosted r e (Placement.host?_of_running old))
          rw [(ha.free r (hown e m he hm).1).2.2]
          omega
      | arrives old new amount allocated =>
          have hr : r ∈ arrivals s₁ q e := h.mem_arrivals.mpr ⟨hmem, old, new⟩
          have he : e ∈ s.executorStates := by
            rw [hframed.executorStates]
            exact (h.exists_manager new).1
          obtain ⟨hsound, hzero, -⟩ := allocates_iff ha h.named hnot hown he hm old amount
          have hspare := (ha.allocate hsound hzero allocated).2.2
          rw [← needOf_eq amount] at hspare
          rw [← sum_arrivals_sdiff done hr hnot] at hle
          omega

/-! ## An order that fails otherwise -/

omit h in
theorem arrivalsFirst_perm (s₁ : Scheduler κ) (q : Round κ) (e : ExecutorId) (l : List ReqId) :
    (l.filter (fun r => r ∈ arrivals s₁ q e) ++
      l.filter (fun r => !decide (r ∈ arrivals s₁ q e))).Perm l :=
  List.filter_append_perm (fun r => decide (r ∈ arrivals s₁ q e)) l

omit h in
theorem arrivals_visited {items done rest : List ReqId} {p : ReqId → Bool}
    (horder : items.filter p ++ items.filter (fun r => !p r) = done.reverse ++ r :: rest)
    (hr : p r = false) {r' : ReqId} (hr' : r' ∈ items) (hp : p r' = true) : r' ∈ done := by
  have hmem : r' ∈ items.filter p := List.mem_filter.mpr ⟨hr', hp⟩
  rcases List.append_eq_append_iff.mp horder with ⟨front, hdone, -⟩ | ⟨front, hfirst, hback⟩
  · rw [← List.mem_reverse, hdone]
    exact List.mem_append_left _ hmem
  · cases front with
    | nil =>
        rw [List.append_nil] at hfirst
        rwa [hfirst, List.mem_reverse] at hmem
    | cons x front =>
        -- the request would be one of those that come first
        rw [List.cons_append, List.cons.injEq] at hback
        have hx : r ∈ items.filter p := by
          rw [hfirst, hback.1]
          simp
        rw [(List.mem_filter.mp hx).2] at hr
        cases hr

/-- While only requests that come to the executor have been visited, its manager has
given out exactly what they asked for. -/
structure Filling (a : Account κ) (s₁ : Scheduler κ) (q : Round κ) (e : ExecutorId) (m₀ : κ)
    (done : List ReqId) (s : Scheduler κ) : Prop where
  nodup : done.Nodup
  sub : ∀ r ∈ done, r ∈ arrivals s₁ q e
  given : ∀ m, s.kvCacheManagers.get? e = some m →
    (∀ r ∈ done, ∀ req, q.scheduler.requests.get? r = some req → 0 < req.numTokens) ∧
    a.spare m + (done.map fun r => needOf a q.scheduler.requests r e).sum = a.spare m₀

omit h in
theorem Filling.fitsBefore {m₀ : κ} {done : List ReqId} (hf : Filling a s₁ q e m₀ done s)
    (hm₀ : q.scheduler.kvCacheManagers.get? e = some m₀) (hframed : Framed q.scheduler s)
    (hall : ∀ r ∈ arrivals s₁ q e, r ∈ done) : FitsBefore a s₁ q e := by
  obtain ⟨m, hm⟩ := (Dict.mem_iff_exists _ _).mp
    ((hframed.caches e).mpr (Dict.mem_of_get? hm₀))
  obtain ⟨hpos, hspare⟩ := hf.given m hm
  refine ⟨fun r hr => hpos r (hall r hr), fun m' hm' => ?_⟩
  rw [hm₀, Option.some.injEq] at hm'
  rw [← hm']
  have hperm : done.Perm (arrivals s₁ q e) :=
    (List.perm_ext_iff_of_nodup hf.nodup (q.requestsInSchedulerOutput.nodup.filter _)).mpr
      fun r => ⟨hf.sub r, hall r⟩
  rw [demand, ← (hperm.map _).sum_eq, ← hspare]
  exact Nat.le_add_left _ _

theorem filling_visit (ha : cfg.kv.Accounts a) {m₀ : κ} {done : List ReqId}
    {s s' : Scheduler κ} (hf : Filling a s₁ q e m₀ done s) (hnot : r ∉ done)
    (hr : r ∈ arrivals s₁ q e) (hframed : Framed q.scheduler s)
    (hown : Owned a s (inStage5 a q.scheduler.requests π₁ π₂ share done)
      (hostInStage5 π₁ π₂ done))
    (hvis : ∀ e m', s'.kvCacheManagers.get? e = some m' → ∃ m,
      s.kvCacheManagers.get? e = some m ∧ Visit cfg q.scheduler.requests π₁ π₂ r e m m') :
    Filling a s₁ q e m₀ (r :: done) s' := by
  obtain ⟨hmem, hold, hnew⟩ := h.mem_arrivals.mp hr
  refine ⟨List.nodup_cons.mpr ⟨hnot, hf.nodup⟩, ?_, fun m' hm' => ?_⟩
  · exact List.forall_mem_cons.mpr ⟨hr, hf.sub⟩
  · obtain ⟨m, hm, hv⟩ := hvis e m' hm'
    obtain ⟨hpos, hspare⟩ := hf.given m hm
    have he : e ∈ s.executorStates := by
      rw [hframed.executorStates]
      exact (h.exists_manager hnew).1
    cases hv with
    | stays same => exact absurd (same.mpr hnew) hold
    | leaves old new => exact absurd old hold
    | @arrives _ req old new amount allocated =>
        obtain ⟨hsound, hzero, hiff⟩ := allocates_iff ha h.named hnot hown he hm old amount
        obtain ⟨htokens, -⟩ := hiff.mp (by rw [allocated]; rfl)
        have hstep := (ha.allocate hsound hzero allocated).2.2
        rw [← needOf_eq amount] at hstep
        refine ⟨?_, by rw [List.map_cons, List.sum_cons]; omega⟩
        intro r' hr' req' hreq'
        rcases List.mem_cons.mp hr' with rfl | hr'
        · rw [hreq', Option.map_some, Option.some.injEq] at amount
          simp only [Request.amount, Prod.mk.injEq] at amount
          rwa [amount.2.2]
        · exact hpos r' hr' req' hreq'

theorem fitsBefore_of_visitAll (env : ScheduleEnv) (hc : cfg.caching = true)
    (ha : cfg.kv.Accounts a)
    (hall : ∀ order hperm, visitAll cfg env s₁ q order hperm ≠ .error .assertion)
    (e : ExecutorId) : FitsBefore a s₁ q e := by
  cases hm₀ : q.scheduler.kvCacheManagers.get? e with
  | none =>
      refine ⟨fun r hr => ?_, fun m hm => ?_⟩
      · obtain ⟨m, hm⟩ := (h.exists_manager (h.mem_arrivals.mp hr).2.2).2
        rw [hm₀] at hm
        cases hm
      · rw [hm₀] at hm
        cases hm
  | some m₀ =>
      have hrun := h.ensures_visitAll env hc ha (arrivalsFirst_perm s₁ q e)
        (E := fun _ => True) (J := fun done s => Filling a s₁ q e m₀ done s ∨
          FitsBefore a s₁ q e) ?_ ?_
      · cases hres : visitAll cfg env s₁ q _ (arrivalsFirst_perm s₁ q e) with
        | error err =>
            have herr := (ensures_of_error hrun hres).1
            rw [herr] at hres
            exact absurd hres (hall _ _)
        | ok x =>
            obtain ⟨done, hdone, hframed, hj⟩ := ensures_of_ok hrun hres
            rcases hj with hfill | hfits
            · exact hfill.fitsBefore hm₀ hframed fun r hr =>
                (hdone r).mpr (h.mem_arrivals.mp hr).1
            · exact hfits
      · intro s hkv
        refine Or.inl ⟨List.nodup_nil, fun r hr => (by cases hr), fun m hm => ?_⟩
        rw [hkv, hm₀, Option.some.injEq] at hm
        rw [hm]
        exact ⟨fun r hr => (by cases hr), rfl⟩
      · intro done rest s r hnot hmem horder hframed hown hj
        refine ⟨fun _ _ _ _ => trivial, fun s' hvis => ?_⟩
        rcases hj with hfill | hfits
        · by_cases hr : r ∈ arrivals s₁ q e
          · exact Or.inl (h.filling_visit ha hfill hnot hr hframed hown hvis)
          · refine Or.inr (hfill.fitsBefore hm₀ hframed fun r' hr' => ?_)
            exact arrivals_visited horder (decide_eq_false hr) (h.mem_arrivals.mp hr').1
              (decide_eq_true hr')
        · exact Or.inr hfits

end Before

/-! ## The messages -/

def Assigned (outs : Dict ExecutorId SchedulerOutput) (e : ExecutorId) (r : ReqId) (n : ℕ)
    (isNew : Bool) : Prop :=
  ∃ out, outs.get? e = some out ∧ out.numScheduledTokens.get? r = some n ∧
    (r ∈ out.scheduledNewReqs.map NewRequestData.reqId ↔ isNew = true) ∧
    (r ∈ out.scheduledCachedReqs.reqIds ↔ isNew = false)

/-- Only the order of the visits depends on the order of sets. -/
theorem AtStage5.prepare_reorder (h : AtStage5 cfg env s s₁ q)
    {order : List ReqId → List ReqId} (hperm : ∀ l, (order l).Perm l) :
    s.prepare cfg (env.reorder order hperm) = (do
      let x ← visitAll cfg env s₁ q order hperm
      pure ⟨x.1, s₁.executorsWithStatus .idle,
        s₁.executorsWithStatus .idleNotAcceptingNewRequests, x.2⟩) := by
  have hlook : s.lookAround cfg (env.reorder order hperm) = .ok s₁ := h.looked
  have hround : planRound cfg (s₁.executorsWithStatus .idle)
      (s₁.executorsWithStatus .idleNotAcceptingNewRequests)
      (s₁.drainStepEstimateUpdates cfg (env.reorder order hperm).predict).considerIdle =
      .ok q := h.round
  rw [prepare_eq, hlook]
  change s₁.plan cfg (env.reorder order hperm) = _
  rw [plan_of_idle _ h.idle, hround]
  rfl

structure Result (cfg : Config κ) (s : Scheduler κ) (π : Placement) (s₁ : Scheduler κ)
    (q : Round κ) (x : Scheduler κ × Dict ExecutorId SchedulerOutput) (p : Plan κ)
    (π₁ π₂ : Placement) (outs : Dict ExecutorId SchedulerOutput) : Prop where
  found : p.found = s₁.foundIdle
  framed : Framed q.scheduler p.scheduler
  readied : Readied cfg s π p π₁ π₂
  issued : Issuing cfg p π₁ π₂ [] x.1 outs
  flushed : x.2 = x.1.flush p.found outs

theorem AtStage5.result (hc : cfg.caching = true) (ha : cfg.kv.Accounts a)
    (h : AtStage5 cfg env s s₁ q) (hs : Refines s π) (hl : Ledger cfg s)
    (hkey : s.executorsManager.Keyed) (hb : Before cfg a s₁ π₁ q π₂ share)
    {order : List ReqId → List ReqId} (hperm : ∀ l, (order l).Perm l)
    {x : Scheduler κ × Dict ExecutorId SchedulerOutput}
    (hx : s.schedule cfg (env.reorder order hperm) = .ok x) :
    ∃ p π₁ π₂ outs, Result cfg s π s₁ q x p π₁ π₂ outs := by
  obtain ⟨p, outs, hprep, hloop, hflush⟩ := exists_of_schedule hx
  obtain ⟨π₁, π₂, hp, -⟩ := ensures_of_ok (ensures_prepare_course _ hs hl hkey) hprep
  have hret := ensures_of_ok (ensures_stage6 _ hp hkey) hloop
  have hvisit := hb.ensures_visitAll env hc ha hperm (E := fun _ => True)
    (J := fun _ _ => True) (fun _ _ => trivial)
    fun _ _ _ _ _ _ _ _ _ _ => ⟨fun _ _ _ _ => trivial, fun _ _ => trivial⟩
  have hens : (s.prepare cfg (env.reorder order hperm)).Ensures (fun _ => True) fun p =>
      p.found = s₁.foundIdle ∧ Framed q.scheduler p.scheduler := by
    rw [h.prepare_reorder hperm, ensures_bind]
    apply hvisit.mono (fun _ _ => trivial)
    rintro x ⟨done, -, hframed, -⟩
    exact ⟨rfl, hframed⟩
  obtain ⟨hfound, hframed⟩ := ensures_of_ok hens hprep
  exact ⟨p, π₁, π₂, outs, hfound, hframed, hp, hret.issued, hflush⟩

theorem Framed.executorOf {s' : Scheduler κ} (h : Framed s s') (r : ReqId) :
    s'.executorOf r = s.executorOf r := by
  have hcore : ∀ t : Scheduler κ, t.executorOf r =
      ((t.requestStates.get? r).map RequestState.core).bind RequestState.executorId := by
    intro t
    rw [Scheduler.executorOf]
    cases t.requestStates.get? r <;> rfl
  rw [hcore, hcore, h.states]

/-- The messages of two calls with different orders schedule the same. -/
theorem Result.assigned {x x' : Scheduler κ × Dict ExecutorId SchedulerOutput} {p p' : Plan κ}
    {π₁ π₂ π₁' π₂' : Placement} {outs outs' : Dict ExecutorId SchedulerOutput} {n : ℕ}
    {isNew : Bool} (h : Result cfg s π s₁ q x p π₁ π₂ outs)
    (h' : Result cfg s π s₁ q x' p' π₁' π₂' outs') (hx : Assigned x.2 e r n isNew) :
    Assigned x'.2 e r n isNew := by
  obtain ⟨out, hout, hn, hnew, hcached⟩ := hx
  rw [h.flushed] at hout
  have hsent : outs.get? e = some out := by
    rcases get?_flush hout with hsent | ⟨hempty, -⟩
    · exact hsent
    · rw [hempty] at hn
      cases hn
  obtain ⟨hfound, -, hfor, -⟩ := h.issued.sent e out hsent
  -- both placements are read off the same records
  have hrunning : ∀ r, π₂' r = some (.running e) ↔ π₂ r = some (.running e) := by
    intro r
    rw [← h.readied.refines.executorOf_eq_some_iff, ← h'.readied.refines.executorOf_eq_some_iff,
      h.framed.executorOf, h'.framed.executorOf]
  have hresident : ∀ r, π₁' r = some (.running e) ↔ π₁ r = some (.running e) := by
    intro r
    rw [h.readied.resident, h'.readied.resident]
  have hrun : π₂ r = some (.running e) := (hfor.tokens r).mp (Dict.mem_of_get? hn)
  have hmem : e ∈ outs' := by
    by_contra hnot
    have hskip := h'.issued.skipped e (by rw [h'.found, ← h.found]; exact hfound)
      List.not_mem_nil hnot
    exact hskip.1 r ((hrunning r).mpr hrun)
  obtain ⟨out', hout'⟩ := (Dict.mem_iff_exists _ _).mp hmem
  have hprogress : ∀ r, (p.scheduler.requests.get? r).map Request.progress =
      (p'.scheduler.requests.get? r).map Request.progress := by
    intro r
    rw [h.framed.requests, h'.framed.requests]
  have hfor' := (h'.issued.sent e out' hout').2.2.1.of_progress hprogress
  obtain ⟨req, hreq, -⟩ := h.readied.refines.request hrun
  refine ⟨out', by rw [h'.flushed, flush_of_mem hmem]; exact hout', ?_, ?_, ?_⟩
  · rw [(hfor'.steps r req ((hrunning r).mpr hrun) hreq).1, ← hn,
      (hfor.steps r req hrun hreq).1]
    simp only [hresident]
  · rw [← hnew, hfor'.new, hfor.new, hrunning, Ne, Ne, hresident]
  · rw [← hcached, hfor'.cached, hfor.cached, hrunning, hresident]

end Scheduler

/-! ## The result -/

namespace Calls

open Scheduler

/-- All orders succeed exactly when what comes to an executor fits there before anything is
freed; and all orders that succeed schedule the same. -/
theorem stage5_orders (config : ExecutorId → KVCacheConfig) (cfg : Config KVCacheManager)
    (hkv : cfg.kv = KVCacheManager.ops config) (hc : cfg.caching = true)
    {allowed : Calls KVCacheManager → Call → Prop} {t : Calls KVCacheManager}
    (h : Reachable cfg allowed t) {env : ScheduleEnv} {s₁ : Scheduler KVCacheManager}
    {q : Round KVCacheManager} (hq : AtStage5 cfg env t.scheduler s₁ q) :
    ((∀ order hperm, visitAll cfg env s₁ q order hperm ≠ .error .assertion) ↔
      ∀ e, FitsBefore (KVCacheManager.account config) s₁ q e) ∧
    ∀ order order' hperm hperm' x x',
      t.scheduler.schedule cfg (env.reorder order hperm) = .ok x →
      t.scheduler.schedule cfg (env.reorder order' hperm') = .ok x' →
      ∀ e r n isNew, Assigned x.2 e r n isNew ↔ Assigned x'.2 e r n isNew := by
  have hacc : cfg.kv.Accounts (KVCacheManager.account config) := by
    rw [hkv]
    exact KVCacheManager.accounts config
  have hcons := Reachable.consistent h
  obtain ⟨π, share, hπ, hown, hzero, -⟩ := Reachable.owned_with (P := fun _ _ _ _ => True) hc hacc
    (fun _ _ _ _ _ _ => trivial) (fun _ _ _ _ _ => trivial) h
  obtain ⟨s₀, π₀, π₁, π₂, -, hb⟩ := hq.before hacc hπ hcons.ledger hcons.keyed hown hzero
  refine ⟨⟨fun hall e => hb.fitsBefore_of_visitAll env hc hacc hall e, ?_⟩, ?_⟩
  · intro hfits order hperm herr
    exact ensures_of_error (hb.ensures_visitAll_of_fits env hc hacc hfits hperm) herr
  · intro order order' hperm hperm' x x' hx hx' e r n isNew
    obtain ⟨p, ρ₁, ρ₂, outs, hres⟩ := hq.result hc hacc hπ hcons.ledger hcons.keyed hb hperm hx
    obtain ⟨p', ρ₁', ρ₂', outs', hres'⟩ :=
      hq.result hc hacc hπ hcons.ledger hcons.keyed hb hperm' hx'
    exact ⟨hres.assigned hres', hres'.assigned hres⟩

def poolConfig (numBlocks : ℕ) (h : 0 < numBlocks) : KVCacheConfig :=
  { blockConfig with
    numBlocks
    maxModelLen := 5
    numBlocks_pos := h
    maxModelLen_pos := Nat.succ_pos 4 }

/-- Two executors with pools of some size. A step of up to five tokens is faster on the
second one, a larger one is not. -/
def twoPools (numBlocks : ℕ) (h : 0 < numBlocks) : Config KVCacheManager :=
  { blocksSmall with
    latencyProfiles :=
      (Dict.empty.set 1 (.constant 100 2)).set 2 ⟨[(5, 1), (100, 3)], by simp⟩
    tpDegreeToThroughputSupply := (Dict.empty.set 1 1).set 2 1
    kv := KVCacheManager.ops fun _ => poolConfig numBlocks h }

abbrev poolAccount (numBlocks : ℕ) (h : 0 < numBlocks) : Account KVCacheManager :=
  KVCacheManager.account fun _ => poolConfig numBlocks h

/-- Request `b` has completed a block on the first executor when the second one is launched
and request `c` is added. -/
def oneComesOneLeaves : List Call :=
  [.addRequest (Request.small "b"), .schedule .still, .startExecution 0,
    .finishExecution 0 ⟨Dict.empty.set "b" 0, [[(1, 7), (2, 8)]]⟩, .updateFromOutput 0,
    .launch 1 [1, 2], .addRequest (Request.small "c")]

/-- With three blocks besides those of `b` all orders succeed. -/
theorem stage5_orders_small : ∃ t s₁ q,
    Reachable (twoPools 6 (by decide)) UniqueIds t ∧
    AtStage5 (twoPools 6 (by decide)) .still t.scheduler s₁ q ∧
    arrivals s₁ q 0 = ["c"] ∧ departures s₁ q 0 = ["b"] ∧
    ∀ order hperm, visitAll (twoPools 6 (by decide)) .still s₁ q order hperm ≠
      .error .assertion := by
  have hrun : (replay (twoPools 6 (by decide)) uniqueIds? [(0, [0])] oneComesOneLeaves).Ensures
      (fun _ => False) fun t =>
      (t.scheduler.lookAround (twoPools 6 (by decide)) .still).Ensures (fun _ => False) fun s₁ =>
        s₁.foundIdle ≠ [] ∧
        (planRound (twoPools 6 (by decide)) (s₁.executorsWithStatus .idle)
          (s₁.executorsWithStatus .idleNotAcceptingNewRequests)
          (s₁.drainStepEstimateUpdates (twoPools 6 (by decide))
            ScheduleEnv.still.predict).considerIdle).Ensures (fun _ => False) fun q =>
          arrivals s₁ q 0 = ["c"] ∧ departures s₁ q 0 = ["b"] ∧
          (q.scheduler.requests.entries.all fun x => 0 < x.2.numTokens) = true ∧
          (q.scheduler.kvCacheManagers.entries.all fun x =>
            demand (poolAccount 6 (by decide)) s₁ q x.1 ≤
              x.2.blockPool.freeBlockQueue.length) = true := by
    decide +kernel
  obtain ⟨t, ht, hlook⟩ := hrun.exists_ok
  obtain ⟨s₁, hs₁, hidle, hround⟩ := hlook.exists_ok
  obtain ⟨q, hq, hcome, hleave, hpos, hfits⟩ := hround.exists_ok
  have hreach := ensures_of_ok (reachable_of_replay _ uniqueIds_of_uniqueIds? _ _) ht
  have hat : AtStage5 (twoPools 6 (by decide)) .still t.scheduler s₁ q := ⟨hs₁, hidle, hq⟩
  refine ⟨t, s₁, q, hreach, hat, hcome, hleave, ?_⟩
  apply (stage5_orders _ (twoPools 6 (by decide)) rfl rfl hreach hat).1.mpr
  refine fun e => ⟨fun r _ req hreq => ?_, fun m hm => ?_⟩
  · have hentry := List.all_eq_true.mp hpos (r, req) ((Dict.mem_entries_iff _ _ _).mpr hreq)
    exact of_decide_eq_true hentry
  · have hentry := List.all_eq_true.mp hfits (e, m) ((Dict.mem_entries_iff _ _ _).mpr hm)
    exact of_decide_eq_true hentry

/-- With pools of two blocks, request `c` fits on the first executor once `b` has left it.
It is there in the order in which `b` is visited first, and the other order raises. -/
theorem stage5_order_fails : ∃ t s₁ q,
    Reachable (twoPools 3 (by decide)) UniqueIds t ∧
    AtStage5 (twoPools 3 (by decide)) .still t.scheduler s₁ q ∧
    (∀ e m, q.scheduler.kvCacheManagers.get? e = some m →
      demand (poolAccount 3 (by decide)) s₁ q e ≤ m.blockPool.freeBlockQueue.length +
        ((departures s₁ q e).map fun r => (m.getBlockIds r).length).sum) ∧
    (∃ order hperm x, visitAll (twoPools 3 (by decide)) .still s₁ q order hperm = .ok x) ∧
    ∃ order hperm, visitAll (twoPools 3 (by decide)) .still s₁ q order hperm =
      .error .assertion := by
  have hrun : (replay (twoPools 3 (by decide)) uniqueIds? [(0, [0])] oneComesOneLeaves).Ensures
      (fun _ => False) fun t =>
      (t.scheduler.lookAround (twoPools 3 (by decide)) .still).Ensures (fun _ => False) fun s₁ =>
        s₁.foundIdle ≠ [] ∧
        (planRound (twoPools 3 (by decide)) (s₁.executorsWithStatus .idle)
          (s₁.executorsWithStatus .idleNotAcceptingNewRequests)
          (s₁.drainStepEstimateUpdates (twoPools 3 (by decide))
            ScheduleEnv.still.predict).considerIdle).Ensures (fun _ => False) fun q =>
          (q.scheduler.kvCacheManagers.entries.all fun x =>
            demand (poolAccount 3 (by decide)) s₁ q x.1 ≤
              x.2.blockPool.freeBlockQueue.length +
                ((departures s₁ q x.1).map fun r => (x.2.getBlockIds r).length).sum) = true ∧
          (visitAll (twoPools 3 (by decide)) .still s₁ q (fun l => l)
            fun l => List.Perm.refl l).Ensures (fun _ => False) (fun _ => True) ∧
          (visitAll (twoPools 3 (by decide)) .still s₁ q List.reverse
            List.reverse_perm).Ensures (· = .assertion) fun _ => False := by
    decide +kernel
  obtain ⟨t, ht, hlook⟩ := hrun.exists_ok
  obtain ⟨s₁, hs₁, hidle, hround⟩ := hlook.exists_ok
  obtain ⟨q, hq, hfits, hgood, hbad⟩ := hround.exists_ok
  have hreach := ensures_of_ok (reachable_of_replay _ uniqueIds_of_uniqueIds? _ _) ht
  obtain ⟨x, hx, -⟩ := hgood.exists_ok
  refine ⟨t, s₁, q, hreach, ⟨hs₁, hidle, hq⟩, fun e m hm => ?_, ⟨_, _, x, hx⟩,
    List.reverse, List.reverse_perm, ?_⟩
  · have hentry := List.all_eq_true.mp hfits (e, m) ((Dict.mem_entries_iff _ _ _).mpr hm)
    exact of_decide_eq_true hentry
  · cases herr : visitAll (twoPools 3 (by decide)) .still s₁ q List.reverse List.reverse_perm with
    | ok y => exact (ensures_of_ok hbad herr).elim
    | error err => rw [ensures_of_error hbad herr]

end Calls

end TeDiServe

import TeDiServe.Cache.BlockPool
import TeDiServe.Placement.Run

/-!
# The accounts of the KV cache managers

Seen from the scheduler, a manager has a number of blocks for each request and some blocks
left. An allocation takes what the computed and the new tokens need, and fails exactly when
that is more than is left; freeing gives everything back. This is `Accounts`, and the block
pools satisfy it.

A visit of stage 5 frees a request on the executor that it leaves and allocates for it on
the one to which it comes.
-/

namespace TeDiServe

/-- How a manager is seen from outside: its invariant on an executor, the number of blocks
that a request has, the blocks that are left, and how many an allocation takes, by the
computed and the new tokens. -/
structure Account (κ : Type) where
  sound : ExecutorId → κ → Prop
  blocks : κ → ReqId → ℕ
  spare : κ → ℕ
  need : ExecutorId → ℕ → ℕ → ℕ

structure KVCacheOps.Accounts {κ : Type} (ops : KVCacheOps κ) (a : Account κ) : Prop where
  create : ∀ e, a.sound e (ops.create e) ∧ ∀ r, a.blocks (ops.create e) r = 0
  need_pos : ∀ e c {n}, 0 < n → 0 < a.need e c n
  allocates : ∀ {e m req n}, a.sound e m → a.blocks m req.requestId = 0 →
    ((ops.allocateSlots m req n).isSome ↔
      0 < n ∧ a.need e req.numComputedTokens n ≤ a.spare m)
  allocate : ∀ {e m req n m'}, a.sound e m → a.blocks m req.requestId = 0 →
    ops.allocateSlots m req n = some m' → a.sound e m' ∧
      (∀ r, a.blocks m' r =
        if r = req.requestId then a.need e req.numComputedTokens n else a.blocks m r) ∧
      a.spare m' + a.need e req.numComputedTokens n = a.spare m
  free : ∀ {e m} (r : ReqId), a.sound e m → a.sound e (ops.free m r) ∧
    (∀ r', a.blocks (ops.free m r) r' = if r' = r then 0 else a.blocks m r') ∧
    a.spare (ops.free m r) = a.spare m + a.blocks m r

theorem KVCacheOps.Accounts.foldl_free {κ : Type} {ops : KVCacheOps κ} {a : Account κ}
    (h : ops.Accounts a) {e : ExecutorId} (rs : List ReqId) {m : κ} (hm : a.sound e m) :
    a.sound e (rs.foldl ops.free m) ∧
      ∀ r, a.blocks (rs.foldl ops.free m) r = if r ∈ rs then 0 else a.blocks m r := by
  induction rs generalizing m with
  | nil => simp [hm]
  | cons r rs ih =>
      obtain ⟨hsound, hblocks, -⟩ := h.free r hm
      obtain ⟨hsound', hblocks'⟩ := ih hsound
      refine ⟨hsound', ?_⟩
      intro r'
      rw [List.foldl_cons, hblocks', hblocks]
      by_cases hr : r' = r
      · simp [hr]
      · simp [hr]

namespace KVCacheManager

def account (config : ExecutorId → KVCacheConfig) : Account KVCacheManager where
  sound e m := m.Accounted (config e)
  blocks m r := (m.getBlockIds r).length
  spare m := m.blockPool.freeBlockQueue.length
  need e c n := cdiv (min (c + n) (config e).maxModelLen) (config e).blockSize

theorem accounts (config : ExecutorId → KVCacheConfig) :
    (ops config).Accounts (account config) := by
  have hslots : ∀ {e m req n}, m.Accounted (config e) → (m.getBlockIds req.requestId).length = 0 →
      0 < n → ((ops config).allocateSlots m req n = none →
        m.blockPool.freeBlockQueue.length < (account config).need e req.numComputedTokens n) ∧
      ∀ m', (ops config).allocateSlots m req n = some m' → Accounted.Takes (config e) m
        req.requestId (min (req.numComputedTokens + n) (config e).maxModelLen) m' := by
    intro e m req n hm hr hn
    obtain ⟨o, ho, hnone, hsome⟩ :=
      (hm.allocateSlots (List.length_eq_zero_iff.mp hr) hn).exists_ok
    have heq : (ops config).allocateSlots m req n = o := by
      simp only [ops, ho]
    rw [heq]
    exact ⟨hnone, hsome⟩
  have hzero : ∀ m req, (ops config).allocateSlots m req 0 = none := fun m req => rfl
  have hpos : ∀ {m req n m'}, (ops config).allocateSlots m req n = some m' → 0 < n := by
    intro m req n m' ha
    rcases Nat.eq_zero_or_pos n with rfl | hn
    · rw [hzero] at ha
      cases ha
    · exact hn
  refine ⟨?_, ?_, ?_, ?_, ?_⟩
  · intro e
    exact ⟨.create, fun r => rfl⟩
  · intro e c n hn
    apply Accounted.cdiv_pos (config e)
    have := (config e).maxModelLen_pos
    omega
  · intro e m req n hm hr
    rw [Option.isSome_iff_exists]
    constructor
    · rintro ⟨m', hm'⟩
      refine ⟨hpos hm', ?_⟩
      have htakes := (hslots hm hr (hpos hm')).2 m' hm'
      change cdiv _ _ ≤ m.blockPool.freeBlockQueue.length
      rw [← htakes.queue]
      exact Nat.le_add_left _ _
    · rintro ⟨hn, hle⟩
      cases ha : (ops config).allocateSlots m req n with
      | none => exact absurd hle (Nat.not_le.mpr ((hslots hm hr hn).1 ha))
      | some m' => exact ⟨m', rfl⟩
  · intro e m req n m' hm hr ha
    have htakes := (hslots hm hr (hpos ha)).2 m' ha
    refine ⟨htakes.accounted, ?_, htakes.queue⟩
    intro r
    split_ifs with hr'
    · rw [hr']
      exact htakes.taken
    · exact congrArg List.length (htakes.others r hr')
  · intro e m r hm
    refine ⟨hm.free r, ?_, hm.length_free r⟩
    intro r'
    change ((m.free r).getBlockIds r').length = _
    rw [getBlockIds_free]
    split_ifs <;> rfl

end KVCacheManager

def Request.amount (req : Request) : ReqId × ℕ × ℕ :=
  (req.requestId, req.numComputedTokens, req.numTokens)

namespace Scheduler

variable {κ : Type} {cfg : Config κ} {s s' : Scheduler κ} {t : Tables} {π π₁ π₂ : Placement}
  {r : ReqId} {e : ExecutorId} {a : Account κ} {share share' : ReqId → ExecutorId → ℕ}
  {host host' : ReqId → ExecutorId → Prop} {d : Dict ReqId Request}

/-- On every executor that the scheduler has a record of, every request has its share of
the blocks, and those that `host` puts there have some. -/
def Owned (a : Account κ) (s : Scheduler κ) (share : ReqId → ExecutorId → ℕ)
    (host : ReqId → ExecutorId → Prop) : Prop :=
  ∀ e m, e ∈ s.executorStates → s.kvCacheManagers.get? e = some m →
    a.sound e m ∧ ∀ r, a.blocks m r = share r e ∧ (share r e ≠ 0 ↔ host r e)

namespace Owned

theorem of_eq (h : Owned a s share host) (hkv : s'.kvCacheManagers = s.kvCacheManagers)
    (hes : ∀ e, e ∈ s'.executorStates → e ∈ s.executorStates)
    (hsame : ∀ r e, e ∈ s'.executorStates → (share r e ≠ 0 ↔ host r e) →
      share' r e = share r e ∧ (host' r e ↔ host r e)) : Owned a s' share' host' := by
  intro e m he hm
  rw [hkv] at hm
  obtain ⟨hsound, hblocks⟩ := h e m (hes e he) hm
  refine ⟨hsound, fun r => ?_⟩
  obtain ⟨hshare, hhost⟩ := hsame r e he (hblocks r).2
  rw [hshare, hhost]
  exact hblocks r

theorem freed (h : Owned a s share host) (ha : cfg.kv.Accounts a)
    {gone : ExecutorId → ReqId → Prop} (hf : Freed cfg s s' gone)
    (hes : ∀ e, e ∈ s'.executorStates → e ∈ s.executorStates)
    (hgone : ∀ r e, gone e r → share' r e = 0 ∧ ¬host' r e)
    (hkept : ∀ r e, ¬gone e r → (share r e ≠ 0 ↔ host r e) →
      share' r e = share r e ∧ (host' r e ↔ host r e)) : Owned a s' share' host' := by
  intro e m' he hm'
  obtain ⟨rs, hrs, hkv⟩ := hf e
  rw [hm'] at hkv
  obtain ⟨m, hm, rfl⟩ := Option.map_eq_some_iff.mp hkv.symm
  obtain ⟨hsound, hblocks⟩ := h e m (hes e he) hm
  obtain ⟨hsound', hblocks'⟩ := ha.foldl_free rs hsound
  refine ⟨hsound', fun r => ?_⟩
  rw [hblocks']
  by_cases hr : r ∈ rs
  · obtain ⟨hshare, hhost⟩ := hgone r e ((hrs r).mp hr)
    rw [if_pos hr, hshare]
    exact ⟨rfl, iff_of_false (by simp) hhost⟩
  · obtain ⟨hshare, hhost⟩ := hkept r e (fun hc => hr ((hrs r).mpr hc)) (hblocks r).2
    rw [if_neg hr, hshare, hhost]
    exact hblocks r

end Owned

/-! ## Stage 5 -/

def SameAmounts (d : Dict ReqId Request) (s : Scheduler κ) : Prop :=
  ∀ r, (s.requests.get? r).map Request.amount = (d.get? r).map Request.amount

theorem ensures_modifyRequest_amounts (h : SameAmounts d s) (r : ReqId) {f : Request → Request}
    (hf : ∀ req, (f req).amount = req.amount) :
    (s.modifyRequest r f).Ensures (· ≠ .assertion) fun s' =>
      s'.kvCacheManagers = s.kvCacheManagers ∧ s'.executorStates = s.executorStates ∧
      SameAmounts d s' := by
  unfold modifyRequest
  rw [ensures_bind, ensures_subscript]
  refine ⟨fun req hreq => ⟨rfl, rfl, ?_⟩, fun _ => by simp⟩
  intro r'
  dsimp only
  rw [Dict.get?_set, ← h r']
  split_ifs with hr
  · rw [hr, hreq, Option.map_some, Option.map_some, hf]
  · rfl

inductive Visit (cfg : Config κ) (d : Dict ReqId Request) (π₁ π₂ : Placement) (r : ReqId)
    (e : ExecutorId) : κ → κ → Prop
  | stays {m : κ} (same : π₁ r = some (.running e) ↔ π₂ r = some (.running e)) :
      Visit cfg d π₁ π₂ r e m m
  | leaves {m : κ} (old : π₁ r = some (.running e)) (new : π₂ r ≠ some (.running e)) :
      Visit cfg d π₁ π₂ r e m (cfg.kv.free m r)
  | arrives {m m' : κ} {req : Request} (old : π₁ r ≠ some (.running e))
      (new : π₂ r = some (.running e))
      (amount : (d.get? r).map Request.amount = some req.amount)
      (allocated : cfg.kv.allocateSlots m req req.numTokens = some m') :
      Visit cfg d π₁ π₂ r e m m'

def Starved (cfg : Config κ) (d : Dict ReqId Request) (s : Scheduler κ) (r : ReqId)
    (e : ExecutorId) : Prop :=
  ∃ m req, s.kvCacheManagers.get? e = some m ∧
    (d.get? r).map Request.amount = some req.amount ∧
    cfg.kv.allocateSlots m req req.numTokens = none

theorem ensures_leave_visit (h : SameAmounts d s) (o : Option ExecutorId) :
    (leave cfg (s, t) r o).Ensures (· ≠ .assertion) fun x =>
      SameAmounts d x.1 ∧ x.1.executorStates = s.executorStates ∧
      ∀ e, x.1.kvCacheManagers.get? e = if o = some e then
        (s.kvCacheManagers.get? e).map fun m => cfg.kv.free m r else s.kvCacheManagers.get? e := by
  cases o with
  | none => exact ⟨h, rfl, fun e => rfl⟩
  | some e =>
      unfold leave dropRequest freeBlocks
      rw [ensures_bind, ensures_bind, ensures_subscript]
      refine ⟨fun m hm => ?_, fun _ => by simp⟩
      rw [ensures_pure, ensures_bind]
      have hmark : SameAmounts d { s.markFree e r with
          kvCacheManagers := (s.markFree e r).kvCacheManagers.set e (cfg.kv.free m r) } := h
      refine (ensures_modifyRequest_amounts hmark r ?_).imp ?_
      · exact fun _ => rfl
      rintro s₂ ⟨hkv, hes, hsame⟩
      have hsoft := soft_markExecutorConfidenceThresholdsDirty s₂ e
      refine ⟨fun r' => ?_, hsoft.framed.executorStates.trans hes, fun e' => ?_⟩
      · rw [hsoft.requests]
        exact hsame r'
      · rw [hsoft.kvCacheManagers, hkv, Dict.get?_set]
        have hm' : s.kvCacheManagers.get? e = some m := hm
        by_cases he : e' = e
        · rw [if_pos he, if_pos (by rw [he]), he, hm', Option.map_some]
        · rw [if_neg he, if_neg fun hc => he (Option.some.inj hc).symm]
          rfl

theorem ensures_arrive_visit (hc : cfg.caching = true) (h : SameAmounts d s)
    (o : Option ExecutorId) :
    (arrive cfg (s, t) r o).Ensures
      (fun err => err = .assertion → ∃ e, o = some e ∧ Starved cfg d s r e) fun x =>
      SameAmounts d x.1 ∧ x.1.executorStates = s.executorStates ∧
      (∀ e, o ≠ some e → x.1.kvCacheManagers.get? e = s.kvCacheManagers.get? e) ∧
      ∀ e, o = some e → ∃ m m' req, s.kvCacheManagers.get? e = some m ∧
        x.1.kvCacheManagers.get? e = some m' ∧
        (d.get? r).map Request.amount = some req.amount ∧
        cfg.kv.allocateSlots m req req.numTokens = some m' := by
  cases o with
  | none => exact ⟨h, rfl, fun _ _ => rfl, fun e he => by cases he⟩
  | some e =>
      unfold arrive addNewRequest allocate
      rw [ensures_bind, ensures_subscript]
      refine ⟨fun req hreq => ?_, fun _ hne => by cases hne⟩
      have hamount : (d.get? r).map Request.amount = some req.amount := by
        have hreq' : s.requests.get? r = some req := hreq
        rw [← h r, hreq', Option.map_some]
      rw [if_pos hc, ensures_bind, ensures_bind, ensures_subscript]
      refine ⟨fun m hm => ?_, fun _ hne => by cases hne⟩
      cases halloc : cfg.kv.allocateSlots m req req.numTokens with
      | none => exact fun _ => ⟨e, rfl, m, req, hm, hamount, halloc⟩
      | some m' =>
          dsimp only
          rw [ensures_pure, ensures_bind, subscript_of_get? _ (Dict.get?_set_self _ _ _),
            ensures_ok, ensures_bind]
          have hset : SameAmounts d
              { s with kvCacheManagers := s.kvCacheManagers.set e m' } := h
          refine (ensures_modifyRequest_amounts hset r ?_).mono
            (fun err hne hc => absurd hc hne) ?_
          · exact fun _ => rfl
          rintro s₂ ⟨hkv, hes, hsame⟩
          have hsoft := soft_markExecutorConfidenceThresholdsDirty s₂ e
          rw [ensures_pure]
          refine ⟨fun r' => ?_, hsoft.framed.executorStates.trans hes, fun e' he' => ?_,
            fun e' he' => ⟨m, m', req, ?_, ?_, hamount, halloc⟩⟩
          · rw [hsoft.requests]
            exact hsame r'
          · rw [hsoft.kvCacheManagers, hkv, Dict.get?_set, if_neg fun hc => he' (by rw [hc])]
          · rw [← Option.some.inj he']
            exact hm
          · rw [hsoft.kvCacheManagers, hkv, Dict.get?_set, if_pos (Option.some.inj he').symm]

/-- A visit concerns the executor that the request leaves and the one to which it comes. It
raises an assertion only when it finds too few blocks. -/
theorem ensures_finalize_visit (hc : cfg.caching = true) {found : List ExecutorId}
    {old : Dict ReqId (Option ExecutorId)} {l : Loc} (href : Refines s π₂) (hr : π₂ r = some l)
    (hold : (old.get? r).join = π₁.resident? r)
    (hfound : ∀ e, π₂ r = some (.running e) → e ∈ found) (h : SameAmounts d s) :
    (finalize cfg found old (s, t) r).Ensures
      (fun err => err = .assertion → ∃ e, π₁ r ≠ some (.running e) ∧
        π₂ r = some (.running e) ∧ Starved cfg d s r e) fun x =>
      SameAmounts d x.1 ∧ x.1.executorStates = s.executorStates ∧
      ∀ e m', x.1.kvCacheManagers.get? e = some m' →
        ∃ m, s.kvCacheManagers.get? e = some m ∧ Visit cfg d π₁ π₂ r e m m' := by
  obtain ⟨rs, hrs, hrep⟩ := href.represents hr
  have hnew : rs.executorId = π₂.resident? r := by
    rw [hrep.executorId, Placement.resident?, hr, Option.bind_some]
  unfold finalize
  rw [ensures_bind, subscript_of_get? _ hrs, ensures_ok]
  simp only [hold, hnew]
  by_cases hsame : π₁.resident? r = π₂.resident? r
  · simp only [hsame, ne_eq, not_true_eq_false, if_false]
    have hstay : ∀ {s' : Scheduler κ}, s'.kvCacheManagers = s.kvCacheManagers →
        ∀ e m', s'.kvCacheManagers.get? e = some m' →
          ∃ m, s.kvCacheManagers.get? e = some m ∧ Visit cfg d π₁ π₂ r e m m' := by
      intro s' hkv e m' hm'
      rw [hkv] at hm'
      refine ⟨m', hm', .stays ?_⟩
      rw [← Placement.resident?_eq_some_iff, ← Placement.resident?_eq_some_iff, hsame]
    cases hres : π₂.resident? r with
    | none => exact ⟨h, rfl, hstay rfl⟩
    | some e =>
        have he : e ∈ found := hfound e ((Placement.resident?_eq_some_iff π₂ r e).mp hres)
        dsimp only
        rw [ensures_bind, pyAssert, if_pos (decide_eq_true he), ensures_ok]
        unfold addRunningRequest
        rw [ensures_bind, ensures_subscript]
        refine ⟨fun req hreq => ?_, fun _ hne => by cases hne⟩
        rw [ensures_bind]
        refine (ensures_modifyRequest_amounts h r ?_).mono (fun err hne hc => absurd hc hne) ?_
        · exact fun _ => rfl
        rintro s₂ ⟨hkv, hes, hsame₂⟩
        exact ⟨hsame₂, hes, hstay hkv⟩
  · rw [if_pos hsame, ensures_bind]
    apply (ensures_leave_visit h (π₁.resident? r)).mono (fun err hne hc => absurd hc hne)
    rintro ⟨s', t'⟩ ⟨hs', hes', hkv'⟩
    dsimp only at hs' hes' hkv' ⊢
    have hother : ∀ e, π₂.resident? r = some e →
        π₁ r ≠ some (.running e) ∧ π₂ r = some (.running e) ∧
        s'.kvCacheManagers.get? e = s.kvCacheManagers.get? e := by
      intro e he
      have hne : π₁.resident? r ≠ some e := fun hc => hsame (hc.trans he.symm)
      refine ⟨fun hc => hne ((Placement.resident?_eq_some_iff π₁ r e).mpr hc),
        (Placement.resident?_eq_some_iff π₂ r e).mp he, ?_⟩
      rw [hkv', if_neg hne]
    apply (ensures_arrive_visit hc hs' (π₂.resident? r)).mono
    · intro err hstarved herr
      obtain ⟨e, he, m, req, hm, hamount, hnone⟩ := hstarved herr
      obtain ⟨h₁, h₂, heq⟩ := hother e he
      exact ⟨e, h₁, h₂, m, req, heq ▸ hm, hamount, hnone⟩
    · rintro ⟨s₂, t₂⟩ ⟨hs₂, hes₂, haway, hthere⟩
      dsimp only at hs₂ hes₂ haway hthere ⊢
      refine ⟨hs₂, hes₂.trans hes', fun e m' hm' => ?_⟩
      by_cases he : π₂.resident? r = some e
      · obtain ⟨h₁, h₂, heq⟩ := hother e he
        obtain ⟨m, m'', req, hm, hm'', hamount, halloc⟩ := hthere e he
        rw [hm', Option.some.injEq] at hm''
        exact ⟨m, heq ▸ hm, .arrives h₁ h₂ hamount (hm'' ▸ halloc)⟩
      · have h₂ : π₂ r ≠ some (.running e) :=
          fun hc => he ((Placement.resident?_eq_some_iff π₂ r e).mpr hc)
        rw [haway e he, hkv'] at hm'
        split_ifs at hm' with hold'
        · obtain ⟨m, hm, rfl⟩ := Option.map_eq_some_iff.mp hm'
          exact ⟨m, hm, .leaves ((Placement.resident?_eq_some_iff π₁ r e).mp hold') h₂⟩
        · refine ⟨m', hm', .stays (iff_of_false (fun hc => hold' ?_) h₂)⟩
          exact (Placement.resident?_eq_some_iff π₁ r e).mpr hc

def needOf (a : Account κ) (d : Dict ReqId Request) (r : ReqId) (e : ExecutorId) : ℕ :=
  ((d.get? r).map fun req => a.need e req.numComputedTokens req.numTokens).getD 0

/-- The shares when the placement has changed: a request that stays keeps its blocks, one
that comes gets what it needs then. -/
def shareAfter (a : Account κ) (d : Dict ReqId Request) (π₁ π₂ : Placement)
    (share : ReqId → ExecutorId → ℕ) (r : ReqId) (e : ExecutorId) : ℕ :=
  if π₂ r = some (.running e) then
    if π₁ r = some (.running e) then share r e else needOf a d r e
  else 0

def inStage5 (a : Account κ) (d : Dict ReqId Request) (π₁ π₂ : Placement)
    (share : ReqId → ExecutorId → ℕ) (done : List ReqId) (r : ReqId) (e : ExecutorId) : ℕ :=
  if r ∈ done then shareAfter a d π₁ π₂ share r e else share r e

/-- In the middle of stage 5: the requests that were visited are where the new placement
puts them, and the others still where the old one did. -/
def hostInStage5 (π₁ π₂ : Placement) (done : List ReqId) (r : ReqId) (e : ExecutorId) : Prop :=
  if r ∈ done then π₂ r = some (.running e) else π₁ r = some (.running e)

theorem shareAfter_eq (h : π₂ r = some (.running e) ↔ π₁ r = some (.running e))
    (hhost : share r e ≠ 0 ↔ π₁ r = some (.running e)) :
    shareAfter a d π₁ π₂ share r e = share r e := by
  unfold shareAfter
  by_cases h₁ : π₁ r = some (.running e)
  · rw [if_pos (h.mpr h₁), if_pos h₁]
  · rw [if_neg fun hc => h₁ (h.mp hc)]
    exact (not_not.mp fun hc => h₁ (hhost.mp hc)).symm

theorem needOf_eq {req : Request} (h : (d.get? r).map Request.amount = some req.amount)
    (e : ExecutorId) : needOf a d r e = a.need e req.numComputedTokens req.numTokens := by
  obtain ⟨req₀, hreq₀, heq⟩ := Option.map_eq_some_iff.mp h
  simp only [Request.amount, Prod.mk.injEq] at heq
  rw [needOf, hreq₀, Option.map_some, Option.getD_some, heq.2.1, heq.2.2]

def Named (d : Dict ReqId Request) : Prop :=
  ∀ r req, d.get? r = some req → req.requestId = r

theorem Named.requestId {req : Request} (h : Named d)
    (hreq : (d.get? r).map Request.amount = some req.amount) : req.requestId = r := by
  obtain ⟨req₀, hreq₀, heq⟩ := Option.map_eq_some_iff.mp hreq
  simp only [Request.amount, Prod.mk.injEq] at heq
  rw [← heq.1]
  exact h r req₀ hreq₀

theorem Owned.visit (h : Owned a s share host) (ha : cfg.kv.Accounts a) (hnamed : Named d)
    (hes : s'.executorStates = s.executorStates)
    (hvisit : ∀ e m', s'.kvCacheManagers.get? e = some m' →
      ∃ m, s.kvCacheManagers.get? e = some m ∧ Visit cfg d π₁ π₂ r e m m')
    (hhost : ∀ e, host r e ↔ π₁ r = some (.running e)) :
    Owned a s' (fun r' e => if r' = r then shareAfter a d π₁ π₂ share r e else share r' e)
      fun r' e => if r' = r then π₂ r = some (.running e) else host r' e := by
  intro e m' he hm'
  rw [hes] at he
  obtain ⟨m, hm, hv⟩ := hvisit e m' hm'
  obtain ⟨hsound, hblocks⟩ := h e m he hm
  obtain ⟨hself, hpos⟩ := hblocks r
  rw [hhost] at hpos
  simp only [shareAfter]
  cases hv with
  | stays same =>
      refine ⟨hsound, fun r' => ?_⟩
      by_cases hr : r' = r
      · simp only [hr, if_true]
        by_cases h₂ : π₂ r = some (.running e)
        · rw [if_pos h₂, if_pos (same.mpr h₂)]
          exact ⟨hself, iff_of_true (hpos.mpr (same.mpr h₂)) h₂⟩
        · rw [if_neg h₂, hself]
          exact ⟨not_not.mp fun hc => h₂ (same.mp (hpos.mp hc)), iff_of_false (by simp) h₂⟩
      · simp only [hr, if_false]
        exact hblocks r'
  | leaves old new =>
      obtain ⟨hsound', hblocks', -⟩ := ha.free r hsound
      refine ⟨hsound', fun r' => ?_⟩
      rw [hblocks']
      by_cases hr : r' = r
      · simp only [hr, if_true, if_neg new, true_and]
        exact iff_of_false (by simp) new
      · simp only [hr, if_false]
        exact hblocks r'
  | @arrives _ req old new amount allocated =>
      have hid := hnamed.requestId amount
      have hzero : a.blocks m req.requestId = 0 := by
        rw [hid, hself]
        exact not_not.mp fun hc => old (hpos.mp hc)
      obtain ⟨htokens, -⟩ := (ha.allocates hsound hzero).mp (by rw [allocated]; rfl)
      obtain ⟨hsound', hblocks', -⟩ := ha.allocate hsound hzero allocated
      refine ⟨hsound', fun r' => ?_⟩
      rw [hblocks', hid]
      by_cases hr : r' = r
      · simp only [hr, if_true, if_pos new, if_neg old, needOf_eq amount, true_and]
        exact iff_of_true (Nat.ne_of_gt (ha.need_pos e _ htokens)) new
      · simp only [hr, if_false]
        exact hblocks r'

theorem Owned.visit_done {done : List ReqId}
    (h : Owned a s (inStage5 a d π₁ π₂ share done) (hostInStage5 π₁ π₂ done))
    (ha : cfg.kv.Accounts a) (hnamed : Named d) (hes : s'.executorStates = s.executorStates)
    (hvisit : ∀ e m', s'.kvCacheManagers.get? e = some m' →
      ∃ m, s.kvCacheManagers.get? e = some m ∧ Visit cfg d π₁ π₂ r e m m')
    (hnot : r ∉ done) :
    Owned a s' (inStage5 a d π₁ π₂ share (r :: done)) (hostInStage5 π₁ π₂ (r :: done)) := by
  have hhost : ∀ e, hostInStage5 π₁ π₂ done r e ↔ π₁ r = some (.running e) := by
    intro e
    rw [hostInStage5, if_neg hnot]
  refine (h.visit ha hnamed hes hvisit hhost).of_eq rfl (fun _ he => he) fun r' e _ _ => ?_
  by_cases hr : r' = r
  · subst hr
    simp only [inStage5, hostInStage5, List.mem_cons_self, if_true, shareAfter, if_neg hnot,
      and_self]
  · simp only [inStage5, hostInStage5, List.mem_cons, hr, false_or, if_false, and_self]

end Scheduler

end TeDiServe

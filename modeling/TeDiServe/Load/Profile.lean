import TeDiServe.Load.Control
import TeDiServe.Placement.Budget

/-!
# Lookups in the latency profiles

A worker profiles the latency of a step for the multiples of the block size up to the
largest batch. A lookup takes the next profiled size, and fails above the last one. The
scheduler looks up the projected load of an executor with and without a request, the size
of every request, and for the estimate of a cached step the output lengths of a batch, or
the block size of one request times the number of requests.

When the block size does not divide the largest batch, a load that is allowed may lie above
the last profiled size. A request may also be larger than the largest batch, and where
every request is one block, the blocks of different requests have different sizes.
-/

namespace TeDiServe

/-! ## The profile -/

def profileStep (denoiseBlockSize : ℤ) : ℕ :=
  if 0 < denoiseBlockSize then denoiseBlockSize.toNat else 32

def numTokensList (maxNumBatchedTokens : ℕ) (denoiseBlockSize : ℤ) : List ℕ :=
  ((List.range (maxNumBatchedTokens / profileStep denoiseBlockSize)).map fun i =>
    (i + 1) * profileStep denoiseBlockSize).reverse

/-- `profile_latency`, when all runs succeed and `run` are the average latencies. -/
def profileLatency (maxNumBatchedTokens : ℕ) (denoiseBlockSize : ℤ) (run : ℕ → ℚ) : Dict ℕ ℚ :=
  (numTokensList maxNumBatchedTokens denoiseBlockSize).foldl (fun d n => d.set n (run n))
    Dict.empty

/-- The constructor sorts the sizes. -/
def LatencyProfile.ofResults (results : Dict ℕ ℚ) : LatencyProfile where
  profile := results.entries.insertionSort fun x y => x.1 ≤ y.1
  sorted := by
    have hle : ((results.entries.insertionSort fun x y => x.1 ≤ y.1).map Prod.fst).Pairwise
        (· ≤ ·) := by
      rw [List.pairwise_map]
      exact List.pairwise_insertionSort (fun x y : ℕ × ℚ => x.1 ≤ y.1) _
    have hne : ((results.entries.insertionSort fun x y => x.1 ≤ y.1).map Prod.fst).Nodup :=
      ((List.perm_insertionSort _ _).map Prod.fst).nodup_iff.mpr results.nodup
    exact (hle.and hne).imp fun h => lt_of_le_of_ne h.1 h.2

theorem LatencyProfile.lookup_ofResults (results : Dict ℕ ℚ) (n : ℕ) :
    (LatencyProfile.ofResults results).lookup n = none ↔ n = 0 ∨ ∀ k ∈ results, k < n := by
  unfold LatencyProfile.lookup LatencyProfile.ofResults
  by_cases hn : n = 0
  · simp [hn]
  · simp only [hn, if_false, List.find?_eq_none, List.mem_insertionSort, decide_eq_true_eq, not_le,
      false_or]
    constructor
    · intro h k hk
      obtain ⟨v, hv⟩ := (Dict.mem_iff_exists _ _).mp hk
      exact h (k, v) ((Dict.mem_entries_iff _ _ _).mpr hv)
    · rintro h ⟨k, v⟩ hx
      exact h k (Dict.mem_of_get? (Dict.get?_of_mem_entries hx))

theorem mem_profileLatency (m : ℕ) (b : ℤ) (run : ℕ → ℚ) (k : ℕ) :
    k ∈ profileLatency m b run ↔ ∃ i < m / profileStep b, (i + 1) * profileStep b = k := by
  unfold profileLatency numTokensList
  rw [Dict.mem_foldl_set (fun n => n) run]
  simp

/-- A lookup fails for nothing and above the largest multiple of the step. -/
theorem lookup_profileLatency (m : ℕ) (b : ℤ) (run : ℕ → ℚ) (n : ℕ) :
    (LatencyProfile.ofResults (profileLatency m b run)).lookup n = none ↔
      n = 0 ∨ m / profileStep b * profileStep b < n := by
  rw [LatencyProfile.lookup_ofResults]
  by_cases hn : n = 0
  · simp [hn]
  simp only [hn, false_or]
  constructor
  · intro h
    cases hq : m / profileStep b with
    | zero => omega
    | succ q =>
        apply h
        rw [mem_profileLatency]
        exact ⟨q, by omega, rfl⟩
  · intro h k hk
    obtain ⟨i, hi, rfl⟩ := (mem_profileLatency m b run k).mp hk
    have hle : (i + 1) * profileStep b ≤ m / profileStep b * profileStep b :=
      Nat.mul_le_mul_right _ hi
    omega

/-- All profiles were written by `profile_latency` for the limit of the scheduler. -/
def Config.Profiled {κ : Type} (cfg : Config κ) (denoiseBlockSize : ℤ) : Prop :=
  ∀ d p, cfg.latencyProfiles.get? d = some p →
    ∃ run, p = .ofResults (profileLatency cfg.maxNumScheduledTokens denoiseBlockSize run)

/-! ## The sizes of the requests -/

/-- The sizes of a request that can be looked up: it fits into a step; where output lengths
are added up it has an output; and where the block size of one request is taken for all,
the block sizes are at most `width` and the requests are not smaller. -/
structure Request.Sized {κ : Type} (cfg : Config κ) (width : ℕ) (req : Request) : Prop where
  positive : 0 < req.numTokens
  bounded : req.numTokens ≤ cfg.maxNumScheduledTokens
  output : cfg.cachePrefix = true → cfg.cacheSuffix = false → 0 < req.maxTokens
  block : cfg.cachePrefix = true → cfg.cacheSuffix = true →
    req.denoiseBlockSize ≤ width ∧ width ≤ req.numTokens

instance {κ : Type} (cfg : Config κ) (width : ℕ) (req : Request) :
    Decidable (req.Sized cfg width) :=
  decidable_of_iff (0 < req.numTokens ∧ req.numTokens ≤ cfg.maxNumScheduledTokens ∧
      (cfg.cachePrefix = true → cfg.cacheSuffix = false → 0 < req.maxTokens) ∧
      (cfg.cachePrefix = true → cfg.cacheSuffix = true →
        req.denoiseBlockSize ≤ width ∧ width ≤ req.numTokens))
    ⟨fun ⟨h1, h2, h3, h4⟩ => ⟨h1, h2, h3, h4⟩, fun ⟨h1, h2, h3, h4⟩ => ⟨h1, h2, h3, h4⟩⟩

structure Request.Measured {κ : Type} (cfg : Config κ) (width : ℕ) (req : Request) : Prop
    extends req.Sized cfg width where
  output_le : req.maxTokens ≤ req.numTokens
  block_pos : 0 < req.denoiseBlockSize

namespace Request.Measured

variable {κ : Type} {cfg : Config κ} {width : ℕ} {req req' : Request}

theorem of_constructed (h : req.Constructed) (hs : req.Sized cfg width) :
    req.Measured cfg width := by
  have hwf := h.wellFormed
  have hlen := hwf.length
  exact ⟨hs, by omega, hwf.positive⟩

theorem of_goes (h : req.Measured cfg width) (hg : req.Goes req') : req'.Measured cfg width := by
  obtain ⟨hnum, hmax, hblock⟩ : req'.numTokens = req.numTokens ∧ req'.maxTokens = req.maxTokens ∧
      req'.denoiseBlockSize = req.denoiseBlockSize := by
    rcases hg with hp | ⟨ts, -, hstep⟩
    · exact ⟨Request.numTokens_of_progress hp, (congrArg Request.maxTokens hp :),
        (congrArg Request.denoiseBlockSize hp :)⟩
    · exact ⟨hstep.numTokens, hstep.maxTokens, hstep.denoiseBlockSize⟩
  obtain ⟨⟨h1, h2, h3, h4⟩, h5, h6⟩ := h
  rw [← hnum] at h1 h2 h4 h5
  rw [← hmax] at h3 h5
  rw [← hblock] at h4 h6
  exact ⟨⟨h1, h2, h3, h4⟩, h5, h6⟩

end Request.Measured

namespace Scheduler

variable {κ : Type} {cfg : Config κ} {s s' : Scheduler κ} {π π₁ π₂ : Placement} {width n : ℕ}
  {r : ReqId} {e : ExecutorId} {p : Plan κ}

def AllMeasured (cfg : Config κ) (width : ℕ) (s : Scheduler κ) : Prop :=
  ∀ r req, s.requests.get? r = some req → req.Measured cfg width

/-- It depends on the progress of the requests, and forgetting one does no harm. -/
theorem AllMeasured.of_progress (h : AllMeasured cfg width s)
    (hp : ∀ r, (s'.requests.get? r).map Request.progress =
      (s.requests.get? r).map Request.progress ∨ s'.requests.get? r = none) :
    AllMeasured cfg width s' := by
  intro r req hreq
  rcases hp r with hp | hnone
  · obtain ⟨req₀, hreq₀, heq⟩ := Dict.exists_of_map_eq hp hreq
    exact (h r req₀ hreq₀).of_goes (Or.inl heq)
  · rw [hreq] at hnone
    cases hnone

def InRange (cfg : Config κ) (n : ℕ) : Prop := 0 < n ∧ n ≤ cfg.maxNumScheduledTokens

/-! ## What the searches ask for -/

theorem Refines.size_pos (h : Refines s π) (hm : AllMeasured cfg width s) {l : Loc}
    (hr : π r = some l) : 0 < (s.size r).getD 0 := by
  obtain ⟨req, hreq, -⟩ := h.request hr
  rw [size, hreq]
  exact (hm r req hreq).positive

theorem SearchAsks.inRange {l : Loc} {cur : Option ExecutorId} (h : SearchAsks cfg s r cur n)
    (hs : Refines s π) (hfits : Fits cfg s) (hm : AllMeasured cfg width s) (hr : π r = some l)
    (hcur : ∀ e, cur = some e → π r = some (.running e)) : InRange cfg n := by
  have hpos := hs.size_pos hm hr
  obtain ⟨e, es, hes, ⟨he, rfl⟩ | ⟨rfl, hle⟩⟩ := h
  · -- the load of the executor of the request contains the request
    refine ⟨?_, hfits e es hes⟩
    have hmem : ∀ r' ∈ [r], π r' = some (.running e) := by
      intro r' hr'
      rw [List.mem_singleton.mp hr']
      exact hcur e he
    have hsum := hs.sum_size_le hes (List.nodup_singleton r) hmem
    rw [List.map_singleton, List.sum_singleton] at hsum
    omega
  · exact ⟨by omega, hle⟩

theorem Moves.requests {x y : Scheduler κ × Placement} (h : Moves cfg π₁ x y) :
    y.1.requests = x.1.requests := by
  induction h with
  | refl => rfl
  | tail _ hmove ih =>
      cases hmove with
      | mk hr before after moved others room fresh => exact moved.requests.trans ih

theorem RoundAsks.inRange (h : RoundAsks cfg s π n) (hfits : Fits cfg s)
    (hm : AllMeasured cfg width s) : InRange cfg n := by
  obtain ⟨s', π', r, l, cur, hmoves, hs', hr, hcur, hask⟩ := h
  have hm' : AllMeasured cfg width s' := by
    intro r req hreq
    have heq : s'.requests = s.requests := Moves.requests hmoves
    rw [heq] at hreq
    exact hm r req hreq
  exact hask.inRange hs' (hmoves.fits hfits) hm' hr hcur

theorem PrepareAsks.inRange {env : ScheduleEnv} (h : PrepareAsks cfg env s π n) (hs : Refines s π)
    (hfits : Fits cfg s) (hm : AllMeasured cfg width s) : InRange cfg n := by
  obtain ⟨s₀, π₀, s₁, π₁, had, h₁, hre, hevict, hask⟩ := h
  apply hask.inRange (had.fits hs hfits h₁ hre hevict env.predict)
  have hm₁ : AllMeasured cfg width s₁ := by
    apply hm.of_progress
    intro r
    rw [hre.requests]
    rcases had.requests r with heq | ⟨-, hnone⟩
    · exact Or.inl (by rw [heq])
    · exact Or.inr hnone
  exact hm₁.of_progress fun r =>
    Or.inl ((soft_drainStepEstimateUpdates cfg env.predict s₁).framed.requests r)

/-! ## What the choice of the thresholds asks for -/

theorem total_le {f g : Request → ℕ} {batch : List ReqId}
    (h : ∀ r ∈ batch, ∀ req, s.requests.get? r = some req → f req ≤ g req) :
    s.total f batch ≤ s.total g batch := by
  unfold total
  apply List.sum_le_sum
  intro r hr
  cases hreq : s.requests.get? r with
  | none => exact le_rfl
  | some req => exact h r hr req hreq

theorem le_total (f : Request → ℕ) {batch : List ReqId} {req : Request} (hr : r ∈ batch)
    (hreq : s.requests.get? r = some req) : f req ≤ s.total f batch := by
  have hle := List.single_le_sum (l := batch.map fun r => ((s.requests.get? r).map f).getD 0)
    (fun _ _ => Nat.zero_le _) _ (List.mem_map_of_mem hr)
  rwa [hreq] at hle

theorem BatchAsks.inRange {es : ExecutorState} {batch : List ReqId} (h : BatchAsks cfg s batch n)
    (hs : Refines s π) (hfits : Fits cfg s) (hm : AllMeasured cfg width s)
    (hes : s.executorStates.get? e = some es) (hnodup : batch.Nodup)
    (hbatch : ∀ r ∈ batch, π r = some (.running e)) : InRange cfg n := by
  have htotal : s.total Request.numTokens batch ≤ cfg.maxNumScheduledTokens :=
    (hs.sum_size_le hes hnodup hbatch).trans (hfits e es hes)
  obtain ⟨r, hr, req, hreq, hn⟩ := h
  have hreq' := hm r req hreq
  have hsize := le_total Request.numTokens hr hreq
  have hpos := hreq'.positive
  rcases hn with rfl | rfl | ⟨hp, hsuf, rfl⟩ | ⟨hp, hsuf, rfl⟩
  · exact ⟨hpos, hreq'.bounded⟩
  · exact ⟨by omega, htotal⟩
  · have hout := le_total Request.outputLength hr hreq
    have hle : s.total Request.outputLength batch ≤ s.total Request.numTokens batch :=
      total_le fun r _ req hreq => (hm r req hreq).output_le
    exact ⟨(hreq'.output hp hsuf).trans_le hout, hle.trans htotal⟩
  · have hwide : s.total (fun _ => width) batch ≤ s.total Request.numTokens batch :=
      total_le fun r _ req hreq => ((hm r req hreq).block hp hsuf).2
    have hconst : s.total (fun _ => width) batch = width * batch.length := by
      have hone : ∀ r ∈ batch, ((s.requests.get? r).map fun _ => width).getD 0 = width := by
        intro r hr
        obtain ⟨req, hreq, -⟩ := hs.request (hbatch r hr)
        rw [hreq]
        rfl
      rw [total, List.map_congr_left hone, List.map_const', List.sum_replicate_nat, Nat.mul_comm]
    have hmul : req.denoiseBlockSize * batch.length ≤ width * batch.length :=
      Nat.mul_le_mul_right _ (hreq'.block hp hsuf).1
    refine ⟨Nat.mul_pos hreq'.block_pos (List.length_pos_of_mem hr), ?_⟩
    rw [hconst] at hwide
    exact hmul.trans (hwide.trans htotal)

/-! ## The calls -/

theorem ScheduleAsks.inRange {env : ScheduleEnv} (h : ScheduleAsks cfg env s π n)
    (hs : Refines s π) (hfits : Fits cfg s) (hm : AllMeasured cfg width s) : InRange cfg n := by
  rcases h with h | ⟨p, π₁, π₂, hp, ⟨s₀, π₀, s₁, hcourse⟩, e, batch, hnodup, hbatch, he, hask⟩
  · exact h.inRange hs hfits hm
  · have hm' : AllMeasured cfg width p.scheduler := hm.of_progress fun r =>
      (hp.requests r).imp_right fun h => h.2
    obtain ⟨es, hes⟩ := (Dict.mem_iff_exists _ _).mp
      ((hp.recorded e).mpr (hp.isGone_of_found he))
    exact hask.inRange hp.refines (hcourse.fits hs hfits) hm' hes hnodup hbatch

theorem not_askedInVain {b : ℤ} {Asked : ℕ → Prop} (hprof : cfg.Profiled b)
    (hdvd : profileStep b ∣ cfg.maxNumScheduledTokens)
    (hask : ∀ n, Asked n → InRange cfg n) : ¬AskedInVain cfg Asked .type := by
  intro h
  obtain ⟨d, p, n, hp, hn, hasked⟩ := h rfl
  obtain ⟨run, rfl⟩ := hprof d p hp
  obtain ⟨hpos, hle⟩ := hask n hasked
  rw [lookup_profileLatency, Nat.div_mul_cancel hdvd] at hn
  omega

end Scheduler

namespace Calls

open Scheduler

variable {κ : Type} {cfg : Config κ} {t : Calls κ}

/-- The added requests come from their constructor, and their sizes can be looked up. -/
def Measurable (cfg : Config κ) (width : ℕ) (_ : Calls κ) : Call → Prop
  | .addRequest req => req.Constructed ∧ req.Sized cfg width
  | _ => True

def measurable? (cfg : Config κ) (width : ℕ) (t : Calls κ) (c : Call) : Bool :=
  genuine? t c && match c with
    | .addRequest req => decide (req.Sized cfg width)
    | _ => true

theorem measurable_of_measurable? (cfg : Config κ) (width : ℕ) (t : Calls κ) (c : Call)
    (h : measurable? cfg width t c = true) : Measurable cfg width t c := by
  obtain ⟨hgen, hsized⟩ := Bool.and_eq_true_iff.mp h
  cases c with
  | addRequest req => exact ⟨genuine_of_genuine? t _ hgen, of_decide_eq_true hsized⟩
  | _ => trivial

theorem Reachable.allMeasured {width : ℕ} (h : Reachable cfg (Measurable cfg width) t) :
    AllMeasured cfg width t.scheduler :=
  Reachable.forall_requests (fun _ _ h hg => h.of_goes hg)
    (fun _ _ hadd => Request.Measured.of_constructed hadd.1 hadd.2) h

/-- When the step of the profile divides the limit of a batch, no lookup of a run with such
requests fails: neither call ever unpacks a missing entry. -/
theorem lookups_succeed (cfg : Config κ) (b : ℤ) (width : ℕ) (hprof : cfg.Profiled b)
    (hdvd : profileStep b ∣ cfg.maxNumScheduledTokens)
    (h : Reachable cfg (Measurable cfg width) t) :
    (∀ env, t.scheduler.schedule cfg env ≠ .error .type) ∧
    ∀ now, t.scheduler.updateRequestMaxConfidenceThresholds cfg now ≠ .error .type := by
  have hcons := Reachable.consistent h
  have hm := Reachable.allMeasured h
  obtain ⟨π, hπ⟩ := hcons.refines
  refine ⟨fun env herr => ?_, fun now herr => ?_⟩
  · have hask := (ensures_of_error
      (ensures_schedule_course env hπ hcons.ledger hcons.keyed) herr).2
    exact not_askedInVain hprof hdvd (fun n hn => hn.inRange hπ (Reachable.fits h) hm) hask
  · obtain ⟨r, hr, herr⟩ := ensures_of_error
      (ensures_updateRequestMaxConfidenceThresholds hcons.ledger.apart) herr
    obtain ⟨req, hreq⟩ : ∃ req, t.scheduler.requests.get? r = some req :=
      (Dict.mem_iff_exists _ _).mp ((hcons.ledger.known r).mpr (List.mem_append.mp hr))
    rcases herr with herr | herr
    · have hprog : req.unmaskProgress = .error .type := by
        rwa [unmaskProgress, subscript_of_get? _ hreq] at herr
      unfold Request.unmaskProgress at hprog
      split_ifs at hprog
      cases hprog
    · have hself : (· = req.numTokens) req.numTokens := rfl
      have hask := (ensures_of_error (ensures_isPossibleToMeetSlo cfg hreq hself
        ((t.scheduler.isSome_getState?_iff r).mpr hr) now) herr).2
      refine not_askedInVain hprof hdvd ?_ hask
      rintro n rfl
      exact ⟨(hm r req hreq).positive, (hm r req hreq).bounded⟩

def profiledByTwo (caching : Bool) (limit : ℕ) : Config Unit :=
  { Config.small caching caching none with
    maxNumScheduledTokens := limit
    latencyProfiles := Dict.empty.set 1 (.ofResults (profileLatency limit 2 fun _ => 1)) }

theorem profiled_profiledByTwo (caching : Bool) (limit : ℕ) :
    (profiledByTwo caching limit).Profiled 2 := by
  intro d p hp
  have hset : (Dict.empty.set 1 (.ofResults (profileLatency limit 2 fun _ => 1)) :
      Dict ℕ LatencyProfile).get? d = some p := hp
  rw [Dict.get?_set, Dict.get?_empty] at hset
  split_ifs at hset
  cases hset
  exact ⟨fun _ => 1, rfl⟩

/-- Two requests of five tokens with blocks of two, on an executor with steps of at most a
hundred tokens. -/
theorem lookups_succeed_small : ∃ t : Calls Unit,
    Reachable (profiledByTwo true 100) (Measurable (profiledByTwo true 100) 2) t ∧
    t.scheduler.requests.keys = ["a", "b"] ∧
    (∀ env, t.scheduler.schedule (profiledByTwo true 100) env ≠ .error .type) ∧
    ∀ now, t.scheduler.updateRequestMaxConfidenceThresholds (profiledByTwo true 100) now ≠
      .error .type := by
  obtain ⟨t, hreach, hkeys⟩ := exists_of_ensures
    (reachable_of_replay (profiledByTwo true 100)
      (measurable_of_measurable? (profiledByTwo true 100) 2) [(0, [0])]
      [.addRequest (Request.small "a"), .schedule .still, .addRequest (Request.small "b")])
    (Q := fun t => t.scheduler.requests.keys = ["a", "b"]) (by decide +kernel)
  exact ⟨t, hreach, hkeys,
    lookups_succeed _ 2 2 (profiled_profiledByTwo true 100) (by decide) hreach⟩

/-- With steps of at most five tokens the largest profiled size is four, and a request of
five tokens, which fits, makes the call raise. -/
theorem lookup_above_grid_fails : (profiledByTwo false 5).Profiled 2 ∧ ∃ t : Calls Unit,
    Reachable (profiledByTwo false 5) Genuine t ∧
    (∀ r req, t.scheduler.requests.get? r = some req →
      req.numTokens ≤ (profiledByTwo false 5).maxNumScheduledTokens) ∧
    t.scheduler.schedule (profiledByTwo false 5) .still = .error .type := by
  refine ⟨profiled_profiledByTwo false 5, ?_⟩
  obtain ⟨t, hreach, hsize, hfail⟩ := exists_of_ensures
    (reachable_of_replay (profiledByTwo false 5) genuine_of_genuine? [(0, [0])]
      [.addRequest (Request.small "a")])
    (Q := fun t =>
      (t.scheduler.requests.entries.all fun x => x.2.numTokens ≤ 5) = true ∧
      (t.scheduler.schedule (profiledByTwo false 5) .still).Ensures (· = .type)
        fun _ => False) (by decide +kernel)
  refine ⟨t, hreach, ?_, ?_⟩
  · intro r req hreq
    have hentry := List.all_eq_true.mp hsize (r, req) ((Dict.mem_entries_iff _ _ _).mpr hreq)
    exact of_decide_eq_true hentry
  · cases herr : t.scheduler.schedule (profiledByTwo false 5) .still with
    | ok x => exact (ensures_of_ok hfail herr).elim
    | error err => rw [ensures_of_error hfail herr]

end Calls

end TeDiServe

import TeDiServe.Placement.Tables

/-!
# Choosing a threshold never disturbs the placement

The search for a threshold reads profiles, predictions and the sizes of the batch.
It finds every request it looks up, and it finds a threshold as long as the index
that load control has given to the request is one of a candidate.
-/

namespace TeDiServe

def Config.IdxOk {κ : Type} (cfg : Config κ) (i : ℕ) : Prop :=
  cfg.candidateConfidenceThresholds ≠ [] → i < cfg.candidateConfidenceThresholds.length

namespace Scheduler

variable {κ : Type} {cfg : Config κ} {s s' : Scheduler κ} {π : Placement} {r : ReqId}
  {e : ExecutorId} {Asked : ℕ → Prop}

/-! ## What is looked up -/

def total (s : Scheduler κ) (f : Request → ℕ) (batch : List ReqId) : ℕ :=
  (batch.map fun r => ((s.requests.get? r).map f).getD 0).sum

/-- The sizes that the choice of the thresholds of a batch asks for: those of its requests,
that of the whole batch, and with caching that of a step without the prompts, or of one block
of each request. -/
def BatchAsks (cfg : Config κ) (s : Scheduler κ) (batch : List ReqId) (n : ℕ) : Prop :=
  ∃ r ∈ batch, ∃ req, s.requests.get? r = some req ∧
    (n = req.numTokens ∨ n = s.total Request.numTokens batch ∨
      cfg.cachePrefix = true ∧ cfg.cacheSuffix = false ∧
        n = s.total Request.outputLength batch ∨
      cfg.cachePrefix = true ∧ cfg.cacheSuffix = true ∧
        n = req.denoiseBlockSize * batch.length)

theorem total_of_progress (f : Request → ℕ) (hf : ∀ req : Request, f req.progress = f req)
    (h : ∀ r, (s'.requests.get? r).map Request.progress =
      (s.requests.get? r).map Request.progress) (batch : List ReqId) :
    s'.total f batch = s.total f batch := by
  have hone : ∀ (t : Scheduler κ) r, (t.requests.get? r).map f =
      ((t.requests.get? r).map Request.progress).map f := by
    intro t r
    rw [Option.map_map]
    exact congrArg (fun g => (t.requests.get? r).map g) (funext fun req => (hf req).symm)
  simp only [total, hone, h]

theorem BatchAsks.of_progress {batch : List ReqId} {n : ℕ} (hask : BatchAsks cfg s' batch n)
    (h : ∀ r, (s'.requests.get? r).map Request.progress =
      (s.requests.get? r).map Request.progress) : BatchAsks cfg s batch n := by
  obtain ⟨r, hr, req, hreq, hn⟩ := hask
  obtain ⟨req₀, hreq₀, hprog⟩ := Dict.exists_of_map_eq (h r) hreq
  have hsize : req.denoiseBlockSize = req₀.denoiseBlockSize :=
    (congrArg Request.denoiseBlockSize hprog :)
  rw [total_of_progress Request.numTokens (fun _ => rfl) h,
    total_of_progress Request.outputLength (fun _ => rfl) h, hsize,
    Request.numTokens_of_progress hprog] at hn
  exact ⟨r, hr, req₀, hreq₀, hn⟩

theorem ensures_getMinTimeLeft (cfg : Config κ) {req : Request}
    (hreq : s.requests.get? r = some req) (hask : Asked req.numTokens) :
    (s.getMinTimeLeft cfg r).Ensures (Unprofiled cfg Asked) fun _ => True := by
  unfold getMinTimeLeft
  rw [ensures_bind, subscript_of_get? _ hreq, ensures_ok, ensures_bind]
  exact (ensures_getProfileLatency cfg _ hask).imp fun _ _ => trivial

theorem ensures_isPossibleToMeetSlo (cfg : Config κ) {req : Request}
    (hreq : s.requests.get? r = some req) (hask : Asked req.numTokens)
    (hstate : (s.getState? r).isSome) (now : ℚ) :
    (s.isPossibleToMeetSlo cfg r now).Ensures (Unprofiled cfg Asked) fun _ =>
      cfg.candidateConfidenceThresholds ≠ [] := by
  obtain ⟨rs, hrs⟩ := Option.isSome_iff_exists.mp hstate
  unfold isPossibleToMeetSlo
  rw [hrs]
  cases hlast : cfg.candidateConfidenceThresholds.getLast? with
  | none => exact Unprofiled.of_ne rfl (by simp)
  | some c =>
      have hne : cfg.candidateConfidenceThresholds ≠ [] := by
        intro hnil
        rw [hnil] at hlast
        cases hlast
      simp only [ensures_bind]
      rw [ensures_subscript]
      refine ⟨fun steps _ => ?_, fun _ => Unprofiled.of_ne rfl (by simp)⟩
      refine (ensures_getMinTimeLeft cfg hreq hask).imp fun t _ => ?_
      rw [subscript_of_get? _ hreq, ensures_ok]
      exact hne

theorem ensures_getNumStepsLeftByType (cfg : Config κ) (hr : r ∈ s.requests) (conf : ℚ) :
    (s.getNumStepsLeftByType cfg r conf).Ensures (Unprofiled cfg Asked) fun _ => True := by
  obtain ⟨req, hreq⟩ := (Dict.mem_iff_exists _ _).mp hr
  unfold getNumStepsLeftByType
  cases s.getState? r with
  | none => trivial
  | some rs =>
      simp only [ensures_bind]
      rw [ensures_subscript]
      refine ⟨fun steps _ => ?_, fun _ => Unprofiled.of_ne rfl (by simp)⟩
      split_ifs
      · trivial
      · rw [ensures_bind, subscript_of_get? _ hreq, ensures_ok]
        trivial
      · exact Unprofiled.of_ne rfl (by simp)

theorem ensures_sumOverRequests (f : Request → ℕ) {batch : List ReqId}
    (hbatch : ∀ r ∈ batch, r ∈ s.requests) {E : PyError → Prop} :
    (s.sumOverRequests f batch).Ensures E fun n => n = s.total f batch := by
  unfold sumOverRequests total
  rw [ensures_bind]
  have hone : ∀ r ∈ batch, (do
      let req ← subscript s.requests .requests r
      pure (f req) : Except PyError ℕ).Ensures E
        fun n => n = ((s.requests.get? r).map f).getD 0 := by
    intro r hr
    obtain ⟨req, hreq⟩ := (Dict.mem_iff_exists _ _).mp (hbatch r hr)
    rw [ensures_bind, subscript_of_get? _ hreq, ensures_ok, hreq]
    rfl
  apply (ensures_mapM batch hone).imp
  intro ns hns
  rw [ensures_pure]
  apply congrArg List.sum
  clear hone hbatch
  induction hns with
  | nil => rfl
  | cons hn _ ih => rw [List.map_cons, hn, ih]

theorem ensures_cacheStepLatency (cfg : Config κ) (d : ℕ) {batch : List ReqId} (hmem : r ∈ batch)
    (hbatch : ∀ r ∈ batch, r ∈ s.requests) :
    (s.cacheStepLatency cfg r d batch).Ensures (Unprofiled cfg (BatchAsks cfg s batch))
      fun _ => True := by
  obtain ⟨req, hreq⟩ := (Dict.mem_iff_exists _ _).mp (hbatch r hmem)
  unfold cacheStepLatency
  split_ifs with hcaching honly hpre
  · trivial
  · rw [Bool.and_eq_true, Bool.not_eq_true'] at honly
    refine (ensures_sumOverRequests _ hbatch).bind fun n hn => ?_
    refine (ensures_getProfileLatency cfg _ ?_).bind fun _ _ => trivial
    exact ⟨r, hmem, req, hreq, Or.inr (Or.inr (Or.inl ⟨honly.1, honly.2, hn⟩))⟩
  · have hsuffix : cfg.cacheSuffix = true := by
      rw [hpre, Bool.true_and, Bool.not_eq_true', Bool.not_eq_false] at honly
      exact honly
    rw [ensures_bind, subscript_of_get? _ hreq, ensures_ok, ensures_bind]
    refine (ensures_getProfileLatency cfg _ ?_).imp fun _ _ => trivial
    exact ⟨r, hmem, req, hreq, Or.inr (Or.inr (Or.inr ⟨hpre, hsuffix, rfl⟩))⟩
  · exact Unprofiled.of_ne rfl (by simp)

theorem ensures_sloMet (cfg : Config κ) (d : ℕ) {batch : List ReqId} (hmem : r ∈ batch)
    (hbatch : ∀ r ∈ batch, r ∈ s.requests) (conf now : ℚ) :
    (s.sloMet cfg r d batch conf now).Ensures (Unprofiled cfg (BatchAsks cfg s batch))
      fun _ => True := by
  have hr := hbatch r hmem
  obtain ⟨req, hreq⟩ := (Dict.mem_iff_exists _ _).mp hr
  unfold sloMet getEstimatedTimeLeft
  rw [ensures_bind, ensures_pyAssert]
  refine ⟨fun _ => ?_, fun hf => by simp [hmem] at hf⟩
  simp only [ensures_bind]
  refine (ensures_sumOverRequests _ hbatch).imp fun n hn => ?_
  refine (ensures_getProfileLatency cfg _ ?_).imp fun full _ => ?_
  · exact ⟨r, hmem, req, hreq, Or.inr (Or.inl hn)⟩
  refine (ensures_getNumStepsLeftByType cfg hr conf).imp fun steps _ => ?_
  refine (ensures_cacheStepLatency cfg d hmem hbatch).imp fun cached _ => ?_
  rw [ensures_pure, subscript_of_get? _ hreq, ensures_ok]
  trivial

theorem ensures_scanThresholds (cfg : Config κ) (clock : ℕ → ℚ) (d : ℕ) {batch : List ReqId}
    (hmem : r ∈ batch) (hbatch : ∀ r ∈ batch, r ∈ s.requests) (cs : List ℚ) (k : ℕ)
    (best : Option ℚ) (h : cs ≠ [] ∨ best ≠ none) :
    (s.scanThresholds cfg clock r d batch cs k best).Ensures
      (Unprofiled cfg (BatchAsks cfg s batch)) fun b => b ≠ none := by
  induction cs generalizing k best with
  | nil => exact h.resolve_left fun hne => hne rfl
  | cons c cs ih =>
      unfold scanThresholds
      refine (ensures_sloMet cfg d hmem hbatch c _).bind fun met _ => ?_
      split_ifs
      · exact Option.some_ne_none c
      · exact ih (k + 1) (some c) (Or.inr (Option.some_ne_none c))

/-! ## The choice -/

theorem ensures_selectConfidence (cfg : Config κ) (clock : ℕ → ℚ) {rs : RequestState}
    (hrs : s.requestStates.get? r = some rs) (hidx : cfg.IdxOk rs.maxConfidenceThresholdIdx)
    (d : ℕ) {batch : List ReqId} (hmem : r ∈ batch) (hbatch : ∀ r ∈ batch, r ∈ s.requests) :
    (s.selectConfidence cfg clock rs r d batch).Ensures
      (Unprofiled cfg (BatchAsks cfg s batch)) fun b => b ≠ none := by
  have hstate : (s.getState? r).isSome := by simp [getState?, hrs]
  obtain ⟨req, hreq⟩ := (Dict.mem_iff_exists _ _).mp (hbatch r hmem)
  unfold selectConfidence
  by_cases hstale : rs.confidenceThreshold = none ∨ rs.confidenceThresholdDirty = true
  · rw [if_pos hstale, ensures_bind]
    refine (ensures_isPossibleToMeetSlo cfg hreq ⟨r, hmem, req, hreq, Or.inl rfl⟩ hstate
      (clock 0)).imp fun possible hne => ?_
    by_cases hp : possible = true
    · rw [if_pos hp]
      apply ensures_scanThresholds cfg clock d hmem hbatch
      refine Or.inl ?_
      rw [Ne, List.drop_eq_nil_iff, not_le]
      exact hidx hne
    · rw [if_neg hp]
      cases cfg.candidateConfidenceThresholds.getLast? with
      | none => exact Unprofiled.of_ne rfl (by simp)
      | some c => exact Option.some_ne_none c
  · rw [if_neg hstale]
    exact fun hnone => hstale (Or.inl hnone)

theorem ensures_setConfidence (cfg : Config κ) (clock : ReqId → ℕ → ℚ) (h : Refines s π)
    (hidx : ∀ r rs, s.requestStates.get? r = some rs → cfg.IdxOk rs.maxConfidenceThresholdIdx)
    (hr : π r = some (.running e)) {batch : List ReqId} (hmem : r ∈ batch)
    (hbatch : ∀ r ∈ batch, r ∈ s.requests) (d : Dict ReqId ℚ) :
    (setConfidence cfg clock e batch (s, d) r).Ensures
      (Unprofiled cfg (BatchAsks cfg s batch)) fun x => Soft s x.1 ∧ ∃ c, x.2 = d.set r c := by
  obtain ⟨rs, hrs, -⟩ := h.represents hr
  obtain ⟨es, hes, -⟩ := h.executor (Placement.host?_of_running hr)
  unfold setConfidence
  simp only [ensures_bind]
  rw [subscript_of_get? _ hrs, ensures_ok, subscript_of_get? _ hes, ensures_ok]
  refine (ensures_selectConfidence cfg _ hrs (hidx r rs hrs) _ hmem hbatch).imp fun b hb => ?_
  cases b with
  | none => exact absurd rfl hb
  | some c =>
      simp only [ensures_bind]
      rw [ensures_modifyRequestState hrs, ensures_pure]
      refine ⟨Soft.setRequestState hrs ?_, c, rfl⟩
      rfl

end Scheduler

end TeDiServe

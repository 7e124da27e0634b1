import TeDiServe.Engine.Calls
import TeDiServe.Request.Progress
import Mathlib.Algebra.Order.Ring.Nat

/-!
# The predictions of new requests

A request starts with predictions that the model of the step estimator made when it was
loaded, for a grid of output lengths. The lengths of the grid are multiples of the
configured block size, or of 32 when every request is one block. A request has to have a
length that its block size divides, which says nothing in the second case.
-/

namespace TeDiServe

structure StepStats where
  id : String
  timestamp : String
  numDenoiseRan : ℕ
  numUnmaskedTokens : ℕ
  numCurUnmaskedTokens : ℕ
  outputLength : ℕ
  block : ℕ
  blockNumDenoiseRan : ℕ
  blockNumUnmaskedTokens : ℕ
  blockSize : ℕ
  confidenceThreshold : ℚ
  maxConfidenceThreshold : ℚ
  minConfidence : ℚ
  q25Confidence : ℚ
  medianConfidence : ℚ
  q75Confidence : ℚ
  avgConfidence : ℚ
  outputMinConfidence : ℚ
  outputQ25Confidence : ℚ
  outputMedianConfidence : ℚ
  outputQ75Confidence : ℚ
  outputAvgConfidence : ℚ

/-- A model of the step estimator, which predicts every row of its input by itself, and
what it reads of the configuration. -/
structure EstimatorModel where
  predict : StepStats → ℚ
  candidateConfidenceThresholds : List ℚ
  denoiseBlockSize : ℤ
  maxModelLen : ℕ

namespace EstimatorModel

variable {m : EstimatorModel} {c : ℚ} {n : ℕ}

def outputLengthBucket (m : EstimatorModel) : ℕ :=
  if 0 < m.denoiseBlockSize then m.denoiseBlockSize.toNat else 32

/-- `range(bucket, max_output_length + 1, bucket)`. -/
def outputLengthBuckets (m : EstimatorModel) : List ℕ :=
  let bucket := m.outputLengthBucket
  let maxOutputLength := max bucket (m.maxModelLen / bucket * bucket)
  List.range' bucket ((maxOutputLength + 1 - bucket + (bucket - 1)) / bucket) bucket

def syntheticStats (m : EstimatorModel) (outputLength : ℕ) (confidenceThreshold : ℚ) :
    StepStats where
  id := "__initial_default__"
  timestamp := ""
  numDenoiseRan := 0
  numUnmaskedTokens := 0
  numCurUnmaskedTokens := 0
  outputLength
  block := 0
  blockNumDenoiseRan := 0
  blockNumUnmaskedTokens := 0
  blockSize := if 0 < m.denoiseBlockSize then m.denoiseBlockSize.toNat else 32
  confidenceThreshold
  maxConfidenceThreshold := confidenceThreshold
  minConfidence := 0
  q25Confidence := 0
  medianConfidence := 0
  q75Confidence := 0
  avgConfidence := 0
  outputMinConfidence := 0
  outputQ25Confidence := 0
  outputMedianConfidence := 0
  outputQ75Confidence := 0
  outputAvgConfidence := 0

def buildInitialDefaultPredictions (m : EstimatorModel) : Dict (ℚ × ℕ) ℚ :=
  let syntheticStats := m.outputLengthBuckets.flatMap fun n =>
    m.candidateConfidenceThresholds.map (m.syntheticStats n)
  syntheticStats.foldl (fun d stats =>
    d.set (stats.confidenceThreshold, stats.outputLength) (m.predict stats)) Dict.empty

def getInitialDefaultPredictions (m : EstimatorModel) (outputLength : ℕ) : Dict ℚ ℚ :=
  m.candidateConfidenceThresholds.foldl (fun d c =>
    d.set c (m.buildInitialDefaultPredictions.getD (c, outputLength) 0)) Dict.empty

theorem outputLengthBucket_pos (m : EstimatorModel) : 0 < m.outputLengthBucket := by
  unfold outputLengthBucket
  split_ifs <;> omega

theorem mem_outputLengthBuckets (h : n ≤ m.maxModelLen) :
    n ∈ m.outputLengthBuckets ↔ 0 < n ∧ m.outputLengthBucket ∣ n := by
  have hpos := m.outputLengthBucket_pos
  unfold outputLengthBuckets
  generalize m.outputLengthBucket = b at hpos
  dsimp only
  have hmax : max b (m.maxModelLen / b * b) = max 1 (m.maxModelLen / b) * b := by
    rw [← Nat.mul_max_mul_right, Nat.one_mul]
  have hcount : (max b (m.maxModelLen / b * b) + 1 - b + (b - 1)) / b =
      max 1 (m.maxModelLen / b) := by
    have hle : b ≤ max 1 (m.maxModelLen / b) * b := hmax ▸ le_max_left _ _
    rw [hmax, show ∀ x, b ≤ x → x + 1 - b + (b - 1) = x from by omega, Nat.mul_div_cancel _ hpos]
    exact hle
  rw [List.mem_range', hcount]
  constructor
  · rintro ⟨i, -, rfl⟩
    exact ⟨Nat.add_pos_left hpos _, i + 1, by rw [Nat.mul_succ, Nat.add_comm]⟩
  · rintro ⟨hn, k, rfl⟩
    have hk : 0 < k := Nat.pos_of_mul_pos_left hn
    have hle : k ≤ m.maxModelLen / b := (Nat.le_div_iff_mul_le hpos).mpr (Nat.mul_comm b k ▸ h)
    refine ⟨k - 1, by omega, ?_⟩
    rw [Nat.add_comm, ← Nat.mul_succ, Nat.succ_eq_add_one, Nat.sub_add_cancel hk]

theorem get?_buildInitialDefaultPredictions (hc : c ∈ m.candidateConfidenceThresholds) (n : ℕ) :
    m.buildInitialDefaultPredictions.get? (c, n) =
      if n ∈ m.outputLengthBuckets then some (m.predict (m.syntheticStats n c)) else none := by
  have hstats : (m.outputLengthBuckets.flatMap fun n =>
        m.candidateConfidenceThresholds.map (m.syntheticStats n)) =
      (m.outputLengthBuckets.flatMap fun n => m.candidateConfidenceThresholds.map fun c => (c, n)
        ).map fun k => m.syntheticStats k.2 k.1 := by
    simp only [List.map_flatMap, List.map_map]
    rfl
  rw [buildInitialDefaultPredictions, hstats, List.foldl_map]
  have hset := Dict.get?_foldl_set fun k : ℚ × ℕ => m.predict (m.syntheticStats k.2 k.1)
  dsimp only [syntheticStats] at hset ⊢
  rw [hset]
  simp [hc]

theorem get?_getInitialDefaultPredictions (hc : c ∈ m.candidateConfidenceThresholds) (n : ℕ) :
    (m.getInitialDefaultPredictions n).get? c =
      some (m.buildInitialDefaultPredictions.getD (c, n) 0) :=
  (Dict.get?_foldl_set _ _ _ _).trans (if_pos hc)

end EstimatorModel

namespace Scheduler

theorem ensures_addRequest_predictions {κ : Type} (cfg : Config κ) (s : Scheduler κ)
    (req : Request) :
    (s.addRequest cfg req).Ensures (fun _ => False) fun s' => ∃ rs,
      (s'.requestStates.get? req.requestId = some rs ∨
        s'.deferredRequestStates.get? req.requestId = some rs) ∧
      rs.predNumStepsLeft = cfg.getInitialDefaultPredictions req := by
  unfold addRequest
  dsimp only
  split_ifs
  · exact ⟨_, Or.inr (Dict.get?_set_self _ _ _), rfl⟩
  · unfold admitRequest
    rw [subscript_of_get? _ (Dict.get?_set_self _ _ _)]
    exact ⟨_, Or.inl (Dict.get?_set_self _ _ _), rfl⟩

end Scheduler

/-- A request that was built and fits the model starts with the predictions for its
length exactly if it is not empty, and its length is a multiple of 32 where every request
is one block. -/
theorem EstimatorModel.initial_predictions_computed_iff {κ : Type} {m : EstimatorModel}
    {cfg : Config κ}
    (hcfg : cfg.getInitialDefaultPredictions = fun req =>
      m.getInitialDefaultPredictions req.outputLength)
    {r : ReqId} {client : ℕ} {arrival : ℚ} {slo : Option ℚ} {prompt : List Token} {mask : Token}
    {maxTokens : ℕ} {req : Request}
    (hreq : Request.create r client arrival slo prompt mask maxTokens m.denoiseBlockSize = .ok req)
    (hlen : req.numTokens ≤ m.maxModelLen) (s : Scheduler κ) {c : ℚ}
    (hc : c ∈ m.candidateConfidenceThresholds) :
    ((c, req.outputLength) ∈ m.buildInitialDefaultPredictions ∧
      (s.addRequest cfg req).Ensures (fun _ => False) fun s' => ∃ rs,
        (s'.requestStates.get? req.requestId = some rs ∨
          s'.deferredRequestStates.get? req.requestId = some rs) ∧
        rs.predNumStepsLeft.get? c = some (m.predict (m.syntheticStats req.outputLength c))) ↔
      0 < maxTokens ∧ (0 < m.denoiseBlockSize ∨ 32 ∣ maxTokens) := by
  have hfresh := Request.fresh_create hreq
  have hwell := Request.wellFormed_create hreq
  have hout : req.outputLength = maxTokens := hfresh.maxTokens
  have hsize : req.denoiseBlockSize =
      if 0 < m.denoiseBlockSize then m.denoiseBlockSize.toNat else maxTokens := by
    unfold Request.create at hreq
    dsimp only at hreq
    generalize (if 0 < m.denoiseBlockSize then m.denoiseBlockSize.toNat else maxTokens) = b
      at hreq ⊢
    split_ifs at hreq
    cases hreq
    rfl
  have hgrid : req.outputLength ∈ m.outputLengthBuckets ↔
      0 < maxTokens ∧ (0 < m.denoiseBlockSize ∨ 32 ∣ maxTokens) := by
    rw [hout, mem_outputLengthBuckets]
    · refine and_congr_right fun _ => ?_
      unfold outputLengthBucket
      split_ifs with hblock
      · have hdivides := hwell.divides
        rw [hsize, if_pos hblock, hfresh.maxTokens] at hdivides
        exact iff_of_true hdivides (Or.inl hblock)
      · simp [hblock]
    · have hle := hwell.length ▸ hlen
      rw [hfresh.maxTokens] at hle
      exact (Nat.le_add_left _ _).trans hle
  rw [← hgrid]
  have htable := get?_buildInitialDefaultPredictions hc req.outputLength
  constructor
  · rintro ⟨hmem, -⟩
    by_contra hnot
    rw [if_neg hnot] at htable
    exact (Dict.get?_eq_none_iff _ _).mp htable hmem
  · intro hin
    rw [if_pos hin] at htable
    refine ⟨Dict.mem_of_get? htable, (s.ensures_addRequest_predictions cfg req).imp ?_⟩
    rintro s' ⟨rs, hrs, hpred⟩
    refine ⟨rs, hrs, ?_⟩
    rw [hpred, hcfg, get?_getInitialDefaultPredictions hc, Dict.getD_of_get? htable]

def EstimatorModel.small (denoiseBlockSize : ℤ) : EstimatorModel :=
  ⟨fun stats => stats.outputLength / 2, [9 / 10], denoiseBlockSize, 64⟩

def EstimatorModel.smallConfig (denoiseBlockSize : ℤ) : Config Unit :=
  { Config.small true true none with
    getInitialDefaultPredictions := fun req =>
      (small denoiseBlockSize).getInitialDefaultPredictions req.outputLength }

theorem EstimatorModel.initial_predictions_computed_small :
    (9 / 10, 4) ∈ (small 2).buildInitialDefaultPredictions ∧
      ((Scheduler.empty .empty).addRequest (smallConfig 2) (Request.small "a")).Ensures
        (fun _ => False) fun s' => ∃ rs,
          (s'.requestStates.get? "a" = some rs ∨ s'.deferredRequestStates.get? "a" = some rs) ∧
          rs.predNumStepsLeft.get? (9 / 10) =
            some ((small 2).predict ((small 2).syntheticStats 4 (9 / 10))) := by
  have hcfg : (smallConfig 2).getInitialDefaultPredictions = fun req =>
      (small 2).getInitialDefaultPredictions req.outputLength := rfl
  have hreq : Request.create "a" 0 0 none [1] 0 4 (small 2).denoiseBlockSize =
      .ok (Request.small "a") := rfl
  exact (initial_predictions_computed_iff hcfg hreq (by decide) _ (by decide +kernel)).mpr
    ⟨by decide, Or.inl (by decide)⟩

/-- Where every request is one block, a request of 50 tokens starts with the fallback. -/
theorem EstimatorModel.initial_prediction_missing : ∃ req,
    Request.create "a" 0 0 none [1] 0 50 (-1) = .ok req ∧ req.numTokens ≤ (small (-1)).maxModelLen ∧
      (9 / 10, req.outputLength) ∉ (small (-1)).buildInitialDefaultPredictions ∧
      (small (-1)).predict ((small (-1)).syntheticStats req.outputLength (9 / 10)) = 25 ∧
      ((Scheduler.empty .empty).addRequest (smallConfig (-1)) req).Ensures (fun _ => False)
        fun s' => (s'.requestStates.get? "a").bind (fun rs => rs.predNumStepsLeft.get? (9 / 10)) =
          some 0 :=
  ⟨_, rfl, by decide +kernel, by decide +kernel, by decide +kernel, by decide +kernel⟩

end TeDiServe

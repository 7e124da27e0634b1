import TeDiServe.Request.Basic

/-!
# The progress of a request

A request that comes from its constructor and is only changed by the results of
steps keeps its counters in step with each other: the blocks before the current one
are complete, and a request that was not ended has positions left. The counters
only speak of numbers of pairs; which positions were emitted is a matter of the
worker.
-/

namespace TeDiServe

namespace Request

variable {req req' : Request} {tokenIds : List (ℕ × Token)}

def Constructed (req : Request) : Prop :=
  ∃ r c a slo prompt mask n b, create r c a slo prompt mask n b = .ok req

/-- What the tokens of a step make of a request, and whether it is complete then. A
step without tokens is not counted. -/
def afterStep (req : Request) (tokenIds : List (ℕ × Token)) : Except PyError (Request × Bool) :=
  if tokenIds = [] then pure (req, false)
  else do
    let req ← req.updateFromOutput tokenIds
    pure req.checkStop

structure WellFormed (req : Request) : Prop where
  positive : 0 < req.denoiseBlockSize
  divides : req.denoiseBlockSize ∣ req.maxTokens
  length : req.numTokens = req.promptTokenIds.length + req.maxTokens
  start : req.curBlockStart = req.promptTokenIds.length + req.curBlock * req.denoiseBlockSize
  count : req.numUnmaskedTokens =
    req.curBlock * req.denoiseBlockSize + req.curBlockNumUnmaskedTokens
  incomplete : req.curBlockNumUnmaskedTokens < req.denoiseBlockSize
  live : req.numUnmaskedTokens < req.maxTokens ∨ req.maxTokens = 0 ∧ req.numUnmaskedTokens = 0

theorem wellFormed_create {r : ReqId} {c : ℕ} {a : ℚ} {slo : Option ℚ} {prompt : List Token}
    {mask : Token} {n : ℕ} {b : ℤ} (h : create r c a slo prompt mask n b = .ok req) :
    req.WellFormed := by
  unfold create at h
  dsimp only at h
  generalize hb : (if 0 < b then b.toNat else n) = size at h
  split_ifs at h with hzero hmod
  cases h
  refine ⟨Nat.pos_of_ne_zero hzero, Nat.dvd_of_mod_eq_zero (not_not.mp hmod), ?_, ?_, ?_, ?_, ?_⟩
  · simp [numTokens]
  · simp
  · simp [numUnmaskedTokens]
  · exact Nat.pos_of_ne_zero hzero
  · rcases Nat.eq_zero_or_pos n with rfl | hn
    · exact Or.inr ⟨rfl, rfl⟩
    · exact Or.inl hn

structure Fresh (req : Request) (prompt : List Token) (mask : Token) (n : ℕ) : Prop where
  promptTokenIds : req.promptTokenIds = prompt
  maxTokens : req.maxTokens = n
  allTokenIds : req.allTokenIds = prompt ++ List.replicate n mask
  unmaskedTokenIds : req.unmaskedTokenIds = []
  numDenoiseRan : req.numDenoiseRan = 0
  curBlockStart : req.curBlockStart = prompt.length
  curBlockNumUnmaskedTokens : req.curBlockNumUnmaskedTokens = 0
  status : req.status = .waiting

theorem fresh_create {r : ReqId} {c : ℕ} {a : ℚ} {slo : Option ℚ} {prompt : List Token}
    {mask : Token} {n : ℕ} {b : ℤ} (h : create r c a slo prompt mask n b = .ok req) :
    req.Fresh prompt mask n := by
  unfold create at h
  dsimp only at h
  generalize (if 0 < b then b.toNat else n) = size at h
  split_ifs at h
  cases h
  exact ⟨rfl, rfl, rfl, rfl, rfl, rfl, rfl, rfl⟩

theorem Constructed.wellFormed (h : req.Constructed) : req.WellFormed := by
  obtain ⟨r, c, a, slo, prompt, mask, n, b, hreq⟩ := h
  exact wellFormed_create hreq

theorem Constructed.fresh (h : req.Constructed) :
    ∃ mask, req.Fresh req.promptTokenIds mask req.maxTokens := by
  obtain ⟨r, c, a, slo, prompt, mask, n, b, hreq⟩ := h
  have hfresh := fresh_create hreq
  rw [← hfresh.promptTokenIds, ← hfresh.maxTokens] at hfresh
  exact ⟨mask, hfresh⟩

namespace WellFormed

variable (h : req.WellFormed)
include h

theorem block_le (hlive : req.numUnmaskedTokens < req.maxTokens) :
    (req.curBlock + 1) * req.denoiseBlockSize ≤ req.maxTokens := by
  obtain ⟨k, hk⟩ := h.divides
  have hlt : req.curBlock * req.denoiseBlockSize < req.denoiseBlockSize * k := by
    rw [← hk]
    exact lt_of_le_of_lt (h.count ▸ Nat.le_add_right _ _) hlive
  rw [hk, mul_comm req.denoiseBlockSize k]
  rw [mul_comm req.denoiseBlockSize k] at hlt
  exact Nat.mul_le_mul_right _ (Nat.lt_of_mul_lt_mul_right hlt)

theorem blockSize_le (hpos : req.curBlockNumUnmaskedTokens ≠ 0) :
    req.denoiseBlockSize ≤ req.numTokens := by
  have hlive : req.numUnmaskedTokens < req.maxTokens := by
    rcases h.live with hlive | ⟨-, hzero⟩
    · exact hlive
    · rw [h.count] at hzero
      omega
  have hle := h.block_le hlive
  rw [h.length]
  calc req.denoiseBlockSize ≤ (req.curBlock + 1) * req.denoiseBlockSize :=
        Nat.le_mul_of_pos_left _ (Nat.succ_pos _)
    _ ≤ req.promptTokenIds.length + req.maxTokens := hle.trans (Nat.le_add_left _ _)

theorem of_marked (b : Bool) : ({ req with isInExecution := b } : Request).WellFormed :=
  ⟨h.positive, h.divides, h.length, h.start, h.count, h.incomplete, h.live⟩

theorem advance (hstep : StepOf req req' tokenIds)
    (hroom : req.curBlockNumUnmaskedTokens + tokenIds.length ≤ req.denoiseBlockSize) :
    req'.curBlockStart = req'.promptTokenIds.length + req'.curBlock * req'.denoiseBlockSize ∧
    req'.numUnmaskedTokens =
      req'.curBlock * req'.denoiseBlockSize + req'.curBlockNumUnmaskedTokens ∧
    req'.curBlockNumUnmaskedTokens < req'.denoiseBlockSize := by
  have hcount : req'.numUnmaskedTokens = req.numUnmaskedTokens + tokenIds.length := by
    simp [numUnmaskedTokens, hstep.unmaskedTokenIds]
  rw [hcount, h.count, hstep.curBlockStart, hstep.curBlock, hstep.curBlockNumUnmaskedTokens,
    hstep.promptTokenIds, hstep.denoiseBlockSize]
  unfold advanceBlock
  split_ifs with hfull
  · dsimp only
    rw [h.start, Nat.add_mul, Nat.one_mul]
    have := h.positive
    omega
  · dsimp only
    have := h.start
    omega

/-- A step that does not end the request leaves it well-formed, when its pairs lie in
the token array. -/
theorem afterStep {y : Request × Bool} (hin : ∀ p ∈ tokenIds, p.1 < req.numTokens)
    (hy : req.afterStep tokenIds = .ok y) (hgo : y.2 = false) : y.1.WellFormed := by
  unfold Request.afterStep at hy
  by_cases hnil : tokenIds = []
  · rw [if_pos hnil] at hy
    cases hy
    exact h
  rw [if_neg hnil] at hy
  cases hreq' : req.updateFromOutput tokenIds with
  | error err =>
      rw [hreq'] at hy
      cases hy
  | ok req' =>
      rw [hreq'] at hy
      cases hy
      obtain ⟨hstep, hroom, hblock⟩ :=
        ensures_of_ok (req.ensures_updateFromOutput tokenIds) hreq'
      obtain ⟨hstart, hcount, hlt⟩ := h.advance hstep hroom
      have hpairs : 0 < tokenIds.length := List.length_pos_of_ne_nil hnil
      -- a request without output has no pair in its token array
      have hlive : req.numUnmaskedTokens < req.maxTokens := by
        rcases h.live with hlive | ⟨hzero, hnone⟩
        · exact hlive
        · obtain ⟨p, hp⟩ := List.exists_mem_of_ne_nil _ hnil
          have hlow := (hblock p hp).1
          have hhigh := hin p hp
          rw [h.length] at hhigh
          rw [h.start] at hlow
          omega
      have hle := h.block_le hlive
      have hnum : req'.numUnmaskedTokens = req.numUnmaskedTokens + tokenIds.length := by
        simp [numUnmaskedTokens, hstep.unmaskedTokenIds]
      unfold checkStop at hgo ⊢
      split_ifs at hgo ⊢ with hstop
      refine ⟨?_, ?_, ?_, hstart, hcount, hlt, Or.inl ?_⟩
      · rw [hstep.denoiseBlockSize]
        exact h.positive
      · rw [hstep.denoiseBlockSize, hstep.maxTokens]
        exact h.divides
      · rw [hstep.numTokens, hstep.promptTokenIds, hstep.maxTokens]
        exact h.length
      · have hbound : req'.numUnmaskedTokens ≤ req'.maxTokens := by
          rw [hnum, h.count, hstep.maxTokens]
          rw [Nat.add_mul, Nat.one_mul] at hle
          omega
        exact lt_of_le_of_ne hbound hstop

end WellFormed

end Request

end TeDiServe

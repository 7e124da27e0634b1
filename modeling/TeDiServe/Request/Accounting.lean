import TeDiServe.Request.Progress

/-!
# Block accounting

The counters of a request after any sequence of results. They are read off the number
of complete blocks and of pairs in the current one, up to the end of the output: the
assertion on positions is about the current block, and a block after the last one is not
told apart from the others.
-/

namespace TeDiServe

namespace Request

variable {req req' : Request} {tokenIds : List (ℕ × Token)}

def replaySteps (req : Request) (steps : List (List (ℕ × Token))) : Except PyError Request :=
  steps.foldlM updateFromOutput req

/-- How the counters of a request belong together. Unlike `WellFormed` it holds of a
complete request as well. -/
structure Accounted (req : Request) : Prop where
  positive : 0 < req.denoiseBlockSize
  divides : req.denoiseBlockSize ∣ req.maxTokens
  start : req.curBlockStart = req.promptTokenIds.length + req.curBlock * req.denoiseBlockSize
  count : req.numUnmaskedTokens =
    req.curBlock * req.denoiseBlockSize + req.curBlockNumUnmaskedTokens
  incomplete : req.curBlockNumUnmaskedTokens < req.denoiseBlockSize
  bounded : req.numUnmaskedTokens ≤ req.maxTokens

theorem WellFormed.accounted (h : req.WellFormed) : req.Accounted := by
  refine ⟨h.positive, h.divides, h.start, h.count, h.incomplete, ?_⟩
  rcases h.live with hlive | ⟨-, hzero⟩
  · exact hlive.le
  · rw [hzero]
    exact Nat.zero_le _

namespace Accounted

variable (h : req.Accounted)
include h

/-- A position of the current block that belongs to the output leaves room for the whole
block. -/
theorem block_le {pos : ℕ} (hblock : req.InBlock pos)
    (hout : pos < req.promptTokenIds.length + req.maxTokens) :
    (req.curBlock + 1) * req.denoiseBlockSize ≤ req.maxTokens := by
  obtain ⟨k, hk⟩ := h.divides
  have hlow := hblock.1
  have hlt : req.curBlock * req.denoiseBlockSize < k * req.denoiseBlockSize := by
    rw [mul_comm k, ← hk]
    rw [h.start] at hlow
    omega
  rw [hk, mul_comm req.denoiseBlockSize k]
  exact Nat.mul_le_mul_right _ (Nat.lt_of_mul_lt_mul_right hlt)

theorem step (hne : tokenIds ≠ [])
    (hout : ∀ p ∈ tokenIds, p.1 < req.promptTokenIds.length + req.maxTokens)
    (hstep : StepOf req req' tokenIds)
    (hroom : req.curBlockNumUnmaskedTokens + tokenIds.length ≤ req.denoiseBlockSize)
    (hblock : ∀ p ∈ tokenIds, req.InBlock p.1) : req'.Accounted := by
  obtain ⟨p, hp⟩ := List.exists_mem_of_ne_nil _ hne
  have hle := h.block_le (hblock p hp) (hout p hp)
  have hcount : req'.numUnmaskedTokens = req.numUnmaskedTokens + tokenIds.length := by
    simp [numUnmaskedTokens, hstep.unmaskedTokenIds]
  have hbounded : req'.numUnmaskedTokens ≤ req'.maxTokens := by
    rw [hcount, h.count, hstep.maxTokens]
    rw [Nat.add_mul, Nat.one_mul] at hle
    omega
  have hpos := h.positive
  have hinc := h.incomplete
  refine ⟨by rw [hstep.denoiseBlockSize]; exact hpos, ?_, ?_, ?_, ?_, hbounded⟩
  · rw [hstep.denoiseBlockSize, hstep.maxTokens]
    exact h.divides
  · rw [hstep.curBlockStart, hstep.promptTokenIds, hstep.curBlock, hstep.denoiseBlockSize]
    unfold advanceBlock
    split_ifs
    · dsimp only
      rw [h.start, Nat.add_mul, Nat.one_mul]
      omega
    · exact h.start
  · rw [hcount, h.count, hstep.curBlock, hstep.denoiseBlockSize, hstep.curBlockNumUnmaskedTokens]
    unfold advanceBlock
    split_ifs with hfull
    · dsimp only
      rw [Nat.add_mul, Nat.one_mul]
      omega
    · dsimp only
      omega
  · rw [hstep.curBlockNumUnmaskedTokens, hstep.denoiseBlockSize]
    unfold advanceBlock
    split_ifs with hfull
    · exact hpos
    · dsimp only
      omega

theorem curBlock_le :
    req.curBlock ≤ req.maxTokens / req.denoiseBlockSize ∧
      (req.curBlockNumUnmaskedTokens ≠ 0 →
        req.curBlock < req.maxTokens / req.denoiseBlockSize) := by
  have hbound := h.bounded
  rw [h.count] at hbound
  constructor
  · rw [Nat.le_div_iff_mul_le h.positive]
    omega
  · intro hne
    obtain ⟨k, hk⟩ := h.divides
    rw [hk, Nat.mul_div_cancel_left k h.positive]
    rw [hk, mul_comm req.denoiseBlockSize k] at hbound
    exact Nat.lt_of_mul_lt_mul_right (a := req.denoiseBlockSize) (by omega)

/-- The planner's count of full passes is within the blocks that are left. -/
theorem numRecomputeStepsLeft_bounds :
    0 ≤ req.numRecomputeStepsLeft ∧ req.numRecomputeStepsLeft ≤
      (req.outputLength / req.denoiseBlockSize : ℕ) - (req.curBlock : ℤ) := by
  obtain ⟨hle, hlt⟩ := h.curBlock_le
  unfold numRecomputeStepsLeft isStartOfNewBlock outputLength
  by_cases hzero : req.curBlockNumUnmaskedTokens = 0
  · simp only [hzero, decide_true, if_true]
    omega
  · have := hlt hzero
    simp only [hzero, decide_false, Bool.false_eq_true, if_false]
    omega

theorem checkStop_iff :
    req.checkStop.2 = true ↔ req.curBlock = req.maxTokens / req.denoiseBlockSize := by
  obtain ⟨k, hk⟩ := h.divides
  have hdiv : req.maxTokens / req.denoiseBlockSize = k := by
    rw [hk, Nat.mul_div_cancel_left k h.positive]
  have hcount := h.count
  have hbound := h.bounded
  have hinc := h.incomplete
  rw [hdiv]
  unfold checkStop
  split_ifs with hstop
  · refine iff_of_true rfl ?_
    -- a remainder below the block size is zero
    rw [hcount, hk] at hstop
    have hmod := congrArg (· / req.denoiseBlockSize) hstop
    rw [mul_comm, Nat.mul_add_div h.positive, Nat.div_eq_of_lt hinc,
      Nat.mul_div_cancel_left k h.positive] at hmod
    omega
  · refine iff_of_false not_false fun hblock => hstop ?_
    rw [hcount, hblock, hk, mul_comm k] at hbound ⊢
    omega

end Accounted

theorem ensures_replaySteps (steps : List (List (ℕ × Token))) (h : req.Accounted)
    (hne : ∀ step ∈ steps, step ≠ [])
    (hout : ∀ step ∈ steps, ∀ p ∈ step, p.1 < req.promptTokenIds.length + req.maxTokens) :
    (req.replaySteps steps).Ensures (fun _ => True) fun req' => req'.Accounted ∧
      req'.promptTokenIds = req.promptTokenIds ∧ req'.maxTokens = req.maxTokens ∧
      req'.denoiseBlockSize = req.denoiseBlockSize ∧
      req'.numDenoiseRan = req.numDenoiseRan + steps.length := by
  induction steps generalizing req with
  | nil => exact ⟨h, rfl, rfl, rfl, rfl⟩
  | cons tokenIds steps ih =>
      unfold replaySteps
      rw [List.foldlM_cons, ensures_bind]
      apply (req.ensures_updateFromOutput tokenIds).mono fun _ _ => trivial
      rintro req₁ ⟨hstep, hroom, hblock⟩
      have h₁ := h.step (hne _ List.mem_cons_self) (hout _ List.mem_cons_self) hstep hroom hblock
      refine (ih h₁ (fun step hs => hne step (List.mem_cons_of_mem _ hs)) ?_).imp ?_
      · rw [hstep.promptTokenIds, hstep.maxTokens]
        exact fun step hs => hout step (List.mem_cons_of_mem _ hs)
      · rintro req' ⟨hacc, hprompt, hmax, hsize, hran⟩
        refine ⟨hacc, hprompt.trans hstep.promptTokenIds, hmax.trans hstep.maxTokens,
          hsize.trans hstep.denoiseBlockSize, ?_⟩
        rw [hran, hstep.numDenoiseRan, List.length_cons]
        omega

/-- After any results with positions of the output, as long as none raises: the start of
the block, the pairs and the steps are what the number of complete blocks says, the count
of full passes is within what is left, and the request stops exactly when all its blocks
are complete. A result after that has no position of the output. -/
theorem block_accounting {r : ReqId} {c : ℕ} {a : ℚ} {slo : Option ℚ} {prompt : List Token}
    {mask : Token} {n : ℕ} {b : ℤ} (hreq : create r c a slo prompt mask n b = .ok req)
    (steps : List (List (ℕ × Token))) (hne : ∀ step ∈ steps, step ≠ [])
    (hout : ∀ step ∈ steps, ∀ p ∈ step, p.1 < prompt.length + n)
    (hrun : req.replaySteps steps = .ok req') :
    req'.curBlockStart = prompt.length + req'.curBlock * req.denoiseBlockSize ∧
    req'.numUnmaskedTokens =
      req'.curBlock * req.denoiseBlockSize + req'.curBlockNumUnmaskedTokens ∧
    req'.curBlockNumUnmaskedTokens < req.denoiseBlockSize ∧
    req'.numDenoiseRan = steps.length ∧
    0 ≤ req'.numRecomputeStepsLeft ∧
    req'.numRecomputeStepsLeft ≤ (n / req.denoiseBlockSize : ℕ) - (req'.curBlock : ℤ) ∧
    (req'.checkStop.2 = true ↔ req'.curBlock = n / req.denoiseBlockSize) ∧
    (req'.checkStop.2 = true → ∀ tokenIds req'', req'.updateFromOutput tokenIds = .ok req'' →
      ∀ p ∈ tokenIds, ¬(prompt.length ≤ p.1 ∧ p.1 < prompt.length + n)) := by
  obtain ⟨hprompt₀, hmax₀, -, -, hran₀, -⟩ := fresh_create hreq
  obtain ⟨hacc, hprompt, hmax, hsize, hran⟩ := ensures_of_ok
    (ensures_replaySteps steps (wellFormed_create hreq).accounted hne
      (by rw [hprompt₀, hmax₀]; exact hout)) hrun
  rw [hprompt₀] at hprompt
  rw [hmax₀] at hmax
  have hbounds := hacc.numRecomputeStepsLeft_bounds
  have hstop := hacc.checkStop_iff
  rw [outputLength, hmax, hsize] at hbounds
  rw [hmax, hsize] at hstop
  refine ⟨?_, ?_, ?_, ?_, hbounds.1, hbounds.2, hstop, ?_⟩
  · rw [hacc.start, hprompt, hsize]
  · rw [hacc.count, hsize]
  · rw [← hsize]
    exact hacc.incomplete
  · rw [hran, hran₀, Nat.zero_add]
  · intro hdone tokenIds req'' hok p hp hpos
    obtain ⟨-, -, hblock⟩ := ensures_of_ok (req'.ensures_updateFromOutput tokenIds) hok
    have hle := hacc.block_le (hblock p hp) (by rw [hprompt, hmax]; exact hpos.2)
    rw [hmax, hsize, hstop.mp hdone] at hle
    have hlt := Nat.lt_succ_self (n / req.denoiseBlockSize)
    rw [Nat.succ_eq_add_one, Nat.div_lt_iff_lt_mul (hsize ▸ hacc.positive)] at hlt
    omega

/-- A request with two blocks of two positions. -/
theorem block_accounting_small : ∃ req req' : Request,
    create "a" 0 0 none [1, 1] 0 4 2 = .ok req ∧
    req.replaySteps [[(3, 7)], [(2, 8)], [(4, 9), (5, 9)]] = .ok req' ∧
    req'.curBlockStart = 2 + req'.curBlock * 2 ∧ req'.numDenoiseRan = 3 ∧
    0 ≤ req'.numRecomputeStepsLeft ∧ req'.checkStop.2 = true := by
  have hreq : (create "a" 0 0 none [1, 1] 0 4 2).Ensures (fun _ => False) fun req =>
      req.denoiseBlockSize = 2 ∧
      (req.replaySteps [[(3, 7)], [(2, 8)], [(4, 9), (5, 9)]]).Ensures (fun _ => False) fun req' =>
        req'.curBlock = 2 := by
    decide +kernel
  obtain ⟨req, hreq, hsize, hsteps⟩ := hreq.exists_ok
  obtain ⟨req', hrun, hblock⟩ := hsteps.exists_ok
  obtain ⟨hstart, -, -, hran, hlow, -, hstop, -⟩ :=
    block_accounting hreq _ (by decide) (by decide) hrun
  rw [hsize] at hstart hstop
  exact ⟨req, req', hreq, hrun, hstart, hran, hlow, hstop.mpr hblock⟩

/-- A result after the last block is accepted when the prompt is long enough: its position
is outside the output, and then the count of full passes is negative. -/
theorem steps_after_stop : ∃ req req' : Request,
    create "a" 0 0 none [1, 1] 0 2 2 = .ok req ∧
    req.replaySteps [[(2, 7), (3, 7)], [(4, 7)]] = .ok req' ∧
    req'.curBlock = 2 / req.denoiseBlockSize ∧ req'.checkStop.2 = false ∧
    req'.numRecomputeStepsLeft = -1 := by
  have hreq : (create "a" 0 0 none [1, 1] 0 2 2).Ensures (fun _ => False) fun req =>
      (req.replaySteps [[(2, 7), (3, 7)], [(4, 7)]]).Ensures (fun _ => False) fun req' =>
        req'.curBlock = 2 / req.denoiseBlockSize ∧ req'.checkStop.2 = false ∧
        req'.numRecomputeStepsLeft = -1 := by
    decide +kernel
  obtain ⟨req, hreq, hsteps⟩ := hreq.exists_ok
  obtain ⟨req', hrun, hafter⟩ := hsteps.exists_ok
  exact ⟨req, req', hreq, hrun, hafter⟩

end Request

end TeDiServe

import TeDiServe.Request.Accounting
import TeDiServe.Worker.Replica

/-!
# The token array of a request

The scheduler and the worker write the same pairs, the worker into the output and the
scheduler into an array that begins with the prompt. Both count the position from the
start of the output. So the array of the scheduler is the one that it should be only if
there is no prompt: otherwise the first pairs overwrite the prompt, and the last positions
of the output keep the mask token for ever.
-/

namespace TeDiServe

namespace Request

variable {req req' : Request} {tokenIds : List (ℕ × Token)}

/-- The array has the prompt, and at every position of the output the token that was
emitted last for it, or the mask token. -/
structure ArrayCorrect (mask : Token) (req : Request) : Prop where
  prompt : req.allTokenIds.take req.promptTokenIds.length = req.promptTokenIds
  output : ∀ i, i < req.maxTokens → req.allTokenIds[req.promptTokenIds.length + i]? =
    some ((lastToken req.unmaskedTokenIds (req.promptTokenIds.length + i)).getD mask)

/-! ## What is written -/

theorem ensures_writeToken_set (h : req.promptTokenIds.length ≤ req.curBlockStart)
    (all : List Token) (p : ℕ × Token) :
    (req.writeToken all p).Ensures (fun _ => True) fun all' =>
      all' = all.set (p.1 - req.promptTokenIds.length) p.2 ∧
        p.1 < req.promptTokenIds.length + all.length ∧ req.InBlock p.1 := by
  unfold writeToken
  rw [ensures_bind, ensures_pyAssert]
  refine ⟨fun hblock => ?_, fun _ => trivial⟩
  rw [Bool.and_eq_true, decide_eq_true_eq, decide_eq_true_eq] at hblock
  have hpos : (p.1 : ℤ) - req.promptTokenIds.length =
      ((p.1 - req.promptTokenIds.length : ℕ) : ℤ) := by
    omega
  rw [hpos]
  by_cases hlt : p.1 - req.promptTokenIds.length < all.length
  · rw [setItem_of_lt _ _ _ hlt]
    exact ⟨rfl, by omega, hblock⟩
  · rw [setItem, if_neg (by omega), if_neg (by omega)]
    trivial

theorem ensures_foldlM_writeToken_written (h : req.promptTokenIds.length ≤ req.curBlockStart)
    (tokenIds : List (ℕ × Token)) (all : List Token) :
    (tokenIds.foldlM req.writeToken all).Ensures (fun _ => True) fun all' =>
      all' = written req.promptTokenIds.length all tokenIds ∧
        ∀ p ∈ tokenIds, p.1 < req.promptTokenIds.length + all.length ∧ req.InBlock p.1 := by
  induction tokenIds generalizing all with
  | nil => exact ⟨rfl, by simp⟩
  | cons p tokenIds ih =>
      rw [List.foldlM_cons, ensures_bind]
      apply (ensures_writeToken_set h all p).imp
      rintro all₁ ⟨rfl, hp⟩
      apply (ih _).imp
      rintro all' ⟨rfl, hps⟩
      refine ⟨rfl, ?_⟩
      intro q hq
      rcases List.mem_cons.mp hq with rfl | hq
      · exact hp
      · have hlt := hps q hq
        rwa [List.length_set] at hlt

/-- The array of a request: the pairs that were emitted, written into the prompt and the
masked output as if this were the output alone. -/
structure Arrayed (mask : Token) (req : Request) : Prop where
  start : req.promptTokenIds.length ≤ req.curBlockStart
  array : req.allTokenIds = written req.promptTokenIds.length
    (req.promptTokenIds ++ List.replicate req.maxTokens mask) req.unmaskedTokenIds
  low : ∀ p ∈ req.unmaskedTokenIds, req.promptTokenIds.length ≤ p.1
  high : ∀ p ∈ req.unmaskedTokenIds,
    p.1 < req.promptTokenIds.length + (req.promptTokenIds.length + req.maxTokens)

theorem le_curBlockStart_advanceBlock (req : Request) (n : ℕ) :
    req.curBlockStart ≤ (req.advanceBlock n).curBlockStart := by
  unfold advanceBlock
  split_ifs
  · exact Nat.le_add_right _ _
  · exact le_rfl

theorem Arrayed.step {mask : Token} (h : req.Arrayed mask)
    (hok : req.updateFromOutput tokenIds = .ok req') : req'.Arrayed mask := by
  obtain ⟨hstep, -, hblock⟩ := ensures_of_ok (req.ensures_updateFromOutput tokenIds) hok
  have harray : (req.updateFromOutput tokenIds).Ensures (fun _ => True) fun req' =>
      req'.allTokenIds = written req.promptTokenIds.length req.allTokenIds tokenIds ∧
        ∀ p ∈ tokenIds, p.1 < req.promptTokenIds.length + req.allTokenIds.length := by
    unfold updateFromOutput
    rw [ensures_bind, ensures_pyAssert]
    refine ⟨fun _ => ?_, fun _ => trivial⟩
    apply (ensures_foldlM_writeToken_written h.start tokenIds req.allTokenIds).bind
    rintro all ⟨hall, hin⟩
    exact ⟨hall, fun p hp => (hin p hp).1⟩
  obtain ⟨hall, hin⟩ := ensures_of_ok harray hok
  rw [h.array, length_written, List.length_append, List.length_replicate] at hin
  constructor
  · rw [hstep.promptTokenIds, hstep.curBlockStart]
    exact h.start.trans (req.le_curBlockStart_advanceBlock _)
  · rw [hall, h.array, hstep.promptTokenIds, hstep.maxTokens, hstep.unmaskedTokenIds,
      written_append]
  · rw [hstep.unmaskedTokenIds, hstep.promptTokenIds]
    intro p hp
    rcases List.mem_append.mp hp with hp | hp
    · exact h.low p hp
    · exact h.start.trans (hblock p hp).1
  · rw [hstep.unmaskedTokenIds, hstep.promptTokenIds, hstep.maxTokens]
    intro p hp
    rcases List.mem_append.mp hp with hp | hp
    · exact h.high p hp
    · exact hin p hp

/-- The array after any results, and what was emitted until then. -/
theorem Arrayed.replaySteps {mask : Token} (steps : List (List (ℕ × Token)))
    (h : req.Arrayed mask) (hok : req.replaySteps steps = .ok req') :
    req'.Arrayed mask ∧ req'.promptTokenIds = req.promptTokenIds ∧
      req'.maxTokens = req.maxTokens ∧
      req'.unmaskedTokenIds = req.unmaskedTokenIds ++ steps.flatten := by
  induction steps generalizing req with
  | nil =>
      cases hok
      simp [h]
  | cons tokenIds steps ih =>
      unfold Request.replaySteps at hok
      rw [List.foldlM_cons] at hok
      cases hreq₁ : req.updateFromOutput tokenIds with
      | error err =>
          rw [hreq₁] at hok
          cases hok
      | ok req₁ =>
          rw [hreq₁] at hok
          obtain ⟨hstep, -, -⟩ :=
            ensures_of_ok (req.ensures_updateFromOutput tokenIds) hreq₁
          obtain ⟨harr, hprompt, hmax, hpairs⟩ := ih (h.step hreq₁) hok
          refine ⟨harr, hprompt.trans hstep.promptTokenIds, hmax.trans hstep.maxTokens, ?_⟩
          rw [hpairs, hstep.unmaskedTokenIds, List.flatten_cons, List.append_assoc]

/-! ## With and without a prompt -/

theorem Arrayed.correct {mask : Token} (h : req.Arrayed mask) (hprompt : req.promptTokenIds = []) :
    req.ArrayCorrect mask := by
  have harray := h.array
  have hlow := h.low
  rw [hprompt, List.length_nil, List.nil_append] at harray
  rw [hprompt, List.length_nil] at hlow
  refine ⟨by rw [hprompt]; rfl, fun i hi => ?_⟩
  rw [hprompt, List.length_nil, Nat.zero_add, harray,
    getElem?_written hlow (by rwa [List.length_replicate]), List.getElem_replicate, Nat.zero_add]

/-- With a prompt the first position of the output is written over the first token of the
prompt. -/
theorem WellFormed.exists_overwrite (h : req.WellFormed) (hnew : req.unmaskedTokenIds = [])
    (t : Token) (hprompt : req.promptTokenIds ≠ []) :
    ∃ req', req.updateFromOutput [(req.promptTokenIds.length, t)] = .ok req' ∧
      req'.promptTokenIds = req.promptTokenIds ∧ req'.allTokenIds[0]? = some t := by
  have hpos := h.positive
  have hcount := h.count
  have hstart := h.start
  rw [numUnmaskedTokens, hnew, List.length_nil] at hcount
  have hlen : 0 < req.allTokenIds.length := by
    have hlt := List.length_pos_of_ne_nil hprompt
    have hnum := h.length
    rw [numTokens] at hnum
    omega
  have hzero : req.curBlock * req.denoiseBlockSize = 0 := by omega
  have hwrite : req.writeToken req.allTokenIds (req.promptTokenIds.length, t) =
      .ok (req.allTokenIds.set 0 t) := by
    unfold writeToken
    rw [pyAssert, if_pos (by simp; omega), sub_self, ← Nat.cast_zero, setItem_of_lt _ _ _ hlen]
    rfl
  have hens : (req.updateFromOutput [(req.promptTokenIds.length, t)]).Ensures (fun _ => False)
      fun req' => req'.promptTokenIds = req.promptTokenIds ∧ req'.allTokenIds[0]? = some t := by
    unfold updateFromOutput
    rw [pyAssert, if_pos (by simp; omega), ensures_bind, ensures_ok, List.foldlM_cons,
      hwrite]
    refine ⟨?_, List.getElem?_set_self hlen⟩
    unfold advanceBlock
    split_ifs <;> rfl
  exact hens.exists_ok

/-- The token array of a request is right after all results that it accepts, and the same
as that of a worker that writes the same pairs, exactly if the request has no prompt. -/
theorem array_correct_iff {r : ReqId} {c : ℕ} {a : ℚ} {slo : Option ℚ} {prompt : List Token}
    {w : WorkerConfig} {n : ℕ} {b : ℤ}
    (hreq : create r c a slo prompt w.maskTokenId n b = .ok req) :
    (∀ steps req', req.replaySteps steps = .ok req' → req'.ArrayCorrect w.maskTokenId ∧
      ∃ st₀ st, CachedRequestState.ofNew w (NewRequestData.fromRequest req []) = .ok st₀ ∧
        steps.flatten.foldlM CachedRequestState.updateOutputTokenId st₀ = .ok st ∧
        req'.allTokenIds = st.promptTokenIds ++ st.outputTokenIds) ↔
    prompt = [] := by
  have hwf := wellFormed_create hreq
  obtain ⟨hprompt₀, hmax₀, harr₀, hnew₀, -⟩ := fresh_create hreq
  constructor
  · intro hall
    by_contra hne
    -- a token other than the first one of the prompt
    obtain ⟨t, ht⟩ : ∃ t : Token, prompt[0]? ≠ some t := by
      refine ⟨prompt.headD 0 + 1, ?_⟩
      cases prompt with
      | nil => simp
      | cons t₀ _ => simp
    obtain ⟨req', hok, hprompt, hzero⟩ :=
      hwf.exists_overwrite hnew₀ t (hprompt₀.symm ▸ hne)
    obtain ⟨hcorrect, -⟩ := hall [[(req.promptTokenIds.length, t)]] req' (by
      rw [replaySteps, List.foldlM_cons, hok]
      rfl)
    have htake := hcorrect.prompt
    rw [hprompt, hprompt₀] at htake
    apply ht
    rw [← htake, List.getElem?_take_of_lt (List.length_pos_of_ne_nil hne)]
    exact hzero
  · rintro rfl steps req' hok
    have harr : req.Arrayed w.maskTokenId := by
      refine ⟨by rw [hprompt₀]; exact Nat.zero_le _, ?_, ?_, ?_⟩
      · rw [harr₀, hprompt₀, hmax₀, hnew₀]
        rfl
      · simp [hnew₀]
      · simp [hnew₀]
    obtain ⟨harr', hprompt, hmax, hpairs⟩ := harr.replaySteps steps hok
    rw [hprompt₀] at hprompt
    rw [hnew₀, List.nil_append] at hpairs
    have hhigh := harr'.high
    have harray := harr'.array
    rw [hprompt, hpairs, List.length_nil, Nat.zero_add, Nat.zero_add, hmax, hmax₀] at hhigh
    rw [hprompt, hpairs, List.nil_append, hmax, hmax₀] at harray
    -- a worker builds the masked output of the request, which has no tokens yet
    have hholds := (CachedRequestState.current_state w req []).holds
    have hnum := hholds.numTokens
    have hout := hholds.outputTokenIds
    rw [hprompt₀, hmax₀, List.length_nil, Nat.zero_add] at hnum
    rw [outputWith, hnew₀, hprompt₀, hmax₀] at hout
    refine ⟨harr'.correct hprompt, _, _, CachedRequestState.ofNew_eq w ?_,
      CachedRequestState.foldlM_updateOutputTokenId _ _ ?_, ?_⟩
    · intro p hp
      rw [NewRequestData.fromRequest, hnew₀] at hp
      cases hp
    · rw [hholds.promptTokenIds, hprompt₀, hnum]
      exact fun p hp => ⟨Nat.zero_le _, hhigh p hp⟩
    · rw [hout, hholds.promptTokenIds, hprompt₀, harray]
      rfl

/-- A request of four tokens without a prompt. -/
theorem array_correct_without_prompt : ∃ req : Request,
    create "a" 0 0 none [] 0 4 2 = .ok req ∧
    ∀ steps req', req.replaySteps steps = .ok req' → req'.ArrayCorrect 0 := by
  have hreq : (create "a" 0 0 none [] 0 4 2).Ensures (fun _ => False) fun _ => True := by
    decide +kernel
  obtain ⟨req, hreq, -⟩ := hreq.exists_ok
  refine ⟨req, hreq, fun steps req' hok => ?_⟩
  exact ((array_correct_iff (w := ⟨1, 8, 0⟩) hreq).mpr rfl steps req' hok).1

/-- The first result of a request with a prompt of one token is written over the prompt,
and the worker has it in the output. -/
theorem array_of_first_result : ∃ req req' : Request,
    create "a" 0 0 none [1] 0 4 2 = .ok req ∧ req.replaySteps [[(1, 7)]] = .ok req' ∧
    req'.allTokenIds = [7, 0, 0, 0, 0] ∧ ¬req'.ArrayCorrect 0 := by
  have hreq : (create "a" 0 0 none [1] 0 4 2).Ensures (fun _ => False) fun req =>
      (req.replaySteps [[(1, 7)]]).Ensures (fun _ => False) fun req' =>
        req'.allTokenIds = [7, 0, 0, 0, 0] ∧ req'.promptTokenIds = [1] := by
    decide +kernel
  obtain ⟨req, hreq, hsteps⟩ := hreq.exists_ok
  obtain ⟨req', hrun, harray, hprompt⟩ := hsteps.exists_ok
  refine ⟨req, req', hreq, hrun, harray, fun hc => ?_⟩
  have htake := hc.prompt
  rw [harray, hprompt] at htake
  exact absurd htake (by decide)

end Request

end TeDiServe

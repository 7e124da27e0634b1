import TeDiServe.Engine.Calls
import TeDiServe.Library.Lists
import TeDiServe.Request.Accounting
import TeDiServe.Worker.Replica

/-!
# The positions that a request has emitted

The worker knows a position that is still to be unmasked by its mask token, and the
scheduler counts the pairs without looking at the tokens. A request is `Tracked` if the two
agree on it: no position was emitted twice or with the mask token, and the blocks before
the current one are complete. An update with new positions of the current block keeps this,
and a worker that holds a tracked request can execute its next step.
-/

namespace TeDiServe

/-! ## Counting positions -/

theorem getElem?_written_eq_mask {n len : ℕ} {mask : Token} {pairs : List (ℕ × Token)}
    (hpos : ∀ p ∈ pairs, n ≤ p.1) (htoken : ∀ p ∈ pairs, p.2 ≠ mask) {i : ℕ} (hi : i < len) :
    (written n (List.replicate len mask) pairs)[i]? = some mask ↔ n + i ∉ pairs.map Prod.fst := by
  rw [getElem?_written hpos (by rwa [List.length_replicate]), List.getElem_replicate,
    Option.some_inj, ← lastToken_eq_none]
  cases hlast : lastToken pairs (n + i) with
  | none => simp
  | some t => simp [htoken _ (mem_of_lastToken hlast)]

namespace Request

variable {req req' : Request} {pairs : List (ℕ × Token)} {mask : Token}

def positions (req : Request) : List ℕ := req.unmaskedTokenIds.map Prod.fst

/-- Every position was emitted once at most and with a token other than the mask token,
and the blocks before the current one are complete. -/
structure Tracked (mask : Token) (req : Request) : Prop where
  nodup : req.positions.Nodup
  unmasked : ∀ p ∈ req.unmaskedTokenIds, p.2 ≠ mask
  inOutput : req.InOutput req.unmaskedTokenIds
  current : ∀ pos ∈ req.positions, pos < req.curBlockStart + req.denoiseBlockSize
  complete : ∀ pos, req.promptTokenIds.length ≤ pos → pos < req.curBlockStart →
    pos ∈ req.positions

namespace Tracked

variable (h : req.Tracked mask)
include h

theorem mem_output {pos : ℕ} (hpos : pos ∈ req.positions) :
    req.promptTokenIds.length ≤ pos ∧ pos < req.promptTokenIds.length + req.maxTokens := by
  obtain ⟨p, hp, rfl⟩ := List.mem_map.mp hpos
  exact h.inOutput p hp

theorem all_iff :
    (∀ pos, req.promptTokenIds.length ≤ pos →
      pos < req.promptTokenIds.length + req.maxTokens → pos ∈ req.positions) ↔
    req.numUnmaskedTokens = req.maxTokens := by
  rw [List.forall_mem_iff_length h.nodup fun pos hpos => h.mem_output hpos, positions,
    List.length_map]
  rfl

theorem mask_iff :
    mask ∉ req.outputWith mask req.unmaskedTokenIds ↔ req.numUnmaskedTokens = req.maxTokens := by
  rw [← h.all_iff]
  have hcell : ∀ i, i < req.maxTokens →
      ((req.outputWith mask req.unmaskedTokenIds)[i]? = some mask ↔
        req.promptTokenIds.length + i ∉ req.positions) := fun i hi =>
    getElem?_written_eq_mask (fun p hp => (h.inOutput p hp).1) h.unmasked hi
  constructor
  · intro hmask pos hlow hhigh
    by_contra hpos
    have hi := (hcell (pos - req.promptTokenIds.length) (by omega)).mpr
      (by rwa [Nat.add_sub_cancel' hlow])
    exact hmask (List.mem_of_getElem? hi)
  · intro hall hmask
    obtain ⟨i, hi⟩ := List.mem_iff_getElem?.mp hmask
    have hlt : i < req.maxTokens := by
      have hlen := (List.getElem?_eq_some_iff.mp hi).1
      rwa [outputWith, length_written, List.length_replicate] at hlen
    exact (hcell i hlt).mp hi (hall _ (by omega) (by omega))

/-- The emitted positions of the current block are as many as the scheduler has counted. -/
theorem length_block (hacc : req.Accounted) :
    (req.positions.filter fun pos => req.curBlockStart ≤ pos).length =
      req.curBlockNumUnmaskedTokens := by
  have hbefore : (req.positions.filter fun pos => ¬req.curBlockStart ≤ pos).length =
      req.curBlock * req.denoiseBlockSize := by
    rw [← List.forall_mem_iff_length (h.nodup.filter _) (a := req.promptTokenIds.length)]
    · intro pos hlow hhigh
      rw [← hacc.start] at hhigh
      rw [List.mem_filter, decide_eq_true_eq, Nat.not_le]
      exact ⟨h.complete pos hlow hhigh, hhigh⟩
    · intro pos hpos
      rw [List.mem_filter, decide_eq_true_eq, Nat.not_le, hacc.start] at hpos
      exact ⟨(h.mem_output hpos.1).1, hpos.2⟩
  have hsum := List.length_eq_length_filter_add (l := req.positions)
    fun pos => decide (req.curBlockStart ≤ pos)
  have hcount : req.positions.length = req.curBlock * req.denoiseBlockSize +
      req.curBlockNumUnmaskedTokens := by
    rw [positions, List.length_map]
    exact hacc.count
  simp only [decide_not] at hbefore
  omega

theorem length_add_le (hacc : req.Accounted) {chosen : List ℕ} (hchosen : chosen.Nodup)
    (hblock : ∀ pos ∈ chosen, req.InBlock pos) (hnew : ∀ pos ∈ chosen, pos ∉ req.positions) :
    req.curBlockNumUnmaskedTokens + chosen.length ≤ req.denoiseBlockSize ∧
      (req.curBlockNumUnmaskedTokens + chosen.length = req.denoiseBlockSize →
        ∀ pos, req.InBlock pos → pos ∈ req.positions ++ chosen) := by
  have hnodup : ((req.positions.filter fun pos => req.curBlockStart ≤ pos) ++ chosen).Nodup :=
    List.Nodup.append (h.nodup.filter _) hchosen fun pos hpos hc =>
      hnew pos hc (List.mem_of_mem_filter hpos)
  have hsub : ∀ pos ∈ (req.positions.filter fun pos => req.curBlockStart ≤ pos) ++ chosen,
      req.InBlock pos := by
    intro pos hpos
    rcases List.mem_append.mp hpos with hpos | hpos
    · rw [List.mem_filter, decide_eq_true_eq] at hpos
      exact ⟨hpos.2, h.current pos hpos.1⟩
    · exact hblock pos hpos
  have hlen : ((req.positions.filter fun pos => req.curBlockStart ≤ pos) ++ chosen).length =
      req.curBlockNumUnmaskedTokens + chosen.length := by
    rw [List.length_append, h.length_block hacc]
  refine ⟨hlen ▸ List.length_le_of_subset_range' hnodup hsub, fun hfull pos hpos => ?_⟩
  have hmem := (List.forall_mem_iff_length hnodup hsub).mpr (hlen.trans hfull) pos hpos.1 hpos.2
  rcases List.mem_append.mp hmem with hmem | hmem
  · exact List.mem_append_left _ (List.mem_of_mem_filter hmem)
  · exact List.mem_append_right _ hmem

theorem exists_not_mem (hacc : req.Accounted) : ∃ pos, req.InBlock pos ∧ pos ∉ req.positions := by
  by_contra hnone
  push Not at hnone
  have hnodup : (req.positions.filter fun pos => req.curBlockStart ≤ pos).Nodup :=
    h.nodup.filter _
  have hlen := (List.forall_mem_iff_length hnodup (a := req.curBlockStart)
    (n := req.denoiseBlockSize) (by
      intro pos hpos
      rw [List.mem_filter, decide_eq_true_eq] at hpos
      exact ⟨hpos.2, h.current pos hpos.1⟩)).mp (by
      intro pos hlow hhigh
      rw [List.mem_filter, decide_eq_true_eq]
      exact ⟨hnone pos ⟨hlow, hhigh⟩, hlow⟩)
  rw [h.length_block hacc] at hlen
  exact absurd hlen hacc.incomplete.ne

end Tracked

/-- Pairs of the current block are accepted as long as they are not too many. -/
theorem WellFormed.exists_updateFromOutput (h : req.WellFormed)
    (hlive : req.numUnmaskedTokens < req.maxTokens)
    (hroom : req.curBlockNumUnmaskedTokens + pairs.length ≤ req.denoiseBlockSize)
    (hblock : ∀ p ∈ pairs, req.InBlock p.1) : ∃ req', req.updateFromOutput pairs = .ok req' := by
  have hle := h.block_le hlive
  rw [Nat.add_mul, Nat.one_mul] at hle
  have hwrite : ∀ all : List Token, all.length = req.numTokens →
      (pairs.foldlM req.writeToken all).Ensures (fun _ => False) fun _ => True := by
    clear hroom
    induction pairs with
    | nil => exact fun _ _ => trivial
    | cons p pairs ih =>
        intro all hall
        obtain ⟨hlow, hhigh⟩ := hblock p List.mem_cons_self
        have hstart := h.start
        have hlen := h.length
        have hset : req.writeToken all p =
            .ok (all.set (p.1 - req.promptTokenIds.length) p.2) := by
          unfold writeToken
          rw [pyAssert, if_pos (by rw [decide_eq_true hlow, decide_eq_true hhigh]; rfl)]
          refine Eq.trans ?_ (setItem_of_lt all (p.1 - req.promptTokenIds.length) p.2 (by omega))
          rw [Int.ofNat_sub (by omega)]
          rfl
        rw [List.foldlM_cons, hset, ensures_bind, ensures_ok]
        exact ih (fun q hq => hblock q (List.mem_cons_of_mem p hq)) _
          (by rw [List.length_set, hall])
  have hok : (req.updateFromOutput pairs).Ensures (fun _ => False) fun _ => True := by
    unfold updateFromOutput
    rw [ensures_bind, pyAssert, if_pos (decide_eq_true hroom), ensures_ok,
      ensures_bind]
    exact (hwrite req.allTokenIds rfl).imp fun _ _ => trivial
  obtain ⟨req', hreq', -⟩ := hok.exists_ok
  exact ⟨req', hreq'⟩

theorem Tracked.step (h : req.Tracked mask) (hwf : req.WellFormed)
    (hlive : req.numUnmaskedTokens < req.maxTokens) {cell : ℕ → Cell} {threshold : ℚ}
    (hcell : ∀ pos, req.InBlock pos → (cell pos).isMask = true → pos ∉ req.positions)
    (htoken : ∀ pos, Sampler.Eligible cell req.curBlockStart req.denoiseBlockSize threshold pos →
      (cell pos).token ≠ mask)
    (hpairs : Sampler.Unmasks cell req.curBlockStart req.denoiseBlockSize threshold pairs) :
    ∃ req', req.updateFromOutput pairs = .ok req' ∧ StepOf req req' pairs ∧ req'.Accounted ∧
      req'.Tracked mask ∧ ∀ p ∈ pairs, req.InBlock p.1 := by
  obtain ⟨chosen, hne, hnodup, helig, rfl⟩ := hpairs
  have hblock : ∀ pos ∈ chosen, req.InBlock pos := fun pos hpos =>
    (Sampler.mem_maskedPositions.mp (helig pos hpos).1).1
  have hnew : ∀ pos ∈ chosen, pos ∉ req.positions := fun pos hpos =>
    hcell pos (hblock pos hpos) (Sampler.mem_maskedPositions.mp (helig pos hpos).1).2
  obtain ⟨hroom, hfull⟩ := h.length_add_le hwf.accounted hnodup hblock hnew
  have hfst : (chosen.map fun pos => (pos, (cell pos).token)).map Prod.fst = chosen := by
    rw [List.map_map]
    exact List.map_id chosen
  have hpair : ∀ p ∈ chosen.map fun pos => (pos, (cell pos).token),
      p.1 ∈ chosen ∧ p.2 = (cell p.1).token := by
    intro p hp
    obtain ⟨pos, hpos, rfl⟩ := List.mem_map.mp hp
    exact ⟨hpos, rfl⟩
  obtain ⟨req', hreq'⟩ : ∃ req', req.updateFromOutput
      (chosen.map fun pos => (pos, (cell pos).token)) = .ok req' :=
    hwf.exists_updateFromOutput hlive (by rwa [List.length_map])
      fun p hp => hblock _ (hpair p hp).1
  obtain ⟨hstep, hroom', hin⟩ := ensures_of_ok (req.ensures_updateFromOutput _) hreq'
  have hle := hwf.block_le hlive
  rw [Nat.add_mul, Nat.one_mul] at hle
  have hout : ∀ pos, req.InBlock pos → req.promptTokenIds.length ≤ pos ∧
      pos < req.promptTokenIds.length + req.maxTokens := by
    rintro pos ⟨hlow, hhigh⟩
    rw [hwf.start] at hlow hhigh
    omega
  have hpositions : req'.positions = req.positions ++ chosen := by
    rw [positions, hstep.unmaskedTokenIds, List.map_append, hfst]
    rfl
  refine ⟨req', hreq', hstep, ?_, ⟨?_, ?_, ?_, ?_, ?_⟩, hin⟩
  · refine hwf.accounted.step (by simpa using hne) ?_ hstep hroom' hin
    exact fun p hp => (hout p.1 (hin p hp)).2
  · rw [hpositions]
    exact List.Nodup.append h.nodup hnodup fun pos hpos hc => hnew pos hc hpos
  · intro p hp
    rw [hstep.unmaskedTokenIds] at hp
    rcases List.mem_append.mp hp with hp | hp
    · exact h.unmasked p hp
    · rw [(hpair p hp).2]
      exact htoken p.1 (helig p.1 (hpair p hp).1)
  · intro p hp
    rw [hstep.unmaskedTokenIds] at hp
    rw [hstep.promptTokenIds, hstep.maxTokens]
    rcases List.mem_append.mp hp with hp | hp
    · exact h.inOutput p hp
    · exact hout p.1 (hin p hp)
  · -- the block is the same or the next one
    intro pos hpos
    have hlt : pos < req.curBlockStart + req.denoiseBlockSize := by
      rw [hpositions] at hpos
      rcases List.mem_append.mp hpos with hpos | hpos
      · exact h.current pos hpos
      · exact (hblock pos hpos).2
    rw [hstep.curBlockStart, hstep.denoiseBlockSize]
    unfold advanceBlock
    split_ifs
    · exact lt_of_lt_of_le hlt (Nat.le_add_right _ _)
    · exact hlt
  · intro pos hlow hhigh
    rw [hstep.promptTokenIds] at hlow
    rw [hstep.curBlockStart] at hhigh
    rw [hpositions]
    by_cases hold : pos < req.curBlockStart
    · exact List.mem_append_left _ (h.complete pos hlow hold)
    · unfold advanceBlock at hhigh
      split_ifs at hhigh with hend
      · rw [List.length_map] at hend
        exact hfull hend pos ⟨Nat.le_of_not_lt hold, hhigh⟩
      · exact absurd hhigh hold

theorem Tracked.of_issue (h : req.Tracked mask) (start n : ℕ) (status : RequestStatus) :
    ({ req with execStartPos := start, numExecTokens := n, status } : Request).Tracked mask :=
  ⟨h.nodup, h.unmasked, h.inOutput, h.current, h.complete⟩

theorem Accounted.of_issue (h : req.Accounted) (start n : ℕ) (status : RequestStatus) :
    ({ req with execStartPos := start, numExecTokens := n, status } : Request).Accounted :=
  ⟨h.positive, h.divides, h.start, h.count, h.incomplete, h.bounded⟩

theorem WellFormed.of_issue (h : req.WellFormed) (start n : ℕ) (status : RequestStatus) :
    ({ req with execStartPos := start, numExecTokens := n, status } : Request).WellFormed :=
  ⟨h.positive, h.divides, h.length, h.start, h.count, h.incomplete, h.live⟩

theorem checkStop_eq (req : Request) : ∃ status,
    req.checkStop.1 = { req with status } ∧
      (req.checkStop.2 = true ↔ req.numUnmaskedTokens = req.maxTokens) := by
  unfold checkStop
  split_ifs with hstop
  · exact ⟨.finishedStopped, rfl, iff_of_true rfl hstop⟩
  · exact ⟨req.status, rfl, iff_of_false not_false hstop⟩

/-- The worker tells by the mask token which positions of the block were not emitted. -/
theorem Tracked.isMask_iff {w : WorkerConfig} (h : req.Tracked w.maskTokenId) (hwf : req.WellFormed)
    (hlive : req.numUnmaskedTokens < req.maxTokens) (hfit : req.numTokens ≤ w.maxModelLen)
    (predict : Prediction) (r : ReqId) {pos : ℕ} (hblock : req.InBlock pos) :
    ((req.row w).cell w predict r pos).isMask = true ↔ pos ∉ req.positions := by
  have hle := hwf.block_le hlive
  rw [Nat.add_mul, Nat.one_mul] at hle
  have hstart := hwf.start
  have hlength := hwf.length
  have hlow := hblock.1
  have hhigh := hblock.2
  rw [Row.cell, req.tokenIds_row, decide_eq_true_eq, List.getElem?_take_of_lt (by omega),
    List.getElem?_append_right (by omega)]
  refine (getElem?_written_eq_mask (fun p hp => (h.inOutput p hp).1) h.unmasked (by omega)).trans ?_
  rw [Nat.add_sub_cancel' (by omega)]
  rfl

theorem Tracked.executable {w : WorkerConfig} {msg : SchedulerOutput} {predict : Prediction}
    {r : ReqId} (h : req.Tracked w.maskTokenId) (hwf : req.WellFormed)
    (hlive : req.numUnmaskedTokens < req.maxTokens) (hfit : req.numTokens ≤ w.maxModelLen)
    (hshape : (msg.execStartPos.getD r 0, msg.numScheduledTokens.getD r 0) = (0, req.numTokens) ∨
      (msg.execStartPos.getD r 0, msg.numScheduledTokens.getD r 0) =
        (req.curBlockStart, req.denoiseBlockSize)) :
    Runner.Executable w msg predict r (req.row w) := by
  have hle := hwf.block_le hlive
  rw [Nat.add_mul, Nat.one_mul] at hle
  have hstart := hwf.start
  have hlength := hwf.length
  have hlen : (req.row w).tokenIds.length = req.numTokens := by
    rw [req.tokenIds_row, List.length_take, List.length_append, outputWith, length_written,
      List.length_replicate, ← hlength]
    exact min_eq_right hfit
  have hpos := hwf.positive
  obtain ⟨pos, hblock, hnew⟩ := h.exists_not_mem hwf.accounted
  have hmask := (h.isMask_iff hwf hlive hfit predict r hblock).mpr hnew
  have hmasked : Sampler.maskedPositions ((req.row w).cell w predict r) req.curBlockStart
      req.denoiseBlockSize ≠ [] :=
    List.ne_nil_of_mem (Sampler.mem_maskedPositions.mpr ⟨hblock, hmask⟩)
  -- the executed positions
  obtain ⟨hfrom, hto, hend, hnum⟩ : msg.execStartPos.getD r 0 ≤ req.curBlockStart ∧
      req.curBlockStart + req.denoiseBlockSize ≤
        msg.execStartPos.getD r 0 + msg.numScheduledTokens.getD r 0 ∧
      msg.execStartPos.getD r 0 + msg.numScheduledTokens.getD r 0 ≤ req.numTokens ∧
      (msg.numScheduledTokens.getD r 0 = req.numTokens ∨
        msg.numScheduledTokens.getD r 0 = req.denoiseBlockSize) := by
    rcases hshape with hshape | hshape
    · rw [Prod.mk.injEq] at hshape
      omega
    · rw [Prod.mk.injEq] at hshape
      omega
  rw [hlength] at hfit hnum
  refine ⟨hlen ▸ hend, ?_⟩
  rw [SchedulerOutput.samplerRow, req.metadata_row]
  refine ⟨⟨hfrom, hto⟩, ⟨?_, hfit, ?_⟩, hmasked⟩
  · dsimp only
    omega
  · exact hnum.imp_right fun hn => ⟨hn, by dsimp only; omega⟩

/-- With both caches or none, a step executes all positions or those of the block. -/
theorem stepShape_of_caches {κ : Type} {cfg : Config κ} (req : Request)
    (h : cfg.cachePrefix = cfg.cacheSuffix) (cached : Bool) :
    req.stepShape cfg cached = (0, req.numTokens) ∨
      req.stepShape cfg cached = (req.curBlockStart, req.denoiseBlockSize) := by
  unfold stepShape determineRunningExecTokens
  rw [h]
  split_ifs
  · exact Or.inr rfl
  · exact Or.inl rfl
  · exact Or.inl rfl

theorem Constructed.tracked (h : req.Constructed) (mask : Token) :
    req.WellFormed ∧ req.Tracked mask ∧ req.unmaskedTokenIds = [] := by
  obtain ⟨mask', hfresh⟩ := h.fresh
  have hnil := hfresh.unmaskedTokenIds
  have hnone : req.positions = [] := by rw [positions, hnil, List.map_nil]
  refine ⟨h.wellFormed, ⟨hnone ▸ List.nodup_nil, ?_, ?_, ?_, ?_⟩, hnil⟩
  · exact fun p hp => absurd (hnil ▸ hp) List.not_mem_nil
  · exact fun p hp => absurd (hnil ▸ hp) List.not_mem_nil
  · exact fun pos hpos => absurd (hnone ▸ hpos) List.not_mem_nil
  · intro pos hlow hhigh
    rw [hfresh.curBlockStart] at hhigh
    exact absurd hhigh (Nat.not_lt_of_le hlow)

end Request

/-- A position is only emitted in a step after those that have emitted the blocks before
its own. -/
def BlockOrdered (n size : ℕ) (emitted : List (List (ℕ × Token))) : Prop :=
  ∀ (i : ℕ) (pairs : List (ℕ × Token)), emitted[i]? = some pairs → ∀ p ∈ pairs, ∀ pos,
    n ≤ pos → (pos - n) / size < (p.1 - n) / size →
    ∃ j < i, ∃ pairs' : List (ℕ × Token), emitted[j]? = some pairs' ∧ pos ∈ pairs'.map Prod.fst

theorem BlockOrdered.append {n size : ℕ} {emitted : List (List (ℕ × Token))}
    {pairs : List (ℕ × Token)} (h : BlockOrdered n size emitted)
    (hpairs : ∀ p ∈ pairs, ∀ pos, n ≤ pos → (pos - n) / size < (p.1 - n) / size →
      pos ∈ emitted.flatten.map Prod.fst) : BlockOrdered n size (emitted ++ [pairs]) := by
  intro i pairs' hi p hp pos hlow hlt
  rcases Nat.lt_or_ge i emitted.length with hlen | hlen
  · rw [List.getElem?_append_left hlen] at hi
    obtain ⟨j, hj, step, hstep, hpos⟩ := h i pairs' hi p hp pos hlow hlt
    exact ⟨j, hj, step, (List.getElem?_append_left (hj.trans hlen)).trans hstep, hpos⟩
  · rw [List.getElem?_append_right hlen] at hi
    obtain rfl : pairs = pairs' := List.mem_singleton.mp (List.mem_of_getElem? hi) |>.symm
    obtain ⟨q, hq, rfl⟩ := List.mem_map.mp (hpairs p hp pos hlow hlt)
    obtain ⟨step, hstep, hq⟩ := List.mem_flatten.mp hq
    obtain ⟨j, hj⟩ := List.mem_iff_getElem?.mp hstep
    have hlt := (List.getElem?_eq_some_iff.mp hj).1
    exact ⟨j, hlt.trans_le hlen, step, (List.getElem?_append_left hlt).trans hj,
      List.mem_map_of_mem hq⟩

end TeDiServe

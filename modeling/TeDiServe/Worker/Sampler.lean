import TeDiServe.Basic
import Mathlib.Data.List.MinMax

/-!
# The sampler

The sampler gets the executed positions of all requests of a batch, one after the
other, and unmasks some positions in the current block of each request: those that
the model is confident enough about, or else the one that it is most confident about.
It finds the block of a request by counting executed positions, and so it relies on
the block being among them.

The probabilities that are kept from step to step are only used for statistics. What
matters of them here is the shape of the array that they are copied into.
-/

namespace TeDiServe

/-- What the sampler sees at one executed position: whether the input is the mask token,
the argmax of the logits, and its probability. -/
structure Cell where
  isMask : Bool
  token : Token
  confidence : ℚ

structure SamplingMetadata where
  numPromptTokens : ℕ
  numTokens : ℕ
  curBlockStart : ℕ
  denoiseBlockSize : ℕ
  deriving DecidableEq

structure SamplerRow where
  metadata : SamplingMetadata
  execStartPos : ℕ
  numExecTokens : ℕ
  confidenceThreshold : ℚ

/-- Where the row is found among the executed positions of the batch, and where its
probabilities go. -/
structure OutputRange where
  reqStart : ℕ
  reqEnd : ℕ
  unmaskStart : ℤ
  unmaskEnd : ℤ
  blockStart : ℕ
  outputConfidenceStart : ℕ
  outputConfidenceEnd : ℕ
  outputPosStart : ℕ
  outputPosEnd : ℕ

namespace Sampler

def outputRange (reqStart : ℕ) (x : SamplerRow) : OutputRange :=
  let m := x.metadata
  let blockEnd := m.curBlockStart + m.denoiseBlockSize
  let isRecompute := m.numTokens = x.numExecTokens
  { reqStart
    reqEnd := reqStart + x.numExecTokens
    unmaskStart := reqStart + m.curBlockStart - x.execStartPos
    unmaskEnd := reqStart + blockEnd - x.execStartPos
    blockStart := m.curBlockStart
    outputConfidenceStart := if isRecompute then reqStart + m.numPromptTokens else reqStart
    outputConfidenceEnd :=
      if isRecompute then reqStart + m.numTokens else reqStart + x.numExecTokens
    outputPosStart := if isRecompute then m.numPromptTokens else m.curBlockStart
    outputPosEnd := if isRecompute then m.numTokens else blockEnd }

def getOutputRange : ℕ → List SamplerRow → List OutputRange
  | _, [] => []
  | reqStart, x :: xs => outputRange reqStart x :: getOutputRange (reqStart + x.numExecTokens) xs

/-- The positions that are unmasked among those of the block: the masked ones above the
threshold, or else the first best one. A block without masked positions has no best. -/
def selectTokens (cells : List Cell) (blockStart : ℕ) (threshold : ℚ) :
    Except PyError (List (ℕ × Token)) :=
  let masked := (cells.zipIdx blockStart).filter fun x => x.1.isMask
  let selected := masked.filter fun x => threshold < x.1.confidence
  match masked.argmax fun x => x.1.confidence with
  | none => throw .index
  | some best =>
      pure ((if selected = [] then [best] else selected).map fun x => (x.2, x.1.token))

def columns (width start stop : ℕ) : ℕ := min stop width - min start width

/-- Copy the probabilities, and compute the statistics of the whole output. A slice takes
as many values as it is long, or one for all, and statistics need a value. -/
def copyConfidences (maxModelLen : ℕ) (m : SamplingMetadata) (ranges : OutputRange) (n : ℕ) :
    Except PyError Unit :=
  if n ≠ columns maxModelLen ranges.outputPosStart ranges.outputPosEnd ∧ n ≠ 1 then
    throw .runtime
  else if columns maxModelLen m.numPromptTokens m.numTokens = 0 then throw .runtime
  else pure ()

def unmaskRow (maxModelLen : ℕ) (cells : List Cell) (x : SamplerRow) (ranges : OutputRange) :
    Except PyError (List (ℕ × Token)) := do
  let pairs ← selectTokens (slice cells ranges.unmaskStart ranges.unmaskEnd) ranges.blockStart
    x.confidenceThreshold
  let confidences := slice cells ranges.outputConfidenceStart ranges.outputConfidenceEnd
  copyConfidences maxModelLen x.metadata ranges confidences.length
  pure pairs

/-- `unmask`: the pairs of every row of the batch. -/
def unmask (maxModelLen : ℕ) (rows : List SamplerRow) (cells : List Cell) :
    Except PyError (List (List (ℕ × Token))) :=
  (rows.zip (getOutputRange 0 rows)).mapM fun x => unmaskRow maxModelLen cells x.1 x.2

/-! ## The pairs of one block -/

section Block

variable {cell : ℕ → Cell} {start n : ℕ} {threshold : ℚ}

theorem zipIdx_map_range' (cell : ℕ → Cell) (start n : ℕ) :
    ((List.range' start n).map cell).zipIdx start =
      (List.range' start n).map fun pos => (cell pos, pos) := by
  induction n generalizing start with
  | zero => rfl
  | succ n ih =>
      rw [List.range'_succ, List.map_cons, List.zipIdx_cons, ih, List.map_cons]

def maskedPositions (cell : ℕ → Cell) (start n : ℕ) : List ℕ :=
  (List.range' start n).filter fun pos => (cell pos).isMask

theorem mem_maskedPositions {pos : ℕ} : pos ∈ maskedPositions cell start n ↔
    (start ≤ pos ∧ pos < start + n) ∧ (cell pos).isMask = true := by
  simp [maskedPositions, List.mem_range'_1]

theorem nodup_maskedPositions (cell : ℕ → Cell) (start n : ℕ) :
    (maskedPositions cell start n).Nodup :=
  (List.nodup_range').filter _

/-- A position that may be unmasked: it is above the threshold, or the best one. -/
def Eligible (cell : ℕ → Cell) (start n : ℕ) (threshold : ℚ) (pos : ℕ) : Prop :=
  pos ∈ maskedPositions cell start n ∧
    (threshold < (cell pos).confidence ∨
      ∀ pos' ∈ maskedPositions cell start n, (cell pos').confidence ≤ (cell pos).confidence)

/-- The pairs of a step in a block: some of its masked positions, at least one and each
once, with the tokens that the model predicts there. -/
def Unmasks (cell : ℕ → Cell) (start n : ℕ) (threshold : ℚ) (pairs : List (ℕ × Token)) : Prop :=
  ∃ chosen : List ℕ, chosen ≠ [] ∧ chosen.Nodup ∧
    (∀ pos ∈ chosen, Eligible cell start n threshold pos) ∧
    pairs = chosen.map fun pos => (pos, (cell pos).token)

theorem ensures_selectTokens (cell : ℕ → Cell) (start n : ℕ) (threshold : ℚ) :
    (selectTokens ((List.range' start n).map cell) start threshold).Ensures
      (fun _ => maskedPositions cell start n = []) (Unmasks cell start n threshold) := by
  have hmasked : (((List.range' start n).map cell).zipIdx start).filter (fun x => x.1.isMask) =
      (maskedPositions cell start n).map fun pos => (cell pos, pos) := by
    rw [zipIdx_map_range', List.filter_map]
    rfl
  unfold selectTokens
  rw [hmasked]
  dsimp only
  cases hbest : ((maskedPositions cell start n).map fun pos => (cell pos, pos)).argmax
      fun x => x.1.confidence with
  | none =>
      rw [List.argmax_eq_none, List.map_eq_nil_iff] at hbest
      exact hbest
  | some best =>
      obtain ⟨top, htop, rfl⟩ := List.mem_map.mp (List.argmax_mem hbest)
      have hmax : ∀ pos ∈ maskedPositions cell start n,
          (cell pos).confidence ≤ (cell top).confidence := by
        intro pos hpos
        have hmem : (cell pos, pos) ∈
            (maskedPositions cell start n).map fun pos => (cell pos, pos) :=
          List.mem_map_of_mem hpos
        exact List.le_of_mem_argmax (f := fun x : Cell × ℕ => x.1.confidence) hmem hbest
      rw [ensures_pure]
      split_ifs with hnone
      · refine ⟨[top], List.cons_ne_nil _ _, List.nodup_singleton _, ?_, rfl⟩
        intro pos hpos
        rw [List.mem_singleton] at hpos
        rw [hpos]
        exact ⟨htop, Or.inr hmax⟩
      · rw [List.filter_map] at hnone ⊢
        refine ⟨(maskedPositions cell start n).filter
          fun pos => threshold < (cell pos).confidence, ?_, ?_, ?_, ?_⟩
        · intro hnil
          apply hnone
          rw [List.map_eq_nil_iff]
          exact hnil
        · exact (nodup_maskedPositions cell start n).filter _
        · intro pos hpos
          rw [List.mem_filter, decide_eq_true_eq] at hpos
          exact ⟨hpos.1, Or.inl hpos.2⟩
        · rw [List.map_map]
          rfl

end Block

/-! ## The rows of a batch -/

structure Covers (x : SamplerRow) : Prop where
  start_le : x.execStartPos ≤ x.metadata.curBlockStart
  le_end : x.metadata.curBlockStart + x.metadata.denoiseBlockSize ≤
    x.execStartPos + x.numExecTokens

/-- The probabilities of the row can be copied: the row fits into the array and has an
output, and either all its positions are executed or as many as a block has. -/
structure Shaped (maxModelLen : ℕ) (x : SamplerRow) : Prop where
  output : x.metadata.numPromptTokens < x.metadata.numTokens
  fits : x.metadata.numTokens ≤ maxModelLen
  executed : x.numExecTokens = x.metadata.numTokens ∨
    x.numExecTokens = x.metadata.denoiseBlockSize ∧
      x.metadata.curBlockStart + x.metadata.denoiseBlockSize ≤ maxModelLen

def executed (x : SamplerRow) (cell : ℕ → Cell) : List Cell :=
  (List.range' x.execStartPos x.numExecTokens).map cell

@[simp] theorem length_executed (x : SamplerRow) (cell : ℕ → Cell) :
    (executed x cell).length = x.numExecTokens := by
  simp [executed]

section Rows

variable {maxModelLen : ℕ} {x : SamplerRow} {cell : ℕ → Cell} {before after : List Cell}

theorem slice_append (before l after : List Cell) (a b : ℕ) (hb : b ≤ l.length) :
    slice (before ++ l ++ after) ((before.length + a : ℕ) : ℤ) ((before.length + b : ℕ) : ℤ) =
      (l.take b).drop a := by
  rw [slice_natCast, List.append_assoc, List.take_length_add_append, List.drop_length_add_append,
    List.take_append_of_le_length hb]

/-- Counting executed positions finds the block of the row. -/
theorem slice_block (h : Covers x) :
    slice (before ++ executed x cell ++ after) (outputRange before.length x).unmaskStart
        (outputRange before.length x).unmaskEnd =
      (List.range' x.metadata.curBlockStart x.metadata.denoiseBlockSize).map cell := by
  have hstart := h.start_le
  have hend := h.le_end
  have ha : (outputRange before.length x).unmaskStart =
      ((before.length + (x.metadata.curBlockStart - x.execStartPos) : ℕ) : ℤ) := by
    simp only [outputRange]
    omega
  have hb : (outputRange before.length x).unmaskEnd = ((before.length +
      (x.metadata.curBlockStart + x.metadata.denoiseBlockSize - x.execStartPos) : ℕ) : ℤ) := by
    simp only [outputRange]
    omega
  rw [ha, hb, slice_append _ _ _ _ _ (by rw [length_executed]; omega), executed, ← List.map_take,
    ← List.map_drop, List.take_range'_of_length_ge (by omega), List.drop_range']
  congr 2
  · omega
  · omega

theorem length_slice_confidences (h : Shaped maxModelLen x) :
    (slice (before ++ executed x cell ++ after)
        ((outputRange before.length x).outputConfidenceStart : ℤ)
        ((outputRange before.length x).outputConfidenceEnd : ℤ)).length =
      columns maxModelLen (outputRange before.length x).outputPosStart
        (outputRange before.length x).outputPosEnd := by
  have hout := h.output
  have hfits := h.fits
  simp only [outputRange]
  by_cases hfull : x.metadata.numTokens = x.numExecTokens
  · rw [if_pos hfull, if_pos hfull, if_pos hfull, if_pos hfull,
      slice_append _ _ _ _ _ (by rw [length_executed, hfull]), List.length_drop, List.length_take,
      length_executed, columns]
    omega
  · obtain ⟨hexec, hblock⟩ := h.executed.resolve_left fun hc => hfull hc.symm
    have hslice := slice_append before (executed x cell) after 0 x.numExecTokens
      (by rw [length_executed])
    rw [Nat.add_zero] at hslice
    rw [if_neg hfull, if_neg hfull, if_neg hfull, if_neg hfull, hslice, List.length_drop,
      List.length_take, length_executed, columns]
    omega

/-- Whatever cells the sampler looks at, a pair has the token of a masked one, and its
position is as many places after the start of the block. -/
theorem ensures_selectTokens_mem (cells : List Cell) (blockStart : ℕ) (threshold : ℚ) :
    (selectTokens cells blockStart threshold).Ensures (fun _ => True) fun pairs =>
      pairs ≠ [] ∧ ∀ p ∈ pairs, ∃ j c, cells[j]? = some c ∧ c.isMask = true ∧
        p = (blockStart + j, c.token) := by
  have hidx : ∀ x ∈ (cells.zipIdx blockStart).filter (fun x => x.1.isMask),
      ∃ j c, cells[j]? = some c ∧ c.isMask = true ∧
        (x.2, x.1.token) = (blockStart + j, c.token) := by
    rintro ⟨c, i⟩ hx
    obtain ⟨hmem, hmask⟩ := List.mem_filter.mp hx
    obtain ⟨hle, hget⟩ := List.mk_mem_zipIdx_iff_le_and_getElem?_sub.mp hmem
    exact ⟨i - blockStart, c, hget, hmask, Prod.ext (Nat.add_sub_cancel' hle).symm rfl⟩
  unfold selectTokens
  dsimp only
  cases hbest : ((cells.zipIdx blockStart).filter fun x => x.1.isMask).argmax
      fun x => x.1.confidence with
  | none => trivial
  | some best =>
      rw [ensures_pure]
      constructor
      · rw [Ne, List.map_eq_nil_iff]
        split_ifs with hnone
        · exact not_false
        · exact hnone
      · intro p hp
        obtain ⟨x, hx, rfl⟩ := List.mem_map.mp hp
        apply hidx
        split_ifs at hx
        · rw [List.mem_singleton] at hx
          exact hx ▸ List.argmax_mem hbest
        · exact List.mem_of_mem_filter hx

theorem ensures_selectTokens_bound (cells : List Cell) (blockStart : ℕ) (threshold : ℚ) :
    (selectTokens cells blockStart threshold).Ensures (fun _ => True) fun pairs =>
      pairs ≠ [] ∧ ∀ p ∈ pairs, blockStart ≤ p.1 ∧ p.1 < blockStart + cells.length := by
  apply (ensures_selectTokens_mem cells blockStart threshold).imp
  rintro pairs ⟨hne, hmem⟩
  refine ⟨hne, fun p hp => ?_⟩
  obtain ⟨j, c, hj, -, rfl⟩ := hmem p hp
  exact ⟨Nat.le_add_right _ _, Nat.add_lt_add_left (List.getElem?_eq_some_iff.mp hj).1 _⟩

structure Sampled (x : SamplerRow) (cell : ℕ → Cell) (pairs : List (ℕ × Token)) : Prop where
  ne_nil : pairs ≠ []
  output : x.metadata.numPromptTokens < x.metadata.numTokens
  inBlock : ∀ p ∈ pairs, x.metadata.curBlockStart ≤ p.1 ∧
    p.1 < x.metadata.curBlockStart + x.metadata.denoiseBlockSize
  unmasks : Covers x →
    Unmasks cell x.metadata.curBlockStart x.metadata.denoiseBlockSize x.confidenceThreshold pairs

/-- The row can be sampled: its block is executed and has a masked position, and its
probabilities can be copied. -/
structure Samplable (maxModelLen : ℕ) (x : SamplerRow) (cell : ℕ → Cell) : Prop where
  covers : Covers x
  shaped : Shaped maxModelLen x
  masked : maskedPositions cell x.metadata.curBlockStart x.metadata.denoiseBlockSize ≠ []

theorem ensures_unmaskRow (hstart : x.execStartPos ≤ x.metadata.curBlockStart) :
    (unmaskRow maxModelLen (before ++ executed x cell ++ after) x
        (outputRange before.length x)).Ensures
      (fun _ => ¬Samplable maxModelLen x cell) (Sampled x cell) := by
  have hslice : (slice (before ++ executed x cell ++ after)
      (outputRange before.length x).unmaskStart (outputRange before.length x).unmaskEnd).length ≤
        x.metadata.denoiseBlockSize := by
    have ha : (outputRange before.length x).unmaskStart =
        ((before.length + x.metadata.curBlockStart - x.execStartPos : ℕ) : ℤ) := by
      simp only [outputRange]
      omega
    have hb : (outputRange before.length x).unmaskEnd = ((before.length +
        x.metadata.curBlockStart + x.metadata.denoiseBlockSize - x.execStartPos : ℕ) : ℤ) := by
      simp only [outputRange]
      omega
    rw [ha, hb, slice_natCast, List.length_drop, List.length_take]
    omega
  unfold unmaskRow
  rw [ensures_bind]
  -- what is selected from the block, if it is executed
  have hblock : (selectTokens (slice (before ++ executed x cell ++ after)
      (outputRange before.length x).unmaskStart (outputRange before.length x).unmaskEnd)
      (outputRange before.length x).blockStart x.confidenceThreshold).Ensures
      (fun _ => ¬Samplable maxModelLen x cell) fun pairs => Covers x →
        Unmasks cell x.metadata.curBlockStart x.metadata.denoiseBlockSize
          x.confidenceThreshold pairs := by
    by_cases hcover : Covers x
    · rw [slice_block hcover]
      exact (ensures_selectTokens cell _ _ _).mono (fun _ hnone hs => hs.masked hnone)
        fun pairs hpairs _ => hpairs
    · exact (ensures_any _).mono (fun _ _ hs => hcover hs.covers)
        fun pairs _ hc => absurd hc hcover
  apply (hblock.both (ensures_selectTokens_bound _ _ _)).mono (fun _ herr => herr.1)
  rintro pairs ⟨hunmasks, hne, hbound⟩
  rw [ensures_bind]
  unfold copyConfidences
  split_ifs with hcopy hstats
  · intro hs
    exact hcopy.1 (length_slice_confidences hs.shaped)
  · intro hs
    have hout := hs.shaped.output
    have hfits := hs.shaped.fits
    rw [columns] at hstats
    omega
  · refine ⟨hne, ?_, ?_, hunmasks⟩
    · rw [columns] at hstats
      omega
    · intro p hp
      obtain ⟨hlow, hhigh⟩ := hbound p hp
      have hstart' : (outputRange before.length x).blockStart = x.metadata.curBlockStart := rfl
      rw [hstart'] at hlow hhigh
      exact ⟨hlow, by omega⟩

/-- The loop over the rows from the one whose positions begin after `before`. -/
theorem ensures_unmask_from (maxModelLen : ℕ) (batch : List (SamplerRow × (ℕ → Cell)))
    (hstart : ∀ y ∈ batch, y.1.execStartPos ≤ y.1.metadata.curBlockStart) (before : List Cell) :
    (((batch.map Prod.fst).zip (getOutputRange before.length (batch.map Prod.fst))).mapM fun x =>
        unmaskRow maxModelLen (before ++ batch.flatMap fun y => executed y.1 y.2) x.1 x.2).Ensures
      (fun _ => ∃ y ∈ batch, ¬Samplable maxModelLen y.1 y.2)
      (List.Forall₂ (fun y pairs => Sampled y.1 y.2 pairs) batch) := by
  induction batch generalizing before with
  | nil => exact .nil
  | cons y batch ih =>
      rw [List.map_cons, getOutputRange, List.zip_cons_cons, List.mapM_cons, List.flatMap_cons,
        ← List.append_assoc, ensures_bind]
      apply (ensures_unmaskRow (hstart y List.mem_cons_self)).mono
        (fun _ herr => ⟨y, List.mem_cons_self, herr⟩)
      intro pairs hpairs
      have hrest := ih (fun z hz => hstart z (List.mem_cons_of_mem y hz))
        (before ++ executed y.1 y.2)
      rw [List.length_append, length_executed] at hrest
      rw [ensures_bind]
      apply hrest.mono (fun _ herr => by
        obtain ⟨z, hz, hno⟩ := herr
        exact ⟨z, List.mem_cons_of_mem y hz, hno⟩)
      exact fun rest hall => .cons hpairs hall

/-- The rows of a batch do not disturb each other, and the sampler only fails if one of
them cannot be sampled. -/
theorem ensures_unmask (maxModelLen : ℕ) (batch : List (SamplerRow × (ℕ → Cell)))
    (hstart : ∀ y ∈ batch, y.1.execStartPos ≤ y.1.metadata.curBlockStart) :
    (unmask maxModelLen (batch.map Prod.fst) (batch.flatMap fun y => executed y.1 y.2)).Ensures
      (fun _ => ∃ y ∈ batch, ¬Samplable maxModelLen y.1 y.2)
      (List.Forall₂ (fun y pairs => Sampled y.1 y.2 pairs) batch) :=
  ensures_unmask_from maxModelLen batch hstart []

end Rows

end Sampler

end TeDiServe

import TeDiServe.Engine.Calls
import TeDiServe.Library.Ragged
import TeDiServe.Placement.Tables
import TeDiServe.Request.Progress
import TeDiServe.Worker.Batch

/-!
# Where the executed positions of a batch are

The executed positions of all requests stand one after the other. The model runner computes
with whole arrays which request and which position a place belongs to, from cumulative sums
and repetitions, and reads the tokens there out of the flattened array of all rows. The
sampler counts places on its own, request by request, to find the block of a request.

`Turn` is what a request of a batch is asked to execute by the scheduler's rules. For such
batches both computations agree.
-/

namespace TeDiServe

/-! ## `_prepare_inputs` -/

/-- What `_prepare_inputs` computes for the places of a batch: the request, the position of
the token, and the index of the token in the flattened array. -/
structure Inputs where
  reqIndices : List ℕ
  positions : List ℕ
  tokenIndices : List ℕ

namespace Inputs

def getCumsumAndArange (numTokens : List ℕ) : List ℕ × List ℕ :=
  let cuNumTokens := Ragged.cumsum numTokens
  let totalNumTokens := cuNumTokens.getLastD 0
  let cumsumsOffsets :=
    Ragged.repeatEach (List.zipWith (· - ·) cuNumTokens numTokens) numTokens
  (cuNumTokens, List.zipWith (· - ·) (List.range totalNumTokens) cumsumsOffsets)

/-- The part of `_prepare_inputs` that is about the places. `width` is the number of columns
of the token array. -/
def prepare (width : ℕ) (execStartPos numScheduledTokens : List ℕ) : Inputs :=
  let reqIndices :=
    Ragged.repeatEach (List.range numScheduledTokens.length) numScheduledTokens
  let arange := (getCumsumAndArange numScheduledTokens).2
  let positions := List.zipWith (· + ·) (reqIndices.map fun i => execStartPos.getD i 0) arange
  let tokenIndices := List.zipWith (· + ·) positions (reqIndices.map (· * width))
  { reqIndices, positions, tokenIndices }

def inputIds (x : Inputs) (tokenIdsCpu : List (List Token)) : Except PyError (List Token) :=
  x.tokenIndices.mapM (item tokenIdsCpu.flatten)

/-! ## The places of a batch, request by request -/

variable {width : ℕ} {execStartPos numScheduledTokens : List ℕ}

theorem arange_eq (numTokens : List ℕ) :
    (getCumsumAndArange numTokens).2 = numTokens.flatMap List.range := by
  unfold getCumsumAndArange
  dsimp only
  rw [Ragged.getLastD_cumsum, Ragged.zipWith_sub_cumsum, Ragged.zipWith_sub_repeatEach]

def numbered (numScheduledTokens : List ℕ) : List (ℕ × ℕ) :=
  (List.range numScheduledTokens.length).zip numScheduledTokens

theorem getElem?_numbered {i n : ℕ} (h : numScheduledTokens[i]? = some n) :
    (numbered numScheduledTokens)[i]? = some (i, n) := by
  have hlt := (List.getElem?_eq_some_iff.mp h).1
  rw [numbered, List.getElem?_zip_eq_some]
  exact ⟨List.getElem?_range hlt, h⟩

theorem map_snd_numbered (ns : List ℕ) : (numbered ns).map Prod.snd = ns :=
  List.map_snd_zip (by simp)

theorem reqIndices_prepare : (prepare width execStartPos numScheduledTokens).reqIndices =
    (numbered numScheduledTokens).flatMap fun x => List.replicate x.2 x.1 := rfl

theorem positions_prepare : (prepare width execStartPos numScheduledTokens).positions =
    (numbered numScheduledTokens).flatMap fun x =>
      (List.range x.2).map fun j => execStartPos.getD x.1 0 + j := by
  have harange : (getCumsumAndArange numScheduledTokens).2 =
      (numbered numScheduledTokens).flatMap fun x => List.range x.2 := by
    have hsnd := List.flatMap_map Prod.snd List.range (numbered numScheduledTokens)
    rw [map_snd_numbered] at hsnd
    rw [arange_eq, hsnd]
  have hreq : (prepare width execStartPos numScheduledTokens).positions =
      List.zipWith (· + ·)
        (((numbered numScheduledTokens).flatMap fun x => List.replicate x.2 x.1).map
          fun i => execStartPos.getD i 0) (getCumsumAndArange numScheduledTokens).2 := rfl
  rw [hreq, harange, List.map_flatMap, Ragged.zipWith_flatMap _ (by simp)]
  refine List.flatMap_congr fun x _ => ?_
  rw [List.map_replicate, Ragged.zipWith_replicate _ _ _ List.length_range.symm]

theorem tokenIndices_prepare : (prepare width execStartPos numScheduledTokens).tokenIndices =
    (numbered numScheduledTokens).flatMap fun x =>
      (List.range x.2).map fun j => execStartPos.getD x.1 0 + j + x.1 * width := by
  have htokens : (prepare width execStartPos numScheduledTokens).tokenIndices =
      List.zipWith (· + ·) (prepare width execStartPos numScheduledTokens).positions
        ((prepare width execStartPos numScheduledTokens).reqIndices.map (· * width)) := rfl
  rw [htokens, positions_prepare, reqIndices_prepare, List.map_flatMap,
    Ragged.zipWith_flatMap _ (by simp)]
  refine List.flatMap_congr fun x _ => ?_
  rw [List.map_replicate, List.zipWith_comm, Ragged.zipWith_replicate _ _ _ (by simp),
    List.map_map]
  rfl

structure IsPlace (x : Inputs) (width i pos k : ℕ) : Prop where
  reqIndex : x.reqIndices[k]? = some i
  position : x.positions[k]? = some pos
  tokenIndex : x.tokenIndices[k]? = some (pos + i * width)

/-- The places of a request come after those of the requests before it. -/
theorem isPlace_prepare {i n start j : ℕ} (hn : numScheduledTokens[i]? = some n)
    (hstart : execStartPos[i]? = some start) (hj : j < n) :
    (prepare width execStartPos numScheduledTokens).IsPlace width i (start + j)
      ((numScheduledTokens.take i).sum + j) := by
  have hi := getElem?_numbered hn
  have hsum : ∀ f : ℕ × ℕ → ℕ, (∀ x, f x = x.2) →
      (((numbered numScheduledTokens).take i).map f).sum = (numScheduledTokens.take i).sum := by
    intro f hf
    rw [List.map_congr_left fun x _ => hf x, List.map_take, map_snd_numbered]
  constructor
  · rw [reqIndices_prepare, ← hsum (fun x => (List.replicate x.2 x.1).length) (by simp),
      Ragged.getElem?_flatMap _ hi (by simpa using hj)]
    simp [hj]
  · rw [positions_prepare, ← hsum (fun x => ((List.range x.2).map fun j =>
        execStartPos.getD x.1 0 + j).length) (by simp),
      Ragged.getElem?_flatMap _ hi (by simpa using hj)]
    simp [hj, hstart]
  · rw [tokenIndices_prepare, ← hsum (fun x => ((List.range x.2).map fun j =>
      execStartPos.getD x.1 0 + j + x.1 * width).length) (by simp),
      Ragged.getElem?_flatMap _ hi (by simpa using hj)]
    simp [hj, hstart]

theorem IsPlace.getElem?_inputIds {x : Inputs} {i pos k : ℕ} (h : x.IsPlace width i pos k)
    {tokenIdsCpu : List (List Token)} (hwidth : ∀ row ∈ tokenIdsCpu, row.length = width)
    (hpos : pos < width) {ids : List Token} (hids : x.inputIds tokenIdsCpu = .ok ids) :
    ids[k]? = tokenIdsCpu[i]?.bind fun row => row[pos]? := by
  obtain ⟨id, hid, hget⟩ := exists_getElem?_of_forall₂
    (ensures_of_ok (ensures_mapM (E := fun _ => True) (R := fun k id =>
      tokenIdsCpu.flatten[k]? = some id) _ fun k _ =>
        (ensures_item _ _ _ _).mpr ⟨fun _ hk => hk, fun _ => trivial⟩) hids) h.tokenIndex
  rw [hid, ← hget, Ragged.getElem?_flatten hwidth i hpos]

end Inputs

/-! ## The ranges of the sampler -/

namespace Sampler

@[simp] theorem length_getOutputRange (c : ℕ) (rows : List SamplerRow) :
    (getOutputRange c rows).length = rows.length := by
  induction rows generalizing c with
  | nil => rfl
  | cons x rows ih => rw [getOutputRange, List.length_cons, ih, List.length_cons]

theorem getElem?_getOutputRange {rows : List SamplerRow} {i : ℕ} {x : SamplerRow} (c : ℕ)
    (hx : rows[i]? = some x) : (getOutputRange c rows)[i]? =
      some (outputRange (c + ((rows.take i).map SamplerRow.numExecTokens).sum) x) := by
  induction rows generalizing c i with
  | nil => cases hx
  | cons y rows ih =>
      rw [getOutputRange]
      cases i with
      | zero =>
          rw [List.getElem?_cons_zero, Option.some.injEq] at hx
          subst hx
          rfl
      | succ i =>
          rw [List.getElem?_cons_succ] at hx
          rw [List.getElem?_cons_succ, ih _ hx, List.take_succ_cons, List.map_cons, List.sum_cons,
            Nat.add_assoc]

theorem ensures_unmaskRow_mem (maxModelLen : ℕ) (cells : List Cell) (x : SamplerRow)
    (ranges : OutputRange) :
    (unmaskRow maxModelLen cells x ranges).Ensures (fun _ => True) fun pairs =>
      ∀ p ∈ pairs, ∃ j c, (slice cells ranges.unmaskStart ranges.unmaskEnd)[j]? = some c ∧
        c.isMask = true ∧ p = (ranges.blockStart + j, c.token) := by
  unfold unmaskRow
  apply (ensures_selectTokens_mem _ _ _).bind
  rintro pairs ⟨-, hmem⟩
  exact ensures_bind_any _ fun _ => hmem

theorem getElem?_unmask {maxModelLen i : ℕ} {rows : List SamplerRow} {cells : List Cell}
    {out : List (List (ℕ × Token))} (hout : unmask maxModelLen rows cells = .ok out)
    {pairs : List (ℕ × Token)} (hpairs : out[i]? = some pairs) {ranges : OutputRange}
    (hranges : (getOutputRange 0 rows)[i]? = some ranges) :
    ∀ p ∈ pairs, ∃ j c, (slice cells ranges.unmaskStart ranges.unmaskEnd)[j]? = some c ∧
      c.isMask = true ∧ p = (ranges.blockStart + j, c.token) := by
  have hall := ensures_of_ok (ensures_mapM _ fun x _ =>
    ensures_unmaskRow_mem maxModelLen cells x.1 x.2) hout
  obtain ⟨y, hy, hmem⟩ := exists_getElem?_of_forall₂ hall.flip hpairs
  rw [List.getElem?_zip_eq_some, hranges, Option.some.injEq] at hy
  rw [hy.2]
  exact hmem

end Sampler

/-! ## Batches by the scheduler's rules -/

/-- A request of a batch, and whether the executor has run it before. -/
structure Turn where
  request : Request
  cached : Bool
  confidenceThreshold : ℚ

namespace Turn

variable {κ : Type} {cfg : Config κ} {x : Turn}

structure InBlock (x : Turn) : Prop where
  wellFormed : x.request.WellFormed
  output : 0 < x.request.maxTokens

def row (cfg : Config κ) (x : Turn) : SamplerRow where
  metadata :=
    { numPromptTokens := x.request.promptTokenIds.length
      numTokens := x.request.numTokens
      curBlockStart := x.request.curBlockStart
      denoiseBlockSize := x.request.denoiseBlockSize }
  execStartPos := (x.request.stepShape cfg x.cached).1
  numExecTokens := (x.request.stepShape cfg x.cached).2
  confidenceThreshold := x.confidenceThreshold

def inputs (cfg : Config κ) (width : ℕ) (batch : List Turn) : Inputs :=
  Inputs.prepare width (batch.map fun x => (x.request.stepShape cfg x.cached).1)
    (batch.map fun x => (x.request.stepShape cfg x.cached).2)

def base (cfg : Config κ) (batch : List Turn) (i : ℕ) : ℕ :=
  ((batch.take i).map fun x => (x.request.stepShape cfg x.cached).2).sum

theorem isPlace_inputs {batch : List Turn} {i : ℕ} (width : ℕ) (hx : batch[i]? = some x) {pos : ℕ}
    (hlow : (x.request.stepShape cfg x.cached).1 ≤ pos)
    (hhigh : pos < (x.request.stepShape cfg x.cached).1 + (x.request.stepShape cfg x.cached).2) :
    (inputs cfg width batch).IsPlace width i pos
      (base cfg batch i + (pos - (x.request.stepShape cfg x.cached).1)) := by
  have hn : (batch.map fun x => (x.request.stepShape cfg x.cached).2)[i]? =
      some (x.request.stepShape cfg x.cached).2 := by
    rw [List.getElem?_map, hx, Option.map_some]
  have hstart : (batch.map fun x => (x.request.stepShape cfg x.cached).1)[i]? =
      some (x.request.stepShape cfg x.cached).1 := by
    rw [List.getElem?_map, hx, Option.map_some]
  have hplace : (inputs cfg width batch).IsPlace width i _ _ :=
    Inputs.isPlace_prepare hn hstart (Nat.sub_lt_left_of_lt_add hlow hhigh)
  rwa [Nat.add_sub_cancel' hlow, ← List.map_take] at hplace

/-- The sampler counts the same places. -/
theorem getElem?_ranges {batch : List Turn} {i : ℕ} (hx : batch[i]? = some x) :
    (Sampler.getOutputRange 0 (batch.map (row cfg)))[i]? =
      some (Sampler.outputRange (base cfg batch i) (x.row cfg)) := by
  have hrow : (batch.map (row cfg))[i]? = some (x.row cfg) := by
    rw [List.getElem?_map, hx, Option.map_some]
  rw [Sampler.getElem?_getOutputRange 0 hrow, Nat.zero_add, ← List.map_take, List.map_map]
  rfl

/-- A step inside a block that executes everything from the block on. -/
structure OpenEnded (cfg : Config κ) (x : Turn) : Prop where
  cachePrefix : cfg.cachePrefix = true
  cacheSuffix : cfg.cacheSuffix = false
  cached : x.cached = true
  started : x.request.isStartOfNewBlock = false

/-- A step executes the whole request, or the block, or everything from the block on. -/
theorem stepShape_cases (hcache : cfg.cacheSuffix = true → cfg.cachePrefix = true) (x : Turn) :
    x.request.stepShape cfg x.cached = (0, x.request.numTokens) ∨
      x.request.stepShape cfg x.cached = (x.request.curBlockStart, x.request.denoiseBlockSize) ∨
      OpenEnded cfg x ∧ x.request.stepShape cfg x.cached =
        (x.request.curBlockStart, x.request.numTokens - x.request.curBlockStart) := by
  unfold Request.stepShape Request.determineRunningExecTokens
  cases hcached : x.cached with
  | false => exact Or.inl rfl
  | true =>
      cases hnew : x.request.isStartOfNewBlock with
      | true => simp
      | false =>
          cases hsuffix : cfg.cacheSuffix with
          | true => simp [hcache hsuffix]
          | false =>
              cases hpre : cfg.cachePrefix with
              | true => exact Or.inr (Or.inr ⟨⟨hpre, hsuffix, hcached, hnew⟩, by simp⟩)
              | false => simp

theorem InBlock.block_le (h : x.InBlock) :
    x.request.curBlockStart + x.request.denoiseBlockSize ≤ x.request.numTokens := by
  have hlive : x.request.numUnmaskedTokens < x.request.maxTokens :=
    h.wellFormed.live.resolve_right fun hc => absurd hc.1 (Nat.ne_of_gt h.output)
  have hle := h.wellFormed.block_le hlive
  rw [Nat.succ_mul] at hle
  rw [h.wellFormed.start, h.wellFormed.length]
  omega

theorem InBlock.covers (h : x.InBlock) (hcache : cfg.cacheSuffix = true → cfg.cachePrefix = true) :
    Sampler.Covers (x.row cfg) := by
  have hblock := h.block_le
  rcases stepShape_cases hcache x with hshape | hshape | ⟨-, hshape⟩
  · refine ⟨?_, ?_⟩ <;> simp only [row, hshape] <;> omega
  · refine ⟨?_, ?_⟩ <;> simp only [row, hshape] <;> omega
  · refine ⟨?_, ?_⟩ <;> simp only [row, hshape] <;> omega

/-- The slice that the sampler takes for a request is its current block, place by place. -/
structure BlockRead (cfg : Config κ) (width : ℕ) (batch : List Turn) (i : ℕ) (x : Turn)
    (ranges : OutputRange) : Prop where
  inside : (ranges.reqStart : ℤ) ≤ ranges.unmaskStart ∧ ranges.unmaskEnd ≤ ranges.reqEnd
  length : ranges.unmaskEnd = ranges.unmaskStart + x.request.denoiseBlockSize
  place : ∀ j < x.request.denoiseBlockSize, ∃ k : ℕ, (k : ℤ) = ranges.unmaskStart + j ∧
    (inputs cfg width batch).IsPlace width i (x.request.curBlockStart + j) k
  token : ∀ tokenIdsCpu ids, (∀ row ∈ tokenIdsCpu, row.length = width) →
    (inputs cfg width batch).inputIds tokenIdsCpu = .ok ids →
    ∀ j < x.request.denoiseBlockSize, x.request.curBlockStart + j < width →
    ∀ k : ℕ, (k : ℤ) = ranges.unmaskStart + j →
      ids[k]? = tokenIdsCpu[i]?.bind fun row => row[x.request.curBlockStart + j]?
  pairs : ∀ cells out pairs, Sampler.unmask width (batch.map (row cfg)) cells = .ok out →
    out[i]? = some pairs → ∀ p ∈ pairs, ∃ k c, (inputs cfg width batch).IsPlace width i p.1 k ∧
      ranges.unmaskStart ≤ (k : ℤ) ∧ (k : ℤ) < ranges.unmaskEnd ∧
      cells[k]? = some c ∧ c.isMask = true ∧ c.token = p.2

/-- In a batch by the scheduler's rules, the sampler reads the block of every request. -/
theorem sampler_reads_block (hcache : cfg.cacheSuffix = true → cfg.cachePrefix = true)
    {batch : List Turn} (hbatch : ∀ x ∈ batch, x.InBlock) (width : ℕ) {i : ℕ}
    (hx : batch[i]? = some x) :
    ∃ ranges, (Sampler.getOutputRange 0 (batch.map (row cfg)))[i]? = some ranges ∧
      BlockRead cfg width batch i x ranges := by
  have hcovers := (hbatch x (List.mem_of_getElem? hx)).covers hcache
  have hstart := hcovers.start_le
  have hend := hcovers.le_end
  simp only [row] at hstart hend
  -- the block begins as many places after the request as its position is after the first one
  have hfrom : (Sampler.outputRange (base cfg batch i) (x.row cfg)).unmaskStart =
      ((base cfg batch i + (x.request.curBlockStart - (x.request.stepShape cfg x.cached).1) : ℕ) :
        ℤ) := by
    simp only [Sampler.outputRange, row]
    omega
  have hto : (Sampler.outputRange (base cfg batch i) (x.row cfg)).unmaskEnd =
      ((base cfg batch i + (x.request.curBlockStart - (x.request.stepShape cfg x.cached).1) +
        x.request.denoiseBlockSize : ℕ) : ℤ) := by
    simp only [Sampler.outputRange, row]
    omega
  have hplace : ∀ j < x.request.denoiseBlockSize, (inputs cfg width batch).IsPlace width i
      (x.request.curBlockStart + j) (base cfg batch i +
        (x.request.curBlockStart - (x.request.stepShape cfg x.cached).1) + j) := by
    intro j hj
    rw [Nat.add_assoc, ← Nat.sub_add_comm hstart]
    exact isPlace_inputs width hx (by omega) (by omega)
  refine ⟨_, getElem?_ranges hx, ⟨⟨?_, ?_⟩, ?_, ?_, ?_, ?_⟩⟩
  · rw [hfrom]
    simp only [Sampler.outputRange]
    omega
  · rw [hto]
    simp only [Sampler.outputRange, row]
    omega
  · rw [hfrom, hto]
    omega
  · intro j hj
    exact ⟨_, by rw [hfrom]; exact Nat.cast_add _ _, hplace j hj⟩
  · intro tokenIdsCpu ids hwidth hids j hj hpos k hk
    rw [hfrom] at hk
    have hk' : k = base cfg batch i +
        (x.request.curBlockStart - (x.request.stepShape cfg x.cached).1) + j := by omega
    rw [hk']
    exact (hplace j hj).getElem?_inputIds hwidth hpos hids
  · intro cells out pairs hout hpairs p hp
    obtain ⟨j, c, hj, hmask, rfl⟩ := Sampler.getElem?_unmask hout hpairs (getElem?_ranges hx) p hp
    rw [hfrom, hto, slice_natCast, List.getElem?_drop, List.getElem?_take] at hj
    split_ifs at hj with hlt
    have hj' : j < x.request.denoiseBlockSize := by omega
    refine ⟨_, c, hplace j hj', ?_, ?_, hj, hmask, rfl⟩
    · rw [hfrom]
      omega
    · rw [hto]
      omega

end Turn

/-- A request with two blocks that has unmasked one of two positions in the current one. -/
def Request.halfway (r : ReqId) (curBlock : ℕ) (unmasked : List (ℕ × Token)) : Request :=
  { Request.small r with
    unmaskedTokenIds := unmasked
    denoiseBlockSize := 2
    curBlock
    curBlockStart := 1 + curBlock * 2
    curBlockNumUnmaskedTokens := 1 }

namespace Turn

def inFirst : Turn := ⟨.halfway "a" 0 [(1, 7)], true, 1⟩

def inSecond : Turn := ⟨.halfway "b" 1 [(1, 7), (2, 7), (3, 7)], true, 1⟩

theorem inBlock_both : ∀ x ∈ [inFirst, inSecond], x.InBlock := by
  intro x hx
  rcases List.mem_cons.mp hx with rfl | hx
  · exact ⟨⟨by decide, by decide, rfl, rfl, rfl, by decide, by decide⟩, by decide⟩
  · rw [List.mem_singleton] at hx
    rw [hx]
    exact ⟨⟨by decide, by decide, rfl, rfl, rfl, by decide, by decide⟩, by decide⟩

/-- With a cached prefix only, the first request has four places. The block of the second one
comes after them. -/
theorem sampler_reads_second_block :
    ∃ ranges, (Sampler.getOutputRange 0 ([inFirst, inSecond].map
      (row (Config.small true false none))))[1]? = some ranges ∧ ranges.unmaskStart = 4 ∧
      BlockRead (Config.small true false none) 8 [inFirst, inSecond] 1 inSecond ranges := by
  have hread : ∃ ranges, _ ∧
      BlockRead (Config.small true false none) 8 [inFirst, inSecond] 1 inSecond ranges :=
    sampler_reads_block (by decide) inBlock_both 8 rfl
  obtain ⟨ranges, hranges, hread⟩ := hread
  refine ⟨ranges, hranges, ?_, hread⟩
  cases hranges
  decide

end Turn

end TeDiServe

import TeDiServe.Worker.Layout

/-!
# Copying confidences into the rows

After a step the confidences of the output positions are copied into the row of the request.
Where they come from and where they go is computed by one formula for full and for cached
steps. In a cached step it takes all executed places, and puts them where the block is. If the
suffix is not cached these are the places from the block on, and there are as many of them as
the block has positions only in the last block.
-/

namespace TeDiServe

/-- `row[start:stop] = values`: as many values as there are columns, or one for all. -/
def assignSlice {γ : Type} (row : List γ) (start stop : ℕ) (values : List γ) :
    Except PyError (List γ) :=
  let n := Sampler.columns row.length start stop
  if values.length = n then .ok (row.take start ++ values ++ row.drop (start + n))
  else
    match values with
    | [v] => .ok (row.take start ++ List.replicate n v ++ row.drop (start + n))
    | _ => .error .runtime

theorem assignSlice_eq_ok {γ : Type} {row values : List γ} {start stop : ℕ} (hle : start ≤ stop)
    (hstop : stop ≤ row.length) (hlen : values.length = stop - start) :
    ∃ row', assignSlice row start stop values = .ok row' ∧ row'.length = row.length ∧
      ∀ pos, row'[pos]? = if start ≤ pos ∧ pos < stop then values[pos - start]? else row[pos]? := by
  have hcols : Sampler.columns row.length start stop = stop - start := by
    rw [Sampler.columns]
    omega
  refine ⟨row.take start ++ values ++ row.drop stop, ?_, ?_, fun pos => ?_⟩
  · unfold assignSlice
    dsimp only
    rw [hcols, if_pos hlen, Nat.add_sub_cancel' hle]
  · rw [List.length_append, List.length_append, List.length_take, List.length_drop]
    omega
  · rw [List.append_assoc, List.getElem?_append, List.length_take, List.getElem?_take,
      List.getElem?_append, List.getElem?_drop]
    by_cases hlow : pos < start
    · rw [if_pos (by omega), if_pos hlow, if_neg (by omega)]
    · rw [if_neg (by omega)]
      by_cases hhigh : pos < stop
      · rw [if_pos (by omega), if_pos (by omega), Nat.min_eq_left (by omega)]
      · rw [if_neg (by omega), if_neg (by omega)]
        congr 1
        omega

namespace Turn

variable {κ : Type} {cfg : Config κ} {x : Turn} {batch : List Turn} {width i : ℕ}

/-! ## The places of a batch -/

theorem length_positions (cfg : Config κ) (width : ℕ) (batch : List Turn) :
    (inputs cfg width batch).positions.length =
      (batch.map fun x => (x.request.stepShape cfg x.cached).2).sum := by
  rw [inputs, Inputs.positions_prepare, List.length_flatMap]
  simp only [List.length_map, List.length_range]
  rw [Inputs.map_snd_numbered]

theorem base_add_le (hx : batch[i]? = some x) :
    base cfg batch i + (x.request.stepShape cfg x.cached).2 ≤
      (inputs cfg width batch).positions.length := by
  have hsplit : batch = batch.take i ++ x :: batch.drop (i + 1) := by
    obtain ⟨hlt, rfl⟩ := List.getElem?_eq_some_iff.mp hx
    rw [List.getElem_cons_drop, List.take_append_drop]
  rw [length_positions]
  conv_rhs => rw [hsplit]
  rw [List.map_append, List.sum_append, List.map_cons, List.sum_cons, base]
  omega

/-! ## Aligned copies -/

/-- The confidences of a request come from the places of the positions they go to. So they
are stored there and nowhere else. -/
structure Aligned (cfg : Config κ) (width : ℕ) (batch : List Turn) (i : ℕ) (x : Turn)
    (ranges : OutputRange) : Prop where
  length : ranges.outputConfidenceEnd - ranges.outputConfidenceStart =
    ranges.outputPosEnd - ranges.outputPosStart
  place : ∀ k < ranges.outputConfidenceEnd - ranges.outputConfidenceStart,
    (inputs cfg width batch).IsPlace width i (ranges.outputPosStart + k)
      (ranges.outputConfidenceStart + k)
  stored : ∀ {γ : Type} (row confidence : List γ), row.length = width →
    x.request.numTokens ≤ width → confidence.length = (inputs cfg width batch).positions.length →
    ∃ row', assignSlice row ranges.outputPosStart ranges.outputPosEnd
        (slice confidence ranges.outputConfidenceStart ranges.outputConfidenceEnd) = .ok row' ∧
      ∀ pos, row'[pos]? =
        if ranges.outputPosStart ≤ pos ∧ pos < ranges.outputPosEnd then
          confidence[ranges.outputConfidenceStart + (pos - ranges.outputPosStart)]?
        else row[pos]?

/-- What makes a copy aligned: as many places of the request as there are positions, all of
them executed. -/
theorem aligned_of_ranges {ranges : OutputRange} (hx : batch[i]? = some x)
    (hle : ranges.outputPosStart ≤ ranges.outputPosEnd)
    (hlow : (x.request.stepShape cfg x.cached).1 ≤ ranges.outputPosStart)
    (hhigh : ranges.outputPosEnd ≤
      (x.request.stepShape cfg x.cached).1 + (x.request.stepShape cfg x.cached).2)
    (hstart : ranges.outputConfidenceStart = base cfg batch i +
      (ranges.outputPosStart - (x.request.stepShape cfg x.cached).1))
    (hend : ranges.outputConfidenceEnd = base cfg batch i +
      (ranges.outputPosEnd - (x.request.stepShape cfg x.cached).1))
    (hfits : ranges.outputPosEnd ≤ x.request.numTokens) :
    Aligned cfg width batch i x ranges := by
  refine ⟨by omega, ?_, ?_⟩
  · intro k hk
    have hplace : ranges.outputConfidenceStart + k = base cfg batch i +
        (ranges.outputPosStart + k - (x.request.stepShape cfg x.cached).1) := by omega
    rw [hplace]
    exact isPlace_inputs width hx (by omega) (by omega)
  · intro γ row confidence hwidth hnum hlen
    have hbase : base cfg batch i + (x.request.stepShape cfg x.cached).2 ≤
        (inputs cfg width batch).positions.length := base_add_le hx
    have hstop : ranges.outputPosEnd ≤ row.length := hwidth ▸ hfits.trans hnum
    have hslice : (slice confidence (ranges.outputConfidenceStart : ℤ)
        (ranges.outputConfidenceEnd : ℤ)).length = ranges.outputPosEnd - ranges.outputPosStart := by
      rw [slice_natCast, List.length_drop, List.length_take]
      omega
    obtain ⟨row', hrow', -, hget⟩ := assignSlice_eq_ok hle hstop hslice
    refine ⟨row', hrow', fun pos => ?_⟩
    rw [hget pos]
    by_cases hpos : ranges.outputPosStart ≤ pos ∧ pos < ranges.outputPosEnd
    · rw [if_pos hpos, if_pos hpos, slice_natCast, List.getElem?_drop, List.getElem?_take,
        if_pos (by omega)]
    · rw [if_neg hpos, if_neg hpos]

/-- A step from the middle of the output to its end: it neither begins at the first position
nor ends with the block. -/
structure Overlong (cfg : Config κ) (x : Turn) : Prop where
  openEnded : OpenEnded cfg x
  start : x.request.curBlockStart ≠ 0
  notLast : x.request.curBlockStart + x.request.denoiseBlockSize < x.request.numTokens

theorem OpenEnded.stepShape_eq (h : OpenEnded cfg x) : x.request.stepShape cfg x.cached =
    (x.request.curBlockStart, x.request.numTokens - x.request.curBlockStart) := by
  simp [Request.stepShape, Request.determineRunningExecTokens, h.cached, h.started, h.cachePrefix,
    h.cacheSuffix]

theorem InBlock.aligned (hblock : x.InBlock) (hx : batch[i]? = some x)
    (hshape : x.request.stepShape cfg x.cached = (0, x.request.numTokens) ∨
      x.request.stepShape cfg x.cached = (x.request.curBlockStart, x.request.denoiseBlockSize)) :
    Aligned cfg width batch i x (Sampler.outputRange (base cfg batch i) (x.row cfg)) := by
  have hle := hblock.block_le
  have hlength := hblock.wellFormed.length
  -- a block of all positions begins with the first one
  by_cases hnum : x.request.numTokens = (x.request.stepShape cfg x.cached).2
  · have hzero : (x.request.stepShape cfg x.cached).1 = 0 := by
      rcases hshape with hshape | hshape <;> rw [hshape] at hnum ⊢
      dsimp only at hnum ⊢
      omega
    apply aligned_of_ranges hx <;>
      simp only [Sampler.outputRange, row, if_pos hnum, hzero] <;> omega
  · have hcached := hshape.resolve_left fun hfull => hnum (by rw [hfull])
    have hnum' : x.request.numTokens ≠ x.request.denoiseBlockSize := by
      rw [hcached] at hnum
      exact hnum
    apply aligned_of_ranges hx <;>
      simp only [Sampler.outputRange, row, hcached, if_neg hnum'] <;> omega

theorem InBlock.aligned_iff (hcache : cfg.cacheSuffix = true → cfg.cachePrefix = true)
    (hblock : x.InBlock) (hx : batch[i]? = some x) :
    Aligned cfg width batch i x (Sampler.outputRange (base cfg batch i) (x.row cfg)) ↔
      ¬Overlong cfg x := by
  have hle := hblock.block_le
  constructor
  · intro halign hover
    have hlen := halign.length
    have hstart := hover.start
    have hlast := hover.notLast
    simp only [Sampler.outputRange, row, hover.openEnded.stepShape_eq] at hlen
    rw [if_neg (by omega), if_neg (by omega), if_neg (by omega), if_neg (by omega)] at hlen
    omega
  · intro hover
    refine hblock.aligned hx ?_
    rcases stepShape_cases hcache x with hshape | hshape | ⟨hopen, hshape⟩
    · exact Or.inl hshape
    · exact Or.inr hshape
    · by_cases hzero : x.request.curBlockStart = 0
      · left
        rw [hshape, hzero, Nat.sub_zero]
      · right
        have hlast : ¬x.request.curBlockStart + x.request.denoiseBlockSize < x.request.numTokens :=
          fun hc => hover ⟨hopen, hzero, hc⟩
        rw [hshape]
        congr 1
        omega

/-- The copies of a batch are aligned exactly if no step goes beyond its block in the middle
of the output. -/
theorem confidences_aligned_iff (hcache : cfg.cacheSuffix = true → cfg.cachePrefix = true)
    (hbatch : ∀ x ∈ batch, x.InBlock) (width : ℕ) :
    (∀ i x, batch[i]? = some x →
      ∃ ranges, (Sampler.getOutputRange 0 (batch.map (row cfg)))[i]? = some ranges ∧
        Aligned cfg width batch i x ranges) ↔ ∀ x ∈ batch, ¬Overlong cfg x := by
  constructor
  · intro h x hx
    obtain ⟨i, hi⟩ := List.mem_iff_getElem?.mp hx
    obtain ⟨ranges, hranges, halign⟩ := h i x hi
    rw [getElem?_ranges hi, Option.some.injEq] at hranges
    exact ((hbatch x hx).aligned_iff hcache hi).mp (hranges ▸ halign)
  · intro h i x hi
    have hx := List.mem_of_getElem? hi
    exact ⟨_, getElem?_ranges hi, ((hbatch x hx).aligned_iff hcache hi).mpr (h x hx)⟩

/-- With both caches the second of two steps inside their blocks is copied in line. -/
theorem confidences_aligned_both : (∀ x ∈ [inFirst, inSecond], x.InBlock) ∧
    ∃ ranges, (Sampler.getOutputRange 0 ([inFirst, inSecond].map
      (row (Config.small true true none))))[1]? = some ranges ∧
      Aligned (Config.small true true none) 8 [inFirst, inSecond] 1 inSecond ranges :=
  ⟨inBlock_both, (confidences_aligned_iff (fun _ => rfl) inBlock_both 8).mpr (fun _ _ hover =>
    absurd hover.openEnded.cacheSuffix (by decide)) 1 inSecond rfl⟩

/-- With a cached prefix only, a step inside the first of two blocks has four confidences for
two columns, and storing them fails. -/
theorem confidences_of_first_block :
    inFirst.InBlock ∧
    (Sampler.getOutputRange 0 [inFirst.row (Config.small true false none)]).map
      (fun ranges => (ranges.outputConfidenceStart, ranges.outputConfidenceEnd,
        ranges.outputPosStart, ranges.outputPosEnd)) = [(0, 4, 1, 3)] ∧
    (assignSlice (List.replicate 8 (0 : ℕ)) 1 3 (slice [5, 6, 7, 8] 0 4)).Ensures
      (fun err => err = .runtime) fun _ => False :=
  ⟨inBlock_both _ List.mem_cons_self, by decide, by decide⟩

end Turn

end TeDiServe

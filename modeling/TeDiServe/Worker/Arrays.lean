import TeDiServe.Worker.Step
import TeDiServe.Worker.Unmask

/-!
# A step with whole arrays

`Runner.sample` goes through the rows of the batch: the executed positions of each row are
read with `prepareInput`, and the sampler unmasks one row after the other. The program does
this with arrays over all rows, which `Inputs.prepare` and `UnmaskArgs.unmask` are about.
Both read the same tokens at the same places, and both unmask the same pairs or raise the
same error.
-/

namespace TeDiServe

open Runner

/-! ## Reading the tokens -/

namespace Inputs

variable {w : WorkerConfig} {msg : SchedulerOutput} {predict : Prediction} {width : ℕ}
  {rows : List (ReqId × Row)} {inputs : List Runner.Input} {tokenIdsCpu : List (List Token)}

def cellOf (w : WorkerConfig) (predict : Prediction) (r : ReqId) (pos : ℕ) (token : Token) : Cell :=
  { isMask := token = w.maskTokenId
    token := (predict r pos).1
    confidence := (predict r pos).2 }

structure Reads (w : WorkerConfig) (predict : Prediction) (y : ReqId × Row) (inp : Runner.Input) :
    Prop where
  length : inp.cells.length = inp.numExecTokens
  cell : ∀ j c, inp.cells[j]? = some c → ∃ token,
    y.2.tokenIds[inp.execStartPos + j]? = some token ∧
      c = cellOf w predict y.1 (inp.execStartPos + j) token

theorem ensures_prepareInput_reads (y : ReqId × Row) :
    (prepareInput w msg predict y).Ensures (fun _ => True) (Reads w predict y) := by
  refine ensures_bind_any _ fun n => ensures_bind_any _ fun start => ?_
  have hread : ∀ pos ∈ List.range' start n, (readCell w predict y.1 y.2 pos).Ensures
      (fun _ => True) fun c => ∃ token, y.2.tokenIds[pos]? = some token ∧
        c = cellOf w predict y.1 pos token := by
    intro pos _
    unfold readCell
    rw [ensures_bind, ensures_item]
    exact ⟨fun token htoken => ⟨token, htoken, rfl⟩, fun _ => trivial⟩
  apply (ensures_mapM _ hread).bind
  intro cells hcells
  refine ensures_bind_any _ fun threshold => ⟨?_, ?_⟩
  · rw [← hcells.length_eq, List.length_range']
  · intro j c hc
    obtain ⟨pos, hpos, hcell⟩ := exists_getElem?_of_forall₂ hcells.flip hc
    have hlt : j < n := by
      simpa using (List.getElem?_eq_some_iff.mp hpos).1
    rw [List.getElem?_range' hlt, Option.some.injEq, Nat.one_mul] at hpos
    rw [← hpos] at hcell
    exact hcell

/-- The arrays for the places of these inputs. -/
def ofInputs (width : ℕ) (inputs : List Runner.Input) : Inputs :=
  prepare width (inputs.map Input.execStartPos) (inputs.map Input.numExecTokens)

/-- The token array has the tokens of the rows, and whatever was left behind them. -/
structure Stores (width : ℕ) (rows : List (ReqId × Row)) (tokenIdsCpu : List (List Token)) :
    Prop where
  width : ∀ row ∈ tokenIdsCpu, row.length = width
  tokens : List.Forall₂ (fun y row => y.2.tokenIds <+: row) rows tokenIdsCpu

theorem length_cells (hreads : List.Forall₂ (Reads w predict) rows inputs) :
    ∀ inp ∈ inputs, inp.cells.length = inp.numExecTokens := by
  intro inp hinp
  obtain ⟨i, hi⟩ := List.mem_iff_getElem?.mp hinp
  obtain ⟨y, -, hy⟩ := exists_getElem?_of_forall₂ hreads.flip hi
  exact hy.length

theorem length_tokenIndices (hreads : List.Forall₂ (Reads w predict) rows inputs) :
    (ofInputs width inputs).tokenIndices.length = (inputs.flatMap Input.cells).length := by
  rw [ofInputs, tokenIndices_prepare, List.length_flatMap, List.length_flatMap]
  simp only [List.length_map, List.length_range]
  rw [map_snd_numbered, List.map_congr_left (length_cells hreads)]

theorem exists_place (hreads : List.Forall₂ (Reads w predict) rows inputs)
    (hstores : Stores width rows tokenIdsCpu) {k : ℕ} {c : Cell}
    (hc : (inputs.flatMap Input.cells)[k]? = some c) : ∃ i pos y token,
      (ofInputs width inputs).IsPlace width i pos k ∧ rows[i]? = some y ∧
      tokenIdsCpu.flatten[pos + i * width]? = some token ∧ c = cellOf w predict y.1 pos token := by
  obtain ⟨i, inp, j, hinp, hj, rfl⟩ := Ragged.exists_of_getElem?_flatMap _ hc
  obtain ⟨y, hy, hread⟩ := exists_getElem?_of_forall₂ hreads.flip hinp
  obtain ⟨token, htoken, rfl⟩ := hread.cell j c hj
  obtain ⟨row, hrow, hpre⟩ := exists_getElem?_of_forall₂ hstores.tokens hy
  have hlt : j < inp.numExecTokens := hread.length ▸ (List.getElem?_eq_some_iff.mp hj).1
  have hn : (inputs.map Input.numExecTokens)[i]? = some inp.numExecTokens := by
    rw [List.getElem?_map, hinp, Option.map_some]
  have hstart : (inputs.map Input.execStartPos)[i]? = some inp.execStartPos := by
    rw [List.getElem?_map, hinp, Option.map_some]
  have hplace : (ofInputs width inputs).IsPlace width i _ _ := isPlace_prepare hn hstart hlt
  rw [← List.map_take,
    ← List.map_congr_left fun b hb => length_cells hreads b (List.mem_of_mem_take hb)] at hplace
  have hget : row[inp.execStartPos + j]? = some token := by
    obtain ⟨hpos, rfl⟩ := List.getElem?_eq_some_iff.mp htoken
    rw [hpre.getElem hpos]
    exact List.getElem?_eq_getElem (hpos.trans_le hpre.length_le)
  refine ⟨i, inp.execStartPos + j, y, token, hplace, hy, ?_, rfl⟩
  have hwidth : inp.execStartPos + j < width :=
    hstores.width row (List.mem_of_getElem? hrow) ▸ (List.getElem?_eq_some_iff.mp hget).1
  rw [Ragged.getElem?_flatten hstores.width i hwidth, hrow]
  exact hget

/-- If the rows can be read one by one, then the tokens can be read with the arrays of the
batch, and the cell at every place has the token that is read there. -/
theorem ensures_inputIds (h : rows.mapM (prepareInput w msg predict) = .ok inputs)
    (hstores : Stores width rows tokenIdsCpu) :
    ((ofInputs width inputs).inputIds tokenIdsCpu).Ensures (fun _ => False) fun ids =>
      ids.length = (inputs.flatMap Input.cells).length ∧
      ∀ k c, (inputs.flatMap Input.cells)[k]? = some c → ∃ i pos y token,
        (ofInputs width inputs).IsPlace width i pos k ∧ rows[i]? = some y ∧
        ids[k]? = some token ∧ c = cellOf w predict y.1 pos token := by
  have hreads : List.Forall₂ (Reads w predict) rows inputs :=
    ensures_of_ok (ensures_mapM _ fun y _ => ensures_prepareInput_reads y) h
  have hlen : (ofInputs width inputs).tokenIndices.length = _ := length_tokenIndices hreads
  have hread : ∀ t ∈ (ofInputs width inputs).tokenIndices,
      (item tokenIdsCpu.flatten t).Ensures (fun _ => False) fun id =>
        tokenIdsCpu.flatten[t]? = some id := by
    intro t ht
    obtain ⟨k, hk⟩ := List.mem_iff_getElem?.mp ht
    have hlt : k < (inputs.flatMap Input.cells).length :=
      hlen ▸ (List.getElem?_eq_some_iff.mp hk).1
    obtain ⟨i, pos, y, token, hplace, -, htoken, -⟩ :=
      exists_place hreads hstores (List.getElem?_eq_getElem hlt)
    rw [hplace.tokenIndex, Option.some.injEq] at hk
    rw [ensures_item, ← hk, htoken]
    exact ⟨fun _ hid => hid, fun hc => by cases hc⟩
  apply (ensures_mapM _ hread).imp
  intro ids hids
  refine ⟨hids.length_eq.symm.trans hlen, ?_⟩
  intro k c hc
  obtain ⟨i, pos, y, token, hplace, hy, htoken, rfl⟩ := exists_place hreads hstores hc
  obtain ⟨id, hid, hget⟩ := exists_getElem?_of_forall₂ hids hplace.tokenIndex
  rw [htoken] at hget
  exact ⟨i, pos, y, token, hplace, hy, hid.trans hget.symm, rfl⟩

end Inputs

/-! ## Unmasking -/

namespace UnmaskArgs

/-- The first of the best ones. -/
theorem argmax_eq_getElem?_firstMax {α : Type} (f : α → ℚ) (l : List α) :
    l.argmax f = l[firstMax (l.map f)]? := by
  classical
  by_cases hnil : l = []
  · rw [hnil]
    rfl
  obtain ⟨v, hv, hmax⟩ := getElem?_firstMax (l := l.map f) (by simpa using hnil)
  rw [List.getElem?_map] at hv
  obtain ⟨top, htop, rfl⟩ := Option.map_eq_some_iff.mp hv
  rw [htop, List.argmax_eq_some_iff]
  refine ⟨List.mem_of_getElem? htop, fun a ha => hmax _ (List.mem_map_of_mem ha), ?_⟩
  intro a ha hle
  obtain ⟨hlt, hget⟩ := List.getElem?_eq_some_iff.mp htop
  have htopIdx : l.idxOf top ≤ firstMax (l.map f) := by
    by_contra hgt
    have hno := List.not_of_lt_findIdx (Nat.lt_of_not_le hgt)
    simp [hget] at hno
  refine htopIdx.trans ?_
  -- the places before the first maximal one are not maximal
  have ha' : l.idxOf a < l.length := List.idxOf_lt_length_of_mem ha
  by_contra hgt
  have hno := List.not_of_lt_findIdx (Nat.lt_of_not_le hgt)
  simp only [List.getElem_map, List.getElem_idxOf, decide_eq_false_iff_not] at hno
  exact hno fun b hb => (hmax b hb).trans hle

variable {args : UnmaskArgs ℚ} {cells : List Cell} {ranges : OutputRange} {i maxModelLen : ℕ}

/-- The arguments are made of the cells of a batch. -/
structure Holds (args : UnmaskArgs ℚ) (cells : List Cell) : Prop where
  isMask : args.isMask = cells.map Cell.isMask
  logits : args.logits = cells.map fun c => (c.token, c.confidence)
  thresholds : args.confidenceThresholds = args.rows.map SamplerRow.confidenceThreshold
  argmax : args.argmax = firstMax

def maskedCells (cells : List Cell) (ranges : OutputRange) : List (Cell × ℕ) :=
  setCells Cell.isMask (slice cells ranges.unmaskStart ranges.unmaskEnd)

def split (x : Cell × ℕ) : (Bool × Token × ℚ) × ℕ := ((x.1.isMask, x.1.token, x.1.confidence), x.2)

namespace Holds

variable (h : args.Holds cells)
include h

theorem length_logits : args.logits.length = args.isMask.length := by
  rw [h.logits, h.isMask, List.length_map, List.length_map]

theorem masked_eq : args.masked ranges = (maskedCells cells ranges).map split := by
  have hcells : args.cells = cells.map fun c => (c.isMask, c.token, c.confidence) := by
    rw [UnmaskArgs.cells, h.isMask, h.logits]
    exact List.zip_map'
  rw [masked, hcells, slice_map, setCells, List.zipIdx_map, List.filter_map]
  rfl

theorem above_eq (threshold : ℚ) : args.above ranges threshold =
    ((maskedCells cells ranges).filter fun x => threshold < x.1.confidence).map split := by
  rw [above, h.masked_eq, List.filter_map]
  rfl

theorem selectTokens_eq {threshold : ℚ} {best : Option (Cell × ℕ)}
    (hbest : (maskedCells cells ranges)[firstMax ((maskedCells cells ranges).map
      fun x => x.1.confidence)]? = best) :
    Sampler.selectTokens (slice cells ranges.unmaskStart ranges.unmaskEnd) ranges.blockStart
      threshold =
    match best with
    | none => .error .index
    | some top =>
        let above := args.above ranges threshold
        .ok ((if above = [] then [split top] else above).map (pairOf ranges)) := by
  have hmasked : ((slice cells ranges.unmaskStart ranges.unmaskEnd).zipIdx
      ranges.blockStart).filter (fun x => x.1.isMask) =
        (maskedCells cells ranges).map fun x => (x.1, ranges.blockStart + x.2) := by
    rw [List.zipIdx_eq_map_add, List.filter_map]
    rfl
  have hargmax : ((maskedCells cells ranges).map fun x => (x.1, ranges.blockStart + x.2)).argmax
      (fun x => x.1.confidence) = best.map fun x => (x.1, ranges.blockStart + x.2) := by
    rw [argmax_eq_getElem?_firstMax, List.map_map, List.getElem?_map]
    exact congrArg _ hbest
  unfold Sampler.selectTokens
  dsimp only
  rw [hmasked, hargmax, List.filter_map, h.above_eq]
  cases best with
  | none => rfl
  | some top =>
      have hpairs : ∀ l : List (Cell × ℕ),
          (if l.map (fun x => (x.1, ranges.blockStart + x.2)) = []
            then [(top.1, ranges.blockStart + top.2)]
            else l.map fun x => (x.1, ranges.blockStart + x.2)).map (fun x => (x.2, x.1.token)) =
          (if l.map split = [] then [split top] else l.map split).map (pairOf ranges) := by
        intro l
        cases l with
        | nil => simp [pairOf, split, Nat.add_comm]
        | cons x l => simp [pairOf, split, Nat.add_comm]
      exact congrArg Except.ok (hpairs _)

/-- The padded pairs of a row, without the padding, are the pairs of the sampler. -/
theorem padPairs_eq (ranges : OutputRange) {x : SamplerRow} (hx : args.rows[i]? = some x) :
    (∃ err, Sampler.selectTokens (slice cells ranges.unmaskStart ranges.unmaskEnd)
        ranges.blockStart x.confidenceThreshold = .error err ∧
      args.padPairs i ranges = .error err) ∨
    ∃ pairs padded, Sampler.selectTokens (slice cells ranges.unmaskStart ranges.unmaskEnd)
        ranges.blockStart x.confidenceThreshold = .ok pairs ∧
      args.padPairs i ranges = .ok padded ∧ maskSelect padded.1 padded.2 = .ok pairs := by
  have hitem : item args.confidenceThresholds i = .ok x.confidenceThreshold :=
    item_of_getElem? (by rw [h.thresholds, List.getElem?_map, hx, Option.map_some])
  cases hbest : (maskedCells cells ranges)[firstMax ((maskedCells cells ranges).map
      fun x => x.1.confidence)]? with
  | none =>
      have hnil : maskedCells cells ranges = [] := by
        by_contra hne
        obtain ⟨v, hv, -⟩ := getElem?_firstMax (l := (maskedCells cells ranges).map
          fun x => x.1.confidence) (by simpa using hne)
        rw [List.getElem?_map, hbest] at hv
        cases hv
      refine Or.inl ⟨.index, h.selectTokens_eq hbest, ?_⟩
      unfold padPairs
      dsimp only
      rw [nonzero_slice h.length_logits, h.masked_eq, hnil, hitem]
      rfl
  | some top =>
      have hindex : IsBest args ranges (split top) := by
        constructor
        rw [h.masked_eq, h.argmax, List.getElem?_map, List.map_map]
        exact congrArg _ hbest
      refine Or.inr ⟨_, (_, _), h.selectTokens_eq hbest, ?_,
        maskSelect_padded x.confidenceThreshold (split top)⟩
      rw [UnmaskArgs.padPairs_eq h.length_logits hindex, hitem]
      rfl

end Holds

/-! The confidences only matter for the shape of their array. -/

def HasWidth (maxModelLen : ℕ) (confidences : List (List ℚ)) : Prop :=
  ∀ row ∈ confidences, row.length = maxModelLen

theorem ensures_assignSlice (row values : List ℚ) (start stop : ℕ) :
    (assignSlice row start stop values).Ensures
      (fun err => err = .runtime ∧
        values.length ≠ Sampler.columns row.length start stop ∧ values.length ≠ 1)
      fun row' => row'.length = row.length ∧
        (values.length = Sampler.columns row.length start stop ∨ values.length = 1) := by
  have hcols : ∀ n, n = Sampler.columns row.length start stop →
      min start row.length + n + (row.length - (start + n)) = row.length := by
    intro n hn
    rw [Sampler.columns] at hn
    omega
  unfold assignSlice
  dsimp only
  split_ifs with hlen
  · refine ⟨?_, Or.inl hlen⟩
    simp only [List.length_append, List.length_take, List.length_drop, hlen]
    exact hcols _ rfl
  · split
    · refine ⟨?_, Or.inr rfl⟩
      simp only [List.length_append, List.length_take, List.length_drop, List.length_replicate]
      exact hcols _ rfl
    · next hone =>
        refine ⟨rfl, hlen, fun hc => ?_⟩
        obtain ⟨v, rfl⟩ := List.length_eq_one_iff.mp hc
        exact hone v rfl

/-- The copy succeeds if the sampler finds that it has the right shape, and fails in the same
way otherwise. -/
theorem Holds.copyConfidence_eq (h : args.Holds cells) (m : SamplingMetadata)
    (ranges : OutputRange) {r : ReqId} {index : ℕ} {confidences : List (List ℚ)}
    (hr : args.reqIds[i]? = some r) (hindex : args.reqIdToIndex.get? r = some index)
    (hlt : index < confidences.length) (hwidth : HasWidth maxModelLen confidences) :
    (∃ err, Sampler.copyConfidences maxModelLen m ranges (slice cells
        ranges.outputConfidenceStart ranges.outputConfidenceEnd).length = .error err ∧
      args.copyConfidence i m ranges confidences = .error err) ∨
    ∃ y, Sampler.copyConfidences maxModelLen m ranges (slice cells
        ranges.outputConfidenceStart ranges.outputConfidenceEnd).length = .ok () ∧
      args.copyConfidence i m ranges confidences = .ok y ∧
      y.1.length = confidences.length ∧ HasWidth maxModelLen y.1 := by
  obtain ⟨row, hrow⟩ : ∃ row, confidences[index]? = some row :=
    ⟨_, List.getElem?_eq_getElem hlt⟩
  have hlen := hwidth row (List.mem_of_getElem? hrow)
  have hvalues : (slice (args.logits.map Prod.snd) ranges.outputConfidenceStart
      ranges.outputConfidenceEnd).length =
        (slice cells ranges.outputConfidenceStart ranges.outputConfidenceEnd).length := by
    simp only [h.logits, List.map_map, slice_map, List.length_map]
  have hassign := ensures_assignSlice row (slice (args.logits.map Prod.snd)
    ranges.outputConfidenceStart ranges.outputConfidenceEnd) ranges.outputPosStart
    ranges.outputPosEnd
  rw [hvalues, hlen] at hassign
  unfold copyConfidence Sampler.copyConfidences
  dsimp only
  rw [item_of_getElem? hr, ok_bind, subscript_of_get? _ hindex, ok_bind, item_of_getElem? hrow,
    ok_bind]
  cases hres : assignSlice row ranges.outputPosStart ranges.outputPosEnd _ with
  | error err =>
      rw [hres] at hassign
      obtain ⟨rfl, hne⟩ := hassign
      exact Or.inl ⟨.runtime, if_pos hne, rfl⟩
  | ok row' =>
      rw [hres] at hassign
      obtain ⟨hrow', hok⟩ := hassign
      have hempty : (slice row' (m.numPromptTokens : ℤ) m.numTokens).isEmpty = true ↔
          Sampler.columns maxModelLen m.numPromptTokens m.numTokens = 0 := by
        rw [slice_natCast, List.isEmpty_iff, ← List.length_eq_zero_iff, List.length_drop,
          List.length_take, hrow', Sampler.columns]
        omega
      rw [if_neg (by tauto), ok_bind]
      by_cases hout : Sampler.columns maxModelLen m.numPromptTokens m.numTokens = 0
      · rw [if_pos hout, if_pos (hempty.mpr hout)]
        exact Or.inl ⟨.runtime, rfl, rfl⟩
      · rw [if_neg hout, if_neg (mt hempty.mp hout)]
        refine Or.inr ⟨_, rfl, rfl, List.length_set, ?_⟩
        intro row'' hmem
        rcases List.mem_or_eq_of_mem_set hmem with hmem | rfl
        · exact hwidth row'' hmem
        · exact hrow'

/-- The requests of the rows have a row of the array, which is as wide as a row of tokens. -/
structure Indexed (maxModelLen : ℕ) (args : UnmaskArgs ℚ) (confidences : List (List ℚ)) :
    Prop where
  index : ∀ i < args.rows.length, ∃ r index, args.reqIds[i]? = some r ∧
    args.reqIdToIndex.get? r = some index ∧ index < confidences.length
  width : HasWidth maxModelLen confidences

theorem Holds.foldlM_padRow (h : args.Holds cells) {l : List ((SamplerRow × OutputRange) × ℕ)}
    (hl : ∀ y ∈ l, args.rows[y.2]? = some y.1.1) {s : Padding ℚ}
    {done : List (List (ℕ × Token))} (hindexed : Indexed maxModelLen args s.confidences)
    (hdone : s.pairsPadded.mapM (fun x => maskSelect x.1 x.2) = .ok done) :
    (l.foldlM args.padRow s >>= finish).map Unmasked.unmaskedTokens =
      (l.mapM fun y => Sampler.unmaskRow maxModelLen cells y.1.1 y.1.2).map (done ++ ·) := by
  induction l generalizing s done with
  | nil =>
      change (finish s).map _ = _
      rw [finish, hdone]
      exact congrArg Except.ok (List.append_nil _).symm
  | cons y l ih =>
      have hy := hl y List.mem_cons_self
      obtain ⟨r, index, hr, hindex, hlt⟩ :=
        hindexed.index y.2 (List.getElem?_eq_some_iff.mp hy).1
      rw [List.foldlM_cons, List.mapM_cons, padRow, Sampler.unmaskRow]
      dsimp only
      rcases h.padPairs_eq y.1.2 hy with
        ⟨err, hsel, hpad⟩ | ⟨pairs, padded, hsel, hpad, hkeep⟩
      · rw [hsel, hpad]
        rfl
      rw [hsel, hpad, ok_bind, ok_bind]
      rcases h.copyConfidence_eq y.1.1.metadata y.1.2 hr hindex hlt hindexed.width with
        ⟨err, hcopy, hcopy'⟩ | ⟨z, hcopy, hcopy', hlen, hwidth⟩
      · rw [hcopy, hcopy']
        rfl
      rw [hcopy, hcopy', ok_bind, ok_bind]
      have hdone' : (s.pairsPadded ++ [padded]).mapM (fun x => maskSelect x.1 x.2) =
          .ok (done ++ [pairs]) := by
        rw [List.mapM_append, hdone, ok_bind, List.mapM_cons, hkeep]
        rfl
      have hrest := ih (fun z hz => hl z (List.mem_cons_of_mem y hz))
        (s := ⟨s.pairsPadded ++ [padded], s.outputConf ++ [z.2], z.1⟩)
        ⟨by rw [hlen]; exact hindexed.index, hwidth⟩ hdone'
      refine hrest.trans ?_
      cases l.mapM fun y => Sampler.unmaskRow maxModelLen cells y.1.1 y.1.2 with
      | error err => rfl
      | ok rest => exact congrArg Except.ok (List.append_assoc _ _ _)

/-- The array version unmasks what the sampler unmasks row by row, or raises the same
error. -/
theorem Holds.unmask_eq (h : args.Holds cells) {confidences : List (List ℚ)}
    (hindexed : Indexed maxModelLen args confidences) :
    (args.unmask confidences).map Unmasked.unmaskedTokens =
      Sampler.unmask maxModelLen args.rows cells := by
  have hl : ∀ y ∈ (args.rows.zip (Sampler.getOutputRange 0 args.rows)).zipIdx,
      args.rows[y.2]? = some y.1.1 := by
    intro y hy
    exact (List.getElem?_zip_eq_some.mp (List.mem_zipIdx_iff_getElem?.mp hy)).1
  unfold unmask Sampler.unmask pyAssert
  rw [if_pos (decide_eq_true h.length_logits), ok_bind]
  refine (h.foldlM_padRow hl (s := ⟨[], [], confidences⟩) hindexed rfl).trans ?_
  conv_rhs => rw [← List.zipIdx_map_fst 0 (args.rows.zip _), List.mapM_map]
  have hnil : ∀ x : Except PyError (List (List (ℕ × Token))), x.map ([] ++ ·) = x := by
    intro x
    cases x <;> rfl
  exact hnil _

end UnmaskArgs

end TeDiServe

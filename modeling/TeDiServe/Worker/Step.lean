import TeDiServe.Library.Lists
import TeDiServe.Worker.Follow

/-!
# One step of a worker

Once a worker has followed a message it executes the positions of every row, and every row
gets the pairs of its own block. They are written into the row and into the state, so that
both stay the same.
-/

namespace TeDiServe

def SchedulerOutput.samplerRow (msg : SchedulerOutput) (r : ReqId) (m : SamplingMetadata) :
    SamplerRow :=
  { metadata := m
    execStartPos := msg.execStartPos.getD r 0
    numExecTokens := msg.numScheduledTokens.getD r 0
    confidenceThreshold := msg.confidenceThresholds.getD r 0 }

def Row.cell (w : WorkerConfig) (predict : Prediction) (r : ReqId) (row : Row) (pos : ℕ) : Cell :=
  { isMask := row.tokenIds[pos]? = some w.maskTokenId
    token := (predict r pos).1
    confidence := (predict r pos).2 }

namespace Runner

variable {w : WorkerConfig} {x x' : Runner} {msg : SchedulerOutput} {predict : Prediction}
  {r : ReqId} {i : ℕ} {st : CachedRequestState}

/-! ## Reading -/

theorem ensures_readCell (w : WorkerConfig) (predict : Prediction) (r : ReqId) (row : Row)
    (pos : ℕ) : (readCell w predict r row pos).Ensures (fun _ => row.tokenIds.length ≤ pos) fun c =>
      c = row.cell w predict r pos := by
  unfold readCell
  rw [ensures_bind, ensures_item]
  refine ⟨fun token htoken => ?_, List.getElem?_eq_none_iff.mp⟩
  rw [ensures_pure, Row.cell, htoken]
  simp

structure Listed (msg : SchedulerOutput) (r : ReqId) : Prop where
  tokens : r ∈ msg.numScheduledTokens
  start : r ∈ msg.execStartPos
  threshold : r ∈ msg.confidenceThresholds

theorem ensures_prepareInput (h : Listed msg r) (row : Row) :
    (prepareInput w msg predict (r, row)).Ensures
      (fun _ => row.tokenIds.length < (msg.samplerRow r row.metadata).execStartPos +
        (msg.samplerRow r row.metadata).numExecTokens)
      fun inp => samplerRow row.metadata inp = msg.samplerRow r row.metadata ∧
        inp.cells = Sampler.executed (msg.samplerRow r row.metadata) (row.cell w predict r) := by
  obtain ⟨n, hn⟩ := (Dict.mem_iff_exists _ _).mp h.tokens
  obtain ⟨start, hstart⟩ := (Dict.mem_iff_exists _ _).mp h.start
  obtain ⟨thr, hthr⟩ := (Dict.mem_iff_exists _ _).mp h.threshold
  have hrow : msg.samplerRow r row.metadata = ⟨row.metadata, start, n, thr⟩ := by
    simp only [SchedulerOutput.samplerRow, Dict.getD_of_get? hn, Dict.getD_of_get? hstart,
      Dict.getD_of_get? hthr]
  rw [hrow]
  unfold prepareInput
  rw [ensures_bind, subscript_of_get? _ hn, ensures_ok, ensures_bind,
    subscript_of_get? _ hstart, ensures_ok, ensures_bind]
  have hread : ∀ pos ∈ List.range' start n, (readCell w predict r row pos).Ensures
      (fun _ => row.tokenIds.length < start + n) fun c => c = row.cell w predict r pos := by
    intro pos hpos
    rw [List.mem_range'_1] at hpos
    exact (ensures_readCell w predict r row pos).mono (fun _ hle => by omega) fun _ hc => hc
  apply (ensures_mapM _ hread).imp
  intro cells hcells
  rw [ensures_bind, subscript_of_get? _ hthr, ensures_ok, ensures_pure]
  refine ⟨rfl, ?_⟩
  have hmap : cells.map id = (List.range' start n).map (row.cell w predict r) := by
    rw [← List.forall₂_eq_eq_eq, List.forall₂_map_left_iff, List.forall₂_map_right_iff]
    exact hcells.flip
  rw [List.map_id] at hmap
  exact hmap

/-! ## Writing -/

structure Kept (x x' : Runner) : Prop where
  index : x'.inputBatch.slots.index = x.inputBatch.slots.index
  changed : x'.inputBatch.slots.isChanged = x.inputBatch.slots.isChanged
  metadata : x'.inputBatch.samplingMetadata = x.inputBatch.samplingMetadata
  rows : x'.inputBatch.slots.rows.map (fun y => y.2.metadata) =
    x.inputBatch.slots.rows.map fun y => y.2.metadata

theorem Kept.refl (x : Runner) : Kept x x := ⟨rfl, rfl, rfl, rfl⟩

theorem Kept.trans {x'' : Runner} (h : Kept x x') (h' : Kept x' x'') : Kept x x'' :=
  ⟨h'.index.trans h.index, h'.changed.trans h.changed, h'.metadata.trans h.metadata,
    h'.rows.trans h.rows⟩

theorem Paired.writePair {p : ℕ × Token} (h : Paired w x [])
    (hi : x.inputBatch.slots.index.get? r = some i) (hst : x.requests.get? r = some st)
    (hp : st.promptTokenIds.length ≤ p.1) :
    (Runner.writePair r i x p).Ensures
      (fun _ => (Row.ofRequest w st).tokenIds.length ≤ p.1) fun x' =>
        Paired w x' [] ∧ Kept x x' ∧ x'.requests = x.requests.set r (st.emit [p]) := by
  have hrow : x.inputBatch.slots.get? r = some (Row.ofRequest w st) := by
    rw [h.row, if_neg List.not_mem_nil, hst, Option.map_some]
  obtain ⟨row, hcell, hget⟩ := h.valid.exists_row hi
  rw [hrow, Option.some.injEq] at hget
  subst hget
  unfold Runner.writePair
  rw [ensures_bind, item_of_getElem? hcell, ensures_ok, ensures_bind,
    subscript_of_get? _ hst, ensures_ok]
  dsimp only
  rw [ensures_bind, Row.write]
  split_ifs with hlt
  · have hnum : p.1 < st.numTokens := by
      simp only [Row.ofRequest, List.length_take, List.length_append] at hlt
      rw [CachedRequestState.numTokens]
      omega
    have hupdate := @CachedRequestState.updateOutputTokenId_of_lt
      { st with unmaskedTokenIds := st.unmaskedTokenIds ++ [p] } p hp hnum
    rw [ensures_ok, ensures_bind, hupdate, ensures_ok, ensures_pure, Row.ofRequest_set w st hp]
    refine ⟨⟨h.valid.modifyAt i fun _ => Row.ofRequest w (st.emit [p]), ?_, ?_, ?_⟩,
      ⟨rfl, rfl, rfl, ?_⟩, rfl⟩
    · intro r'
      dsimp only
      rw [if_neg List.not_mem_nil, h.valid.get?_modifyAt hi, Dict.get?_set]
      by_cases hr : r' = r
      · rw [if_pos hr, if_pos hr, hr, hrow]
        rfl
      · rw [if_neg hr, if_neg hr, h.row, if_neg List.not_mem_nil]
    · simp only [Slots.modifyAt, List.length_modify]
      exact h.width
    · intro r' st' hst'
      dsimp only at hst'
      rw [Dict.get?_set] at hst'
      split_ifs at hst' with hr
      · rw [Option.some.injEq] at hst'
        rw [← hst', hr]
        exact h.named r st hst
      · exact h.named r' st' hst'
    · apply Slots.map_rows_modifyAt
      intro k row hcell'
      rw [hcell, Option.some.injEq, Option.some.injEq] at hcell'
      cases hcell'
      simp [CachedRequestState.emit, CachedRequestState.numTokens]
  · rw [ensures_error]
    exact Nat.le_of_not_lt hlt

theorem Paired.writePairs {pairs : List (ℕ × Token)} (h : Paired w x [])
    (hi : x.inputBatch.slots.index.get? r = some i) (hst : x.requests.get? r = some st)
    (hp : ∀ p ∈ pairs, st.promptTokenIds.length ≤ p.1) :
    (Runner.writePairs x ((r, pairs), i)).Ensures
      (fun _ => ∃ p ∈ pairs, (Row.ofRequest w st).tokenIds.length ≤ p.1) fun x' =>
        Paired w x' [] ∧ Kept x x' ∧ (∀ r' ≠ r, x'.requests.get? r' = x.requests.get? r') ∧
        x'.requests.get? r = some (st.emit pairs) := by
  unfold Runner.writePairs
  dsimp only
  induction pairs generalizing x st with
  | nil => exact ⟨h, Kept.refl x, fun _ _ => rfl, by rw [CachedRequestState.emit_nil]; exact hst⟩
  | cons p pairs ih =>
      rw [List.foldlM_cons, ensures_bind]
      apply (h.writePair hi hst (hp p List.mem_cons_self)).mono
      · exact fun _ hlt => ⟨p, List.mem_cons_self, hlt⟩
      · rintro x₁ ⟨h₁, hkept₁, hreq₁⟩
        have hst₁ : x₁.requests.get? r = some (st.emit [p]) := by
          rw [hreq₁, Dict.get?_set_self]
        have hlen : (Row.ofRequest w (st.emit [p])).tokenIds.length =
            (Row.ofRequest w st).tokenIds.length := by
          simp [Row.ofRequest, CachedRequestState.emit]
        apply (ih h₁ (by rw [hkept₁.index]; exact hi) hst₁
          fun q hq => hp q (List.mem_cons_of_mem p hq)).mono
        · rintro _ ⟨q, hq, hlt⟩
          exact ⟨q, List.mem_cons_of_mem p hq, hlen ▸ hlt⟩
        · rintro x₂ ⟨h₂, hkept₂, hother, hget⟩
          refine ⟨h₂, hkept₁.trans hkept₂, ?_, ?_⟩
          · intro r' hr'
            rw [hother r' hr', hreq₁, Dict.get?_set, if_neg hr']
          · rw [hget, CachedRequestState.emit_append]
            rfl

theorem Paired.writeAll {zs : List ((ReqId × List (ℕ × Token)) × ℕ)} (h : Paired w x [])
    (hnodup : (zs.map fun z => z.1.1).Nodup)
    (hz : ∀ z ∈ zs, x.inputBatch.slots.index.get? z.1.1 = some z.2 ∧
      ∃ st, x.requests.get? z.1.1 = some st ∧ ∀ p ∈ z.1.2, st.promptTokenIds.length ≤ p.1) :
    (zs.foldlM Runner.writePairs x).Ensures
      (fun _ => ∃ z ∈ zs, ∃ st, x.requests.get? z.1.1 = some st ∧
        ∃ p ∈ z.1.2, (Row.ofRequest w st).tokenIds.length ≤ p.1)
      fun x' => Paired w x' [] ∧ Kept x x' ∧
        (∀ r ∉ zs.map (fun z => z.1.1), x'.requests.get? r = x.requests.get? r) ∧
        ∀ z ∈ zs, ∀ st, x.requests.get? z.1.1 = some st →
          x'.requests.get? z.1.1 = some (st.emit z.1.2) := by
  induction zs generalizing x with
  | nil => exact ⟨h, Kept.refl x, fun _ _ => rfl, fun _ hz => absurd hz List.not_mem_nil⟩
  | cons z zs ih =>
      rw [List.map_cons, List.nodup_cons] at hnodup
      obtain ⟨hi, st, hst, hp⟩ := hz z List.mem_cons_self
      have hne : ∀ z' ∈ zs, z'.1.1 ≠ z.1.1 := fun z' hz' hc =>
        hnodup.1 (hc ▸ List.mem_map_of_mem (f := fun z => z.1.1) hz')
      rw [List.foldlM_cons, ensures_bind]
      apply (h.writePairs hi hst hp).mono
      · exact fun _ hlt => ⟨z, List.mem_cons_self, st, hst, hlt⟩
      · rintro x₁ ⟨h₁, hkept₁, hother₁, hget₁⟩
        apply (ih h₁ hnodup.2 ?_).mono
        · rintro _ ⟨z', hz', st', hst', hlt⟩
          rw [hother₁ _ (hne z' hz')] at hst'
          exact ⟨z', List.mem_cons_of_mem z hz', st', hst', hlt⟩
        · rintro x₂ ⟨h₂, hkept₂, hother₂, hget₂⟩
          refine ⟨h₂, hkept₁.trans hkept₂, ?_, ?_⟩
          · intro r hr
            rw [List.map_cons, List.mem_cons, not_or] at hr
            rw [hother₂ r hr.2, hother₁ r hr.1]
          · intro z' hz' st' hst'
            rcases List.mem_cons.mp hz' with rfl | hz'
            · rw [hst, Option.some.injEq] at hst'
              rw [hother₂ _ hnodup.1, hget₁, hst']
            · rw [← hother₁ _ (hne z' hz')] at hst'
              exact hget₂ z' hz' st' hst'
        · intro z' hz'
          rw [hkept₁.index, hother₁ _ (hne z' hz')]
          exact hz z' (List.mem_cons_of_mem z hz')

/-! ## The step -/

/-- The row can be executed: it has the positions, and it can be sampled. -/
structure Executable (w : WorkerConfig) (msg : SchedulerOutput) (predict : Prediction) (r : ReqId)
    (row : Row) : Prop where
  read : msg.execStartPos.getD r 0 + msg.numScheduledTokens.getD r 0 ≤ row.tokenIds.length
  samplable : Sampler.Samplable w.maxModelLen (msg.samplerRow r row.metadata)
    (row.cell w predict r)

structure Stepped (w : WorkerConfig) (x : Runner) (msg : SchedulerOutput) (predict : Prediction)
    (x' : Runner) (res : ModelRunnerOutput) : Prop where
  synced : Synced w x'
  known : ∀ r, r ∈ x'.requests ↔ r ∈ x.requests
  emitted : ∀ r st, x.requests.get? r = some st → ∃ i pairs,
    res.reqIdToIndex.get? r = some i ∧ res.sampledTokenIds[i]? = some pairs ∧
    x'.requests.get? r = some (st.emit pairs) ∧
    Sampler.Sampled (msg.samplerRow r (Row.ofRequest w st).metadata)
      ((Row.ofRequest w st).cell w predict r) pairs

section

variable (hx : Synced w x)
include hx

theorem Synced.removed_eq_nil : x.inputBatch.slots.removed = [] := by
  have htidy := hx.tidy
  simp only [Slots.isChanged, Bool.not_eq_false', Bool.and_eq_true, List.isEmpty_iff] at htidy
  exact htidy.1.1

theorem Synced.exists_row (hst : x.requests.get? r = some st) : ∃ i,
    x.inputBatch.slots.index.get? r = some i ∧
    x.inputBatch.slots.rows[i]? = some (r, Row.ofRequest w st) := by
  have hrow : x.inputBatch.slots.get? r = some (Row.ofRequest w st) := by
    rw [hx.paired.row, if_neg List.not_mem_nil, hst, Option.map_some]
  obtain ⟨i, hi⟩ := (Dict.mem_iff_exists _ _).mp (hx.paired.valid.mem_index_iff.mpr ⟨_, hrow⟩)
  exact ⟨i, hi, (hx.paired.valid.getElem?_rows hx.removed_eq_nil _ _ _).mpr ⟨hi, hrow⟩⟩

theorem Synced.of_row {row : Row} (h : x.inputBatch.slots.rows[i]? = some (r, row)) :
    x.inputBatch.slots.index.get? r = some i ∧
      ∃ st, x.requests.get? r = some st ∧ row = Row.ofRequest w st := by
  obtain ⟨hi, hrow⟩ := (hx.paired.valid.getElem?_rows hx.removed_eq_nil _ _ _).mp h
  rw [hx.paired.row, if_neg List.not_mem_nil, Option.map_eq_some_iff] at hrow
  obtain ⟨st, hst, rfl⟩ := hrow
  exact ⟨hi, st, hst, rfl⟩

theorem Synced.of_mem_rows {row : Row} (h : (r, row) ∈ x.inputBatch.slots.rows) :
    ∃ st, x.requests.get? r = some st ∧ row = Row.ofRequest w st := by
  obtain ⟨i, hi⟩ := List.mem_iff_getElem?.mp h
  exact (hx.of_row hi).2

theorem Synced.nodup_rows : (x.inputBatch.slots.rows.map Prod.fst).Nodup := by
  rw [List.nodup_iff_getElem?_ne_getElem?]
  intro i j hij hj heq
  rw [List.length_map] at hj
  rw [List.getElem?_map, List.getElem?_map, List.getElem?_eq_getElem hj,
    List.getElem?_eq_getElem (hij.trans hj), Option.map_some, Option.map_some,
    Option.some.injEq] at heq
  obtain ⟨hi, -⟩ := hx.of_row (List.getElem?_eq_getElem (hij.trans hj))
  obtain ⟨hj', -⟩ := hx.of_row (List.getElem?_eq_getElem hj)
  exact absurd (Option.some.inj (hi.symm.trans ((congrArg _ heq).trans hj'))) (by omega)

end

def sampled (w : WorkerConfig) (msg : SchedulerOutput) (predict : Prediction) (y : ReqId × Row) :
    SamplerRow × (ℕ → Cell) :=
  (msg.samplerRow y.1 y.2.metadata, y.2.cell w predict y.1)

theorem zipWith_samplerRow {rows : List (ReqId × Row)} {inputs : List Input}
    (h : List.Forall₂ (fun y inp => samplerRow y.2.metadata inp = (sampled w msg predict y).1 ∧
      inp.cells = Sampler.executed (sampled w msg predict y).1 (sampled w msg predict y).2)
      rows inputs) :
    List.zipWith samplerRow (rows.map fun y => y.2.metadata) inputs =
        (rows.map (sampled w msg predict)).map Prod.fst ∧
      inputs.flatMap Input.cells =
        (rows.map (sampled w msg predict)).flatMap fun y => Sampler.executed y.1 y.2 := by
  induction h with
  | nil => exact ⟨rfl, rfl⟩
  | cons hy _ ih =>
      simp only [List.map_cons, List.zipWith_cons_cons, List.flatMap_cons, hy.1, hy.2, ih.1, ih.2,
        and_self]

section Sample

variable (hx : Synced w x)
include hx

theorem Synced.ensures_prepareInputs (hlist : ∀ r ∈ x.requests, Listed msg r) :
    (x.inputBatch.slots.rows.mapM (prepareInput w msg predict)).Ensures
      (fun _ => ∃ r st, x.requests.get? r = some st ∧
        ¬Executable w msg predict r (Row.ofRequest w st))
      (List.Forall₂ (fun y inp => samplerRow y.2.metadata inp = (sampled w msg predict y).1 ∧
        inp.cells = Sampler.executed (sampled w msg predict y).1 (sampled w msg predict y).2)
        x.inputBatch.slots.rows) := by
  apply ensures_mapM
  rintro ⟨r, row⟩ hy
  obtain ⟨st, hst, rfl⟩ := hx.of_mem_rows hy
  apply (ensures_prepareInput (hlist r (Dict.mem_of_get? hst)) _).mono _ fun _ h => h
  exact fun _ hlt => ⟨r, st, hst, fun hex => absurd hex.read (Nat.not_le_of_lt hlt)⟩

theorem Synced.ensures_unmaskRows
    (hstart : ∀ r st, x.requests.get? r = some st → msg.execStartPos.getD r 0 ≤ st.curBlockStart) :
    (Sampler.unmask w.maxModelLen
        ((x.inputBatch.slots.rows.map (sampled w msg predict)).map Prod.fst)
        ((x.inputBatch.slots.rows.map (sampled w msg predict)).flatMap fun y =>
          Sampler.executed y.1 y.2)).Ensures
      (fun _ => ∃ r st, x.requests.get? r = some st ∧
        ¬Executable w msg predict r (Row.ofRequest w st))
      (List.Forall₂ (fun y pairs => Sampler.Sampled (sampled w msg predict y).1
        (sampled w msg predict y).2 pairs) x.inputBatch.slots.rows) := by
  apply (Sampler.ensures_unmask w.maxModelLen _ ?_).mono
  · rintro _ ⟨y, hy, hnot⟩
    obtain ⟨⟨r, row⟩, hrow, rfl⟩ := List.mem_map.mp hy
    obtain ⟨st, hst, rfl⟩ := hx.of_mem_rows hrow
    exact ⟨r, st, hst, fun hex => hnot hex.samplable⟩
  · intro lists hlists
    rw [List.forall₂_map_left_iff] at hlists
    exact hlists
  · intro y hy
    obtain ⟨⟨r, row⟩, hrow, rfl⟩ := List.mem_map.mp hy
    obtain ⟨st, hst, rfl⟩ := hx.of_mem_rows hrow
    exact hstart r st hst

theorem Synced.ensures_writeAll {lists : List (List (ℕ × Token))}
    (hstart : ∀ r st, x.requests.get? r = some st → st.promptTokenIds.length ≤ st.curBlockStart)
    (hlists : List.Forall₂ (fun y pairs => Sampler.Sampled (sampled w msg predict y).1
      (sampled w msg predict y).2 pairs) x.inputBatch.slots.rows lists) :
    (((x.inputBatch.slots.rows.map Prod.fst).zip lists).zipIdx.foldlM Runner.writePairs x).Ensures
      (fun _ => ∃ r st, x.requests.get? r = some st ∧
        ¬Executable w msg predict r (Row.ofRequest w st))
      fun x' => Stepped w x msg predict x' ⟨x'.inputBatch.slots.index, lists⟩ := by
  have hmem : ∀ r pairs i, ((r, pairs), i) ∈
      ((x.inputBatch.slots.rows.map Prod.fst).zip lists).zipIdx → ∃ st,
      x.inputBatch.slots.index.get? r = some i ∧ x.requests.get? r = some st ∧
      Sampler.Sampled (msg.samplerRow r (Row.ofRequest w st).metadata)
        ((Row.ofRequest w st).cell w predict r) pairs := by
    intro r pairs i hz
    rw [List.mem_zipIdx_iff_getElem?, List.getElem?_zip_eq_some, List.getElem?_map,
      Option.map_eq_some_iff] at hz
    obtain ⟨⟨⟨r', row⟩, hrow, rfl⟩, hpairs⟩ := hz
    obtain ⟨hi, st, hst, rfl⟩ := hx.of_row hrow
    obtain ⟨pairs', hpairs', hsampled⟩ := exists_getElem?_of_forall₂ hlists hrow
    obtain rfl : pairs = pairs' := Option.some.inj (hpairs.symm.trans hpairs')
    exact ⟨st, hi, hst, hsampled⟩
  have hids : (((x.inputBatch.slots.rows.map Prod.fst).zip lists).zipIdx.map fun z => z.1.1) =
      x.inputBatch.slots.rows.map Prod.fst :=
    List.map_fst_zipIdx_zip (by rw [List.length_map, hlists.length_eq])
  refine (hx.paired.writeAll (hids.symm ▸ hx.nodup_rows) ?_).mono ?_ ?_
  · rintro ⟨⟨r, pairs⟩, i⟩ hz
    obtain ⟨st, hi, hst, hsampled⟩ := hmem r pairs i hz
    exact ⟨hi, st, hst, fun p hp => (hstart r st hst).trans (hsampled.inBlock p hp).1⟩
  · rintro _ ⟨⟨⟨r, pairs⟩, i⟩, hz, st, hst, p, hp, hlt⟩
    obtain ⟨st', -, hst', hsampled⟩ := hmem r pairs i hz
    obtain rfl : st = st' := Option.some.inj (hst.symm.trans hst')
    refine ⟨r, st, hst, fun hex => ?_⟩
    -- the position is in the block, so it is executed
    have hread := hex.read
    have hcover := hex.samplable.covers.le_end
    have hpos := (hsampled.inBlock p hp).2
    exact absurd (hpos.trans_le (hcover.trans hread)) (Nat.not_lt_of_le hlt)
  · rintro x' ⟨hpaired, hkept, hother, hget⟩
    have hemit : ∀ r st, x.requests.get? r = some st → ∃ i pairs,
        x.inputBatch.slots.index.get? r = some i ∧ lists[i]? = some pairs ∧
        x'.requests.get? r = some (st.emit pairs) ∧
        Sampler.Sampled (msg.samplerRow r (Row.ofRequest w st).metadata)
          ((Row.ofRequest w st).cell w predict r) pairs := by
      intro r st hst
      obtain ⟨i, hi, hrow⟩ := hx.exists_row hst
      obtain ⟨pairs, hpairs, hsampled⟩ := exists_getElem?_of_forall₂ hlists hrow
      refine ⟨i, pairs, hi, hpairs, hget ((r, pairs), i) ?_ st hst, hsampled⟩
      rw [List.mem_zipIdx_iff_getElem?, List.getElem?_zip_eq_some, List.getElem?_map, hrow]
      exact ⟨rfl, hpairs⟩
    refine ⟨⟨hpaired, hkept.changed.trans hx.tidy, ?_⟩, ?_, ?_⟩
    · rw [hkept.metadata, hx.metadata, hkept.rows]
    · intro r
      cases hst : x.requests.get? r with
      | some st =>
          obtain ⟨-, pairs, -, -, hst', -⟩ := hemit r st hst
          exact iff_of_true (Dict.mem_of_get? hst') (Dict.mem_of_get? hst)
      | none =>
          have hr : r ∉ ((x.inputBatch.slots.rows.map Prod.fst).zip lists).zipIdx.map
              fun z => z.1.1 := by
            intro hr
            obtain ⟨⟨⟨r', pairs⟩, i⟩, hz, rfl⟩ := List.mem_map.mp hr
            obtain ⟨st, -, hst', -⟩ := hmem r' pairs i hz
            rw [hst] at hst'
            cases hst'
          rw [Dict.mem_iff_exists, Dict.mem_iff_exists, hother r hr]
    · intro r st hst
      rw [hkept.index]
      exact hemit r st hst

/-- A step of a worker that agrees with the message: it only fails if a row cannot be
executed. -/
theorem Synced.ensures_sample (hlist : ∀ r ∈ x.requests, Listed msg r)
    (hsome : ∃ r, r ∈ x.requests)
    (hstart : ∀ r st, x.requests.get? r = some st →
      msg.execStartPos.getD r 0 ≤ st.curBlockStart ∧
        st.promptTokenIds.length ≤ st.curBlockStart) :
    (x.sample w msg predict).Ensures
      (fun _ => ∃ r st, x.requests.get? r = some st ∧
        ¬Executable w msg predict r (Row.ofRequest w st))
      fun y => Stepped w x msg predict y.1 y.2 := by
  have hnum : 0 < x.inputBatch.numReqs := by
    obtain ⟨r, hr⟩ := hsome
    exact List.length_pos_of_mem (hx.paired.mem_index_iff.mpr ⟨List.not_mem_nil, hr⟩)
  unfold Runner.sample
  rw [ensures_bind, pyAssert, if_pos (decide_eq_true hnum), ensures_ok]
  dsimp only
  apply (hx.ensures_prepareInputs hlist).bind
  intro inputs hinputs
  have hlen : ¬inputs.length < x.inputBatch.samplingMetadata.length := by
    rw [hx.metadata, List.length_map, hinputs.length_eq]
    exact Nat.lt_irrefl _
  obtain ⟨hfst, hcells⟩ := zipWith_samplerRow hinputs
  rw [if_neg hlen, ensures_bind, hx.metadata, hfst, hcells]
  apply (hx.ensures_unmaskRows fun r st hst => (hstart r st hst).1).imp
  intro lists hlists
  apply (hx.ensures_writeAll (fun r st hst => (hstart r st hst).2) hlists).bind
  exact fun x' hx' => hx'

end Sample

end Runner

end TeDiServe

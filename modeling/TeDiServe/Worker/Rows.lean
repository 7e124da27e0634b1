import TeDiServe.Worker.Runner

/-!
# The rows of the batch while a message is followed

`_update_states` takes requests out of the batch, updates those that stay, adds others and
closes the gaps. `Carries w x rows` says what the batch has to show for it: the row of every
request, wherever it is, and metadata that are up to date unless a change is noted. Every
stage is described by what it makes of `rows`.
-/

namespace TeDiServe

/-! ## The entries of the cached requests -/

theorem CachedRequestData.ensures_entry (d : CachedRequestData) (i : ℕ) :
    (d.entry i).Ensures (fun _ => True) fun y => d.reqIds[i]? = some y.reqId := by
  unfold entry
  rw [ensures_bind, ensures_item]
  refine ⟨fun r hr => ?_, fun _ => trivial⟩
  apply ensures_bind_any
  intro newBlockIds
  apply ensures_bind_any
  intro numDenoiseRan
  apply ensures_bind_any
  intro curBlockStart
  apply ensures_bind_any
  intro denoiseBlockSize
  exact hr

theorem CachedRequestData.reqIds_of_entries {d : CachedRequestData} {ys : List CachedEntry}
    (h : d.entries = .ok ys) : ys.map CachedEntry.reqId = d.reqIds := by
  have hall := ensures_of_ok (ensures_mapM (List.range d.reqIds.length)
    fun i _ => d.ensures_entry i) h
  have hmap : (List.range d.reqIds.length).map (fun i => d.reqIds[i]?) =
      (ys.map CachedEntry.reqId).map some := by
    rw [List.map_map, ← List.forall₂_eq_eq_eq, List.forall₂_map_left_iff,
      List.forall₂_map_right_iff]
    exact hall
  have hids : (List.range d.reqIds.length).map (fun i => d.reqIds[i]?) = d.reqIds.map some := by
    apply List.ext_getElem?
    intro i
    by_cases hi : i < d.reqIds.length
    · simp [hi]
    · simp [hi]
  rw [hids] at hmap
  exact (List.map_injective_iff.mpr (Option.some_injective ReqId) hmap).symm

namespace Runner

variable {w : WorkerConfig} {x : Runner} {msg : SchedulerOutput} {rows : ReqId → Option Row}

/-- Nothing was changed in the batch that its metadata depend on, unless it is noted. -/
def Noted (x : Runner) : Prop :=
  x.inputBatch.slots.isChanged = false → x.inputBatch.samplingMetadataNeedsRefresh = false →
    x.inputBatch.samplingMetadata = x.inputBatch.slots.rows.map fun y => y.2.metadata

structure Carries (w : WorkerConfig) (x : Runner) (rows : ReqId → Option Row) : Prop where
  valid : x.inputBatch.slots.Valid
  row : ∀ r, x.inputBatch.slots.get? r = rows r
  width : x.inputBatch.slots.cells.length ≤ w.maxNumReqs
  named : ∀ r st, x.requests.get? r = some st → st.reqId = r
  noted : Noted x

structure Settled (w : WorkerConfig) (x : Runner) (rows : ReqId → Option Row) : Prop where
  carries : Carries w x rows
  tidy : x.inputBatch.slots.isChanged = false
  metadata : x.inputBatch.samplingMetadata = x.inputBatch.slots.rows.map fun y => y.2.metadata

theorem settled_empty (w : WorkerConfig) : Settled w empty fun _ => none := by
  refine ⟨⟨Slots.valid_empty, fun _ => rfl, Nat.zero_le _, ?_, fun _ _ => rfl⟩, rfl, rfl⟩
  intro r st hst
  cases hst

theorem Carries.congr {rows' : ReqId → Option Row} (h : Carries w x rows)
    (heq : ∀ r, rows r = rows' r) : Carries w x rows' :=
  ⟨h.valid, fun r => (h.row r).trans (heq r), h.width, h.named, h.noted⟩

theorem Carries.mem_index_iff (h : Carries w x rows) {r : ReqId} :
    r ∈ x.inputBatch.slots.index ↔ ∃ row, rows r = some row := by
  rw [h.valid.mem_index_iff, h.row]

theorem Carries.not_mem_index (h : Carries w x rows) {r : ReqId} (hr : rows r = none) :
    r ∉ x.inputBatch.slots.index := by
  rw [← h.valid.get?_eq_none_iff, h.row, hr]

/-! ## Removing requests -/

theorem foldl_removeRequest (l : List ReqId) (b : InputBatch) :
    l.foldl InputBatch.removeRequest b = { b with slots := l.foldl Slots.remove b.slots } := by
  induction l generalizing b with
  | nil => rfl
  | cons r l ih => rw [List.foldl_cons, ih, List.foldl_cons, InputBatch.removeRequest]

theorem get?_requests_forget (x : Runner) (msg : SchedulerOutput) (r : ReqId) :
    (x.forget msg).requests.get? r = if r ∈ msg.freeReqIds then none else x.requests.get? r :=
  Dict.get?_foldl_erase _ _ r

/-- The requests to be freed and those that are not scheduled have no rows any more. -/
theorem Settled.forget (h : Settled w x rows) (msg : SchedulerOutput) :
    Carries w (x.forget msg) fun r =>
      if r ∈ msg.freeReqIds ∨ r ∉ msg.numScheduledTokens then none else rows r := by
  obtain ⟨hvalid₁, hget₁, hlen₁⟩ := h.carries.valid.foldl_remove msg.freeReqIds.items
  have heq : x.forget msg = ⟨msg.freeReqIds.items.foldl Dict.erase x.requests,
      { x.inputBatch with
        slots := ((msg.freeReqIds.items.foldl Slots.remove x.inputBatch.slots).index.keys.filter
          (· ∉ msg.numScheduledTokens)).foldl Slots.remove
            (msg.freeReqIds.items.foldl Slots.remove x.inputBatch.slots)
        samplingMetadataNeedsRefresh := false }⟩ := by
    unfold Runner.forget
    simp only [foldl_removeRequest]
  obtain ⟨hvalid₂, hget₂, hlen₂⟩ := hvalid₁.foldl_remove
    ((msg.freeReqIds.items.foldl Slots.remove x.inputBatch.slots).index.keys.filter
      (· ∉ msg.numScheduledTokens))
  rw [heq]
  refine ⟨hvalid₂, fun r => ?_, hlen₂.trans_le (hlen₁.trans_le h.carries.width), fun r st hst => ?_,
    fun hch _ => ?_⟩
  · dsimp only
    rw [hget₂, hget₁, h.carries.row]
    simp only [List.mem_filter, decide_eq_true_eq, OrderedSet.mem_def]
    by_cases hfree : r ∈ msg.freeReqIds.items
    · rw [if_pos hfree, ite_self, if_pos (Or.inl hfree)]
    · rw [if_neg hfree]
      by_cases hsched : r ∈ msg.numScheduledTokens
      · rw [if_neg (fun hc => hc.2 hsched), if_neg (fun hc => hc.elim hfree fun hc => hc hsched)]
      · rw [if_pos (Or.inr hsched)]
        by_cases hidx : r ∈ (msg.freeReqIds.items.foldl Slots.remove x.inputBatch.slots).index.keys
        · rw [if_pos ⟨hidx, hsched⟩]
        · rw [if_neg fun hc => hidx hc.1, ← h.carries.row]
          have hnone := hvalid₁.get?_eq_none_iff.mpr hidx
          rwa [hget₁, if_neg hfree] at hnone
  · dsimp only at hst
    rw [Dict.get?_foldl_erase] at hst
    split_ifs at hst
    exact h.carries.named r st hst
  · dsimp only at hch ⊢
    have hsame := Slots.foldl_remove_of_isChanged hch
    rw [hsame] at hch ⊢
    rw [Slots.foldl_remove_of_isChanged hch]
    exact h.metadata

/-! ## Updating a request -/

/-- A request that has a row is updated there, and otherwise noted to be added. -/
theorem Carries.updateState {u : Updating} {y : CachedEntry} (h : Carries w u.runner rows)
    {st : CachedRequestState} (hst : u.runner.requests.get? y.reqId = some st) :
    (Runner.updateState u y).Ensures (fun _ => False) fun u' =>
      Carries w u'.runner (fun r => if r = y.reqId then (rows r).map (·.update y) else rows r) ∧
      u'.reqIdsToAdd = u.reqIdsToAdd ++ (if rows y.reqId = none then [y.reqId] else []) ∧
      u'.runner.requests = u.runner.requests.set y.reqId (st.update y) := by
  have hnamed : ∀ r st', (u.runner.requests.set y.reqId (st.update y)).get? r = some st' →
      st'.reqId = r := by
    intro r st' hst'
    rw [Dict.get?_set] at hst'
    split_ifs at hst' with hr
    · rw [Option.some.injEq] at hst'
      rw [← hst', hr]
      exact h.named y.reqId st hst
    · exact h.named r st' hst'
  unfold Runner.updateState
  rw [ensures_bind, subscript_of_get? _ hst, ensures_ok]
  cases hrow : rows y.reqId with
  | none =>
      have hnone := (Dict.get?_eq_none_iff _ _).mpr (h.not_mem_index hrow)
      simp only [hnone]
      rw [ensures_pure]
      refine ⟨⟨h.valid, fun r => ?_, h.width, hnamed, h.noted⟩, rfl, rfl⟩
      rw [h.row]
      by_cases hr : r = y.reqId
      · rw [if_pos hr, hr, hrow]
        rfl
      · rw [if_neg hr]
  | some row =>
      have hrow' : u.runner.inputBatch.slots.get? y.reqId = some row := (h.row _).trans hrow
      obtain ⟨i, hi⟩ := (Dict.mem_iff_exists _ _).mp (h.mem_index_iff.mpr ⟨row, hrow⟩)
      simp only [hi, hrow', Option.any_some]
      rw [ensures_pure]
      refine ⟨⟨h.valid.modifyAt i fun row => row.update y, fun r => ?_, ?_, hnamed, ?_⟩, ?_, rfl⟩
      · dsimp only
        rw [h.valid.get?_modifyAt hi, h.row]
      · simp only [Slots.modifyAt, List.length_modify]
        exact h.width
      · intro hch href
        dsimp only at hch href ⊢
        rw [Bool.or_eq_false_iff, decide_eq_false_iff_not, not_or, not_not, not_not] at href
        obtain ⟨hno, hstart, hsize⟩ := href
        rw [h.noted hch hno, Slots.map_rows_modifyAt]
        intro k row₁ hcell
        have hrow₁ := Slots.get?_of_index hi hcell
        rw [hrow', Option.some.injEq] at hrow₁
        rw [← hrow₁]
        simp only [Row.metadata, Row.update, hstart, hsize]
      · exact (List.append_nil _).symm

/-! ## Adding a request -/

theorem Carries.addRow {r : ReqId} {st : CachedRequestState} (h : Carries w x rows)
    (hr : rows r = none) (hst : x.requests.get? r = some st) :
    (Runner.addRow w x r).Ensures (fun _ => w.maxNumReqs ≤ x.inputBatch.numReqs ∨ ¬st.Fits w)
      fun x' => Carries w x' (fun r' => if r' = r then some (Row.ofRequest w st) else rows r') ∧
        x'.requests = x.requests ∧ x'.inputBatch.numReqs = x.inputBatch.numReqs + 1 ∧
        st.Fits w := by
  have hnone := h.not_mem_index hr
  unfold Runner.addRow
  rw [ensures_bind, subscript_of_get? _ hst, ensures_ok, ensures_bind]
  apply (InputBatch.ensures_addRequest h.valid h.width).imp
  rintro b ⟨hroom, hfits, rfl⟩
  rw [ensures_pure, h.named r st hst]
  refine ⟨⟨h.valid.insert hnone _, fun r' => ?_, ?_, h.named, ?_⟩, rfl,
    Slots.Valid.size_insert hnone _, hfits⟩
  · dsimp only
    rw [h.valid.get?_insert, h.row]
  · dsimp only
    rw [h.valid.length_insert]
    have hnext := (h.valid.nextIndex_lt_iff h.width).mpr hroom
    have hwidth := h.width
    omega
  · intro hch
    simp at hch

theorem Carries.addRows {l : List ReqId} (h : Carries w x rows) (hnodup : l.Nodup)
    (hnone : ∀ r ∈ l, rows r = none) (hknown : ∀ r ∈ l, r ∈ x.requests) :
    (l.foldlM (Runner.addRow w) x).Ensures
      (fun _ => w.maxNumReqs < x.inputBatch.numReqs + l.length ∨
        ∃ r ∈ l, ∃ st, x.requests.get? r = some st ∧ ¬st.Fits w)
      fun x' => Carries w x'
          (fun r => if r ∈ l then (x.requests.get? r).map (Row.ofRequest w) else rows r) ∧
        x'.requests = x.requests ∧ x'.inputBatch.numReqs = x.inputBatch.numReqs + l.length ∧
        ∀ r ∈ l, ∀ st, x.requests.get? r = some st → st.Fits w := by
  induction l generalizing x rows with
  | nil => exact ⟨h.congr fun r => (if_neg List.not_mem_nil).symm, rfl, rfl,
      fun _ hr => absurd hr List.not_mem_nil⟩
  | cons r l ih =>
      rw [List.nodup_cons] at hnodup
      obtain ⟨st, hst⟩ := (Dict.mem_iff_exists _ _).mp (hknown r List.mem_cons_self)
      rw [List.foldlM_cons, ensures_bind]
      apply (h.addRow (hnone r List.mem_cons_self) hst).mono
      · rintro _ (hfull | hfits)
        · left
          rw [List.length_cons]
          omega
        · exact Or.inr ⟨r, List.mem_cons_self, st, hst, hfits⟩
      · rintro x₁ ⟨h₁, hreq₁, hsize₁, hfits⟩
        have hnone₁ : ∀ r' ∈ l, (if r' = r then some (Row.ofRequest w st) else rows r') = none := by
          intro r' hr'
          rw [if_neg fun (hc : r' = r) => hnodup.1 (hc ▸ hr')]
          exact hnone r' (List.mem_cons_of_mem r hr')
        apply (ih h₁ hnodup.2 hnone₁ fun r' hr' => by
          rw [hreq₁]
          exact hknown r' (List.mem_cons_of_mem r hr')).mono
        · rw [hreq₁, hsize₁, List.length_cons]
          rintro _ (hfull | ⟨r', hr', hno⟩)
          · left
            omega
          · exact Or.inr ⟨r', List.mem_cons_of_mem r hr', hno⟩
        · rintro x₂ ⟨h₂, hreq₂, hsize₂, hall⟩
          rw [hreq₁] at h₂ hreq₂ hall
          refine ⟨h₂.congr fun r' => ?_, hreq₂, ?_, ?_⟩
          · by_cases hr' : r' = r
            · rw [if_pos hr', hr', if_neg hnodup.1, if_pos List.mem_cons_self, hst]
              rfl
            · rw [if_neg hr']
              simp only [List.mem_cons, hr', false_or]
          · rw [hsize₂, hsize₁, List.length_cons]
            omega
          · intro r' hr' st' hst'
            rcases List.mem_cons.mp hr' with heq | hmem
            · rw [heq, hst, Option.some.injEq] at hst'
              exact hst' ▸ hfits
            · exact hall r' hmem st' hst'

/-! ## Closing the gaps -/

theorem Carries.refresh (h : Carries w x rows) :
    x.inputBatch.refresh.Ensures (fun _ => False) fun b =>
      Settled w { x with inputBatch := b } rows := by
  obtain ⟨slots, hcond, hvalid, hget, hlen, hsame⟩ := h.valid.condense
  unfold InputBatch.refresh
  rw [hcond]
  dsimp only
  rw [ensures_pure]
  have hwidth : slots.cells.length ≤ w.maxNumReqs := by
    have hsize := h.valid.size_add
    have hwidth := h.width
    omega
  have hcarries : ∀ m n, m = slots.reset.rows.map (fun y => y.2.metadata) →
      Carries w ⟨x.requests, ⟨slots.reset, m, n⟩⟩ rows := fun m n hm =>
    ⟨hvalid, fun r => (hget r).trans (h.row r), hwidth, h.named, fun _ _ => hm⟩
  by_cases hch : (slots.isChanged || x.inputBatch.samplingMetadataNeedsRefresh) = true
  · rw [if_pos hch]
    exact ⟨hcarries _ _ rfl, rfl, rfl⟩
  · rw [if_neg hch]
    rw [Bool.not_eq_true, Bool.or_eq_false_iff] at hch
    obtain rfl := hsame hch.1
    have hmeta := h.noted hch.1 hch.2
    exact ⟨hcarries _ _ hmeta, rfl, hmeta⟩

end Runner

end TeDiServe

import TeDiServe.Worker.Rows

/-!
# The persistent batch

What `_update_states` makes of the batch, for any message: which requests have rows
afterwards, what their rows are, and that ids, rows and metadata are in step. The requests
in the batch before the message that are neither freed nor left unscheduled keep their rows.
The others that the message speaks of are added.

Nothing is asked of the states of the requests or of how the message came about. A request
can be added only if it is not in the batch, and once.
-/

namespace TeDiServe

def CachedEntry.of (ys : List CachedEntry) (r : ReqId) : List CachedEntry :=
  ys.filter fun y => y.reqId = r

namespace Runner

def Stays (x : Runner) (msg : SchedulerOutput) (r : ReqId) : Prop :=
  r ∈ x.inputBatch.slots.index ∧ r ∉ msg.freeReqIds ∧ r ∈ msg.numScheduledTokens

instance (x : Runner) (msg : SchedulerOutput) (r : ReqId) : Decidable (x.Stays msg r) :=
  inferInstanceAs (Decidable (_ ∧ _ ∧ _))

def staying (x : Runner) (msg : SchedulerOutput) : List ReqId :=
  x.inputBatch.slots.index.keys.filter (x.Stays msg ·)

/-- The requests that are added: the new ones, and the cached ones without a row. -/
def added (x : Runner) (msg : SchedulerOutput) : List ReqId :=
  msg.scheduledNewReqs.map NewRequestData.reqId ++
    msg.scheduledCachedReqs.reqIds.filter fun r => ¬x.Stays msg r

/-- What a message needs in order to be followed: the data of the new requests are in
order, the cached ones are known, and there is room for all that stay and are added. -/
structure Followable (w : WorkerConfig) (x : Runner) (msg : SchedulerOutput) : Prop where
  new : ∀ d ∈ msg.scheduledNewReqs,
    (CachedRequestState.ofNew w d).Ensures (fun _ => False) fun st => st.Fits w
  entries : ∃ ys, msg.scheduledCachedReqs.entries = .ok ys
  known : ∀ r ∈ msg.scheduledCachedReqs.reqIds, r ∈ x.requests ∧ r ∉ msg.freeReqIds
  width : ∀ r ∈ msg.scheduledCachedReqs.reqIds, ¬x.Stays msg r →
    ∀ st, x.requests.get? r = some st → st.Fits w
  rows : (x.staying msg).length + (x.added msg).length ≤ w.maxNumReqs

/-- The batch of `x'` after the message was followed by `x`: there is one id for every row
and none is missing, the dictionary is their inverse, the requests that stay have the row they
had with what their entries set, the added ones have the row of their state, and the metadata
are those of the rows. -/
structure Maintained (w : WorkerConfig) (x : Runner) (msg : SchedulerOutput) (x' : Runner) :
    Prop where
  numReqs : x'.inputBatch.slots.cells.length = x'.inputBatch.numReqs
  filled : none ∉ x'.inputBatch.slots.cells
  inverse : ∀ r i, x'.inputBatch.slots.index.get? r = some i ↔
    ∃ row, x'.inputBatch.slots.cells[i]? = some (some (r, row))
  present : ∀ r, r ∈ x'.inputBatch.slots.index ↔ x.Stays msg r ∨ r ∈ x.added msg
  kept : ∀ ys, msg.scheduledCachedReqs.entries = .ok ys → ∀ r, x.Stays msg r →
    x'.inputBatch.slots.get? r =
      (x.inputBatch.slots.get? r).map fun row => (CachedEntry.of ys r).foldl Row.update row
  added : ∀ r ∈ x.added msg, ∃ st, x'.requests.get? r = some st ∧
    x'.inputBatch.slots.get? r = some (Row.ofRequest w st)
  metadata : ∀ i : ℕ, x'.inputBatch.samplingMetadata[i]? =
    x'.inputBatch.slots.cells[i]?.join.map fun y => y.2.metadata

variable {w : WorkerConfig} {x : Runner} {msg : SchedulerOutput} {rows : ReqId → Option Row}

/-! ## The requests that stay -/

theorem rows_forget_eq (hx : Settled w x x.inputBatch.slots.get?) (r : ReqId) :
    (if r ∈ msg.freeReqIds ∨ r ∉ msg.numScheduledTokens then none
      else x.inputBatch.slots.get? r) =
      if x.Stays msg r then x.inputBatch.slots.get? r else none := by
  by_cases hstay : x.Stays msg r
  · rw [if_pos hstay, if_neg (not_or.mpr ⟨hstay.2.1, not_not.mpr hstay.2.2⟩)]
  · rw [if_neg hstay]
    split_ifs with hgone
    · rfl
    · rw [not_or, not_not] at hgone
      exact hx.carries.valid.get?_eq_none_iff.mpr fun hidx => hstay ⟨hidx, hgone⟩

theorem rows_forget_eq_none_iff (hx : Settled w x x.inputBatch.slots.get?) (r : ReqId) :
    (if x.Stays msg r then x.inputBatch.slots.get? r else none) = none ↔ ¬x.Stays msg r := by
  by_cases hstay : x.Stays msg r
  · rw [if_pos hstay, hx.carries.valid.get?_eq_none_iff]
    exact ⟨fun hno => absurd hstay.1 hno, fun hno => absurd hstay hno⟩
  · rw [if_neg hstay]
    exact ⟨fun _ => hstay, fun _ => rfl⟩

theorem Carries.numReqs_eq {x' : Runner} (h : Carries w x' rows)
    (hrows : ∀ r, rows r = none ↔ ¬x.Stays msg r) :
    x'.inputBatch.numReqs = (x.staying msg).length := by
  have hperm : x'.inputBatch.slots.index.keys.Perm (x.staying msg) := by
    refine (List.perm_ext_iff_of_nodup (Dict.nodup_keys _)
      ((Dict.nodup_keys _).filter _)).mpr fun r => ?_
    rw [← Dict.mem_def, h.mem_index_iff, ← Option.isSome_iff_exists, Option.isSome_iff_ne_none, Ne,
      hrows, not_not, List.mem_filter, decide_eq_true_eq]
    exact ⟨fun hstay => ⟨hstay.1, hstay⟩, And.right⟩
  exact hperm.length_eq

/-! ## New and cached requests -/

theorem ensures_ofNew_reqId (w : WorkerConfig) (d : NewRequestData) :
    (CachedRequestState.ofNew w d).Ensures (fun _ => True) fun st => st.reqId = d.reqId := by
  unfold CachedRequestState.ofNew
  refine ensures_foldlM (I := fun st : CachedRequestState => st.reqId = d.reqId) _
    (fun st p _ hst => ?_) _ rfl
  unfold CachedRequestState.updateOutputTokenId
  exact ensures_bind_any _ fun _ => hst

theorem Carries.addStates {ds : List NewRequestData} {u : Updating}
    (h : Carries w u.runner rows) (hnodup : (ds.map NewRequestData.reqId).Nodup) :
    (ds.foldlM (addState w) u).Ensures
      (fun _ => ∃ d ∈ ds, ¬(CachedRequestState.ofNew w d).Ensures (fun _ => False) (·.Fits w))
      fun u' => Carries w u'.runner rows ∧
        u'.runner.inputBatch = u.runner.inputBatch ∧
        u'.reqIdsToAdd = u.reqIdsToAdd ++ ds.map NewRequestData.reqId ∧
        (∀ d ∈ ds, ∃ st, CachedRequestState.ofNew w d = .ok st ∧
          u'.runner.requests.get? d.reqId = some st) ∧
        ∀ r ∉ ds.map NewRequestData.reqId,
          u'.runner.requests.get? r = u.runner.requests.get? r := by
  induction ds generalizing u with
  | nil => exact ⟨h, rfl, (List.append_nil _).symm, fun _ hd => absurd hd List.not_mem_nil,
      fun _ _ => rfl⟩
  | cons d ds ih =>
      rw [List.map_cons, List.nodup_cons] at hnodup
      rw [List.foldlM_cons, ensures_bind, addState]
      cases hnew : CachedRequestState.ofNew w d with
      | error err =>
          refine ⟨d, List.mem_cons_self, fun hok => ?_⟩
          rw [hnew] at hok
          exact hok
      | ok st =>
          have hid := ensures_of_ok (ensures_ofNew_reqId w d) hnew
          have hnamed : ∀ r st', (u.runner.requests.set d.reqId st).get? r = some st' →
              st'.reqId = r := by
            intro r st' hst'
            rw [Dict.get?_set] at hst'
            split_ifs at hst' with hr
            · rw [Option.some.injEq] at hst'
              rw [← hst', hr, hid]
            · exact h.named r st' hst'
          have h₁ : Carries w { u.runner with requests := u.runner.requests.set d.reqId st } rows :=
            ⟨h.valid, h.row, h.width, hnamed, h.noted⟩
          refine (ih (u := ⟨_, u.reqIdsToAdd ++ [d.reqId]⟩) h₁ hnodup.2).mono ?_ ?_
          · rintro _ ⟨d', hd', hno⟩
            exact ⟨d', List.mem_cons_of_mem d hd', hno⟩
          · rintro u' ⟨h', hbatch, hadd, hnews, hother⟩
            refine ⟨h', hbatch, ?_, ?_, ?_⟩
            · rw [hadd, List.append_assoc, List.singleton_append, List.map_cons]
            · intro d' hd'
              rcases List.mem_cons.mp hd' with rfl | hmem
              · refine ⟨st, hnew, ?_⟩
                rw [hother _ hnodup.1, Dict.get?_set_self]
              · exact hnews d' hmem
            · intro r hr
              rw [List.map_cons, List.mem_cons, not_or] at hr
              rw [hother r hr.2, Dict.get?_set, if_neg hr.1]

theorem CachedEntry.of_cons (y : CachedEntry) (ys : List CachedEntry) (r : ReqId) :
    CachedEntry.of (y :: ys) r = if r = y.reqId then y :: CachedEntry.of ys r
      else CachedEntry.of ys r := by
  unfold CachedEntry.of
  rw [List.filter_cons]
  by_cases hr : r = y.reqId
  · rw [if_pos hr, if_pos (decide_eq_true hr.symm)]
  · rw [if_neg hr, if_neg (by simpa using Ne.symm hr)]

theorem Carries.updateStates {ys : List CachedEntry} {u : Updating}
    (h : Carries w u.runner rows) :
    (ys.foldlM Runner.updateState u).Ensures
      (fun _ => ∃ y ∈ ys, y.reqId ∉ u.runner.requests)
      fun u' =>
        Carries w u'.runner
          (fun r => (rows r).map fun row => (CachedEntry.of ys r).foldl Row.update row) ∧
        u'.reqIdsToAdd = u.reqIdsToAdd ++
          (ys.map CachedEntry.reqId).filter (fun r => rows r = none) ∧
        (∀ y ∈ ys, y.reqId ∈ u.runner.requests) ∧
        ∀ r, u'.runner.requests.get? r = (u.runner.requests.get? r).map fun st =>
          (CachedEntry.of ys r).foldl CachedRequestState.update st := by
  induction ys generalizing u rows with
  | nil =>
      refine ⟨h.congr fun r => ?_, (List.append_nil _).symm,
        fun _ hy => absurd hy List.not_mem_nil, fun r => ?_⟩
      · simp [CachedEntry.of]
      · simp [CachedEntry.of]
  | cons y ys ih =>
      rw [List.foldlM_cons, ensures_bind]
      cases hst : u.runner.requests.get? y.reqId with
      | none =>
          have herr : Runner.updateState u y = .error (.key .cachedRequests) := by
            unfold Runner.updateState subscript
            rw [hst]
            rfl
          rw [herr]
          exact ⟨y, List.mem_cons_self, (Dict.get?_eq_none_iff _ _).mp hst⟩
      | some st =>
          apply (h.updateState hst).mono (fun _ hf => hf.elim)
          rintro u₁ ⟨h₁, hadd₁, hreq₁⟩
          have hmem : ∀ r, r ∈ u₁.runner.requests ↔ r ∈ u.runner.requests := by
            intro r
            rw [hreq₁, Dict.mem_set, or_iff_right_of_imp]
            rintro rfl
            exact Dict.mem_of_get? hst
          have hnone : ∀ r, (if r = y.reqId then (rows r).map (·.update y) else rows r) = none ↔
              rows r = none := by
            intro r
            split_ifs
            · exact Option.map_eq_none_iff
            · rfl
          apply (ih h₁).mono
          · rintro _ ⟨z, hz, hno⟩
            exact ⟨z, List.mem_cons_of_mem y hz, fun hc => hno ((hmem _).mpr hc)⟩
          · rintro u₂ ⟨h₂, hadd₂, hknown₂, hreq₂⟩
            refine ⟨h₂.congr fun r => ?_, ?_, ?_, fun r => ?_⟩
            · rw [CachedEntry.of_cons]
              by_cases hr : r = y.reqId
              · rw [if_pos hr, if_pos hr, Option.map_map]
                rfl
              · rw [if_neg hr, if_neg hr]
            · rw [hadd₂, hadd₁, List.map_cons, List.filter_cons, List.append_assoc]
              simp only [hnone]
              by_cases hy : rows y.reqId = none
              · rw [if_pos hy, if_pos (decide_eq_true hy), List.singleton_append]
              · rw [if_neg hy, if_neg (by simpa using hy), List.nil_append]
            · exact List.forall_mem_cons.mpr
                ⟨Dict.mem_of_get? hst, fun z hz => (hmem _).mp (hknown₂ z hz)⟩
            · rw [hreq₂, hreq₁, Dict.get?_set, CachedEntry.of_cons]
              by_cases hr : r = y.reqId
              · rw [if_pos hr, if_pos hr, hr, hst]
                rfl
              · rw [if_neg hr, if_neg hr]

@[simp] theorem fits_update (st : CachedRequestState) (y : CachedEntry) :
    (st.update y).Fits w ↔ st.Fits w := Iff.rfl

theorem fits_foldl_update (ys : List CachedEntry) (st : CachedRequestState) :
    (ys.foldl CachedRequestState.update st).Fits w ↔ st.Fits w := by
  induction ys generalizing st with
  | nil => rfl
  | cons y ys ih => rw [List.foldl_cons, ih, fits_update]

/-! ## The batch after a message -/

theorem Settled.removed_eq_nil {x' : Runner} (h : Settled w x' rows) :
    x'.inputBatch.slots.removed = [] := by
  have htidy := h.tidy
  simp only [Slots.isChanged, Bool.not_eq_false', Bool.and_eq_true, List.isEmpty_iff] at htidy
  exact htidy.1.1

theorem Settled.maintained {x' : Runner} {ys : List CachedEntry}
    (hx : x.inputBatch.slots.Valid) (hys : msg.scheduledCachedReqs.entries = .ok ys)
    (hnone : ∀ r ∈ x.added msg, ¬x.Stays msg r)
    (hreq : ∀ r ∈ x.added msg, r ∈ x'.requests)
    (h : Settled w x' fun r =>
      if r ∈ x.added msg then (x'.requests.get? r).map (Row.ofRequest w)
      else if x.Stays msg r then
        (x.inputBatch.slots.get? r).map fun row => (CachedEntry.of ys r).foldl Row.update row
      else none) :
    Maintained w x msg x' := by
  have hvalid := h.carries.valid
  have hnil := h.removed_eq_nil
  have hsize := hvalid.size_add
  rw [hnil, List.length_nil, Nat.add_zero] at hsize
  refine ⟨hsize.symm, ?_, ?_, ?_, ?_, ?_, ?_⟩
  · intro hc
    cases hvalid.isSome_of_mem hnil hc
  · intro r i
    refine ⟨hvalid.filled r i, ?_⟩
    rintro ⟨row, hrow⟩
    have hlt := (List.getElem?_eq_some_iff.mp hrow).1
    obtain ⟨r', hr'⟩ := hvalid.covered i hlt (hnil ▸ List.not_mem_nil)
    obtain ⟨row', hrow'⟩ := hvalid.filled r' i hr'
    rw [hrow'] at hrow
    cases hrow
    exact hr'
  · intro r
    rw [h.carries.mem_index_iff]
    by_cases hadd : r ∈ x.added msg
    · obtain ⟨st, hst⟩ := (Dict.mem_iff_exists _ _).mp (hreq r hadd)
      rw [if_pos hadd, hst]
      exact ⟨fun _ => Or.inr hadd, fun _ => ⟨_, rfl⟩⟩
    · rw [if_neg hadd]
      by_cases hstay : x.Stays msg r
      · obtain ⟨row, hrow⟩ := hx.mem_index_iff.mp hstay.1
        rw [if_pos hstay, hrow]
        exact ⟨fun _ => Or.inl hstay, fun _ => ⟨_, rfl⟩⟩
      · rw [if_neg hstay]
        refine ⟨?_, fun hc => absurd hc (not_or.mpr ⟨hstay, hadd⟩)⟩
        rintro ⟨row, hrow⟩
        cases hrow
  · intro ys' hys' r hstay
    rw [hys] at hys'
    cases hys'
    rw [h.carries.row, if_neg fun hc => hnone r hc hstay, if_pos hstay]
  · intro r hadd
    obtain ⟨st, hst⟩ := (Dict.mem_iff_exists _ _).mp (hreq r hadd)
    refine ⟨st, hst, ?_⟩
    rw [h.carries.row, if_pos hadd, hst]
    rfl
  · intro i
    rw [h.metadata, ← hvalid.map_some_rows hnil, List.getElem?_map, List.getElem?_map]
    cases x'.inputBatch.slots.rows[i]? with
    | none => rfl
    | some y => rfl

/-- Whatever the message says, the batch is maintained, or the message cannot be followed. -/
theorem persistent_batch_maintained (hx : Settled w x x.inputBatch.slots.get?)
    (hadd : (x.added msg).Nodup) (hnew : ∀ d ∈ msg.scheduledNewReqs, ¬x.Stays msg d.reqId) :
    (x.updateStates w msg).Ensures (fun _ => ¬Followable w x msg) fun x' =>
      Settled w x' x'.inputBatch.slots.get? ∧ Maintained w x msg x' := by
  have hnone : ∀ r ∈ x.added msg, ¬x.Stays msg r := by
    intro r hr
    rcases List.mem_append.mp hr with hr | hr
    · obtain ⟨d, hd, rfl⟩ := List.mem_map.mp hr
      exact hnew d hd
    · exact of_decide_eq_true (List.mem_filter.mp hr).2
  have hcarries := (hx.forget msg).congr (rows_forget_eq hx)
  have hnodupNew : (msg.scheduledNewReqs.map NewRequestData.reqId).Nodup :=
    (List.nodup_append.mp hadd).1
  unfold Runner.updateStates
  rw [ensures_bind]
  apply (hcarries.addStates (u := ⟨x.forget msg, []⟩) hnodupNew).mono
  · rintro _ ⟨d, hd, hno⟩ hfollow
    exact hno (hfollow.new d hd)
  rintro u₁ ⟨h₁, -, hadd₁, hnew₁, hother₁⟩
  rw [ensures_bind]
  cases hys : msg.scheduledCachedReqs.entries with
  | error err =>
      intro hfollow
      obtain ⟨ys, hok⟩ := hfollow.entries
      rw [hys] at hok
      cases hok
  | ok ys =>
      have hids := CachedRequestData.reqIds_of_entries hys
      rw [ensures_ok, ensures_bind]
      have hknown : ∀ r ∉ msg.scheduledNewReqs.map NewRequestData.reqId, ∀ st,
          u₁.runner.requests.get? r = some st ↔
            x.requests.get? r = some st ∧ r ∉ msg.freeReqIds := by
        intro r hr st
        rw [hother₁ r hr, get?_requests_forget]
        by_cases hfree : r ∈ msg.freeReqIds
        · simp [hfree]
        · simp [hfree]
      apply h₁.updateStates.mono
      · rintro _ ⟨y, hy, hno⟩ hfollow
        have hy' : y.reqId ∈ msg.scheduledCachedReqs.reqIds := by
          rw [← hids]
          exact List.mem_map_of_mem hy
        by_cases hr : y.reqId ∈ msg.scheduledNewReqs.map NewRequestData.reqId
        · obtain ⟨d, hd, hid⟩ := List.mem_map.mp hr
          obtain ⟨st, -, hst⟩ := hnew₁ d hd
          exact hno (hid ▸ Dict.mem_of_get? hst)
        · obtain ⟨hmem, hfree⟩ := hfollow.known y.reqId hy'
          obtain ⟨st, hst⟩ := (Dict.mem_iff_exists _ _).mp hmem
          exact hno (Dict.mem_of_get? ((hknown _ hr st).mpr ⟨hst, hfree⟩))
      rintro u₂ ⟨h₂, hadd₂, hknown₂, hreq₂⟩
      have hlist : u₂.reqIdsToAdd = x.added msg := by
        rw [hadd₂, hadd₁, List.nil_append, hids, added]
        simp only [rows_forget_eq_none_iff hx]
      have hrequests : ∀ r ∈ x.added msg, r ∈ u₁.runner.requests := by
        intro r hr
        rcases List.mem_append.mp hr with hr | hr
        · obtain ⟨d, hd, rfl⟩ := List.mem_map.mp hr
          obtain ⟨st, -, hst⟩ := hnew₁ d hd
          exact Dict.mem_of_get? hst
        · have hr' := (List.mem_filter.mp hr).1
          rw [← hids] at hr'
          obtain ⟨y, hy, rfl⟩ := List.mem_map.mp hr'
          exact hknown₂ y hy
      have hrequests₂ : ∀ r ∈ x.added msg, r ∈ u₂.runner.requests := by
        intro r hr
        obtain ⟨st, hst⟩ := (Dict.mem_iff_exists _ _).mp (hrequests r hr)
        rw [Dict.mem_iff_exists, hreq₂, hst]
        exact ⟨_, rfl⟩
      have hnone₂ : ∀ r, ((if x.Stays msg r then x.inputBatch.slots.get? r else none).map
          fun row => (CachedEntry.of ys r).foldl Row.update row) = none ↔ ¬x.Stays msg r := by
        intro r
        rw [Option.map_eq_none_iff, rows_forget_eq_none_iff hx]
      rw [ensures_bind, hlist]
      apply (h₂.addRows hadd (fun r hr => (hnone₂ r).mpr (hnone r hr)) hrequests₂).mono
      · rintro _ (hfull | ⟨r, hr, st, hst, hno⟩) hfollow
        · have hrows := hfollow.rows
          rw [h₂.numReqs_eq hnone₂] at hfull
          omega
        · rw [hreq₂] at hst
          obtain ⟨st₁, hst₁, rfl⟩ := Option.map_eq_some_iff.mp hst
          rw [fits_foldl_update] at hno
          by_cases hr' : r ∈ msg.scheduledNewReqs.map NewRequestData.reqId
          · obtain ⟨d, hd, rfl⟩ := List.mem_map.mp hr'
            obtain ⟨st', hok, hst'⟩ := hnew₁ d hd
            rw [hst₁, Option.some.injEq] at hst'
            exact hno (hst' ▸ ensures_of_ok (hfollow.new d hd) hok)
          · have hcached := (List.mem_filter.mp ((List.mem_append.mp hr).resolve_left hr')).1
            exact hno (hfollow.width r hcached (hnone r hr) st₁ ((hknown r hr' st₁).mp hst₁).1)
      · rintro x₃ ⟨h₃, hreq₃, -, -⟩
        rw [ensures_bind]
        apply h₃.refresh.mono (fun _ hf => hf.elim)
        intro b hb
        rw [ensures_pure]
        refine ⟨⟨hb.carries.congr fun r => (hb.carries.row r).symm, hb.tidy, hb.metadata⟩, ?_⟩
        refine Settled.maintained hx.carries.valid hys hnone (fun r hr => ?_)
          ⟨hb.carries.congr fun r => ?_, hb.tidy, hb.metadata⟩
        · exact hreq₃ ▸ hrequests₂ r hr
        · dsimp only
          rw [hreq₃]
          split_ifs <;> rfl

def newcomer (r : ReqId) : NewRequestData where
  reqId := r
  promptTokenIds := [7]
  unmaskedTokenIds := []
  blockIds := [0]
  numComputedTokens := 0
  outputLength := 2
  numDenoiseRan := 0
  curBlockStart := 1
  denoiseBlockSize := 1
  execStartPos := 0
  numExecTokens := 3

def exchange (leave stay new : List ReqId) : SchedulerOutput where
  scheduledNewReqs := new.map newcomer
  scheduledCachedReqs :=
    { reqIds := stay
      newBlockIds := stay.map fun _ => []
      numComputedTokens := stay.map fun _ => 0
      numDenoiseRan := stay.map fun _ => 1
      curBlockStart := stay.map fun _ => 2
      denoiseBlockSize := stay.map fun _ => 1
      execStartPos := stay.map fun _ => 0 }
  numScheduledTokens := (stay ++ new).foldl (fun d r => d.set r 3) .empty
  execStartPos := (stay ++ new).foldl (fun d r => d.set r 0) .empty
  totalNumScheduledTokens := 3 * (stay ++ new).length
  finishedReqIds := .empty
  freeReqIds := leave.foldl OrderedSet.add .empty
  confidenceThresholds := (stay ++ new).foldl (fun d r => d.set r 1) .empty

/-- Of four requests two leave, and one is new. The new one takes the first row, and the last
one is moved into the second gap. -/
theorem persistent_batch_of_exchange :
    ∃ x x', (Runner.empty.updateStates ⟨4, 8, 0⟩ (exchange [] [] ["a", "b", "c", "d"])) = .ok x ∧
      x.updateStates ⟨4, 8, 0⟩ (exchange ["a", "b"] ["c", "d"] ["e"]) = .ok x' ∧
      x'.inputBatch.slots.rows.map Prod.fst = ["e", "d", "c"] ∧
      Maintained ⟨4, 8, 0⟩ x (exchange ["a", "b"] ["c", "d"] ["e"]) x' := by
  have hrun : (Runner.empty.updateStates ⟨4, 8, 0⟩ (exchange [] [] ["a", "b", "c", "d"])).Ensures
      (fun _ => False) fun x => (x.added (exchange ["a", "b"] ["c", "d"] ["e"])).Nodup ∧
        (∀ d ∈ (exchange ["a", "b"] ["c", "d"] ["e"]).scheduledNewReqs,
          ¬x.Stays (exchange ["a", "b"] ["c", "d"] ["e"]) d.reqId) ∧
        (x.updateStates ⟨4, 8, 0⟩ (exchange ["a", "b"] ["c", "d"] ["e"])).Ensures (fun _ => False)
          fun x' => x'.inputBatch.slots.rows.map Prod.fst = ["e", "d", "c"] := by
    decide +kernel
  have hempty : Settled ⟨4, 8, 0⟩ Runner.empty Runner.empty.inputBatch.slots.get? :=
    settled_empty _
  obtain ⟨x, hx, hadd, hnew, hrun⟩ := hrun.exists_ok
  obtain ⟨x', hx', hrows⟩ := hrun.exists_ok
  have hsettled := ensures_of_ok
    (persistent_batch_maintained hempty (by decide) (by decide)) hx
  exact ⟨x, x', hx, hx', hrows,
    (ensures_of_ok (persistent_batch_maintained hsettled.1 hadd hnew) hx').2⟩

end Runner

end TeDiServe

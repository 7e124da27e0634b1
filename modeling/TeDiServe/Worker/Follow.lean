import TeDiServe.Worker.Rows

/-!
# A worker follows a message

`Synced` is the agreement between the states of a worker and its batch: every state has
a row with its contents, and the sampling metadata are those of the rows. A message
`Suits` a worker if it speaks of the requests as the worker knows them: the cached ones
are there, the new ones are not, and those that are neither are to be freed.

Such a message is followed exactly if there are enough rows and the new requests go into
them. Then the worker has exactly the scheduled requests.
-/

namespace TeDiServe

namespace Runner

/-- The states and the rows are the same, with the row of `toAdd` missing. -/
structure Paired (w : WorkerConfig) (x : Runner) (toAdd : List ReqId) : Prop where
  valid : x.inputBatch.slots.Valid
  row : ∀ r, x.inputBatch.slots.get? r =
    if r ∈ toAdd then none else (x.requests.get? r).map (Row.ofRequest w)
  width : x.inputBatch.slots.cells.length ≤ w.maxNumReqs
  named : ∀ r st, x.requests.get? r = some st → st.reqId = r

structure Synced (w : WorkerConfig) (x : Runner) : Prop where
  paired : Paired w x []
  tidy : x.inputBatch.slots.isChanged = false
  metadata : x.inputBatch.samplingMetadata = x.inputBatch.slots.rows.map fun y => y.2.metadata

theorem synced_empty (w : WorkerConfig) : Synced w empty := by
  refine ⟨⟨Slots.valid_empty, ?_, Nat.zero_le _, ?_⟩, rfl, rfl⟩
  · intro r
    rfl
  · intro r st hst
    cases hst

end Runner

structure SchedulerOutput.Suits (msg : SchedulerOutput) (x : Runner) : Prop where
  nodupNew : (msg.scheduledNewReqs.map NewRequestData.reqId).Nodup
  nodupCached : msg.scheduledCachedReqs.reqIds.Nodup
  scheduled : ∀ r, r ∈ msg.numScheduledTokens ↔
    r ∈ msg.scheduledNewReqs.map NewRequestData.reqId ∨ r ∈ msg.scheduledCachedReqs.reqIds
  apart : ∀ r ∈ msg.scheduledNewReqs.map NewRequestData.reqId,
    r ∉ msg.scheduledCachedReqs.reqIds
  fresh : ∀ r ∈ msg.scheduledNewReqs.map NewRequestData.reqId,
    r ∈ x.requests → r ∈ msg.freeReqIds
  cached : ∀ r ∈ msg.scheduledCachedReqs.reqIds, r ∈ x.requests ∧ r ∉ msg.freeReqIds
  rest : ∀ r, r ∈ x.requests → r ∈ msg.freeReqIds ∨ r ∈ msg.scheduledCachedReqs.reqIds
  inOutput : ∀ d ∈ msg.scheduledNewReqs, d.InOutput

/-- What a message asks of the arrays: a row for every request, and that the new requests
go into their rows. -/
structure SchedulerOutput.GoesInto (msg : SchedulerOutput) (w : WorkerConfig) : Prop where
  rows : msg.numScheduledTokens.keys.length ≤ w.maxNumReqs
  width : ∀ d ∈ msg.scheduledNewReqs, (d.state w).Fits w

namespace Runner

variable {w : WorkerConfig} {x : Runner} {msg : SchedulerOutput} {toAdd : List ReqId}

theorem Paired.carries (h : Paired w x toAdd) (hnote : Noted x) : Carries w x fun r =>
    if r ∈ toAdd then none else (x.requests.get? r).map (Row.ofRequest w) :=
  ⟨h.valid, h.row, h.width, h.named, hnote⟩

theorem Carries.paired {rows : ReqId → Option Row} (h : Carries w x rows)
    (hrow : ∀ r, rows r = if r ∈ toAdd then none else (x.requests.get? r).map (Row.ofRequest w)) :
    Paired w x toAdd :=
  ⟨h.valid, fun r => (h.row r).trans (hrow r), h.width, h.named⟩

theorem Synced.settled (hx : Synced w x) :
    Settled w x fun r => (x.requests.get? r).map (Row.ofRequest w) :=
  ⟨(hx.paired.carries fun _ _ => hx.metadata).congr fun _ => if_neg List.not_mem_nil, hx.tidy,
    hx.metadata⟩

/-- The worker forgets the requests that are to be freed, and no others. -/
theorem Synced.forget (hx : Synced w x) (hm : msg.Suits x) :
    Paired w (x.forget msg) [] ∧ Noted (x.forget msg) ∧
      ∀ r, (x.forget msg).requests.get? r =
        if r ∈ msg.freeReqIds then none else x.requests.get? r := by
  have hcarries := hx.settled.forget msg
  refine ⟨hcarries.paired fun r => ?_, hcarries.noted, get?_requests_forget x msg⟩
  rw [if_neg List.not_mem_nil, get?_requests_forget]
  by_cases hfree : r ∈ msg.freeReqIds
  · rw [if_pos (Or.inl hfree), if_pos hfree]
    rfl
  · rw [if_neg hfree]
    by_cases hsched : r ∈ msg.numScheduledTokens
    · rw [if_neg fun hc => hc.elim hfree fun hc => hc hsched]
    · -- a request that is not scheduled has no state
      rw [if_pos (Or.inr hsched)]
      cases hst : x.requests.get? r with
      | none => rfl
      | some st =>
          have hcached := (hm.rest r (Dict.mem_of_get? hst)).resolve_left hfree
          exact absurd ((hm.scheduled r).mpr (Or.inr hcached)) hsched

theorem foldlM_addState (ds : List NewRequestData) (u : Updating)
    (h : ∀ d ∈ ds, d.InOutput) : ds.foldlM (addState w) u = .ok
      { runner := { u.runner with
          requests := ds.foldl (fun t d => t.set d.reqId (d.state w)) u.runner.requests }
        reqIdsToAdd := u.reqIdsToAdd ++ ds.map NewRequestData.reqId } := by
  induction ds generalizing u with
  | nil => simp [pure, Except.pure]
  | cons d ds ih =>
      have hd : addState w u d = .ok
          { runner := { u.runner with requests := u.runner.requests.set d.reqId (d.state w) }
            reqIdsToAdd := u.reqIdsToAdd ++ [d.reqId] } := by
        unfold addState
        rw [CachedRequestState.ofNew_eq w (h d List.mem_cons_self)]
        rfl
      rw [List.foldlM_cons, hd]
      refine (ih _ fun d' hd' => h d' (List.mem_cons_of_mem d hd')).trans ?_
      simp

theorem Paired.addStates {ds : List NewRequestData} (h : Paired w x [])
    (hnodup : (ds.map NewRequestData.reqId).Nodup)
    (hfresh : ∀ d ∈ ds, d.reqId ∉ x.requests) :
    Paired w { x with
      requests := ds.foldl (fun t d => t.set d.reqId (d.state w)) x.requests }
      (ds.map NewRequestData.reqId) := by
  refine ⟨h.valid, ?_, h.width, ?_⟩
  · intro r
    dsimp only
    rw [h.row, if_neg List.not_mem_nil]
    by_cases hr : r ∈ ds.map NewRequestData.reqId
    · obtain ⟨d, hd, rfl⟩ := List.mem_map.mp hr
      rw [if_pos hr, (Dict.get?_eq_none_iff _ _).mpr (hfresh d hd), Option.map_none]
    · rw [if_neg hr, Dict.get?_foldl_set_of_not_mem NewRequestData.reqId
        (NewRequestData.state w) ds x.requests hr]
  · intro r st hst
    by_cases hr : r ∈ ds.map NewRequestData.reqId
    · obtain ⟨d, hd, rfl⟩ := List.mem_map.mp hr
      rw [Dict.get?_foldl_set_of_mem NewRequestData.reqId (NewRequestData.state w) ds x.requests
        hnodup hd, Option.some.injEq] at hst
      rw [← hst]
      rfl
    · rw [Dict.get?_foldl_set_of_not_mem NewRequestData.reqId (NewRequestData.state w) ds
        x.requests hr] at hst
      exact h.named r st hst

theorem Paired.updateState {u : Updating} {y : CachedEntry} (h : Paired w u.runner u.reqIdsToAdd)
    (hnote : Noted u.runner) (hy : y.reqId ∉ u.reqIdsToAdd) {st : CachedRequestState}
    (hst : u.runner.requests.get? y.reqId = some st) :
    (Runner.updateState u y).Ensures (fun _ => False) fun u' =>
      Paired w u'.runner u'.reqIdsToAdd ∧ Noted u'.runner ∧ u'.reqIdsToAdd = u.reqIdsToAdd ∧
      u'.runner.requests = u.runner.requests.set y.reqId (st.update y) := by
  apply ((h.carries hnote).updateState hst).imp
  rintro u' ⟨hcarries, hadd, hreq⟩
  rw [if_neg hy, hst, Option.map_some, if_neg (by simp), List.append_nil] at hadd
  refine ⟨hcarries.paired fun r => ?_, hcarries.noted, hadd, hreq⟩
  rw [hadd, hreq, Dict.get?_set]
  by_cases hr : r = y.reqId
  · subst hr
    rw [if_pos rfl, if_neg hy, if_neg hy, if_pos rfl, hst]
    rfl
  · rw [if_neg hr, if_neg hr]

theorem Paired.updateStates {u : Updating} {ys : List CachedEntry}
    (h : Paired w u.runner u.reqIdsToAdd) (hnote : Noted u.runner)
    (hnodup : (ys.map CachedEntry.reqId).Nodup)
    (hys : ∀ y ∈ ys, y.reqId ∉ u.reqIdsToAdd ∧ y.reqId ∈ u.runner.requests) :
    (ys.foldlM Runner.updateState u).Ensures (fun _ => False) fun u' =>
      Paired w u'.runner u'.reqIdsToAdd ∧ Noted u'.runner ∧ u'.reqIdsToAdd = u.reqIdsToAdd ∧
      (∀ r ∉ ys.map CachedEntry.reqId,
        u'.runner.requests.get? r = u.runner.requests.get? r) ∧
      ∀ y ∈ ys, u'.runner.requests.get? y.reqId =
        (u.runner.requests.get? y.reqId).map (·.update y) := by
  induction ys generalizing u with
  | nil => exact ⟨h, hnote, rfl, fun _ _ => rfl, fun _ hy => absurd hy List.not_mem_nil⟩
  | cons y ys ih =>
      rw [List.map_cons, List.nodup_cons] at hnodup
      obtain ⟨hnot, hmem⟩ := hys y List.mem_cons_self
      obtain ⟨st, hst⟩ := (Dict.mem_iff_exists _ _).mp hmem
      rw [List.foldlM_cons, ensures_bind]
      apply (h.updateState hnote hnot hst).imp
      rintro u₁ ⟨h₁, hnote₁, hadd₁, hreq₁⟩
      have hget : ∀ r, u₁.runner.requests.get? r =
          if r = y.reqId then some (st.update y) else u.runner.requests.get? r := by
        intro r
        rw [hreq₁, Dict.get?_set]
      apply (ih h₁ hnote₁ hnodup.2 ?_).imp
      · rintro u₂ ⟨h₂, hnote₂, hadd₂, hother, hupd⟩
        refine ⟨h₂, hnote₂, hadd₂.trans hadd₁, ?_, ?_⟩
        · intro r hr
          rw [List.map_cons, List.mem_cons, not_or] at hr
          rw [hother r hr.2, hget, if_neg hr.1]
        · intro z hz
          rcases List.mem_cons.mp hz with rfl | hz
          · rw [hother _ hnodup.1, hget, if_pos rfl, hst, Option.map_some]
          · have hne : z.reqId ≠ y.reqId :=
              fun hc => hnodup.1 (hc ▸ List.mem_map_of_mem (f := CachedEntry.reqId) hz)
            rw [hupd z hz, hget, if_neg hne]
      · intro z hz
        obtain ⟨hz₁, hz₂⟩ := hys z (List.mem_cons_of_mem y hz)
        rw [hadd₁, hreq₁, Dict.mem_set]
        exact ⟨hz₁, Or.inr hz₂⟩

theorem Paired.mem_index_iff (h : Paired w x toAdd) {r : ReqId} :
    r ∈ x.inputBatch.slots.index ↔ r ∉ toAdd ∧ r ∈ x.requests := by
  rw [h.valid.mem_index_iff, h.row, Dict.mem_iff_exists]
  by_cases hr : r ∈ toAdd
  · simp [hr]
  · simp [hr]

theorem Paired.numReqs_add (h : Paired w x toAdd) (hnodup : toAdd.Nodup)
    (hknown : ∀ r ∈ toAdd, r ∈ x.requests) :
    x.inputBatch.numReqs + toAdd.length = x.requests.keys.length := by
  have hperm : (x.inputBatch.slots.index.keys ++ toAdd).Perm x.requests.keys := by
    rw [List.perm_ext_iff_of_nodup ?_ x.requests.nodup_keys]
    · intro r
      rw [List.mem_append, ← Dict.mem_def, ← Dict.mem_def, h.mem_index_iff]
      by_cases hr : r ∈ toAdd
      · simp [hr, hknown r hr]
      · simp [hr]
    · apply (Dict.nodup_keys _).append hnodup
      intro r hr hadd
      exact (h.mem_index_iff.mp hr).1 hadd
  have hlen := hperm.length_eq
  rw [List.length_append] at hlen
  exact hlen

theorem Paired.addRows {l : List ReqId} (h : Paired w x l) (hnote : Noted x) (hnodup : l.Nodup)
    (hknown : ∀ r ∈ l, r ∈ x.requests) :
    (l.foldlM (Runner.addRow w) x).Ensures
      (fun _ => w.maxNumReqs < x.inputBatch.numReqs + l.length ∨
        ∃ r ∈ l, ∃ st, x.requests.get? r = some st ∧ ¬st.Fits w)
      fun x' => Paired w x' [] ∧ Noted x' ∧ x'.requests = x.requests ∧
        x'.inputBatch.numReqs = x.inputBatch.numReqs + l.length ∧
        ∀ r ∈ l, ∀ st, x.requests.get? r = some st → st.Fits w := by
  apply ((h.carries hnote).addRows hnodup (fun r hr => if_pos hr) hknown).imp
  rintro x' ⟨hcarries, hreq, hsize, hall⟩
  refine ⟨hcarries.paired fun r => ?_, hcarries.noted, hreq, hsize, hall⟩
  rw [hreq, if_neg List.not_mem_nil]
  by_cases hr : r ∈ l
  · rw [if_pos hr]
  · rw [if_neg hr, if_neg hr]

/-- The batch is made dense, and the metadata are those of the rows again. -/
theorem Paired.refresh (h : Paired w x []) (hnote : Noted x) :
    x.inputBatch.refresh.Ensures (fun _ => False) fun b => Synced w { x with inputBatch := b } :=
  (h.carries hnote).refresh.imp fun _ hb => ⟨hb.carries.paired fun _ => rfl, hb.tidy, hb.metadata⟩

structure Followed (w : WorkerConfig) (x : Runner) (msg : SchedulerOutput) (x' : Runner) :
    Prop where
  synced : Synced w x'
  scheduled : ∀ r, r ∈ x'.requests ↔ r ∈ msg.numScheduledTokens
  new : ∀ d ∈ msg.scheduledNewReqs, x'.requests.get? d.reqId = some (d.state w)
  cached : ∀ ys, msg.scheduledCachedReqs.entries = .ok ys → ∀ y ∈ ys,
    x'.requests.get? y.reqId = (x.requests.get? y.reqId).map (·.update y)

/-- A message that suits a worker is followed exactly if it goes into the arrays. -/
theorem Synced.ensures_updateStates (hx : Synced w x) (hm : msg.Suits x) {ys : List CachedEntry}
    (hys : msg.scheduledCachedReqs.entries = .ok ys) :
    (x.updateStates w msg).Ensures (fun _ => ¬msg.GoesInto w) fun x' =>
      msg.GoesInto w ∧ Followed w x msg x' := by
  obtain ⟨h₁, hnote₁, hget₁⟩ := hx.forget hm
  have hids := CachedRequestData.reqIds_of_entries hys
  have hfresh : ∀ d ∈ msg.scheduledNewReqs, d.reqId ∉ (x.forget msg).requests := by
    intro d hd
    have hmem := List.mem_map_of_mem (f := NewRequestData.reqId) hd
    rw [← Dict.get?_eq_none_iff, hget₁]
    split_ifs with hfree
    · rfl
    · rw [Dict.get?_eq_none_iff]
      exact fun hc => hfree (hm.fresh d.reqId hmem hc)
  have h₂ := h₁.addStates hm.nodupNew hfresh
  -- the states before the cached requests are updated
  generalize hreqs : msg.scheduledNewReqs.foldl (fun t d => t.set d.reqId (d.state w))
    (x.forget msg).requests = reqs at h₂
  have hnew : ∀ d ∈ msg.scheduledNewReqs, reqs.get? d.reqId = some (d.state w) := by
    intro d hd
    rw [← hreqs]
    exact Dict.get?_foldl_set_of_mem NewRequestData.reqId (NewRequestData.state w) _ _
      hm.nodupNew hd
  have hold : ∀ r ∉ msg.scheduledNewReqs.map NewRequestData.reqId,
      reqs.get? r = if r ∈ msg.freeReqIds then none else x.requests.get? r := by
    intro r hr
    rw [← hreqs, ← hget₁]
    exact Dict.get?_foldl_set_of_not_mem NewRequestData.reqId (NewRequestData.state w) _ _ hr
  have hmem : ∀ r, r ∈ reqs ↔ r ∈ msg.numScheduledTokens := by
    intro r
    rw [hm.scheduled]
    by_cases hr : r ∈ msg.scheduledNewReqs.map NewRequestData.reqId
    · obtain ⟨d, hd, rfl⟩ := List.mem_map.mp hr
      exact ⟨fun _ => Or.inl hr, fun _ => Dict.mem_of_get? (hnew d hd)⟩
    · rw [or_iff_right hr, Dict.mem_iff_exists, hold r hr]
      constructor
      · rintro ⟨st, hst⟩
        split_ifs at hst with hfree
        exact (hm.rest r (Dict.mem_of_get? hst)).resolve_left hfree
      · intro hc
        obtain ⟨hknown, hfree⟩ := hm.cached r hc
        rw [if_neg hfree]
        exact (Dict.mem_iff_exists _ _).mp hknown
  unfold Runner.updateStates
  rw [foldlM_addState _ _ hm.inOutput, hreqs]
  rw [ensures_bind, ensures_ok, List.nil_append, ensures_bind, hys,
    ensures_ok, ensures_bind]
  apply (h₂.updateStates hnote₁ (hids ▸ hm.nodupCached) ?_).mono (fun _ hf => hf.elim)
  · rintro u ⟨h₃, hnote₃, hadd, hother, hupd⟩
    dsimp only at hadd hother hupd
    have hnew₃ : ∀ d ∈ msg.scheduledNewReqs, u.runner.requests.get? d.reqId = some (d.state w) := by
      intro d hd
      rw [hother, hnew d hd]
      rw [hids]
      exact hm.apart _ (List.mem_map_of_mem hd)
    have hmem₃ : ∀ r, r ∈ u.runner.requests ↔ r ∈ msg.numScheduledTokens := by
      intro r
      rw [← hmem]
      by_cases hr : r ∈ ys.map CachedEntry.reqId
      · obtain ⟨y, hy, rfl⟩ := List.mem_map.mp hr
        rw [Dict.mem_iff_exists, hupd y hy, Dict.mem_iff_exists]
        simp
      · rw [Dict.mem_iff_exists, hother r hr, ← Dict.mem_iff_exists]
    have hnodup : u.reqIdsToAdd.Nodup := hadd ▸ hm.nodupNew
    have hknown : ∀ r ∈ u.reqIdsToAdd, r ∈ u.runner.requests := by
      intro r hr
      rw [hadd] at hr
      rw [hmem₃, hm.scheduled]
      exact Or.inl hr
    have hcount : u.runner.inputBatch.numReqs + u.reqIdsToAdd.length =
        msg.numScheduledTokens.keys.length :=
      (h₃.numReqs_add hnodup hknown).trans ((List.perm_ext_iff_of_nodup
        u.runner.requests.nodup_keys msg.numScheduledTokens.nodup_keys).mpr hmem₃).length_eq
    rw [ensures_bind]
    apply (h₃.addRows hnote₃ hnodup hknown).mono
    · rintro _ (hfull | ⟨r, hr, st, hst, hno⟩) hgo
      · have := hgo.rows
        omega
      · rw [hadd] at hr
        obtain ⟨d, hd, rfl⟩ := List.mem_map.mp hr
        rw [hnew₃ d hd, Option.some.injEq] at hst
        exact hno (hst ▸ hgo.width d hd)
    · rintro x₄ ⟨h₄, hnote₄, hreq₄, hsize₄, hall⟩
      rw [ensures_bind]
      apply (h₄.refresh hnote₄).mono (fun _ hf => hf.elim)
      intro b hb
      rw [ensures_pure]
      refine ⟨⟨?_, ?_⟩, hb, ?_, ?_, ?_⟩
      · rw [← hcount, ← hsize₄]
        have hsize := h₄.valid.size_add
        have hwidth := h₄.width
        exact (Nat.le_add_right _ _).trans (hsize.trans_le hwidth)
      · intro d hd
        exact hall d.reqId (by rw [hadd]; exact List.mem_map_of_mem hd) _ (hnew₃ d hd)
      · intro r
        dsimp only
        rw [hreq₄]
        exact hmem₃ r
      · intro d hd
        dsimp only
        rw [hreq₄]
        exact hnew₃ d hd
      · intro ys' hys' y hy
        rw [hys] at hys'
        cases hys'
        dsimp only
        rw [hreq₄, hupd y hy]
        have hyc : y.reqId ∈ msg.scheduledCachedReqs.reqIds := by
          rw [← hids]
          exact List.mem_map_of_mem hy
        rw [hold y.reqId fun hc => hm.apart _ hc hyc, if_neg (hm.cached _ hyc).2]
  · intro y hy
    have hyc : y.reqId ∈ msg.scheduledCachedReqs.reqIds := by
      rw [← hids]
      exact List.mem_map_of_mem hy
    refine ⟨fun hc => hm.apart _ hc hyc, ?_⟩
    dsimp only
    rw [hmem, hm.scheduled]
    exact Or.inr hyc

end Runner

end TeDiServe

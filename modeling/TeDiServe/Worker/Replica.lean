import TeDiServe.Placement.Output
import TeDiServe.Worker.Step

/-!
# The copy of a request on a worker

A worker does not see the requests of the scheduler. It has the prompt from the message
that brought the request, and it writes the tokens that it unmasks into an output of its
own. `Holds` says that this output is the masked one with some pairs written into it, and
`Current` that the pairs are those that the scheduler has counted, with the block that the
scheduler works on.

A message repeats the progress of the requests, and so a worker that holds their pairs is
current after it has followed the message. This is so for a request that stays and for one
that comes from another worker.
-/

namespace TeDiServe

/-- The output of a request without the tokens that were unmasked, and then with them. -/
def Request.outputWith (req : Request) (maskTokenId : Token) (pairs : List (ℕ × Token)) :
    List Token :=
  written req.promptTokenIds.length (List.replicate req.maxTokens maskTokenId) pairs

def Request.InOutput (req : Request) (pairs : List (ℕ × Token)) : Prop :=
  ∀ p ∈ pairs, req.promptTokenIds.length ≤ p.1 ∧ p.1 < req.promptTokenIds.length + req.maxTokens

namespace ModelRunnerOutput

variable {res : ModelRunnerOutput} {r : ReqId} {i : ℕ} {pairs : List (ℕ × Token)}

theorem tokensOf_eq_some (hi : res.reqIdToIndex.get? r = some i)
    (h : res.sampledTokenIds[i]? = some pairs) : res.tokensOf r = some pairs := by
  have hne : res.sampledTokenIds ≠ [] := List.ne_nil_of_mem (List.mem_of_getElem? h)
  rw [tokensOf, hi, Option.bind_some, Scheduler.generatedTokenIds, if_neg hne, h]
  rfl

theorem exists_of_tokensOf (h : res.tokensOf r = some pairs) : ∃ i,
    res.reqIdToIndex.get? r = some i ∧ Scheduler.generatedTokenIds res i = .ok pairs := by
  obtain ⟨i, hi, hpairs⟩ := Option.bind_eq_some_iff.mp h
  refine ⟨i, hi, ?_⟩
  cases hgen : Scheduler.generatedTokenIds res i with
  | error err =>
      rw [hgen] at hpairs
      cases hpairs
  | ok ts =>
      rw [hgen] at hpairs
      exact congrArg Except.ok (Option.some.inj hpairs)

end ModelRunnerOutput

namespace CachedRequestState

variable {w : WorkerConfig} {st : CachedRequestState} {req req' : Request}
  {pairs : List (ℕ × Token)}

structure Holds (w : WorkerConfig) (st : CachedRequestState) (req : Request)
    (pairs : List (ℕ × Token)) : Prop where
  promptTokenIds : st.promptTokenIds = req.promptTokenIds
  unmaskedTokenIds : st.unmaskedTokenIds = pairs
  outputTokenIds : st.outputTokenIds = req.outputWith w.maskTokenId pairs

/-- The worker has what the scheduler has counted, and works on the same block. -/
structure Current (w : WorkerConfig) (st : CachedRequestState) (req : Request) : Prop where
  holds : st.Holds w req req.unmaskedTokenIds
  curBlockStart : st.curBlockStart = req.curBlockStart
  denoiseBlockSize : st.denoiseBlockSize = req.denoiseBlockSize

theorem Holds.numTokens (h : st.Holds w req pairs) :
    st.numTokens = req.promptTokenIds.length + req.maxTokens := by
  rw [CachedRequestState.numTokens, h.promptTokenIds, h.outputTokenIds, Request.outputWith,
    length_written, List.length_replicate]

theorem Holds.emit (h : st.Holds w req pairs) (more : List (ℕ × Token)) :
    (st.emit more).Holds w req (pairs ++ more) := by
  refine ⟨h.promptTokenIds, ?_, ?_⟩
  · rw [CachedRequestState.emit, h.unmaskedTokenIds]
  · rw [CachedRequestState.emit, h.promptTokenIds, h.outputTokenIds, Request.outputWith,
      Request.outputWith, written_append]

theorem Holds.of_eq (h : st.Holds w req pairs) (hprompt : req'.promptTokenIds = req.promptTokenIds)
    (hmax : req'.maxTokens = req.maxTokens) : st.Holds w req' pairs := by
  refine ⟨h.promptTokenIds.trans hprompt.symm, h.unmaskedTokenIds, ?_⟩
  rw [h.outputTokenIds, Request.outputWith, Request.outputWith, hprompt, hmax]

theorem Current.of_progress (h : st.Current w req) (hp : req'.progress = req.progress) :
    st.Current w req' := by
  have hprompt : req'.promptTokenIds = req.promptTokenIds := (congrArg Request.promptTokenIds hp :)
  have hmax : req'.maxTokens = req.maxTokens := (congrArg Request.maxTokens hp :)
  have hpairs : req'.unmaskedTokenIds = req.unmaskedTokenIds :=
    (congrArg Request.unmaskedTokenIds hp :)
  have hstart : req'.curBlockStart = req.curBlockStart := (congrArg Request.curBlockStart hp :)
  have hsize : req'.denoiseBlockSize = req.denoiseBlockSize :=
    (congrArg Request.denoiseBlockSize hp :)
  exact ⟨hpairs ▸ h.holds.of_eq hprompt hmax, h.curBlockStart.trans hstart.symm,
    h.denoiseBlockSize.trans hsize.symm⟩

/-- What a worker builds for a request that is new to it. -/
theorem current_state (w : WorkerConfig) (req : Request) (blockIds : List ℕ) :
    ((NewRequestData.fromRequest req blockIds).state w).Current w req :=
  ⟨⟨rfl, rfl, rfl⟩, rfl, rfl⟩

theorem Holds.current_update {y : CachedEntry} (h : st.Holds w req req.unmaskedTokenIds)
    (hstart : y.curBlockStart = req.curBlockStart)
    (hsize : y.denoiseBlockSize = req.denoiseBlockSize) : (st.update y).Current w req :=
  ⟨⟨h.promptTokenIds, h.unmaskedTokenIds, h.outputTokenIds⟩, hstart, hsize⟩

end CachedRequestState

/-! ## Rows -/

def Request.row (w : WorkerConfig) (req : Request) : Row :=
  Row.ofRequest w ((NewRequestData.fromRequest req []).state w)

theorem Request.metadata_row (w : WorkerConfig) (req : Request) : (req.row w).metadata =
    ⟨req.promptTokenIds.length, req.promptTokenIds.length + req.maxTokens, req.curBlockStart,
      req.denoiseBlockSize⟩ := by
  simp [Request.row, CachedRequestState.numTokens, NewRequestData.state,
    NewRequestData.fromRequest, Request.outputLength]

theorem Request.tokenIds_row (w : WorkerConfig) (req : Request) : (req.row w).tokenIds =
    (req.promptTokenIds ++ req.outputWith w.maskTokenId req.unmaskedTokenIds).take
      w.maxModelLen := rfl

namespace CachedRequestState

variable {w : WorkerConfig} {st : CachedRequestState} {req : Request}

variable (h : st.Current w req)
include h

theorem Current.metadata : (Row.ofRequest w st).metadata = (req.row w).metadata := by
  rw [Row.metadata_ofRequest, req.metadata_row, h.holds.numTokens, h.holds.promptTokenIds,
    h.curBlockStart, h.denoiseBlockSize]

theorem Current.tokenIds : (Row.ofRequest w st).tokenIds = (req.row w).tokenIds := by
  rw [req.tokenIds_row, Row.ofRequest, h.holds.promptTokenIds, h.holds.outputTokenIds]

theorem Current.cell (predict : Prediction) (r : ReqId) :
    (Row.ofRequest w st).cell w predict r = (req.row w).cell w predict r := by
  funext pos
  rw [Row.cell, Row.cell, h.tokenIds]

theorem Current.executable_iff {msg : SchedulerOutput} {predict : Prediction} {r : ReqId} :
    Runner.Executable w msg predict r (Row.ofRequest w st) ↔
      Runner.Executable w msg predict r (req.row w) := by
  constructor
  · rintro ⟨hread, hsamplable⟩
    exact ⟨h.tokenIds ▸ hread, h.cell predict r ▸ h.metadata ▸ hsamplable⟩
  · rintro ⟨hread, hsamplable⟩
    exact ⟨h.tokenIds ▸ hread, h.cell predict r ▸ h.metadata ▸ hsamplable⟩

end CachedRequestState

/-! ## The entries of the cached requests -/

theorem CachedRequestData.ensures_entries {reqIds : List ReqId} {newBlockIds : List (List ℕ)}
    {reqs : List Request} (hblocks : newBlockIds.length = reqIds.length)
    (hreqs : reqs.length = reqIds.length) :
    (fromRequests reqIds newBlockIds reqs).entries.Ensures (fun _ => False) fun ys =>
      ∀ y ∈ ys, ∃ (i : ℕ) (req : Request), reqIds[i]? = some y.reqId ∧ reqs[i]? = some req ∧
        y.curBlockStart = req.curBlockStart ∧ y.denoiseBlockSize = req.denoiseBlockSize := by
  apply ensures_mapM_mem
  intro i hi
  have hlt : i < reqIds.length := List.mem_range.mp hi
  have hreq : reqs[i]? = some reqs[i] := List.getElem?_eq_getElem (hreqs ▸ hlt)
  have hid : reqIds[i]? = some reqIds[i] := List.getElem?_eq_getElem hlt
  have hblock : newBlockIds[i]? = some newBlockIds[i] := List.getElem?_eq_getElem (hblocks ▸ hlt)
  simp only [entry, fromRequests, item, List.getElem?_map, hid, hblock, hreq, Option.map_some]
  exact ⟨i, reqs[i], hid, hreq, rfl, rfl⟩

/-! ## A message about requests -/

theorem SchedulerOutput.Repeats.exists_entries {msg : SchedulerOutput}
    {requests : Dict ReqId Request} (h : msg.Repeats requests) :
    ∃ ys, msg.scheduledCachedReqs.entries = .ok ys := by
  obtain ⟨bs, reqs, hdata, hbs, hreqs⟩ := h.cached
  have hentries := CachedRequestData.ensures_entries hbs hreqs.length_eq.symm
  rw [← hdata] at hentries
  obtain ⟨ys, hys, -⟩ := hentries.exists_ok
  exact ⟨ys, hys⟩

namespace Runner

variable {w : WorkerConfig} {x x' : Runner} {msg : SchedulerOutput}
  {requests : Dict ReqId Request}

theorem Followed.current {ys : List CachedEntry} (h : Followed w x msg x') (hm : msg.Suits x)
    (hrep : msg.Repeats requests) (hys : msg.scheduledCachedReqs.entries = .ok ys)
    (hhold : ∀ r ∈ msg.scheduledCachedReqs.reqIds, ∀ st req, x.requests.get? r = some st →
      requests.get? r = some req → st.Holds w req req.unmaskedTokenIds) :
    ∀ r ∈ msg.numScheduledTokens, ∃ st req, x'.requests.get? r = some st ∧
      requests.get? r = some req ∧ st.Current w req := by
  intro r hr
  rcases (hm.scheduled r).mp hr with hnew | hcached
  · obtain ⟨d, hd, rfl⟩ := List.mem_map.mp hnew
    obtain ⟨req', b, hreq, hfrom⟩ := hrep.new d hd
    obtain ⟨req, hget, hprog⟩ := Option.map_eq_some_iff.mp hreq
    refine ⟨d.state w, req, h.new d hd, hget, ?_⟩
    rw [hfrom]
    exact (CachedRequestState.current_state w req' b).of_progress hprog
  · obtain ⟨bs, reqs, hdata, hbs, hreqs⟩ := hrep.cached
    have hentries := CachedRequestData.ensures_entries hbs hreqs.length_eq.symm
    rw [← hdata] at hentries
    have hall := ensures_of_ok hentries hys
    have hids := CachedRequestData.reqIds_of_entries hys
    rw [← hids] at hcached
    obtain ⟨y, hy, rfl⟩ := List.mem_map.mp hcached
    obtain ⟨i, req', hi, hreq', hstart, hsize⟩ := hall y hy
    obtain ⟨req'', hreq'', hprog⟩ := exists_getElem?_of_forall₂ hreqs hi
    obtain rfl : req' = req'' := Option.some.inj (hreq'.symm.trans hreq'')
    obtain ⟨req, hget, hprog⟩ := Option.map_eq_some_iff.mp hprog
    have hmem : y.reqId ∈ msg.scheduledCachedReqs.reqIds := List.mem_of_getElem? hi
    obtain ⟨st, hst⟩ := (Dict.mem_iff_exists _ _).mp (hm.cached _ hmem).1
    refine ⟨st.update y, req, ?_, hget, ?_⟩
    · rw [h.cached ys hys y hy, hst, Option.map_some]
    · have hcur : req.curBlockStart = req'.curBlockStart := (congrArg Request.curBlockStart hprog :)
      have hblock : req.denoiseBlockSize = req'.denoiseBlockSize :=
        (congrArg Request.denoiseBlockSize hprog :)
      exact (hhold _ hmem st req hst hget).current_update (hstart.trans hcur.symm)
        (hsize.trans hblock.symm)

structure Executed (w : WorkerConfig) (msg : SchedulerOutput) (requests : Dict ReqId Request)
    (predict : Prediction) (x' : Runner) (res : ModelRunnerOutput) : Prop where
  synced : Synced w x'
  scheduled : ∀ r, r ∈ x'.requests ↔ r ∈ msg.numScheduledTokens
  emitted : ∀ r ∈ msg.numScheduledTokens, ∀ pairs, res.tokensOf r = some pairs → ∃ req st,
    requests.get? r = some req ∧ x'.requests.get? r = some st ∧
    st.Holds w req (req.unmaskedTokenIds ++ pairs) ∧
    Sampler.Sampled (msg.samplerRow r (req.row w).metadata) ((req.row w).cell w predict r) pairs
  complete : msg.totalNumScheduledTokens ≠ 0 → ∀ r ∈ msg.numScheduledTokens, ∃ pairs,
    res.tokensOf r = some pairs

/-- One message, for a worker that holds the pairs of the requests it has. -/
theorem Synced.ensures_executeModel {predict : Prediction} (hx : Synced w x) (hm : msg.Suits x)
    (hrep : msg.Repeats requests)
    (hhold : ∀ r ∈ msg.scheduledCachedReqs.reqIds, ∀ st req, x.requests.get? r = some st →
      requests.get? r = some req → st.Holds w req req.unmaskedTokenIds)
    (hlist : ∀ r ∈ msg.numScheduledTokens, Listed msg r)
    (htotal : msg.totalNumScheduledTokens ≠ 0 → ∃ r, r ∈ msg.numScheduledTokens)
    (hstart : ∀ r ∈ msg.numScheduledTokens, ∀ req, requests.get? r = some req →
      msg.execStartPos.getD r 0 ≤ req.curBlockStart ∧
        req.promptTokenIds.length ≤ req.curBlockStart) :
    (x.executeModel w msg predict).Ensures
      (fun _ => ¬msg.GoesInto w ∨ ∃ r ∈ msg.numScheduledTokens, ∃ req,
        requests.get? r = some req ∧ ¬Executable w msg predict r (req.row w))
      fun y => msg.GoesInto w ∧ Executed w msg requests predict y.1 y.2 := by
  obtain ⟨ys, hys⟩ := hrep.exists_entries
  unfold executeModel
  rw [ensures_bind]
  apply (hx.ensures_updateStates hm hys).mono (fun _ hno => Or.inl hno)
  rintro x₁ ⟨hinto, hfollow⟩
  have hcur := hfollow.current hm hrep hys hhold
  have hcurrent : ∀ r st, x₁.requests.get? r = some st → r ∈ msg.numScheduledTokens ∧
      ∃ req, requests.get? r = some req ∧ st.Current w req := by
    intro r st hst
    have hr := (hfollow.scheduled r).mp (Dict.mem_of_get? hst)
    obtain ⟨st', req, hst', hreq, hc⟩ := hcur r hr
    obtain rfl : st = st' := Option.some.inj (hst.symm.trans hst')
    exact ⟨hr, req, hreq, hc⟩
  by_cases hzero : msg.totalNumScheduledTokens = 0
  · rw [if_pos hzero, ensures_pure]
    exact ⟨hinto, hfollow.synced, hfollow.scheduled, fun r _ pairs hpairs => (by cases hpairs),
      fun hc => absurd hzero hc⟩
  rw [if_neg hzero]
  apply (hfollow.synced.ensures_sample ?_ ?_ ?_).mono
  · rintro _ ⟨r, st, hst, hnot⟩
    obtain ⟨hr, req, hreq, hc⟩ := hcurrent r st hst
    exact Or.inr ⟨r, hr, req, hreq, fun hex => hnot (hc.executable_iff.mpr hex)⟩
  · rintro ⟨x', res⟩ hstep
    have hemit : ∀ r ∈ msg.numScheduledTokens, ∃ req st pairs,
        requests.get? r = some req ∧ x'.requests.get? r = some st ∧
        st.Holds w req (req.unmaskedTokenIds ++ pairs) ∧ res.tokensOf r = some pairs ∧
        Sampler.Sampled (msg.samplerRow r (req.row w).metadata)
          ((req.row w).cell w predict r) pairs := by
      intro r hr
      obtain ⟨st, req, hst, hreq, hc⟩ := hcur r hr
      obtain ⟨i, pairs, hi, hpairs, hst', hsampled⟩ := hstep.emitted r st hst
      rw [hc.metadata, hc.cell] at hsampled
      exact ⟨req, st.emit pairs, pairs, hreq, hst', hc.holds.emit pairs,
        ModelRunnerOutput.tokensOf_eq_some hi hpairs, hsampled⟩
    refine ⟨hinto, hstep.synced, fun r => (hstep.known r).trans (hfollow.scheduled r), ?_, ?_⟩
    · intro r hr pairs hpairs
      obtain ⟨req, st, pairs', hreq, hst, hholds, hpairs', hsampled⟩ := hemit r hr
      obtain rfl : pairs = pairs' := Option.some.inj (hpairs.symm.trans hpairs')
      exact ⟨req, st, hreq, hst, hholds, hsampled⟩
    · intro _ r hr
      obtain ⟨-, -, pairs, -, -, -, hpairs, -⟩ := hemit r hr
      exact ⟨pairs, hpairs⟩
  · exact fun r hr => hlist r ((hfollow.scheduled r).mp hr)
  · obtain ⟨r, hr⟩ := htotal hzero
    exact ⟨r, (hfollow.scheduled r).mpr hr⟩
  · intro r st hst
    obtain ⟨hr, req, hreq, hc⟩ := hcurrent r st hst
    rw [hc.curBlockStart, hc.holds.promptTokenIds]
    exact hstart r hr req hreq

end Runner

end TeDiServe

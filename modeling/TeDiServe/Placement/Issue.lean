import TeDiServe.Placement.Confidence

/-!
# The messages of a round

`OutputFor` says what the message for an executor contains, in terms of the
placements before and after the round: exactly the residents, each once, as a new
or as a cached request, with the shape of its step. Stage 6 builds such a message
for every executor that has residents or something to free.
-/

namespace TeDiServe

/-- The request up to what is written when its step is sent. -/
def Request.issued (req : Request) : Request :=
  { req with
    isInExecution := false
    numComputedTokens := 0 }

theorem Request.progress_of_issued {req req' : Request} (h : req'.issued = req.issued) :
    req'.progress = req.progress := by
  change req'.issued.progress = req.issued.progress
  rw [h]

def CachedRequestData.fromRequests (reqIds : List ReqId) (newBlockIds : List (List ℕ))
    (reqs : List Request) : CachedRequestData :=
  { reqIds
    newBlockIds
    numComputedTokens := reqs.map Request.numComputedTokens
    numDenoiseRan := reqs.map Request.numDenoiseRan
    curBlockStart := reqs.map Request.curBlockStart
    denoiseBlockSize := reqs.map Request.denoiseBlockSize
    execStartPos := reqs.map Request.execStartPos }

structure SchedulerOutput.Repeats (msg : SchedulerOutput) (requests : Dict ReqId Request) :
    Prop where
  new : ∀ d ∈ msg.scheduledNewReqs, ∃ req b,
    (requests.get? d.reqId).map Request.progress = some req.progress ∧
    d = NewRequestData.fromRequest req b
  cached : ∃ newBlockIds reqs,
    msg.scheduledCachedReqs =
      CachedRequestData.fromRequests msg.scheduledCachedReqs.reqIds newBlockIds reqs ∧
    newBlockIds.length = msg.scheduledCachedReqs.reqIds.length ∧
    List.Forall₂ (fun r req => (requests.get? r).map Request.progress = some req.progress)
      msg.scheduledCachedReqs.reqIds reqs

theorem SchedulerOutput.Repeats.of_progress {msg : SchedulerOutput}
    {requests requests' : Dict ReqId Request} (h : msg.Repeats requests)
    (hp : ∀ r, (requests'.get? r).map Request.progress = (requests.get? r).map Request.progress) :
    msg.Repeats requests' := by
  constructor
  · intro d hd
    obtain ⟨req, b, hreq, hfrom⟩ := h.new d hd
    exact ⟨req, b, (hp d.reqId).trans hreq, hfrom⟩
  · obtain ⟨bs, reqs, hdata, hbs, hreqs⟩ := h.cached
    exact ⟨bs, reqs, hdata, hbs, hreqs.imp fun r req hr => (hp r).trans hr⟩

/-- The message for `e` after a round that took the placement from `π₁` to `π₂`. -/
structure OutputFor {κ : Type} (cfg : Config κ) (requests : Dict ReqId Request)
    (π₁ π₂ : Placement) (e : ExecutorId) (out : SchedulerOutput) : Prop where
  tokens : ∀ r, r ∈ out.numScheduledTokens ↔ π₂ r = some (.running e)
  starts : ∀ r, r ∈ out.execStartPos ↔ π₂ r = some (.running e)
  thresholds : ∀ r, r ∈ out.confidenceThresholds ↔ π₂ r = some (.running e)
  nodupNew : (out.scheduledNewReqs.map NewRequestData.reqId).Nodup
  new : ∀ r, r ∈ out.scheduledNewReqs.map NewRequestData.reqId ↔
    π₂ r = some (.running e) ∧ π₁ r ≠ some (.running e)
  nodupCached : out.scheduledCachedReqs.reqIds.Nodup
  cached : ∀ r, r ∈ out.scheduledCachedReqs.reqIds ↔
    π₂ r = some (.running e) ∧ π₁ r = some (.running e)
  repeats : out.Repeats requests
  steps : ∀ r req, π₂ r = some (.running e) → requests.get? r = some req →
    out.numScheduledTokens.get? r = some (req.stepShape cfg (π₁ r = some (.running e))).2 ∧
    out.execStartPos.get? r = some (req.stepShape cfg (π₁ r = some (.running e))).1

theorem OutputFor.of_progress {κ : Type} {cfg : Config κ} {requests requests' : Dict ReqId Request}
    {π₁ π₂ : Placement} {e : ExecutorId} {out : SchedulerOutput}
    (h : OutputFor cfg requests π₁ π₂ e out)
    (hp : ∀ r, (requests'.get? r).map Request.progress = (requests.get? r).map Request.progress) :
    OutputFor cfg requests' π₁ π₂ e out := by
  refine ⟨h.tokens, h.starts, h.thresholds, h.nodupNew, h.new, h.nodupCached, h.cached,
    h.repeats.of_progress hp, ?_⟩
  intro r req' hr hreq'
  obtain ⟨req, hreq, hprog⟩ := Dict.exists_of_map_eq (hp r) hreq'
  rw [Request.stepShape_of_progress cfg _ hprog]
  exact h.steps r req hr hreq

namespace Scheduler

variable {κ : Type} {cfg : Config κ} {s s' s'' : Scheduler κ} {t : Tables}
  {π₁ π₂ : Placement} {r : ReqId} {e : ExecutorId}

structure TablesFor (cfg : Config κ) (π₁ π₂ : Placement) (s : Scheduler κ) (t : Tables)
    (e : ExecutorId) : Prop where
  tokens : ∀ r, r ∈ t.numScheduledTokens.getD e Dict.empty ↔ π₂ r = some (.running e)
  shape : ∀ r n, (t.numScheduledTokens.getD e Dict.empty).get? r = some n →
    ∃ req, s.requests.get? r = some req ∧ n = req.numExecTokens ∧
      (req.execStartPos, req.numExecTokens) = req.stepShape cfg (π₁ r = some (.running e))
  present : e ∈ t.numScheduledTokens ↔ ∃ r, π₂ r = some (.running e)
  blocks : ∀ r, π₂ r = some (.running e) → r ∈ t.reqToNewBlockIds.getD e Dict.empty
  new : ∀ r, r ∈ t.scheduledNewReqs.getD e [] ↔
    π₂ r = some (.running e) ∧ π₁ r ≠ some (.running e)
  running : ∀ r, r ∈ t.scheduledRunningReqs.getD e [] ↔
    π₂ r = some (.running e) ∧ π₁ r = some (.running e)
  nodupNew : (t.scheduledNewReqs.getD e []).Nodup
  nodupRunning : (t.scheduledRunningReqs.getD e []).Nodup

def Prepared (s s' : Scheduler κ) : Prop :=
  ∀ r, (s'.requests.get? r).map Request.issued = (s.requests.get? r).map Request.issued

theorem Prepared.trans (h : Prepared s s') (h' : Prepared s' s'') : Prepared s s'' :=
  fun r => (h' r).trans (h r)

section

variable (h : TablesFor cfg π₁ π₂ s t e)
include h

/-- Sending other messages does not change what is prepared for `e`. -/
theorem TablesFor.of_prepared (hp : Prepared s s') : TablesFor cfg π₁ π₂ s' t e := by
  refine ⟨h.tokens, ?_, h.present, h.blocks, h.new, h.running, h.nodupNew, h.nodupRunning⟩
  intro r n hn
  obtain ⟨req, hreq, hnum, hshape⟩ := h.shape r n hn
  obtain ⟨req', hreq', hiss⟩ := Dict.exists_of_map_eq (hp r).symm hreq
  have hs : req'.execStartPos = req.execStartPos := (congrArg Request.execStartPos hiss.symm :)
  have hm : req'.numExecTokens = req.numExecTokens := (congrArg Request.numExecTokens hiss.symm :)
  refine ⟨req', hreq', hnum.trans hm.symm, ?_⟩
  rw [hs, hm, hshape, Request.stepShape_of_progress cfg _ (Request.progress_of_issued hiss.symm)]

/-! ## The parts of a message -/

theorem ensures_makeNewRequestData (hs : Refines s π₂) :
    ((t.scheduledNewReqs.getD e []).mapM
        (s.makeNewRequestData (t.reqToNewBlockIds.getD e Dict.empty))).Ensures (fun _ => False)
      fun ds => ds.map NewRequestData.reqId = t.scheduledNewReqs.getD e [] ∧
        ∀ d ∈ ds, ∃ req b, s.requests.get? d.reqId = some req ∧
          d = NewRequestData.fromRequest req b := by
  have hone : ∀ r ∈ t.scheduledNewReqs.getD e [],
      (s.makeNewRequestData (t.reqToNewBlockIds.getD e Dict.empty) r).Ensures (fun _ => False)
        fun d => d.reqId = r ∧ ∃ req b, s.requests.get? d.reqId = some req ∧
          d = NewRequestData.fromRequest req b := by
    intro r hr
    have hrun := ((h.new r).mp hr).1
    obtain ⟨req, hreq, hid⟩ := hs.request hrun
    obtain ⟨b, hb⟩ := (Dict.mem_iff_exists _ _).mp (h.blocks r hrun)
    unfold makeNewRequestData
    rw [ensures_bind, subscript_of_get? _ hreq, ensures_ok, ensures_bind,
      subscript_of_get? _ hb, ensures_ok]
    exact ⟨hid, req, b, by rw [← hreq]; exact congrArg _ hid, rfl⟩
  have hids := ensures_mapM (R := fun r d => d.reqId = r) _
    fun r hr => (hone r hr).imp fun d hd => hd.1
  have hdata := ensures_mapM_mem _ fun r hr => (hone r hr).imp fun d hd => hd.2
  exact (hids.and hdata).imp fun ds hds => ⟨map_eq_of_forall2 hds.1, hds.2⟩

theorem ensures_makeCachedRequestData (hs : Refines s π₂) :
    (s.makeCachedRequestData (t.reqToNewBlockIds.getD e Dict.empty)
        (t.scheduledRunningReqs.getD e [])).Ensures (fun _ => False)
      fun c => ∃ bs reqs, c =
          CachedRequestData.fromRequests (t.scheduledRunningReqs.getD e []) bs reqs ∧
        bs.length = (t.scheduledRunningReqs.getD e []).length ∧
        List.Forall₂ (fun r req => s.requests.get? r = some req)
          (t.scheduledRunningReqs.getD e []) reqs := by
  have hreqs : ∀ r ∈ t.scheduledRunningReqs.getD e [],
      (subscript s.requests .requests r).Ensures (fun _ => False)
        fun req => s.requests.get? r = some req := by
    intro r hr
    obtain ⟨req, hreq, -⟩ := hs.request ((h.running r).mp hr).1
    rw [subscript_of_get? _ hreq, ensures_ok]
    exact hreq
  have hblocks : ∀ r ∈ t.scheduledRunningReqs.getD e [],
      (subscript (t.reqToNewBlockIds.getD e Dict.empty) .reqToNewBlockIds r).Ensures
        (fun _ => False) fun _ => True := by
    intro r hr
    obtain ⟨b, hb⟩ := (Dict.mem_iff_exists _ _).mp (h.blocks r ((h.running r).mp hr).1)
    rw [subscript_of_get? _ hb, ensures_ok]
    trivial
  unfold makeCachedRequestData
  refine (ensures_mapM _ hreqs).bind fun reqs hfor => ?_
  refine (ensures_mapM (R := fun _ _ => True) _ hblocks).bind fun bs hbs => ?_
  exact ⟨bs, reqs, rfl, hbs.length_eq.symm, hfor⟩

end

theorem mem_zip_execStartPos {ids : List ReqId} {bs : List (List ℕ)} {reqs : List Request}
    (h : List.Forall₂ (fun r req => s.requests.get? r = some req) ids reqs) (hr : r ∈ ids) :
    ∃ req, s.requests.get? r = some req ∧
      (r, req.execStartPos) ∈
        ids.zip (CachedRequestData.fromRequests ids bs reqs).execStartPos := by
  obtain ⟨req, hmem, hreq⟩ := exists_mem_zip_of_forall2 h hr
  refine ⟨req, hreq, ?_⟩
  rw [CachedRequestData.fromRequests, List.zip_map_right]
  exact List.mem_map.mpr ⟨(r, req), hmem, rfl⟩

theorem ensures_setConfidences (cfg : Config κ) (clock : ReqId → ℕ → ℚ) (hs : Refines s π₂)
    (hidx : ∀ r rs, s.requestStates.get? r = some rs → cfg.IdxOk rs.maxConfidenceThresholdIdx)
    {batch : List ReqId} (hbatch : ∀ r ∈ batch, π₂ r = some (.running e)) :
    (batch.foldlM (setConfidence cfg clock e batch) (s, Dict.empty)).Ensures
      (Unprofiled cfg (BatchAsks cfg s batch))
      fun x => Soft s x.1 ∧ ∀ r, r ∈ x.2 ↔ r ∈ batch := by
  refine (ensures_foldlM_rest (E := Unprofiled cfg (BatchAsks cfg s batch))
    (fun rest (x : Scheduler κ × Dict ReqId ℚ) => Soft s x.1 ∧ (∀ r ∈ rest, r ∈ batch) ∧
      ∀ r, r ∈ x.2 ∨ r ∈ rest ↔ r ∈ batch) ?_ batch (s, Dict.empty)
    ⟨Soft.refl s, fun _ hr => hr, by simp⟩).imp ?_
  · rintro ⟨s', d⟩ r rest ⟨hsoft, hsub, hiff⟩
    dsimp only at hsoft hiff
    have hs' := hsoft.framed.refines hs
    have hr : r ∈ batch := hsub r List.mem_cons_self
    refine (ensures_setConfidence cfg clock hs' ?_ (hbatch r hr) hr ?_ d).mono
      (fun err herr => herr.mono fun n hn => hn.of_progress hsoft.framed.requests) fun x hx => ?_
    · intro r' rs' hrs'
      obtain ⟨rs, hrs, hcore⟩ := Dict.exists_of_map_eq (hsoft.framed.states r') hrs'
      have : rs'.maxConfidenceThresholdIdx = rs.maxConfidenceThresholdIdx :=
        (congrArg RequestState.maxConfidenceThresholdIdx hcore :)
      rw [this]
      exact hidx r' rs hrs
    · intro r' hr'
      obtain ⟨req, hreq, -⟩ := hs'.request (hbatch r' hr')
      exact Dict.mem_of_get? hreq
    · obtain ⟨hsoft', c, hc⟩ := hx
      refine ⟨hsoft.trans hsoft', fun r' hr' => hsub r' (List.mem_cons_of_mem r hr'), ?_⟩
      intro r'
      rw [hc, Dict.mem_set, ← hiff r', List.mem_cons]
      tauto
  · rintro ⟨s', d⟩ ⟨hsoft, -, hiff⟩
    refine ⟨hsoft, ?_⟩
    intro r
    rw [← hiff r]
    simp

theorem ensures_updateAfterSchedule {out : SchedulerOutput}
    (hout : ∀ r, r ∈ out.numScheduledTokens → r ∈ s.requests) :
    (s.updateAfterSchedule e out).Ensures (fun _ => False) fun s' =>
      Framed s s' ∧ Prepared s s' ∧ s'.executorsManager = s.executorsManager ∧
      ∀ e', s'.freeReqIds.getD e' OrderedSet.empty =
        if e' = e then OrderedSet.empty else s.freeReqIds.getD e' OrderedSet.empty := by
  unfold updateAfterSchedule
  refine (ensures_foldlM (E := fun _ => False)
    (I := fun s' : Scheduler κ => Framed s s' ∧ Prepared s s' ∧
      s'.executorsManager = s.executorsManager ∧ s'.freeReqIds = s.freeReqIds)
    out.numScheduledTokens.entries ?_ s ⟨Framed.refl s, fun _ => rfl, rfl, rfl⟩).bind ?_
  · rintro s' ⟨r, n⟩ hmem ⟨hframed, hprep, hm, hf⟩
    have hr : r ∈ s'.requests := by
      rw [hframed.mem_requests]
      exact hout r (Dict.mem_of_get? (Dict.get?_of_mem_entries hmem))
    obtain ⟨req, hreq⟩ := (Dict.mem_iff_exists _ _).mp hr
    rw [ensures_modifyRequest hreq]
    refine ⟨hframed.trans (Framed.setRequest hreq ?_), hprep.trans ?_, hm, hf⟩
    · rfl
    · intro r'
      by_cases hr' : r' = r
      · subst hr'
        simp [hreq, Request.issued]
      · simp [hr']
  · rintro s' ⟨hframed, hprep, hm, hf⟩
    rw [ensures_pure]
    obtain ⟨⟨h1, h2, h3, h4, h5, h6, h7⟩, h8, h9⟩ := hframed
    refine ⟨⟨⟨h1, h2, h3, h4, h5, h6, h7⟩, h8, h9⟩, hprep, hm, ?_⟩
    intro e'
    rw [Dict.getD_set, hf]

theorem mem_startPositions (new : List NewRequestData) (cached : CachedRequestData)
    (hlen : cached.execStartPos.length = cached.reqIds.length) (r : ReqId) :
    r ∈ startPositions new cached ↔
      r ∈ cached.reqIds ∨ r ∈ new.map NewRequestData.reqId := by
  unfold startPositions
  rw [Dict.mem_foldl_set Prod.fst Prod.snd, List.map_fst_zip hlen.ge,
    Dict.mem_foldl_set NewRequestData.reqId NewRequestData.execStartPos]
  simp

theorem get?_startPositions_of_cached (new : List NewRequestData) {cached : CachedRequestData}
    (hlen : cached.execStartPos.length = cached.reqIds.length) (hnodup : cached.reqIds.Nodup)
    {n : ℕ} (hr : (r, n) ∈ cached.reqIds.zip cached.execStartPos) :
    (startPositions new cached).get? r = some n := by
  have hzip : ((cached.reqIds.zip cached.execStartPos).map Prod.fst).Nodup := by
    rwa [List.map_fst_zip hlen.ge]
  exact Dict.get?_foldl_set_of_mem Prod.fst Prod.snd _ _ hzip hr

theorem get?_startPositions_of_new {new : List NewRequestData} {cached : CachedRequestData}
    (hlen : cached.execStartPos.length = cached.reqIds.length)
    (hnodup : (new.map NewRequestData.reqId).Nodup) {d : NewRequestData} (hd : d ∈ new)
    (hnot : d.reqId ∉ cached.reqIds) :
    (startPositions new cached).get? d.reqId = some d.execStartPos := by
  have hzip : d.reqId ∉ (cached.reqIds.zip cached.execStartPos).map Prod.fst := by
    rwa [List.map_fst_zip hlen.ge]
  unfold startPositions
  rw [Dict.get?_foldl_set_of_not_mem Prod.fst Prod.snd _ _ hzip]
  exact Dict.get?_foldl_set_of_mem NewRequestData.reqId NewRequestData.execStartPos _ _ hnodup hd

/-! ## One message -/

structure Sent (s s' : Scheduler κ) (e : ExecutorId) : Prop where
  framed : Framed s s'
  prepared : Prepared s s'
  free : ∀ e', s'.freeReqIds.getD e' OrderedSet.empty =
    if e' = e then OrderedSet.empty else s.freeReqIds.getD e' OrderedSet.empty

theorem ensures_makeOutput (env : ScheduleEnv) (h : TablesFor cfg π₁ π₂ s t e)
    (hs : Refines s π₂)
    (hidx : ∀ r rs, s.requestStates.get? r = some rs → cfg.IdxOk rs.maxConfidenceThresholdIdx) :
    (s.makeOutput cfg env t e).Ensures
      (Unprofiled cfg (BatchAsks cfg s (t.numScheduledTokens.getD e Dict.empty).keys)) fun x =>
      OutputFor cfg s.requests π₁ π₂ e x.2 ∧
      x.2.freeReqIds = s.freeReqIds.getD e OrderedSet.empty ∧
      Sent s x.1 e ∧ x.1.executorsManager = s.executorsManager := by
  unfold makeOutput
  rw [ensures_bind]
  apply (ensures_makeNewRequestData h hs).mono (fun _ hf => hf.elim)
  intro new hnew
  obtain ⟨hids, hdata⟩ := hnew
  rw [ensures_bind]
  apply (ensures_makeCachedRequestData h hs).mono (fun _ hf => hf.elim)
  rintro cached ⟨bs, reqs, hcached, hbs, hreqs⟩
  have hcids : cached.reqIds = t.scheduledRunningReqs.getD e [] := by rw [hcached]; rfl
  have hlen : cached.execStartPos.length = cached.reqIds.length := by
    rw [hcids, hcached, CachedRequestData.fromRequests, List.length_map, hreqs.length_eq]
  rw [ensures_bind]
  have hbatch : ∀ r ∈ (t.numScheduledTokens.getD e Dict.empty).keys, π₂ r = some (.running e) :=
    fun r hr => (h.tokens r).mp hr
  apply (ensures_setConfidences cfg env.clock hs hidx hbatch).imp
  rintro ⟨s', thresholds⟩ ⟨hsoft, hthr⟩
  rw [ensures_bind]
  dsimp only at hsoft hthr ⊢
  have hknown : ∀ r, r ∈ t.numScheduledTokens.getD e Dict.empty → r ∈ s'.requests := by
    intro r hr
    obtain ⟨req, hreq, -⟩ := hs.request ((h.tokens r).mp hr)
    rw [hsoft.requests]
    exact Dict.mem_of_get? hreq
  apply (ensures_updateAfterSchedule (e := e) (by exact hknown)).mono (fun _ hf => hf.elim)
  intro s'' hs''
  obtain ⟨hframed, hprep, hm, hf⟩ := hs''
  rw [ensures_pure]
  have hprep' : Prepared s s' := fun r => by rw [hsoft.requests]
  refine ⟨?_, ?_, ⟨hsoft.framed.trans hframed, hprep'.trans hprep, ?_⟩,
    hm.trans hsoft.executorsManager⟩
  · have hnodupNew : (new.map NewRequestData.reqId).Nodup := hids ▸ h.nodupNew
    have hnodupCached : cached.reqIds.Nodup := hcids ▸ h.nodupRunning
    refine ⟨h.tokens, ?_, ?_, hnodupNew, ?_, hnodupCached, ?_, ?_, ?_⟩
    · intro r
      dsimp only
      rw [mem_startPositions new cached hlen, hids, hcids, h.running, h.new]
      tauto
    · intro r
      exact (hthr r).trans (h.tokens r)
    · intro r
      dsimp only
      rw [hids, h.new]
    · intro r
      dsimp only
      rw [hcids, h.running]
    · constructor
      · intro d hd
        obtain ⟨req, b, hreq, hfrom⟩ := hdata d hd
        exact ⟨req, b, by rw [hreq, Option.map_some], hfrom⟩
      · dsimp only
        rw [hcids]
        refine ⟨bs, reqs, hcached, hbs, hreqs.imp fun r req hreq => ?_⟩
        rw [hreq, Option.map_some]
    · intro r req hrun hreq
      obtain ⟨n, hn⟩ := (Dict.mem_iff_exists _ _).mp ((h.tokens r).mpr hrun)
      obtain ⟨req', hreq', hnum, hshape⟩ := h.shape r n hn
      rw [hreq, Option.some.injEq] at hreq'
      subst hreq'
      have hstart : (startPositions new cached).get? r = some req.execStartPos := by
        by_cases hcase : π₁ r = some (.running e)
        · obtain ⟨req', hreq', hzip⟩ := mem_zip_execStartPos hreqs
            ((h.running r).mpr ⟨hrun, hcase⟩)
          rw [hreq, Option.some.injEq] at hreq'
          subst hreq'
          rw [← hcached, ← hcids] at hzip
          exact get?_startPositions_of_cached new hlen hnodupCached hzip
        · have hmem : r ∈ new.map NewRequestData.reqId := by
            rw [hids, h.new]
            exact ⟨hrun, hcase⟩
          obtain ⟨d, hd, rfl⟩ := List.mem_map.mp hmem
          obtain ⟨req', b, hreq', hfrom⟩ := hdata d hd
          rw [hreq, Option.some.injEq] at hreq'
          subst hreq'
          have hnot : d.reqId ∉ cached.reqIds := by
            rw [hcids, h.running]
            exact fun hc => hcase hc.2
          rw [get?_startPositions_of_new hlen hnodupNew hd hnot]
          exact congrArg some (congrArg NewRequestData.execStartPos hfrom)
      dsimp only
      rw [hn, hstart, ← hshape, hnum]
      exact ⟨rfl, rfl⟩
  · dsimp only
    rw [hsoft.freeReqIds]
  · intro e'
    dsimp only
    rw [hf e', hsoft.freeReqIds]

theorem ensures_setExecutorStatus {st : ExecutorStatus} (he : e ∈ s.executorsManager.executors) :
    (s.setExecutorStatus e st).Ensures (fun _ => False) fun s' => ∃ m,
      s.executorsManager.setStatus e st = .ok m ∧ s' = { s with executorsManager := m } := by
  obtain ⟨x, hx⟩ := (Dict.mem_iff_exists _ _).mp he
  unfold setExecutorStatus
  rw [ExecutorsManager.setStatus_eq_ok hx]
  exact ⟨_, rfl, rfl⟩

theorem TablesFor.of_manager (h : TablesFor cfg π₁ π₂ s t e) (m : ExecutorsManager) :
    TablesFor cfg π₁ π₂ { s with executorsManager := m } t e :=
  ⟨h.tokens, h.shape, h.present, h.blocks, h.new, h.running, h.nodupNew, h.nodupRunning⟩

theorem Refines.of_manager {π : Placement} (h : Refines s π) (m : ExecutorsManager) :
    Refines { s with executorsManager := m } π :=
  ⟨h.executors, h.located, h.hosted, h.known, h.ids⟩

/-- Stage 6 for one executor. With no resident and nothing to free it is given back
as idle; otherwise it gets a message. -/
theorem ensures_issue (env : ScheduleEnv) {notAccepting : List ExecutorId}
    {outs : Dict ExecutorId SchedulerOutput} (h : TablesFor cfg π₁ π₂ s t e)
    (hs : Refines s π₂)
    (hidx : ∀ r rs, s.requestStates.get? r = some rs → cfg.IdxOk rs.maxConfidenceThresholdIdx)
    (hmem : e ∈ s.executorsManager.executors) (hrec : e ∈ s.executorStates)
    (hclean : Round.NoPending π₂ e) :
    (issue cfg env notAccepting t (s, outs) e).Ensures
      (Unprofiled cfg (BatchAsks cfg s (t.numScheduledTokens.getD e Dict.empty).keys)) fun x =>
      ((∀ r, π₂ r ≠ some (.running e)) ∧ (s.freeReqIds.getD e OrderedSet.empty).isEmpty = true ∧
        ∃ m, s.executorsManager.setStatus e .idle = .ok m ∧
          x = ({ s with executorsManager := m }, outs)) ∨
      (∃ out, ((∃ r, π₂ r = some (.running e)) ∨
          (s.freeReqIds.getD e OrderedSet.empty).isEmpty = false) ∧
        OutputFor cfg s.requests π₁ π₂ e out ∧
        out.freeReqIds = s.freeReqIds.getD e OrderedSet.empty ∧
        Sent s x.1 e ∧ s.executorsManager.setStatus e .scheduled = .ok x.1.executorsManager ∧
        x.2 = outs.set e out) := by
  unfold issue
  dsimp only
  by_cases hskip : e ∉ t.numScheduledTokens ∧
      (s.freeReqIds.getD e OrderedSet.empty).isEmpty = true
  · rw [if_pos hskip]
    have hnone : ∀ r, π₂ r ≠ some (.running e) := by
      intro r hr
      exact hskip.1 (h.present.mpr ⟨r, hr⟩)
    have hend : ∀ u : Unit, (s.setExecutorStatus e .idle >>= fun s => pure (s, outs) :
        Except PyError (Scheduler κ × Dict ExecutorId SchedulerOutput)).Ensures
        (Unprofiled cfg (BatchAsks cfg s (t.numScheduledTokens.getD e Dict.empty).keys))
        fun x => ∃ m, s.executorsManager.setStatus e .idle = .ok m ∧
          x = ({ s with executorsManager := m }, outs) := by
      intro _
      rw [ensures_bind]
      apply (ensures_setExecutorStatus hmem).mono (fun _ hf => hf.elim)
      rintro s' ⟨m, hm, rfl⟩
      exact ⟨m, hm, rfl⟩
    by_cases hacc : e ∈ notAccepting
    · obtain ⟨es, hes⟩ := (Dict.mem_iff_exists _ _).mp hrec
      have hmir := hs.executors e es hes
      have hdrained : es.isDrained = true := by
        have h1 : es.reqIds.isEmpty = true :=
          (OrderedSet.isEmpty_iff _).mpr fun r hr => hnone r ((hmir.resident r).mp hr)
        have h2 : es.pendingRequestAdditions.isEmpty = true :=
          (OrderedSet.isEmpty_iff _).mpr fun r hr => hclean r ((hmir.pending r).mp hr)
        have h3 : es.pendingRequestRemovals.isEmpty = true :=
          (OrderedSet.isEmpty_iff _).mpr hmir.noRemoval
        simp [ExecutorState.isDrained, h1, h2, h3]
      rw [if_pos hacc, ensures_bind, subscript_of_get? _ hes, ensures_ok,
        ensures_bind, ensures_pyAssert]
      refine ⟨fun _ => ?_, fun hf => by simp [hdrained] at hf⟩
      exact (hend ()).imp fun x hx => Or.inl ⟨hnone, hskip.2, hx⟩
    · rw [if_neg hacc]
      exact (hend ()).imp fun x hx => Or.inl ⟨hnone, hskip.2, hx⟩
  · rw [if_neg hskip, ensures_bind]
    apply (ensures_setExecutorStatus hmem).mono (fun _ hf => hf.elim)
    rintro s' ⟨m, hm, rfl⟩
    apply (ensures_makeOutput env (h.of_manager m) (hs.of_manager m) hidx).bind
    rintro ⟨s'', out⟩ ⟨hout, hfree, hsent, hm'⟩
    rw [ensures_pure]
    refine Or.inr ⟨out, ?_, hout, hfree, ?_, ?_, rfl⟩
    · rw [not_and_or, not_not] at hskip
      rcases hskip with hskip | hskip
      · exact Or.inl (h.present.mp hskip)
      · exact Or.inr (Bool.eq_false_iff.mpr hskip)
    · obtain ⟨hframed, hprep, hfree⟩ := hsent
      exact ⟨hframed.of_managers s.executorsManager s''.executorsManager, hprep, hfree⟩
    · rw [hm']
      exact hm

/-! ## What stage 6 writes -/

theorem ensures_setConfidence_eq (clock : ReqId → ℕ → ℚ) (batch : List ReqId)
    (x : Scheduler κ × Dict ReqId ℚ) (r : ReqId) :
    (setConfidence cfg clock e batch x r).Ensures (fun _ => True) fun y => ∃ rs es c,
      x.1.requestStates.get? r = some rs ∧ x.1.executorStates.get? e = some es ∧
      x.1.selectConfidence cfg (clock r) rs r es.tpDegree batch = .ok (some c) ∧
      y = ({ x.1 with
        requestStates := x.1.requestStates.set r
          { rs with confidenceThreshold := some c, confidenceThresholdDirty := false } },
        x.2.set r c) := by
  unfold setConfidence
  rw [ensures_bind, ensures_subscript]
  refine ⟨fun rs hrs => ?_, fun _ => trivial⟩
  rw [ensures_bind, ensures_subscript]
  refine ⟨fun es hes => ?_, fun _ => trivial⟩
  rcases hsel : x.1.selectConfidence cfg (clock r) rs r es.tpDegree batch with _ | _ | c
  · trivial
  · trivial
  · simp only [ok_bind]
    rw [ensures_bind, ensures_modifyRequestState hrs]
    exact ⟨rs, es, c, hrs, hes, hsel, rfl⟩

theorem ensures_updateAfterSchedule_eq (s : Scheduler κ) (e : ExecutorId) (out : SchedulerOutput) :
    (s.updateAfterSchedule e out).Ensures (fun _ => True) fun s' => ∃ requests finished free,
      (∀ r, (requests.get? r).map Request.progress = (s.requests.get? r).map Request.progress) ∧
      s' = { s with requests := requests, finishedReqIds := finished, freeReqIds := free } := by
  unfold updateAfterSchedule
  refine (ensures_foldlM (E := fun _ => True) (I := fun s' => ∃ requests,
    (∀ r, (requests.get? r).map Request.progress = (s.requests.get? r).map Request.progress) ∧
    s' = { s with requests := requests }) _ (fun s' x _ hs' => ?_) s
    ⟨s.requests, fun _ => rfl, rfl⟩).bind fun s' hs' => ?_
  · obtain ⟨requests, hprog, rfl⟩ := hs'
    unfold modifyRequest
    rw [ensures_bind, ensures_subscript]
    refine ⟨fun req hreq => ⟨_, fun r => ?_, rfl⟩, fun _ => trivial⟩
    rw [← hprog r, Dict.get?_set]
    split_ifs with hr
    · rw [hr, show requests.get? x.1 = some req from hreq]
      rfl
    · rfl
  · obtain ⟨requests, hprog, rfl⟩ := hs'
    exact ⟨_, _, _, hprog, rfl⟩

theorem ensures_issue_of (env : ScheduleEnv) (notAccepting : List ExecutorId)
    {x : Scheduler κ × Dict ExecutorId SchedulerOutput}
    {Q : Scheduler κ × Dict ExecutorId SchedulerOutput → Prop}
    (hidle : ∀ m, Q ({ x.1 with executorsManager := m }, x.2))
    (hsend : ∀ m, (makeOutput cfg env t { x.1 with executorsManager := m } e).Ensures
      (fun _ => True) fun y => Q (y.1, x.2.set e y.2)) :
    (issue cfg env notAccepting t x e).Ensures (fun _ => True) Q := by
  have hstatus : ∀ {β : Type} {g : Scheduler κ → Except PyError β} {Q : β → Prop} (st),
      (∀ m, (g { x.1 with executorsManager := m }).Ensures (fun _ => True) Q) →
      (x.1.setExecutorStatus e st >>= g).Ensures (fun _ => True) Q := by
    intro β g Q st hg
    unfold setExecutorStatus
    rw [ensures_bind]
    exact ensures_bind_any _ hg
  unfold issue
  split_ifs
  · exact ensures_bind_any _ fun _ => ensures_bind_any _ fun _ => hstatus _ hidle
  · exact hstatus _ hidle
  · exact hstatus _ fun m => Except.Ensures.bind (hsend m) fun y hy => hy

/-! ## What stage 6 keeps -/

section Keeps

variable {P : Scheduler κ → Prop}
  (hman : ∀ s m, P s → P { s with executorsManager := m })
  (hconf : ∀ s r rs c, P s → s.requestStates.get? r = some rs → P
    { s with
      requestStates := s.requestStates.set r
        { rs with confidenceThreshold := some c, confidenceThresholdDirty := false } })
  (hexec : ∀ s r req n, P s → s.requests.get? r = some req → P
    { s with
      requests := s.requests.set r
        { req with numComputedTokens := req.numComputedTokens + n, isInExecution := true } })
  (hsent : ∀ s finished free, P s → P { s with finishedReqIds := finished, freeReqIds := free })

include hconf hexec hsent

/-- A property that is kept by the writes of a message is kept by making it. -/
theorem ensures_makeOutput_of (env : ScheduleEnv) (t : Tables) (h : P s) (e : ExecutorId) :
    (s.makeOutput cfg env t e).Ensures (fun _ => True) fun y => P y.1 := by
  have hset : ∀ (batch : List ReqId) (x : Scheduler κ × Dict ReqId ℚ) (r : ReqId), P x.1 →
      (setConfidence cfg env.clock e batch x r).Ensures (fun _ => True) fun y => P y.1 := by
    intro batch x r hx
    apply (ensures_setConfidence_eq env.clock batch x r).imp
    rintro _ ⟨rs, es, c, hrs, -, -, rfl⟩
    exact hconf x.1 r rs c hx hrs
  have hafter : ∀ (s' : Scheduler κ) (out : SchedulerOutput), P s' →
      (s'.updateAfterSchedule e out).Ensures (fun _ => True) P := by
    intro s' out hs'
    unfold updateAfterSchedule
    apply (ensures_foldlM (E := fun _ => True) (I := P) _ (fun s x _ hs => ?_) s' hs').bind
    · exact fun s'' hs'' => hsent s'' _ _ hs''
    · unfold modifyRequest
      rw [ensures_bind, ensures_subscript]
      exact ⟨fun req hreq => hexec s x.1 req x.2 hs hreq, fun _ => trivial⟩
  unfold makeOutput
  dsimp only
  apply ensures_bind_any
  intro new
  apply ensures_bind_any
  intro cached
  apply (ensures_foldlM (E := fun _ => True)
    (I := fun x : Scheduler κ × Dict ReqId ℚ => P x.1) _ (fun x r _ hx => hset _ x r hx) _ h).bind
  intro x hx
  exact (hafter x.1 _ hx).bind fun s' hs' => hs'

include hman

theorem ensures_stage6_of (env : ScheduleEnv) (found notAccepting : List ExecutorId)
    (t : Tables) (h : P s) :
    (found.foldlM (issue cfg env notAccepting t) (s, Dict.empty)).Ensures (fun _ => True)
      fun x => P x.1 := by
  refine ensures_foldlM (I := fun x : Scheduler κ × Dict ExecutorId SchedulerOutput =>
    P x.1) found (fun x e _ hx => ?_) _ h
  exact ensures_issue_of env notAccepting (fun m => hman x.1 m hx) fun m =>
    ensures_makeOutput_of hconf hexec hsent env t (hman x.1 m hx) e

end Keeps

end Scheduler

end TeDiServe

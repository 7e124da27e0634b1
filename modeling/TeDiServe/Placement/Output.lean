import TeDiServe.Placement.Admission
import TeDiServe.Request.Progress

/-!
# Applying results and ending requests

The result of a step changes the progress of the requests of its message, and ends
those that are complete. Ending a request that is running takes it out of the
placement and tells its executor to free it; ending one that is not running fails
the assertion at the beginning of `freeRequest`.
-/

namespace TeDiServe

/-- What a step may make of a request that goes on: its progress is as before, or
it has the tokens of the step. -/
def Request.Goes (req req' : Request) : Prop :=
  req'.progress = req.progress ∨ ∃ tokenIds, tokenIds ≠ [] ∧ Request.StepOf req req' tokenIds

namespace Request.Goes

variable {req req' : Request}

theorem refl (req : Request) : req.Goes req := Or.inl rfl

theorem requestId (h : req.Goes req') : req'.requestId = req.requestId := by
  rcases h with h | ⟨ts, -, h⟩
  · exact Request.requestId_of_progress h
  · exact h.requestId

theorem numTokens (h : req.Goes req') : req'.numTokens = req.numTokens := by
  rcases h with h | ⟨ts, -, h⟩
  · exact Request.numTokens_of_progress h
  · exact h.numTokens

theorem promptTokenIds (h : req.Goes req') : req'.promptTokenIds = req.promptTokenIds := by
  rcases h with h | ⟨ts, -, h⟩
  · exact (congrArg Request.promptTokenIds h :)
  · exact h.promptTokenIds

theorem of_marked {b : Bool} (h : ({ req with isInExecution := b } : Request).Goes req') :
    req.Goes req' := by
  rcases h with h | ⟨ts, hne, h⟩
  · exact Or.inl h
  · refine Or.inr ⟨ts, hne, h.requestId, h.clientIndex, h.arrivalTime, h.latencySlo,
      h.promptTokenIds, h.maxTokens, h.denoiseBlockSize, h.numTokens, h.status,
      h.unmaskedTokenIds, ?_, ?_, ?_, h.numDenoiseRan⟩
    · rw [h.curBlock]
      unfold advanceBlock
      dsimp only
      split_ifs <;> rfl
    · rw [h.curBlockStart]
      unfold advanceBlock
      dsimp only
      split_ifs <;> rfl
    · rw [h.curBlockNumUnmaskedTokens]
      unfold advanceBlock
      dsimp only
      split_ifs <;> rfl

end Request.Goes

def ModelRunnerOutput.tokensOf (res : ModelRunnerOutput) (r : ReqId) :
    Option (List (ℕ × Token)) :=
  (res.reqIdToIndex.get? r).bind fun i => (Scheduler.generatedTokenIds res i).toOption

namespace Scheduler

variable {κ : Type} {cfg : Config κ} {s s' s₀ : Scheduler κ} {π π₀ : Placement} {r : ReqId}
  {e : ExecutorId} {done : List ReqId}

theorem Refines.remove (h : Refines s π) (es' : ExecutorState)
    (hr : π r = some (.running e))
    (hexec : ∀ e', s'.executorStates.get? e' =
      if e' = e then some es' else s.executorStates.get? e')
    (hstates : ∀ r', s'.requestStates.get? r' =
      if r' = r then none else s.requestStates.get? r')
    (hreqs : ∀ r', s'.requests.get? r' = if r' = r then none else s.requests.get? r')
    (hes' : es'.Mirrors e (Function.update π r none) s.size) :
    Refines s' (Function.update π r none) := by
  have hhost : π.host? r = some e := Placement.host?_of_running hr
  have hsize : ∀ e' r', Placement.host? (Function.update π r none) r' = some e' →
      s'.size r' = s.size r' := by
    intro e' r' hr'
    have hne : r' ≠ r := by
      rintro rfl
      simp at hr'
    simp [size, hreqs, hne]
  refine ⟨?_, ?_, ?_, ?_, ?_⟩
  · intro e' x hx
    rw [hexec] at hx
    by_cases he : e' = e
    · rw [if_pos he, Option.some.injEq] at hx
      rw [he, ← hx]
      exact hes'.congr_size (hsize e)
    · rw [if_neg he] at hx
      apply ((h.executors e' x hx).of_elsewhere _ _).congr_size (hsize e')
      · rw [hhost, Ne, Option.some.injEq]
        exact fun h' => he h'.symm
      · simp
  · intro r'
    rw [hstates]
    by_cases hr' : r' = r
    · rw [if_pos hr', hr', Function.update_self]
      exact .none
    · rw [if_neg hr', Function.update_of_ne hr']
      exact h.located r'
  · intro r' e' hr'
    have hne : r' ≠ r := by
      rintro rfl
      simp at hr'
    rw [Placement.host?_update_of_ne π hne] at hr'
    have hold := h.hosted r' e' hr'
    rw [Dict.mem_iff_exists, hexec]
    by_cases he : e' = e
    · exact ⟨es', by rw [if_pos he]⟩
    · rw [if_neg he, ← Dict.mem_iff_exists]
      exact hold
  · intro r' hr'
    rw [Dict.mem_iff_exists, hstates] at hr'
    rw [Dict.mem_iff_exists, hreqs]
    by_cases hne : r' = r
    · rw [if_pos hne] at hr'
      obtain ⟨rs, hrs⟩ := hr'
      cases hrs
    · rw [if_neg hne, ← Dict.mem_iff_exists] at hr' ⊢
      exact h.known r' hr'
  · intro r' req hreq
    rw [hreqs] at hreq
    by_cases hne : r' = r
    · rw [if_pos hne] at hreq
      cases hreq
    · rw [if_neg hne] at hreq
      exact h.ids r' req hreq

theorem Refines.setRequest (h : Refines s π) {req req' : Request}
    (hreq : s.requests.get? r = some req) (hid : req'.requestId = req.requestId)
    (hsize : req'.numTokens = req.numTokens) :
    Refines { s with requests := s.requests.set r req' } π := by
  have hsame : size { s with requests := s.requests.set r req' } = s.size := by
    funext r'
    by_cases hr : r' = r
    · simp [size, hr, hreq, hsize]
    · simp [size, hr]
  refine ⟨?_, h.located, h.hosted, ?_, ?_⟩
  · rw [hsame]
    exact h.executors
  · intro r' hr'
    exact (Dict.mem_set _ _ _ _).mpr (Or.inr (h.known r' hr'))
  · intro r' x hx
    dsimp only at hx
    rw [Dict.get?_set] at hx
    by_cases hr : r' = r
    · rw [if_pos hr, Option.some.injEq] at hx
      rw [← hx, hid, hr]
      exact h.ids r req hreq
    · rw [if_neg hr] at hx
      exact h.ids r' x hx

/-! ## Ending a request -/

structure Ended (cfg : Config κ) (r : ReqId) (e : ExecutorId) (s s' : Scheduler κ) :
    Prop where
  manager : s'.executorsManager = s.executorsManager
  executorKeys : s'.executorStates.keys = s.executorStates.keys
  requests : s'.requests = s.requests.erase r
  states : ∀ r', s'.requestStates.get? r' = if r' = r then none else s.requestStates.get? r'
  deferredStates : s'.deferredRequestStates = s.deferredRequestStates
  deferredRequests : s'.deferredRequests = s.deferredRequests
  droppedDeferredRequests : s'.droppedDeferredRequests = s.droppedDeferredRequests
  caches : s'.kvCacheManagers.keys = s.kvCacheManagers.keys
  blocks : ∀ e', s'.kvCacheManagers.get? e' =
    if e' = e then (s.kvCacheManagers.get? e).map (cfg.kv.free · r)
    else s.kvCacheManagers.get? e'
  estimates : s'.stepEstimatePendingReqIds = s.stepEstimatePendingReqIds.discard r
  minIdx : s'.minMaxConfidenceThresholdIdx = s.minMaxConfidenceThresholdIdx
  free : ∀ e' r', r' ∈ s'.freeReqIds.getD e' OrderedSet.empty ↔
    r' ∈ s.freeReqIds.getD e' OrderedSet.empty ∨ e' = e ∧ r' = r

theorem Ended.ledger (h : Ended cfg r e s s') (hl : Ledger cfg s) (hr : r ∈ s.requestStates) :
    Ledger cfg s' := by
  have hmem : ∀ r', r' ∈ s'.requestStates ↔ r' ≠ r ∧ r' ∈ s.requestStates := by
    intro r'
    rw [Dict.mem_iff_exists, Dict.mem_iff_exists, h.states]
    by_cases hr' : r' = r
    · simp [hr']
    · simp [hr']
  have hnot : r ∉ s.deferredRequestStates := hl.apart r hr
  refine ⟨?_, ?_, ?_, ?_, ?_, ?_, ?_, ?_, ?_, ?_⟩
  · intro r'
    rw [h.requests, Dict.mem_erase, hmem, h.deferredStates, hl.known]
    by_cases hr' : r' = r
    · simp [hr', hnot]
    · simp [hr']
  · intro r' hr'
    rw [h.deferredStates]
    exact hl.apart r' ((hmem r').mp hr').2
  · rw [h.deferredStates, h.deferredRequests]
    exact hl.queue
  · rw [h.deferredRequests]
    exact hl.queueNodup
  · rw [h.deferredStates]
    exact hl.waiting
  · intro r' hr'
    rw [h.estimates, OrderedSet.mem_discard] at hr'
    rw [h.requests, Dict.mem_erase]
    exact ⟨hr'.1, hl.estimates r' hr'.2⟩
  · intro e' he'
    rw [Dict.mem_def, h.executorKeys] at he'
    rw [Dict.mem_def, h.caches]
    exact hl.caches e' he'
  · intro r' rs hrs
    rw [h.states] at hrs
    by_cases hr' : r' = r
    · rw [if_pos hr'] at hrs
      cases hrs
    · rw [if_neg hr'] at hrs
      exact hl.indices r' rs hrs
  · rw [h.deferredStates]
    exact hl.deferredIndices
  · rw [h.minIdx]
    exact hl.minIdx

theorem ensures_freeRequest (cfg : Config κ) (h : Refines s π)
    (hcache : ∀ e ∈ s.executorStates, e ∈ s.kvCacheManagers) (hr : π r = some (.running e)) :
    (s.freeRequest cfg r).Ensures (fun _ => False) fun s' =>
      Refines s' (Function.update π r none) ∧ Ended cfg r e s s' := by
  obtain ⟨rs, hrs, hrep⟩ := h.represents hr
  obtain ⟨es, hes, hmir⟩ := h.executor (Placement.host?_of_running hr)
  obtain ⟨req, hreq, -⟩ := h.request hr
  have hmem : e ∈ s.executorStates := Dict.mem_of_get? hes
  obtain ⟨m, hm⟩ := (Dict.mem_iff_exists _ _).mp (hcache e hmem)
  have hx : rs.executorId = some e := hrep.executorId
  have hp : rs.pendingExecutorId = some e := hrep.pendingExecutorId
  have hitems : rs.executorsToFree.items = [e] := by
    apply OrderedSet.items_eq_singleton
    intro e'
    rw [hrep.executorsToFree]
    simp [Loc.resident?, eq_comm]
  have htoFree : e ∈ rs.executorsToFree := by
    rw [OrderedSet.mem_def, hitems]
    exact List.mem_singleton_self e
  have hempty : rs.removeExecutor.executorsToFree.isEmpty = true := by
    rw [OrderedSet.isEmpty_iff]
    intro e'
    simp only [RequestState.removeExecutor, RequestState.refreshStatus, hx,
      OrderedSet.mem_discard, not_and]
    intro hne hmem'
    rw [OrderedSet.mem_def, hitems, List.mem_singleton] at hmem'
    exact hne hmem'
  unfold freeRequest
  rw [ensures_bind, subscript_of_get? _ hrs, ensures_ok, ensures_bind,
    ensures_pyAssert]
  refine ⟨fun _ => ?_, fun hf => by simp [hrep.isRunning] at hf⟩
  simp only [hp, hx, if_true, pure_bind, hitems]
  rw [ensures_bind, List.foldlM_cons, ensures_bind]
  unfold freeRequestOnExecutor
  rw [ensures_bind, subscript_of_get? _ (by exact hrs : _ = some rs), ensures_ok,
    ensures_bind, ensures_pyAssert]
  refine ⟨fun _ => ?_, fun hf => by simp [htoFree] at hf⟩
  rw [if_pos hx, ensures_bind, ensures_modifyRequestState (by exact hrs : _ = some rs),
    ensures_bind, ensures_modifyExecutorState (by exact hes : _ = some es)]
  apply (hmir.ensures_removeRequest (o := none) hr (h.size_ne_none hr) (by simp)).imp
  intro es' hes'
  unfold freeBlocks
  rw [ensures_bind, ensures_bind, subscript_of_get? _ (by exact hm : _ = some m),
    ensures_ok, ensures_pure, ensures_bind,
    subscript_of_get? _ (by simp : _ = some rs.removeExecutor), ensures_ok, if_pos hempty,
    ensures_bind, subscript_of_get? _ (by exact hreq : _ = some req), ensures_ok,
    ensures_pure, List.foldlM_nil, ensures_pure, ensures_pure]
  have hstates : ∀ r', ((s.requestStates.set r rs.removeExecutor).erase r).get? r' =
      if r' = r then none else s.requestStates.get? r' := by
    intro r'
    rw [Dict.get?_erase, Dict.get?_set]
    by_cases hr' : r' = r
    · simp [hr']
    · simp [hr']
  have hblocks : ∀ e', (s.kvCacheManagers.set e (cfg.kv.free m r)).get? e' =
      if e' = e then (s.kvCacheManagers.get? e).map (cfg.kv.free · r)
      else s.kvCacheManagers.get? e' := by
    intro e'
    rw [Dict.get?_set, hm, Option.map_some]
  constructor
  · apply h.remove (e := e) es' hr
    · intro e'
      exact Dict.get?_set _ _ _ _
    · exact hstates
    · intro r'
      exact Dict.get?_erase _ _ _
    · exact hes'
  · refine ⟨rfl, Dict.keys_set_of_mem _ _ _ hmem, rfl, hstates, rfl, rfl, rfl,
      Dict.keys_set_of_mem _ _ _ (Dict.mem_of_get? hm), ?_, rfl, rfl, ?_⟩
    · exact hblocks
    · exact fun e' r' => mem_freeReqIds_markFree s e e' r r'

/-- A request can be ended exactly when it is running. -/
theorem ensures_freeRequest_any (cfg : Config κ) (h : Refines s π)
    (hcache : ∀ e ∈ s.executorStates, e ∈ s.kvCacheManagers) (r : ReqId) :
    (s.freeRequest cfg r).Ensures (fun _ => ∀ e, π r ≠ some (.running e)) fun s' => ∃ e,
      π r = some (.running e) ∧ Refines s' (Function.update π r none) ∧ Ended cfg r e s s' := by
  by_cases hrun : ∃ e, π r = some (.running e)
  · obtain ⟨e, hr⟩ := hrun
    apply (ensures_freeRequest cfg h hcache hr).mono (fun _ hf => hf.elim)
    intro s' hs'
    exact ⟨e, hr, hs'⟩
  · have hno : ∀ e, π r ≠ some (.running e) := fun e he => hrun ⟨e, he⟩
    unfold freeRequest
    rw [ensures_bind, ensures_subscript]
    refine ⟨fun rs hrs => ?_, fun _ => hno⟩
    rw [ensures_bind, ensures_pyAssert]
    refine ⟨fun hrunning => ?_, fun _ => hno⟩
    obtain ⟨l, hl, hrep⟩ := h.location hrs
    obtain ⟨e, rfl⟩ := hrep.isRunning_iff.mp hrunning
    exact absurd hl (hno e)

/-! ## One entry of a message -/

theorem Ledger.setRequest (h : Ledger cfg s) (hr : r ∈ s.requests) (req : Request) :
    Ledger cfg { s with requests := s.requests.set r req } := by
  have hkeys : ∀ r', r' ∈ s.requests.set r req ↔ r' ∈ s.requests := by
    intro r'
    rw [Dict.mem_set]
    constructor
    · rintro (rfl | hr')
      · exact hr
      · exact hr'
    · exact Or.inr
  refine ⟨?_, h.apart, h.queue, h.queueNodup, h.waiting, ?_, h.caches, h.indices,
    h.deferredIndices, h.minIdx⟩
  · intro r'
    rw [hkeys]
    exact h.known r'
  · intro r' hr'
    exact (hkeys r').mpr (h.estimates r' hr')

theorem ensures_updateRequestWithOutput (cfg : Config κ) (s : Scheduler κ)
    (msg : SchedulerOutput) (r : ReqId) (req : Request) (tokenIds : List (ℕ × Token)) :
    (s.updateRequestWithOutput cfg msg r req tokenIds).Ensures (fun _ => True) fun y =>
      y.1.requestId = req.requestId ∧ y.1.numTokens = req.numTokens ∧
      (y.2 = false → req.Goes y.1) ∧ req.afterStep tokenIds = .ok y := by
  unfold updateRequestWithOutput
  by_cases hnil : tokenIds = []
  · rw [if_pos hnil, ensures_pure]
    exact ⟨rfl, rfl, fun _ => Request.Goes.refl req, if_pos hnil⟩
  · rw [if_neg hnil, ensures_bind, ensures_subscript]
    refine ⟨fun rs _ => ?_, fun _ => trivial⟩
    cases cfg.candidateConfidenceThresholds[rs.maxConfidenceThresholdIdx]? with
    | none => trivial
    | some c =>
        simp only [ensures_bind]
        rw [ensures_subscript]
        refine ⟨fun _ _ => ?_, fun _ => trivial⟩
        have hupd := req.ensures_updateFromOutput tokenIds
        cases hreq' : req.updateFromOutput tokenIds with
        | error err => trivial
        | ok req' =>
            obtain ⟨hstep, -⟩ := ensures_of_ok hupd hreq'
            rw [ensures_ok, ensures_pure]
            refine ⟨?_, ?_, ?_, ?_⟩
            · rw [Request.checkStop_requestId, hstep.requestId]
            · rw [Request.checkStop_numTokens, hstep.numTokens]
            · intro hgo
              refine Or.inr ⟨tokenIds, hnil, ?_⟩
              unfold Request.checkStop at hgo ⊢
              split_ifs at hgo ⊢ with hstop
              exact hstep
            · unfold Request.afterStep
              rw [if_neg hnil, hreq']
              rfl

/-- The block tables of `s'` are those of `s`, with the blocks of some requests freed on
each executor. -/
def Freed (cfg : Config κ) (s s' : Scheduler κ) (gone : ExecutorId → ReqId → Prop) : Prop :=
  ∀ e, ∃ rs : List ReqId, (∀ r, r ∈ rs ↔ gone e r) ∧ s'.kvCacheManagers.get? e =
    (s.kvCacheManagers.get? e).map fun m => rs.foldl cfg.kv.free m

theorem Freed.of_eq {gone : ExecutorId → ReqId → Prop}
    (h : s'.kvCacheManagers = s.kvCacheManagers) (hno : ∀ e r, ¬gone e r) :
    Freed cfg s s' gone := by
  intro e
  refine ⟨[], ?_, ?_⟩
  · intro r
    simp [hno e r]
  · simp [h]

/-- What the entries `done` of a message have made of the state `s₀`. -/
structure Applied (cfg : Config κ) (s₀ : Scheduler κ) (π₀ : Placement) (done : List ReqId)
    (s : Scheduler κ) (π : Placement) : Prop where
  refines : Refines s π
  ledger : Ledger cfg s
  manager : s.executorsManager = s₀.executorsManager
  executorKeys : s.executorStates.keys = s₀.executorStates.keys
  placement : ∀ r, π r = π₀ r ∨ r ∈ done ∧ π r = none ∧ ∃ e, π₀ r = some (.running e)
  requests : ∀ r req, s.requests.get? r = some req → ∃ req₀, s₀.requests.get? r = some req₀ ∧
    req₀.Goes req ∧ (r ∉ done → req = req₀)
  lost : ∀ r, r ∈ s₀.requests → r ∉ s.requests → r ∈ done ∧ π r = none
  deferredRequests : s.deferredRequests = s₀.deferredRequests
  droppedDeferredRequests : s.droppedDeferredRequests = s₀.droppedDeferredRequests
  free : ∀ e r, r ∈ s.freeReqIds.getD e OrderedSet.empty ↔
    r ∈ s₀.freeReqIds.getD e OrderedSet.empty ∨ π₀ r = some (.running e) ∧ π r = none
  blocks : Freed cfg s₀ s fun e r => π₀ r = some (.running e) ∧ π r = none

namespace Applied

theorem start (h : Refines s π) (hl : Ledger cfg s) : Applied cfg s π [] s π := by
  have hno : ∀ e r, ¬(π r = some (.running e) ∧ π r = none) := by
    rintro e r ⟨hr, hnone⟩
    rw [hr] at hnone
    cases hnone
  exact ⟨h, hl, rfl, rfl, fun _ => Or.inl rfl,
    fun _ req hreq => ⟨req, hreq, Request.Goes.refl req, fun _ => rfl⟩,
    fun _ hr hnot => absurd hr hnot, rfl, rfl, fun e r => (or_iff_left (hno e r)).symm,
    Freed.of_eq rfl hno⟩

theorem skip (h : Applied cfg s₀ π₀ done s π) (r : ReqId) :
    Applied cfg s₀ π₀ (r :: done) s π := by
  refine ⟨h.refines, h.ledger, h.manager, h.executorKeys, ?_, ?_, ?_, h.deferredRequests,
    h.droppedDeferredRequests, h.free, h.blocks⟩
  · intro r'
    rcases h.placement r' with hr' | ⟨hmem, hr'⟩
    · exact Or.inl hr'
    · exact Or.inr ⟨List.mem_cons_of_mem r hmem, hr'⟩
  · intro r' req hreq
    obtain ⟨req₀, hreq₀, hgo, hsame⟩ := h.requests r' req hreq
    exact ⟨req₀, hreq₀, hgo, fun hnot => hsame fun hmem => hnot (List.mem_cons_of_mem r hmem)⟩
  · intro r' hr' hnot
    obtain ⟨hmem, hnone⟩ := h.lost r' hr' hnot
    exact ⟨List.mem_cons_of_mem r hmem, hnone⟩

theorem continue_ (h : Applied cfg s₀ π₀ done s π) (hnot : r ∉ done) {req req' : Request}
    (hreq : s.requests.get? r = some req) (hgo : req.Goes req') :
    Applied cfg s₀ π₀ (r :: done) { s with requests := s.requests.set r req' } π := by
  have hskip := h.skip r
  refine ⟨h.refines.setRequest hreq hgo.requestId hgo.numTokens,
    h.ledger.setRequest (Dict.mem_of_get? hreq) req', h.manager, h.executorKeys,
    hskip.placement, ?_, ?_, h.deferredRequests, h.droppedDeferredRequests, h.free, h.blocks⟩
  · intro r' x hx
    dsimp only at hx
    rw [Dict.get?_set] at hx
    by_cases hr : r' = r
    · rw [if_pos hr, Option.some.injEq] at hx
      obtain ⟨req₀, hreq₀, -, hsame⟩ := h.requests r req hreq
      rw [hr, ← hx]
      refine ⟨req₀, hreq₀, ?_, fun hmem => absurd List.mem_cons_self hmem⟩
      rw [← hsame hnot]
      exact hgo
    · rw [if_neg hr] at hx
      exact hskip.requests r' x hx
  · intro r' hr' hnot'
    exact hskip.lost r' hr' fun hmem => hnot' ((Dict.mem_set _ _ _ _).mpr (Or.inr hmem))

theorem finish (h : Applied cfg s₀ π₀ done s π) (hnot : r ∉ done) {req req' : Request}
    (hreq : s.requests.get? r = some req) (hrun : π r = some (.running e))
    (href : Refines s' (Function.update π r none))
    (hend : Ended cfg r e { s with requests := s.requests.set r req' } s') :
    Applied cfg s₀ π₀ (r :: done) s' (Function.update π r none) := by
  have hskip := h.skip r
  have hmem : r ∈ s.requestStates := h.refines.mem_requestStates_iff.mpr ⟨_, hrun⟩
  have hrun₀ : π₀ r = some (.running e) := by
    rcases h.placement r with hr | ⟨hr, -⟩
    · rw [← hr, hrun]
    · exact absurd hr hnot
  have hreqs : ∀ r', s'.requests.get? r' = if r' = r then none else s.requests.get? r' := by
    intro r'
    rw [hend.requests, Dict.get?_erase]
    by_cases hr' : r' = r
    · simp [hr']
    · simp [hr']
  refine ⟨href, hend.ledger (h.ledger.setRequest (Dict.mem_of_get? hreq) req') hmem,
    hend.manager.trans h.manager, hend.executorKeys.trans h.executorKeys, ?_, ?_, ?_,
    hend.deferredRequests.trans h.deferredRequests,
    hend.droppedDeferredRequests.trans h.droppedDeferredRequests, ?_, ?_⟩
  · intro r'
    by_cases hr' : r' = r
    · rw [hr', Function.update_self]
      exact Or.inr ⟨List.mem_cons_self, rfl, e, hrun₀⟩
    · rw [Function.update_of_ne hr']
      exact hskip.placement r'
  · intro r' x hx
    rw [hreqs] at hx
    by_cases hr' : r' = r
    · rw [if_pos hr'] at hx
      cases hx
    · rw [if_neg hr'] at hx
      exact hskip.requests r' x hx
  · intro r' hr' hnot'
    by_cases hne : r' = r
    · rw [hne, Function.update_self]
      exact ⟨List.mem_cons_self, rfl⟩
    · rw [Function.update_of_ne hne]
      apply hskip.lost r' hr'
      rwa [Dict.mem_iff_exists, hreqs, if_neg hne, ← Dict.mem_iff_exists] at hnot'
  · intro e' r'
    rw [hend.free, h.free]
    by_cases hne : r' = r
    · rw [hne, Function.update_self, hrun, hrun₀, or_assoc]
      apply or_congr Iff.rfl
      simp [eq_comm]
    · simp [hne]
  · intro e'
    obtain ⟨rs, hrs, hblocks⟩ := h.blocks e'
    have hget := hend.blocks e'
    by_cases he' : e' = e
    · subst he'
      refine ⟨rs ++ [r], ?_, ?_⟩
      · intro r'
        rw [List.mem_append, List.mem_singleton, hrs]
        by_cases hne : r' = r
        · simp [hne, hrun₀]
        · simp [hne]
      · rw [hget, if_pos rfl]
        change (s.kvCacheManagers.get? e').map _ = _
        rw [hblocks, Option.map_map]
        simp only [Function.comp_def, List.foldl_append, List.foldl_cons, List.foldl_nil]
    · refine ⟨rs, ?_, ?_⟩
      · intro r'
        rw [hrs]
        by_cases hne : r' = r
        · have hother : ¬e = e' := fun hc => he' hc.symm
          simp [hne, hrun₀, hother]
        · simp [hne]
      · rw [hget, if_neg he']
        exact hblocks

end Applied

/-! ## The progress of the requests -/

def stepOutput (s : Scheduler κ) (res : ModelRunnerOutput) (r : ReqId) :
    Option EngineCoreOutput := do
  let req ← s.requests.get? r
  let tokenIds ← res.tokensOf r
  let y ← (({ req with isInExecution := false } : Request).afterStep tokenIds).toOption
  pure
    { clientIndex := req.clientIndex
      requestId := r
      newTokenIds := tokenIds
      finishReason := y.1.status.getFinishedReason }

structure Progressed (res : ModelRunnerOutput) (s₀ : Scheduler κ) (done : List ReqId)
    (s : Scheduler κ) (outputs : List EngineCoreOutput) : Prop where
  others : ∀ r, r ∉ done ∨ r ∉ s₀.requests → s.requests.get? r = s₀.requests.get? r
  stepped : ∀ r ∈ done, ∀ req, s₀.requests.get? r = some req → ∃ tokenIds y,
    res.tokensOf r = some tokenIds ∧
    ({ req with isInExecution := false } : Request).afterStep tokenIds = .ok y ∧
    s.requests.get? r = if y.2 then none else some y.1
  outputs : outputs = s₀.reportDropped.outputs ++ done.reverse.filterMap (s₀.stepOutput res)

namespace Progressed

variable {res : ModelRunnerOutput} {outputs : List EngineCoreOutput}

theorem skip (h : Progressed res s₀ done s outputs) (hnot : r ∉ done)
    (hr : s.requests.get? r = none) : Progressed res s₀ (r :: done) s outputs := by
  have hnone : s₀.requests.get? r = none := by
    rw [← h.others r (Or.inl hnot), hr]
  refine ⟨?_, ?_, ?_⟩
  · rintro r' (hr' | hr')
    · exact h.others r' (Or.inl fun hmem => hr' (List.mem_cons_of_mem r hmem))
    · exact h.others r' (Or.inr hr')
  · intro r' hr' req hreq
    rcases List.mem_cons.mp hr' with rfl | hr'
    · rw [hnone] at hreq
      cases hreq
    · exact h.stepped r' hr' req hreq
  · have hout : s₀.stepOutput res r = none := by
      simp [stepOutput, hnone]
    rw [List.reverse_cons, List.filterMap_append, List.filterMap_cons_none hout,
      List.filterMap_nil, List.append_nil]
    exact h.outputs

theorem step (h : Progressed res s₀ done s outputs) (hnot : r ∉ done) {req : Request}
    (hreq : s.requests.get? r = some req) {tokenIds : List (ℕ × Token)} {y : Request × Bool}
    (htokens : res.tokensOf r = some tokenIds)
    (hy : ({ req with isInExecution := false } : Request).afterStep tokenIds = .ok y)
    (hs' : ∀ r', s'.requests.get? r' =
      if r' = r then (if y.2 then none else some y.1) else s.requests.get? r') :
    Progressed res s₀ (r :: done) s' (outputs ++
      [{ clientIndex := req.clientIndex
         requestId := r
         newTokenIds := tokenIds
         finishReason := y.1.status.getFinishedReason }]) := by
  have hreq₀ : s₀.requests.get? r = some req := by
    rw [← h.others r (Or.inl hnot), hreq]
  refine ⟨?_, ?_, ?_⟩
  · intro r' hr'
    have hne : r' ≠ r := by
      rintro rfl
      rcases hr' with hr' | hr'
      · exact hr' List.mem_cons_self
      · exact hr' (Dict.mem_of_get? hreq₀)
    rw [hs', if_neg hne]
    rcases hr' with hr' | hr'
    · exact h.others r' (Or.inl fun hmem => hr' (List.mem_cons_of_mem r hmem))
    · exact h.others r' (Or.inr hr')
  · intro r' hr' req' hreq'
    rw [hs']
    rcases List.mem_cons.mp hr' with rfl | hmem
    · rw [hreq₀, Option.some.injEq] at hreq'
      rw [← hreq']
      exact ⟨tokenIds, y, htokens, hy, if_pos rfl⟩
    · have hne : r' ≠ r := fun hc => hnot (hc ▸ hmem)
      rw [if_neg hne]
      exact h.stepped r' hmem req' hreq'
  · have hout : s₀.stepOutput res r = some
        { clientIndex := req.clientIndex
          requestId := r
          newTokenIds := tokenIds
          finishReason := y.1.status.getFinishedReason } := by
      simp [stepOutput, hreq₀, htokens, hy, Except.toOption]
    rw [List.reverse_cons, List.filterMap_append, List.filterMap_cons_some hout,
      List.filterMap_nil, ← List.append_assoc, ← h.outputs]

end Progressed

theorem ensures_processRequest (msg : SchedulerOutput) (res : ModelRunnerOutput)
    {p : Processed κ} {s₁ : Scheduler κ} (n : ℕ) (h : Applied cfg s₀ π₀ done p.scheduler π)
    (hprog : Progressed res s₁ done p.scheduler p.outputs) (hnot : r ∉ done) :
    (processRequest cfg msg res p (r, n)).Ensures (fun _ => True) fun p' =>
      (∃ π', Applied cfg s₀ π₀ (r :: done) p'.scheduler π') ∧
      Progressed res s₁ (r :: done) p'.scheduler p'.outputs := by
  unfold processRequest
  rw [ensures_bind, ensures_pyAssert]
  refine ⟨fun _ => ?_, fun _ => trivial⟩
  dsimp only
  cases hreq : p.scheduler.requests.get? r with
  | none => exact ⟨⟨π, h.skip r⟩, hprog.skip hnot hreq⟩
  | some req =>
      simp only [ensures_bind]
      rw [ensures_subscript]
      refine ⟨fun i hi => ?_, fun _ => trivial⟩
      cases hts : generatedTokenIds res i with
      | error err => trivial
      | ok ts =>
          have htokens : res.tokensOf r = some ts := by
            simp [ModelRunnerOutput.tokensOf, hi, hts, Except.toOption]
          rw [ensures_ok]
          apply (ensures_updateRequestWithOutput cfg p.scheduler msg r
            { req with isInExecution := false } ts).imp
          rintro ⟨req', stopped⟩ ⟨hid, hsize, hgo, hstep⟩
          dsimp only at hid hsize hgo ⊢
          cases stopped with
          | false =>
              refine ⟨⟨π, h.continue_ hnot hreq (hgo rfl).of_marked⟩, ?_⟩
              exact hprog.step hnot hreq htokens hstep fun r' => Dict.get?_set _ _ _ _
          | true =>
              rw [if_pos rfl, ensures_bind]
              have hset := h.refines.setRequest hreq hid hsize
              apply (ensures_freeRequest_any cfg hset h.ledger.caches r).mono
                (fun _ _ => trivial)
              rintro s' ⟨e, hrun, href, hend⟩
              refine ⟨⟨_, h.finish hnot hreq hrun href hend⟩, ?_⟩
              apply hprog.step hnot hreq htokens hstep
              intro r'
              rw [hend.requests, Dict.get?_erase]
              by_cases hr' : r' = r
              · simp [hr']
              · simp [hr']

/-! ## The whole result -/

theorem Applied.soft (h : Applied cfg s₀ π₀ done s π) (hs : Soft s s') :
    Applied cfg s₀ π₀ done s' π := by
  refine ⟨hs.framed.refines h.refines, h.ledger.of_kept hs.framed.kept,
    hs.executorsManager.trans h.manager, ?_, h.placement, ?_, ?_,
    hs.framed.deferredRequests.trans h.deferredRequests,
    hs.framed.droppedDeferredRequests.trans h.droppedDeferredRequests, ?_, ?_⟩
  · rw [hs.framed.executorStates]
    exact h.executorKeys
  · rw [hs.requests]
    exact h.requests
  · rw [hs.requests]
    exact h.lost
  · rw [hs.freeReqIds]
    exact h.free
  · obtain ⟨rs, ds, v, p, rfl, -⟩ := hs
    exact h.blocks

theorem ensures_applyOutput (msg : SchedulerOutput) (res : ModelRunnerOutput)
    (h : Refines s π) (hl : Ledger cfg s) :
    (s.applyOutput cfg msg res).Ensures (fun _ => True) fun x => ∃ done π',
      (∀ r, r ∈ done ↔ r ∈ msg.numScheduledTokens) ∧
      Applied cfg { s with droppedDeferredRequests := [] } π done x.1 π' ∧
      Progressed res s msg.numScheduledTokens.keys.reverse x.1 x.2 := by
  have hstart : Applied cfg { s with droppedDeferredRequests := [] } π []
      { s with droppedDeferredRequests := [] } π :=
    Applied.start ⟨h.executors, h.located, h.hosted, h.known, h.ids⟩
      ⟨hl.known, hl.apart, hl.queue, hl.queueNodup, hl.waiting, hl.estimates, hl.caches,
        hl.indices, hl.deferredIndices, hl.minIdx⟩
  unfold applyOutput
  rw [ensures_bind]
  have hnone : Progressed res s [] s.reportDropped.scheduler s.reportDropped.outputs := by
    refine ⟨fun _ _ => rfl, ?_, ?_⟩
    · intro r hr
      cases hr
    · simp
  -- the entries visited and those still to visit are those of the message
  refine (ensures_foldlM_rest (E := fun _ => True)
    (fun rest (p : Processed κ) => ∃ done π',
      done.reverse ++ rest.map Prod.fst = msg.numScheduledTokens.keys ∧
      Applied cfg { s with droppedDeferredRequests := [] } π done p.scheduler π' ∧
      Progressed res s done p.scheduler p.outputs) ?_ _ _
    ⟨[], π, rfl, hstart, hnone⟩).imp ?_
  · rintro p ⟨r, n⟩ rest ⟨done, π', hkeys, happ, hprog⟩
    have hnodup : (done.reverse ++ r :: rest.map Prod.fst).Nodup := by
      have hall := msg.numScheduledTokens.nodup_keys
      rw [← hkeys] at hall
      exact hall
    have hfresh : r ∉ done := by
      intro hmem
      exact (List.disjoint_of_nodup_append hnodup) (List.mem_reverse.mpr hmem)
        List.mem_cons_self
    apply (ensures_processRequest msg res n happ hprog hfresh).imp
    rintro p' ⟨⟨π'', happ'⟩, hprog'⟩
    refine ⟨r :: done, π'', ?_, happ', hprog'⟩
    rw [← hkeys, List.reverse_cons, List.append_assoc]
    rfl
  · rintro p ⟨done, π', hkeys, happ, hprog⟩
    rw [ensures_pure]
    rw [List.map_nil, List.append_nil] at hkeys
    have hdone : done = msg.numScheduledTokens.keys.reverse := by
      rw [← hkeys, List.reverse_reverse]
    have hsoft := soft_batchPostStepEstimateUpdates cfg p.scheduler p.continued
    refine ⟨done, π', ?_, happ.soft hsoft, ?_⟩
    · intro r
      rw [hdone, List.mem_reverse]
      exact Iff.rfl
    · rw [← hdone]
      refine ⟨?_, ?_, hprog.outputs⟩
      · rw [hsoft.requests]
        exact hprog.others
      · rw [hsoft.requests]
        exact hprog.stepped

/-- Giving the executor back only sets its status. With caching, one that is to be
killed becomes idle only without requests. -/
theorem ensures_releaseExecutor (cfg : Config κ) (s : Scheduler κ) (e : ExecutorId) :
    (s.releaseExecutor cfg e).Ensures (fun _ => True) fun s' => ∃ st m,
      (st = .idle ∧ (cfg.caching = true →
          s.executorsManager.waitingToBeKilled.get? e = some true →
          ∃ es, s.executorStates.get? e = some es ∧ es.isDrained = true) ∨
        st = .idleNotAcceptingNewRequests ∧
          s.executorsManager.waitingToBeKilled.get? e = some true) ∧
      s.executorsManager.setStatus e st = .ok m ∧ s' = { s with executorsManager := m } := by
  have hset : ∀ st, (s.setExecutorStatus e st).Ensures (fun _ => True) fun s' => ∃ m,
      s.executorsManager.setStatus e st = .ok m ∧ s' = { s with executorsManager := m } := by
    intro st
    unfold setExecutorStatus
    cases hm : s.executorsManager.setStatus e st with
    | error err => trivial
    | ok m => exact ⟨m, rfl, rfl⟩
  unfold releaseExecutor
  split_ifs with hcache
  · rw [ensures_bind, ensures_subscript]
    refine ⟨fun waiting hwait => ?_, fun _ => trivial⟩
    cases waiting with
    | false =>
        apply (hset _).imp
        rintro s' ⟨m, hm⟩
        refine ⟨_, m, Or.inl ⟨rfl, fun _ htrue => ?_⟩, hm⟩
        rw [hwait] at htrue
        cases htrue
    | true =>
        rw [if_pos rfl, ensures_bind, ensures_subscript]
        refine ⟨fun es hes => ?_, fun _ => trivial⟩
        apply (hset _).imp
        rintro s' ⟨m, hm⟩
        cases hdrained : es.isDrained with
        | true =>
            rw [hdrained] at hm
            exact ⟨_, m, Or.inl ⟨rfl, fun _ _ => ⟨es, hes, hdrained⟩⟩, hm⟩
        | false =>
            rw [hdrained] at hm
            exact ⟨_, m, Or.inr ⟨rfl, hwait⟩, hm⟩
  · apply (hset _).imp
    rintro s' ⟨m, hm⟩
    exact ⟨_, m, Or.inl ⟨rfl, fun hc => absurd hc hcache⟩, hm⟩

end Scheduler

end TeDiServe

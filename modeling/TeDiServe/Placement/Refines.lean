import TeDiServe.Placement.Mirror

/-!
# The state as a placement

`Refines s π` ties all records of the scheduler to one placement. The moves of the
scheduling stages change the placement of one request; `Moved s s'` says that they
write nothing but the two kinds of records, and neither add nor remove one.
-/

namespace TeDiServe

/-- What the rounds leave as it is in the record of a request. -/
def RequestState.forecast (rs : RequestState) : ℕ × Dict ℚ ℚ :=
  (rs.maxConfidenceThresholdIdx, rs.predNumStepsLeft)

namespace Scheduler

variable {κ : Type} {s s' s'' : Scheduler κ} {π : Placement} {r : ReqId} {e : ExecutorId}

def size (s : Scheduler κ) (r : ReqId) : Option ℕ :=
  (s.requests.get? r).map Request.numTokens

/-- Every record of the scheduler reads off the one placement `π`. -/
structure Refines (s : Scheduler κ) (π : Placement) : Prop where
  executors : ∀ e es, s.executorStates.get? e = some es → es.Mirrors e π s.size
  located : ∀ r, Option.Rel RequestState.Represents (s.requestStates.get? r) (π r)
  hosted : ∀ r e, π.host? r = some e → e ∈ s.executorStates
  known : ∀ r, r ∈ s.requestStates → r ∈ s.requests
  ids : ∀ r req, s.requests.get? r = some req → req.requestId = r

namespace Refines

variable (h : Refines s π)
include h

theorem represents {l : Loc} (hr : π r = some l) :
    ∃ rs, s.requestStates.get? r = some rs ∧ rs.Represents l := by
  have hloc := h.located r
  rw [hr] at hloc
  cases hrs : s.requestStates.get? r with
  | none =>
      rw [hrs] at hloc
      cases hloc
  | some rs =>
      rw [hrs] at hloc
      cases hloc with
      | some hrep => exact ⟨rs, rfl, hrep⟩

theorem location {rs : RequestState} (hrs : s.requestStates.get? r = some rs) :
    ∃ l, π r = some l ∧ rs.Represents l := by
  have hloc := h.located r
  rw [hrs] at hloc
  cases hl : π r with
  | none =>
      rw [hl] at hloc
      cases hloc
  | some l =>
      rw [hl] at hloc
      cases hloc with
      | some hrep => exact ⟨l, rfl, hrep⟩

/-- A request is placed exactly when the scheduler has a record of it. -/
theorem mem_requestStates_iff : r ∈ s.requestStates ↔ ∃ l, π r = some l := by
  rw [Dict.mem_iff_exists]
  constructor
  · rintro ⟨rs, hrs⟩
    obtain ⟨l, hl, -⟩ := h.location hrs
    exact ⟨l, hl⟩
  · rintro ⟨l, hl⟩
    obtain ⟨rs, hrs, -⟩ := h.represents hl
    exact ⟨rs, hrs⟩

theorem executor (hr : π.host? r = some e) :
    ∃ es, s.executorStates.get? e = some es ∧ es.Mirrors e π s.size := by
  obtain ⟨es, hes⟩ := (Dict.mem_iff_exists _ _).mp (h.hosted r e hr)
  exact ⟨es, hes, h.executors e es hes⟩

theorem request {l : Loc} (hr : π r = some l) :
    ∃ req, s.requests.get? r = some req ∧ req.requestId = r := by
  have hmem := h.known r (h.mem_requestStates_iff.mpr ⟨l, hr⟩)
  obtain ⟨req, hreq⟩ := (Dict.mem_iff_exists _ _).mp hmem
  exact ⟨req, hreq, h.ids r req hreq⟩

theorem size_ne_none {l : Loc} (hr : π r = some l) : s.size r ≠ none := by
  obtain ⟨req, hreq, -⟩ := h.request hr
  simp [size, hreq]

theorem size_ne_none_of_host (hr : π.host? r = some e) : s.size r ≠ none := by
  rcases (Placement.host?_eq_some_iff π r e).mp hr with hr | hr
  · exact h.size_ne_none hr
  · exact h.size_ne_none hr

/-- The general move: one executor record and one request record are rewritten,
and the request stays with that executor or has none. -/
theorem move (es' : ExecutorState) (rs' : RequestState) {l l' : Loc} (hr : π r = some l)
    (hl : ∀ e', l.executor? = some e' → e' = e) (hl' : ∀ e', l'.executor? = some e' → e' = e)
    (hmem : e ∈ s.executorStates) (hexec : ∀ e', s'.executorStates.get? e' =
      if e' = e then some es' else s.executorStates.get? e')
    (hreqs : ∀ r', s'.requestStates.get? r' = if r' = r then some rs' else s.requestStates.get? r')
    (hrest : s'.requests = s.requests) (hes' : es'.Mirrors e (Function.update π r (some l')) s.size)
    (hrs' : rs'.Represents l') : Refines s' (Function.update π r (some l')) := by
  have hsize : s'.size = s.size := by
    funext r'
    simp [size, hrest]
  refine ⟨?_, ?_, ?_, ?_, ?_⟩
  · intro e' x hx
    rw [hsize]
    rw [hexec] at hx
    by_cases he : e' = e
    · rw [if_pos he, Option.some.injEq] at hx
      rw [he, ← hx]
      exact hes'
    · rw [if_neg he] at hx
      apply (h.executors e' x hx).of_elsewhere
      · intro hhost
        have : l.executor? = some e' := by simpa [Placement.host?, hr] using hhost
        exact he (hl e' this)
      · intro hhost
        exact he (hl' e' hhost)
  · intro r'
    rw [hreqs]
    by_cases hr' : r' = r
    · rw [if_pos hr', hr', Function.update_self]
      exact .some hrs'
    · rw [if_neg hr', Function.update_of_ne hr']
      exact h.located r'
  · intro r' e' hhost
    have hkeep : e' ∈ s'.executorStates ↔ e' ∈ s.executorStates := by
      rw [Dict.mem_iff_exists, Dict.mem_iff_exists, hexec]
      by_cases he : e' = e
      · rw [if_pos he, he]
        exact ⟨fun _ => (Dict.mem_iff_exists _ _).mp hmem, fun _ => ⟨es', rfl⟩⟩
      · rw [if_neg he]
    rw [hkeep]
    by_cases hr' : r' = r
    · subst hr'
      rw [Placement.host?_update_self] at hhost
      rw [hl' e' hhost]
      exact hmem
    · rw [Placement.host?_update_of_ne π hr'] at hhost
      exact h.hosted r' e' hhost
  · intro r' hmem'
    rw [hrest]
    apply h.known r'
    rw [Dict.mem_iff_exists, hreqs] at hmem'
    by_cases hr' : r' = r
    · rw [hr']
      exact h.mem_requestStates_iff.mpr ⟨l, hr⟩
    · rw [if_neg hr'] at hmem'
      exact (Dict.mem_iff_exists _ _).mpr hmem'
  · intro r' req hreq
    rw [hrest] at hreq
    exact h.ids r' req hreq

end Refines

/-! ## States that differ in the records only -/

/-- `s'` differs from `s` only inside the records of executors and requests, and the
records of requests keep their predictions and the index that load control gave them. -/
def Moved (s s' : Scheduler κ) : Prop :=
  ∃ es rs, s' = { s with executorStates := es, requestStates := rs } ∧
    es.keys = s.executorStates.keys ∧ rs.keys = s.requestStates.keys ∧
    ∀ r, (rs.get? r).map RequestState.forecast = (s.requestStates.get? r).map RequestState.forecast

namespace Moved

theorem refl (s : Scheduler κ) : Moved s s := ⟨_, _, rfl, rfl, rfl, fun _ => rfl⟩

section

variable (h : Moved s s')
include h

theorem trans (h' : Moved s' s'') : Moved s s'' := by
  obtain ⟨es, rs, rfl, hes, hrs, hkeep⟩ := h
  obtain ⟨es', rs', rfl, hes', hrs', hkeep'⟩ := h'
  exact ⟨es', rs', rfl, hes'.trans hes, hrs'.trans hrs, fun r => (hkeep' r).trans (hkeep r)⟩

theorem requests : s'.requests = s.requests := by
  obtain ⟨es, rs, rfl, -⟩ := h
  rfl

theorem executorsManager : s'.executorsManager = s.executorsManager := by
  obtain ⟨es, rs, rfl, -⟩ := h
  rfl

theorem freeReqIds : s'.freeReqIds = s.freeReqIds := by
  obtain ⟨es, rs, rfl, -⟩ := h
  rfl

theorem executorKeys : s'.executorStates.keys = s.executorStates.keys := by
  obtain ⟨es, rs, rfl, hes, -⟩ := h
  exact hes

theorem mem_executorStates : e ∈ s'.executorStates ↔ e ∈ s.executorStates := by
  rw [Dict.mem_def, Dict.mem_def, h.executorKeys]

theorem mem_requestStates : r ∈ s'.requestStates ↔ r ∈ s.requestStates := by
  obtain ⟨es, rs, rfl, -, hrs, -⟩ := h
  rw [Dict.mem_def, Dict.mem_def, hrs]

end

theorem of_records {es' : Dict ExecutorId ExecutorState} {rs' : Dict ReqId RequestState}
    {x : ExecutorState} {rs y : RequestState} (he : e ∈ s.executorStates)
    (hes' : es' = s.executorStates.set e x) (hr : s.requestStates.get? r = some rs)
    (hkeys : rs'.keys = s.requestStates.keys)
    (hrs' : ∀ r', rs'.get? r' = if r' = r then some y else s.requestStates.get? r')
    (hkeep : y.forecast = rs.forecast) :
    Moved s { s with executorStates := es', requestStates := rs' } := by
  refine ⟨_, _, rfl, ?_, hkeys, ?_⟩
  · rw [hes', Dict.keys_set_of_mem _ _ _ he]
  · intro r'
    rw [hrs']
    by_cases hr' : r' = r
    · simp [hr', hr, hkeep]
    · simp [hr']

end Moved

def OnlyAt (e : ExecutorId) (r : ReqId) (s s' : Scheduler κ) : Prop :=
  (∀ e', e' ≠ e → s'.executorStates.get? e' = s.executorStates.get? e') ∧
    ∀ r', r' ≠ r → s'.requestStates.get? r' = s.requestStates.get? r'

theorem OnlyAt.of_records {es' : Dict ExecutorId ExecutorState} {rs' : Dict ReqId RequestState}
    {x : ExecutorState} {y : RequestState} (hes' : es' = s.executorStates.set e x)
    (hrs' : ∀ r', rs'.get? r' = if r' = r then some y else s.requestStates.get? r') :
    OnlyAt e r s { s with executorStates := es', requestStates := rs' } := by
  constructor
  · intro e' he
    simp [hes', he]
  · intro r' hr
    simp [hrs', hr]

theorem ensures_modifyExecutorState {es : ExecutorState}
    {f : ExecutorState → Except PyError ExecutorState} {E : PyError → Prop}
    {Q : Scheduler κ → Prop} (hes : s.executorStates.get? e = some es) :
    (s.modifyExecutorState e f).Ensures E Q ↔
      (f es).Ensures E fun es' => Q { s with executorStates := s.executorStates.set e es' } := by
  unfold modifyExecutorState
  rw [subscript_of_get? _ hes, ensures_bind, ensures_ok, ensures_bind]
  exact Iff.rfl

theorem ensures_modifyRequestState {rs : RequestState} {f : RequestState → RequestState}
    {E : PyError → Prop} {Q : Scheduler κ → Prop} (hrs : s.requestStates.get? r = some rs) :
    (s.modifyRequestState r f).Ensures E Q ↔
      Q { s with requestStates := s.requestStates.set r (f rs) } := by
  unfold modifyRequestState
  rw [subscript_of_get? _ hrs]
  exact Iff.rfl

theorem ensures_modifyRequest {req : Request} {f : Request → Request}
    {E : PyError → Prop} {Q : Scheduler κ → Prop} (hreq : s.requests.get? r = some req) :
    (s.modifyRequest r f).Ensures E Q ↔
      Q { s with requests := s.requests.set r (f req) } := by
  unfold modifyRequest
  rw [subscript_of_get? _ hreq]
  exact Iff.rfl

/-! ## The moves -/

theorem ensures_unplace (h : Refines s π) (hr : π r = some (.running e)) :
    (s.unplace e r).Ensures (fun _ => False) fun s' =>
      Refines s' (Function.update π r (some .unscheduled)) ∧ Moved s s' ∧ OnlyAt e r s s' := by
  obtain ⟨es, hes, hmir⟩ := h.executor (Placement.host?_of_running hr)
  obtain ⟨rs, hrs, hrep⟩ := h.represents hr
  have hmemE : e ∈ s.executorStates := Dict.mem_of_get? hes
  have hmemR : r ∈ s.requestStates := Dict.mem_of_get? hrs
  unfold unplace
  rw [ensures_bind, ensures_modifyExecutorState hes]
  refine (hmir.ensures_removeRequest (o := some .unscheduled) hr (h.size_ne_none hr)
    (by simp [Loc.executor?])).imp fun es' hes' => ?_
  rw [ensures_bind, ensures_modifyRequestState (by exact hrs : _ = some rs),
    ensures_modifyRequestState (by simp : _ = some rs.removeExecutor)]
  have hwritten := Dict.get?_set_set s.requestStates r rs.removeExecutor
    rs.removeExecutor.removePendingExecutor
  refine ⟨?_, ?_, OnlyAt.of_records rfl hwritten⟩
  · apply h.move (e := e) es' rs.removeExecutor.removePendingExecutor hr
    · simp [Loc.executor?]
    · simp [Loc.executor?]
    · exact hmemE
    · intro e'
      simp
    · exact hwritten
    · rfl
    · exact hes'
    · exact hrep.unplace
  · exact Moved.of_records hmemE rfl hrs (Dict.keys_set_set_of_mem _ _ _ _ hmemR) hwritten rfl

theorem ensures_placeNow (cfg : Config κ) (h : Refines s π) (hr : π r = some .unscheduled)
    (he : e ∈ s.executorStates) :
    (s.placeNow cfg e r).Ensures (fun _ => False) fun s' =>
      Refines s' (Function.update π r (some (.running e))) ∧ Moved s s' ∧ OnlyAt e r s s' := by
  obtain ⟨es, hes⟩ := (Dict.mem_iff_exists _ _).mp he
  obtain ⟨rs, hrs, hrep⟩ := h.represents hr
  obtain ⟨req, hreq, rfl⟩ := h.request hr
  have hmemR : req.requestId ∈ s.requestStates := Dict.mem_of_get? hrs
  have hhost : π.host? req.requestId ≠ some e := by simp [Placement.host?, hr, Loc.executor?]
  unfold placeNow
  rw [ensures_bind, subscript_of_get? _ hreq, ensures_ok, ensures_bind,
    ensures_modifyExecutorState hes, ensures_ok, ensures_bind,
    ensures_modifyRequestState (by exact hrs : _ = some rs),
    ensures_modifyRequestState (by simp : _ = some (rs.setExecutor (some e)
      (some cfg.defaultConfidenceThreshold)))]
  have hwritten := Dict.get?_set_set s.requestStates req.requestId
    (rs.setExecutor (some e) (some cfg.defaultConfidenceThreshold))
    ((rs.setExecutor (some e) (some cfg.defaultConfidenceThreshold)).setPendingExecutor
      e cfg.defaultConfidenceThreshold)
  refine ⟨?_, ?_, OnlyAt.of_records rfl hwritten⟩
  · apply h.move (e := e) (es.addRequest req)
      ((rs.setExecutor (some e) (some cfg.defaultConfidenceThreshold)).setPendingExecutor
        e cfg.defaultConfidenceThreshold) hr
    · simp [Loc.executor?]
    · simp [Loc.executor?]
    · exact he
    · intro e'
      simp
    · exact hwritten
    · rfl
    · exact (h.executors e es hes).addRequest hhost (by simp [size, hreq])
    · exact hrep.place e _
  · exact Moved.of_records he rfl hrs (Dict.keys_set_set_of_mem _ _ _ _ hmemR) hwritten rfl

theorem ensures_placeLater (cfg : Config κ) (h : Refines s π) (hr : π r = some .unscheduled)
    (he : e ∈ s.executorStates) :
    (s.placeLater cfg e r).Ensures (fun _ => False) fun s' =>
      Refines s' (Function.update π r (some (.pending e))) ∧ Moved s s' ∧ OnlyAt e r s s' := by
  obtain ⟨es, hes⟩ := (Dict.mem_iff_exists _ _).mp he
  obtain ⟨rs, hrs, hrep⟩ := h.represents hr
  obtain ⟨req, hreq, rfl⟩ := h.request hr
  have hmemR : req.requestId ∈ s.requestStates := Dict.mem_of_get? hrs
  have hhost : π.host? req.requestId ≠ some e := by simp [Placement.host?, hr, Loc.executor?]
  unfold placeLater
  rw [ensures_bind, subscript_of_get? _ hreq, ensures_ok, ensures_bind,
    ensures_modifyExecutorState hes, ensures_ok,
    ensures_modifyRequestState (by exact hrs : _ = some rs)]
  refine ⟨?_, ?_, OnlyAt.of_records rfl (Dict.get?_set _ _ _)⟩
  · apply h.move (e := e) (es.markPendingRequestAddition req)
      (rs.setPendingExecutor e cfg.defaultConfidenceThreshold) hr
    · simp [Loc.executor?]
    · simp [Loc.executor?]
    · exact he
    · intro e'
      simp
    · intro r'
      simp
    · rfl
    · exact (h.executors e es hes).markPendingRequestAddition hhost (by simp [size, hreq])
    · exact hrep.placePending e _
  · exact Moved.of_records he rfl hrs (Dict.keys_set_of_mem _ _ _ hmemR) (Dict.get?_set _ _ _) rfl

/-! ## Reading a placement off the records -/

theorem Refines.running_iff (h : Refines s π) {rs : RequestState}
    (hrs : s.requestStates.get? r = some rs) :
    rs.executorId = some e ↔ π r = some (.running e) := by
  obtain ⟨l, hl, hrep⟩ := h.location hrs
  rw [hrep.executorId, hl, Option.some.injEq]
  cases l <;> simp [Loc.resident?]

def ResidentOn (s : Scheduler κ) (e : ExecutorId) (r : ReqId) : Prop :=
  ∃ rs, s.requestStates.get? r = some rs ∧ rs.executorId = some e

theorem Refines.residentOn_iff (h : Refines s π) : ResidentOn s e r ↔ π r = some (.running e) := by
  constructor
  · rintro ⟨rs, hrs, he⟩
    exact (h.running_iff hrs).mp he
  · intro hr
    obtain ⟨rs, hrs, hrep⟩ := h.represents hr
    exact ⟨rs, hrs, hrep.executorId⟩

def executorOf (s : Scheduler κ) (r : ReqId) : Option ExecutorId :=
  (s.requestStates.get? r).bind RequestState.executorId

theorem Refines.executorOf_eq_some_iff (h : Refines s π) :
    s.executorOf r = some e ↔ π r = some (.running e) := by
  rw [← h.residentOn_iff, executorOf, Option.bind_eq_some_iff]
  rfl

end Scheduler

end TeDiServe

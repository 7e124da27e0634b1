import TeDiServe.Placement.Plan

/-!
# Following the executors

An executor that appears is empty, so that adding its record leaves the placement
as it is. When a record is given up, every request that was running or pending
there becomes unscheduled, and no other request notices. After `updateExecutors`
the records are exactly those of the executors that are not being killed.
-/

namespace TeDiServe

namespace Placement

variable {π : Placement} {gone gone' : ExecutorId → Bool} {r : ReqId} {e : ExecutorId}

/-- The requests of the executors that are gone become unscheduled. -/
def evict (π : Placement) (gone : ExecutorId → Bool) : Placement := fun r =>
  if (π.host? r).any gone then some .unscheduled else π r

theorem evict_eq_some_iff {l : Loc} (hl : l ≠ .unscheduled) :
    π.evict gone r = some l ↔ π r = some l ∧ (π.host? r).any gone = false := by
  unfold evict
  cases (π.host? r).any gone with
  | false => simp
  | true => simpa using fun h => hl h.symm

theorem host?_evict : (π.evict gone).host? r = some e ↔ π.host? r = some e ∧ gone e = false := by
  rw [host?_eq_some_iff, host?_eq_some_iff, evict_eq_some_iff (by simp),
    evict_eq_some_iff (by simp), ← or_and_right]
  apply and_congr_right
  intro h
  rw [(host?_eq_some_iff π r e).mpr h]
  simp

theorem isSome_evict : (π.evict gone r).isSome = (π r).isSome := by
  unfold evict host?
  cases π r with
  | none => rfl
  | some l =>
      simp only [Option.bind_some, Option.isSome_some]
      split_ifs <;> rfl

theorem evict_evict :
    (π.evict gone).evict gone' = π.evict (fun e => gone e || gone' e) := by
  funext r
  cases hh : π.host? r with
  | none =>
      have hh' : (π.evict gone).host? r = none := by
        rw [Option.eq_none_iff_forall_ne_some]
        intro e he
        rw [host?_evict, hh] at he
        cases he.1
      simp [evict, hh, hh']
  | some e =>
      cases hg : gone e with
      | true => simp [evict, hh, hg]
      | false =>
          have hh' : (π.evict gone).host? r = some e := host?_evict.mpr ⟨hh, hg⟩
          change (if ((π.evict gone).host? r).any gone' then _ else _) = _
          simp [hh', evict, hh, hg]

theorem evict_of_hosts (h : ∀ r e, π.host? r = some e → gone e = false) : π.evict gone = π := by
  funext r
  unfold evict
  cases hh : π.host? r with
  | none => rfl
  | some e => simp [h r e hh]

end Placement

theorem RequestState.Represents.withdraw {rs : RequestState} {e : ExecutorId}
    (h : rs.Represents (.pending e)) : rs.removePendingExecutor.Represents .unscheduled := by
  have hx : rs.executorId = none := h.executorId
  refine ⟨hx, rfl, h.executorsToFree, ?_⟩
  simp [removePendingExecutor, refreshStatus, hx, Loc.status]

def ExecutorsManager.Keyed (m : ExecutorsManager) : Prop :=
  ∀ e x, m.executors.get? e = some x → x.id = e

namespace Scheduler

variable {κ : Type} {cfg : Config κ} {s s' s'' : Scheduler κ} {π : Placement} {r : ReqId}
  {e : ExecutorId}

/-- `s'` differs from `s` in the records of executors and requests, in what is kept
for each executor, and in what is computed from the set of executors. -/
def Reshaped (s s' : Scheduler κ) : Prop :=
  ∃ es rs caches free d t, s' =
      { s with
        executorStates := es
        requestStates := rs
        kvCacheManagers := caches
        freeReqIds := free
        maxTpDegree := d
        throughputSupply := t } ∧
    ∀ r, (rs.get? r).map RequestState.maxConfidenceThresholdIdx =
      (s.requestStates.get? r).map RequestState.maxConfidenceThresholdIdx

namespace Reshaped

theorem refl (s : Scheduler κ) : Reshaped s s :=
  ⟨_, _, _, _, _, _, rfl, fun _ => rfl⟩

variable (h : Reshaped s s')
include h

theorem trans (h' : Reshaped s' s'') : Reshaped s s'' := by
  obtain ⟨es, rs, caches, free, d, t, rfl, hrs⟩ := h
  obtain ⟨es', rs', caches', free', d', t', rfl, hrs'⟩ := h'
  exact ⟨es', rs', caches', free', d', t', rfl, fun r => (hrs' r).trans (hrs r)⟩

theorem deferredRequests : s'.deferredRequests = s.deferredRequests := by
  obtain ⟨es, rs, caches, free, d, t, rfl, -⟩ := h
  rfl

theorem droppedDeferredRequests : s'.droppedDeferredRequests = s.droppedDeferredRequests := by
  obtain ⟨es, rs, caches, free, d, t, rfl, -⟩ := h
  rfl

theorem executorsManager : s'.executorsManager = s.executorsManager := by
  obtain ⟨es, rs, caches, free, d, t, rfl, -⟩ := h
  rfl

theorem requests : s'.requests = s.requests := by
  obtain ⟨es, rs, caches, free, d, t, rfl, -⟩ := h
  rfl

theorem mem_requestStates : r ∈ s'.requestStates ↔ r ∈ s.requestStates := by
  obtain ⟨es, rs, caches, free, d, t, rfl, hrs⟩ := h
  exact Dict.mem_iff_of_map_eq (hrs r)

theorem ledger (hl : Ledger cfg s) (hcaches : ∀ e ∈ s'.executorStates, e ∈ s'.kvCacheManagers) :
    Ledger cfg s' := by
  obtain ⟨es, rs, caches, free, d, t, rfl, hrs⟩ := h
  refine ⟨?_, ?_, hl.queue, hl.queueNodup, hl.waiting, hl.estimates, hcaches, ?_,
    hl.deferredIndices, hl.minIdx⟩
  · intro r
    rw [Dict.mem_iff_of_map_eq (hrs r)]
    exact hl.known r
  · intro r
    rw [Dict.mem_iff_of_map_eq (hrs r)]
    exact hl.apart r
  · intro r x hx
    obtain ⟨y, hy, hidx⟩ := Dict.exists_of_map_eq (hrs r) hx
    rw [hidx]
    exact hl.indices r y hy

end Reshaped

/-! ## The supply -/

/-- Recomputing the supply can only miss an executor or a profile. -/
theorem ensures_refreshSupply (cfg : Config κ) (s : Scheduler κ) :
    (s.refreshSupply cfg).Ensures (Unprofiled cfg fun _ => False) fun s' =>
      ∃ d t, s' = { s with maxTpDegree := d, throughputSupply := t } := by
  unfold refreshSupply updateThroughputSupply
  rw [ensures_bind]
  apply (ensures_pyMax _).mono
  · rintro err ⟨rfl, -⟩
    exact Unprofiled.of_ne rfl (by simp)
  intro d _
  rw [ensures_bind]
  have hone : ∀ es ∈ s.executorStates.values,
      (subscript cfg.tpDegreeToThroughputSupply .throughputSupply es.tpDegree).Ensures
        (Unprofiled cfg fun _ => False) fun _ => True := by
    intro es _
    rw [ensures_subscript]
    exact ⟨fun _ _ => trivial, fun _ => Unprofiled.of_ne rfl (by simp)⟩
  apply (ensures_mapM_mem _ hone).imp
  intro ts _
  exact ⟨d, _, rfl⟩

/-! ## One executor -/

theorem ensures_addExecutor (h : Refines s π) (hl : Ledger cfg s) (he : e ∉ s.executorStates)
    (hmem : e ∈ s.executorsManager.executors) (hkey : s.executorsManager.Keyed) :
    (s.addExecutor cfg e).Ensures (Unprofiled cfg fun _ => False) fun s' =>
      Refines s' π ∧ Ledger cfg s' ∧ Reshaped s s' ∧ s'.freeReqIds = s.freeReqIds ∧
      ∀ e', e' ∈ s'.executorStates ↔ e' = e ∨ e' ∈ s.executorStates := by
  obtain ⟨x, hx⟩ := (Dict.mem_iff_exists _ _).mp hmem
  have hid : x.id = e := hkey e x hx
  unfold addExecutor
  rw [ensures_bind, ensures_pyAssert]
  refine ⟨fun _ => ?_, fun hf => by simp [he] at hf⟩
  rw [ensures_bind, subscript_of_get? _ hx, ensures_ok]
  apply (ensures_refreshSupply cfg _).imp
  rintro s' ⟨d, t, rfl⟩
  have hreshaped : Reshaped s
      { s with
        executorStates := s.executorStates.set x.id (ExecutorState.ofExecutor x)
        kvCacheManagers := s.kvCacheManagers.set x.id (cfg.kv.create x.id)
        maxTpDegree := d
        throughputSupply := t } := ⟨_, _, _, _, _, _, rfl, fun _ => rfl⟩
  refine ⟨⟨?_, h.located, ?_, h.known, h.ids⟩, hreshaped.ledger hl ?_, hreshaped, rfl, ?_⟩
  · intro e' es hes
    simp only [Dict.get?_set, hid] at hes
    by_cases he' : e' = e
    · rw [if_pos he', Option.some.injEq] at hes
      rw [← hes, he']
      apply ExecutorState.mirrors_ofExecutor
      intro r hr
      exact he (h.hosted r e hr)
    · rw [if_neg he'] at hes
      exact h.executors e' es hes
  · intro r e' hr
    exact (Dict.mem_set _ _ _ _).mpr (Or.inr (h.hosted r e' hr))
  · intro e' he'
    rw [Dict.mem_set] at he' ⊢
    rcases he' with he' | he'
    · exact Or.inl he'
    · exact Or.inr (hl.caches e' he')
  · intro e'
    rw [Dict.mem_set, hid]

theorem ensures_modifyRequestStates (f : RequestState → RequestState) (l : List ReqId)
    (hnodup : l.Nodup) (hmem : ∀ r ∈ l, r ∈ s.requestStates) :
    (l.foldlM (fun (s : Scheduler κ) r => s.modifyRequestState r f) s).Ensures (fun _ => False)
      fun s' => ∃ d, s' = { s with requestStates := d } ∧
        ∀ r, d.get? r = if r ∈ l then (s.requestStates.get? r).map f
          else s.requestStates.get? r := by
  induction l generalizing s with
  | nil => exact ⟨s.requestStates, rfl, fun r => by simp⟩
  | cons r l ih =>
      obtain ⟨hnot, hnodup⟩ := List.nodup_cons.mp hnodup
      obtain ⟨rs, hrs⟩ := (Dict.mem_iff_exists _ _).mp (hmem r List.mem_cons_self)
      rw [List.foldlM_cons, ensures_bind, ensures_modifyRequestState hrs]
      apply (ih hnodup ?_).imp
      · rintro s' ⟨d, rfl, hd⟩
        refine ⟨d, rfl, ?_⟩
        intro r'
        rw [hd]
        by_cases hr' : r' = r
        · simp [hr', hnot, hrs]
        · simp [hr']
      · intro r' hr'
        exact (Dict.mem_set _ _ _ _).mpr (Or.inr (hmem r' (List.mem_cons_of_mem r hr')))

/-- Giving up the record of an executor evicts its requests. -/
theorem ensures_removeExecutor (h : Refines s π) (hl : Ledger cfg s)
    (he : e ∈ s.executorStates) :
    (s.removeExecutor cfg e).Ensures (Unprofiled cfg fun _ => False) fun s' =>
      Refines s' (π.evict (· = e)) ∧ Ledger cfg s' ∧ Reshaped s s' ∧
      (∀ e', s'.freeReqIds.getD e' OrderedSet.empty =
        if e' = e then OrderedSet.empty else s.freeReqIds.getD e' OrderedSet.empty) ∧
      ∀ e', e' ∈ s'.executorStates ↔ e' ≠ e ∧ e' ∈ s.executorStates := by
  obtain ⟨es, hes⟩ := (Dict.mem_iff_exists _ _).mp he
  obtain ⟨m, hm⟩ := (Dict.mem_iff_exists _ _).mp (hl.caches e he)
  have hmir := h.executors e es hes
  have hplaced : ∀ r l, π r = some l → r ∈ s.requestStates :=
    fun r l hr => h.mem_requestStates_iff.mpr ⟨l, hr⟩
  unfold removeExecutor
  rw [ensures_bind, ensures_pyAssert]
  refine ⟨fun _ => ?_, fun hf => by simp [he] at hf⟩
  rw [ensures_bind, subscript_of_get? _ hes, ensures_ok, ensures_bind]
  apply (ensures_modifyRequestStates _ es.reqIds.items es.reqIds.nodup
    fun r hr => hplaced r _ ((hmir.resident r).mp hr)).mono (fun _ hf => hf.elim)
  rintro s' ⟨d, rfl, hd⟩
  rw [ensures_bind, OrderedSet.items_eq_nil hmir.noRemoval, List.foldlM_nil,
    ensures_pure, ensures_bind]
  apply (ensures_modifyRequestStates _ es.pendingRequestAdditions.items
    es.pendingRequestAdditions.nodup ?_).mono (fun _ hf => hf.elim)
  · rintro s' ⟨d', rfl, hd'⟩
    -- what each record has become
    have hget : ∀ r, d'.get? r =
        if π r = some (.running e) then
          (s.requestStates.get? r).map fun rs => rs.removeExecutor.removePendingExecutor
        else if π r = some (.pending e) then
          (s.requestStates.get? r).map RequestState.removePendingExecutor
        else s.requestStates.get? r := by
      intro r
      simp only [hd', hd, ← OrderedSet.mem_def, hmir.pending, hmir.resident]
      by_cases hp : π r = some (.pending e)
      · simp [hp]
      · simp [hp]
    rw [ensures_bind, subscript_of_get? _ (by exact hm : _ = some m), ensures_ok]
    apply (ensures_refreshSupply cfg _).imp
    rintro s' ⟨dg, t, rfl⟩
    have hreshaped : Reshaped s
        { s with
          executorStates := s.executorStates.erase e
          requestStates := d'
          kvCacheManagers := s.kvCacheManagers.erase e
          freeReqIds := s.freeReqIds.erase e
          maxTpDegree := dg
          throughputSupply := t } := by
      refine ⟨_, _, _, _, _, _, rfl, ?_⟩
      intro r
      rw [hget]
      cases s.requestStates.get? r with
      | none => split_ifs <;> rfl
      | some rs => split_ifs <;> rfl
    refine ⟨⟨?_, ?_, ?_, ?_, h.ids⟩, hreshaped.ledger hl ?_, hreshaped, ?_, ?_⟩
    · intro e' es' hes'
      rw [Dict.get?_erase] at hes'
      by_cases he' : e' = e
      · rw [if_pos he'] at hes'
        cases hes'
      · rw [if_neg he'] at hes'
        have hmir' := h.executors e' es' hes'
        have hhost : ∀ r, π.host? r = some e' → (π.host? r).any (· = e) = false := by
          intro r hr
          simp [hr, he']
        refine ⟨?_, ?_, hmir'.noRemoval, ?_⟩
        · intro r
          rw [hmir'.resident, Placement.evict_eq_some_iff (by simp)]
          exact ⟨fun hr => ⟨hr, hhost r (Placement.host?_of_running hr)⟩, fun hr => hr.1⟩
        · intro r
          rw [hmir'.pending, Placement.evict_eq_some_iff (by simp)]
          exact ⟨fun hr => ⟨hr, hhost r (Placement.host?_of_pending hr)⟩, fun hr => hr.1⟩
        · intro r
          rw [hmir'.tokens]
          apply if_congr _ rfl rfl
          rw [Placement.host?_evict]
          simp [he']
    · intro r
      dsimp only
      rw [hget]
      have hloc := h.located r
      by_cases hr : π r = some (.running e)
      · have hev : π.evict (· = e) r = some .unscheduled := by
          simp [Placement.evict, Placement.host?_of_running hr]
        obtain ⟨rs, hrs, hrep⟩ := h.represents hr
        rw [if_pos hr, hev, hrs]
        exact .some hrep.unplace
      · rw [if_neg hr]
        by_cases hp : π r = some (.pending e)
        · have hev : π.evict (· = e) r = some .unscheduled := by
            simp [Placement.evict, Placement.host?_of_pending hp]
          obtain ⟨rs, hrs, hrep⟩ := h.represents hp
          rw [if_pos hp, hev, hrs]
          exact .some hrep.withdraw
        · have hev : π.evict (· = e) r = π r := by
            have hne : (π.host? r).any (· = e) = false := by
              rw [Option.any_eq_false]
              intro e' he'
              have hne : e' ≠ e := by
                rintro rfl
                rcases (Placement.host?_eq_some_iff π r e').mp he' with h' | h'
                · exact hr h'
                · exact hp h'
              simp [hne]
            simp [Placement.evict, hne]
          rw [if_neg hp, hev]
          exact hloc
    · intro r e' hr
      obtain ⟨hr, hne⟩ := Placement.host?_evict.mp hr
      exact (Dict.mem_erase _ _ _).mpr ⟨by simpa using hne, h.hosted r e' hr⟩
    · intro r hr
      exact h.known r (hreshaped.mem_requestStates.mp hr)
    · intro e' he'
      rw [Dict.mem_erase] at he' ⊢
      exact ⟨he'.1, hl.caches e' he'.2⟩
    · intro e'
      dsimp only
      unfold Dict.getD
      rw [Dict.get?_erase]
      by_cases he' : e' = e
      · simp [he']
      · simp [he']
    · intro e'
      exact Dict.mem_erase _ _ _
  · intro r hr
    rw [Dict.mem_iff_exists]
    dsimp only
    obtain ⟨rs, hrs⟩ := (Dict.mem_iff_exists _ _).mp (hplaced r _ ((hmir.pending r).mp hr))
    rw [hd, hrs]
    split_ifs
    · exact ⟨_, rfl⟩
    · exact ⟨_, rfl⟩

/-! ## All executors -/

theorem ensures_updateExecutors (h : Refines s π) (hl : Ledger cfg s)
    (hkey : s.executorsManager.Keyed) :
    (s.updateExecutors cfg).Ensures (Unprofiled cfg fun _ => False) fun s' =>
      Refines s' (π.evict (isGone s.executorsManager)) ∧ Ledger cfg s' ∧ Synced s' ∧
      Reshaped s s' ∧
      (∀ e, e ∈ s'.executorStates →
        s'.freeReqIds.getD e OrderedSet.empty = s.freeReqIds.getD e OrderedSet.empty) ∧
      ∀ e r, r ∈ s'.freeReqIds.getD e OrderedSet.empty →
        r ∈ s.freeReqIds.getD e OrderedSet.empty := by
  unfold updateExecutors
  rw [ensures_bind]
  -- every executor of the manager is recorded or still to be looked at
  refine (ensures_foldlM_rest (E := Unprofiled cfg fun _ => False)
    (fun rest (s' : Scheduler κ) => Refines s' π ∧ Ledger cfg s' ∧ Reshaped s s' ∧
      s'.freeReqIds = s.freeReqIds ∧ (∀ e ∈ rest, e ∈ s.executorsManager.executors) ∧
      ∀ e ∈ s.executorsManager.executors, e ∈ rest ∨ e ∈ s'.executorStates) ?_ _ s
    ⟨h, hl, Reshaped.refl s, rfl, fun _ he => he, fun _ he => Or.inl he⟩).imp ?_
  · rintro s' e rest ⟨h', hl', hr, hf, hsub, hall⟩
    by_cases he : e ∈ s'.executorStates
    · rw [if_pos he, ensures_pure]
      refine ⟨h', hl', hr, hf, fun e' he' => hsub e' (List.mem_cons_of_mem e he'), ?_⟩
      intro e' he'
      rcases hall e' he' with hmem | hmem
      · rcases List.mem_cons.mp hmem with rfl | hmem
        · exact Or.inr he
        · exact Or.inl hmem
      · exact Or.inr hmem
    · rw [if_neg he]
      have hm := hr.executorsManager
      apply (ensures_addExecutor h' hl' he (by rw [hm]; exact hsub e List.mem_cons_self)
        (by rw [hm]; exact hkey)).imp
      rintro s'' ⟨h'', hl'', hr'', hf'', hadd⟩
      refine ⟨h'', hl'', hr.trans hr'', hf''.trans hf,
        fun e' he' => hsub e' (List.mem_cons_of_mem e he'), ?_⟩
      intro e' he'
      rw [hadd]
      rcases hall e' he' with hmem | hmem
      · rcases List.mem_cons.mp hmem with rfl | hmem
        · exact Or.inr (Or.inl rfl)
        · exact Or.inl hmem
      · exact Or.inr (Or.inr hmem)
  rintro s₁ ⟨h₁, hl₁, hr₁, hf₁, -, hall₁⟩
  have hm₁ := hr₁.executorsManager
  have hrecorded : ∀ e, isGone s.executorsManager e = false → e ∈ s₁.executorStates := by
    intro e he
    have hmem : e ∈ s.executorsManager.executors := by
      rw [Dict.mem_iff_exists]
      cases hx : s.executorsManager.executors.get? e with
      | none => simp [isGone, ExecutorsManager.status?, hx] at he
      | some x => exact ⟨x, rfl⟩
    rcases hall₁ e hmem with hnil | hmem
    · cases hnil
    · exact hmem
  -- the executors looked at so far are gone from the records if they are gone
  refine (ensures_foldlM_rest (E := Unprofiled cfg fun _ => False)
    (fun rest (s' : Scheduler κ) => rest.Nodup ∧
      Refines s' (π.evict fun e => isGone s.executorsManager e && decide (e ∉ rest)) ∧
      Ledger cfg s' ∧ Reshaped s s' ∧
      (∀ e, e ∈ s'.executorStates ↔ e ∈ s₁.executorStates ∧
        (isGone s.executorsManager e = false ∨ e ∈ rest)) ∧
      (∀ e ∈ rest, e ∈ s₁.executorStates) ∧
      (∀ e ∈ s'.executorStates,
        s'.freeReqIds.getD e OrderedSet.empty = s.freeReqIds.getD e OrderedSet.empty) ∧
      ∀ e r, r ∈ s'.freeReqIds.getD e OrderedSet.empty →
        r ∈ s.freeReqIds.getD e OrderedSet.empty) ?_ _ s₁
    ⟨s₁.executorStates.nodup_keys, ?_, hl₁, hr₁, ?_, fun _ he => he, ?_, ?_⟩).imp ?_
  · rintro s' e rest ⟨hnodup, h', hl', hr, hkeys, hsub, hf, hless⟩
    obtain ⟨hnot, hnodup⟩ := List.nodup_cons.mp hnodup
    have hm := hr.executorsManager
    cases hg : isGone s.executorsManager e with
    | false =>
        rw [hm, hg, if_neg (by simp), ensures_pure]
        refine ⟨hnodup, ?_, hl', hr, ?_, fun e' he' => hsub e' (List.mem_cons_of_mem e he'), hf,
          hless⟩
        · have hsame : (fun e' => isGone s.executorsManager e' && decide (e' ∉ rest)) =
              fun e' => isGone s.executorsManager e' && decide (e' ∉ e :: rest) := by
            funext e'
            by_cases he' : e' = e
            · simp [he', hg]
            · simp [he']
          rw [hsame]
          exact h'
        · intro e'
          rw [hkeys]
          apply and_congr_right
          intro _
          by_cases he' : e' = e
          · simp [he', hg]
          · simp [he']
    | true =>
        rw [hm, hg, if_pos rfl]
        have hmem : e ∈ s'.executorStates :=
          (hkeys e).mpr ⟨hsub e List.mem_cons_self, Or.inr List.mem_cons_self⟩
        apply (ensures_removeExecutor h' hl' hmem).imp
        rintro s'' ⟨h'', hl'', hr'', hf'', hkeys''⟩
        refine ⟨hnodup, ?_, hl'', hr.trans hr'', ?_,
          fun e' he' => hsub e' (List.mem_cons_of_mem e he'), ?_, ?_⟩
        · have hsame : (fun e' => isGone s.executorsManager e' && decide (e' ∉ rest)) =
              fun e' => (isGone s.executorsManager e' && decide (e' ∉ e :: rest)) ||
                decide (e' = e) := by
            funext e'
            by_cases he' : e' = e
            · simp [he', hg, hnot]
            · simp [he']
          rw [hsame, ← Placement.evict_evict]
          exact h''
        · intro e'
          rw [hkeys'', hkeys]
          by_cases he' : e' = e
          · simp [he', hg, hnot]
          · simp [he']
        · intro e' he'
          obtain ⟨hne, hmem'⟩ := (hkeys'' e').mp he'
          rw [hf'', if_neg hne]
          exact hf e' hmem'
        · intro e' r hr'
          rw [hf''] at hr'
          split_ifs at hr'
          · exact absurd hr' (OrderedSet.not_mem_empty r)
          · exact hless e' r hr'
  · rw [Placement.evict_of_hosts]
    · exact h₁
    · intro r e hr
      simp [← Dict.mem_def, h₁.hosted r e hr]
  · intro e
    rw [Dict.mem_def, iff_self_and]
    exact fun he => Or.inr he
  · intro e _
    rw [hf₁]
  · intro e r hr
    rwa [hf₁] at hr
  · rintro s' ⟨-, h', hl', hr, hkeys, -, hf⟩
    refine ⟨?_, hl', ?_, hr, hf⟩
    · simpa using h'
    · intro e
      rw [hkeys, hr.executorsManager]
      simp only [List.not_mem_nil, or_false]
      constructor
      · rintro ⟨-, he⟩
        unfold isGone at he
        cases hst : s.executorsManager.status? e with
        | none => simp [hst] at he
        | some st => exact ⟨st, rfl, by simpa [hst] using he⟩
      · rintro ⟨st, hst, hne⟩
        have hg : isGone s.executorsManager e = false := by simp [isGone, hst, hne]
        exact ⟨hrecorded e hg, hg⟩

end Scheduler

end TeDiServe

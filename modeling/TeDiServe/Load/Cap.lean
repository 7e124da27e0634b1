import TeDiServe.Load.Control
import TeDiServe.Load.Search

/-!
# The cap of load control

Load control gives every request the index of the highest threshold that it may use.
Stage 6 looks at the index only when it chooses a threshold again, which it does for
the records that are marked dirty. A request that comes to an executor is always
marked: stage 5 marks everything on an executor that gains or loses a request. A
request that stays keeps its threshold unless something else has marked it, and load
control does not. So the cap holds for a call as long as every threshold that may be
used again is within its cap when the call is made.
-/

namespace TeDiServe

def Config.Allows {κ : Type} (cfg : Config κ) (i : ℕ) (c : ℚ) : Prop :=
  c ∈ cfg.candidateConfidenceThresholds ∧
    ∃ cap, cfg.candidateConfidenceThresholds[i]? = some cap ∧ c ≤ cap

/-- The constructor of the scheduler sorts the candidates, the highest one first. -/
def Config.Sorted {κ : Type} (cfg : Config κ) : Prop :=
  cfg.candidateConfidenceThresholds.Pairwise (· ≥ ·)

theorem Config.Sorted.allows_of_mem_drop {κ : Type} {cfg : Config κ} {i : ℕ} {c : ℚ}
    (h : cfg.Sorted) (hc : c ∈ cfg.candidateConfidenceThresholds.drop i) : cfg.Allows i c := by
  have hi : i < cfg.candidateConfidenceThresholds.length := by
    by_contra hle
    rw [List.drop_of_length_le (not_lt.mp hle)] at hc
    cases hc
  refine ⟨List.mem_of_mem_drop hc, _, List.getElem?_eq_getElem hi, ?_⟩
  have hsub : (cfg.candidateConfidenceThresholds.drop i).Pairwise (· ≥ ·) :=
    List.Pairwise.sublist (List.drop_sublist i _) h
  rw [List.drop_eq_getElem_cons hi] at hc hsub
  rcases List.mem_cons.mp hc with rfl | hc
  · exact le_rfl
  · exact (List.pairwise_cons.mp hsub).1 c hc

theorem Config.Sorted.allows_getLast {κ : Type} {cfg : Config κ} {i : ℕ} {c : ℚ}
    (h : cfg.Sorted) (hi : cfg.IdxOk i)
    (hc : cfg.candidateConfidenceThresholds.getLast? = some c) : cfg.Allows i c := by
  have hne : cfg.candidateConfidenceThresholds ≠ [] := by
    intro hnil
    rw [hnil] at hc
    cases hc
  have hdrop : cfg.candidateConfidenceThresholds.drop i ≠ [] := by
    rw [Ne, List.drop_eq_nil_iff, not_le]
    exact hi hne
  apply h.allows_of_mem_drop
  rw [List.getLast?_eq_some_getLast hne, Option.some.injEq] at hc
  rw [← hc, ← List.getLast_drop hdrop]
  exact List.getLast_mem hdrop

namespace Scheduler

variable {κ : Type} {cfg : Config κ} {s s' : Scheduler κ} {π : Placement} {r : ReqId}
  {e : ExecutorId}

/-! ## Stage 6 -/

theorem mem_of_scanThresholds (clock : ℕ → ℚ) (d : ℕ) (batch : List ReqId) (cs : List ℚ) (k : ℕ)
    (best : Option ℚ) :
    (s.scanThresholds cfg clock r d batch cs k best).Ensures (fun _ => True) fun b =>
      ∀ c, b = some c → c ∈ cs ∨ best = some c := by
  induction cs generalizing k best with
  | nil => exact fun c hc => Or.inr hc
  | cons c cs ih =>
      unfold scanThresholds
      apply ensures_bind_any
      intro met
      split_ifs
      · intro c' hc'
        cases hc'
        exact Or.inl List.mem_cons_self
      · apply (ih (k + 1) (some c)).imp
        intro b hb c' hc'
        rcases hb c' hc' with hmem | heq
        · exact Or.inl (List.mem_cons_of_mem c hmem)
        · cases heq
          exact Or.inl List.mem_cons_self

/-- A threshold that is chosen again is within the cap; otherwise it is the stored one. -/
theorem ensures_selectConfidence_allows (hsorted : cfg.Sorted) (clock : ℕ → ℚ)
    {rs : RequestState} (hidx : cfg.IdxOk rs.maxConfidenceThresholdIdx) (d : ℕ)
    (batch : List ReqId) :
    (s.selectConfidence cfg clock rs r d batch).Ensures (fun _ => True) fun b => ∀ c, b = some c →
      cfg.Allows rs.maxConfidenceThresholdIdx c ∨
        rs.confidenceThresholdDirty = false ∧ rs.confidenceThreshold = some c := by
  unfold selectConfidence
  split_ifs with hstale
  · apply ensures_bind_any
    intro possible
    split_ifs
    · apply (mem_of_scanThresholds clock d batch _ 1 none).imp
      intro b hb c hc
      rcases hb c hc with hmem | hnone
      · exact Or.inl (hsorted.allows_of_mem_drop hmem)
      · cases hnone
    · cases hlast : cfg.candidateConfidenceThresholds.getLast? with
      | none => trivial
      | some c =>
          intro c' hc'
          cases hc'
          exact Or.inl (hsorted.allows_getLast hidx hlast)
  · intro c hc
    refine Or.inr ⟨?_, hc⟩
    exact Bool.eq_false_iff.mpr fun hd => hstale (Or.inr hd)

/-- The threshold is a candidate, and if `P` holds it is within the cap of the record
of `r`. -/
def Capped (cfg : Config κ) (P : Prop) (s : Scheduler κ) (r : ReqId) (c : ℚ) : Prop :=
  ∃ rs, s.requestStates.get? r = some rs ∧ c ∈ cfg.candidateConfidenceThresholds ∧
    (P → cfg.Allows rs.maxConfidenceThresholdIdx c)

def Reusable (cfg : Config κ) (P : Prop) (found : List ExecutorId) (e : ExecutorId) (c : ℚ)
    (i : ℕ) : Prop :=
  c ∈ cfg.candidateConfidenceThresholds ∧ (P → e ∈ found → cfg.Allows i c)

structure Fixing (cfg : Config κ) (P : Prop) (found : List ExecutorId) (t : Tables)
    (s : Scheduler κ) : Prop where
  held : Held (Reusable cfg P found) s
  placed : ∀ e ∈ found, ∀ r rs, r ∈ t.numScheduledTokens.getD e Dict.empty →
    s.requestStates.get? r = some rs → rs.executorId = some e
  indices : ∀ r rs, s.requestStates.get? r = some rs → cfg.IdxOk rs.maxConfidenceThresholdIdx

theorem Capped.of_alike {P : Prop} {c : ℚ} (h : Alike s s') (hc : Capped cfg P s' r c) :
    Capped cfg P s r c := by
  obtain ⟨rs', hrs', hc⟩ := hc
  obtain ⟨rs, hrs, -, hidx⟩ := h.record hrs'
  exact ⟨rs, hrs, hidx ▸ hc⟩

def AllDirty (s : Scheduler κ) (e : ExecutorId) : Prop :=
  ∀ r rs, s.requestStates.get? r = some rs → rs.executorId = some e →
    rs.confidenceThresholdDirty = true

/-- What stage 6 does to the records while it makes the message for `e`: those that are
still to come, and those on other executors, are as they were. -/
structure Refreshed (s s' : Scheduler κ) (e : ExecutorId) (rest : List ReqId) : Prop where
  alike : Alike s s'
  same : ∀ r rs, s.requestStates.get? r = some rs → r ∈ rest ∨ rs.executorId ≠ some e →
    s'.requestStates.get? r = some rs

namespace Refreshed

variable {rest : List ReqId}

theorem choose {rs : RequestState} (h : Refreshed s s' e (r :: rest)) (hnot : r ∉ rest)
    (hrs : s.requestStates.get? r = some rs) (he : rs.executorId = some e) (c : ℚ) :
    Refreshed s
      { s' with
        requestStates := s'.requestStates.set r
          { rs with confidenceThreshold := some c, confidenceThresholdDirty := false } }
      e rest := by
  refine ⟨⟨h.alike.executorStates, h.alike.maxTpDegree, h.alike.requests, ?_, h.alike.deferred⟩, ?_⟩
  · intro r'
    rw [Dict.get?_set, ← h.alike.states r']
    split_ifs with hr
    · rw [hr, h.same r rs hrs (Or.inl List.mem_cons_self)]
      rfl
    · rfl
  · intro r' rs' hrs' hkeep
    have hne : r' ≠ r := by
      rintro rfl
      rw [hrs, Option.some.injEq] at hrs'
      exact hkeep.elim hnot fun hne => hne (hrs' ▸ he)
    rw [Dict.get?_set, if_neg hne]
    exact h.same r' rs' hrs' (hkeep.imp_left (List.mem_cons_of_mem r))

theorem allDirty {e' : ExecutorId} (h : Refreshed s s' e rest) (hne : e' ≠ e)
    (hd : AllDirty s e') : AllDirty s' e' := by
  intro r rs' hrs' he'
  obtain ⟨rs, hrs, hexec, -⟩ := h.alike.record hrs'
  rw [he'] at hexec
  have hsame := h.same r rs hrs (Or.inr (by rw [← hexec]; exact fun hc => hne (Option.some.inj hc)))
  rw [hsame, Option.some.injEq] at hrs'
  exact hrs' ▸ hd r rs hrs hexec.symm

end Refreshed

section Stage6

variable {P : Prop} {found : List ExecutorId} {t : Tables}

/-- The thresholds of a message are within the cap, and those of marked records are what
the search gives. -/
theorem ensures_makeOutput_chosen (hsorted : cfg.Sorted) (env : ScheduleEnv) (he : e ∈ found)
    (hheld : Held (Reusable cfg P found) s)
    (hidx : ∀ r rs, s.requestStates.get? r = some rs → cfg.IdxOk rs.maxConfidenceThresholdIdx)
    (hplaced : ∀ r ∈ t.numScheduledTokens.getD e Dict.empty, ∀ rs,
      s.requestStates.get? r = some rs → rs.executorId = some e) :
    (s.makeOutput cfg env t e).Ensures (fun _ => True) fun y =>
      Held (Reusable cfg P found) y.1 ∧ Refreshed s y.1 e [] ∧
      ∀ r c, y.2.confidenceThresholds.get? r = some c → Capped cfg P s r c ∧
        (AllDirty s e → Searched cfg env s e y.2.numScheduledTokens.keys r c) := by
  unfold makeOutput
  dsimp only
  refine ensures_bind_any _ fun new => ensures_bind_any _ fun cached => ?_
  generalize t.numScheduledTokens.getD e Dict.empty = tokens at hplaced ⊢
  refine Except.Ensures.bind (ensures_foldlM_rest (E := fun _ => True)
    (fun rest (x : Scheduler κ × Dict ReqId ℚ) => rest.Nodup ∧ (∀ r ∈ rest, r ∈ tokens) ∧
      Held (Reusable cfg P found) x.1 ∧ Refreshed s x.1 e rest ∧
      ∀ r c, x.2.get? r = some c → Capped cfg P s r c ∧
        (AllDirty s e → Searched cfg env s e tokens.keys r c))
    ?_ tokens.keys (s, Dict.empty) ⟨tokens.nodup_keys, fun _ hr => hr, hheld,
      ⟨Alike.refl s, fun _ _ hrs _ => hrs⟩, fun _ _ hc => by cases hc⟩) ?_
  · rintro x r rest ⟨hnodup, hsub, hheld, hfresh, hall⟩
    obtain ⟨hnot, hnodup⟩ := List.nodup_cons.mp hnodup
    apply (ensures_setConfidence_eq env.clock tokens.keys x r).imp
    rintro _ ⟨rs, es, c, hrs, hes, hsel, rfl⟩
    -- the record of `r` has not been touched before
    obtain ⟨rs₀, hrs₀, -⟩ := hfresh.alike.record hrs
    have hsame := hfresh.same r rs₀ hrs₀ (Or.inl List.mem_cons_self)
    rw [hrs, Option.some.injEq] at hsame
    subst hsame
    have hexec := hplaced r (hsub r List.mem_cons_self) rs hrs₀
    have hcap : c ∈ cfg.candidateConfidenceThresholds ∧
        (P → cfg.Allows rs.maxConfidenceThresholdIdx c) := by
      rcases ensures_of_ok (ensures_selectConfidence_allows hsorted (env.clock r)
        (hidx r rs hrs₀) es.tpDegree tokens.keys) hsel c rfl with hall | ⟨hdirty, hc⟩
      · exact ⟨hall.1, fun _ => hall⟩
      · exact (hheld.active r rs hrs e c hexec hdirty hc).imp_right fun hall hP => hall hP he
    refine ⟨hnodup, fun r' hr' => hsub r' (List.mem_cons_of_mem r hr'), hheld.setActive ?_,
      hfresh.choose hnot hrs₀ hexec c, ?_⟩
    · intro e' c' _ _ hc'
      cases hc'
      exact hcap.imp_right fun hall hP _ => hall hP
    · intro r' c' hc'
      rcases Dict.get?_set_cases hc' with ⟨rfl, rfl⟩ | ⟨-, hc'⟩
      · refine ⟨⟨rs, hrs₀, hcap⟩, fun hd => ?_⟩
        rw [selectConfidence_of_dirty (env.clock r') (hd r' rs hrs₀ hexec)] at hsel
        exact Searched.of_alike hfresh.alike ⟨rs, es, hrs, hes, hsel⟩
      · exact hall r' c' hc'
  · rintro x ⟨-, -, hheld, ⟨halike, hsame⟩, hall⟩
    apply (ensures_updateAfterSchedule_eq x.1 e _).bind
    rintro _ ⟨requests, finished, free, hprog, rfl⟩
    exact ⟨hheld.of_eq rfl rfl rfl rfl, ⟨⟨halike.executorStates, halike.maxTpDegree,
      fun r => (hprog r).trans (halike.requests r), halike.states, halike.deferred⟩, hsame⟩, hall⟩

theorem ensures_stage6_chosen (hsorted : cfg.Sorted) (env : ScheduleEnv)
    (notAccepting : List ExecutorId) (hnodup : found.Nodup) (h : Fixing cfg P found t s) :
    (found.foldlM (issue cfg env notAccepting t) (s, Dict.empty)).Ensures (fun _ => True) fun x =>
      Held (Reusable cfg P found) x.1 ∧ Alike s x.1 ∧
      ∀ e out, x.2.get? e = some out → ∀ r c, out.confidenceThresholds.get? r = some c →
        Capped cfg P s r c ∧
          (AllDirty s e → Searched cfg env s e out.numScheduledTokens.keys r c) := by
  apply (ensures_foldlM_rest (E := fun _ => True)
    (fun rest (x : Scheduler κ × Dict ExecutorId SchedulerOutput) => rest.Nodup ∧
      (∀ e ∈ rest, e ∈ found ∧ (AllDirty s e → AllDirty x.1 e)) ∧
      Held (Reusable cfg P found) x.1 ∧ Alike s x.1 ∧
      ∀ e out, x.2.get? e = some out → ∀ r c, out.confidenceThresholds.get? r = some c →
        Capped cfg P s r c ∧
          (AllDirty s e → Searched cfg env s e out.numScheduledTokens.keys r c))
    ?_ found (s, Dict.empty) ⟨hnodup, fun _ he => ⟨he, id⟩, h.held, Alike.refl s,
      fun _ _ hout => by cases hout⟩).imp
  · exact fun x hx => hx.2.2
  rintro x e rest ⟨hrest, hsub, hheld, halike, hall⟩
  obtain ⟨hnot, hrest⟩ := List.nodup_cons.mp hrest
  obtain ⟨hfound, hdirty⟩ := hsub e List.mem_cons_self
  have hsub' := fun e' he' => hsub e' (List.mem_cons_of_mem e he')
  -- the status of an executor is not part of what is compared
  have hset : ∀ m, Alike s { x.1 with executorsManager := m } := fun m =>
    ⟨halike.executorStates, halike.maxTpDegree, halike.requests, halike.states, halike.deferred⟩
  refine ensures_issue_of env notAccepting
    (fun m => ⟨hrest, hsub', hheld.of_eq rfl rfl rfl rfl, hset m, hall⟩) fun m => ?_
  refine (ensures_makeOutput_chosen (s := { x.1 with executorsManager := m }) hsorted env hfound
    (hheld.of_eq rfl rfl rfl rfl) ?_ ?_).imp ?_
  · intro r rs' hrs'
    obtain ⟨rs, hrs, -, hidx⟩ := halike.record hrs'
    exact hidx ▸ h.indices r rs hrs
  · intro r hr rs' hrs'
    obtain ⟨rs, hrs, hexec, -⟩ := halike.record hrs'
    exact hexec.trans (h.placed e hfound r rs hr hrs)
  · rintro y ⟨hheld', hfresh, hcap⟩
    refine ⟨hrest, fun e' he' => ⟨(hsub' e' he').1, fun hd => ?_⟩, hheld',
      (hset m).trans hfresh.alike, ?_⟩
    · exact hfresh.allDirty (fun heq => hnot (heq ▸ he')) ((hsub' e' he').2 hd)
    · intro e' out hout r c hc
      rcases Dict.get?_set_cases hout with ⟨rfl, rfl⟩ | ⟨-, hout⟩
      · exact (hcap r c hc).imp (Capped.of_alike (hset m)) fun hsearch hd =>
          (hsearch (hdirty hd)).of_alike (hset m)
      · exact hall e' out hout r c hc

end Stage6

/-! ## A call -/

/-- Every threshold that the next call may use again is within its cap: of the requests
on idle executors, those that are above their cap are marked. -/
def CapsMarked (cfg : Config κ) (s : Scheduler κ) : Prop :=
  ∀ r rs e c, s.requestStates.get? r = some rs → rs.executorId = some e →
    (s.executorsManager.status? e = some .idle ∨
      s.executorsManager.status? e = some .idleNotAcceptingNewRequests) →
    rs.confidenceThresholdDirty = false → rs.confidenceThreshold = some c →
    ∃ cap, cfg.candidateConfidenceThresholds[rs.maxConfidenceThresholdIdx]? = some cap ∧ c ≤ cap

abbrev Chosen (cfg : Config κ) : Scheduler κ → Prop :=
  Held fun _ c _ => c ∈ cfg.candidateConfidenceThresholds

theorem Chosen.reusable (h : Chosen cfg s) (hl : Ledger cfg s) {p : Plan κ} {π₁ π₂ : Placement}
    (hp : Readied cfg s π p π₁ π₂) : Held (Reusable cfg (CapsMarked cfg s) p.found) s := by
  refine ⟨?_, ?_, h.marks⟩
  · intro r rs hrs e c he hd hc
    have hmem := h.active r rs hrs e c he hd hc
    refine ⟨hmem, fun hcaps hfound => ⟨hmem, ?_⟩⟩
    exact hcaps r rs e c hrs he (hp.mem_found.mp hfound) hd hc
  · intro r rs hrs
    exact RequestState.stored_of_executorId _ (hl.waiting r rs hrs).executorId

section Course

variable {env : ScheduleEnv} {s₀ s₁ : Scheduler κ} {π₀ π₁ π₂ : Placement} {p : Plan κ}
  {Q : ExecutorId → ℚ → ℕ → Prop}

variable (h : Course cfg env s π s₀ π₀ s₁ π₁ p π₂)
include h

theorem Course.held (hheld : Held Q s) :
    Held Q (s₁.drainStepEstimateUpdates cfg env.predict).considerIdle :=
  h.records (RequestState.closed_stored Q) (fun _ => refreshes_stored Q _) hheld

/-- When stage 6 begins, everything is marked on an executor that a request has come to
or has left. -/
theorem Course.allDirty (hp : Readied cfg s π p π₁ π₂) (hheld : Held Q s)
    (hr : ¬(π₂ r = some (.running e) ↔ π₁ r = some (.running e))) : AllDirty p.scheduler e := by
  have hfound : e ∈ p.found := by
    by_contra hnot
    exact hr (hp.busy r e hnot)
  rcases h.derived with ⟨hnone, -, -⟩ | ⟨q, -, hin, -, hframed, hstage⟩
  · rw [hnone] at hfound
    cases hfound
  obtain ⟨done, hflag, hdone⟩ := flagged_of_inRound hin (h.held hheld).marks hstage
  -- the request was visited, for its executor has changed
  have hnoted : r ∈ q.requestsInSchedulerOutput := by
    by_contra hnot
    have hsame := hin.unnoted r hnot
    apply hr
    rw [← Placement.resident?_eq_some_iff, ← Placement.resident?_eq_some_iff, hsame]
  have hold : (((s₁.requestStates.mapValues RequestState.executorId).get? r).join) = some e ↔
      π₁ r = some (.running e) := by
    rw [Dict.get?_mapValues]
    cases hrs₁ : s₁.requestStates.get? r with
    | none =>
        have hnone := h.refines.located r
        rw [hrs₁] at hnone
        cases hπ : π₁ r with
        | none => simp
        | some l =>
            rw [hπ] at hnone
            cases hnone
    | some rs₁ => exact h.refines.running_iff hrs₁
  have hmem : e ∈ p.scheduler.executorStates :=
    (hp.recorded e).mpr (hp.isGone_of_found hfound)
  have hknown : r ∈ p.scheduler.requestStates :=
    hframed.mem_requestStates.mpr (hin.moved.mem_requestStates.mpr (hin.noted r hnoted).1)
  obtain ⟨rs, hrs⟩ := (Dict.mem_iff_exists _ _).mp hknown
  have hmark := hflag.moved r (hdone r hnoted) rs e hrs
    (fun hiff => hr ((hp.refines.running_iff hrs).symm.trans (hiff.trans hold)))
    (by rw [← hflag.executorStates]; exact hmem)
  intro r' rs' hrs' he'
  have hrun := (hp.refines.running_iff hrs').mp he'
  obtain ⟨x, hx, hmir⟩ := hp.refines.executor (Placement.host?_of_running hrun)
  exact hflag.marked e x hmark hx r'
    (hmir.mem_projected_iff.mpr (Placement.host?_of_running hrun)) rs' hrs'

/-- When stage 6 begins, a threshold on an idle executor that may be used again is one
that could be used again before the call. -/
theorem Course.fixing {P : Prop} (hp : Readied cfg s π p π₁ π₂)
    (hheld : Held (Reusable cfg P p.found) s) : Fixing cfg P p.found p.tables p.scheduler := by
  have hstart := h.held hheld
  refine ⟨?_, ?_, hp.ledger.indices⟩
  · rcases h.derived with ⟨-, -, heq⟩ | ⟨q, hmoves, hin, -, -, hstage⟩
    · rw [heq]
      exact hstart
    obtain ⟨es, states, hq, -⟩ := hin.moved
    obtain ⟨done, hflag, -⟩ := flagged_of_inRound hin (h.held hheld).marks hstage
    refine ⟨?_, ?_, hflag.marks⟩
    · intro r rs' hrs'
      obtain ⟨rs, hrs, hk⟩ := hflag.active r rs' hrs'
      cases he : rs.executorId with
      | none =>
          apply RequestState.stored_of_executorId
          rw [hk.executorId, he]
      | some e =>
          have hrun := (hin.refines.running_iff hrs).mp he
          by_cases hstay : π₁ r = some (.running e)
          · -- the record was not touched by the round
            rw [hmoves.stays hstay hrun] at hrs
            exact (hstart.active r rs hrs).keep hk
          · -- the request has come to the executor, which is marked
            apply RequestState.stored_of_dirty
            exact h.allDirty hp hheld (fun hiff => hstay (hiff.mp hrun)) r rs' hrs'
              (hk.executorId.trans he)
    · intro r rs' hrs'
      obtain ⟨rs, hrs, hk⟩ := hflag.deferred r rs' hrs'
      rw [hq] at hrs
      exact (hstart.deferred r rs hrs).keep hk
  · intro e he r rs hr hrs
    exact (hp.refines.running_iff hrs).mpr (((hp.tables e he).tokens r).mp hr)

end Course

theorem ensures_schedule_capped (hsorted : cfg.Sorted) (env : ScheduleEnv) (h : Refines s π)
    (hl : Ledger cfg s) (hkey : s.executorsManager.Keyed) (hchosen : Chosen cfg s) :
    (s.schedule cfg env).Ensures (fun _ => True) fun x => Chosen cfg x.1 ∧
      ∀ e out r c, x.2.get? e = some out → out.confidenceThresholds.get? r = some c →
        Capped cfg (CapsMarked cfg s) x.1 r c := by
  apply (ensures_schedule_course env h hl hkey).mono (fun _ _ => trivial)
  rintro ⟨s', outs⟩ ⟨p, π₁, π₂, outs', hp, hr, hflush, ⟨s₀, π₀, s₁, hcourse⟩, hloop⟩
  dsimp only at hflush hloop ⊢
  have hfix := hcourse.fixing hp (hchosen.reusable hl hp)
  obtain ⟨hheld, halike, hsent⟩ := ensures_of_ok (ensures_stage6_chosen hsorted env
    p.idleNotAcceptingExecutors hp.nodup_found hfix) hloop
  refine ⟨hheld.mono fun _ _ h e c he hd hc => (h e c he hd hc).1, ?_⟩
  intro e out r c hout hc
  rw [hflush] at hout
  rcases get?_flush hout with hout | ⟨-, -, hnone⟩
  · exact (hsent e out hout r c hc).1.of_alike halike.symm
  · rw [hnone] at hc
    cases hc

end Scheduler

/-! ## Runs -/

namespace Calls

open Scheduler

variable {κ : Type} {cfg : Config κ} {t t' : Calls κ} {c : Call}

theorem Reachable.chosen {allowed : Calls κ → Call → Prop} (hsorted : cfg.Sorted)
    (h : Reachable cfg allowed t) : Chosen cfg t.scheduler := by
  apply h.invariant
  · exact fun t ht => records_of_init (RequestState.closed_stored _) nofun ht
  · intro t c t' hr ht hstep
    have hcons := Reachable.consistent hr
    obtain ⟨π, hπ⟩ := hcons.refines
    have hnext := ensures_next_records cfg (RequestState.closed_stored fun _ c _ =>
      c ∈ cfg.candidateConfidenceThresholds) (fun _ _ _ hrs => hrs) (fun _ _ hrs => hrs) ht c
        ?_ ?_ ?_
    · rw [hstep.2.2] at hnext
      exact hnext
    · exact fun req _ => RequestState.stored_of_executorId _ rfl
    · exact fun env _ =>
        (ensures_schedule_capped hsorted env hπ hcons.ledger hcons.keyed ht).imp fun x hx => hx.1
    · exact fun predict _ => refreshes_stored _ predict

/-- In every state of every run, a call that is made while every threshold that it may
use again is within its cap sends thresholds only that are candidates within the cap of
their request. -/
theorem cap_enforced (cfg : Config κ) (hsorted : cfg.Sorted)
    {allowed : Calls κ → Call → Prop} (h : Reachable cfg allowed t)
    (hcaps : t.scheduler.CapsMarked cfg) {env : ScheduleEnv} {s' : Scheduler κ}
    {outs : Dict ExecutorId SchedulerOutput}
    (hs : t.scheduler.schedule cfg env = .ok (s', outs)) :
    ∀ e out r c, outs.get? e = some out → out.confidenceThresholds.get? r = some c →
      ∃ rs cap, s'.requestStates.get? r = some rs ∧ c ∈ cfg.candidateConfidenceThresholds ∧
        cfg.candidateConfidenceThresholds[rs.maxConfidenceThresholdIdx]? = some cap ∧
        c ≤ cap := by
  intro e out r c hout hc
  have hcons := Reachable.consistent h
  obtain ⟨π, hπ⟩ := hcons.refines
  obtain ⟨-, hsent⟩ := ensures_of_ok (ensures_schedule_capped hsorted env hπ hcons.ledger
    hcons.keyed (Reachable.chosen hsorted h)) hs
  obtain ⟨rs, hrs, hmem, hall⟩ := hsent e out r c hout hc
  obtain ⟨-, cap, hcap, hle⟩ := hall hcaps
  exact ⟨rs, cap, hrs, hmem, hcap, hle⟩

theorem capsMarked_of_entries
    (h : ∀ x ∈ t.scheduler.requestStates.entries, ∀ c ∈ x.2.confidenceThreshold,
      ∃ cap ∈ cfg.candidateConfidenceThresholds[x.2.maxConfidenceThresholdIdx]?, c ≤ cap) :
    t.scheduler.CapsMarked cfg := by
  intro r rs e c hrs _ _ _ hc
  obtain ⟨cap, hcap, hle⟩ := h (r, rs) ((Dict.mem_entries_iff _ _ _).mpr hrs) c hc
  exact ⟨cap, hcap, hle⟩

/-- Two thresholds, and a supply that is too low for a request at the higher one. -/
def cappedConfig : Config Unit :=
  { loadedConfig with
    requestLatencySlo := 15
    getInitialDefaultPredictions := fun _ => (Dict.empty.set (9 / 10) 4).set (1 / 2) 2 }

/-- Without load control the threshold of a step is used again for the next one, and it
is within the cap. -/
theorem cap_enforced_small : ∃ t : Calls Unit, ∃ s' outs,
    Reachable cappedConfig UniqueIds t ∧ t.scheduler.CapsMarked cappedConfig ∧
    t.scheduler.schedule cappedConfig .still = .ok (s', outs) ∧
    (outs.get? 0).bind (fun out => out.confidenceThresholds.get? "a") = some (9 / 10) ∧
    ∀ e out r c, outs.get? e = some out → out.confidenceThresholds.get? r = some c →
      ∃ rs cap, s'.requestStates.get? r = some rs ∧
        c ∈ cappedConfig.candidateConfidenceThresholds ∧
        cappedConfig.candidateConfidenceThresholds[rs.maxConfidenceThresholdIdx]? = some cap ∧
        c ≤ cap := by
  obtain ⟨t, hreach, hentries, hsent⟩ := exists_of_ensures
    (reachable_of_replay cappedConfig uniqueIds_of_uniqueIds? [(0, [0])]
      [.addRequest (Request.small "a"), .schedule .still, .startExecution 0,
        .finishExecution 0 ⟨Dict.empty.set "a" 0, [[(1, 7)]]⟩, .updateFromOutput 0])
    (Q := fun t => (∀ x ∈ t.scheduler.requestStates.entries, ∀ c ∈ x.2.confidenceThreshold,
        ∃ cap ∈ cappedConfig.candidateConfidenceThresholds[x.2.maxConfidenceThresholdIdx]?,
          c ≤ cap) ∧
      (t.scheduler.schedule cappedConfig .still).Ensures (fun _ => False) fun x =>
        (x.2.get? 0).bind (fun out => out.confidenceThresholds.get? "a") = some (9 / 10))
    (by decide +kernel)
  have hsorted : cappedConfig.Sorted := by
    unfold Config.Sorted
    decide +kernel
  obtain ⟨⟨s', outs⟩, hs, hout⟩ := hsent.exists_ok
  have hcaps := capsMarked_of_entries hentries
  exact ⟨t, s', outs, hreach, hcaps, hs, hout, cap_enforced cappedConfig hsorted hreach hcaps hs⟩

/-! ## A cap that is not met -/

def loadControl (cfg : Config κ) (now : ℚ) (t : Calls κ) : Except PyError (Calls κ) := do
  let s ← t.scheduler.updateRequestMaxConfidenceThresholds cfg now
  pure { t with scheduler := s }

theorem ensures_loadControl (hne : cfg.candidateConfidenceThresholds ≠ [])
    (h : Reachable cfg UniqueIds t) (now : ℚ) :
    (t.loadControl cfg now).Ensures (fun _ => True) (Reachable cfg UniqueIds) := by
  have happ : t.scheduler.Apart := (Reachable.consistent h).ledger.apart
  have hpos := List.length_pos_of_ne_nil hne
  unfold loadControl
  apply (ensures_updateRequestMaxConfidenceThresholds happ).bind_any
  rintro s' ⟨order, idx, m, rfl, -, -, -, hm, hidx⟩
  unfold lowestIdx at hm hidx
  apply h.next (a := .controlLoad idx m)
  refine ⟨⟨?_, ?_⟩, trivial, rfl⟩
  · intro r i hi
    have hle := hidx r i hi
    omega
  · omega

def cappedStart : Except PyError (Calls Unit) :=
  replay cappedConfig uniqueIds? [(0, [0])] [.addRequest (Request.small "a"), .schedule .still]

def cappedRun : Except PyError (Calls Unit) := do
  let t ← cappedStart
  let t ← t.loadControl cappedConfig 0
  proceed cappedConfig uniqueIds? [.startExecution 0,
    .finishExecution 0 ⟨Dict.empty.set "a" 0, [[(1, 7)]]⟩, .updateFromOutput 0] t

/-- The next message has the higher threshold again. -/
theorem cap_exceeded : cappedConfig.Sorted ∧ ∃ t,
    Reachable cappedConfig UniqueIds t ∧ cappedRun = .ok t ∧
    (t.scheduler.schedule cappedConfig .still).Ensures (fun _ => False) fun x =>
      (x.2.get? 0).bind (fun out => out.confidenceThresholds.get? "a") = some (9 / 10) ∧
      (x.1.requestStates.get? "a").bind (fun rs =>
        cappedConfig.candidateConfidenceThresholds[rs.maxConfidenceThresholdIdx]?) =
          some (1 / 2) := by
  have hrun : cappedRun.Ensures (fun _ => False) fun t =>
      (t.scheduler.schedule cappedConfig .still).Ensures (fun _ => False) fun x =>
        (x.2.get? 0).bind (fun out => out.confidenceThresholds.get? "a") = some (9 / 10) ∧
        (x.1.requestStates.get? "a").bind (fun rs =>
          cappedConfig.candidateConfidenceThresholds[rs.maxConfidenceThresholdIdx]?) =
            some (1 / 2) := by
    decide +kernel
  have hreach : cappedRun.Ensures (fun _ => True) (Reachable cappedConfig UniqueIds) := by
    unfold cappedRun cappedStart
    apply (reachable_of_replay _ uniqueIds_of_uniqueIds? _ _).bind
    intro t ht
    apply (ensures_loadControl (List.cons_ne_nil _ _) ht 0).bind
    exact fun t ht => reachable_of_proceed uniqueIds_of_uniqueIds? _ ht
  obtain ⟨t, ht, hstate⟩ := hrun.exists_ok
  refine ⟨?_, t, ensures_of_ok hreach ht, ht, hstate⟩
  unfold Config.Sorted
  decide +kernel

end Calls

end TeDiServe

import TeDiServe.Protocol.Run

/-!
# The busy loop while executors are killed

A `kill_executor` first sets a flag and then waits until the executor is idle. The
processing of a result reads the flag: with caching, an executor that still has
requests is not given back as idle, so that it takes no new ones and the kill goes on
waiting.

`Drains` says what keeps an executor with a killer apart from the requests, along with
the placement behind the scheduler. It does not need the in-flight protocol, so it also
covers the runs in which the message for dropped requests reaches a busy executor. Every
transition of the busy loop keeps it.
-/

namespace TeDiServe

def Phase.rest {κ : Type} : Phase κ → List ExecutorId
  | .issuing _ _ _ rest _ => rest
  | _ => []

def Placement.Vacates (π : Placement) (e : ExecutorId) : Prop :=
  ∀ r, π.host? r ≠ some e

theorem Placement.Vacates.not_running {π : Placement} {e : ExecutorId} (h : π.Vacates e)
    (r : ReqId) : π r ≠ some (.running e) :=
  fun hr => h r (host?_of_running hr)

namespace Scheduler

variable {κ : Type} {s : Scheduler κ} {π : Placement} {e : ExecutorId} {es : ExecutorState}

theorem Refines.isDrained_iff (h : Refines s π) (hes : s.executorStates.get? e = some es) :
    es.isDrained = true ↔ π.Vacates e := by
  have hmir := h.executors e es hes
  unfold ExecutorState.isDrained
  rw [Bool.and_eq_true, Bool.and_eq_true, OrderedSet.isEmpty_iff, OrderedSet.isEmpty_iff,
    OrderedSet.isEmpty_iff]
  constructor
  · rintro ⟨⟨hres, hpend⟩, -⟩ r hr
    rcases (Placement.host?_eq_some_iff π r e).mp hr with hr | hr
    · exact hres r ((hmir.resident r).mpr hr)
    · exact hpend r ((hmir.pending r).mpr hr)
  · intro hv
    refine ⟨⟨?_, ?_⟩, hmir.noRemoval⟩
    · intro r hr
      exact hv r (Placement.host?_of_running ((hmir.resident r).mp hr))
    · intro r hr
      exact hv r (Placement.host?_of_pending ((hmir.pending r).mp hr))

theorem Refines.vacates_of_not_mem (h : Refines s π) (he : e ∉ s.executorStates) :
    π.Vacates e :=
  fun r hr => he (h.hosted r e hr)

theorem isGone_of_status {m : ExecutorsManager} {e : ExecutorId}
    (h : m.status? e = none ∨ m.status? e = some .killing) : isGone m e = true := by
  unfold isGone
  rcases h with h | h
  · rw [h]
  · simp [h]

/-- A round leaves no executor idle, and it considers no executor that is killing. -/
theorem map_considered (o : Option TeDiServe.ExecutorStatus) :
    o.map ExecutorStatus.considered ≠ some .idle ∧
      o.map ExecutorStatus.considered ≠ some .idleNotAcceptingNewRequests ∧
      (o.map ExecutorStatus.considered = some .killing → o = some .killing) := by
  cases o with
  | none => simp
  | some st => cases st <;> simp [ExecutorStatus.considered]

end Scheduler

namespace Loop

open Scheduler

variable {κ : Type} {cfg : Config κ} {t t' : Loop κ} {e : ExecutorId} {π π' : Placement}

def isMarked (t : Loop κ) (e : ExecutorId) : Prop :=
  t.scheduler.executorsManager.waitingToBeKilled.get? e = some true

structure KillAt (t : Loop κ) (π : Placement) (e : ExecutorId) : Prop where
  rest : e ∈ t.phase.rest → e ∉ t.shuttingDown ∧ ∃ st, t.status? e = some st ∧ st ≠ .idle
  marked : t.status? e = some .idle → t.isMarked e → π.Vacates e
  killing : t.status? e = some .killing → π.Vacates e
  shuttingDown : e ∈ t.shuttingDown → (∀ r, π r ≠ some (.running e)) ∧
    t.status? e ≠ some .idle ∧ t.status? e ≠ some .idleNotAcceptingNewRequests
  gone : t.status? e = none → ∀ r, π r ≠ some (.running e)
  waiting : e ∈ t.waitingKillers → t.status? e = none ∨ t.isMarked e
  used : t.status? e ≠ none ∨ e ∈ t.waitingKillers ∨ e ∈ t.shuttingDown →
    e ∈ t.scheduler.executorsManager.usedExecutorIds

theorem KillAt.of_eq (h : KillAt t π e) (hst : t'.status? e = t.status? e)
    (hmark : t'.isMarked e ↔ t.isMarked e) (hrest : e ∈ t'.phase.rest → e ∈ t.phase.rest)
    (hshut : e ∈ t'.shuttingDown → e ∈ t.shuttingDown)
    (hwait : e ∈ t'.waitingKillers → e ∈ t.waitingKillers)
    (hused : e ∈ t.scheduler.executorsManager.usedExecutorIds →
      e ∈ t'.scheduler.executorsManager.usedExecutorIds)
    (hsub : ∀ r l, l ≠ .unscheduled → π' r = some l → π r = some l) : KillAt t' π' e := by
  have hrun : (∀ r, π r ≠ some (.running e)) → ∀ r, π' r ≠ some (.running e) :=
    fun hno r hrun => hno r (hsub r _ (by simp) hrun)
  have hvac : π.Vacates e → π'.Vacates e := by
    intro hv r hhost
    rcases (Placement.host?_eq_some_iff π' r e).mp hhost with hloc | hloc
    · exact hv r (Placement.host?_of_running (hsub r _ (by simp) hloc))
    · exact hv r (Placement.host?_of_pending (hsub r _ (by simp) hloc))
  refine ⟨?_, ?_, ?_, ?_, ?_, ?_, ?_⟩ <;> rw [hst]
  · exact fun hin => (h.rest (hrest hin)).imp_left fun hno hs => hno (hshut hs)
  · exact fun hidle hm => hvac (h.marked hidle (hmark.mp hm))
  · exact fun hk => hvac (h.killing hk)
  · exact fun hs => (h.shuttingDown (hshut hs)).imp_left hrun
  · exact fun hnone => hrun (h.gone hnone)
  · exact fun hw => (h.waiting (hwait hw)).imp_right hmark.mpr
  · exact fun hk => hused (h.used (hk.imp_right (Or.imp hwait hshut)))

theorem KillAt.of_others (h : ∀ e, KillAt t π e) (he : KillAt t' π e)
    (hst : ∀ e', e' ≠ e → t'.status? e' = t.status? e')
    (hmark : ∀ e', e' ≠ e → (t'.isMarked e' ↔ t.isMarked e'))
    (hrest : ∀ e' ∈ t'.phase.rest, e' ∈ t.phase.rest)
    (hshut : ∀ e' ∈ t'.shuttingDown, e' ≠ e → e' ∈ t.shuttingDown)
    (hwait : ∀ e' ∈ t'.waitingKillers, e' ≠ e → e' ∈ t.waitingKillers)
    (hused : ∀ e' ∈ t.scheduler.executorsManager.usedExecutorIds,
      e' ∈ t'.scheduler.executorsManager.usedExecutorIds) (e' : ExecutorId) : KillAt t' π e' := by
  by_cases heq : e' = e
  · rw [heq]
    exact he
  · exact (h e').of_eq (hst e' heq) (hmark e' heq) (hrest e') (fun hs => hshut e' hs heq)
      (fun hw => hwait e' hw heq) (hused e') fun _ _ _ hl => hl

/-- The placement `π` is behind the scheduler, also in the middle of stage 6, and the
kills are in order. -/
structure Drains (cfg : Config κ) (t : Loop κ) (π : Placement) : Prop where
  refines : Refines t.scheduler π
  ledger : Ledger cfg t.scheduler
  keyed : t.scheduler.executorsManager.Keyed
  issuing : ∀ start env p rest outs, t.phase = .issuing start env p rest outs →
    ∃ s₀ π₀ π₁, Readied cfg s₀ π₀ p π₁ π ∧ Issuing cfg p π₁ π rest t.scheduler outs
  kills : ∀ e, KillAt t π e

def Stays (cfg : Config κ) (t t' : Loop κ) (π π' : Placement) : Prop :=
  ∀ r req e, t.scheduler.requests.get? r = some req → canMigrate cfg req = false →
    π r = some (.running e) → r ∈ t'.scheduler.requests → π' r = some (.running e)

theorem Stays.same (cfg : Config κ) (t t' : Loop κ) (π : Placement) : Stays cfg t t' π π :=
  fun _ _ _ _ _ hr _ => hr

/-! ## The busy loop between two rounds -/

/-- The busy loop leaves stage 6 or is not there, and requests leave executors only. -/
theorem Drains.move (h : Drains cfg t π)
    (hnot : ∀ start env p rest outs, t'.phase ≠ .issuing start env p rest outs)
    (hman : t'.scheduler.executorsManager = t.scheduler.executorsManager)
    (hshut : t'.shuttingDown = t.shuttingDown) (hwait : t'.waitingKillers = t.waitingKillers)
    (hr : Refines t'.scheduler π') (hl : Ledger cfg t'.scheduler)
    (hsub : ∀ r l, l ≠ .unscheduled → π' r = some l → π r = some l) : Drains cfg t' π' := by
  refine ⟨hr, hl, hman ▸ h.keyed,
    fun start env p rest outs hp => absurd hp (hnot start env p rest outs), fun e =>
      (h.kills e).of_eq ?_ ?_ ?_ (by rw [hshut]; exact id) (by rw [hwait]; exact id) ?_ hsub⟩
  · unfold status?
    rw [hman]
  · unfold isMarked
    rw [hman]
  · cases hp : t'.phase with
    | issuing start env p rest outs => exact absurd hp (hnot start env p rest outs)
    | _ => exact fun he => absurd he List.not_mem_nil
  · rw [hman]
    exact id

theorem Drains.proceed (h : Drains cfg t π)
    (hnot : ∀ start env p rest outs, t'.phase ≠ .issuing start env p rest outs)
    (hs : t'.scheduler = t.scheduler) (hshut : t'.shuttingDown = t.shuttingDown)
    (hwait : t'.waitingKillers = t.waitingKillers) :
    Drains cfg t' π ∧ Stays cfg t t' π π := by
  refine ⟨?_, Stays.same cfg t t' π⟩
  refine h.move hnot (by rw [hs]) hshut hwait ?_ ?_ fun _ _ _ hl => hl
  · rw [hs]
    exact h.refines
  · rw [hs]
    exact h.ledger

theorem Drains.ensures_addRequest (h : Drains cfg t π) (req : Request) :
    (t.addRequest cfg req).Ensures (fun _ => True) fun t' =>
      ∃ π', Drains cfg t' π' ∧ Stays cfg t t' π π' := by
  unfold addRequest
  split
  · next hphase =>
    split_ifs with hnew
    · trivial
    · rw [ensures_bind, ensures_raising]
      apply (Scheduler.ensures_addRequest h.refines h.ledger hnew).mono (fun _ _ => trivial)
      rintro s ⟨π', hr, hl, hext, hen, -⟩
      refine ⟨π', h.move ?_ hen.executorsManager rfl rfl hr hl ?_, ?_⟩
      · intro start env p rest outs hp
        rw [hphase] at hp
        cases hp
      · exact fun r l hl' hloc => (hext.eq_some_iff hl').mp hloc
      · intro r _ e _ _ hrun _
        exact (hext.eq_some_iff (by simp)).mpr hrun
  · trivial

theorem location_of_aborted {s s' : Scheduler κ} {ids : List ReqId} {r : ReqId} {l : Loc}
    (ha : Aborted cfg s π ids s' π') (hl : l ≠ .unscheduled) (hloc : π' r = some l) :
    π r = some l := by
  have hnot : r ∉ ids := by
    intro hmem
    obtain ⟨req, hreq, -⟩ := ha.refines.request hloc
    exact ha.gone r hmem (Dict.mem_of_get? hreq)
  cases hold : π r with
  | none =>
      rcases ha.admitted r hold with hnone | ⟨-, huns⟩
      · rw [hnone] at hloc
        cases hloc
      · rw [huns, Option.some.injEq] at hloc
        exact absurd hloc.symm hl
  | some l' => exact (ha.kept r hnot l' hold).symm.trans hloc

section

variable (h : Drains cfg t π)
include h

theorem Drains.ensures_abortRequests (ids : List ReqId) (clock : ReqId → ℚ) :
    (t.abortRequests cfg ids clock).Ensures (fun _ => True) fun t' =>
      ∃ π', Drains cfg t' π' ∧ Stays cfg t t' π π' := by
  unfold abortRequests
  split
  · next hphase =>
    rw [ensures_bind, ensures_raising]
    apply (ensures_finishRequests clock h.refines h.ledger rfl (.many ids)).mono
      (fun _ _ => trivial)
    rintro s ⟨-, π', ha⟩
    refine ⟨π', h.move ?_ ha.manager rfl rfl ha.refines ha.ledger ?_, ?_⟩
    · intro start env p rest outs hp
      rw [hphase] at hp
      cases hp
    · exact fun r l hl hloc => location_of_aborted ha hl hloc
    · intro r _ e _ _ hrun hknown
      have hnot : r ∉ RequestIds.ids (.many ids) := fun hin => ha.gone r hin hknown
      exact ha.kept r hnot _ hrun
  · trivial

theorem Drains.ensures_refreshEstimates (predict : ReqId → ℚ → ℚ) :
    (t.refreshEstimates cfg predict).Ensures (fun _ => True) fun t' =>
      ∃ π', Drains cfg t' π' ∧ Stays cfg t t' π π' := by
  unfold refreshEstimates
  split
  · next hphase =>
    have hs := soft_processStepEstimateUpdates cfg predict t.scheduler
    refine ⟨π, h.move ?_ hs.executorsManager rfl rfl (hs.framed.refines h.refines)
      (h.ledger.of_kept hs.framed.kept) fun _ _ _ hl => hl, Stays.same _ _ _ _⟩
    intro start env p rest outs hp
    rw [hphase] at hp
    cases hp
  · trivial

theorem Drains.ensures_controlLoad (idx : Dict ReqId ℕ) (minIdx : ℕ) :
    (t.controlLoad cfg idx minIdx).Ensures (fun _ => True) fun t' =>
      ∃ π', Drains cfg t' π' ∧ Stays cfg t t' π π' := by
  unfold controlLoad
  split
  · next hphase =>
    split_ifs with hidx
    · refine ⟨π, h.move ?_ rfl rfl rfl (h.refines.controlLoad idx.get? minIdx)
        (h.ledger.controlLoad ?_ fun _ => hidx.2) fun _ _ _ hl => hl, Stays.same _ _ _ _⟩
      · intro start env p rest outs hp
        rw [hphase] at hp
        cases hp
      · intro r i hi _
        exact hidx.1 (r, i) ((Dict.mem_entries_iff _ _ _).mpr hi)
    · trivial
  · trivial

theorem Drains.ensures_collect :
    (t.collect cfg).Ensures (fun _ => True) fun t' =>
      ∃ π', Drains cfg t' π' ∧ Stays cfg t t' π π' := by
  unfold collect
  split
  · next b y ys hphase hq =>
    split_ifs
    · trivial
    apply ensures_bind_any
    intro m
    rw [ensures_bind, ensures_raising]
    apply (ensures_applyOutput m.content y.output h.refines h.ledger).imp
    rintro ⟨s, outs⟩ ⟨done, π', -, ha, -⟩
    refine ⟨π', h.move ?_ ha.manager rfl rfl ha.refines ha.ledger ?_, ?_⟩
    · intro start env p rest outs' hp
      cases hp
    · intro r l _ hloc
      rcases ha.placement r with heq | ⟨-, hnone, -⟩
      · rw [← heq]
        exact hloc
      · rw [hnone] at hloc
        cases hloc
    · intro r _ e _ _ hrun hknown
      exact location_of_applied h.ledger h.refines ha hrun hknown
  · trivial

/-! ## A round -/

/-- The executors found idle have no killer that shuts them down, and no executor stays
idle. The executors that are gone had no residents, so nobody is evicted. -/
theorem Drains.ensures_beginSchedule (env : ScheduleEnv) :
    (t.beginSchedule cfg env).Ensures (fun _ => True) fun t' =>
      ∃ π', Drains cfg t' π' ∧ Stays cfg t t' π π' := by
  unfold beginSchedule
  split
  · rw [ensures_bind, ensures_raising]
    apply (ensures_prepare env h.refines h.ledger h.keyed).mono (fun _ _ => trivial)
    rintro p ⟨π₁, π₂, hr⟩
    have hst : ∀ e, p.scheduler.executorsManager.status? e =
        (t.status? e).map Scheduler.ExecutorStatus.considered := hr.status
    have hmark : ∀ e, p.scheduler.executorsManager.waitingToBeKilled.get? e =
        t.scheduler.executorsManager.waitingToBeKilled.get? e := by
      intro e
      rw [hr.manager]
      rfl
    have hvac : ∀ e, t.status? e = none ∨ t.status? e = some .killing → π₂.Vacates e := by
      intro e hgone
      apply hr.refines.vacates_of_not_mem
      rw [hr.recorded, isGone_of_status hgone]
      simp
    refine ⟨π₂, ⟨hr.refines, hr.ledger, hr.keyed h.keyed, ?_,
      fun e => ⟨?_, ?_, ?_, ?_, ?_, ?_, ?_⟩⟩, ?_⟩
    · intro start env' p' rest outs hp
      cases hp
      exact ⟨t.scheduler, π, π₁, hr, Issuing.start cfg p π₁ π₂ hr.nodup_found⟩
    · intro he
      have hidle := hr.mem_found.mp he
      constructor
      · intro hshut
        obtain ⟨-, h1, h2⟩ := (h.kills e).shuttingDown hshut
        exact hidle.elim h1 h2
      · refine ⟨.consideredForScheduling, (hst e).trans ?_, by simp⟩
        rcases hidle with hs | hs
        · rw [show t.status? e = some .idle from hs]
          rfl
        · rw [show t.status? e = some .idleNotAcceptingNewRequests from hs]
          rfl
    · exact fun hidle => absurd ((hst e).symm.trans hidle) (map_considered _).1
    · exact fun hk => hvac e (Or.inr ((map_considered _).2.2 ((hst e).symm.trans hk)))
    · intro he
      obtain ⟨hno, h1, h2⟩ := (h.kills e).shuttingDown he
      have hnot : e ∉ p.found := fun hf => (hr.mem_found.mp hf).elim h1 h2
      refine ⟨?_, ?_, ?_⟩
      · intro r hrun
        rw [hr.busy r e hnot, hr.resident] at hrun
        exact hno r hrun.1
      · exact fun hs => (map_considered _).1 ((hst e).symm.trans hs)
      · exact fun hs => (map_considered _).2.1 ((hst e).symm.trans hs)
    · intro hnone
      have hnone' := (hst e).symm.trans hnone
      exact (hvac e (Or.inl (Option.map_eq_none_iff.mp hnone'))).not_running
    · intro he
      rcases (h.kills e).waiting he with hnone | hm
      · refine Or.inl ((hst e).trans ?_)
        rw [hnone]
        rfl
      · exact Or.inr ((hmark e).trans hm)
    · intro he
      change e ∈ p.scheduler.executorsManager.usedExecutorIds
      rw [hr.manager]
      refine (h.kills e).used (he.imp_left fun hne hnone => hne ((hst e).trans ?_))
      rw [hnone]
      rfl
    · intro r req e hreq hcan hrun _
      apply hr.pinned r req e hreq hcan
      rw [hr.resident]
      refine ⟨hrun, ?_⟩
      by_contra hgone
      rw [Bool.not_eq_false] at hgone
      unfold isGone at hgone
      cases hs : t.scheduler.executorsManager.status? e with
      | none => exact (h.kills e).gone hs r hrun
      | some st =>
          rw [hs] at hgone
          have hk : st = .killing := of_decide_eq_true hgone
          rw [hk] at hs
          exact ((h.kills e).killing hs).not_running r hrun
  · trivial

end

/-! ## The status of one executor -/

/-- One executor gets another status: an idle one is not being shut down and, if it is
marked, has no requests; a killing one has no requests. -/
theorem KillAt.set_status {st : ExecutorStatus} (h : ∀ e, KillAt t π e)
    (hst : ∀ e', t'.status? e' = if e' = e then some st else t.status? e')
    (hne : t.status? e ≠ none)
    (hflag : t'.scheduler.executorsManager.waitingToBeKilled =
      t.scheduler.executorsManager.waitingToBeKilled)
    (hused : t'.scheduler.executorsManager.usedExecutorIds =
      t.scheduler.executorsManager.usedExecutorIds)
    (hrest : ∀ e' ∈ t'.phase.rest, e' ∈ t.phase.rest)
    (hshut : ∀ e' ∈ t'.shuttingDown, e' ∈ t.shuttingDown ∨
      e' = e ∧ st = .killing ∧ e ∈ t.waitingKillers)
    (hwait : ∀ e' ∈ t'.waitingKillers, e' ∈ t.waitingKillers)
    (hissue : e ∈ t'.phase.rest → st ≠ .idle ∧ st ≠ .killing)
    (hidle : st = .idle ∨ st = .idleNotAcceptingNewRequests → e ∉ t.shuttingDown)
    (hmarked : st = .idle → t.isMarked e → π.Vacates e)
    (hkill : st = .killing → π.Vacates e) : ∀ e', KillAt t' π e' := by
  have hmark : ∀ e, t'.isMarked e ↔ t.isMarked e := by
    intro e
    unfold isMarked
    rw [hflag]
  have hself : t'.status? e = some st := (hst e).trans (if_pos rfl)
  have he : KillAt t' π e := by
    refine ⟨?_, ?_, ?_, ?_, ?_, ?_, ?_⟩ <;>
      simp only [hself, Option.some.injEq, ne_eq, reduceCtorEq, not_false_eq_true, true_or,
        false_or, forall_const, IsEmpty.forall_iff]
    · intro hin
      refine ⟨fun hs => ?_, st, rfl, (hissue hin).1⟩
      rcases hshut e hs with hs | ⟨-, hk, -⟩
      · exact ((h e).rest (hrest e hin)).1 hs
      · exact (hissue hin).2 hk
    · exact fun hst' hm => hmarked hst' ((hmark e).mp hm)
    · exact hkill
    · intro hs
      rcases hshut e hs with hs | ⟨-, rfl, -⟩
      · exact ⟨((h e).shuttingDown hs).1, fun hi => hidle (Or.inl hi) hs,
          fun hi => hidle (Or.inr hi) hs⟩
      · exact ⟨(hkill rfl).not_running, by simp, by simp⟩
    · exact fun hw => (hmark e).mpr (((h e).waiting (hwait e hw)).resolve_left hne)
    · exact hused ▸ (h e).used (Or.inl hne)
  refine KillAt.of_others h he (fun e' hne => (hst e').trans (if_neg hne)) (fun e' _ => hmark e')
    hrest (fun e' hs hne => (hshut e' hs).resolve_right fun hc => hne hc.1)
    (fun e' hw _ => hwait e' hw) fun e' hin => hused ▸ hin

theorem Drains.ensures_issueNext (h : Drains cfg t π) :
    (t.issueNext cfg).Ensures (fun _ => True) fun t' =>
      ∃ π', Drains cfg t' π' ∧ Stays cfg t t' π π' := by
  unfold issueNext
  split
  · next start env p e rest outs hphase =>
    split_ifs
    · trivial
    obtain ⟨s₀, π₀, π₁, hr, hi⟩ := h.issuing _ _ _ _ _ hphase
    have hin : ∀ e' ∈ e :: rest, e' ∈ t.phase.rest := by
      intro e' he'
      rw [hphase]
      exact he'
    obtain ⟨hshut, st₀, hst₀, -⟩ := (h.kills e).rest (hin e List.mem_cons_self)
    have hne : t.status? e ≠ none := by simp [hst₀]
    have hmem := ExecutorsManager.mem_of_status? hst₀
    obtain ⟨hnotin, -⟩ := List.nodup_cons.mp hi.nodup
    rw [ensures_bind, ensures_raising]
    apply (hi.ensures_issue env hr hmem).mono (fun _ _ => trivial)
    rintro ⟨s, outs'⟩ ⟨hi', hcase⟩
    dsimp only at hi' hcase ⊢
    have hfinal : ∀ st, t.scheduler.executorsManager.setStatus e st = .ok s.executorsManager →
        st ≠ .killing → (st = .idle → π.Vacates e) →
        Drains cfg { t with scheduler := s, phase := .issuing start env p rest outs' } π := by
      intro st hm hkill hvac
      obtain ⟨hflag, hused, hst, -⟩ := ensures_of_ok
        (ExecutorsManager.ensures_setStatus t.scheduler.executorsManager e st) hm
      refine ⟨hi'.framed.refines hr.refines, hr.ledger.of_kept hi'.framed.kept,
        h.keyed.setStatus hm, ?_, ?_⟩
      · intro start' env' p' rest' outs'' hp
        cases hp
        exact ⟨s₀, π₀, π₁, hr, hi'⟩
      · exact KillAt.set_status h.kills hst hne hflag hused
          (fun e' he' => hin e' (List.mem_cons_of_mem e he')) (fun _ hs => Or.inl hs)
          (fun _ hw => hw) (fun he => absurd he hnotin) (fun _ => hshut)
          (fun hidle _ => hvac hidle) (fun hk => absurd hk hkill)
    rcases hcase with ⟨hm, rfl⟩ | ⟨hm, -⟩
    · refine ⟨π, hfinal .idle hm (by simp) fun _ => ?_, Stays.same _ _ _ _⟩
      have hfound := hi.subset e List.mem_cons_self
      have hfresh : e ∉ outs' := by
        intro hc
        obtain ⟨out, hout⟩ := (Dict.mem_iff_exists _ _).mp hc
        exact (hi.sent e out hout).2.1 List.mem_cons_self
      intro r hhost
      rcases (Placement.host?_eq_some_iff π r e).mp hhost with hrun | hpend
      · exact (hi'.skipped e hfound hnotin hfresh).1 r hrun
      · exact hr.clean e hfound r hpend
    · exact ⟨π, hfinal .scheduled hm (by simp) (by simp), Stays.same _ _ _ _⟩
  · trivial

/-- With caching, the processing of a result gives an executor with a killer back as idle
only without requests. -/
theorem Drains.ensures_release (h : Drains cfg t π) (hcache : cfg.caching = true) :
    (t.release cfg).Ensures (fun _ => True) fun t' =>
      ∃ π', Drains cfg t' π' ∧ Stays cfg t t' π π' := by
  unfold release
  split
  · next e hphase =>
    split_ifs with hshut
    · trivial
    rw [ensures_bind, ensures_raising]
    apply (ensures_releaseExecutor cfg t.scheduler e).mono (fun _ _ => trivial)
    rintro s ⟨st, m, hcase, hm, rfl⟩
    obtain ⟨hkey, hused, hst, hflag, hne⟩ := (Loop.ensures_raising _ _ _).mp
      (ensures_setStatus t h.keyed e st) |> fun hens => ensures_of_ok hens hm
    refine ⟨π, ⟨h.refines.of_manager m, h.ledger.of_manager m, hkey, ?_, ?_⟩, Stays.same _ _ _ _⟩
    · intro start env p rest outs hp
      cases hp
    · refine KillAt.set_status h.kills hst hne hflag hused (fun _ he => by cases he)
        (fun _ hs => Or.inl hs) (fun _ hw => hw) (fun he => by cases he) (fun _ => hshut) ?_ ?_
      · rintro rfl hmark
        rcases hcase with ⟨-, hdrained⟩ | ⟨hst', -⟩
        · obtain ⟨es, hes, hd⟩ := hdrained hcache hmark
          exact (h.refines.isDrained_iff hes).mp hd
        · cases hst'
      · rintro rfl
        rcases hcase with ⟨hst', -⟩ | ⟨hst', -⟩
        · cases hst'
        · cases hst'
  · trivial

theorem Drains.ensures_skipSchedule (h : Drains cfg t π) :
    t.skipSchedule.Ensures (fun _ => True) fun t' =>
      ∃ π', Drains cfg t' π' ∧ Stays cfg t t' π π' := by
  unfold skipSchedule
  split
  · exact ⟨π, h.proceed (fun _ _ _ _ _ hp => by cases hp) rfl rfl rfl⟩
  · trivial

theorem foldl_dispatchTo (l : List (ExecutorId × SchedulerOutput)) (t : Loop κ) :
    (l.foldl dispatchTo t).scheduler = t.scheduler ∧
      (l.foldl dispatchTo t).shuttingDown = t.shuttingDown ∧
      (l.foldl dispatchTo t).waitingKillers = t.waitingKillers := by
  induction l generalizing t with
  | nil => exact ⟨rfl, rfl, rfl⟩
  | cons x l ih => exact ih (t.dispatchTo x)

variable (h : Drains cfg t π)
include h

theorem Drains.ensures_dispatch :
    t.dispatch.Ensures (fun _ => True) fun t' =>
      ∃ π', Drains cfg t' π' ∧ Stays cfg t t' π π' := by
  unfold dispatch
  split
  · next start env p outs hphase =>
    obtain ⟨hs, hshut, hwait⟩ := foldl_dispatchTo (t.scheduler.flush p.found outs).entries t
    exact ⟨π, h.proceed (fun _ _ _ _ _ hp => by cases hp) hs hshut hwait⟩
  · trivial

theorem Drains.ensures_endWait :
    t.endWait.Ensures (fun _ => True) fun t' =>
      ∃ π', Drains cfg t' π' ∧ Stays cfg t t' π π' := by
  unfold endWait
  split
  · split_ifs
    · exact ⟨π, h.proceed (fun _ _ _ _ _ hp => by cases hp) rfl rfl rfl⟩
    · trivial
  · trivial

theorem Drains.ensures_finishUpdate :
    t.finishUpdate.Ensures (fun _ => True) fun t' =>
      ∃ π', Drains cfg t' π' ∧ Stays cfg t t' π π' := by
  unfold finishUpdate
  split
  · apply ensures_bind_any
    intro _
    exact ⟨π, h.proceed (fun _ _ _ _ _ hp => by cases hp) rfl rfl rfl⟩
  · trivial

theorem Drains.ensures_endCollect :
    t.endCollect.Ensures (fun _ => True) fun t' =>
      ∃ π', Drains cfg t' π' ∧ Stays cfg t t' π π' := by
  unfold endCollect
  split
  · exact ⟨π, h.proceed (fun _ _ _ _ _ hp => by cases hp) rfl rfl rfl⟩
  · trivial

end Loop

end TeDiServe

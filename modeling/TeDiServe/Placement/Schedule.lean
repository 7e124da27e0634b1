import TeDiServe.Placement.Admission

/-!
# A call of `schedule()`

`Readied` describes the state when stage 6 begins in terms of the state before the
call, and `Issuing` how far stage 6 has come. Other coroutines may run between two
executors of stage 6; they change the manager only, and `Issuing` does not speak of
it. Without them, the call as a whole is described by `ensures_schedule`.
-/

namespace TeDiServe

open Round

namespace Scheduler

variable {κ : Type} {cfg : Config κ} {s s' : Scheduler κ} {p : Plan κ}
  {π π₁ π₂ : Placement} {r : ReqId} {e : ExecutorId}

/-! ## Up to stage 6 -/

/-- The call up to stage 6, from `s` with placement `π`. The placement `π₁` is the one
after admission and after the executors were followed, `π₂` the one chosen. -/
structure Readied (cfg : Config κ) (s : Scheduler κ) (π : Placement) (p : Plan κ)
    (π₁ π₂ : Placement) : Prop where
  refines : Refines p.scheduler π₂
  ledger : Ledger cfg p.scheduler
  manager : p.scheduler.executorsManager = s.considerIdle.executorsManager
  recorded : ∀ e, e ∈ p.scheduler.executorStates ↔ isGone s.executorsManager e = false
  idle : p.idleExecutors = s.executorsWithStatus .idle
  notAccepting : p.idleNotAcceptingExecutors =
    s.executorsWithStatus .idleNotAcceptingNewRequests
  tables : ∀ e ∈ p.found, TablesFor cfg π₁ π₂ p.scheduler p.tables e
  clean : ∀ e ∈ p.found, NoPending π₂ e
  resident : ∀ r e, π₁ r = some (.running e) ↔
    π r = some (.running e) ∧ isGone s.executorsManager e = false
  placed : ∀ r, (π r).isSome → (π₂ r).isSome
  busy : ∀ r e, e ∉ p.found → (π₂ r = some (.running e) ↔ π₁ r = some (.running e))
  pinned : ∀ r req e, s.requests.get? r = some req → canMigrate cfg req = false →
    π₁ r = some (.running e) → π₂ r = some (.running e)
  free : ∀ e ∈ p.scheduler.executorStates, ∀ r,
    r ∈ p.scheduler.freeReqIds.getD e OrderedSet.empty ↔
      r ∈ s.freeReqIds.getD e OrderedSet.empty ∨
        π₁ r = some (.running e) ∧ π₂ r ≠ some (.running e)
  requests : ∀ r, (p.scheduler.requests.get? r).map Request.progress =
      (s.requests.get? r).map Request.progress ∨
    r ∈ s.deferredRequestStates ∧ p.scheduler.requests.get? r = none
  quiet : s.deferredRequests = [] → p.scheduler.deferredRequests = [] ∧
    p.scheduler.droppedDeferredRequests = s.droppedDeferredRequests

namespace Readied

variable (h : Readied cfg s π p π₁ π₂)
include h

theorem mem_found : e ∈ p.found ↔
    s.executorsManager.status? e = some .idle ∨
      s.executorsManager.status? e = some .idleNotAcceptingNewRequests := by
  unfold Plan.found
  rw [List.mem_append, h.idle, h.notAccepting, mem_executorsWithStatus, mem_executorsWithStatus]

theorem nodup_found : p.found.Nodup := by
  unfold Plan.found
  rw [h.idle, h.notAccepting]
  apply (nodup_executorsWithStatus s _).append (nodup_executorsWithStatus s _)
  intro e he he'
  rw [mem_executorsWithStatus] at he he'
  rw [he] at he'
  cases he'

theorem isGone_of_found (he : e ∈ p.found) : isGone s.executorsManager e = false := by
  rcases h.mem_found.mp he with hst | hst
  · simp [isGone, hst]
  · simp [isGone, hst]

theorem status (e : ExecutorId) :
    p.scheduler.executorsManager.status? e =
      (s.executorsManager.status? e).map ExecutorStatus.considered := by
  rw [h.manager]
  exact status?_considerIdle s e

theorem keyed (hkey : s.executorsManager.Keyed) : p.scheduler.executorsManager.Keyed := by
  rw [h.manager]
  intro e x hx
  simp only [considerIdle, Dict.get?_mapValues, Option.map_eq_some_iff] at hx
  obtain ⟨y, hy, rfl⟩ := hx
  rw [← hkey e y hy]
  split_ifs <;> rfl

theorem mem_requests (hr : r ∈ p.scheduler.requests) : r ∈ s.requests := by
  rcases h.requests r with hp | ⟨-, hnone⟩
  · exact (Dict.mem_iff_of_map_eq hp).mp hr
  · rw [Dict.get?_eq_none_iff] at hnone
    exact absurd hr hnone

end Readied

/-- The call before the round: deferred requests are admitted, which gives `s₀`, and the
executors are followed. -/
structure Looked (cfg : Config κ) (env : ScheduleEnv) (s : Scheduler κ) (π : Placement)
    (s₀ : Scheduler κ) (π₀ : Placement) (s₁ : Scheduler κ) (π₁ : Placement) : Prop where
  admitted : Admitted cfg π s s₀ π₀
  admit_eq : s.admitDeferredRequests cfg env.admitClock = .ok s₀
  update_eq : s₀.updateExecutors cfg = .ok s₁
  refines : Refines s₁ π₁
  ledger : Ledger cfg s₁
  reshaped : Reshaped s₀ s₁
  evicted : π₁ = π₀.evict (isGone s.executorsManager)
  synced : Synced s₁
  free : ∀ e, e ∈ s₁.executorStates →
    s₁.freeReqIds.getD e OrderedSet.empty = s.freeReqIds.getD e OrderedSet.empty

namespace Looked

variable {env : ScheduleEnv} {s₀ s₁ : Scheduler κ} {π₀ : Placement}

variable (h : Looked cfg env s π s₀ π₀ s₁ π₁)
include h

theorem executorsManager : s₁.executorsManager = s.executorsManager :=
  h.reshaped.executorsManager.trans h.admitted.enrolled.executorsManager

theorem executorsWithStatus (st : ExecutorStatus) :
    s₁.executorsWithStatus st = s.executorsWithStatus st := by
  simp only [Scheduler.executorsWithStatus, h.executorsManager]

theorem resident (r : ReqId) (e : ExecutorId) :
    π₁ r = some (.running e) ↔
      π r = some (.running e) ∧ isGone s.executorsManager e = false := by
  have hext := h.admitted.extends_
  rw [h.evicted, Placement.evict_eq_some_iff (by simp), hext.eq_some_iff (by simp)]
  apply and_congr_right
  intro hr
  have hr₀ : π₀ r = some (.running e) := (hext.eq_some_iff (by simp)).mpr hr
  rw [Placement.host?_of_running hr₀]
  simp

theorem recorded (e : ExecutorId) :
    e ∈ s₁.executorStates ↔ isGone s.executorsManager e = false := by
  rw [h.synced e, h.executorsManager]
  unfold isGone
  cases s.executorsManager.status? e with
  | none => simp
  | some st => simp

/-- The requests are those from before, except for those that were dropped. -/
theorem requests (r : ReqId) :
    s₁.requests.get? r = s.requests.get? r ∨
      r ∈ s.deferredRequestStates ∧ s₁.requests.get? r = none := by
  rw [h.reshaped.requests]
  exact h.admitted.requests r

end Looked

def lookAround (cfg : Config κ) (env : ScheduleEnv) (s : Scheduler κ) :
    Except PyError (Scheduler κ) := do
  let s ← s.admitDeferredRequests cfg env.admitClock
  s.updateExecutors cfg

theorem prepare_eq (cfg : Config κ) (env : ScheduleEnv) (s : Scheduler κ) :
    s.prepare cfg env = s.lookAround cfg env >>= fun s₁ => s₁.plan cfg env := by
  simp only [prepare, lookAround, bind_assoc]

theorem ensures_lookAround (env : ScheduleEnv) (h : Refines s π) (hl : Ledger cfg s)
    (hkey : s.executorsManager.Keyed) :
    (s.lookAround cfg env).Ensures (Unprofiled cfg fun _ => False) fun s₁ => ∃ s₀ π₀ π₁,
      Looked cfg env s π s₀ π₀ s₁ π₁ := by
  unfold lookAround
  rw [ensures_bind]
  apply (ensures_admitDeferredRequests env.admitClock h hl).with_eq.mono (fun _ hf => hf.elim)
  rintro s₀ ⟨⟨π₀, had⟩, hadmit⟩
  have hm₀ := had.enrolled.executorsManager
  apply (ensures_updateExecutors had.refines had.ledger (by rw [hm₀]; exact hkey)).with_eq.imp
  rintro s₁ ⟨⟨h₁, hl₁, hsync, hre, hfree, -⟩, hupd⟩
  refine ⟨s₀, π₀, _, had, hadmit, hupd, h₁, hl₁, hre, by rw [hm₀], hsync, ?_⟩
  intro e he
  rw [hfree e he, had.enrolled.freeReqIds]

/-- The states that the call goes through up to stage 6: those before the round, and from
there the moves of the round. -/
structure Course (cfg : Config κ) (env : ScheduleEnv) (s : Scheduler κ) (π : Placement)
    (s₀ : Scheduler κ) (π₀ : Placement) (s₁ : Scheduler κ) (π₁ : Placement) (p : Plan κ)
    (π₂ : Placement) : Prop extends Looked cfg env s π s₀ π₀ s₁ π₁ where
  derived : Derived cfg env s₁ π₁ p π₂

theorem Course.mem_requestStates {env : ScheduleEnv} {s₀ s₁ : Scheduler κ} {π₀ : Placement}
    {r : ReqId} (h : Course cfg env s π s₀ π₀ s₁ π₁ p π₂) :
    r ∈ p.scheduler.requestStates ↔ r ∈ s₀.requestStates := by
  have hsoft := soft_drainStepEstimateUpdates cfg env.predict s₁
  have hstart : r ∈ (s₁.drainStepEstimateUpdates cfg env.predict).considerIdle.requestStates ↔
      r ∈ s₀.requestStates :=
    hsoft.framed.mem_requestStates.trans (by
      obtain ⟨es, rs, caches, free, d, t, rfl, hrs⟩ := h.reshaped
      exact Dict.mem_iff_of_map_eq (hrs r))
  rcases h.derived with ⟨-, -, heq⟩ | ⟨q, -, hin, -, hframed, -⟩
  · rw [heq]
    exact hstart
  · rw [hframed.mem_requestStates, hin.moved.mem_requestStates]
    exact hstart

/-- Requests are dropped before the round only. -/
theorem Course.droppedDeferredRequests {env : ScheduleEnv} {s₀ s₁ : Scheduler κ} {π₀ : Placement}
    (h : Course cfg env s π s₀ π₀ s₁ π₁ p π₂) :
    p.scheduler.droppedDeferredRequests = s₀.droppedDeferredRequests := by
  have hstart : (s₁.drainStepEstimateUpdates cfg
      env.predict).considerIdle.droppedDeferredRequests = s₀.droppedDeferredRequests :=
    (soft_drainStepEstimateUpdates cfg env.predict s₁).framed.droppedDeferredRequests.trans
      h.reshaped.droppedDeferredRequests
  rcases h.derived with ⟨-, -, heq⟩ | ⟨q, -, hin, -, hframed, -⟩
  · rw [heq, hstart]
  · obtain ⟨es, rs, hq, -⟩ := hin.moved
    rw [hframed.droppedDeferredRequests, hq]
    exact hstart

/-- Nothing is to be freed that was not to be freed before, except for what the round moves. -/
theorem Course.free_of_mem {env : ScheduleEnv} {s₀ s₁ : Scheduler κ} {π₀ : Placement} {r : ReqId}
    (h : Course cfg env s π s₀ π₀ s₁ π₁ p π₂) (hkey : s.executorsManager.Keyed)
    (hr : r ∈ p.scheduler.freeReqIds.getD e OrderedSet.empty) :
    r ∈ s.freeReqIds.getD e OrderedSet.empty ∨
      π₁ r = some (.running e) ∧ π₂ r ≠ some (.running e) := by
  have hstarts := starts_considerIdle cfg env.predict s₁
  have hless : ∀ r ∈ s₁.freeReqIds.getD e OrderedSet.empty,
      r ∈ s.freeReqIds.getD e OrderedSet.empty := by
    have hupd := ensures_of_ok (ensures_updateExecutors h.admitted.refines
      h.admitted.ledger (by rw [h.admitted.enrolled.executorsManager]; exact hkey)) h.update_eq
    rw [← h.admitted.enrolled.freeReqIds]
    exact hupd.2.2.2.2.2 e
  rcases h.derived with ⟨-, -, heq⟩ | ⟨q, -, hin, -, -, hok⟩
  · rw [heq, hstarts.freeReqIds] at hr
    exact Or.inl (hless r hr)
  · have h₁ := hstarts.framed.refines h.refines
    obtain ⟨done, -, hw⟩ := ensures_of_ok (ensures_stage5 env hin h₁
      (h.ledger.of_kept hstarts.framed.kept).caches fun r hr =>
        h.refines.old_executor (hstarts.framed.mem_requestStates.mp hr)) hok
    rw [hw.free, hin.moved.freeReqIds, hstarts.freeReqIds] at hr
    rcases hr with hr | ⟨-, hmoved⟩
    · exact Or.inl (hless r hr)
    · exact Or.inr hmoved

def PrepareAsks (cfg : Config κ) (env : ScheduleEnv) (s : Scheduler κ) (π : Placement) (n : ℕ) :
    Prop :=
  ∃ s₀ π₀ s₁ π₁, Admitted cfg π s s₀ π₀ ∧ Refines s₁ π₁ ∧ Reshaped s₀ s₁ ∧
    π₁ = π₀.evict (isGone s.executorsManager) ∧
    RoundAsks cfg (s₁.drainStepEstimateUpdates cfg env.predict).considerIdle π₁ n

theorem ensures_prepare_course (env : ScheduleEnv) (h : Refines s π) (hl : Ledger cfg s)
    (hkey : s.executorsManager.Keyed) :
    (s.prepare cfg env).Ensures (Raised cfg (PrepareAsks cfg env s π)) fun p => ∃ π₁ π₂,
      Readied cfg s π p π₁ π₂ ∧ ∃ s₀ π₀ s₁, Course cfg env s π s₀ π₀ s₁ π₁ p π₂ := by
  rw [prepare_eq, ensures_bind]
  apply (ensures_lookAround env h hl hkey).mono (fun _ hf => hf.raised fun _ hn => hn.elim)
  rintro s₁ ⟨s₀, π₀, π₁, hlook⟩
  apply (ensures_plan env hlook.refines hlook.ledger hlook.synced).mono
    (fun _ hf => ⟨hf.1, hf.2.mono fun n hn => ⟨s₀, π₀, s₁, π₁, hlook.admitted, hlook.refines,
      hlook.reshaped, hlook.evicted, hn⟩⟩)
  rintro p ⟨π₂, hp, hder⟩
  refine ⟨π₁, π₂, ⟨hp.refines, hlook.ledger.of_kept hp.kept, ?_, ?_, ?_, ?_, hp.tables, hp.clean,
    hlook.resident, ?_, hp.busy, ?_, ?_, ?_, ?_⟩, s₀, π₀, s₁, hlook, hder⟩
  · rw [hp.manager]
    simp only [considerIdle, hlook.executorsManager]
  · intro e
    rw [hp.kept.mem_executorStates, hlook.recorded]
  · rw [hp.idle, hlook.executorsWithStatus]
  · rw [hp.notAccepting, hlook.executorsWithStatus]
  · intro r hr
    have h₀ : (π₀ r).isSome := by
      rcases hlook.admitted.extends_ r with hr' | ⟨-, hr'⟩
      · rw [hr']
        exact hr
      · rw [hr']
        rfl
    have h₁ : (π₁ r).isSome := by
      rw [hlook.evicted, Placement.isSome_evict]
      exact h₀
    obtain ⟨l, hl'⟩ := Option.isSome_iff_exists.mp h₁
    have hmem := hp.kept.mem_requestStates.mpr (hlook.refines.mem_requestStates_iff.mpr ⟨l, hl'⟩)
    exact Option.isSome_iff_exists.mpr (hp.refines.mem_requestStates_iff.mp hmem)
  · intro r req e hreq hcan hrun
    have hmem := h.mem_requestStates_iff.mpr ⟨_, ((hlook.resident r e).mp hrun).1⟩
    rcases hlook.requests r with heq | ⟨hd, -⟩
    · exact hp.pinned r req e (heq.trans hreq) hcan hrun
    · exact absurd hd (hl.apart r hmem)
  · intro e he r
    rw [hp.free, hlook.free e (hp.kept.mem_executorStates.mp he)]
  · intro r
    have hprog := hp.kept.requests r
    rcases hlook.requests r with hr | ⟨hd, hr⟩
    · rw [hr] at hprog
      exact Or.inl hprog
    · rw [hr, Option.map_none, Option.map_eq_none_iff] at hprog
      exact Or.inr ⟨hd, hprog⟩
  · intro hq
    have hs₀ := hlook.admitted.quiet hq
    obtain ⟨es, rs, caches, free, d, t, hre, -⟩ := hlook.reshaped
    rw [hp.kept.deferredRequests, hp.kept.droppedDeferredRequests, hre, hs₀]
    exact ⟨hq, rfl⟩

theorem ensures_prepare (env : ScheduleEnv) (h : Refines s π) (hl : Ledger cfg s)
    (hkey : s.executorsManager.Keyed) :
    (s.prepare cfg env).Ensures (Raised cfg (PrepareAsks cfg env s π)) fun p => ∃ π₁ π₂,
      Readied cfg s π p π₁ π₂ := by
  apply (ensures_prepare_course env h hl hkey).imp
  rintro p ⟨π₁, π₂, hr, -⟩
  exact ⟨π₁, π₂, hr⟩

/-! ## Stage 6 -/

/-- Stage 6 with the executors `rest` still to come and the messages `outs` made. -/
structure Issuing (cfg : Config κ) (p : Plan κ) (π₁ π₂ : Placement) (rest : List ExecutorId)
    (s : Scheduler κ) (outs : Dict ExecutorId SchedulerOutput) : Prop where
  framed : Framed p.scheduler s
  prepared : Prepared p.scheduler s
  subset : ∀ e ∈ rest, e ∈ p.found
  nodup : rest.Nodup
  free : ∀ e r, r ∈ s.freeReqIds.getD e OrderedSet.empty ↔
    r ∈ p.scheduler.freeReqIds.getD e OrderedSet.empty ∧ (e ∈ p.found → e ∈ rest)
  sent : ∀ e out, outs.get? e = some out → e ∈ p.found ∧ e ∉ rest ∧
    OutputFor cfg p.scheduler.requests π₁ π₂ e out ∧
    ∀ r, r ∈ out.freeReqIds ↔ r ∈ p.scheduler.freeReqIds.getD e OrderedSet.empty
  skipped : ∀ e ∈ p.found, e ∉ rest → e ∉ outs → (∀ r, π₂ r ≠ some (.running e)) ∧
    ∀ r, r ∉ p.scheduler.freeReqIds.getD e OrderedSet.empty

theorem Issuing.start (cfg : Config κ) (p : Plan κ) (π₁ π₂ : Placement) (h : p.found.Nodup) :
    Issuing cfg p π₁ π₂ p.found p.scheduler Dict.empty := by
  refine ⟨Framed.refl _, fun _ => rfl, fun _ he => he, h, ?_, ?_, ?_⟩
  · intro e r
    exact (and_iff_left fun he => he).symm
  · intro e out hout
    cases hout
  · intro e he hnot
    exact absurd he hnot

def PlanAsks (cfg : Config κ) (p : Plan κ) (π₂ : Placement) (n : ℕ) : Prop :=
  ∃ e batch, batch.Nodup ∧ (∀ r ∈ batch, π₂ r = some (.running e)) ∧ e ∈ p.found ∧
    BatchAsks cfg p.scheduler batch n

theorem Issuing.ensures_issue {rest : List ExecutorId} {outs : Dict ExecutorId SchedulerOutput}
    {s₀ : Scheduler κ} (env : ScheduleEnv) (hp : Readied cfg s₀ π p π₁ π₂)
    (h : Issuing cfg p π₁ π₂ (e :: rest) s outs)
    (hmem : e ∈ s.executorsManager.executors) :
    (issue cfg env p.idleNotAcceptingExecutors p.tables (s, outs) e).Ensures
      (Unprofiled cfg (PlanAsks cfg p π₂)) fun x => Issuing cfg p π₁ π₂ rest x.1 x.2 ∧
        (s.executorsManager.setStatus e .idle = .ok x.1.executorsManager ∧ x.2 = outs ∨
          s.executorsManager.setStatus e .scheduled = .ok x.1.executorsManager ∧
            ∃ out, x.2 = outs.set e out) := by
  obtain ⟨hnot, hnodup⟩ := List.nodup_cons.mp h.nodup
  have he : e ∈ p.found := h.subset e List.mem_cons_self
  have hsub : ∀ e' ∈ rest, e' ∈ p.found := fun e' he' => h.subset e' (List.mem_cons_of_mem e he')
  have htables := (hp.tables e he).of_prepared h.prepared
  have href := h.framed.refines hp.refines
  have hidx := (hp.ledger.of_kept h.framed.kept).indices
  have hrec : e ∈ s.executorStates := by
    rw [h.framed.executorStates, hp.recorded]
    exact hp.isGone_of_found he
  have hfresh : e ∉ outs := by
    intro hc
    obtain ⟨out, hout⟩ := (Dict.mem_iff_exists _ _).mp hc
    exact (h.sent e out hout).2.1 List.mem_cons_self
  have hfree : ∀ r, r ∈ s.freeReqIds.getD e OrderedSet.empty ↔
      r ∈ p.scheduler.freeReqIds.getD e OrderedSet.empty := by
    intro r
    rw [h.free]
    exact and_iff_left fun _ => List.mem_cons_self
  -- for the other executors nothing changes
  have hrest : ∀ e', e' ≠ e → ((e' ∈ p.found → e' ∈ rest) ↔ (e' ∈ p.found → e' ∈ e :: rest)) := by
    intro e' hne
    rw [List.mem_cons, or_iff_right hne]
  apply (Scheduler.ensures_issue env htables href hidx hmem hrec (hp.clean e he)).mono
    (fun _ hf => hf.mono fun n hn => ⟨e, _, Dict.nodup_keys _, fun r hr => (htables.tokens r).mp hr,
      he, hn.of_progress h.framed.requests⟩)
  intro x hx
  rcases hx with ⟨hnone, hempty, m, hm, rfl⟩ | ⟨out, -, hout, hfr, hsent, hm, houts⟩
  · rw [OrderedSet.isEmpty_iff] at hempty
    refine ⟨⟨?_, h.prepared, hsub, hnodup, ?_, ?_, ?_⟩, Or.inl ⟨hm, rfl⟩⟩
    · exact h.framed.of_managers p.scheduler.executorsManager _
    · intro e' r
      by_cases hne : e' = e
      · rw [hne, ← hfree r]
        have hn := hempty r
        simp [hn]
      · rw [hrest e' hne]
        exact h.free e' r
    · intro e' out hout
      obtain ⟨h1, h2, h3⟩ := h.sent e' out hout
      exact ⟨h1, fun hc => h2 (List.mem_cons_of_mem e hc), h3⟩
    · intro e' he' hnot' hout
      by_cases hne : e' = e
      · rw [hne]
        exact ⟨hnone, fun r hr => hempty r ((hfree r).mpr hr)⟩
      · apply h.skipped e' he' _ hout
        rw [List.mem_cons]
        exact fun hc => hc.elim hne hnot'
  · refine ⟨⟨h.framed.trans hsent.framed, h.prepared.trans hsent.prepared, hsub, hnodup,
      ?_, ?_, ?_⟩, Or.inr ⟨hm, out, houts⟩⟩
    · intro e' r
      rw [hsent.free]
      by_cases hne : e' = e
      · simp [hne, he, hnot]
      · rw [if_neg hne, hrest e' hne]
        exact h.free e' r
    · intro e' out' hout'
      rw [houts, Dict.get?_set] at hout'
      by_cases hne : e' = e
      · rw [if_pos hne, Option.some.injEq] at hout'
        rw [hne, ← hout']
        refine ⟨he, hnot, hout.of_progress fun r => (h.framed.requests r).symm, ?_⟩
        intro r
        rw [hfr]
        exact hfree r
      · rw [if_neg hne] at hout'
        obtain ⟨h1, h2, h3⟩ := h.sent e' out' hout'
        exact ⟨h1, fun hc => h2 (List.mem_cons_of_mem e hc), h3⟩
    · intro e' he' hnot' hout'
      rw [houts, Dict.mem_set] at hout'
      have hne : e' ≠ e := fun hc => hout' (Or.inl hc)
      apply h.skipped e' he' _ fun hc => hout' (Or.inr hc)
      rw [List.mem_cons]
      exact fun hc => hc.elim hne hnot'

/-! ## The whole call -/

/-- The result of a call of `schedule()` during which nothing else happens: stage 6 is
complete, and the executors found idle have a message or are idle again. -/
structure Returned (cfg : Config κ) (s : Scheduler κ) (p : Plan κ) (π₁ π₂ : Placement)
    (s' : Scheduler κ) (outs : Dict ExecutorId SchedulerOutput) : Prop where
  issued : Issuing cfg p π₁ π₂ [] s' outs
  status : ∀ e, s'.executorsManager.status? e =
    if e ∈ p.found then some (if e ∈ outs then .scheduled else .idle)
    else s.executorsManager.status? e
  keyed : s'.executorsManager.Keyed
  waiting : s'.executorsManager.waitingToBeKilled = s.executorsManager.waitingToBeKilled
  used : s'.executorsManager.usedExecutorIds = s.executorsManager.usedExecutorIds

end Scheduler

theorem ExecutorsManager.Keyed.setStatus {m m' : ExecutorsManager} {e : ExecutorId}
    {st : ExecutorStatus} (h : m.Keyed) (hm : m.setStatus e st = .ok m') : m'.Keyed := by
  unfold ExecutorsManager.setStatus at hm
  cases hx : m.executors.get? e with
  | none =>
      have : subscript m.executors .executors e = .error (.key .executors) := by
        simp [subscript, hx]
      rw [this] at hm
      cases hm
  | some x =>
      rw [subscript_of_get? _ hx] at hm
      cases hm
      intro e' x' hx'
      dsimp only at hx'
      rw [Dict.get?_set] at hx'
      by_cases he : e' = e
      · rw [if_pos he, Option.some.injEq] at hx'
        rw [← hx', he]
        exact h e x hx
      · rw [if_neg he] at hx'
        exact h e' x' hx'

namespace Scheduler

variable {κ : Type} {cfg : Config κ} {s s' : Scheduler κ} {p : Plan κ}
  {π π₁ π₂ : Placement} {r : ReqId} {e : ExecutorId}

theorem ensures_stage6 (env : ScheduleEnv) (hp : Readied cfg s π p π₁ π₂)
    (hkey : s.executorsManager.Keyed) :
    (p.found.foldlM (issue cfg env p.idleNotAcceptingExecutors p.tables)
      (p.scheduler, Dict.empty)).Ensures (Unprofiled cfg (PlanAsks cfg p π₂)) fun x =>
        Returned cfg s p π₁ π₂ x.1 x.2 := by
  have hstatus := hp.status
  refine (ensures_foldlM_rest (E := Unprofiled cfg (PlanAsks cfg p π₂))
    (fun rest (x : Scheduler κ × Dict ExecutorId SchedulerOutput) =>
      Issuing cfg p π₁ π₂ rest x.1 x.2 ∧
      (∀ e, x.1.executorsManager.status? e =
        if e ∈ p.found ∧ e ∉ rest then some (if e ∈ x.2 then .scheduled else .idle)
        else p.scheduler.executorsManager.status? e) ∧
      x.1.executorsManager.Keyed ∧
      x.1.executorsManager.waitingToBeKilled = s.executorsManager.waitingToBeKilled ∧
      x.1.executorsManager.usedExecutorIds = s.executorsManager.usedExecutorIds) ?_ _ _
    ⟨Issuing.start cfg p π₁ π₂ hp.nodup_found, ?_, hp.keyed hkey, ?_, ?_⟩).imp ?_
  · rintro ⟨s', outs⟩ e rest ⟨his, hst, hk, hw, hu⟩
    dsimp only at his hst hk hw hu
    obtain ⟨hnot, -⟩ := List.nodup_cons.mp his.nodup
    have he : e ∈ p.found := his.subset e List.mem_cons_self
    have hfresh : e ∉ outs := by
      intro hc
      obtain ⟨out, hout⟩ := (Dict.mem_iff_exists _ _).mp hc
      exact (his.sent e out hout).2.1 List.mem_cons_self
    have hmem : e ∈ s'.executorsManager.executors := by
      have hse := hst e
      rw [if_neg (by simp), hstatus] at hse
      rcases hp.mem_found.mp he with hi | hi
      · rw [hi, Option.map_some] at hse
        exact ExecutorsManager.mem_of_status? hse
      · rw [hi, Option.map_some] at hse
        exact ExecutorsManager.mem_of_status? hse
    apply (his.ensures_issue env hp hmem).imp
    rintro ⟨s'', outs'⟩ ⟨his', hcase⟩
    dsimp only at his' hcase ⊢
    -- both outcomes set the status of this executor only
    have hset : ∀ st, s'.executorsManager.setStatus e st = .ok s''.executorsManager →
        (∀ e', e' ≠ e → (e' ∈ outs' ↔ e' ∈ outs)) →
        (if e ∈ outs' then ExecutorStatus.scheduled else .idle) = st →
        (∀ e', s''.executorsManager.status? e' =
          if e' ∈ p.found ∧ e' ∉ rest then some (if e' ∈ outs' then .scheduled else .idle)
          else p.scheduler.executorsManager.status? e') ∧
        s''.executorsManager.Keyed ∧
        s''.executorsManager.waitingToBeKilled = s.executorsManager.waitingToBeKilled ∧
        s''.executorsManager.usedExecutorIds = s.executorsManager.usedExecutorIds := by
      intro st hm houts hthis
      obtain ⟨hw', hu', hst', -⟩ :=
        ensures_of_ok (ExecutorsManager.ensures_setStatus s'.executorsManager e st) hm
      refine ⟨?_, hk.setStatus hm, hw'.trans hw, hu'.trans hu⟩
      intro e'
      rw [hst']
      by_cases hne : e' = e
      · simp only [hne, if_true, he, hnot, not_false_eq_true, and_self, hthis]
      · rw [if_neg hne, hst e']
        simp only [List.mem_cons, hne, false_or, houts e' hne]
    rcases hcase with ⟨hm, houts⟩ | ⟨hm, out, houts⟩
    · refine ⟨his', hset .idle hm (fun _ _ => by rw [houts]) ?_⟩
      rw [houts, if_neg hfresh]
    · refine ⟨his', hset .scheduled hm (fun e' hne => ?_) ?_⟩
      · rw [houts, Dict.mem_set, or_iff_right hne]
      · rw [houts, if_pos ((Dict.mem_set _ _ _ _).mpr (Or.inl rfl))]
  · intro e
    rw [if_neg fun hc => hc.2 hc.1]
  · rw [hp.manager]
    rfl
  · rw [hp.manager]
    rfl
  · rintro ⟨s', outs⟩ ⟨his, hst, hk, hw, hu⟩
    refine ⟨his, ?_, hk, hw, hu⟩
    intro e
    dsimp only at hst ⊢
    rw [hst]
    by_cases he : e ∈ p.found
    · simp [he]
    · rw [if_neg fun hc => he hc.1, if_neg he, hstatus]
      cases hse : s.executorsManager.status? e with
      | none => rfl
      | some st =>
          have hno : ¬(st = .idle ∨ st = .idleNotAcceptingNewRequests) := by
            rintro (rfl | rfl)
            · exact he (hp.mem_found.mpr (Or.inl hse))
            · exact he (hp.mem_found.mpr (Or.inr hse))
          simp [ExecutorStatus.considered, hno]

def ScheduleAsks (cfg : Config κ) (env : ScheduleEnv) (s : Scheduler κ) (π : Placement) (n : ℕ) :
    Prop :=
  PrepareAsks cfg env s π n ∨ ∃ p π₁ π₂, Readied cfg s π p π₁ π₂ ∧
    (∃ s₀ π₀ s₁, Course cfg env s π s₀ π₀ s₁ π₁ p π₂) ∧ PlanAsks cfg p π₂ n

theorem ensures_schedule_course (env : ScheduleEnv) (h : Refines s π) (hl : Ledger cfg s)
    (hkey : s.executorsManager.Keyed) :
    (s.schedule cfg env).Ensures (Raised cfg (ScheduleAsks cfg env s π)) fun x => ∃ p π₁ π₂ outs,
      Readied cfg s π p π₁ π₂ ∧ Returned cfg s p π₁ π₂ x.1 outs ∧
      x.2 = x.1.flush p.found outs ∧
      (∃ s₀ π₀ s₁, Course cfg env s π s₀ π₀ s₁ π₁ p π₂) ∧
      p.found.foldlM (issue cfg env p.idleNotAcceptingExecutors p.tables)
        (p.scheduler, Dict.empty) = .ok (x.1, outs) := by
  unfold schedule
  rw [ensures_bind]
  apply (ensures_prepare_course env h hl hkey).mono
    (fun _ hf => ⟨hf.1, hf.2.mono fun n hn => Or.inl hn⟩)
  rintro p ⟨π₁, π₂, hp, hcourse⟩
  rw [ensures_bind]
  apply (ensures_stage6 env hp hkey).with_eq.mono
    (fun _ hf => hf.raised fun n hn => Or.inr ⟨p, π₁, π₂, hp, hcourse, hn⟩)
  rintro ⟨s', outs⟩ ⟨hr, hloop⟩
  exact ⟨p, π₁, π₂, outs, hp, hr, rfl, hcourse, hloop⟩

theorem ensures_schedule (env : ScheduleEnv) (h : Refines s π) (hl : Ledger cfg s)
    (hkey : s.executorsManager.Keyed) :
    (s.schedule cfg env).Ensures (Raised cfg (ScheduleAsks cfg env s π)) fun x => ∃ p π₁ π₂ outs,
      Readied cfg s π p π₁ π₂ ∧ Returned cfg s p π₁ π₂ x.1 outs ∧
      x.2 = x.1.flush p.found outs := by
  apply (ensures_schedule_course env h hl hkey).imp
  rintro x ⟨p, π₁, π₂, outs, hp, hr, hflush, -⟩
  exact ⟨p, π₁, π₂, outs, hp, hr, hflush⟩

theorem Returned.exists_request {outs : Dict ExecutorId SchedulerOutput} {r : ReqId}
    {req : Request} (h : Returned cfg s p π₁ π₂ s' outs) (hp : Readied cfg s π p π₁ π₂)
    (hreq : s'.requests.get? r = some req) :
    ∃ req₀, s.requests.get? r = some req₀ ∧ req.progress = req₀.progress := by
  obtain ⟨req₁, hreq₁, hp₁⟩ := Dict.exists_of_map_eq (h.issued.framed.requests r) hreq
  rcases hp.requests r with heq | ⟨-, hnone⟩
  · obtain ⟨req₀, hreq₀, hp₀⟩ := Dict.exists_of_map_eq heq hreq₁
    exact ⟨req₀, hreq₀, hp₁.trans hp₀⟩
  · rw [hreq₁] at hnone
    cases hnone

theorem exists_of_schedule {env : ScheduleEnv}
    {x : Scheduler κ × Dict ExecutorId SchedulerOutput} (h : s.schedule cfg env = .ok x) :
    ∃ p outs, s.prepare cfg env = .ok p ∧
      p.found.foldlM (issue cfg env p.idleNotAcceptingExecutors p.tables)
        (p.scheduler, Dict.empty) = .ok (x.1, outs) ∧ x.2 = x.1.flush p.found outs := by
  have hens : (s.schedule cfg env).Ensures (fun _ => True) fun x => ∃ p outs,
      s.prepare cfg env = .ok p ∧
      p.found.foldlM (issue cfg env p.idleNotAcceptingExecutors p.tables)
        (p.scheduler, Dict.empty) = .ok (x.1, outs) ∧ x.2 = x.1.flush p.found outs := by
    unfold schedule
    apply (ensures_any _).with_eq.bind
    rintro p ⟨-, hp⟩
    apply (ensures_any _).with_eq.bind
    rintro ⟨s', outs⟩ ⟨-, hloop⟩
    exact ⟨p, outs, hp, hloop, rfl⟩
  have hx := ensures_of_ok hens h
  exact hx

theorem flush_of_mem {found : List ExecutorId} {outs : Dict ExecutorId SchedulerOutput}
    (h : e ∈ outs) : s.flush found outs = outs := by
  unfold flush
  rw [if_neg]
  rintro ⟨-, hnil, -⟩
  rw [Dict.mem_def, hnil] at h
  cases h

theorem get?_flush {found : List ExecutorId} {outs : Dict ExecutorId SchedulerOutput}
    {out : SchedulerOutput} (h : (s.flush found outs).get? e = some out) :
    outs.get? e = some out ∨
      out.numScheduledTokens = Dict.empty ∧ out.totalNumScheduledTokens = 0 ∧
        out.confidenceThresholds = Dict.empty := by
  unfold flush makeDropFlushSchedulerOutput at h
  split_ifs at h
  · split at h
    · cases h
    · rw [Dict.get?_set] at h
      split_ifs at h
      · cases h
        exact Or.inr ⟨rfl, rfl, rfl⟩
      · cases h
  · exact Or.inl h

end Scheduler

end TeDiServe

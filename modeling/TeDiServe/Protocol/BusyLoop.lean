import TeDiServe.Protocol.Outside

/-!
# The events of the busy loop

The busy loop considers only idle executors, so a round never touches an executor
that works; what it applies is the result of the message that it has stored; and it
gives an executor back only after its result was applied. Aborts and arrivals change
no executor. A message in flight therefore keeps its requests on its executor until
its result is applied.
-/

namespace TeDiServe

namespace Loop

open Scheduler

variable {κ : Type} {cfg : Config κ} {t t' : Loop κ} {e : ExecutorId} {n : ℕ}
  {π : Placement}

/-! ## The clients -/

section

variable (h : Sound cfg t)
include h

/-- Between two rounds, the scheduler may change as long as the manager stays and the
messages in flight keep their requests. -/
theorem Sound.between {s : Scheduler κ} {a : Dict ReqId ℕ} (hphase : t.phase = .inputs)
    (hman : s.executorsManager = t.scheduler.executorsManager) (hr : Refines s π)
    (hl : Ledger cfg s) (hres : ∀ e m, t.InFlight e m → ∀ r, r ∈ m.content.numScheduledTokens →
      r ∈ s.requests → a.getD r 0 ≤ m.number → π r = some (.running e))
    (hq : cfg.maxNumUnfinishedRequests = none →
      s.deferredRequests = [] ∧ s.droppedDeferredRequests = []) :
    Sound cfg { t with scheduler := s, addedAt := a } ∧
      LifeCycle t { t with scheduler := s, addedAt := a } := by
  obtain ⟨π₀, hπ₀⟩ := h.placed
  have hst : ∀ e, s.executorsManager.status? e = t.status? e := by
    intro e
    rw [hman]
    rfl
  have hlife : LifeCycle t { t with scheduler := s, addedAt := a } :=
    LifeCycle.of_status hst (by rw [hman])
  refine ⟨⟨?_, ?_, ?_, π, ?_⟩, hlife⟩
  · exact h.held.of_status rfl rfl ⟨rfl, rfl, rfl⟩ fun e _ => hst e
  · unfold Fits
    rw [hphase]
    trivial
  · refine h.killers.of_status rfl hlife ?_ ?_
    · intro e hk hnone
      have hno := (hst e).symm.trans hnone
      rw [hk] at hno
      cases hno
    · intro e hne hnone
      exact hne ((hst e).trans hnone)
  · refine ⟨hr, hl, ?_, hres, ?_, hq⟩
    · change s.executorsManager.Keyed
      rw [hman]
      exact hπ₀.keyed
    · intro start env p rest outs hp
      rw [hphase] at hp
      cases hp

theorem Sound.ensures_addRequest (req : Request) :
    (t.addRequest cfg req).Ensures (fun _ => True) fun t' => Sound cfg t' ∧ LifeCycle t t' := by
  obtain ⟨π, hπ⟩ := h.placed
  unfold addRequest
  split
  · next hphase =>
    split_ifs with hnew
    · trivial
    · rw [ensures_bind, ensures_raising]
      apply (Scheduler.ensures_addRequest hπ.refines hπ.ledger hnew).mono (fun _ _ => trivial)
      rintro s ⟨π', hr, hl, hext, hen, hreqs, hdrop, hdef⟩
      refine h.between hphase hen.executorsManager hr hl ?_ ?_
      · intro e m hf r hmem hknown hle
        rw [Dict.getD_set] at hle
        by_cases hid : r = req.requestId
        · -- the id belongs to a request that came after the message
          rw [if_pos hid] at hle
          exact absurd (h.held.booked hf).number (Nat.not_lt.mpr hle)
        · rw [if_neg hid] at hle
          rw [hreqs, Dict.mem_set] at hknown
          rw [hext.eq_some_iff (by simp)]
          exact hπ.resident e m hf r hmem (hknown.resolve_left hid) hle
      · intro hdefer
        rw [hdef hdefer, hdrop]
        exact hπ.quiet hdefer
  · trivial

theorem Sound.ensures_abortRequests (ids : List ReqId) (clock : ReqId → ℚ) :
    (t.abortRequests cfg ids clock).Ensures (fun _ => True) fun t' =>
      Sound cfg t' ∧ LifeCycle t t' := by
  obtain ⟨π, hπ⟩ := h.placed
  unfold abortRequests
  split
  · next hphase =>
    rw [ensures_bind, ensures_raising]
    apply (ensures_finishRequests clock hπ.refines hπ.ledger rfl (.many ids)).mono
      (fun _ _ => trivial)
    rintro s ⟨-, π', hab⟩
    refine h.between hphase hab.manager hab.refines hab.ledger ?_ ?_
    · intro e m hf r hmem hknown hle
      obtain ⟨req, hreq⟩ := (Dict.mem_iff_exists _ _).mp hknown
      have hold : r ∈ t.scheduler.requests := Dict.mem_of_get? (hab.requests r req hreq)
      have hnot : r ∉ RequestIds.ids (.many ids) := fun hin => hab.gone r hin hknown
      exact hab.kept r hnot _ (hπ.resident e m hf r hmem hold hle)
    · intro hdefer
      obtain ⟨hdef, hdrop⟩ := hπ.quiet hdefer
      exact ⟨(hab.quiet hdef).1, (hab.quiet hdef).2.trans hdrop⟩
  · trivial

theorem Sound.ensures_refreshEstimates (predict : ReqId → ℚ → ℚ) :
    (t.refreshEstimates cfg predict).Ensures (fun _ => True) fun t' =>
      Sound cfg t' ∧ LifeCycle t t' := by
  obtain ⟨π, hπ⟩ := h.placed
  unfold refreshEstimates
  split
  · next hphase =>
    have hs := soft_processStepEstimateUpdates cfg predict t.scheduler
    refine h.between hphase hs.executorsManager (hs.framed.refines hπ.refines)
      (hπ.ledger.of_kept hs.framed.kept) ?_ ?_
    · intro e m hf r hmem hknown hle
      rw [hs.framed.mem_requests] at hknown
      exact hπ.resident e m hf r hmem hknown hle
    · intro hdefer
      rw [hs.framed.deferredRequests, hs.framed.droppedDeferredRequests]
      exact hπ.quiet hdefer
  · trivial

theorem Sound.ensures_controlLoad (idx : Dict ReqId ℕ) (minIdx : ℕ) :
    (t.controlLoad cfg idx minIdx).Ensures (fun _ => True) fun t' =>
      Sound cfg t' ∧ LifeCycle t t' := by
  obtain ⟨π, hπ⟩ := h.placed
  unfold controlLoad
  split
  · next hphase =>
    split_ifs with hidx
    · refine h.between hphase rfl (hπ.refines.controlLoad idx.get? minIdx)
        (hπ.ledger.controlLoad ?_ fun _ => hidx.2) hπ.resident hπ.quiet
      intro r i hi _
      exact hidx.1 (r, i) ((Dict.mem_entries_iff _ _ _).mpr hi)
    · trivial
  · trivial

/-! ## A round -/

theorem Sound.ensures_beginSchedule (env : ScheduleEnv) :
    (t.beginSchedule cfg env).Ensures (fun _ => True) fun t' =>
      Sound cfg t' ∧ LifeCycle t t' := by
  obtain ⟨π, hπ⟩ := h.placed
  unfold beginSchedule
  split
  · next hphase =>
    rw [ensures_bind, ensures_raising]
    apply (ensures_prepare env hπ.refines hπ.ledger hπ.keyed).mono (fun _ _ => trivial)
    rintro p ⟨π₁, π₂, hr⟩
    have hst : ∀ e, p.scheduler.executorsManager.status? e =
        (t.status? e).map Scheduler.ExecutorStatus.considered := hr.status
    -- an executor that works is neither found nor gone
    have hbusy : ∀ e, t.Working e → p.scheduler.executorsManager.status? e = t.status? e ∧
        e ∉ p.found ∧ isGone t.scheduler.executorsManager e = false := by
      intro e hw
      rw [hst, hr.mem_found]
      have hcases := h.held.status_of_working hw
      unfold Loop.status? at hcases ⊢
      unfold isGone
      rcases hcases with hs | hs | hs <;>
        simp [hs, Scheduler.ExecutorStatus.considered]
    have hlife : LifeCycle t
        { t with
          scheduler := p.scheduler
          phase := .issuing t.scheduler.executorsManager env p p.found Dict.empty } := by
      refine ⟨?_, ?_, ?_⟩
      · intro e
        change p.scheduler.executorsManager.status? e = t.status? e ∨
          ExecutorStatus.Arrow (t.status? e) (p.scheduler.executorsManager.status? e)
        rw [hst]
        cases hs : t.status? e with
        | none => exact Or.inl rfl
        | some st =>
            cases st with
            | idle => exact Or.inr .consider
            | idleNotAcceptingNewRequests => exact Or.inr .considerNotAccepting
            | _ => exact Or.inl rfl
      · intro e he
        change e ∈ p.scheduler.executorsManager.usedExecutorIds
        rw [hr.manager]
        exact he
      · intro e _ hnone
        refine (hst e).trans ?_
        rw [hnone]
        rfl
    refine ⟨⟨?_, ?_, ?_, π₂, ?_⟩, hlife⟩
    · have hheld := h.held
      rw [hphase] at hheld
      exact hheld.of_status rfl rfl ⟨rfl, rfl, rfl⟩ fun e hw => (hbusy e hw).1
    · refine ⟨?_, fun e he => absurd he (Dict.not_mem_empty e), fun e he hno => absurd he hno⟩
      intro e he
      refine (hst e).trans ?_
      rcases hr.mem_found.mp he with hs | hs
      · rw [show t.status? e = some .idle from hs]
        rfl
      · rw [show t.status? e = some .idleNotAcceptingNewRequests from hs]
        rfl
    · refine h.killers.of_status rfl hlife ?_ ?_
      · intro e hk hnone
        have hno := (hst e).symm.trans hnone
        rw [hk] at hno
        cases hno
      · intro e hne hnone
        refine hne ((hst e).trans ?_)
        rw [hnone]
        rfl
    · refine ⟨hr.refines, hr.ledger, hr.keyed hπ.keyed, ?_, ?_, ?_⟩
      · intro e m hf r hmem hknown hle
        obtain ⟨-, hnot, hgone⟩ := hbusy e ⟨m, hf⟩
        rw [hr.busy r e hnot, hr.resident]
        exact ⟨hπ.resident e m hf r hmem (hr.mem_requests hknown) hle, hgone⟩
      · intro start env' p' rest outs hp
        cases hp
        exact ⟨t.scheduler, π, π₁, rfl, hr, Issuing.start cfg p π₁ π₂ hr.nodup_found⟩
      · intro hdefer
        obtain ⟨hdef, hdrop⟩ := hπ.quiet hdefer
        exact ⟨(hr.quiet hdef).1, (hr.quiet hdef).2.trans hdrop⟩
  · trivial

end

theorem Sound.proceed (h : Sound cfg t) (hu : t.phase.updating? = none) {ph : Phase κ}
    (hu' : ph.updating? = none) (hfits : Fits { t with phase := ph })
    (hno : ∀ start env p rest outs, ph ≠ .issuing start env p rest outs) :
    Sound cfg { t with phase := ph } ∧ LifeCycle t { t with phase := ph } := by
  obtain ⟨π, hπ⟩ := h.placed
  have hlife : LifeCycle t { t with phase := ph } := LifeCycle.of_status (fun _ => rfl) rfl
  refine ⟨⟨?_, hfits, ⟨h.killers.killing, h.killers.nodup, h.killers.used⟩, π, ?_⟩, hlife⟩
  · have hheld := h.held
    rw [hu] at hheld
    change Held _ ph.updating?
    rw [hu']
    exact hheld.of_status rfl rfl ⟨rfl, rfl, rfl⟩ fun _ _ => rfl
  · refine ⟨hπ.refines, hπ.ledger, hπ.keyed, hπ.resident, ?_, hπ.quiet⟩
    intro start env p rest outs hp
    exact absurd hp (hno start env p rest outs)

theorem Sound.ensures_skipSchedule (h : Sound cfg t) :
    t.skipSchedule.Ensures (fun _ => True) fun t' => Sound cfg t' ∧ LifeCycle t t' := by
  unfold skipSchedule
  split
  · next hphase =>
    exact h.proceed (by rw [hphase]; rfl) rfl trivial fun _ _ _ _ _ hp => by cases hp
  · trivial

theorem Sound.ensures_issueNext (h : Sound cfg t) :
    (t.issueNext cfg).Ensures (fun _ => True) fun t' => Sound cfg t' ∧ LifeCycle t t' := by
  obtain ⟨π, hπ⟩ := h.placed
  unfold issueNext
  split
  · next start env p e rest outs hphase =>
    split_ifs
    · trivial
    obtain ⟨s₀, π₀, π₁, hstart, hr, hi⟩ := hπ.issuing _ _ _ _ _ hphase
    have hfits := h.fits
    unfold Fits at hfits
    rw [hphase] at hfits
    obtain ⟨hrest, houts, hskipped⟩ := hfits
    have hnow : t.status? e = some .consideredForScheduling := hrest e List.mem_cons_self
    have hne : t.status? e ≠ none := by simp [hnow]
    have hwork : ¬t.Working e :=
      h.held.not_working_of_status hnow (Or.inr (Or.inr (Or.inl rfl)))
    have hmem := ExecutorsManager.mem_of_status? hnow
    obtain ⟨hnotin, -⟩ := List.nodup_cons.mp hi.nodup
    rw [ensures_bind, ensures_raising]
    apply (hi.ensures_issue env hr hmem).mono (fun _ _ => trivial)
    rintro ⟨s, outs'⟩ ⟨hi', hcase⟩
    dsimp only at hi' hcase ⊢
    -- in both cases only this executor takes an arrow, and it is not one that works
    have hfinal : ∀ st, t.scheduler.executorsManager.setStatus e st = .ok s.executorsManager →
        ExecutorStatus.Arrow (some .consideredForScheduling) (some st) →
        (∀ e', e' ∈ outs' ↔ e' = e ∧ st = .scheduled ∨ e' ≠ e ∧ e' ∈ outs) →
        Sound cfg { t with scheduler := s, phase := .issuing start env p rest outs' } ∧
          LifeCycle t { t with scheduler := s, phase := .issuing start env p rest outs' } := by
      intro st hm harrow hmade
      obtain ⟨-, hused, hst, -⟩ := ensures_of_ok
        (ExecutorsManager.ensures_setStatus t.scheduler.executorsManager e st) hm
      have hlife : LifeCycle t
          { t with scheduler := s, phase := .issuing start env p rest outs' } := by
        refine LifeCycle.of_arrow (e := e) hst ?_ hne hused
        rw [hnow]
        exact harrow
      have hkeep : ∀ e', e' ≠ e → s.executorsManager.status? e' = t.status? e' :=
        fun e' he => (hst e').trans (if_neg he)
      refine ⟨⟨?_, ?_, h.killers.of_arrow rfl hlife hst hne, π, ?_⟩, hlife⟩
      · have hheld := h.held
        rw [hphase] at hheld
        refine hheld.of_status rfl rfl ⟨rfl, rfl, rfl⟩ fun e' hw => ?_
        exact hkeep e' fun heq => hwork (heq ▸ hw)
      · refine ⟨?_, ?_, ?_⟩
        · intro e' he'
          have he : e' ≠ e := fun heq => hnotin (heq ▸ he')
          exact (hkeep e' he).trans (hrest e' (List.mem_cons_of_mem e he'))
        · intro e' he'
          rcases (hmade e').mp he' with ⟨rfl, rfl⟩ | ⟨he, hold⟩
          · exact ⟨(hst e').trans (if_pos rfl), hwork⟩
          · obtain ⟨hs, hnot⟩ := houts e' hold
            exact ⟨(hkeep e' he).trans hs, hnot⟩
        · intro e' hfound hrest' houts' hs
          rw [hmade, not_or] at houts'
          by_cases he : e' = e
          · rw [he] at hs
            have hsame := ((hst e).trans (if_pos rfl)).symm.trans hs
            exact houts'.1 ⟨he, Option.some.inj hsame⟩
          · refine hskipped e' hfound ?_ (fun hold => houts'.2 ⟨he, hold⟩)
              ((hkeep e' he).symm.trans hs)
            rw [List.mem_cons]
            exact fun hc => hc.elim he hrest'
      · refine ⟨hi'.framed.refines hr.refines, hr.ledger.of_kept hi'.framed.kept,
          hπ.keyed.setStatus hm, ?_, ?_, ?_⟩
        · intro e' m hf r hmem' hknown hle
          apply hπ.resident e' m hf r hmem' _ hle
          rw [hi.framed.mem_requests]
          exact hi'.framed.mem_requests.mp hknown
        · intro start' env' p' rest' outs'' hp
          cases hp
          exact ⟨s₀, π₀, π₁, hstart, hr, hi'⟩
        · intro hdefer
          obtain ⟨hdef, hdrop⟩ := hπ.quiet hdefer
          rw [hi.framed.deferredRequests] at hdef
          rw [hi.framed.droppedDeferredRequests] at hdrop
          exact ⟨hi'.framed.deferredRequests.trans hdef,
            hi'.framed.droppedDeferredRequests.trans hdrop⟩
    have hold : ∀ e' ∈ outs, e' ≠ e := by
      rintro e' he' rfl
      have hs := (houts e' he').1
      rw [hnow] at hs
      cases hs
    rcases hcase with ⟨hm, rfl⟩ | ⟨hm, out, rfl⟩
    · apply hfinal .idle hm .giveBack
      intro e'
      constructor
      · exact fun he' => Or.inr ⟨hold e' he', he'⟩
      · rintro (⟨-, hst⟩ | ⟨-, he'⟩)
        · cases hst
        · exact he'
    · apply hfinal .scheduled hm .schedule
      intro e'
      rw [Dict.mem_set]
      by_cases he : e' = e
      · simp [he]
      · simp [he]
  · trivial

theorem flush_eq {start : ExecutorsManager} {env : ScheduleEnv} {p : Plan κ}
    {outs : Dict ExecutorId SchedulerOutput} (hphase : t.phase = .issuing start env p [] outs)
    (hflush : t.flushDue = false) : t.scheduler.flush p.found outs = outs := by
  unfold flush
  unfold flushDue at hflush
  rw [hphase] at hflush
  exact if_neg (of_decide_eq_false hflush)

theorem inFlight_of_dispatchTo {x : ExecutorId × SchedulerOutput} {m : Message}
    (hm : (t.dispatchTo x).InFlight e m) : t.InFlight e m ∨ (e, m.content) = x := by
  by_cases hn : m.number = t.numMessages
  · rcases hm with ⟨b, hb⟩ | hq
    · simp only [Loop.dispatchTo, Dict.get?_set, if_pos hn, Option.some.injEq,
        ExecuteTask.mk.injEq] at hb
      exact Or.inr (Prod.ext hb.1.symm hb.2.1.symm)
    · exact Or.inl (Or.inr hq)
  · exact Or.inl ((inFlight_dispatchTo x hn).mp hm)

structure Dispatched (l : List (ExecutorId × SchedulerOutput)) (t t' : Loop κ) : Prop where
  held : Held t' none
  scheduler : t'.scheduler = t.scheduler
  addedAt : t'.addedAt = t.addedAt
  shuttingDown : t'.shuttingDown = t.shuttingDown
  inFlight : ∀ e m, t'.InFlight e m → t.InFlight e m ∨ (e, m.content) ∈ l

theorem dispatched_foldl (l : List (ExecutorId × SchedulerOutput)) (t : Loop κ)
    (hnodup : (l.map Prod.fst).Nodup) (h : Held t none)
    (hl : ∀ x ∈ l, t.status? x.1 = some .scheduled ∧ ¬t.Working x.1) :
    Dispatched l t (l.foldl dispatchTo t) := by
  induction l generalizing t with
  | nil => exact ⟨h, rfl, rfl, rfl, fun _ _ hm => Or.inl hm⟩
  | cons x l ih =>
      rw [List.map_cons, List.nodup_cons] at hnodup
      obtain ⟨hst, hnot⟩ := hl x List.mem_cons_self
      have hrest : ∀ y ∈ l, (t.dispatchTo x).status? y.1 = some .scheduled ∧
          ¬(t.dispatchTo x).Working y.1 := by
        intro y hy
        obtain ⟨hst', hnot'⟩ := hl y (List.mem_cons_of_mem x hy)
        refine ⟨hst', ?_⟩
        rintro ⟨m, hm⟩
        rcases inFlight_of_dispatchTo hm with hm | heq
        · exact hnot' ⟨m, hm⟩
        · exact hnodup.1 (List.mem_map.mpr ⟨y, hy, (congrArg Prod.fst heq :)⟩)
      have hd := ih (t.dispatchTo x) hnodup.2 (h.dispatchTo hst hnot) hrest
      refine ⟨hd.held, hd.scheduler, hd.addedAt, hd.shuttingDown, ?_⟩
      intro e m hm
      rcases hd.inFlight e m hm with hm | hm
      · rcases inFlight_of_dispatchTo hm with hm | heq
        · exact Or.inl hm
        · exact Or.inr (heq ▸ List.mem_cons_self)
      · exact Or.inr (List.mem_cons_of_mem x hm)

theorem Sound.ensures_dispatch (h : Sound cfg t) (hflush : t.flushDue = false) :
    t.dispatch.Ensures (fun _ => True) fun t' => Sound cfg t' ∧ LifeCycle t t' := by
  obtain ⟨π, hπ⟩ := h.placed
  unfold dispatch
  split
  · next start env p outs hphase =>
    rw [flush_eq hphase hflush, ensures_ok]
    obtain ⟨s₀, π₀, π₁, -, hr, hi⟩ := hπ.issuing _ _ _ _ _ hphase
    have hfits := h.fits
    unfold Fits at hfits
    rw [hphase] at hfits
    have hheld := h.held
    rw [hphase] at hheld
    have hd := dispatched_foldl outs.entries t outs.nodup_keys hheld fun x hx =>
      hfits.2.1 x.1 (Dict.mem_of_get? (Dict.get?_of_mem_entries hx))
    generalize outs.entries.foldl dispatchTo t = t₁ at hd
    have hst : ∀ e, t₁.status? e = t.status? e := by
      intro e
      unfold Loop.status?
      rw [hd.scheduler]
    have hlife : LifeCycle t { t₁ with phase := .collecting true } :=
      LifeCycle.of_status hst (by rw [hd.scheduler])
    refine ⟨⟨?_, trivial, ?_, π, ?_⟩, hlife⟩
    · exact hd.held.of_status rfl rfl ⟨rfl, rfl, rfl⟩ fun _ _ => rfl
    · refine h.killers.of_status hd.shuttingDown hlife ?_ ?_
      · intro e hk hnone
        have hne := (hst e).symm.trans hnone
        rw [hk] at hne
        cases hne
      · intro e hne hnone
        exact hne ((hst e).trans hnone)
    · refine ⟨by rw [hd.scheduler]; exact hπ.refines, by rw [hd.scheduler]; exact hπ.ledger,
        by rw [hd.scheduler]; exact hπ.keyed, ?_, ?_, ?_⟩
      · intro e m hf r hmem hknown hle
        rcases hd.inFlight e m hf with hf | hnew
        · rw [hd.scheduler] at hknown
          rw [hd.addedAt] at hle
          exact hπ.resident e m hf r hmem hknown hle
        · obtain ⟨-, -, hout, -⟩ := hi.sent e m.content ((Dict.mem_entries_iff _ _ _).mp hnew)
          exact (hout.tokens r).mp hmem
      · intro start' env' p' rest' outs' hp
        cases hp
      · intro hdefer
        rw [hd.scheduler]
        exact hπ.quiet hdefer
  · trivial

/-! ## Results -/

theorem Sound.ensures_endWait (h : Sound cfg t) :
    t.endWait.Ensures (fun _ => True) fun t' => Sound cfg t' ∧ LifeCycle t t' := by
  unfold endWait
  split
  · next hphase =>
    split_ifs
    · exact h.proceed (by rw [hphase]; rfl) rfl trivial fun _ _ _ _ _ hp => by cases hp
    · trivial
  · trivial

theorem Sound.ensures_endCollect (h : Sound cfg t) :
    t.endCollect.Ensures (fun _ => True) fun t' => Sound cfg t' ∧ LifeCycle t t' := by
  unfold endCollect
  split
  · next hphase _ =>
    exact h.proceed (by rw [hphase]; rfl) rfl trivial fun _ _ _ _ _ hp => by cases hp
  · trivial

theorem Held.schedulerOutput_eq {u : Option ExecutorId} (h : Held t u) {y : QueuedOutput}
    (hy : y ∈ t.executorOutputQueue) : t.schedulerOutput y.executor = .ok y.message := by
  unfold schedulerOutput
  rw [subscript_of_get? _ (h.queued y hy).2.message]
  rfl

/-- Applying a result moves no request that is still known. -/
theorem location_of_applied {s s' : Scheduler κ} {π' : Placement} {done : List ReqId} {r : ReqId}
    {l : Loc} (hl : Ledger cfg s) (hr : Refines s π)
    (ha : Applied cfg { s with droppedDeferredRequests := [] } π done s' π') (hloc : π r = some l)
    (hknown : r ∈ s'.requests) : π' r = some l := by
  rcases ha.placement r with heq | ⟨-, hnone, -⟩
  · rw [heq]
    exact hloc
  · exfalso
    have hstate : r ∉ s'.requestStates := by
      rw [ha.refines.mem_requestStates_iff]
      rintro ⟨l', hl'⟩
      rw [hnone] at hl'
      cases hl'
    have hdef := ((ha.ledger.known r).mp hknown).resolve_left hstate
    rw [ha.ledger.queue, ha.deferredRequests, ← hl.queue] at hdef
    exact hl.apart r (hr.mem_requestStates_iff.mpr ⟨l, hloc⟩) hdef

theorem Sound.ensures_collect (h : Sound cfg t) :
    (t.collect cfg).Ensures (fun _ => True) fun t' => Sound cfg t' ∧ LifeCycle t t' := by
  obtain ⟨π, hπ⟩ := h.placed
  unfold collect
  split
  · next b y ys hphase hq =>
    split_ifs
    · trivial
    have hheld := h.held
    rw [hphase] at hheld
    have hy : y ∈ t.executorOutputQueue := by
      rw [hq]
      exact List.mem_cons_self
    rw [ensures_bind, ensures_raising, hheld.schedulerOutput_eq hy, ensures_ok,
      ensures_bind, ensures_raising]
    apply (ensures_applyOutput y.message.content y.output hπ.refines hπ.ledger).mono
      (fun _ _ => trivial)
    rintro ⟨s, outs⟩ ⟨done, π', -, ha, -⟩
    dsimp only at ha ⊢
    have hst : ∀ e, s.executorsManager.status? e = t.status? e := by
      intro e
      rw [ha.manager]
      rfl
    have hlife : LifeCycle t
        { t with
          scheduler := s
          phase := .releasing y.executor
          executorOutputQueue := ys } := LifeCycle.of_status hst (by rw [ha.manager])
    have htaken : Held
        { t with
          scheduler := s
          phase := .releasing y.executor
          executorOutputQueue := ys } (some y.executor) ∧
        ¬Working
        { t with
          scheduler := s
          phase := .releasing y.executor
          executorOutputQueue := ys } y.executor :=
      hheld.collect hq rfl rfl ⟨rfl, rfl, rfl⟩ hst
    obtain ⟨hheld', hnot⟩ := htaken
    refine ⟨⟨hheld', ?_, ?_, π', ?_⟩, hlife⟩
    · exact ⟨(hst y.executor).trans (hheld.queued y hy).1, hnot⟩
    · refine h.killers.of_status rfl hlife ?_ ?_
      · intro e hk hnone
        have hne := (hst e).symm.trans hnone
        rw [hk] at hne
        cases hne
      · intro e hne hnone
        exact hne ((hst e).trans hnone)
    · refine ⟨ha.refines, ha.ledger, ?_, ?_, ?_, ?_⟩
      · change s.executorsManager.Keyed
        rw [ha.manager]
        exact hπ.keyed
      · intro e m hf r hmem hknown hle
        have hf' : t.InFlight e m := by
          rcases hf with htask | ⟨res, hin⟩
          · exact Or.inl htask
          · refine Or.inr ⟨res, ?_⟩
            rw [hq]
            exact List.mem_cons_of_mem y hin
        obtain ⟨req, hreq⟩ := (Dict.mem_iff_exists _ _).mp hknown
        obtain ⟨req₀, hreq₀, -⟩ := ha.requests r req hreq
        exact location_of_applied hπ.ledger hπ.refines ha
          (hπ.resident e m hf' r hmem (Dict.mem_of_get? hreq₀) hle) hknown
      · intro start env p rest outs' hp
        cases hp
      · intro hdefer
        exact ⟨ha.deferredRequests.trans (hπ.quiet hdefer).1, ha.droppedDeferredRequests⟩
  · trivial

theorem Sound.ensures_release (h : Sound cfg t) :
    (t.release cfg).Ensures (fun _ => True) fun t' => Sound cfg t' ∧ LifeCycle t t' := by
  obtain ⟨π, hπ⟩ := h.placed
  unfold release
  split
  · next e hphase =>
    split_ifs
    · trivial
    have hfits := h.fits
    unfold Fits at hfits
    rw [hphase] at hfits
    obtain ⟨hnow, hwork⟩ : t.status? e = some .outputReady ∧ ¬t.Working e := hfits
    have hne : t.status? e ≠ none := by simp [hnow]
    rw [ensures_bind, ensures_raising]
    apply (ensures_releaseExecutor cfg t.scheduler e).mono (fun _ _ => trivial)
    rintro s ⟨st, m, hcase, hm, rfl⟩
    obtain ⟨-, hused, hst, -⟩ := ensures_of_ok
      (ExecutorsManager.ensures_setStatus t.scheduler.executorsManager e st) hm
    have hlife : LifeCycle t
        { t with
          scheduler := { t.scheduler with executorsManager := m }
          phase := .finishing e } := by
      refine LifeCycle.of_arrow (e := e) hst ?_ hne hused
      rw [hnow]
      rcases hcase with ⟨rfl, -⟩ | ⟨rfl, -⟩
      · exact .release
      · exact .releaseNotAccepting
    refine ⟨⟨?_, hwork, h.killers.of_arrow rfl hlife hst hne, π, ?_⟩, hlife⟩
    · have hheld := h.held
      rw [hphase] at hheld
      refine hheld.of_status rfl rfl ⟨rfl, rfl, rfl⟩ fun e' hw => ?_
      have he : e' ≠ e := fun heq => hwork (heq ▸ hw)
      exact (hst e').trans (if_neg he)
    · refine ⟨hπ.refines.of_manager m, hπ.ledger.of_manager m, hπ.keyed.setStatus hm,
        hπ.resident, ?_, hπ.quiet⟩
      intro start env p rest outs hp
      cases hp
  · trivial

theorem Sound.ensures_finishUpdate (h : Sound cfg t) :
    t.finishUpdate.Ensures (fun _ => True) fun t' => Sound cfg t' ∧ LifeCycle t t' := by
  obtain ⟨π, hπ⟩ := h.placed
  unfold finishUpdate
  split
  · next e hphase =>
    have hfits := h.fits
    unfold Fits at hfits
    rw [hphase] at hfits
    have hheld := h.held
    rw [hphase] at hheld
    rw [ensures_bind, ensures_raising]
    cases subscript t.backgroundTasks .backgroundTasks e with
    | error err => trivial
    | ok k =>
        refine ⟨⟨?_, trivial, ⟨h.killers.killing, h.killers.nodup, h.killers.used⟩, π, ?_⟩,
          LifeCycle.of_status (fun _ => rfl) rfl⟩
        · exact hheld.strike hfits rfl rfl rfl rfl rfl fun _ => rfl
        · refine ⟨hπ.refines, hπ.ledger, hπ.keyed, hπ.resident, ?_, hπ.quiet⟩
          intro start env p rest outs hp
          cases hp
  · trivial

end Loop

end TeDiServe

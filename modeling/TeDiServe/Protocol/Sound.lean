import TeDiServe.Protocol.Books

/-!
# The invariant of the engine loop

`Sound` joins the books of the loop with the placement behind the scheduler. The
requests of a message in flight that are still known are resident on its executor,
unless the id was given to another request after the message was made. In the
middle of stage 6 the scheduler is a call of `schedule()` in progress.

The events of the coroutines other than the busy loop change the manager only.
-/

namespace TeDiServe

def Phase.updating? {κ : Type} : Phase κ → Option ExecutorId
  | .releasing e => some e
  | .finishing e => some e
  | _ => none

namespace Scheduler

variable {κ : Type} {cfg : Config κ} {s : Scheduler κ} {p : Plan κ} {π₁ π₂ : Placement}
  {rest : List ExecutorId} {outs : Dict ExecutorId SchedulerOutput}

theorem Issuing.of_manager (h : Issuing cfg p π₁ π₂ rest s outs) (m : ExecutorsManager) :
    Issuing cfg p π₁ π₂ rest { s with executorsManager := m } outs :=
  ⟨h.framed.of_managers p.scheduler.executorsManager m, h.prepared, h.subset, h.nodup, h.free,
    h.sent, h.skipped⟩

end Scheduler

namespace Loop

open Scheduler

variable {κ : Type} {cfg : Config κ} {t t' : Loop κ} {e : ExecutorId} {n : ℕ}
  {u : Option ExecutorId} {π : Placement}

/-! ## The parts of the invariant -/

def Fits (t : Loop κ) : Prop :=
  match t.phase with
  | .inputs => True
  | .issuing _ _ p rest outs =>
      (∀ e ∈ rest, t.status? e = some .consideredForScheduling) ∧
        (∀ e ∈ outs, t.status? e = some .scheduled ∧ ¬t.Working e) ∧
        ∀ e ∈ p.found, e ∉ rest → e ∉ outs → t.status? e ≠ some .scheduled
  | .collecting _ => True
  | .releasing e => t.status? e = some .outputReady ∧ ¬t.Working e
  | .finishing e => ¬t.Working e

structure Killers (t : Loop κ) : Prop where
  killing : ∀ e ∈ t.shuttingDown, t.status? e = some .killing
  nodup : t.shuttingDown.Nodup
  used : ∀ e, t.status? e ≠ none → e ∈ t.scheduler.executorsManager.usedExecutorIds

structure LifeCycle (t t' : Loop κ) : Prop where
  status : ∀ e, t'.status? e = t.status? e ∨ ExecutorStatus.Arrow (t.status? e) (t'.status? e)
  used : ∀ e, e ∈ t.scheduler.executorsManager.usedExecutorIds →
    e ∈ t'.scheduler.executorsManager.usedExecutorIds
  removed : ∀ e, e ∈ t.scheduler.executorsManager.usedExecutorIds → t.status? e = none →
    t'.status? e = none

theorem LifeCycle.scheduled (h : LifeCycle t t') (hs : t'.status? e = some .scheduled) :
    t.status? e = some .scheduled ∨ t.status? e = some .consideredForScheduling := by
  rcases h.status e with hst | harrow
  · exact Or.inl (hst.symm.trans hs)
  · rw [hs] at harrow
    generalize t.status? e = o at harrow
    cases harrow
    exact Or.inr rfl

/-- There is a placement behind the scheduler that fits the messages in flight. -/
structure Placed (cfg : Config κ) (t : Loop κ) (π : Placement) : Prop where
  refines : Refines t.scheduler π
  ledger : Ledger cfg t.scheduler
  keyed : t.scheduler.executorsManager.Keyed
  resident : ∀ e m, t.InFlight e m → ∀ r, r ∈ m.content.numScheduledTokens →
    r ∈ t.scheduler.requests → t.addedAt.getD r 0 ≤ m.number → π r = some (.running e)
  issuing : ∀ start env p rest outs, t.phase = .issuing start env p rest outs →
    ∃ s₀ π₀ π₁, s₀.executorsManager = start ∧ Readied cfg s₀ π₀ p π₁ π ∧
      Issuing cfg p π₁ π rest t.scheduler outs
  quiet : cfg.maxNumUnfinishedRequests = none →
    t.scheduler.deferredRequests = [] ∧ t.scheduler.droppedDeferredRequests = []

structure Sound (cfg : Config κ) (t : Loop κ) : Prop where
  held : Held t t.phase.updating?
  fits : Fits t
  killers : Killers t
  placed : ∃ π, Placed cfg t π

theorem Fits.of_status (h : Fits t) (hphase : t'.phase = t.phase)
    (hw : ∀ e, t'.Working e ↔ t.Working e)
    (hst : ∀ e, ¬t.Working e → t.status? e = some .consideredForScheduling ∨
      t.status? e = some .scheduled ∨ t.status? e = some .outputReady →
        t'.status? e = t.status? e)
    (hconsidered : ∀ e, t.status? e = some .consideredForScheduling → ¬t.Working e)
    (hlife : LifeCycle t t') : Fits t' := by
  unfold Fits at h ⊢
  rw [hphase]
  cases hp : t.phase with
  | inputs => trivial
  | issuing start env p rest outs =>
      rw [hp] at h
      refine ⟨?_, ?_, ?_⟩
      · intro e he
        have hc := h.1 e he
        rw [hst e (hconsidered e hc) (Or.inl hc)]
        exact hc
      · intro e he
        obtain ⟨hs, hnot⟩ := h.2.1 e he
        rw [hst e hnot (Or.inr (Or.inl hs)), hw]
        exact ⟨hs, hnot⟩
      · intro e he hrest houts hs
        rcases hlife.scheduled hs with hs' | hc
        · exact h.2.2 e he hrest houts hs'
        · rw [hst e (hconsidered e hc) (Or.inl hc), hc] at hs
          cases hs
  | collecting b => trivial
  | releasing e =>
      rw [hp] at h
      obtain ⟨hs, hnot⟩ : t.status? e = some .outputReady ∧ ¬t.Working e := h
      change t'.status? e = some .outputReady ∧ ¬t'.Working e
      rw [hst e hnot (Or.inr (Or.inr hs)), hw]
      exact ⟨hs, hnot⟩
  | finishing e =>
      rw [hp] at h
      change ¬t'.Working e
      rw [hw]
      exact h

theorem Killers.of_status (h : Killers t) (hshut : t'.shuttingDown = t.shuttingDown)
    (hlife : LifeCycle t t') (hkill : ∀ e, t.status? e = some .killing → t'.status? e ≠ none)
    (hnew : ∀ e, t'.status? e ≠ none → t.status? e ≠ none) : Killers t' := by
  refine ⟨?_, by rw [hshut]; exact h.nodup, ?_⟩
  · intro e he
    rw [hshut] at he
    have hk := h.killing e he
    rcases hlife.status e with hst | harrow
    · rw [hst]
      exact hk
    · have hne := hkill e hk
      rw [hk] at harrow
      generalize ho : t'.status? e = o at harrow hne
      cases harrow
      exact absurd rfl hne
  · intro e he
    exact hlife.used e (h.used e (hnew e he))

/-- The events of the other coroutines: the busy loop stays where it is, and the
executors it deals with keep their status. -/
theorem Sound.outside {m : ExecutorsManager} (h : Sound cfg t)
    (hs : t'.scheduler = { t.scheduler with executorsManager := m })
    (hphase : t'.phase = t.phase) (hadd : t'.addedAt = t.addedAt)
    (hin : ∀ e m, t'.InFlight e m ↔ t.InFlight e m) (hkey : m.Keyed)
    (hheld : Held t' t.phase.updating?) (hkill : Killers t') (hlife : LifeCycle t t')
    (hst : ∀ e, ¬t.Working e → t.status? e = some .consideredForScheduling ∨
      t.status? e = some .scheduled ∨ t.status? e = some .outputReady →
        t'.status? e = t.status? e) : Sound cfg t' := by
  obtain ⟨π, hπ⟩ := h.placed
  refine ⟨by rw [hphase]; exact hheld, ?_, hkill, π, ?_⟩
  · refine h.fits.of_status hphase ?_ hst ?_ hlife
    · intro e
      unfold Working
      simp only [hin]
    · intro e hc
      exact h.held.not_working_of_status hc (Or.inr (Or.inr (Or.inl rfl)))
  · refine ⟨?_, ?_, ?_, ?_, ?_, ?_⟩
    · rw [hs]
      exact hπ.refines.of_manager m
    · rw [hs]
      exact hπ.ledger.of_manager m
    · rw [hs]
      exact hkey
    · intro e msg hf r hr hreq hle
      rw [hs] at hreq
      rw [hadd] at hle
      exact hπ.resident e msg ((hin e msg).mp hf) r hr hreq hle
    · intro start env p rest outs hp
      rw [hphase] at hp
      obtain ⟨s₀, π₀, π₁, hstart, hr, hi⟩ := hπ.issuing start env p rest outs hp
      rw [hs]
      exact ⟨s₀, π₀, π₁, hstart, hr, hi.of_manager m⟩
    · intro hdefer
      rw [hs]
      exact hπ.quiet hdefer

end Loop

end TeDiServe

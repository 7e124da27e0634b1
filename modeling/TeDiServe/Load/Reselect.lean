import TeDiServe.Load.Cap

/-!
# Thresholds when a batch changes

Stage 5 marks every record on an executor that a request has come to or has left, and
stage 6 searches the candidates again for a record that is marked. So the thresholds of
a message to an executor whose batch has changed are those that the search gives for the
new batch, in the state after the call as well.
-/

namespace TeDiServe

namespace Calls

open Scheduler

variable {κ : Type} {cfg : Config κ} {t : Calls κ}

/-- In every state of every run: all thresholds that a call sends are candidates, a
message schedules the requests that are on its executor after the call, and if these are
not the same as before, each threshold in the message is what the search over the
candidates gives for them. -/
theorem thresholds_reselected (cfg : Config κ) (hsorted : cfg.Sorted)
    {allowed : Calls κ → Call → Prop} (h : Reachable cfg allowed t) {env : ScheduleEnv}
    {s' : Scheduler κ} {outs : Dict ExecutorId SchedulerOutput}
    (hs : t.scheduler.schedule cfg env = .ok (s', outs)) (e : ExecutorId) (out : SchedulerOutput)
    (hout : outs.get? e = some out) :
    (∀ r c, out.confidenceThresholds.get? r = some c → c ∈ cfg.candidateConfidenceThresholds) ∧
    (∀ r, r ∈ out.confidenceThresholds → ∀ r', r' ∈ out.numScheduledTokens ↔ ResidentOn s' e r') ∧
    ((∃ r, ¬(ResidentOn t.scheduler e r ↔ ResidentOn s' e r)) →
      ∀ r c, out.confidenceThresholds.get? r = some c →
        Searched cfg env s' e out.numScheduledTokens.keys r c) := by
  have hcons := Reachable.consistent h
  obtain ⟨π, hπ⟩ := hcons.refines
  have hchosen := Reachable.chosen hsorted h
  obtain ⟨p, π₁, π₂, outs', hp, hr, hflush, ⟨s₀, π₀, s₁, hcourse⟩, hloop⟩ :=
    ensures_of_ok (ensures_schedule_course env hπ hcons.ledger hcons.keyed) hs
  dsimp only at hr hflush hloop
  obtain ⟨-, halike, hsent⟩ := ensures_of_ok (ensures_stage6_chosen hsorted env
    p.idleNotAcceptingExecutors hp.nodup_found
    (hcourse.fixing hp (hchosen.reusable hcons.ledger hp))) hloop
  have hπ₂ : Refines s' π₂ := hr.issued.framed.refines hp.refines
  rw [hflush] at hout
  rcases get?_flush hout with hout | ⟨-, -, hnone⟩
  · refine ⟨?_, ?_, ?_⟩
    · intro r c hc
      obtain ⟨⟨rs, -, hmem, -⟩, -⟩ := hsent e out hout r c hc
      exact hmem
    · intro _ _ r'
      rw [hπ₂.residentOn_iff]
      exact (hr.issued.sent e out hout).2.2.1.tokens r'
    · rintro ⟨r₀, hmoved⟩ r c hc
      have hd : AllDirty p.scheduler e := by
        apply hcourse.allDirty hp hchosen (r := r₀)
        intro hiff
        apply hmoved
        rw [hπ.residentOn_iff, hπ₂.residentOn_iff, hiff, hp.resident]
        exact (and_iff_left (hp.isGone_of_found (hr.issued.sent e out hout).1)).symm
      exact ((hsent e out hout r c hc).2 hd).of_alike halike.symm
  · rw [hnone]
    exact ⟨nofun, fun r hr' => absurd hr' (Dict.not_mem_empty r), fun _ => nofun⟩

def defaultApart : Config Unit :=
  { Config.small true true none with defaultConfidenceThreshold := 1 / 3 }

/-- A second request comes to the executor of the first, whose threshold is searched
again. -/
theorem thresholds_reselected_small : ∃ (t : Calls Unit) (s' : Scheduler Unit)
    (outs : Dict ExecutorId SchedulerOutput) (out : SchedulerOutput),
    Reachable defaultApart UniqueIds t ∧
    t.scheduler.schedule defaultApart .still = .ok (s', outs) ∧ outs.get? 0 = some out ∧
    out.confidenceThresholds.get? "a" = some (9 / 10) ∧
    Searched defaultApart .still s' 0 out.numScheduledTokens.keys "a" (9 / 10) := by
  obtain ⟨t, hreach, hbefore, hsched⟩ := exists_of_ensures
    (reachable_of_replay defaultApart uniqueIds_of_uniqueIds? [(0, [0])]
      [.addRequest (Request.small "a"), .schedule .still, .startExecution 0,
        .finishExecution 0 ⟨Dict.empty.set "a" 0, [[(1, 7)]]⟩, .updateFromOutput 0,
        .addRequest (Request.small "b")])
    (Q := fun t =>
      ((t.scheduler.requestStates.get? "b").bind RequestState.executorId) = none ∧
      (t.scheduler.schedule defaultApart .still).Ensures (fun _ => False) fun x =>
        ((x.1.requestStates.get? "b").bind RequestState.executorId) = some 0 ∧
        (x.2.get? 0).bind (fun out => out.confidenceThresholds.get? "a") = some (9 / 10))
    (by decide +kernel)
  have hsorted : defaultApart.Sorted := by
    unfold Config.Sorted
    decide +kernel
  obtain ⟨⟨s', outs⟩, hs, hafter, hthreshold⟩ := hsched.exists_ok
  obtain ⟨out, hout, hc⟩ := Option.bind_eq_some_iff.mp hthreshold
  refine ⟨t, s', outs, out, hreach, hs, hout, hc, ?_⟩
  refine (thresholds_reselected defaultApart hsorted hreach hs 0 out hout).2.2 ⟨"b", ?_⟩ "a" _ hc
  intro hiff
  obtain ⟨rs', hrs', he'⟩ := Option.bind_eq_some_iff.mp hafter
  obtain ⟨rs, hrs, he⟩ := hiff.mpr ⟨rs', hrs', he'⟩
  rw [hrs, Option.bind_some, he] at hbefore
  cases hbefore

end Calls

end TeDiServe

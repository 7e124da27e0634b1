import TeDiServe.Library.Lists
import TeDiServe.Placement.Budget
import TeDiServe.Worker.Replica

/-!
# Messages and the rows of a batch

A worker has one row for each of `max_num_seqs` requests, and it fails when a message brings
more. The scheduler keeps this number and never looks at it: what limits the requests on one
executor is the number of their tokens. So the rows are enough when no request is so short
that more of them than there are rows go into one step.
-/

namespace TeDiServe

/-- A worker that agrees with a message for which it has enough rows fails only if a new
request is too long for a row. -/
theorem Runner.Synced.ensures_updateStates_of_rows {w : WorkerConfig} {x : Runner}
    {msg : SchedulerOutput} {requests : Dict ReqId Request} (hx : Synced w x) (hm : msg.Suits x)
    (hrep : msg.Repeats requests) (hrows : msg.numScheduledTokens.keys.length ≤ w.maxNumReqs) :
    (x.updateStates w msg).Ensures (fun _ => ∃ d ∈ msg.scheduledNewReqs, ¬(d.state w).Fits w)
      fun _ => True := by
  obtain ⟨ys, hys⟩ := hrep.exists_entries
  apply (hx.ensures_updateStates hm hys).mono _ fun _ _ => trivial
  intro _ hno
  by_contra hfit
  push Not at hfit
  exact hno ⟨hrows, hfit⟩

theorem Scheduler.repeats_of_flush {κ : Type} {s : Scheduler κ} {found : List ExecutorId}
    {outs : Dict ExecutorId SchedulerOutput} {requests : Dict ReqId Request}
    (h : ∀ e out, outs.get? e = some out → out.Repeats requests) {e : ExecutorId}
    {out : SchedulerOutput} (hout : (s.flush found outs).get? e = some out) :
    out.Repeats requests := by
  unfold flush makeDropFlushSchedulerOutput at hout
  split_ifs at hout
  · split at hout
    · cases hout
    · rw [Dict.get?_set] at hout
      split_ifs at hout
      · cases hout
        exact ⟨fun _ hd => absurd hd List.not_mem_nil, [], [], rfl, rfl, .nil⟩
      · cases hout
  · exact h e out hout

namespace Calls

open Scheduler

variable {κ : Type} {cfg : Config κ} {t : Calls κ}

/-- No request is added of which `maxNumSeqs + 1` would go into one step. -/
def LongEnough (cfg : Config κ) (maxNumSeqs : ℕ) (_ : Calls κ) : Call → Prop
  | .addRequest req => cfg.maxNumScheduledTokens < (maxNumSeqs + 1) * req.numTokens
  | _ => True

/-- In runs without very short requests, a message has a row for each of its requests, and
a worker that agrees with it does not run out of rows. -/
theorem message_rows (w : WorkerConfig) (h : Reachable cfg (LongEnough cfg w.maxNumReqs) t)
    {env : ScheduleEnv} {s' : Scheduler κ} {outs : Dict ExecutorId SchedulerOutput}
    (hs : t.scheduler.schedule cfg env = .ok (s', outs)) {e : ExecutorId}
    {out : SchedulerOutput} (hout : outs.get? e = some out) :
    out.numScheduledTokens.keys.length ≤ w.maxNumReqs ∧
      ∀ x : Runner, Runner.Synced w x → out.Suits x →
        (x.updateStates w out).Ensures
          (fun _ => ∃ d ∈ out.scheduledNewReqs, ¬(d.state w).Fits w) fun _ => True := by
  have hnext : Transition.Reachable (Init cfg) (Step cfg (LongEnough cfg w.maxNumReqs))
      { t with
        scheduler := s'
        inFlight := outs.entries.foldl (fun d y => d.set y.1 ⟨y.2, none⟩) t.inFlight } :=
    Transition.Reachable.next h (a := .schedule env)
      ⟨trivial, trivial, by rw [next, hs]; rfl⟩
  have hlong : ∀ r req, s'.requests.get? r = some req →
      cfg.maxNumScheduledTokens < (w.maxNumReqs + 1) * req.numTokens :=
    Reachable.forall_requests
      (P := fun req => cfg.maxNumScheduledTokens < (w.maxNumReqs + 1) * req.numTokens)
      (fun req req' hreq hgoes => by rwa [hgoes.numTokens]) (fun _ _ hadd => hadd) hnext
  have hload := (Reachable.message_le h hs hout).1
  have hcons := Reachable.consistent h
  obtain ⟨π, hπ⟩ := hcons.refines
  obtain ⟨p, π₁, π₂, outs', hp, hr, hflush, -, -⟩ :=
    ensures_of_ok (ensures_schedule_course env hπ hcons.ledger hcons.keyed) hs
  dsimp only at hr hflush
  rw [hflush] at hout
  have hrows : out.numScheduledTokens.keys.length ≤ w.maxNumReqs := by
    rcases get?_flush hout with hsent | ⟨hempty, -, -⟩
    · apply List.length_le_of_sum_le _ hload
      intro r hr'
      have hrun := ((hr.issued.sent e out hsent).2.2.1.tokens r).mp hr'
      obtain ⟨req, hreq, -⟩ := (hr.issued.framed.refines hp.refines).request hrun
      rw [Scheduler.size, hreq]
      exact hlong r req hreq
    · rw [hempty]
      exact Nat.zero_le _
  have hrep := repeats_of_flush (fun e out hsent => (hr.issued.sent e out hsent).2.2.1.repeats) hout
  exact ⟨hrows, fun x hx hm => hx.ensures_updateStates_of_rows hm hrep hrows⟩

def longEnough? (cfg : Config κ) (maxNumSeqs : ℕ) (_ : Calls κ) : Call → Bool
  | .addRequest req => cfg.maxNumScheduledTokens < (maxNumSeqs + 1) * req.numTokens
  | _ => true

theorem longEnough_of_longEnough? (cfg : Config κ) (maxNumSeqs : ℕ) (t : Calls κ) (c : Call)
    (h : longEnough? cfg maxNumSeqs t c = true) : LongEnough cfg maxNumSeqs t c := by
  cases c with
  | addRequest req => exact (of_decide_eq_true h :)
  | _ => trivial

/-- Of three requests two go into a step of twelve tokens, and the worker has two rows. -/
theorem message_rows_small : ∃ (t : Calls Unit) (s' : Scheduler Unit)
    (outs : Dict ExecutorId SchedulerOutput) (out : SchedulerOutput),
    Reachable { Config.small true true none with maxNumScheduledTokens := 12 }
      (LongEnough { Config.small true true none with maxNumScheduledTokens := 12 } 2) t ∧
    t.scheduler.schedule { Config.small true true none with maxNumScheduledTokens := 12 } .still =
      .ok (s', outs) ∧
    outs.get? 0 = some out ∧ out.numScheduledTokens.keys = ["a", "b"] ∧
    out.numScheduledTokens.keys.length ≤ 2 := by
  obtain ⟨t, hreach, hcall⟩ := exists_of_ensures
    (reachable_of_replay { Config.small true true none with maxNumScheduledTokens := 12 }
      (longEnough_of_longEnough? { Config.small true true none with maxNumScheduledTokens := 12 } 2)
      [(0, [0])]
      (["a", "b", "c"].map fun r => .addRequest (Request.small r)))
    (Q := fun t =>
      (t.scheduler.schedule
      { Config.small true true none with maxNumScheduledTokens := 12 } .still).Ensures
        (fun _ => False) fun y => (y.2.get? 0).map (fun out => out.numScheduledTokens.keys) =
          some ["a", "b"]) (by decide +kernel)
  obtain ⟨⟨s', outs⟩, hs, hkeys⟩ := hcall.exists_ok
  obtain ⟨out, hout, hkeys⟩ := Option.map_eq_some_iff.mp hkeys
  exact ⟨t, s', outs, out, hreach, hs, hout, hkeys,
    (message_rows ⟨2, 8, 0⟩ hreach hs hout).1⟩

/-- Three requests of five tokens go into one step of a hundred, and a worker with two rows
fails. -/
theorem message_of_three_for_two_rows : ∃ (t : Calls Unit) (s' : Scheduler Unit)
    (outs : Dict ExecutorId SchedulerOutput) (out : SchedulerOutput),
    Reachable (Config.small true true none) (fun _ _ => True) t ∧
    t.scheduler.schedule (Config.small true true none) .still = .ok (s', outs) ∧
    outs.get? 0 = some out ∧ 2 < out.numScheduledTokens.keys.length ∧
    Runner.empty.updateStates ⟨2, 8, 0⟩ out = .error .assertion := by
  obtain ⟨t, hreach, hcall⟩ := exists_of_ensures
    (reachable_of_replay (Config.small true true none) Transition.allows_any [(0, [0])]
      (["a", "b", "c"].map fun r => .addRequest (Request.small r)))
    (Q := fun t =>
      (t.scheduler.schedule (Config.small true true none) .still).Ensures
      (fun _ => False) fun y => ∃ out ∈ y.2.get? 0, 2 < out.numScheduledTokens.keys.length ∧
        (Runner.empty.updateStates ⟨2, 8, 0⟩ out).Ensures (fun err => err = .assertion)
          fun _ => False) (by decide +kernel)
  obtain ⟨⟨s', outs⟩, hs, out, hout, hlen, hworker⟩ := hcall.exists_ok
  obtain ⟨err, herr, rfl⟩ := Except.Ensures.exists_error hworker
  exact ⟨t, s', outs, out, hreach, hs, hout, hlen, herr⟩

end Calls

end TeDiServe

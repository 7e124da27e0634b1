import TeDiServe.Placement.Run

/-!
# Results for an id that was used again

A result is applied to the requests that the scheduler knows under the ids of the message
when the result arrives. If a request was aborted while its step was executed, and its id
was used for another request before the result has arrived, the result is applied to the
other request: its tokens are written into it, they are told to the front end, and they
may end it.

`Tagged` is a run that remembers, for every executor, how often each id had been used
when the last message was sent to it. An entry of the message is stale when its id was
used since.
-/

namespace TeDiServe

/-- A run with, for every executor, the number of uses of each id when the last message
was sent. -/
structure Tagged (κ : Type) where
  calls : Calls κ
  sent : ExecutorId → ReqId → ℕ

namespace Tagged

open Scheduler

variable {κ : Type} {cfg : Config κ} {a : Tagged κ} {e : ExecutorId}

def sentAfter (cfg : Config κ) (a : Tagged κ) : Call → ExecutorId → ReqId → ℕ
  | .schedule env =>
      match a.calls.scheduler.schedule cfg env with
      | .ok x => fun e => if e ∈ x.2 then (a.calls.usedReqIds.count ·) else a.sent e
      | .error _ => a.sent
  | _ => a.sent

def next (cfg : Config κ) (a : Tagged κ) (c : Call) : Except PyError (Tagged κ) := do
  let t ← a.calls.next cfg c
  pure ⟨t, a.sentAfter cfg c⟩

def Init (cfg : Config κ) (a : Tagged κ) : Prop :=
  Calls.Init cfg a.calls ∧ a.sent = fun _ _ => 0

def Step (cfg : Config κ) (a : Tagged κ) (c : Call) (a' : Tagged κ) : Prop :=
  a.calls.Possible cfg c ∧ a.next cfg c = .ok a'

abbrev Reachable (cfg : Config κ) : Tagged κ → Prop :=
  Transition.Reachable (Init cfg) (Step cfg)

/-- The id was used for another request since the message to `e` was sent. -/
def Stale (a : Tagged κ) (e : ExecutorId) (r : ReqId) : Prop :=
  a.sent e r ≠ a.calls.usedReqIds.count r

/-- Nothing of a result is applied to the request `r`: its records are the same, and
nothing is told about it beside the reports on dropped requests, which come first. -/
def Untouched (s s' : Scheduler κ) (outs : List EngineCoreOutput) (r : ReqId) : Prop :=
  s'.requests.get? r = s.requests.get? r ∧ s'.requestStates.get? r = s.requestStates.get? r ∧
    ∀ out ∈ outs.drop s.droppedDeferredRequests.length, out.requestId ≠ r

theorem Reachable.calls (h : Reachable cfg a) :
    Calls.Reachable cfg (fun _ _ => True) a.calls := by
  induction h with
  | start h => exact .start h.1
  | @next a a' c _ hstep ih =>
      obtain ⟨hp, hn⟩ := hstep
      unfold Tagged.next at hn
      cases ht : a.calls.next cfg c with
      | error err =>
          rw [ht] at hn
          cases hn
      | ok t =>
          rw [ht] at hn
          cases hn
          exact ih.next ⟨hp, trivial, ht⟩

end Tagged

namespace Scheduler

variable {κ : Type} {cfg : Config κ} {s s' : Scheduler κ} {π : Placement} {r : ReqId}
  {e : ExecutorId} {msg : SchedulerOutput} {res : ModelRunnerOutput}
  {outs : List EngineCoreOutput}

theorem of_stepOutput {out : EngineCoreOutput} (h : s.stepOutput res r = some out) :
    out.requestId = r ∧ r ∈ s.requests := by
  unfold stepOutput at h
  simp only [Option.bind_eq_bind, Option.pure_def, Option.bind_eq_some_iff] at h
  obtain ⟨req, hreq, ts, -, y, -, hout⟩ := h
  cases hout
  exact ⟨rfl, Dict.mem_of_get? hreq⟩

/-- A result leaves the request of an entry alone exactly if no such request is known. -/
theorem untouched_iff (h : Refines s π) (hl : Ledger cfg s)
    (hupd : s.updateFromOutput cfg e msg res = .ok (s', outs)) (hr : r ∈ msg.numScheduledTokens) :
    Tagged.Untouched s s' outs r ↔ r ∉ s.requests := by
  unfold updateFromOutput at hupd
  cases happly : s.applyOutput cfg msg res with
  | error err =>
      rw [happly] at hupd
      cases hupd
  | ok x =>
      obtain ⟨done, π', -, happ, hprog⟩ :=
        ensures_of_ok (ensures_applyOutput msg res h hl) happly
      obtain ⟨m, rfl, rfl⟩ : ∃ m, s' = { x.1 with executorsManager := m } ∧ outs = x.2 := by
        rw [happly] at hupd
        cases hrel : x.1.releaseExecutor cfg e with
        | error err =>
            simp only [bind, Except.bind, hrel] at hupd
            cases hupd
        | ok s₁ =>
            simp only [bind, Except.bind, hrel] at hupd
            cases hupd
            obtain ⟨-, m, -, -, hm⟩ := ensures_of_ok (ensures_releaseExecutor cfg x.1 e) hrel
            exact ⟨m, hm, rfl⟩
      have hsteps : x.2.drop s.droppedDeferredRequests.length =
          msg.numScheduledTokens.keys.filterMap (s.stepOutput res) := by
        rw [hprog.outputs, List.reverse_reverse]
        apply List.drop_left'
        simp [reportDropped]
      unfold Tagged.Untouched
      rw [hsteps]
      constructor
      · rintro ⟨-, -, hnone⟩ hknown
        obtain ⟨req, hreq⟩ := (Dict.mem_iff_exists _ _).mp hknown
        obtain ⟨ts, y, hts, hy, -⟩ := hprog.stepped r (List.mem_reverse.mpr hr) req hreq
        have hout : s.stepOutput res r = some
            { clientIndex := req.clientIndex
              requestId := r
              newTokenIds := ts
              finishReason := y.1.status.getFinishedReason } := by
          simp [stepOutput, hreq, hts, hy, Except.toOption]
        exact hnone _ (List.mem_filterMap.mpr ⟨r, hr, hout⟩) rfl
      · intro hunknown
        have hsame := hprog.others r (Or.inr hunknown)
        refine ⟨hsame, ?_, ?_⟩
        · have hnone : s.requestStates.get? r = none :=
            (Dict.get?_eq_none_iff _ _).mpr fun hmem => hunknown (h.known r hmem)
          have hnone' : x.1.requestStates.get? r = none := by
            rw [Dict.get?_eq_none_iff]
            intro hmem
            have hknown := happ.refines.known r hmem
            rw [Dict.mem_iff_exists, hsame, ← Dict.mem_iff_exists] at hknown
            exact hunknown hknown
          dsimp only
          rw [hnone, hnone']
        · intro out hout heq
          obtain ⟨r', -, hr'⟩ := List.mem_filterMap.mp hout
          obtain ⟨hid, hknown⟩ := of_stepOutput hr'
          rw [heq] at hid
          rw [← hid] at hknown
          exact hunknown hknown

end Scheduler

namespace Tagged

open Scheduler

variable {κ : Type} {cfg : Config κ} {a : Tagged κ} {e : ExecutorId} {msg : SchedulerOutput}
  {res : ModelRunnerOutput} {s' : Scheduler κ} {outs : List EngineCoreOutput}

/-- In every state of every run, a result is kept from the requests whose ids were used
again since its message was sent, exactly if none of these requests is known any more. -/
theorem stale_output_isolated_iff (cfg : Config κ) (h : Reachable cfg a)
    (hupd : a.calls.scheduler.updateFromOutput cfg e msg res = .ok (s', outs)) :
    (∀ r ∈ msg.numScheduledTokens, a.Stale e r → Untouched a.calls.scheduler s' outs r) ↔
      ∀ r ∈ msg.numScheduledTokens, a.Stale e r → r ∉ a.calls.scheduler.requests := by
  have hcons := h.calls.consistent
  obtain ⟨π, hπ⟩ := hcons.refines
  apply forall_congr'
  intro r
  apply forall_congr'
  intro hr
  apply imp_congr_right
  intro _
  exact untouched_iff hπ hcons.ledger hupd hr

def proceed (cfg : Config κ) (calls : List Call) (a : Tagged κ) : Except PyError (Tagged κ) :=
  calls.foldlM (fun a c => if a.calls.possible? c then a.next cfg c else throw .runtime) a

def replay (cfg : Config κ) (launches : List (ExecutorId × List ℕ)) (calls : List Call) :
    Except PyError (Tagged κ) := do
  let t ← Calls.replay cfg (fun _ _ => true) launches []
  proceed cfg calls ⟨t, fun _ _ => 0⟩

theorem reachable_of_replay (cfg : Config κ) (launches : List (ExecutorId × List ℕ))
    (calls : List Call) :
    (replay cfg launches calls).Ensures (fun _ => True) (Reachable cfg) := by
  unfold replay Calls.replay
  rw [ensures_bind]
  refine Calls.ensures_launch cfg launches fun s hs =>
    Transition.ensures_reachable (fun a c a' hn => ?_) calls (.start ⟨hs, rfl⟩)
  split_ifs at hn with hc
  exact ⟨Calls.possible_of_possible? cfg hc, hn⟩

/-- The request `a` is aborted while its step runs on executor 0, and its id is used for
another request, which is sent to executor 1. Then the first step ends. -/
def usedAgain : List Call :=
  [.addRequest (Request.small "a"), .addRequest (Request.small "b"), .schedule .still,
    .startExecution 0, .launch 1 [1],
    .finishRequests (.many ["a"]) .finishedAborted (fun _ => 0),
    .addRequest (Request.small "a"), .schedule .still,
    .finishExecution 0 ⟨(Dict.empty.set "a" 0).set "b" 1, [[(1, 7)], [(1, 8)]]⟩]

/-- The request that took over the id gets the token of the one that was aborted. -/
theorem stale_output_applied : ∃ (a : Tagged Unit) (msg : SchedulerOutput)
    (res : ModelRunnerOutput) (s' : Scheduler Unit) (outs : List EngineCoreOutput),
    Reachable (Config.small true true none) a ∧
    a.calls.inFlight.get? 0 = some ⟨msg, some res⟩ ∧
    a.calls.scheduler.updateFromOutput (Config.small true true none) 0 msg res =
      .ok (s', outs) ∧
    "a" ∈ msg.numScheduledTokens ∧ a.Stale 0 "a" ∧
    (a.calls.scheduler.requests.get? "a").map Request.unmaskedTokenIds = some [] ∧
    (s'.requests.get? "a").map Request.unmaskedTokenIds = some [(1, 7)] ∧
    outs.map EngineCoreOutput.requestId = ["a", "b"] := by
  obtain ⟨a, hreach, hstale, hbefore, ⟨msg, res?⟩, hf, res, hres, hmem, hupd⟩ := exists_of_ensures
    (reachable_of_replay (Config.small true true none) [(0, [0])] usedAgain)
    (Q := fun a => a.sent 0 "a" ≠ a.calls.usedReqIds.count "a" ∧
      (a.calls.scheduler.requests.get? "a").map Request.unmaskedTokenIds = some [] ∧
      ∃ f ∈ a.calls.inFlight.get? 0, ∃ res ∈ f.result, "a" ∈ f.message.numScheduledTokens ∧
        (a.calls.scheduler.updateFromOutput (Config.small true true none) 0 f.message
          res).Ensures (fun _ => False) fun x =>
            (x.1.requests.get? "a").map Request.unmaskedTokenIds = some [(1, 7)] ∧
            x.2.map EngineCoreOutput.requestId = ["a", "b"]) (by decide +kernel)
  obtain ⟨⟨s', outs⟩, hs', hafter, houts⟩ := hupd.exists_ok
  rw [Option.mem_def] at hf hres
  dsimp only at hres
  rw [hres] at hf
  exact ⟨a, msg, res, s', outs, hreach, hf, hs', hmem, hstale, hbefore, hafter, houts⟩

/-- When the second request with the id was aborted too, the result is not applied. -/
theorem stale_output_isolated_small : ∃ (a : Tagged Unit) (msg : SchedulerOutput)
    (res : ModelRunnerOutput) (s' : Scheduler Unit) (outs : List EngineCoreOutput),
    Reachable (Config.small true true none) a ∧
    a.calls.inFlight.get? 0 = some ⟨msg, some res⟩ ∧
    a.calls.scheduler.updateFromOutput (Config.small true true none) 0 msg res =
      .ok (s', outs) ∧
    "a" ∈ msg.numScheduledTokens ∧ a.Stale 0 "a" ∧
    ∀ r ∈ msg.numScheduledTokens, a.Stale 0 r → Untouched a.calls.scheduler s' outs r := by
  obtain ⟨a, hreach, hstale, ⟨msg, res?⟩, hf, res, hres, hmem, hgone, hupd⟩ := exists_of_ensures
    (reachable_of_replay (Config.small true true none) [(0, [0])]
      (usedAgain ++ [.finishRequests (.many ["a"]) .finishedAborted (fun _ => 0)]))
    (Q := fun a =>
      a.sent 0 "a" ≠ a.calls.usedReqIds.count "a" ∧
      ∃ f ∈ a.calls.inFlight.get? 0, ∃ res ∈ f.result,
        "a" ∈ f.message.numScheduledTokens ∧
        (∀ r ∈ f.message.numScheduledTokens.keys, a.sent 0 r ≠ a.calls.usedReqIds.count r →
          r ∉ a.calls.scheduler.requests) ∧
        (a.calls.scheduler.updateFromOutput (Config.small true true none) 0 f.message
          res).Ensures (fun _ => False) fun _ => True) (by decide +kernel)
  obtain ⟨⟨s', outs⟩, hs', -⟩ := hupd.exists_ok
  rw [Option.mem_def] at hf hres
  dsimp only at hres
  rw [hres] at hf
  exact ⟨a, msg, res, s', outs, hreach, hf, hs', hmem, hstale,
    (stale_output_isolated_iff _ hreach hs').mpr hgone⟩

end Tagged

end TeDiServe

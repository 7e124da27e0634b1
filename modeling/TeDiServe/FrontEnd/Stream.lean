import TeDiServe.FrontEnd.Detokenizer
import TeDiServe.Worker.Denoise

/-!
# The front end follows the denoising of a request

Scheduler, worker and front end count the unmasked positions of a request separately. The
front end is told the pairs of every step together with those of other requests, and in the
last step that the request has ended. It then says so itself, and not before.
-/

namespace TeDiServe

def OutputProcessor.deliver (p : OutputProcessor) (batch : ℕ → List EngineCoreOutput) :
    ℕ → OutputProcessor × List ReqId
  | 0 => (p, [])
  | k + 1 =>
      let x := p.deliver batch k
      let y := x.1.processOutputs (batch k)
      (y.1, x.2 ++ y.2)

namespace Denoising

open Detokenizer

variable {κ : Type} {cfg : Config κ} {w : WorkerConfig} {req : Request} {x : Denoising}

/-- The detokenizer of a front end that was told everything emitted so far. -/
def follower (w : WorkerConfig) (req : Request) (x : Denoising) : Detokenizer :=
  x.emitted.flatten.foldl writeToken (create req w.maskTokenId)

/-- It has the output that the worker has, and has counted what the scheduler has. -/
theorem Sound.follower (h : Sound w req x) :
    (x.follower w req).Tracks w.maskTokenId req x.emitted.flatten ∧
      (x.follower w req).numUnmaskedTokens = x.request.numUnmaskedTokens := by
  have hin : req.InOutput x.emitted.flatten := by
    intro p hp
    rw [h.flatten] at hp
    rw [← h.promptTokenIds, ← h.maxTokens]
    exact h.tracked.inOutput p hp
  have hcreate := tracks_create req w.maskTokenId
  refine ⟨hcreate.foldl_writeToken hin, ?_⟩
  refine (hcreate.numUnmaskedTokens_foldl hin ?_ fun p hp => ?_).trans ?_
  · rw [h.flatten]
    exact h.tracked.nodup
  · have hp := hin p hp
    simp only [create, List.getElem?_replicate]
    rw [if_pos (by omega)]
  · rw [h.flatten]
    exact Nat.zero_add _

theorem ensures_step_emitted (x : Denoising) (y : DenoiseInput) :
    (x.step cfg w y).Ensures (fun _ => True) fun x' => ∃ pairs, x'.emitted = x.emitted ++ [pairs] :=
  ensures_bind_any _ fun _ => ensures_bind_any _ fun _ => ensures_bind_any _ fun pairs =>
    ensures_bind_any _ fun _ => ⟨pairs, rfl⟩

/-- The batch of the step has the output of the request, and at most one output each of
others. -/
def Reports (req : Request) (x : Denoising) (outs : List EngineCoreOutput) : Prop :=
  (outs.map EngineCoreOutput.requestId).Nodup ∧ ∃ out ∈ outs, out.requestId = req.requestId ∧
    out.newTokenIds = x.emitted.getLastD [] ∧
    out.finishReason = if x.stopped then some .stop else none

/-- The detokenizer says "stop" exactly when the step has ended the request. -/
theorem Sound.update_follower {x' : Denoising} {pairs : List (ℕ × Token)} (h : Sound w req x')
    (hemit : x'.emitted = x.emitted ++ [pairs]) :
    (x.follower w req).update pairs =
      (x'.follower w req, if x'.stopped then some "stop" else none) := by
  have hne := h.nonempty pairs (by simp [hemit])
  obtain ⟨htracks, hcount⟩ := h.follower
  have htold : pairs.foldl writeToken (x.follower w req) = x'.follower w req := by
    simp [Denoising.follower, hemit]
  have hstops := h.stops
  rw [← hcount, h.maxTokens, ← htracks.outputLength] at hstops
  simp only [update, if_neg hne, htold, ← hstops]

/-- As long as the request has not ended, the front end waits for it with the output that the
worker has, whatever else comes in the batches; when it has ended, the front end does not wait
for it any longer; and it never asks the engine to abort it. -/
theorem front_end_follows (cfg : Config κ) (w : WorkerConfig) (hreq : req.Constructed)
    (hout : 0 < req.maxTokens) (hfit : req.numTokens ≤ w.maxModelLen) (hrows : 0 < w.maxNumReqs)
    (inputs : ℕ → DenoiseInput)
    (hgood : ∀ k x, (start req).run cfg w inputs k = .ok x → x.stopped = false →
      x.Good cfg w (inputs k))
    {p₀ p : OutputProcessor} (hp : p₀.addRequest req w.maskTokenId = .ok p)
    (batch : ℕ → List EngineCoreOutput) (k : ℕ)
    (hbatch : ∀ j < k, ∀ x, (start req).run cfg w inputs (j + 1) = .ok x →
      Reports req x (batch j))
    (hgo : ∀ j < k, ∀ x, (start req).run cfg w inputs j = .ok x → x.stopped = false) :
    ∃ x, (start req).run cfg w inputs k = .ok x ∧
      req.requestId ∉ (p.deliver batch k).2 ∧
      ((p.deliver batch k).1.requestStates.get? req.requestId = none ↔ x.stopped = true) ∧
      ∀ d, (p.deliver batch k).1.requestStates.get? req.requestId = some d →
        d.tokenIds = req.outputWith w.maskTokenId x.emitted.flatten ∧
        (x.emitted ≠ [] → ∃ st, x.worker.requests.get? req.requestId = some st ∧
          st.outputTokenIds = d.tokenIds) := by
  have hstart := sound_start hreq hout w
  have hrun := hstart.run hfit (hreq.tracked w.maskTokenId).1.length hrows hgood
  suffices hall : ∀ x, (start req).run cfg w inputs k = .ok x →
      req.requestId ∉ (p.deliver batch k).2 ∧
      (p.deliver batch k).1.requestStates.get? req.requestId =
        if x.stopped then none else some (x.follower w req) by
    obtain ⟨x, hx, hsound, -, -⟩ := hrun k hgo
    obtain ⟨hno, hget⟩ := hall x hx
    refine ⟨x, hx, hno, ?_, fun d hd => ?_⟩
    · rw [hget]
      split_ifs with hstop <;> simp [hstop]
    · rw [hget] at hd
      split_ifs at hd
      cases hd
      refine ⟨hsound.follower.1.tokenIds, fun hne => ?_⟩
      obtain ⟨-, -, st, hst, hholds⟩ := hsound.worker hne
      rw [hsound.requestId] at hst
      refine ⟨st, hst, ?_⟩
      rw [(hholds.of_eq hsound.promptTokenIds.symm hsound.maxTokens.symm).outputTokenIds,
        ← hsound.flatten, hsound.follower.1.tokenIds]
  induction k with
  | zero =>
      rintro _ ⟨⟩
      refine ⟨List.not_mem_nil, ?_⟩
      unfold OutputProcessor.addRequest at hp
      split_ifs at hp
      cases hp
      exact Dict.get?_set_self _ _ _
  | succ k ih =>
      intro x' hx'
      have hgo' := fun j hj => hgo j (Nat.lt_succ_of_lt hj)
      obtain ⟨x, hx, hsound, -, -⟩ := hrun k hgo'
      obtain ⟨x'', hx'', hsound', -, -⟩ := hrun (k + 1) hgo
      obtain rfl : x' = x'' := Except.ok.inj (hx'.symm.trans hx'')
      obtain ⟨hno, hget⟩ := ih (fun j hj => hbatch j (Nat.lt_succ_of_lt hj))
        hgo' x hx
      rw [hgo k (Nat.lt_succ_self k) x hx, if_neg Bool.false_ne_true] at hget
      obtain ⟨hnodup, out, hmem, hid, hlast, hreason⟩ := hbatch k (Nat.lt_succ_self k) x' hx'
      rw [Denoising.run, hx] at hx'
      obtain ⟨pairs, hemit⟩ := ensures_of_ok (ensures_step_emitted x (inputs k)) hx'
      obtain rfl : out.newTokenIds = pairs := by simpa [hemit] using hlast
      have hupdate := hsound'.update_follower hemit
      constructor
      · refine List.mem_append.not.mpr (not_or.mpr ⟨hno, ?_⟩)
        refine OutputProcessor.not_mem_aborts_foldl _ List.not_mem_nil hnodup ?_
        intro out' hmem' hid' d hd hsaid
        obtain rfl := List.inj_on_of_nodup_map hnodup hmem' hmem (hid'.trans hid.symm)
        obtain rfl : x.follower w req = d := Option.some.inj (hget.symm.trans hd)
        rw [hupdate] at hsaid
        rw [hreason]
        cases hstop : x'.stopped <;> simp [hstop] at hsaid ⊢
      · have hafter := OutputProcessor.get?_foldl_of_mem ((p.deliver batch k).1, []) hnodup hmem
        rw [hid, hget, Option.bind_some] at hafter
        refine hafter.trans ?_
        cases hstop : x'.stopped <;> simp [OutputProcessor.settle, hupdate, hreason, hstop]

/-- The batches in which only this request is reported. -/
def reports (cfg : Config κ) (w : WorkerConfig) (req : Request) (inputs : ℕ → DenoiseInput)
    (j : ℕ) : List EngineCoreOutput :=
  match (start req).run cfg w inputs (j + 1) with
  | .ok x =>
      [⟨0, req.requestId, x.emitted.getLastD [], if x.stopped then some .stop else none⟩]
  | .error _ => []

theorem reports_run {inputs : ℕ → DenoiseInput} {j : ℕ}
    (hx : (start req).run cfg w inputs (j + 1) = .ok x) :
    Reports req x (reports cfg w req inputs j) := by
  rw [reports, hx]
  exact ⟨List.nodup_singleton _, _, List.mem_singleton_self _, rfl, rfl, rfl⟩

/-- Six positions in blocks of two, one in every step. The front end waits for the request
until the sixth step. -/
theorem front_end_follows_six : ∃ req p batch, Request.create "a" 0 0 none [1] 0 6 2 = .ok req ∧
    req.requestId ∈ (OutputProcessor.deliver p batch 5).1.requestStates ∧
    req.requestId ∉ (p.deliver batch 6).1.requestStates ∧
    req.requestId ∉ (p.deliver batch 6).2 := by
  let inputs : ℕ → DenoiseInput := fun _ => ⟨true, 1 / 2, fun pos => (7, 1 / (1 + pos))⟩
  have hrun : (Request.create "a" 0 0 none [1] 0 6 2).Ensures (fun _ => False) fun req =>
      req.maxTokens = 6 ∧ req.numTokens = 7 ∧ ∀ j ∈ List.range 7,
      ((start req).run (Config.small true true none) ⟨1, 10, 0⟩ inputs j).Ensures (fun _ => False)
        fun x => x.stopped = decide (j = 6) := by
    decide +kernel
  obtain ⟨req, hreq, hmax, hnum, hrun⟩ := hrun.exists_ok
  have hstopped : ∀ j < 7, ∀ x,
      (start req).run (Config.small true true none) ⟨1, 10, 0⟩ inputs j = .ok x →
        x.stopped = decide (j = 6) := by
    intro j hj x hx
    have hstop := ensures_of_ok (hrun j (List.mem_range.mpr hj)) hx
    exact hstop
  have hfollow := fun k (hk : k < 7) =>
    front_end_follows (Config.small true true none) ⟨1, 10, 0⟩
      ⟨_, _, _, _, _, _, _, _, hreq⟩ (by rw [hmax]; decide) (by rw [hnum]; decide) (by decide)
      inputs
      (fun k x _ _ => ⟨x.request.stepShape_of_caches rfl _, fun _ _ => Nat.succ_ne_zero 6⟩)
      (show OutputProcessor.addRequest ⟨.empty⟩ req 0 = .ok _ from rfl)
      (reports (Config.small true true none) ⟨1, 10, 0⟩ req inputs) k
      (fun j _ x hx => reports_run hx)
      (fun j hj x hx => by
        rw [hstopped j (hj.trans hk) x hx]
        exact decide_eq_false (by omega))
  obtain ⟨x, hx, -, hiff, -⟩ := hfollow 5 (by decide)
  obtain ⟨x', hx', hno', hiff', -⟩ := hfollow 6 (by decide)
  rw [Dict.get?_eq_none_iff] at hiff hiff'
  refine ⟨req, _, _, hreq, not_not.mp fun hmem => ?_, ?_, hno'⟩
  · have hstop := hiff.mp hmem
    rw [hstopped 5 (by decide) x hx] at hstop
    cases hstop
  · rw [hiff', hstopped 6 (by decide) x' hx']
    rfl

end Denoising

end TeDiServe

import TeDiServe.Worker.Replica

/-!
# The detokenizers of the front end

The front end keeps the output of every request as well. It is told the pairs of each step,
writes them into an output that is masked in the beginning, and counts those that replace a
mask token. When as many were counted as there are positions, it takes the request to be
complete, and it asks the engine to abort the request if that has not ended it.

The texts that the tokens stand for, logprobs and the parents of requests that are sampled
several times are left out.
-/

namespace TeDiServe

/-- `BaseIncrementalDetokenizer`. The dictionary of tokens has the positions of the output as
keys. -/
structure Detokenizer where
  promptLength : ℕ
  outputLength : ℕ
  maskTokenId : Token
  tokenIds : List Token
  numUnmaskedTokens : ℕ
  deriving DecidableEq

namespace Detokenizer

def create (req : Request) (maskTokenId : Token) : Detokenizer :=
  { promptLength := req.promptTokenIds.length
    outputLength := req.maxTokens
    maskTokenId
    tokenIds := List.replicate req.maxTokens maskTokenId
    numUnmaskedTokens := 0 }

/-- One pair. A position outside the output is skipped. -/
def writeToken (d : Detokenizer) (p : ℕ × Token) : Detokenizer :=
  if d.promptLength ≤ p.1 ∧ p.1 < d.promptLength + d.outputLength then
    { d with
      numUnmaskedTokens :=
        if d.tokenIds[p.1 - d.promptLength]? = some d.maskTokenId then d.numUnmaskedTokens + 1
        else d.numUnmaskedTokens
      tokenIds := d.tokenIds.set (p.1 - d.promptLength) p.2 }
  else d

def update (d : Detokenizer) (newTokenIds : List (ℕ × Token)) : Detokenizer × Option String :=
  if newTokenIds = [] then (d, none)
  else
    let d := newTokenIds.foldl writeToken d
    (d, if d.numUnmaskedTokens = d.outputLength then some "stop" else none)

end Detokenizer

structure OutputProcessor where
  requestStates : Dict ReqId Detokenizer

namespace OutputProcessor

def addRequest (p : OutputProcessor) (req : Request) (maskTokenId : Token) :
    Except PyError OutputProcessor :=
  if req.requestId ∈ p.requestStates then throw .value
  else pure ⟨p.requestStates.set req.requestId (.create req maskTokenId)⟩

def processOutput (x : OutputProcessor × List ReqId) (out : EngineCoreOutput) :
    OutputProcessor × List ReqId :=
  match x.1.requestStates.get? out.requestId with
  -- the request was aborted
  | none => x
  | some d =>
      let y := d.update out.newTokenIds
      let finishReason := if y.2.isSome then some .stop else out.finishReason
      if finishReason.isSome then
        (⟨x.1.requestStates.erase out.requestId⟩,
          if out.finishReason.isSome then x.2 else x.2 ++ [out.requestId])
      else (⟨x.1.requestStates.set out.requestId y.1⟩, x.2)

/-- `process_outputs`: what is left to wait for, and the requests to abort. -/
def processOutputs (p : OutputProcessor) (outs : List EngineCoreOutput) :
    OutputProcessor × List ReqId :=
  outs.foldl processOutput (p, [])

end OutputProcessor

/-! ## What a detokenizer has -/

namespace Detokenizer

variable {d : Detokenizer} {req : Request} {mask : Token} {pairs more : List (ℕ × Token)}

structure Tracks (d : Detokenizer) (mask : Token) (req : Request) (pairs : List (ℕ × Token)) :
    Prop where
  promptLength : d.promptLength = req.promptTokenIds.length
  outputLength : d.outputLength = req.maxTokens
  maskTokenId : d.maskTokenId = mask
  tokenIds : d.tokenIds = req.outputWith mask pairs

theorem tracks_create (req : Request) (mask : Token) : (create req mask).Tracks mask req [] :=
  ⟨rfl, rfl, rfl, rfl⟩

variable (h : d.Tracks mask req pairs)
include h

theorem Tracks.writeToken {p : ℕ × Token} (hp : req.InOutput [p]) :
    (d.writeToken p).Tracks mask req (pairs ++ [p]) := by
  have hin := hp p (List.mem_singleton_self p)
  rw [← h.promptLength, ← h.outputLength] at hin
  rw [Detokenizer.writeToken, if_pos hin]
  refine ⟨h.promptLength, h.outputLength, h.maskTokenId, ?_⟩
  dsimp only
  rw [h.tokenIds, h.promptLength, Request.outputWith, Request.outputWith, written_append]
  rfl

theorem Tracks.foldl_writeToken (hin : req.InOutput more) :
    (more.foldl Detokenizer.writeToken d).Tracks mask req (pairs ++ more) := by
  induction more generalizing d pairs with
  | nil => rwa [List.append_nil]
  | cons p more ih =>
      have hp := h.writeToken (p := p) fun q hq => by
        rw [List.mem_singleton] at hq
        exact hin q (hq ▸ List.mem_cons_self)
      have hrest := ih hp fun q hq => hin q (List.mem_cons_of_mem p hq)
      rwa [List.append_assoc] at hrest

theorem Tracks.numUnmaskedTokens_foldl (hin : req.InOutput more)
    (hnodup : (more.map Prod.fst).Nodup)
    (hmask : ∀ p ∈ more, d.tokenIds[p.1 - d.promptLength]? = some mask) :
    (more.foldl Detokenizer.writeToken d).numUnmaskedTokens =
      d.numUnmaskedTokens + more.length := by
  induction more generalizing d pairs with
  | nil => rfl
  | cons p more ih =>
      obtain ⟨hnot, hnodup⟩ := List.nodup_cons.mp hnodup
      have hone : req.InOutput [p] := fun q hq => by
        rw [List.mem_singleton] at hq
        exact hin q (hq ▸ List.mem_cons_self)
      have hrange := hin p List.mem_cons_self
      have hwrite : d.writeToken p =
          { d with
            numUnmaskedTokens := d.numUnmaskedTokens + 1
            tokenIds := d.tokenIds.set (p.1 - d.promptLength) p.2 } := by
        rw [Detokenizer.writeToken, if_pos (by rw [h.promptLength, h.outputLength]; exact hrange),
          if_pos (by rw [h.maskTokenId]; exact hmask p List.mem_cons_self)]
      have hrest : ∀ q ∈ more,
          (d.writeToken p).tokenIds[q.1 - (d.writeToken p).promptLength]? = some mask := by
        intro q hq
        have hne : p.1 - d.promptLength ≠ q.1 - d.promptLength := by
          have hlow := (hin q (List.mem_cons_of_mem p hq)).1
          rw [h.promptLength]
          intro heq
          have hpos : p.1 = q.1 := by omega
          exact hnot (hpos ▸ List.mem_map_of_mem hq)
        rw [hwrite]
        dsimp only
        rw [List.getElem?_set_ne hne]
        exact hmask q (List.mem_cons_of_mem p hq)
      rw [List.foldl_cons, ih (h.writeToken hone) (fun q hq => hin q (List.mem_cons_of_mem p hq))
        hnodup hrest, hwrite, List.length_cons]
      dsimp only
      omega

end Detokenizer

/-! ## What the front end makes of outputs -/

namespace OutputProcessor

variable {r : ReqId} {out : EngineCoreOutput} {outs : List EngineCoreOutput}

def settle (out : EngineCoreOutput) (d : Detokenizer) : Option Detokenizer :=
  if (d.update out.newTokenIds).2.isSome || out.finishReason.isSome then none
  else some (d.update out.newTokenIds).1

theorem get?_processOutput (x : OutputProcessor × List ReqId) (out : EngineCoreOutput) (r : ReqId) :
    (processOutput x out).1.requestStates.get? r =
      if r = out.requestId then (x.1.requestStates.get? r).bind (settle out)
      else x.1.requestStates.get? r := by
  unfold processOutput
  by_cases hr : r = out.requestId
  · subst hr
    cases hd : x.1.requestStates.get? out.requestId with
    | none => simp [hd]
    | some d =>
        cases hstop : (d.update out.newTokenIds).2 with
        | none =>
            cases hfinish : out.finishReason with
            | none => simp [settle, hstop, hfinish]
            | some reason => simp [settle, hstop, hfinish]
        | some text => simp [settle, hstop]
  · cases hd : x.1.requestStates.get? out.requestId with
    | none => simp [hr]
    | some d =>
        dsimp only
        generalize (if (d.update out.newTokenIds).2.isSome then some FinishReason.stop
          else out.finishReason) = reason
        cases reason with
        | none => simp [hr]
        | some reason => simp [hr]

theorem get?_foldl_of_ne (x : OutputProcessor × List ReqId) (hr : ∀ out ∈ outs, r ≠ out.requestId) :
    (outs.foldl processOutput x).1.requestStates.get? r = x.1.requestStates.get? r := by
  induction outs generalizing x with
  | nil => rfl
  | cons out outs ih =>
      rw [List.foldl_cons, ih _ fun o ho => hr o (List.mem_cons_of_mem out ho),
        get?_processOutput, if_neg (hr out List.mem_cons_self)]

theorem get?_foldl_of_mem (x : OutputProcessor × List ReqId)
    (hnodup : (outs.map EngineCoreOutput.requestId).Nodup) (hout : out ∈ outs) :
    (outs.foldl processOutput x).1.requestStates.get? out.requestId =
      (x.1.requestStates.get? out.requestId).bind (settle out) := by
  induction outs generalizing x with
  | nil => cases hout
  | cons o outs ih =>
      obtain ⟨hnot, hnodup⟩ := List.nodup_cons.mp hnodup
      rw [List.foldl_cons]
      rcases List.mem_cons.mp hout with rfl | hout
      · have hrest : ∀ o ∈ outs, out.requestId ≠ o.requestId := fun o ho heq =>
          hnot (List.mem_map.mpr ⟨o, ho, heq.symm⟩)
        rw [get?_foldl_of_ne _ hrest, get?_processOutput, if_pos rfl]
      · have hne : out.requestId ≠ o.requestId := fun heq => hnot (heq ▸ List.mem_map_of_mem hout)
        rw [ih _ hnodup hout, get?_processOutput, if_neg hne]

theorem not_mem_aborts (x : OutputProcessor × List ReqId) (hr : r ∉ x.2)
    (hstop : out.requestId = r → ∀ d, x.1.requestStates.get? r = some d →
      (d.update out.newTokenIds).2.isSome → out.finishReason.isSome) :
    r ∉ (processOutput x out).2 := by
  unfold processOutput
  cases hd : x.1.requestStates.get? out.requestId with
  | none => exact hr
  | some d => grind

/-- A request is not to be aborted if its detokenizer says "stop" only when it is told that
the request has ended. -/
theorem not_mem_aborts_foldl (x : OutputProcessor × List ReqId) (hr : r ∉ x.2)
    (hnodup : (outs.map EngineCoreOutput.requestId).Nodup)
    (hstop : ∀ out ∈ outs, out.requestId = r → ∀ d, x.1.requestStates.get? r = some d →
      (d.update out.newTokenIds).2.isSome → out.finishReason.isSome) :
    r ∉ (outs.foldl processOutput x).2 := by
  induction outs generalizing x with
  | nil => exact hr
  | cons o outs ih =>
      obtain ⟨hnot, hnodup⟩ := List.nodup_cons.mp hnodup
      refine ih _ (not_mem_aborts x hr (hstop o List.mem_cons_self)) hnodup ?_
      intro out hout hid d hd
      have hne : r ≠ o.requestId := fun heq => hnot (heq ▸ hid ▸ List.mem_map_of_mem hout)
      rw [get?_processOutput, if_neg hne] at hd
      exact hstop out (List.mem_cons_of_mem o hout) hid d hd

end OutputProcessor

end TeDiServe

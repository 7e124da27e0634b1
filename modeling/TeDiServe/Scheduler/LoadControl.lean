import TeDiServe.Scheduler.Confidence
import Mathlib.Order.OrderDual

/-!
# Load control

`update_request_max_confidence_thresholds` gives every request, running or
deferred, the highest threshold that it may still use. It visits the requests
from the most to the least advanced one and keeps, for each, what the requests
after it need at the lowest threshold. A request that cannot meet its deadline
anyway gets the lowest threshold, any other the first one whose demand fits into
what is left of the supply, or the lowest one if none does.

A lower threshold has a higher index. The highest index handed out is kept for the
requests that arrive later. What is only logged is left out.
-/

namespace TeDiServe

def Request.unmaskProgress (req : Request) : Except PyError ℚ :=
  if req.outputLength = 0 then .error .zeroDivision
  else .ok (req.numUnmaskedTokens / req.outputLength)

namespace Scheduler

variable {κ : Type}

/-- The tokens that the request still has to compute at a threshold. Any exception
counts as no demand. -/
def getRequestTputDemand (cfg : Config κ) (s : Scheduler κ) (r : ReqId) (conf : ℚ) : ℚ :=
  let demand : Except PyError ℚ := do
    let steps ← s.getNumStepsLeftByType cfg r conf
    let req ← subscript s.requests .requests r
    pure (steps.1 * req.numTokens + steps.2 * req.denoiseBlockSize)
  match demand with
  | .ok d => d
  | .error _ => 0

def allReqIds (s : Scheduler κ) : List ReqId :=
  s.requestStates.keys ++ s.deferredRequestStates.keys

def unmaskProgress (s : Scheduler κ) (r : ReqId) : Except PyError ℚ := do
  let req ← subscript s.requests .requests r
  req.unmaskProgress

def reqsByProgress (s : Scheduler κ) : Except PyError (List ReqId) :=
  sortedByKey (fun r => do
    let p ← s.unmaskProgress r
    pure (OrderDual.toDual p)) s.allReqIds

/-- `candidate_confidence_thresholds[-1]`. -/
def lowestThreshold (cfg : Config κ) : Except PyError ℚ :=
  match cfg.candidateConfidenceThresholds.getLast? with
  | none => .error .index
  | some c => .ok c

/-- What the requests after each one need at the lowest threshold, computed from the
back: nothing after the last one, and before that the next entry and the demand of
the next request. -/
def cumMinTputSuffix (cfg : Config κ) (s : Scheduler κ) : List ReqId → Except PyError (List ℚ)
  | [] => .ok []
  | [_] => .ok [0]
  | _ :: r :: rest => do
      let cum ← cumMinTputSuffix cfg s (r :: rest)
      let c ← lowestThreshold cfg
      pure ((cum.headD 0 + s.getRequestTputDemand cfg r c) :: cum)

/-- The search over the candidates: the index and the demand of the first one that
fits, or of the last one tried. -/
def scanDemands (demand : ℚ → ℚ) (fits : ℚ → Bool) :
    List ℚ → ℕ → Option (ℕ × ℚ) → Option (ℕ × ℚ)
  | [], _, best => best
  | c :: cs, idx, _ =>
      if fits (demand c) then some (idx, demand c)
      else scanDemands demand fits cs (idx + 1) (some (idx, demand c))

def chooseThreshold (cfg : Config κ) (s : Scheduler κ) (now : ℚ) (r : ReqId)
    (current suffix : ℚ) : Except PyError (ℕ × ℚ) := do
  let possible ← s.isPossibleToMeetSlo cfg r now
  if !possible then
    let c ← lowestThreshold cfg
    pure (cfg.candidateConfidenceThresholds.length - 1, s.getRequestTputDemand cfg r c)
  else
    match scanDemands (s.getRequestTputDemand cfg r)
        (fun d => current + d + suffix ≤ s.throughputSupply)
        cfg.candidateConfidenceThresholds 0 none with
    | some x => pure x
    | none => throw .type

def assignThreshold (cfg : Config κ) (now : ℚ) (x : Scheduler κ × ℚ) (y : ReqId × ℚ) :
    Except PyError (Scheduler κ × ℚ) :=
  match x.1.getState? y.1 with
  | none => pure x
  | some _ => do
      let (idx, demand) ← x.1.chooseThreshold cfg now y.1 x.2 y.2
      let s := x.1.updateState y.1 fun rs => { rs with maxConfidenceThresholdIdx := idx }
      pure
        ({ s with
            minMaxConfidenceThresholdIdx := max s.minMaxConfidenceThresholdIdx idx },
          x.2 + demand)

def updateRequestMaxConfidenceThresholds (cfg : Config κ) (s : Scheduler κ) (now : ℚ) :
    Except PyError (Scheduler κ) := do
  let reqs ← s.reqsByProgress
  let cum ← s.cumMinTputSuffix cfg reqs
  let x ← (reqs.zip cum).foldlM (assignThreshold cfg now)
    ({ s with minMaxConfidenceThresholdIdx := 0 }, 0)
  pure x.1

end Scheduler

end TeDiServe

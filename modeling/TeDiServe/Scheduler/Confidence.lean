import TeDiServe.Scheduler.Stages

/-!
# Choosing the confidence threshold of a step

A lower threshold unmasks more tokens in a step and needs fewer steps. Stage 6 of
`schedule()` keeps the threshold of a request until something marked it dirty.
Then it takes the first candidate, from the one allowed by load control on, with
which the estimated time left meets the deadline, or the last one when none does.
-/

namespace TeDiServe

namespace Scheduler

variable {κ : Type}

/-- The time of one step of the request alone on the largest executor. -/
def getMinTimeLeft (cfg : Config κ) (s : Scheduler κ) (r : ReqId) : Except PyError ℚ := do
  let req ← subscript s.requests .requests r
  let x ← getProfileLatency cfg s.maxTpDegree req.numTokens
  pure x.2

/-- Whether the deadline can be met at the lowest threshold, with 30% tolerance. -/
def isPossibleToMeetSlo (cfg : Config κ) (s : Scheduler κ) (r : ReqId) (now : ℚ) :
    Except PyError Bool :=
  match s.getState? r with
  | none => pure false
  | some rs =>
      match cfg.candidateConfidenceThresholds.getLast? with
      | none => throw .index
      | some c => do
          let steps ← subscript rs.predNumStepsLeft .predNumStepsLeft c
          let t ← s.getMinTimeLeft cfg r
          let req ← subscript s.requests .requests r
          pure (((t * steps * (7 / 10) : ℚ) : WithTop ℚ) < req.sloTimeRemaining now)

def getNumStepsLeftByType (cfg : Config κ) (s : Scheduler κ) (r : ReqId) (conf : ℚ) :
    Except PyError (ℚ × ℚ) :=
  match s.getState? r with
  | none => pure (0, 0)
  | some rs => do
      let steps ← subscript rs.predNumStepsLeft .predNumStepsLeft conf
      if !cfg.caching then pure (steps, max 0 (steps - steps))
      else if cfg.cachePrefix then do
        let req ← subscript s.requests .requests r
        let full : ℚ := req.numRecomputeStepsLeft
        pure (full, max 0 (steps - full))
      else throw .unboundLocal

def sumOverRequests (s : Scheduler κ) (f : Request → ℕ) (rs : List ReqId) : Except PyError ℕ := do
  let ns ← rs.mapM fun r => do
    let req ← subscript s.requests .requests r
    pure (f req)
  pure ns.sum

def cacheStepLatency (cfg : Config κ) (s : Scheduler κ) (r : ReqId) (tpDegree : ℕ)
    (batch : List ReqId) : Except PyError ℚ :=
  if !cfg.caching then pure 0
  else if cfg.cachePrefix && !cfg.cacheSuffix then do
    let n ← s.sumOverRequests Request.outputLength batch
    let x ← getProfileLatency cfg tpDegree n
    pure x.2
  else if cfg.cachePrefix then do
    let req ← subscript s.requests .requests r
    let x ← getProfileLatency cfg tpDegree (req.denoiseBlockSize * batch.length)
    pure x.2
  else throw .unboundLocal

def getEstimatedTimeLeft (cfg : Config κ) (s : Scheduler κ) (r : ReqId) (tpDegree : ℕ)
    (batch : List ReqId) (conf : ℚ) : Except PyError ℚ := do
  let n ← s.sumOverRequests Request.numTokens batch
  let full ← getProfileLatency cfg tpDegree n
  let steps ← s.getNumStepsLeftByType cfg r conf
  let cached ← s.cacheStepLatency cfg r tpDegree batch
  pure (steps.1 * full.2 + steps.2 * cached)

def sloMet (cfg : Config κ) (s : Scheduler κ) (r : ReqId) (tpDegree : ℕ) (batch : List ReqId)
    (conf : ℚ) (now : ℚ) : Except PyError Bool := do
  pyAssert (r ∈ batch)
  let t ← s.getEstimatedTimeLeft cfg r tpDegree batch conf
  let req ← subscript s.requests .requests r
  pure !(req.sloTimeRemaining now < (t : WithTop ℚ))

/-- The search over the candidates, with the number of the clock reading. -/
def scanThresholds (cfg : Config κ) (s : Scheduler κ) (clock : ℕ → ℚ) (r : ReqId)
    (tpDegree : ℕ) (batch : List ReqId) :
    List ℚ → ℕ → Option ℚ → Except PyError (Option ℚ)
  | [], _, best => .ok best
  | c :: cs, k, _ => do
      let met ← s.sloMet cfg r tpDegree batch c (clock k)
      if met then pure (some c)
      else scanThresholds cfg s clock r tpDegree batch cs (k + 1) (some c)

def selectConfidence (cfg : Config κ) (s : Scheduler κ) (clock : ℕ → ℚ) (rs : RequestState)
    (r : ReqId) (tpDegree : ℕ) (batch : List ReqId) : Except PyError (Option ℚ) :=
  if rs.confidenceThreshold = none ∨ rs.confidenceThresholdDirty = true then do
    let possible ← s.isPossibleToMeetSlo cfg r (clock 0)
    if possible then
      s.scanThresholds cfg clock r tpDegree batch
        (cfg.candidateConfidenceThresholds.drop rs.maxConfidenceThresholdIdx) 1 none
    else
      match cfg.candidateConfidenceThresholds.getLast? with
      | none => throw .index
      | some c => pure (some c)
  else pure rs.confidenceThreshold

end Scheduler

end TeDiServe

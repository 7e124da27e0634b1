import TeDiServe.Basic

/-!
# Requests and their denoising progress

A request owns one token array, the prompt followed by `maxTokens` mask tokens,
and denoises the output block by block. The scheduler counts progress by the
pairs `(position, token)` that the worker emits: `updateFromOutput` appends them,
moves to the next block when the current one is full, and checks that every
position lies in the block that was current when the step was issued. The
request is done, by `checkStop`, when as many pairs were emitted as there are
output positions.

The token array is written at the position relative to the output, not to the
whole sequence, exactly as the source does; only its length is read by the
scheduler.
-/

namespace TeDiServe

inductive RequestStatus where
  | waiting
  | waitingForFsm
  | waitingForRemoteKvs
  | running
  | preempted
  | finishedStopped
  | finishedLengthCapped
  | finishedAborted
  | finishedIgnored
  deriving DecidableEq, Repr

inductive FinishReason where
  | stop
  | length
  | abort
  deriving DecidableEq, Repr

def RequestStatus.isFinished : RequestStatus → Bool
  | .finishedStopped | .finishedLengthCapped | .finishedAborted | .finishedIgnored => true
  | _ => false

def RequestStatus.getFinishedReason : RequestStatus → Option FinishReason
  | .finishedStopped => some .stop
  | .finishedLengthCapped => some .length
  | .finishedAborted => some .abort
  | .finishedIgnored => some .length
  | _ => none

structure Request where
  requestId : ReqId
  clientIndex : ℕ
  arrivalTime : ℚ
  latencySlo : Option ℚ
  promptTokenIds : List Token
  maxTokens : ℕ
  unmaskedTokenIds : List (ℕ × Token)
  allTokenIds : List Token
  isInExecution : Bool
  numComputedTokens : ℕ
  numLastUnmaskedTokens : ℕ
  numDenoiseRan : ℕ
  execStartPos : ℕ
  numExecTokens : ℕ
  denoiseBlockSize : ℕ
  curBlock : ℕ
  curBlockStart : ℕ
  curBlockNumUnmaskedTokens : ℕ
  curBlockDenoiseRan : ℕ
  status : RequestStatus
  deriving DecidableEq, Repr

namespace Request

/-- The constructor: a non-positive block size stands for one block of the whole
output, and the block size has to divide the output length. -/
def create (requestId : ReqId) (clientIndex : ℕ) (arrivalTime : ℚ) (latencySlo : Option ℚ)
    (promptTokenIds : List Token) (maskTokenId : Token) (maxTokens : ℕ)
    (denoiseBlockSize : ℤ) : Except PyError Request :=
  let b := if 0 < denoiseBlockSize then denoiseBlockSize.toNat else maxTokens
  if b = 0 then .error .zeroDivision
  else if maxTokens % b ≠ 0 then .error .assertion
  else .ok
    { requestId, clientIndex, arrivalTime, latencySlo, promptTokenIds, maxTokens
      unmaskedTokenIds := []
      allTokenIds := promptTokenIds ++ List.replicate maxTokens maskTokenId
      isInExecution := false
      numComputedTokens := 0
      numLastUnmaskedTokens := 0
      numDenoiseRan := 0
      execStartPos := 0
      numExecTokens := promptTokenIds.length + maxTokens
      denoiseBlockSize := b
      curBlock := 0
      curBlockStart := promptTokenIds.length
      curBlockNumUnmaskedTokens := 0
      curBlockDenoiseRan := 0
      status := .waiting }

def numTokens (req : Request) : ℕ := req.allTokenIds.length

def outputLength (req : Request) : ℕ := req.maxTokens

def numUnmaskedTokens (req : Request) : ℕ := req.unmaskedTokenIds.length

def isStartOfNewBlock (req : Request) : Bool := req.curBlockNumUnmaskedTokens = 0

/-- Blocks whose first, uncached step is still to come. -/
def numRecomputeStepsLeft (req : Request) : ℤ :=
  (req.outputLength / req.denoiseBlockSize : ℕ) - req.curBlock -
    (if req.isStartOfNewBlock then 0 else 1)

/-- Time left until the deadline, at the clock reading `now`; a request without a
deadline has infinite time. -/
def sloTimeRemaining (req : Request) (now : ℚ) : WithTop ℚ :=
  match req.latencySlo with
  | none => ⊤
  | some slo => ((slo * (9 / 10) - (now - req.arrivalTime) : ℚ) : WithTop ℚ)

/-- One pair of a step: its position has to lie in the block that was current. -/
def writeToken (req : Request) (all : List Token) (p : ℕ × Token) :
    Except PyError (List Token) := do
  pyAssert (req.curBlockStart ≤ p.1 && p.1 < req.curBlockStart + req.denoiseBlockSize)
  setItem all ((p.1 : ℤ) - req.promptTokenIds.length) p.2

def advanceBlock (req : Request) (n : ℕ) : Request :=
  if req.curBlockNumUnmaskedTokens + n = req.denoiseBlockSize then
    { req with
      curBlock := req.curBlock + 1
      curBlockStart := req.curBlockStart + req.denoiseBlockSize
      curBlockNumUnmaskedTokens := 0
      curBlockDenoiseRan := 0 }
  else
    { req with
      curBlockNumUnmaskedTokens := req.curBlockNumUnmaskedTokens + n
      curBlockDenoiseRan := req.curBlockDenoiseRan + 1 }

def updateFromOutput (req : Request) (tokenIds : List (ℕ × Token)) :
    Except PyError Request := do
  pyAssert (req.curBlockNumUnmaskedTokens + tokenIds.length ≤ req.denoiseBlockSize)
  let all ← tokenIds.foldlM req.writeToken req.allTokenIds
  pure
    { req.advanceBlock tokenIds.length with
      numLastUnmaskedTokens := tokenIds.length
      unmaskedTokenIds := req.unmaskedTokenIds ++ tokenIds
      numDenoiseRan := req.numDenoiseRan + 1
      allTokenIds := all }

/-- `check_stop`: the request stops when every output position was counted. -/
def checkStop (req : Request) : Request × Bool :=
  if req.numUnmaskedTokens = req.maxTokens then
    ({ req with status := .finishedStopped }, true)
  else (req, false)

/-! ## What a step leaves unchanged -/

def InBlock (req : Request) (pos : ℕ) : Prop :=
  req.curBlockStart ≤ pos ∧ pos < req.curBlockStart + req.denoiseBlockSize

theorem ensures_writeToken (req : Request) (all : List Token) (p : ℕ × Token) :
    (req.writeToken all p).Ensures (fun e => e = .assertion ∨ e = .index)
      fun all' => all'.length = all.length ∧ req.InBlock p.1 := by
  unfold writeToken
  rw [ensures_bind, ensures_pyAssert]
  refine ⟨fun hblock => ?_, fun _ => Or.inl rfl⟩
  rw [Bool.and_eq_true, decide_eq_true_eq, decide_eq_true_eq] at hblock
  exact (ensures_setItem_length all _ p.2).mono (fun e he => Or.inr he) fun _ h => ⟨h, hblock⟩

theorem ensures_foldlM_writeToken (req : Request) (tokenIds : List (ℕ × Token))
    (all : List Token) :
    (tokenIds.foldlM req.writeToken all).Ensures (fun e => e = .assertion ∨ e = .index)
      fun all' => all'.length = all.length ∧ ∀ p ∈ tokenIds, req.InBlock p.1 := by
  induction tokenIds generalizing all with
  | nil => exact ⟨rfl, by simp⟩
  | cons p tokenIds ih =>
      rw [List.foldlM_cons, ensures_bind]
      apply (req.ensures_writeToken all p).imp
      rintro l ⟨hl, hp⟩
      apply (ih l).imp
      rintro l' ⟨hl', hps⟩
      refine ⟨hl'.trans hl, ?_⟩
      intro q hq
      rcases List.mem_cons.mp hq with rfl | hq
      · exact hp
      · exact hps q hq

structure StepOf (req req' : Request) (tokenIds : List (ℕ × Token)) : Prop where
  requestId : req'.requestId = req.requestId
  clientIndex : req'.clientIndex = req.clientIndex
  arrivalTime : req'.arrivalTime = req.arrivalTime
  latencySlo : req'.latencySlo = req.latencySlo
  promptTokenIds : req'.promptTokenIds = req.promptTokenIds
  maxTokens : req'.maxTokens = req.maxTokens
  denoiseBlockSize : req'.denoiseBlockSize = req.denoiseBlockSize
  numTokens : req'.numTokens = req.numTokens
  status : req'.status = req.status
  unmaskedTokenIds : req'.unmaskedTokenIds = req.unmaskedTokenIds ++ tokenIds
  curBlock : req'.curBlock = (req.advanceBlock tokenIds.length).curBlock
  curBlockStart : req'.curBlockStart = (req.advanceBlock tokenIds.length).curBlockStart
  curBlockNumUnmaskedTokens : req'.curBlockNumUnmaskedTokens =
    (req.advanceBlock tokenIds.length).curBlockNumUnmaskedTokens
  numDenoiseRan : req'.numDenoiseRan = req.numDenoiseRan + 1

theorem ensures_updateFromOutput (req : Request) (tokenIds : List (ℕ × Token)) :
    (req.updateFromOutput tokenIds).Ensures (fun e => e = .assertion ∨ e = .index)
      fun req' => StepOf req req' tokenIds ∧
        req.curBlockNumUnmaskedTokens + tokenIds.length ≤ req.denoiseBlockSize ∧
        ∀ p ∈ tokenIds, req.InBlock p.1 := by
  unfold updateFromOutput
  rw [ensures_bind, ensures_pyAssert]
  refine ⟨fun hroom => ?_, fun _ => Or.inl rfl⟩
  apply (req.ensures_foldlM_writeToken tokenIds req.allTokenIds).bind
  rintro all ⟨hall, hblock⟩
  rw [ensures_pure]
  refine ⟨?_, of_decide_eq_true hroom, hblock⟩
  unfold advanceBlock
  split_ifs with h <;>
    exact ⟨rfl, rfl, rfl, rfl, rfl, rfl, rfl, hall, rfl, rfl,
      by simp [advanceBlock, h], by simp [advanceBlock, h], by simp [advanceBlock, h], rfl⟩

@[simp] theorem checkStop_requestId (req : Request) :
    req.checkStop.1.requestId = req.requestId := by
  unfold checkStop
  split_ifs <;> rfl

@[simp] theorem checkStop_numTokens (req : Request) :
    req.checkStop.1.numTokens = req.numTokens := by
  unfold checkStop
  split_ifs <;> rfl

end Request

end TeDiServe

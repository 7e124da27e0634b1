import TeDiServe.Worker.Batch

/-!
# The model runner of a worker

`updateStates` brings the requests and the batch of a worker in line with a message, and
`executeModel` runs one step: it reads the tokens at the executed positions of every row,
hands them with the predictions of the model to the sampler, and writes the tokens that
were unmasked back into the rows and the states.

What the model predicts is an argument: for every request and position the token with the
highest logit and its probability.
-/

namespace TeDiServe

structure CachedEntry where
  reqId : ReqId
  newBlockIds : List ℕ
  numDenoiseRan : ℕ
  curBlockStart : ℕ
  denoiseBlockSize : ℕ

def CachedRequestData.entry (d : CachedRequestData) (i : ℕ) : Except PyError CachedEntry := do
  let reqId ← item d.reqIds i
  let newBlockIds ← item d.newBlockIds i
  let numDenoiseRan ← item d.numDenoiseRan i
  let curBlockStart ← item d.curBlockStart i
  let denoiseBlockSize ← item d.denoiseBlockSize i
  pure { reqId, newBlockIds, numDenoiseRan, curBlockStart, denoiseBlockSize }

def CachedRequestData.entries (d : CachedRequestData) : Except PyError (List CachedEntry) :=
  (List.range d.reqIds.length).mapM d.entry

def CachedRequestState.update (st : CachedRequestState) (y : CachedEntry) : CachedRequestState :=
  { st with
    numDenoiseRan := y.numDenoiseRan
    curBlockStart := y.curBlockStart
    denoiseBlockSize := y.denoiseBlockSize
    blockIds := st.blockIds ++ y.newBlockIds }

def Row.update (row : Row) (y : CachedEntry) : Row :=
  { row with
    numDenoiseRan := y.numDenoiseRan
    curBlockStart := y.curBlockStart
    denoiseBlockSize := y.denoiseBlockSize }

abbrev Prediction := ReqId → ℕ → Token × ℚ

structure Runner where
  requests : Dict ReqId CachedRequestState
  inputBatch : InputBatch

namespace Runner

def empty : Runner := ⟨Dict.empty, InputBatch.empty⟩

/-! ## Following a message -/

/-- What the loops of `_update_states` carry along: the worker, and the requests to be
added to the batch. -/
structure Updating where
  runner : Runner
  reqIdsToAdd : List ReqId

/-- The requests that the executor is told to free, and those in the batch that are not
scheduled, leave it. The latter keep their states. -/
def forget (x : Runner) (msg : SchedulerOutput) : Runner :=
  let requests := msg.freeReqIds.items.foldl Dict.erase x.requests
  let batch := msg.freeReqIds.items.foldl InputBatch.removeRequest
    { x.inputBatch with samplingMetadataNeedsRefresh := false }
  let unscheduled := batch.slots.index.keys.filter (· ∉ msg.numScheduledTokens)
  ⟨requests, unscheduled.foldl InputBatch.removeRequest batch⟩

def addState (w : WorkerConfig) (u : Updating) (d : NewRequestData) : Except PyError Updating := do
  let st ← CachedRequestState.ofNew w d
  pure
    { runner := { u.runner with requests := u.runner.requests.set d.reqId st }
      reqIdsToAdd := u.reqIdsToAdd ++ [d.reqId] }

/-- A cached request is updated in its state and in its row. If it has no row it is added
again. -/
def updateState (u : Updating) (y : CachedEntry) : Except PyError Updating := do
  let st ← subscript u.runner.requests .cachedRequests y.reqId
  let requests := u.runner.requests.set y.reqId (st.update y)
  let b := u.runner.inputBatch
  match b.slots.index.get? y.reqId with
  | none => pure ⟨⟨requests, b⟩, u.reqIdsToAdd ++ [y.reqId]⟩
  | some i =>
      let changed := (b.slots.get? y.reqId).any fun row =>
        row.curBlockStart ≠ y.curBlockStart ∨ row.denoiseBlockSize ≠ y.denoiseBlockSize
      let b' : InputBatch :=
        { b with
          slots := b.slots.modifyAt i fun row => row.update y
          samplingMetadataNeedsRefresh := b.samplingMetadataNeedsRefresh || changed }
      pure ⟨⟨requests, b'⟩, u.reqIdsToAdd⟩

def addRow (w : WorkerConfig) (x : Runner) (r : ReqId) : Except PyError Runner := do
  let st ← subscript x.requests .cachedRequests r
  let b ← x.inputBatch.addRequest w st
  pure { x with inputBatch := b }

def updateStates (w : WorkerConfig) (x : Runner) (msg : SchedulerOutput) :
    Except PyError Runner := do
  let u ← msg.scheduledNewReqs.foldlM (addState w) ⟨x.forget msg, []⟩
  let ys ← msg.scheduledCachedReqs.entries
  let u ← ys.foldlM updateState u
  let x ← u.reqIdsToAdd.foldlM (addRow w) u.runner
  let b ← x.inputBatch.refresh
  pure { x with inputBatch := b }

/-! ## One step -/

structure Input where
  execStartPos : ℕ
  numExecTokens : ℕ
  confidenceThreshold : ℚ
  cells : List Cell

def readCell (w : WorkerConfig) (predict : Prediction) (r : ReqId) (row : Row) (pos : ℕ) :
    Except PyError Cell := do
  let token ← item row.tokenIds pos
  pure
    { isMask := token = w.maskTokenId
      token := (predict r pos).1
      confidence := (predict r pos).2 }

/-- `_prepare_inputs` for one row. -/
def prepareInput (w : WorkerConfig) (msg : SchedulerOutput) (predict : Prediction)
    (x : ReqId × Row) : Except PyError Input := do
  let n ← subscript msg.numScheduledTokens .numScheduledTokens x.1
  let start ← subscript msg.execStartPos .execStartPos x.1
  let cells ← (List.range' start n).mapM (readCell w predict x.1 x.2)
  let threshold ← subscript msg.confidenceThresholds .confidenceThresholds x.1
  pure ⟨start, n, threshold, cells⟩

def samplerRow (m : SamplingMetadata) (x : Input) : SamplerRow :=
  ⟨m, x.execStartPos, x.numExecTokens, x.confidenceThreshold⟩

def writePair (r : ReqId) (i : ℕ) (x : Runner) (p : ℕ × Token) : Except PyError Runner := do
  let row ← item x.inputBatch.slots.cells i
  let st ← subscript x.requests .cachedRequests r
  match row with
  | none => throw .type
  | some (_, row) => do
      let row ← row.write p
      let st ← { st with unmaskedTokenIds := st.unmaskedTokenIds ++ [p] }.updateOutputTokenId p
      pure
        { requests := x.requests.set r st
          inputBatch :=
            { x.inputBatch with slots := x.inputBatch.slots.modifyAt i fun _ => row } }

def writePairs (x : Runner) (y : (ReqId × List (ℕ × Token)) × ℕ) : Except PyError Runner :=
  y.1.2.foldlM (writePair y.1.1 y.2) x

/-- `execute_model` when there is something to execute. -/
def sample (w : WorkerConfig) (x : Runner) (msg : SchedulerOutput) (predict : Prediction) :
    Except PyError (Runner × ModelRunnerOutput) := do
  pyAssert (0 < x.inputBatch.numReqs)
  let rows := x.inputBatch.slots.rows
  let metadata := x.inputBatch.samplingMetadata
  let inputs ← rows.mapM (prepareInput w msg predict)
  if inputs.length < metadata.length then throw .index
  let sampled ← Sampler.unmask w.maxModelLen (List.zipWith samplerRow metadata inputs)
    (inputs.flatMap Input.cells)
  let x ← ((rows.map Prod.fst).zip sampled).zipIdx.foldlM writePairs x
  pure (x, ⟨x.inputBatch.slots.index, sampled⟩)

/-- `execute_model`. A message without tokens only changes the states. -/
def executeModel (w : WorkerConfig) (x : Runner) (msg : SchedulerOutput) (predict : Prediction) :
    Except PyError (Runner × ModelRunnerOutput) := do
  let x ← x.updateStates w msg
  if msg.totalNumScheduledTokens = 0 then pure (x, ⟨Dict.empty, []⟩)
  else x.sample w msg predict

end Runner

end TeDiServe

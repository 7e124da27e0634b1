import TeDiServe.Library.Slots
import TeDiServe.Scheduler.Basic
import TeDiServe.Worker.Sampler

/-!
# The requests of a worker and its persistent batch

A worker keeps a state for every request that it was told about, and a batch of arrays
with one row for every request that is executed. A row repeats what the arrays need of
the state: the tokens, the number of prompt tokens and of all tokens, and the current
block. The rows have a fixed width, `maxModelLen`, and their number is fixed, too.

The sampling metadata are copied from the rows, and they are copied again only when rows
were added, removed or moved, or when a block has changed.
-/

namespace TeDiServe

structure WorkerConfig where
  maxNumReqs : ℕ
  maxModelLen : ℕ
  maskTokenId : Token

def item {α : Type} (l : List α) (i : ℕ) : Except PyError α :=
  match l[i]? with
  | some a => .ok a
  | none => .error .index

/-! ## The state of a request -/

structure CachedRequestState where
  reqId : ReqId
  promptTokenIds : List Token
  blockIds : List ℕ
  numComputedTokens : ℕ
  numDenoiseRan : ℕ
  outputTokenIds : List Token
  unmaskedTokenIds : List (ℕ × Token)
  outputLength : ℕ
  curBlockStart : ℕ
  denoiseBlockSize : ℕ
  deriving DecidableEq

namespace CachedRequestState

def numTokens (st : CachedRequestState) : ℕ :=
  st.promptTokenIds.length + st.outputTokenIds.length

/-- `update_output_token_id`: the position counts from the start of the prompt. -/
def updateOutputTokenId (st : CachedRequestState) (p : ℕ × Token) :
    Except PyError CachedRequestState := do
  let output ← setItem st.outputTokenIds ((p.1 : ℤ) - st.promptTokenIds.length) p.2
  pure { st with outputTokenIds := output }

/-- The state of a request that is new to the worker: the output is masked, and the
tokens that were unmasked elsewhere are written into it. -/
def ofNew (w : WorkerConfig) (d : NewRequestData) : Except PyError CachedRequestState :=
  d.unmaskedTokenIds.foldlM updateOutputTokenId
    { reqId := d.reqId
      promptTokenIds := d.promptTokenIds
      blockIds := d.blockIds
      numComputedTokens := d.numComputedTokens
      numDenoiseRan := d.numDenoiseRan
      outputTokenIds := List.replicate d.outputLength w.maskTokenId
      unmaskedTokenIds := d.unmaskedTokenIds
      outputLength := d.outputLength
      curBlockStart := d.curBlockStart
      denoiseBlockSize := d.denoiseBlockSize }

end CachedRequestState

/-! ## Rows -/

structure Row where
  tokenIds : List Token
  numPromptTokens : ℕ
  numTokens : ℕ
  numDenoiseRan : ℕ
  curBlockStart : ℕ
  denoiseBlockSize : ℕ

namespace Row

def ofRequest (w : WorkerConfig) (st : CachedRequestState) : Row :=
  { tokenIds := (st.promptTokenIds ++ st.outputTokenIds).take w.maxModelLen
    numPromptTokens := st.promptTokenIds.length
    numTokens := st.numTokens
    numDenoiseRan := st.numDenoiseRan
    curBlockStart := st.curBlockStart
    denoiseBlockSize := st.denoiseBlockSize }

def metadata (row : Row) : SamplingMetadata :=
  { numPromptTokens := row.numPromptTokens
    numTokens := row.numTokens
    curBlockStart := row.curBlockStart
    denoiseBlockSize := row.denoiseBlockSize }

/-- Write a token into the array. A position behind the tokens of the row is none of the
output either, where the next write fails. -/
def write (row : Row) (p : ℕ × Token) : Except PyError Row :=
  if p.1 < row.tokenIds.length then .ok { row with tokenIds := row.tokenIds.set p.1 p.2 }
  else .error .index

end Row

/-- `n` values can be written into the columns from `start` on, `n` of them: as many
columns are there, or one value is repeated. -/
def assignable (w : WorkerConfig) (start n : ℕ) : Bool :=
  n = Sampler.columns w.maxModelLen start (start + n) || n = 1

/-! ## The batch -/

structure InputBatch where
  slots : Slots ReqId Row
  samplingMetadata : List SamplingMetadata
  samplingMetadataNeedsRefresh : Bool

namespace InputBatch

def empty : InputBatch := ⟨Slots.empty, [], false⟩

def numReqs (b : InputBatch) : ℕ := b.slots.size

def removeRequest (b : InputBatch) (r : ReqId) : InputBatch :=
  { b with slots := b.slots.remove r }

/-- `add_request`: there has to be a row for the request, and its tokens have to go into
the row. -/
def addRequest (w : WorkerConfig) (b : InputBatch) (st : CachedRequestState) :
    Except PyError InputBatch := do
  pyAssert (b.slots.nextIndex < w.maxNumReqs)
  if b.slots.cells.length < b.slots.nextIndex then throw .index
  else if !assignable w 0 st.promptTokenIds.length then throw .value
  else if !assignable w st.promptTokenIds.length st.outputTokenIds.length then throw .value
  else pure { b with slots := b.slots.insert st.reqId (Row.ofRequest w st) }

/-- `condense` and `refresh_metadata`. -/
def refresh (b : InputBatch) : Except PyError InputBatch :=
  match b.slots.condense with
  | none => throw .assertion
  | some slots =>
      let b' := { b with slots := slots.reset }
      pure
        (if slots.isChanged || b.samplingMetadataNeedsRefresh then
          { b' with samplingMetadata := b'.slots.rows.map fun x => x.2.metadata }
        else b')

end InputBatch

/-! ## Writing tokens -/

def written (promptLength : ℕ) (output : List Token) (pairs : List (ℕ × Token)) : List Token :=
  pairs.foldl (fun out p => out.set (p.1 - promptLength) p.2) output

@[simp] theorem length_written (n : ℕ) (output : List Token) (pairs : List (ℕ × Token)) :
    (written n output pairs).length = output.length := by
  induction pairs generalizing output with
  | nil => rfl
  | cons p pairs ih => rw [written, List.foldl_cons, ← written, ih, List.length_set]

theorem written_append (n : ℕ) (output : List Token) (ps qs : List (ℕ × Token)) :
    written n output (ps ++ qs) = written n (written n output ps) qs :=
  List.foldl_append

def lastToken (pairs : List (ℕ × Token)) (pos : ℕ) : Option Token :=
  (pairs.reverse.find? fun p => p.1 = pos).map Prod.snd

theorem lastToken_append_singleton (pairs : List (ℕ × Token)) (p : ℕ × Token) (pos : ℕ) :
    lastToken (pairs ++ [p]) pos = if p.1 = pos then some p.2 else lastToken pairs pos := by
  rw [lastToken, List.reverse_append, List.reverse_singleton, List.singleton_append,
    List.find?_cons]
  by_cases h : p.1 = pos <;> simp [h, lastToken]

theorem lastToken_eq_none {pairs : List (ℕ × Token)} {pos : ℕ} :
    lastToken pairs pos = none ↔ pos ∉ pairs.map Prod.fst := by
  simp only [lastToken, Option.map_eq_none_iff, List.find?_eq_none, List.mem_reverse,
    decide_eq_true_eq, List.mem_map, not_exists, not_and]

theorem mem_of_lastToken {pairs : List (ℕ × Token)} {pos : ℕ} {t : Token}
    (h : lastToken pairs pos = some t) : (pos, t) ∈ pairs := by
  obtain ⟨p, hp, rfl⟩ := Option.map_eq_some_iff.mp h
  have hpos : p.1 = pos := by simpa using List.find?_some hp
  rw [← hpos]
  exact List.mem_reverse.mp (List.mem_of_find?_eq_some hp)

/-- A position of the output holds the token that was written last, or else what was there
before. -/
theorem getElem?_written {n : ℕ} {output : List Token} {pairs : List (ℕ × Token)}
    (hpos : ∀ p ∈ pairs, n ≤ p.1) {i : ℕ} (hi : i < output.length) :
    (written n output pairs)[i]? = some ((lastToken pairs (n + i)).getD output[i]) := by
  induction pairs using List.reverseRecOn with
  | nil => simp [written, lastToken, hi]
  | append_singleton pairs p ih =>
      have hp := hpos p (List.mem_append_right _ (List.mem_singleton_self p))
      have hlast : written n output (pairs ++ [p]) =
          (written n output pairs).set (p.1 - n) p.2 := written_append _ _ _ _
      rw [hlast, lastToken_append_singleton, List.getElem?_set,
        ih fun q hq => hpos q (List.mem_append_left _ hq), length_written]
      by_cases heq : p.1 = n + i
      · rw [if_pos (by omega), if_pos (by omega), if_pos heq]
        rfl
      · rw [if_neg (by omega), if_neg heq]

theorem ensures_item {α : Type} (l : List α) (i : ℕ) (E : PyError → Prop) (Q : α → Prop) :
    (item l i).Ensures E Q ↔ (∀ a, l[i]? = some a → Q a) ∧ (l[i]? = none → E .index) := by
  unfold item
  cases h : l[i]? with
  | none => simp
  | some a => simp

theorem item_of_getElem? {α : Type} {l : List α} {i : ℕ} {a : α} (h : l[i]? = some a) :
    item l i = .ok a := by
  simp [item, h]

namespace CachedRequestState

variable {st : CachedRequestState} {p : ℕ × Token}

def emit (st : CachedRequestState) (pairs : List (ℕ × Token)) : CachedRequestState :=
  { st with
    unmaskedTokenIds := st.unmaskedTokenIds ++ pairs
    outputTokenIds := written st.promptTokenIds.length st.outputTokenIds pairs }

theorem emit_nil (st : CachedRequestState) : st.emit [] = st := by
  simp [emit, written]

theorem emit_append (st : CachedRequestState) (ps qs : List (ℕ × Token)) :
    (st.emit ps).emit qs = st.emit (ps ++ qs) := by
  simp [emit, written_append]

theorem updateOutputTokenId_of_lt (h : st.promptTokenIds.length ≤ p.1)
    (hlt : p.1 < st.numTokens) : st.updateOutputTokenId p = .ok
      { st with
        outputTokenIds := st.outputTokenIds.set (p.1 - st.promptTokenIds.length) p.2 } := by
  unfold updateOutputTokenId
  rw [← Int.ofNat_sub h, setItem_of_lt _ _ _ (by rw [numTokens] at hlt; omega)]
  rfl

theorem foldlM_updateOutputTokenId (pairs : List (ℕ × Token)) (st : CachedRequestState)
    (h : ∀ p ∈ pairs, st.promptTokenIds.length ≤ p.1 ∧ p.1 < st.numTokens) :
    pairs.foldlM updateOutputTokenId st = .ok
      { st with outputTokenIds := written st.promptTokenIds.length st.outputTokenIds pairs } := by
  induction pairs generalizing st with
  | nil => rfl
  | cons p pairs ih =>
      obtain ⟨hlow, hhigh⟩ := h p List.mem_cons_self
      rw [List.foldlM_cons, updateOutputTokenId_of_lt hlow hhigh]
      refine (ih _ fun q hq => ?_).trans rfl
      have hq := h q (List.mem_cons_of_mem p hq)
      rw [numTokens] at hq ⊢
      rw [List.length_set]
      exact hq

end CachedRequestState

def NewRequestData.InOutput (d : NewRequestData) : Prop :=
  ∀ p ∈ d.unmaskedTokenIds, d.promptTokenIds.length ≤ p.1 ∧
    p.1 < d.promptTokenIds.length + d.outputLength

def NewRequestData.state (w : WorkerConfig) (d : NewRequestData) : CachedRequestState :=
  { reqId := d.reqId
    promptTokenIds := d.promptTokenIds
    blockIds := d.blockIds
    numComputedTokens := d.numComputedTokens
    numDenoiseRan := d.numDenoiseRan
    outputTokenIds := written d.promptTokenIds.length
      (List.replicate d.outputLength w.maskTokenId) d.unmaskedTokenIds
    unmaskedTokenIds := d.unmaskedTokenIds
    outputLength := d.outputLength
    curBlockStart := d.curBlockStart
    denoiseBlockSize := d.denoiseBlockSize }

theorem CachedRequestState.ofNew_eq (w : WorkerConfig) {d : NewRequestData} (h : d.InOutput) :
    ofNew w d = .ok (d.state w) := by
  unfold ofNew
  rw [foldlM_updateOutputTokenId]
  · rfl
  · intro p hp
    have := h p hp
    rwa [numTokens, List.length_replicate]

/-! ## Rows and states -/

/-- The tokens of the request go into a row. A single token is written wherever it is. -/
def CachedRequestState.Fits (w : WorkerConfig) (st : CachedRequestState) : Prop :=
  (st.promptTokenIds.length ≤ w.maxModelLen ∨ st.promptTokenIds.length ≤ 1) ∧
    (st.numTokens ≤ w.maxModelLen ∨ st.outputTokenIds.length ≤ 1)

theorem assignable_iff (w : WorkerConfig) (start n : ℕ) :
    assignable w start n = true ↔ start + n ≤ w.maxModelLen ∨ n ≤ 1 := by
  unfold assignable Sampler.columns
  rw [Bool.or_eq_true, decide_eq_true_eq, decide_eq_true_eq]
  omega

/-- A request is added exactly if there is a row for it that it goes into. -/
theorem InputBatch.ensures_addRequest {w : WorkerConfig} {b : InputBatch}
    {st : CachedRequestState} (h : b.slots.Valid) (hlen : b.slots.cells.length ≤ w.maxNumReqs) :
    (b.addRequest w st).Ensures (fun _ => w.maxNumReqs ≤ b.numReqs ∨ ¬st.Fits w) fun b' =>
      b.numReqs < w.maxNumReqs ∧ st.Fits w ∧
        b' = { b with slots := b.slots.insert st.reqId (Row.ofRequest w st) } := by
  have hnext := h.nextIndex_lt_iff hlen
  unfold addRequest
  rw [ensures_bind, ensures_pyAssert, decide_eq_true_eq, decide_eq_false_iff_not, hnext]
  refine ⟨fun hrow => ?_, fun hno => Or.inl (Nat.le_of_not_lt hno)⟩
  have hle : ¬b.slots.cells.length < b.slots.nextIndex := by
    rcases h.nextIndex_cases with ⟨-, hlt⟩ | ⟨-, heq⟩ <;> omega
  rw [if_neg hle]
  simp only [Bool.not_eq_true', ← Bool.not_eq_true, assignable_iff, Nat.zero_add]
  by_cases hprompt : st.promptTokenIds.length ≤ w.maxModelLen ∨ st.promptTokenIds.length ≤ 1
  · rw [if_neg (not_not.mpr hprompt)]
    by_cases hout : st.numTokens ≤ w.maxModelLen ∨ st.outputTokenIds.length ≤ 1
    · rw [CachedRequestState.numTokens] at hout
      rw [if_neg (not_not.mpr hout)]
      exact ⟨hrow, ⟨hprompt, hout⟩, rfl⟩
    · rw [CachedRequestState.numTokens] at hout
      rw [if_pos hout]
      exact Or.inr fun hc => hout hc.2
  · rw [if_pos hprompt]
    exact Or.inr fun hc => hprompt hc.1

namespace Row

@[simp] theorem metadata_ofRequest (w : WorkerConfig) (st : CachedRequestState) :
    (ofRequest w st).metadata =
      ⟨st.promptTokenIds.length, st.numTokens, st.curBlockStart, st.denoiseBlockSize⟩ := rfl

/-- Writing into the row is writing into the state. -/
theorem ofRequest_set (w : WorkerConfig) (st : CachedRequestState) {p : ℕ × Token}
    (h : st.promptTokenIds.length ≤ p.1) :
    { ofRequest w st with tokenIds := (ofRequest w st).tokenIds.set p.1 p.2 } =
      ofRequest w (st.emit [p]) := by
  simp only [ofRequest, CachedRequestState.emit, CachedRequestState.numTokens, written,
    List.foldl_cons, List.foldl_nil, List.length_set, ← List.take_set, List.set_append_right _ _ h]

end Row

end TeDiServe

import TeDiServe.Library.Lists
import TeDiServe.Worker.Alignment

/-!
# The two versions of `unmask`

The sampler was rewritten so that it does not branch on values that live on the GPU. The old
version takes the masked positions above the threshold, and if there are none it takes the
best one instead. The new version always appends the best one and cuts the list after a
number that it computes. Both copy the confidences into the row of the request and read the
confidences of the whole output there, which the statistics are computed from.

Confidences are of any type with a total preorder, and `argmax` is any function that finds
the index of a maximal value.
-/

namespace TeDiServe

/-! ## Operations on tensors -/

def nonzero (mask : List Bool) : List ℕ := (mask.zipIdx.filter Prod.fst).map Prod.snd

/-- `xs[mask]`, where the mask has to be as long as the list. -/
def maskSelect {α : Type} (xs : List α) (mask : List Bool) : Except PyError (List α) :=
  if xs.length = mask.length then .ok (((xs.zip mask).filter Prod.snd).map Prod.fst)
  else .error .index

def gather {α : Type} (xs : List α) (indices : List ℕ) : Except PyError (List α) :=
  indices.mapM (item xs)

section Tensors

variable {α β : Type}

def setCells (p : α → Bool) (l : List α) : List (α × ℕ) := l.zipIdx.filter fun x => p x.1

theorem nonzero_map (p : α → Bool) (l : List α) :
    nonzero (l.map p) = (setCells p l).map Prod.snd := by
  rw [nonzero, List.zipIdx_map, List.filter_map, List.map_map]
  rfl

theorem gather_setCells (f : α → β) {p : α → Bool} {l : List α} {xs : List (α × ℕ)}
    (hxs : ∀ x ∈ xs, x ∈ setCells p l) :
    gather (l.map f) (xs.map Prod.snd) = .ok (xs.map fun x => f x.1) := by
  rw [gather, List.mapM_map]
  refine mapM_eq_ok fun x hx => item_of_getElem? ?_
  have hget := List.mem_zipIdx_iff_getElem?.mp (List.mem_filter.mp (hxs x hx)).1
  rw [List.getElem?_map, hget, Option.map_some]

theorem maskSelect_map (f : α → β) (p : α → Bool) (l : List α) :
    maskSelect (l.map f) (l.map p) = .ok ((l.filter p).map f) := by
  rw [maskSelect, if_pos (by simp), List.zip_map', List.filter_map, List.map_map]
  rfl

theorem map_setCells (f : α → β) (p : α → Bool) (l : List α) :
    (setCells p l).map (fun x => f x.1) = (l.filter p).map f := by
  have hfst : (setCells p l).map Prod.fst = l.filter p := by
    conv_rhs => rw [← List.zipIdx_map_fst 0 l, List.filter_map]
    rfl
  rw [← hfst, List.map_map]
  rfl

theorem maskSelect_take (xs : List α) (n : ℕ) :
    maskSelect xs ((List.range xs.length).map fun pos => decide (pos < n)) = .ok (xs.take n) := by
  have hcut : ∀ c, ((xs.zip ((List.range' c xs.length).map fun pos => decide (pos < n))).filter
      Prod.snd).map Prod.fst = xs.take (n - c) := by
    induction xs with
    | nil => simp
    | cons x xs ih =>
        intro c
        rw [List.length_cons, List.range'_succ, List.map_cons, List.zip_cons_cons,
          List.filter_cons]
        by_cases hlt : c < n
        · rw [if_pos (decide_eq_true hlt), List.map_cons, ih, ← Nat.sub_sub,
            ← List.take_succ_cons, Nat.sub_add_cancel (Nat.sub_pos_of_lt hlt)]
        · rw [if_neg (by simpa using hlt), ih, Nat.sub_eq_zero_of_le (by omega),
            Nat.sub_eq_zero_of_le (by omega), List.take_zero, List.take_zero]
  rw [maskSelect, if_pos (by simp), List.range_eq_range', hcut, Nat.sub_zero]

end Tensors

/-- The arguments of `unmask`. The logits of a place are given by their argmax and its
probability. The thresholds of the rows are not used here but those beside them. -/
structure UnmaskArgs (γ : Type) where
  isMask : List Bool
  logits : List (Token × γ)
  rows : List SamplerRow
  confidenceThresholds : List γ
  reqIds : List ReqId
  reqIdToIndex : Dict ReqId ℕ
  argmax : List γ → ℕ

/-- What `unmask` returns, with the values that the statistics are computed from, and the
array of confidences that it leaves. -/
structure Unmasked (γ : Type) where
  unmaskedTokens : List (List (ℕ × Token))
  outputConf : List (List γ)
  confidences : List (List γ)

namespace UnmaskArgs

variable {γ : Type}

def best (args : UnmaskArgs γ) (l : List γ) : Except PyError ℕ :=
  if l = [] then .error .index else .ok (args.argmax l)

/-- Copy the confidences of a row, and read those of its whole output. -/
def copyConfidence (args : UnmaskArgs γ) (i : ℕ) (m : SamplingMetadata) (ranges : OutputRange)
    (confidences : List (List γ)) : Except PyError (List (List γ) × List γ) := do
  let reqId ← item args.reqIds i
  let reqIndex ← subscript args.reqIdToIndex .reqIdToIndex reqId
  let row ← item confidences reqIndex
  let outputConfSlice := slice (args.logits.map Prod.snd) ranges.outputConfidenceStart
    ranges.outputConfidenceEnd
  let row ← assignSlice row ranges.outputPosStart ranges.outputPosEnd outputConfSlice
  let outputConf := slice row m.numPromptTokens m.numTokens
  if outputConf.isEmpty then throw .runtime
  pure (confidences.set reqIndex row, outputConf)

section Versions

variable [LT γ] [DecidableLT γ]

/-! ## The new version -/

/-- The pairs of one row with the best one appended, and which of them are kept. -/
def padPairs (args : UnmaskArgs γ) (i : ℕ) (ranges : OutputRange) :
    Except PyError (List (ℕ × Token) × List Bool) := do
  let x0Slice := slice (args.logits.map Prod.fst) ranges.unmaskStart ranges.unmaskEnd
  let confidenceSlice := slice (args.logits.map Prod.snd) ranges.unmaskStart ranges.unmaskEnd
  let isMaskSlice := slice args.isMask ranges.unmaskStart ranges.unmaskEnd
  let maskedIndices := nonzero isMaskSlice
  let maskedConfidences ← gather confidenceSlice maskedIndices
  let thresh ← item args.confidenceThresholds i
  let selectedMask := maskedConfidences.map fun c => decide (thresh < c)
  let selectedIndices ← maskSelect maskedIndices selectedMask
  let bestIdx ← args.best maskedConfidences
  let fallback ← item maskedIndices bestIdx
  let indicesWithFallback := selectedIndices ++ [fallback]
  let k := selectedMask.count true
  let keepN := if 0 < k then k else 1
  let keepMask := (List.range indicesWithFallback.length).map fun pos => decide (pos < keepN)
  let selectedTokensAll ← gather x0Slice indicesWithFallback
  let absPositionsAll := indicesWithFallback.map (· + ranges.blockStart)
  pure (absPositionsAll.zip selectedTokensAll, keepMask)

structure Padding (γ : Type) where
  pairsPadded : List (List (ℕ × Token) × List Bool)
  outputConf : List (List γ)
  confidences : List (List γ)

def padRow (args : UnmaskArgs γ) (s : Padding γ) (y : (SamplerRow × OutputRange) × ℕ) :
    Except PyError (Padding γ) := do
  let padded ← args.padPairs y.2 y.1.2
  let (confidences, outputConf) ← args.copyConfidence y.2 y.1.1.metadata y.1.2 s.confidences
  pure ⟨s.pairsPadded ++ [padded], s.outputConf ++ [outputConf], confidences⟩

def unmask (args : UnmaskArgs γ) (confidences : List (List γ)) :
    Except PyError (Unmasked γ) := do
  pyAssert (args.logits.length = args.isMask.length)
  let ranges := Sampler.getOutputRange 0 args.rows
  let s ← (args.rows.zip ranges).zipIdx.foldlM args.padRow ⟨[], [], confidences⟩
  let unmaskedTokens ← s.pairsPadded.mapM fun x => maskSelect x.1 x.2
  pure ⟨unmaskedTokens, s.outputConf, s.confidences⟩

/-! ## The old version -/

def selectPairs (args : UnmaskArgs γ) (i : ℕ) (ranges : OutputRange) :
    Except PyError (List (ℕ × Token)) := do
  let x0Slice := slice (args.logits.map Prod.fst) ranges.unmaskStart ranges.unmaskEnd
  let confidenceSlice := slice (args.logits.map Prod.snd) ranges.unmaskStart ranges.unmaskEnd
  let isMaskSlice := slice args.isMask ranges.unmaskStart ranges.unmaskEnd
  pyAssert (isMaskSlice.any id)
  let maskedConfidences ← maskSelect confidenceSlice isMaskSlice
  let maskedIndices := nonzero isMaskSlice
  let thresh ← item args.confidenceThresholds i
  let selectedMask := maskedConfidences.map fun c => decide (thresh < c)
  let selectedIndices ← maskSelect maskedIndices selectedMask
  let selectedIndices ←
    if selectedIndices.isEmpty then do
      let topIndex ← args.best maskedConfidences
      let top ← item maskedIndices topIndex
      pure [top]
    else pure selectedIndices
  let selectedTokens ← gather x0Slice selectedIndices
  pure ((selectedIndices.map (· + ranges.blockStart)).zip selectedTokens)

def selectRow (args : UnmaskArgs γ) (s : Unmasked γ) (y : (SamplerRow × OutputRange) × ℕ) :
    Except PyError (Unmasked γ) := do
  let pairs ← args.selectPairs y.2 y.1.2
  let (confidences, outputConf) ← args.copyConfidence y.2 y.1.1.metadata y.1.2 s.confidences
  pure ⟨s.unmaskedTokens ++ [pairs], s.outputConf ++ [outputConf], confidences⟩

def unmaskOld (args : UnmaskArgs γ) (confidences : List (List γ)) :
    Except PyError (Unmasked γ) := do
  pyAssert (args.logits.length = args.isMask.length)
  let ranges := Sampler.getOutputRange 0 args.rows
  (args.rows.zip ranges).zipIdx.foldlM args.selectRow ⟨[], [], confidences⟩

end Versions

/-! ## One row -/

def cells (args : UnmaskArgs γ) : List (Bool × Token × γ) := args.isMask.zip args.logits

def masked (args : UnmaskArgs γ) (ranges : OutputRange) : List ((Bool × Token × γ) × ℕ) :=
  setCells Prod.fst (slice args.cells ranges.unmaskStart ranges.unmaskEnd)

def pairOf (ranges : OutputRange) (x : (Bool × Token × γ) × ℕ) : ℕ × Token :=
  (x.2 + ranges.blockStart, x.1.2.1)

def above [LT γ] [DecidableLT γ] (args : UnmaskArgs γ) (ranges : OutputRange) (thresh : γ) :
    List ((Bool × Token × γ) × ℕ) :=
  (args.masked ranges).filter fun x => thresh < x.1.2.2

section Row

variable {args : UnmaskArgs γ} {ranges : OutputRange} {i : ℕ}

section

variable (hlen : args.logits.length = args.isMask.length)
include hlen

theorem isMask_eq : args.isMask = args.cells.map Prod.fst :=
  (List.map_fst_zip hlen.ge).symm

theorem logits_eq : args.logits = args.cells.map Prod.snd :=
  (List.map_snd_zip hlen.le).symm

theorem slices_eq (a b : ℤ) :
    slice args.isMask a b = (slice args.cells a b).map Prod.fst ∧
      slice (args.logits.map Prod.fst) a b = (slice args.cells a b).map (fun c => c.2.1) ∧
      slice (args.logits.map Prod.snd) a b = (slice args.cells a b).map fun c => c.2.2 := by
  refine ⟨?_, ?_, ?_⟩
  · conv_lhs => rw [isMask_eq hlen]
    exact slice_map _ _ _ _
  · rw [logits_eq hlen, List.map_map]
    exact slice_map _ _ _ _
  · rw [logits_eq hlen, List.map_map]
    exact slice_map _ _ _ _

end

structure IsBest (args : UnmaskArgs γ) (ranges : OutputRange) (top : (Bool × Token × γ) × ℕ) :
    Prop where
  index : (args.masked ranges)[args.argmax ((args.masked ranges).map fun x => x.1.2.2)]? = some top

theorem IsBest.best_eq {top : (Bool × Token × γ) × ℕ} (h : args.IsBest ranges top) :
    args.best ((args.masked ranges).map fun x => x.1.2.2) =
      .ok (args.argmax ((args.masked ranges).map fun x => x.1.2.2)) := by
  have hne : (args.masked ranges).map (fun x => x.1.2.2) ≠ [] := by
    intro hnil
    rw [List.map_eq_nil_iff] at hnil
    have hget := h.index
    rw [hnil] at hget
    cases hget
  rw [best, if_neg hne]

theorem IsBest.mem {top : (Bool × Token × γ) × ℕ} (h : args.IsBest ranges top) :
    top ∈ args.masked ranges :=
  List.mem_of_getElem? h.index

theorem IsBest.item_eq {top : (Bool × Token × γ) × ℕ} (h : args.IsBest ranges top) :
    item ((args.masked ranges).map Prod.snd)
      (args.argmax ((args.masked ranges).map fun x => x.1.2.2)) = .ok top.2 :=
  item_of_getElem? (by rw [List.getElem?_map, h.index, Option.map_some])

theorem nonzero_slice (hlen : args.logits.length = args.isMask.length) :
    nonzero (slice args.isMask ranges.unmaskStart ranges.unmaskEnd) =
      (args.masked ranges).map Prod.snd := by
  rw [(slices_eq hlen _ _).1, nonzero_map]
  rfl

theorem gather_tokens (hlen : args.logits.length = args.isMask.length)
    {xs : List ((Bool × Token × γ) × ℕ)} (hxs : ∀ x ∈ xs, x ∈ args.masked ranges) :
    gather (slice (args.logits.map Prod.fst) ranges.unmaskStart ranges.unmaskEnd)
      (xs.map Prod.snd) = .ok (xs.map fun x => x.1.2.1) := by
  rw [(slices_eq hlen _ _).2.1]
  exact gather_setCells _ hxs

theorem map_pairOf (xs : List ((Bool × Token × γ) × ℕ)) :
    ((xs.map Prod.snd).map (· + ranges.blockStart)).zip (xs.map fun x => x.1.2.1) =
      xs.map (pairOf ranges) := by
  rw [List.map_map, List.zip_map']
  rfl

variable [LT γ] [DecidableLT γ] {top : (Bool × Token × γ) × ℕ}

theorem maskSelect_above (thresh : γ) : maskSelect ((args.masked ranges).map Prod.snd)
    (((args.masked ranges).map fun x => x.1.2.2).map fun c => decide (thresh < c)) =
      .ok ((args.above ranges thresh).map Prod.snd) := by
  rw [List.map_map]
  exact maskSelect_map _ _ _

theorem count_above (thresh : γ) : (((args.masked ranges).map fun x => x.1.2.2).map
    fun c => decide (thresh < c)).count true = (args.above ranges thresh).length := by
  rw [List.map_map, List.count_eq_countP, List.countP_map, above, ← List.countP_eq_length_filter]
  refine List.countP_congr fun x _ => ?_
  simp

/-- The new version appends the best place and keeps it only if there is no other. -/
theorem padPairs_eq (hlen : args.logits.length = args.isMask.length)
    (htop : args.IsBest ranges top) :
    args.padPairs i ranges = (item args.confidenceThresholds i).map fun thresh =>
      ((args.above ranges thresh ++ [top]).map (pairOf ranges),
        (List.range (args.above ranges thresh ++ [top]).length).map fun pos =>
          decide (pos < max 1 (args.above ranges thresh).length)) := by
  have hconfs : gather (slice (args.logits.map Prod.snd) ranges.unmaskStart ranges.unmaskEnd)
      ((args.masked ranges).map Prod.snd) = .ok ((args.masked ranges).map fun x => x.1.2.2) := by
    rw [(slices_eq hlen _ _).2.2]
    exact gather_setCells (p := Prod.fst) _ fun _ hx => hx
  unfold padPairs
  dsimp only
  rw [nonzero_slice hlen, hconfs, ok_bind]
  cases item args.confidenceThresholds i with
  | error err => rfl
  | ok thresh =>
      have hmem : ∀ x ∈ args.above ranges thresh ++ [top], x ∈ args.masked ranges := by
        intro x hx
        rcases List.mem_append.mp hx with hx | hx
        · exact List.mem_of_mem_filter hx
        · rw [List.mem_singleton] at hx
          exact hx ▸ htop.mem
      have hkeep : ∀ k : ℕ, (if 0 < k then k else 1) = max 1 k := by
        intro k
        split_ifs <;> omega
      rw [ok_bind, maskSelect_above, ok_bind, htop.best_eq, ok_bind,
        htop.item_eq, ok_bind, ← List.map_singleton (f := Prod.snd), ← List.map_append,
        gather_tokens hlen hmem, ok_bind, map_pairOf, count_above, hkeep, List.length_map]
      rfl

/-- The old version takes the best place if there is no other. -/
theorem selectPairs_eq (hlen : args.logits.length = args.isMask.length)
    (htop : args.IsBest ranges top) :
    args.selectPairs i ranges = (item args.confidenceThresholds i).map fun thresh =>
      (if args.above ranges thresh = [] then [top] else args.above ranges thresh).map
        (pairOf ranges) := by
  have hany : (slice args.isMask ranges.unmaskStart ranges.unmaskEnd).any id = true := by
    obtain ⟨hmem, hset⟩ := List.mem_filter.mp htop.mem
    rw [(slices_eq hlen _ _).1, List.any_map, List.any_eq_true]
    exact ⟨top.1, List.fst_mem_of_mem_zipIdx hmem, hset⟩
  have hconfs : maskSelect (slice (args.logits.map Prod.snd) ranges.unmaskStart ranges.unmaskEnd)
      (slice args.isMask ranges.unmaskStart ranges.unmaskEnd) =
        .ok ((args.masked ranges).map fun x => x.1.2.2) := by
    rw [(slices_eq hlen _ _).2.2, (slices_eq hlen _ _).1, maskSelect_map]
    exact congrArg _ (map_setCells _ _ _).symm
  unfold selectPairs
  dsimp only
  rw [pyAssert, if_pos hany, ok_bind, hconfs, ok_bind, nonzero_slice hlen]
  cases item args.confidenceThresholds i with
  | error err => rfl
  | ok thresh =>
      rw [ok_bind, maskSelect_above, ok_bind]
      simp only [Except.map]
      by_cases hnone : args.above ranges thresh = []
      · have hmem : ∀ x ∈ [top], x ∈ args.masked ranges := by
          intro x hx
          rw [List.mem_singleton] at hx
          exact hx ▸ htop.mem
        have htokens := gather_tokens hlen hmem
        rw [List.map_singleton] at htokens
        rw [hnone, List.map_nil, List.isEmpty_nil, if_pos rfl, if_pos rfl, htop.best_eq,
          ok_bind, htop.item_eq, ok_bind]
        change (gather _ _ >>= _) = _
        rw [htokens]
        rfl
      · have hne : ((args.above ranges thresh).map Prod.snd).isEmpty = false := by
          simpa using hnone
        have htokens := gather_tokens hlen fun x (hx : x ∈ args.above ranges thresh) =>
          List.mem_of_mem_filter hx
        rw [hne, if_neg Bool.false_ne_true, if_neg hnone]
        change (gather _ _ >>= _) = _
        rw [htokens, ok_bind, map_pairOf]
        rfl

/-- What the new version keeps is what the old version selects. -/
theorem maskSelect_padded (thresh : γ) (top : (Bool × Token × γ) × ℕ) :
    maskSelect ((args.above ranges thresh ++ [top]).map (pairOf ranges))
      ((List.range (args.above ranges thresh ++ [top]).length).map fun pos =>
        decide (pos < max 1 (args.above ranges thresh).length)) =
      .ok ((if args.above ranges thresh = [] then [top] else args.above ranges thresh).map
        (pairOf ranges)) := by
  have hcut := maskSelect_take ((args.above ranges thresh ++ [top]).map (pairOf ranges))
    (max 1 (args.above ranges thresh).length)
  rw [List.length_map] at hcut
  rw [hcut, ← List.map_take]
  congr 2
  by_cases hnone : args.above ranges thresh = []
  · rw [hnone, if_pos rfl]
    rfl
  · have hpos := List.length_pos_of_ne_nil hnone
    rw [if_neg hnone, Nat.max_eq_right hpos, List.take_left']
    rfl

end Row

/-! ## All rows -/

section Loops

variable [LT γ] [DecidableLT γ] {args : UnmaskArgs γ}

def finish (s : Padding γ) : Except PyError (Unmasked γ) := do
  let unmaskedTokens ← s.pairsPadded.mapM fun x => maskSelect x.1 x.2
  pure ⟨unmaskedTokens, s.outputConf, s.confidences⟩

/-- The two loops go side by side. -/
theorem foldlM_padRow (hlen : args.logits.length = args.isMask.length)
    {l : List ((SamplerRow × OutputRange) × ℕ)} (hl : ∀ y ∈ l, ∃ top, args.IsBest y.1.2 top)
    {s : Padding γ} {t : Unmasked γ}
    (hpairs : s.pairsPadded.mapM (fun x => maskSelect x.1 x.2) = .ok t.unmaskedTokens)
    (hconf : s.outputConf = t.outputConf) (hrows : s.confidences = t.confidences) :
    (l.foldlM args.padRow s >>= finish) = l.foldlM args.selectRow t := by
  induction l generalizing s t with
  | nil =>
      change finish s = .ok t
      rw [finish, hpairs, ok_bind, hconf, hrows]
      rfl
  | cons y l ih =>
      obtain ⟨top, htop⟩ := hl y List.mem_cons_self
      rw [List.foldlM_cons, List.foldlM_cons, padRow, selectRow, padPairs_eq hlen htop,
        selectPairs_eq hlen htop, hrows]
      cases item args.confidenceThresholds y.2 with
      | error err => rfl
      | ok thresh =>
          cases args.copyConfidence y.2 y.1.1.metadata y.1.2 t.confidences with
          | error err =>
              simp only [Except.map, ok_bind, error_bind]
          | ok x =>
              simp only [Except.map, ok_bind]
              apply ih fun z hz => hl z (List.mem_cons_of_mem y hz)
              · rw [List.mapM_append, hpairs, ok_bind]
                rw [List.mapM_cons, maskSelect_padded]
                rfl
              · rw [hconf]
              · rfl

end Loops

section Preorder

variable [Preorder γ] [DecidableLT γ] {args : UnmaskArgs γ} {ranges : OutputRange}

/-- The pairs of a block: all masked places above the threshold, or else one with the highest
confidence. -/
def Selected (args : UnmaskArgs γ) (ranges : OutputRange) (thresh : γ)
    (pairs : List (ℕ × Token)) : Prop :=
  (args.above ranges thresh ≠ [] ∧ pairs = (args.above ranges thresh).map (pairOf ranges)) ∨
    (args.above ranges thresh = [] ∧ ∃ top ∈ args.masked ranges,
      (∀ x ∈ args.masked ranges, x.1.2.2 ≤ top.1.2.2) ∧ pairs = [pairOf ranges top])

def FindsMax (args : UnmaskArgs γ) : Prop :=
  ∀ l : List γ, l ≠ [] → ∃ v, l[args.argmax l]? = some v ∧ ∀ a ∈ l, a ≤ v

omit [DecidableLT γ] in
theorem exists_isBest (hargmax : args.FindsMax) (hlen : args.logits.length = args.isMask.length)
    (hmask : true ∈ slice args.isMask ranges.unmaskStart ranges.unmaskEnd) :
    ∃ top, args.IsBest ranges top ∧ ∀ x ∈ args.masked ranges, x.1.2.2 ≤ top.1.2.2 := by
  have hne : (args.masked ranges).map (fun x => x.1.2.2) ≠ [] := by
    rw [(slices_eq hlen _ _).1] at hmask
    obtain ⟨c, hc, hset⟩ := List.mem_map.mp hmask
    have hmem : c ∈ (slice args.cells ranges.unmaskStart ranges.unmaskEnd).filter Prod.fst :=
      List.mem_filter.mpr ⟨hc, hset⟩
    have hconf : c.2.2 ∈ (args.masked ranges).map fun x => x.1.2.2 :=
      (map_setCells (fun c : Bool × Token × γ => c.2.2) Prod.fst _).symm ▸
        List.mem_map_of_mem hmem
    exact List.ne_nil_of_mem hconf
  obtain ⟨v, hv, hmax⟩ := hargmax _ hne
  rw [List.getElem?_map] at hv
  obtain ⟨top, htop, rfl⟩ := Option.map_eq_some_iff.mp hv
  exact ⟨top, ⟨htop⟩, fun x hx => hmax _ (List.mem_map_of_mem hx)⟩

theorem ensures_selectPairs {i : ℕ} (hargmax : args.FindsMax)
    (hlen : args.logits.length = args.isMask.length)
    (hmask : true ∈ slice args.isMask ranges.unmaskStart ranges.unmaskEnd) :
    (args.selectPairs i ranges).Ensures (fun _ => True) fun pairs => ∃ thresh,
      args.confidenceThresholds[i]? = some thresh ∧ args.Selected ranges thresh pairs := by
  obtain ⟨top, htop, hmax⟩ := exists_isBest hargmax hlen hmask
  rw [selectPairs_eq hlen htop, item]
  cases hthr : args.confidenceThresholds[i]? with
  | none => trivial
  | some thresh =>
      refine ⟨thresh, rfl, ?_⟩
      dsimp only
      by_cases hnone : args.above ranges thresh = []
      · rw [if_pos hnone]
        exact Or.inr ⟨hnone, top, htop.mem, hmax, rfl⟩
      · rw [if_neg hnone]
        exact Or.inl ⟨hnone, rfl⟩

theorem foldlM_selectRow (hargmax : args.FindsMax)
    (hlen : args.logits.length = args.isMask.length) {l : List ((SamplerRow × OutputRange) × ℕ)}
    (hl : ∀ y ∈ l, true ∈ slice args.isMask y.1.2.unmaskStart y.1.2.unmaskEnd)
    (t : Unmasked γ) :
    (l.foldlM args.selectRow t).Ensures (fun _ => True) fun t' => ∃ news,
      t'.unmaskedTokens = t.unmaskedTokens ++ news ∧
      List.Forall₂ (fun y pairs => ∃ thresh, args.confidenceThresholds[y.2]? = some thresh ∧
        args.Selected y.1.2 thresh pairs) l news := by
  induction l generalizing t with
  | nil => exact ⟨[], (List.append_nil _).symm, .nil⟩
  | cons y l ih =>
      rw [List.foldlM_cons, ensures_bind, selectRow, ensures_bind]
      apply (ensures_selectPairs hargmax hlen (hl y List.mem_cons_self)).imp
      intro pairs hpairs
      refine ensures_bind_any _ fun x => ?_
      rw [ensures_pure]
      apply (ih (fun z hz => hl z (List.mem_cons_of_mem y hz)) _).imp
      rintro t' ⟨news, hnews, hall⟩
      refine ⟨pairs :: news, ?_, .cons hpairs hall⟩
      rw [hnews, List.append_assoc, List.singleton_append]

/-- Both versions do the same, and select what they should. -/
theorem unmask_refines_old (args : UnmaskArgs γ) (confidences : List (List γ))
    (hargmax : args.FindsMax) (hmask : ∀ ranges ∈ Sampler.getOutputRange 0 args.rows,
      true ∈ slice args.isMask ranges.unmaskStart ranges.unmaskEnd) :
    args.unmask confidences = args.unmaskOld confidences ∧
      ∀ res, args.unmask confidences = .ok res →
        res.unmaskedTokens.length = args.rows.length ∧
        ∀ (i : ℕ) ranges pairs, (Sampler.getOutputRange 0 args.rows)[i]? = some ranges →
          res.unmaskedTokens[i]? = some pairs →
          ∃ thresh, args.confidenceThresholds[i]? = some thresh ∧
            args.Selected ranges thresh pairs := by
  have hl : ∀ y ∈ (args.rows.zip (Sampler.getOutputRange 0 args.rows)).zipIdx,
      true ∈ slice args.isMask y.1.2.unmaskStart y.1.2.unmaskEnd :=
    fun y hy => hmask _ (List.of_mem_zip (List.fst_mem_of_mem_zipIdx hy)).2
  have heq : args.unmask confidences = args.unmaskOld confidences := by
    unfold unmask unmaskOld pyAssert
    by_cases hlen : args.logits.length = args.isMask.length
    · rw [if_pos (decide_eq_true hlen), ok_bind, ok_bind]
      refine foldlM_padRow hlen (fun y hy => ?_) rfl rfl rfl
      obtain ⟨top, htop, -⟩ := exists_isBest hargmax hlen (hl y hy)
      exact ⟨top, htop⟩
    · rw [if_neg (by simpa using hlen)]
      rfl
  refine ⟨heq, fun res hres => ?_⟩
  rw [heq, unmaskOld, pyAssert] at hres
  by_cases hlen : args.logits.length = args.isMask.length
  · rw [if_pos (decide_eq_true hlen), ok_bind] at hres
    obtain ⟨news, hnews, hall⟩ := ensures_of_ok (foldlM_selectRow hargmax hlen hl _) hres
    rw [List.nil_append] at hnews
    rw [hnews]
    constructor
    · rw [← hall.length_eq, List.length_zipIdx, List.length_zip, Sampler.length_getOutputRange,
        Nat.min_self]
    · intro i ranges pairs hranges hpairs
      obtain ⟨y, hy, hsel⟩ := exists_getElem?_of_forall₂ hall.flip hpairs
      rw [List.getElem?_zipIdx, Nat.zero_add] at hy
      obtain ⟨x, hx, rfl⟩ := Option.map_eq_some_iff.mp hy
      rw [List.getElem?_zip_eq_some, hranges, Option.some.injEq] at hx
      rw [hx.2]
      exact hsel
  · rw [if_neg (by simpa using hlen)] at hres
    cases hres

end Preorder

def firstMax [LE γ] [DecidableLE γ] (l : List γ) : ℕ :=
  l.findIdx fun a => decide (∀ b ∈ l, b ≤ a)

theorem getElem?_firstMax [Preorder γ] [DecidableLE γ] [Std.Total (α := γ) (· ≤ ·)] {l : List γ}
    (hne : l ≠ []) : ∃ v, l[firstMax l]? = some v ∧ ∀ a ∈ l, a ≤ v := by
  obtain ⟨v, hv, hmax⟩ := List.exists_max hne
  have hlt : firstMax l < l.length :=
    List.findIdx_lt_length_of_exists ⟨v, hv, decide_eq_true hmax⟩
  refine ⟨l.get ⟨firstMax l, hlt⟩, List.getElem?_eq_getElem hlt, ?_⟩
  exact of_decide_eq_true (List.findIdx_getElem (w := hlt))

/-- Two requests with a prompt of one token and a block of two. -/
def twoBlocks : UnmaskArgs ℕ where
  isMask := [false, true, true, false, true, true]
  logits := [(5, 9), (6, 3), (7, 4), (5, 9), (8, 6), (9, 5)]
  rows := [⟨⟨1, 3, 1, 2⟩, 0, 3, 0⟩, ⟨⟨1, 3, 1, 2⟩, 0, 3, 0⟩]
  confidenceThresholds := [2, 6]
  reqIds := ["a", "b"]
  reqIdToIndex := (Dict.empty.set "a" 0).set "b" 1
  argmax := firstMax

/-- Both places of the first request are above its threshold and none of the second one. -/
theorem unmask_refines_old_small :
    twoBlocks.unmask [[0, 0, 0, 0], [0, 0, 0, 0]] =
      twoBlocks.unmaskOld [[0, 0, 0, 0], [0, 0, 0, 0]] ∧
    (twoBlocks.unmask [[0, 0, 0, 0], [0, 0, 0, 0]]).Ensures (fun _ => False) fun res =>
      res.unmaskedTokens = [[(1, 6), (2, 7)], [(1, 8)]] ∧
      res.confidences = [[0, 3, 4, 0], [0, 6, 5, 0]] :=
  ⟨(unmask_refines_old twoBlocks [[0, 0, 0, 0], [0, 0, 0, 0]]
    (fun _ hne => getElem?_firstMax hne) (by decide)).1, by decide +kernel⟩

end UnmaskArgs

end TeDiServe

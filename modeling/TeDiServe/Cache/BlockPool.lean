import TeDiServe.Scheduler.Basic

/-!
# KV cache blocks

Every executor has a pool of KV cache blocks and a manager that hands them out to
requests. A block is taken from the front of the queue of free blocks, and goes back to
its end when the last reference to it is dropped; block 0 is the null block and is never
handed out. The models have one group of full attention layers, so a request has one list
of blocks. The block hashes are left out: the scheduler never asks for cached blocks, so
they decide nothing.

A manager is *accounted* for when the free blocks and the blocks of all requests are
together all blocks but the null block, each once.
-/

namespace TeDiServe

structure BlockPool where
  freeBlockQueue : List ℕ
  refCnt : ℕ → ℤ

namespace BlockPool

def nullBlock : ℕ := 0

/-- All blocks are free, and the first one is taken as the null block. -/
def create (numGpuBlocks : ℕ) : BlockPool :=
  ⟨(List.range numGpuBlocks).tail, fun _ => 0⟩

/-- The loop of `get_new_blocks`. -/
def popBlocks : ℕ → BlockPool → Except PyError (List ℕ × BlockPool)
  | 0, p => pure ([], p)
  | n + 1, p =>
      match p.freeBlockQueue with
      | [] => throw .value
      | b :: queue => do
          pyAssert (p.refCnt b = 0)
          let x ← popBlocks n ⟨queue, Function.update p.refCnt b (p.refCnt b + 1)⟩
          pure (b :: x.1, x.2)

def getNewBlocks (p : BlockPool) (numBlocks : ℕ) : Except PyError (List ℕ × BlockPool) :=
  if p.freeBlockQueue.length < numBlocks then throw .value else popBlocks numBlocks p

def freeBlock (p : BlockPool) (b : ℕ) : BlockPool :=
  let count := p.refCnt b - 1
  { freeBlockQueue :=
      if count = 0 ∧ b ≠ nullBlock then p.freeBlockQueue ++ [b] else p.freeBlockQueue
    refCnt := Function.update p.refCnt b count }

def freeBlocks (p : BlockPool) (orderedBlocks : List ℕ) : BlockPool :=
  orderedBlocks.foldl freeBlock p

/-- Taking blocks that nobody refers to cuts off the front of the queue. -/
theorem ensures_popBlocks (n : ℕ) {p : BlockPool} (hn : n ≤ p.freeBlockQueue.length)
    (hnodup : p.freeBlockQueue.Nodup) (hidle : ∀ b ∈ p.freeBlockQueue, p.refCnt b = 0) :
    (popBlocks n p).Ensures (fun _ => False) fun x => x.1.length = n ∧
      p.freeBlockQueue = x.1 ++ x.2.freeBlockQueue ∧
      ∀ b, x.2.refCnt b = if b ∈ x.1 then 1 else p.refCnt b := by
  induction n generalizing p with
  | zero => exact ⟨rfl, rfl, fun b => by simp⟩
  | succ n ih =>
      obtain ⟨queue, refCnt⟩ := p
      cases queue with
      | nil => simp at hn
      | cons b queue =>
          obtain ⟨hfresh, hnodup⟩ := List.nodup_cons.mp hnodup
          have hzero : refCnt b = 0 := hidle b List.mem_cons_self
          unfold popBlocks
          dsimp only
          rw [ensures_bind, ensures_pyAssert]
          refine ⟨fun _ => ?_, fun hf => by simp [hzero] at hf⟩
          rw [ensures_bind]
          have hrest : ∀ c ∈ queue, Function.update refCnt b (refCnt b + 1) c = 0 := by
            intro c hc
            have hne : c ≠ b := fun h => hfresh (h ▸ hc)
            rw [Function.update_of_ne hne]
            exact hidle c (List.mem_cons_of_mem b hc)
          apply (ih (p := ⟨queue, Function.update refCnt b (refCnt b + 1)⟩)
            (by simpa using hn) hnodup hrest).imp
          rintro ⟨taken, p'⟩ ⟨hlen, hqueue, hcnt⟩
          dsimp only at hlen hqueue hcnt
          rw [ensures_pure]
          refine ⟨by simp [hlen], by simp [hqueue], ?_⟩
          intro c
          dsimp only
          rw [hcnt]
          by_cases hc : c = b
          · subst hc
            simp [hzero]
          · rw [Function.update_of_ne hc]
            simp [hc]

/-- Dropping the only reference to some blocks puts them at the end of the queue. -/
theorem freeBlocks_eq (bs : List ℕ) {p : BlockPool} (hnodup : bs.Nodup)
    (hused : ∀ b ∈ bs, p.refCnt b = 1 ∧ b ≠ nullBlock) :
    (p.freeBlocks bs).freeBlockQueue = p.freeBlockQueue ++ bs ∧
      ∀ b, (p.freeBlocks bs).refCnt b = if b ∈ bs then 0 else p.refCnt b := by
  induction bs generalizing p with
  | nil => simp [freeBlocks]
  | cons b bs ih =>
      obtain ⟨hfresh, hnodup⟩ := List.nodup_cons.mp hnodup
      obtain ⟨hone, hnull⟩ := hused b List.mem_cons_self
      have hqueue : (p.freeBlock b).freeBlockQueue = p.freeBlockQueue ++ [b] := by
        simp [freeBlock, hone, hnull]
      have hcnt : ∀ c, (p.freeBlock b).refCnt c = if c = b then 0 else p.refCnt c := by
        intro c
        by_cases hc : c = b
        · simp [freeBlock, hc, hone]
        · simp [freeBlock, hc]
      have hrest : ∀ c ∈ bs, (p.freeBlock b).refCnt c = 1 ∧ c ≠ nullBlock := by
        intro c hc
        have hne : c ≠ b := fun h => hfresh (h ▸ hc)
        rw [hcnt, if_neg hne]
        exact hused c (List.mem_cons_of_mem b hc)
      obtain ⟨hqueue', hcnt'⟩ := ih hnodup hrest
      change ((p.freeBlock b).freeBlocks bs).freeBlockQueue = _ ∧
        ∀ c, ((p.freeBlock b).freeBlocks bs).refCnt c = _
      refine ⟨by simp [hqueue', hqueue], ?_⟩
      intro c
      rw [hcnt', hcnt]
      by_cases hc : c = b
      · simp [hc]
      · simp [hc]

end BlockPool

structure KVCacheConfig where
  numBlocks : ℕ
  blockSize : ℕ
  maxModelLen : ℕ
  enableCaching : Bool
  numBlocks_pos : 0 < numBlocks
  blockSize_pos : 0 < blockSize
  maxModelLen_pos : 0 < maxModelLen

structure KVCacheManager where
  config : KVCacheConfig
  blockPool : BlockPool
  reqToBlocks : Dict ReqId (List ℕ)
  numCachedBlock : Dict ReqId ℕ

namespace KVCacheManager

def create (config : KVCacheConfig) : KVCacheManager :=
  ⟨config, BlockPool.create config.numBlocks, Dict.empty, Dict.empty⟩

def cdiv (a b : ℕ) : ℕ := (a + b - 1) / b

def getNumBlocksToAllocate (m : KVCacheManager) (r : ReqId) (numTokens : ℕ) : ℤ :=
  cdiv numTokens m.config.blockSize - (m.reqToBlocks.getD r []).length

/-- `save_new_computed_blocks` for a request without cached blocks. -/
def saveNewComputedBlocks (m : KVCacheManager) (r : ReqId) : Except PyError KVCacheManager :=
  if r ∈ m.numCachedBlock then pure m
  else do
    pyAssert (m.reqToBlocks.getD r [] = [])
    pure
      { m with
        reqToBlocks := m.reqToBlocks.set r []
        numCachedBlock := m.numCachedBlock.set r 0 }

def allocateNewBlocks (m : KVCacheManager) (r : ReqId) (numTokens : ℕ) :
    Except PyError KVCacheManager := do
  let reqBlocks := m.reqToBlocks.getD r []
  let numRequiredBlocks := cdiv numTokens m.config.blockSize
  if numRequiredBlocks ≤ reqBlocks.length then
    pure { m with reqToBlocks := m.reqToBlocks.set r reqBlocks }
  else do
    let x ← m.blockPool.getNewBlocks (numRequiredBlocks - reqBlocks.length)
    pure { m with blockPool := x.2, reqToBlocks := m.reqToBlocks.set r (reqBlocks ++ x.1) }

/-- `cache_blocks`, without the hashes. -/
def cacheBlocks (m : KVCacheManager) (r : ReqId) (numTokens : ℕ) : KVCacheManager :=
  { m with numCachedBlock := m.numCachedBlock.set r (numTokens / m.config.blockSize) }

/-- `allocate_slots` without cached and lookahead tokens; `none` when there are not enough
blocks. -/
def allocateSlots (m : KVCacheManager) (req : Request) (numNewTokens : ℕ) :
    Except PyError (Option KVCacheManager) :=
  if numNewTokens = 0 then throw .value
  else
    let numComputedTokens := req.numComputedTokens
    let numTokensNeedSlot := min (numComputedTokens + numNewTokens) m.config.maxModelLen
    if (m.blockPool.freeBlockQueue.length : ℤ) <
        m.getNumBlocksToAllocate req.requestId numTokensNeedSlot then pure none
    else do
      let m ← m.saveNewComputedBlocks req.requestId
      let m ← m.allocateNewBlocks req.requestId numTokensNeedSlot
      if m.config.enableCaching then
        pure (some (m.cacheBlocks req.requestId
          (min (numComputedTokens + numNewTokens) req.numTokens)))
      else pure (some m)

/-- `free`: the blocks go back in reverse order. -/
def free (m : KVCacheManager) (r : ReqId) : KVCacheManager :=
  { m with
    blockPool := m.blockPool.freeBlocks (m.reqToBlocks.getD r []).reverse
    reqToBlocks := m.reqToBlocks.erase r
    numCachedBlock := m.numCachedBlock.erase r }

def getBlockIds (m : KVCacheManager) (r : ReqId) : List ℕ := m.reqToBlocks.getD r []

/-- The managers that the scheduler makes for the executors. An allocation that raises
ends the call as one that fails. -/
def ops (config : ExecutorId → KVCacheConfig) : KVCacheOps KVCacheManager where
  create e := create (config e)
  allocateSlots m req n :=
    match m.allocateSlots req n with
    | .ok x => x
    | .error _ => none
  getBlockIds := getBlockIds
  free := free

/-! ## The account -/

variable {config : KVCacheConfig} {m m' : KVCacheManager} {r : ReqId}

def held (m : KVCacheManager) : List ℕ := m.reqToBlocks.values.flatten

structure Accounted (config : KVCacheConfig) (m : KVCacheManager) : Prop where
  config_eq : m.config = config
  blocks : (m.blockPool.freeBlockQueue ++ m.held).Perm (List.range' 1 (config.numBlocks - 1))
  idle : ∀ b ∈ m.blockPool.freeBlockQueue, m.blockPool.refCnt b = 0
  used : ∀ b ∈ m.held, m.blockPool.refCnt b = 1

namespace Accounted

section

variable (h : Accounted config m)
include h

theorem nodup : (m.blockPool.freeBlockQueue ++ m.held).Nodup :=
  h.blocks.symm.nodup (List.nodup_range' _)

theorem ne_nullBlock {b : ℕ} (hb : b ∈ m.held) : b ≠ BlockPool.nullBlock := by
  have hmem := h.blocks.mem_iff.mp (List.mem_append_right _ hb)
  rw [List.mem_range'_1] at hmem
  exact Nat.one_le_iff_ne_zero.mp hmem.1

theorem length :
    m.blockPool.freeBlockQueue.length + (m.reqToBlocks.values.map List.length).sum =
      config.numBlocks - 1 := by
  rw [← List.length_flatten, ← held, ← List.length_append, h.blocks.length_eq, List.length_range']

theorem disjoint {r r' : ReqId} (hne : r ≠ r') : (m.getBlockIds r).Disjoint (m.getBlockIds r') := by
  have hheld : m.held.Nodup := (List.nodup_append.mp h.nodup).2.1
  have hsplit := (m.reqToBlocks.flatten_values_perm r).nodup hheld
  have hother : m.getBlockIds r' = (m.reqToBlocks.erase r).getD r' [] := by
    rw [getBlockIds, Dict.getD, Dict.getD, Dict.get?_erase, if_neg hne.symm]
  intro b hb hb'
  rw [hother] at hb'
  have hin := ((m.reqToBlocks.erase r).flatten_values_perm r').mem_iff.mpr
    (List.mem_append_left _ hb')
  exact List.disjoint_of_nodup_append hsplit hb hin

end

theorem create : Accounted config (create config) := by
  refine ⟨rfl, ?_, fun _ _ => rfl, ?_⟩
  · have hqueue : (List.range config.numBlocks).tail = List.range' 1 (config.numBlocks - 1) := by
      rw [List.range_eq_range', List.tail_range']
    simp [KVCacheManager.create, BlockPool.create, held, Dict.values, Dict.empty, hqueue]
  · intro b hb
    simp [KVCacheManager.create, held, Dict.values, Dict.empty] at hb

section

variable (h : Accounted config m)
include h

theorem nodup_getBlockIds (r : ReqId) : (m.getBlockIds r).Nodup := by
  have hheld : m.held.Nodup := (List.nodup_append.mp h.nodup).2.1
  exact (List.nodup_append.mp ((m.reqToBlocks.flatten_values_perm r).nodup hheld)).1

/-- Nobody else refers to the blocks of a request, so they all go back to the queue. -/
theorem freeBlocks_eq (r : ReqId) :
    (m.blockPool.freeBlocks (m.getBlockIds r).reverse).freeBlockQueue =
      m.blockPool.freeBlockQueue ++ (m.getBlockIds r).reverse ∧
    ∀ b, (m.blockPool.freeBlocks (m.getBlockIds r).reverse).refCnt b =
      if b ∈ (m.getBlockIds r).reverse then 0 else m.blockPool.refCnt b := by
  have hin : ∀ b ∈ (m.getBlockIds r).reverse, b ∈ m.held := fun b hb =>
    (m.reqToBlocks.flatten_values_perm r).mem_iff.mpr
      (List.mem_append_left _ (List.mem_reverse.mp hb))
  exact BlockPool.freeBlocks_eq _ (List.nodup_reverse.mpr (h.nodup_getBlockIds r))
    fun b hb => ⟨h.used b (hin b hb), h.ne_nullBlock (hin b hb)⟩

theorem free (r : ReqId) : Accounted config (m.free r) := by
  have hsplit := m.reqToBlocks.flatten_values_perm r
  have hheld : m.held.Nodup := (List.nodup_append.mp h.nodup).2.1
  have hparts := hsplit.nodup hheld
  obtain ⟨hqueue, hcnt⟩ := h.freeBlocks_eq r
  refine ⟨h.config_eq, ?_, ?_, ?_⟩
  · change ((m.blockPool.freeBlocks (m.getBlockIds r).reverse).freeBlockQueue ++
      (m.reqToBlocks.erase r).values.flatten).Perm _
    rw [hqueue, List.append_assoc]
    refine List.Perm.trans (List.Perm.append_left _ ?_) h.blocks
    exact ((List.reverse_perm _).append_right _).trans hsplit.symm
  · intro b hb
    change b ∈ (m.blockPool.freeBlocks (m.getBlockIds r).reverse).freeBlockQueue at hb
    change (m.blockPool.freeBlocks (m.getBlockIds r).reverse).refCnt b = 0
    rw [hqueue, List.mem_append] at hb
    rw [hcnt]
    split_ifs with hmem
    · rfl
    · exact h.idle b (hb.resolve_right hmem)
  · intro b hb
    change b ∈ (m.reqToBlocks.erase r).values.flatten at hb
    change (m.blockPool.freeBlocks (m.getBlockIds r).reverse).refCnt b = 1
    rw [hcnt, if_neg]
    · exact h.used b (hsplit.mem_iff.mpr (List.mem_append_right _ hb))
    · intro hmem
      exact List.disjoint_of_nodup_append hparts (List.mem_reverse.mp hmem) hb

theorem setEmpty (hr : m.reqToBlocks.getD r [] = []) (n : Dict ReqId ℕ) :
    Accounted config { m with reqToBlocks := m.reqToBlocks.set r [], numCachedBlock := n } := by
  have hsplit := m.reqToBlocks.flatten_values_perm r
  rw [hr] at hsplit
  have hsame := (m.reqToBlocks.flatten_values_set_perm r []).trans hsplit.symm
  refine ⟨h.config_eq, ?_, h.idle, ?_⟩
  · exact (hsame.append_left _).trans h.blocks
  · intro b hb
    exact h.used b (hsame.mem_iff.mp hb)

end

structure Takes (config : KVCacheConfig) (m : KVCacheManager) (r : ReqId) (numTokens : ℕ)
    (m' : KVCacheManager) : Prop where
  accounted : Accounted config m'
  taken : (m'.getBlockIds r).length = cdiv numTokens config.blockSize
  others : ∀ r', r' ≠ r → m'.getBlockIds r' = m.getBlockIds r'
  queue : m'.blockPool.freeBlockQueue.length + cdiv numTokens config.blockSize =
    m.blockPool.freeBlockQueue.length

theorem cdiv_pos {numTokens : ℕ} (config : KVCacheConfig) (hpos : 0 < numTokens) :
    0 < cdiv numTokens config.blockSize := by
  have hsize := config.blockSize_pos
  apply Nat.div_pos _ hsize
  omega

variable (h : Accounted config m)
include h

theorem allocateNewBlocks (hr : m.reqToBlocks.getD r [] = []) {numTokens : ℕ}
    (hpos : 0 < numTokens) :
    (m.allocateNewBlocks r numTokens).Ensures
      (fun _ => m.blockPool.freeBlockQueue.length < cdiv numTokens config.blockSize)
      (Takes config m r numTokens) := by
  have hneed := cdiv_pos config hpos
  unfold KVCacheManager.allocateNewBlocks
  dsimp only
  rw [h.config_eq, hr, List.length_nil, if_neg (Nat.not_le.mpr hneed), ensures_bind,
    Nat.sub_zero]
  unfold BlockPool.getNewBlocks
  split_ifs with hlen
  · exact hlen
  have hnodup : m.blockPool.freeBlockQueue.Nodup := (List.nodup_append.mp h.nodup).1
  apply (BlockPool.ensures_popBlocks _ (Nat.not_lt.mp hlen) hnodup h.idle).mono
    (fun _ hf => hf.elim)
  rintro ⟨taken, pool⟩ ⟨htaken, hqueue, hcnt⟩
  dsimp only at htaken hqueue hcnt
  rw [ensures_pure, List.nil_append]
  have hsplit := m.reqToBlocks.flatten_values_perm r
  rw [hr] at hsplit
  have hset := (m.reqToBlocks.flatten_values_set_perm r taken).trans
    ((List.Perm.append_left taken hsplit.symm))
  have hall := h.nodup
  rw [hqueue] at hall
  have hapart : ∀ b ∈ taken, b ∉ pool.freeBlockQueue ∧ b ∉ m.held := by
    intro b hb
    rw [List.append_assoc] at hall
    have hdis := List.disjoint_of_nodup_append hall hb
    exact not_or.mp fun hmem => hdis (List.mem_append.mpr hmem)
  refine ⟨⟨rfl, ?_, ?_, ?_⟩, ?_, ?_, ?_⟩
  · refine List.Perm.trans ?_ h.blocks
    rw [hqueue]
    refine (hset.append_left _).trans ?_
    rw [← List.append_assoc]
    exact List.perm_append_comm.append_right _
  · intro b hb
    dsimp only at hb ⊢
    rw [hcnt, if_neg fun hmem => (hapart b hmem).1 hb]
    apply h.idle
    rw [hqueue]
    exact List.mem_append_right _ hb
  · intro b hb
    dsimp only
    rw [hcnt]
    rcases List.mem_append.mp (hset.mem_iff.mp hb) with hmem | hmem
    · rw [if_pos hmem]
    · rw [if_neg fun hmem' => (hapart b hmem').2 hmem]
      exact h.used b hmem
  · rw [getBlockIds, Dict.getD_set, if_pos rfl, htaken]
  · intro r' hr'
    rw [getBlockIds, getBlockIds, Dict.getD_set, if_neg hr']
  · rw [hqueue, List.length_append, htaken, Nat.add_comm]

/-- A request that has no blocks gets those that it needs, or there are not enough. An
allocation of no tokens raises. -/
theorem allocateSlots {req : Request} {n : ℕ} (hr : m.getBlockIds req.requestId = []) (hn : 0 < n) :
    (m.allocateSlots req n).Ensures (fun _ => False) fun o =>
      (o = none → m.blockPool.freeBlockQueue.length <
        cdiv (min (req.numComputedTokens + n) config.maxModelLen) config.blockSize) ∧
      ∀ m', o = some m' →
        Takes config m req.requestId (min (req.numComputedTokens + n) config.maxModelLen) m' := by
  have hpos : 0 < min (req.numComputedTokens + n) config.maxModelLen := by
    have := config.maxModelLen_pos
    omega
  have hr' : m.reqToBlocks.getD req.requestId [] = [] := hr
  unfold KVCacheManager.allocateSlots
  rw [if_neg (Nat.ne_of_gt hn)]
  simp only [getNumBlocksToAllocate, hr', h.config_eq, List.length_nil, Nat.cast_zero, sub_zero,
    Int.ofNat_lt]
  split_ifs with hlen
  · exact ⟨fun _ => hlen, fun _ hm' => (by cases hm')⟩
  have hsaved : (m.saveNewComputedBlocks req.requestId).Ensures (fun _ => False) fun m₁ =>
      Accounted config m₁ ∧ m₁.blockPool = m.blockPool ∧
      ∀ r', m₁.getBlockIds r' = m.getBlockIds r' := by
    unfold saveNewComputedBlocks
    split_ifs
    · exact ⟨h, rfl, fun _ => rfl⟩
    · rw [ensures_bind, pyAssert, if_pos (decide_eq_true hr'), ensures_ok]
      refine ⟨h.setEmpty hr _, rfl, ?_⟩
      intro r'
      rw [getBlockIds, getBlockIds, Dict.getD_set]
      split_ifs with heq
      · rw [heq]
        exact hr'.symm
      · rfl
  apply hsaved.bind
  rintro m₁ ⟨hm₁, hpool, hget⟩
  rw [ensures_bind]
  apply (hm₁.allocateNewBlocks ((hget _).trans hr) hpos).mono
  · intro _ hshort
    rw [hpool] at hshort
    exact hlen hshort
  intro m₂ hm₂
  have hother := hm₂.others
  have hqueue := hm₂.queue
  simp only [hget] at hother
  rw [hpool] at hqueue
  have hacc := hm₂.accounted
  split_ifs
  · refine ⟨fun hnone => (by cases hnone), fun m' hm' => ?_⟩
    cases hm'
    exact ⟨⟨hacc.config_eq, hacc.blocks, hacc.idle, hacc.used⟩, hm₂.taken, hother, hqueue⟩
  · refine ⟨fun hnone => (by cases hnone), fun m' hm' => ?_⟩
    cases hm'
    exact ⟨hacc, hm₂.taken, hother, hqueue⟩

theorem length_free (r : ReqId) :
    (m.free r).blockPool.freeBlockQueue.length =
      m.blockPool.freeBlockQueue.length + (m.getBlockIds r).length := by
  change (m.blockPool.freeBlocks (m.getBlockIds r).reverse).freeBlockQueue.length = _
  rw [(h.freeBlocks_eq r).1, List.length_append, List.length_reverse]

end Accounted

theorem getBlockIds_free (m : KVCacheManager) (r r' : ReqId) :
    (m.free r).getBlockIds r' = if r' = r then [] else m.getBlockIds r' := by
  change (m.reqToBlocks.erase r).getD r' [] = _
  rw [Dict.getD, Dict.get?_erase]
  split_ifs <;> rfl

end KVCacheManager

end TeDiServe

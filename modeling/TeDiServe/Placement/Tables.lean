import TeDiServe.Placement.Round
import TeDiServe.Placement.Frame

/-!
# The tables of a round

Stage 5 compares the placement `π₁` at the start of the round with the placement
`π₂` that the stages before it have decided. `Written` says what the tables hold
after some requests were visited, in terms of the two placements only: an executor
has an entry for each visited request that `π₂` puts there, as a cached request if
`π₁` had put it there too and as a new one otherwise, and it frees those that `π₁`
had there and `π₂` has not. What is written does not depend on the order of the
visits.
-/

namespace TeDiServe

/-- Start position and number of tokens of a step: a new request is executed in
full, a cached one as `determineRunningExecTokens` says. -/
def Request.stepShape {κ : Type} (cfg : Config κ) (cached : Bool) (req : Request) : ℕ × ℕ :=
  if cached then
    ((req.determineRunningExecTokens cfg).execStartPos,
      (req.determineRunningExecTokens cfg).numExecTokens)
  else (0, req.numTokens)

theorem Request.stepShape_of_progress {κ : Type} (cfg : Config κ) (cached : Bool)
    {req req' : Request} (h : req'.progress = req.progress) :
    req'.stepShape cfg cached = req.stepShape cfg cached := by
  have hall : req'.numTokens = req.numTokens := Request.numTokens_of_progress h
  have hstart : req'.curBlockStart = req.curBlockStart := (congrArg Request.curBlockStart h :)
  have hsize : req'.denoiseBlockSize = req.denoiseBlockSize :=
    (congrArg Request.denoiseBlockSize h :)
  have hnum : req'.isStartOfNewBlock = req.isStartOfNewBlock :=
    (congrArg Request.isStartOfNewBlock h :)
  simp only [stepShape, determineRunningExecTokens, hall, hstart, hsize, hnum]

def Allocates {κ : Type} (cfg : Config κ) : Prop :=
  ∀ m req n, (cfg.kv.allocateSlots m req n).isSome

/-- Errors that a round may raise: as long as blocks can be allocated, they have
nothing to do with the placement. -/
def Tolerated {κ : Type} (cfg : Config κ) (err : PyError) : Prop :=
  Allocates cfg → NotPlacement err

def Raised {κ : Type} (cfg : Config κ) (Asked : ℕ → Prop) (err : PyError) : Prop :=
  Tolerated cfg err ∧ AskedInVain cfg Asked err

theorem Unprofiled.raised {κ : Type} {cfg : Config κ} {Asked Asked' : ℕ → Prop} {err : PyError}
    (h : Unprofiled cfg Asked err) (hsub : ∀ n, Asked n → Asked' n) : Raised cfg Asked' err :=
  ⟨fun _ => h.1, h.2.mono hsub⟩

def Unallocated {κ : Type} (cfg : Config κ) (err : PyError) : Prop :=
  err = .assertion ∧ ¬ Allocates cfg

theorem Unallocated.raised {κ : Type} {cfg : Config κ} {Asked : ℕ → Prop} {err : PyError}
    (h : Unallocated cfg err) : Raised cfg Asked err := by
  refine ⟨fun halloc => absurd halloc h.2, fun heq => ?_⟩
  rw [h.1] at heq
  cases heq

namespace Tables

theorem getD_setIn {V : Type} (d : Dict ExecutorId (Dict ReqId V)) (e : ExecutorId) (r : ReqId)
    (v : V) (e' : ExecutorId) :
    (setIn d e r v).getD e' Dict.empty =
      if e' = e then (d.getD e Dict.empty).set r v else d.getD e' Dict.empty := by
  simp [setIn]

theorem mem_setIn {V : Type} (d : Dict ExecutorId (Dict ReqId V)) (e : ExecutorId) (r : ReqId)
    (v : V) (e' : ExecutorId) : e' ∈ setIn d e r v ↔ e' = e ∨ e' ∈ d :=
  Dict.mem_set _ _ _ _

theorem getD_appendIn (d : Dict ExecutorId (List ReqId)) (e : ExecutorId) (r : ReqId)
    (e' : ExecutorId) :
    (appendIn d e r).getD e' [] = if e' = e then d.getD e [] ++ [r] else d.getD e' [] := by
  simp [appendIn]

theorem popIn_of_not_mem {V : Type} {d : Dict ExecutorId (Dict ReqId V)} {e : ExecutorId}
    {r : ReqId} (h : r ∉ d.getD e Dict.empty) : popIn d e r = d := by
  unfold popIn
  cases hd : d.get? e with
  | none => rfl
  | some t =>
      rw [Dict.getD_of_get? hd] at h
      simp [h]

end Tables

namespace Scheduler

variable {κ : Type} {cfg : Config κ} {s s' s'' s₂ : Scheduler κ} {t : Tables}
  {π₁ π₂ : Placement} {r : ReqId} {e : ExecutorId} {done : List ReqId}

/-! ## The three entries -/

structure Touches (r : ReqId) (s s' : Scheduler κ) : Prop where
  framed : Framed s s'
  manager : s'.executorsManager = s.executorsManager
  others : ∀ r', r' ≠ r → s'.requests.get? r' = s.requests.get? r'

theorem Touches.refl (r : ReqId) (s : Scheduler κ) : Touches r s s :=
  ⟨Framed.refl s, rfl, fun _ _ => rfl⟩

theorem Touches.trans (h : Touches r s s') (h' : Touches r s' s'') : Touches r s s'' :=
  ⟨h.framed.trans h'.framed, h'.manager.trans h.manager,
    fun r' hr' => (h'.others r' hr').trans (h.others r' hr')⟩

theorem Soft.touches (h : Soft s s') (r : ReqId) : Touches r s s' :=
  ⟨h.framed, h.executorsManager, fun _ _ => by rw [h.requests]⟩

theorem touches_setRequest {req req' : Request} (hreq : s.requests.get? r = some req)
    (hp : req'.progress = req.progress) :
    Touches r s { s with requests := s.requests.set r req' } :=
  ⟨Framed.setRequest hreq hp, rfl, fun r' hr' => by simp [hr']⟩

theorem touches_setCache (r : ReqId) (he : e ∈ s.kvCacheManagers) (m : κ) :
    Touches r s { s with kvCacheManagers := s.kvCacheManagers.set e m } := by
  refine ⟨⟨⟨fun _ => rfl, fun _ => rfl, rfl, rfl, ?_, fun _ hr => Or.inl hr, rfl⟩, rfl,
    fun _ => rfl⟩, rfl, fun _ _ => rfl⟩
  intro e'
  rw [Dict.mem_set]
  constructor
  · rintro (rfl | he')
    · exact he
    · exact he'
  · exact Or.inr

theorem touches_markFree (s : Scheduler κ) (e : ExecutorId) (r : ReqId) :
    Touches r s (s.markFree e r) :=
  ⟨⟨⟨fun _ => rfl, fun _ => rfl, rfl, rfl, fun _ => Iff.rfl, fun _ hr => Or.inl hr, rfl⟩, rfl,
    fun _ => rfl⟩, rfl, fun _ _ => rfl⟩

theorem mem_freeReqIds_markFree (s : Scheduler κ) (e e' : ExecutorId) (r r' : ReqId) :
    r' ∈ (s.markFree e r).freeReqIds.getD e' OrderedSet.empty ↔
      r' ∈ s.freeReqIds.getD e' OrderedSet.empty ∨ e' = e ∧ r' = r := by
  by_cases he : e' = e
  · simp [markFree, he, or_comm]
  · simp [markFree, he]

theorem ensures_dropRequest (cfg : Config κ) (he : e ∈ s.kvCacheManagers) (hr : r ∈ s.requests)
    (htok : r ∉ t.numScheduledTokens.getD e Dict.empty)
    (hblk : r ∉ t.reqToNewBlockIds.getD e Dict.empty) :
    (dropRequest cfg s t r e).Ensures (fun _ => False) fun x =>
      Touches r s x.1 ∧ x.2 = t ∧ ∀ e' r', r' ∈ x.1.freeReqIds.getD e' OrderedSet.empty ↔
        r' ∈ s.freeReqIds.getD e' OrderedSet.empty ∨ e' = e ∧ r' = r := by
  obtain ⟨m, hm⟩ := (Dict.mem_iff_exists _ _).mp he
  obtain ⟨req, hreq⟩ := (Dict.mem_iff_exists _ _).mp hr
  unfold dropRequest freeBlocks
  rw [ensures_bind, ensures_bind, subscript_of_get? _ (show
    (s.markFree e r).kvCacheManagers.get? e = some m from hm), ensures_ok,
    ensures_pure, ensures_bind,
    ensures_modifyRequest (by exact hreq : _ = some req), ensures_pure]
  refine ⟨?_, ?_, ?_⟩
  · refine (touches_markFree s e r).trans ((touches_setCache r (e := e) ?_ _).trans
      ((touches_setRequest (by exact hreq : _ = some req) ?_).trans
        ((soft_markExecutorConfidenceThresholdsDirty _ e).touches r)))
    · exact he
    · rfl
  · rw [Tables.popIn_of_not_mem htok, Tables.popIn_of_not_mem hblk]
  · intro e' r'
    rw [(soft_markExecutorConfidenceThresholdsDirty _ e).freeReqIds]
    exact mem_freeReqIds_markFree s e e' r r'

theorem ensures_allocate (cfg : Config κ) (req : Request) (he : e ∈ s.kvCacheManagers) :
    (s.allocate cfg req e).Ensures (Unallocated cfg) fun s' =>
      Touches r s s' ∧ s'.freeReqIds = s.freeReqIds ∧ s'.requests = s.requests := by
  obtain ⟨m, hm⟩ := (Dict.mem_iff_exists _ _).mp he
  unfold allocate
  by_cases hc : cfg.caching = true
  · rw [if_pos hc, ensures_bind, subscript_of_get? _ hm, ensures_ok]
    cases ha : cfg.kv.allocateSlots m req req.numTokens with
    | none =>
        refine ⟨rfl, fun halloc => ?_⟩
        have := halloc m req req.numTokens
        rw [ha] at this
        cases this
    | some m' => exact ⟨touches_setCache r he m', rfl, rfl⟩
  · rw [if_neg hc]
    exact ⟨Touches.refl r s, rfl, rfl⟩

theorem ensures_addNewRequest (cfg : Config κ) (t : Tables) (he : e ∈ s.kvCacheManagers)
    {req : Request} (hreq : s.requests.get? r = some req) :
    (addNewRequest cfg s t r e).Ensures (Unallocated cfg) fun x =>
      Touches r s x.1 ∧ x.1.freeReqIds = s.freeReqIds ∧
      (∃ req', x.1.requests.get? r = some req' ∧ req'.numExecTokens = req.numTokens ∧
        (req'.execStartPos, req'.numExecTokens) = req'.stepShape cfg false) ∧
      ∃ b, x.2 =
        { t with
          scheduledNewReqs := Tables.appendIn t.scheduledNewReqs e r
          reqToNewBlockIds := Tables.setIn t.reqToNewBlockIds e r b
          numScheduledTokens := Tables.setIn t.numScheduledTokens e r req.numTokens } := by
  unfold addNewRequest
  rw [ensures_bind, subscript_of_get? _ hreq, ensures_ok, ensures_bind]
  refine (ensures_allocate (r := r) cfg req he).imp fun s' hs' => ?_
  obtain ⟨htouch, hfree, hsame⟩ := hs'
  obtain ⟨m, hm⟩ := (Dict.mem_iff_exists _ _).mp ((htouch.framed.caches e).mpr he)
  have hreq' : s'.requests.get? r = some req := by rw [hsame, hreq]
  rw [ensures_bind, subscript_of_get? _ hm, ensures_ok, ensures_bind,
    ensures_modifyRequest hreq', ensures_pure]
  have hsoft := soft_markExecutorConfidenceThresholdsDirty
    { s' with requests :=
      s'.requests.set r { req.determineNewExecTokens with status := .running } } e
  refine ⟨?_, ?_, ?_, _, rfl⟩
  · refine htouch.trans ((touches_setRequest hreq' ?_).trans (hsoft.touches r))
    rfl
  · rw [hsoft.freeReqIds]
    exact hfree
  · rw [hsoft.requests]
    exact ⟨_, Dict.get?_set_self _ _ _, rfl, rfl⟩

theorem ensures_addRunningRequest (cfg : Config κ) (t : Tables)
    {req : Request} (hreq : s.requests.get? r = some req) :
    (addRunningRequest cfg s t r e).Ensures (fun _ => False) fun x =>
      Touches r s x.1 ∧ x.1.freeReqIds = s.freeReqIds ∧
      (∃ req', x.1.requests.get? r = some req' ∧
        req'.numExecTokens = (req.determineRunningExecTokens cfg).numExecTokens ∧
        (req'.execStartPos, req'.numExecTokens) = req'.stepShape cfg true) ∧
      x.2 =
        { t with
          scheduledRunningReqs := Tables.appendIn t.scheduledRunningReqs e r
          reqToNewBlockIds := Tables.setIn t.reqToNewBlockIds e r []
          numScheduledTokens := Tables.setIn t.numScheduledTokens e r
            (req.determineRunningExecTokens cfg).numExecTokens } := by
  unfold addRunningRequest
  rw [ensures_bind, subscript_of_get? _ hreq, ensures_ok, ensures_bind,
    ensures_modifyRequest hreq, ensures_pure]
  refine ⟨touches_setRequest hreq ?_, rfl, ⟨_, Dict.get?_set_self _ _ _, rfl, rfl⟩, rfl⟩
  rfl

/-! ## Visiting the requests -/

/-- What the tables and the sets of requests to free hold after the requests of
`done` were visited. -/
structure Written (cfg : Config κ) (s₂ : Scheduler κ) (π₁ π₂ : Placement) (done : List ReqId)
    (s : Scheduler κ) (t : Tables) : Prop where
  framed : Framed s₂ s
  manager : s.executorsManager = s₂.executorsManager
  tokens : ∀ e r, r ∈ t.numScheduledTokens.getD e Dict.empty ↔
    r ∈ done ∧ π₂ r = some (.running e)
  shape : ∀ e r n, (t.numScheduledTokens.getD e Dict.empty).get? r = some n →
    ∃ req, s.requests.get? r = some req ∧ n = req.numExecTokens ∧
      (req.execStartPos, req.numExecTokens) = req.stepShape cfg (π₁ r = some (.running e))
  present : ∀ e, e ∈ t.numScheduledTokens ↔ ∃ r ∈ done, π₂ r = some (.running e)
  blocks : ∀ e r, r ∈ t.reqToNewBlockIds.getD e Dict.empty ↔
    r ∈ done ∧ π₂ r = some (.running e)
  new : ∀ e r, r ∈ t.scheduledNewReqs.getD e [] ↔
    r ∈ done ∧ π₂ r = some (.running e) ∧ π₁ r ≠ some (.running e)
  running : ∀ e r, r ∈ t.scheduledRunningReqs.getD e [] ↔
    r ∈ done ∧ π₂ r = some (.running e) ∧ π₁ r = some (.running e)
  nodupNew : ∀ e, (t.scheduledNewReqs.getD e []).Nodup
  nodupRunning : ∀ e, (t.scheduledRunningReqs.getD e []).Nodup
  free : ∀ e r, r ∈ s.freeReqIds.getD e OrderedSet.empty ↔
    r ∈ s₂.freeReqIds.getD e OrderedSet.empty ∨
      r ∈ done ∧ π₁ r = some (.running e) ∧ π₂ r ≠ some (.running e)

namespace Written

theorem empty (cfg : Config κ) (h : Framed s₂ s) (hm : s.executorsManager = s₂.executorsManager)
    (hf : s.freeReqIds = s₂.freeReqIds) (π₁ π₂ : Placement) :
    Written cfg s₂ π₁ π₂ [] s Tables.empty := by
  refine ⟨h, hm, ?_, ?_, ?_, ?_, ?_, ?_, ?_, ?_, ?_⟩
  · simp [Tables.empty]
  · simp [Tables.empty]
  · simp [Tables.empty]
  · simp [Tables.empty]
  · simp [Tables.empty]
  · simp [Tables.empty]
  · simp [Tables.empty]
  · simp [Tables.empty]
  · simp [hf]

/-- A request that ends up on no executor leaves no trace in the tables; if it had
one before, that executor frees it. -/
theorem skip (h : Written cfg s₂ π₁ π₂ done s t) (hrun : ∀ e, π₂ r ≠ some (.running e))
    (htouch : Touches r s s')
    (hfree : ∀ e' r', r' ∈ s'.freeReqIds.getD e' OrderedSet.empty ↔
      r' ∈ s.freeReqIds.getD e' OrderedSet.empty ∨ r' = r ∧ π₁ r = some (.running e')) :
    Written cfg s₂ π₁ π₂ (r :: done) s' t := by
  have hsame : ∀ e r', r' ∈ r :: done ∧ π₂ r' = some (.running e) ↔
      r' ∈ done ∧ π₂ r' = some (.running e) := by
    intro e r'
    constructor
    · rintro ⟨hmem, hr'⟩
      rcases List.mem_cons.mp hmem with rfl | hmem
      · exact absurd hr' (hrun e)
      · exact ⟨hmem, hr'⟩
    · rintro ⟨hmem, hr'⟩
      exact ⟨List.mem_cons_of_mem r hmem, hr'⟩
  refine ⟨h.framed.trans htouch.framed, htouch.manager.trans h.manager, ?_, ?_, ?_, ?_, ?_, ?_,
    h.nodupNew, h.nodupRunning, ?_⟩
  · intro e r'
    rw [h.tokens, hsame]
  · intro e r' n hn
    obtain ⟨-, hr'⟩ := (h.tokens e r').mp (Dict.mem_of_get? hn)
    have hne : r' ≠ r := by
      rintro rfl
      exact hrun e hr'
    rw [htouch.others r' hne]
    exact h.shape e r' n hn
  · intro e
    rw [h.present]
    constructor
    · rintro ⟨r', hmem, hr'⟩
      exact ⟨r', List.mem_cons_of_mem r hmem, hr'⟩
    · rintro ⟨r', hmem, hr'⟩
      exact ⟨r', (hsame e r').mp ⟨hmem, hr'⟩⟩
  · intro e r'
    rw [h.blocks, hsame]
  · intro e r'
    rw [h.new, ← and_assoc, ← and_assoc, hsame]
  · intro e r'
    rw [h.running, ← and_assoc, ← and_assoc, hsame]
  · intro e r'
    rw [hfree, h.free, List.mem_cons]
    constructor
    · rintro ((hold | hold) | ⟨rfl, hr⟩)
      · exact Or.inl hold
      · exact Or.inr ⟨Or.inr hold.1, hold.2⟩
      · exact Or.inr ⟨Or.inl rfl, hr, hrun e⟩
    · rintro (hold | ⟨rfl | hmem, hr⟩)
      · exact Or.inl (Or.inl hold)
      · exact Or.inr ⟨rfl, hr.1⟩
      · exact Or.inl (Or.inr ⟨hmem, hr⟩)

theorem add (h : Written cfg s₂ π₁ π₂ done s t) (hnot : r ∉ done)
    (hrun : π₂ r = some (.running e)) (htouch : Touches r s s')
    (hfree : ∀ e' r', r' ∈ s'.freeReqIds.getD e' OrderedSet.empty ↔
      r' ∈ s.freeReqIds.getD e' OrderedSet.empty ∨
        r' = r ∧ π₁ r = some (.running e') ∧ e' ≠ e)
    {n : ℕ} {b : List ℕ} {req' : Request} (hreq' : s'.requests.get? r = some req')
    (hn : n = req'.numExecTokens)
    (hshape : (req'.execStartPos, req'.numExecTokens) =
      req'.stepShape cfg (π₁ r = some (.running e)))
    {new running : Dict ExecutorId (List ReqId)}
    (hnew : ∀ e' r', r' ∈ new.getD e' [] ↔ r' ∈ t.scheduledNewReqs.getD e' [] ∨
      r' = r ∧ e' = e ∧ π₁ r ≠ some (.running e))
    (hrunning : ∀ e' r', r' ∈ running.getD e' [] ↔ r' ∈ t.scheduledRunningReqs.getD e' [] ∨
      r' = r ∧ e' = e ∧ π₁ r = some (.running e))
    (hnodupNew : ∀ e', (new.getD e' []).Nodup)
    (hnodupRunning : ∀ e', (running.getD e' []).Nodup) :
    Written cfg s₂ π₁ π₂ (r :: done) s'
      { scheduledNewReqs := new
        scheduledRunningReqs := running
        reqToNewBlockIds := Tables.setIn t.reqToNewBlockIds e r b
        numScheduledTokens := Tables.setIn t.numScheduledTokens e r n } := by
  have hiff : ∀ e' r', r' ∈ r :: done ∧ π₂ r' = some (.running e') ↔
      (r' ∈ done ∧ π₂ r' = some (.running e')) ∨ r' = r ∧ e' = e := by
    intro e' r'
    rw [List.mem_cons]
    constructor
    · rintro ⟨rfl | hmem, hr'⟩
      · rw [hrun, Option.some.injEq, Loc.running.injEq] at hr'
        exact Or.inr ⟨rfl, hr'.symm⟩
      · exact Or.inl ⟨hmem, hr'⟩
    · rintro (⟨hmem, hr'⟩ | ⟨rfl, rfl⟩)
      · exact ⟨Or.inr hmem, hr'⟩
      · exact ⟨Or.inl rfl, hrun⟩
  have hset : ∀ {V : Type} (d : Dict ExecutorId (Dict ReqId V)) (v : V) e' r',
      r' ∈ (Tables.setIn d e r v).getD e' Dict.empty ↔
        r' ∈ d.getD e' Dict.empty ∨ r' = r ∧ e' = e := by
    intro V d v e' r'
    rw [Tables.getD_setIn]
    by_cases he : e' = e
    · simp [he, or_comm]
    · simp [he]
  refine ⟨h.framed.trans htouch.framed, htouch.manager.trans h.manager, ?_, ?_, ?_, ?_, ?_, ?_,
    hnodupNew, hnodupRunning, ?_⟩
  · intro e' r'
    rw [hset, h.tokens, hiff]
  · intro e' r' m hm
    by_cases hr' : r' = r
    · subst hr'
      obtain hold | ⟨-, rfl⟩ := (hset _ _ e' r').mp (Dict.mem_of_get? hm)
      · exact absurd ((h.tokens e' r').mp hold).1 hnot
      · rw [Tables.getD_setIn, if_pos rfl, Dict.get?_set_self, Option.some.injEq] at hm
        exact ⟨req', hreq', hm ▸ hn, hshape⟩
    · rw [htouch.others r' hr']
      apply h.shape e' r' m
      rw [Tables.getD_setIn] at hm
      by_cases he : e' = e
      · subst he
        rwa [if_pos rfl, Dict.get?_set, if_neg hr'] at hm
      · rwa [if_neg he] at hm
  · intro e'
    rw [Tables.mem_setIn, h.present]
    constructor
    · rintro (rfl | ⟨r', hmem, hr'⟩)
      · exact ⟨r, List.mem_cons_self, hrun⟩
      · exact ⟨r', List.mem_cons_of_mem r hmem, hr'⟩
    · rintro ⟨r', hmem, hr'⟩
      rcases (hiff e' r').mp ⟨hmem, hr'⟩ with hold | ⟨-, rfl⟩
      · exact Or.inr ⟨r', hold⟩
      · exact Or.inl rfl
  · intro e' r'
    rw [hset, h.blocks, hiff]
  · intro e' r'
    rw [hnew, h.new, ← and_assoc, ← and_assoc (a := r' ∈ r :: done), hiff, or_and_right, and_assoc,
      and_assoc]
    apply or_congr Iff.rfl
    apply and_congr_right
    rintro rfl
    apply and_congr_right
    rintro rfl
    exact Iff.rfl
  · intro e' r'
    rw [hrunning, h.running, ← and_assoc, ← and_assoc (a := r' ∈ r :: done), hiff, or_and_right,
      and_assoc, and_assoc]
    apply or_congr Iff.rfl
    apply and_congr_right
    rintro rfl
    apply and_congr_right
    rintro rfl
    exact Iff.rfl
  · intro e' r'
    rw [hfree, h.free, List.mem_cons]
    constructor
    · rintro ((hold | hold) | ⟨rfl, hr, hne⟩)
      · exact Or.inl hold
      · exact Or.inr ⟨Or.inr hold.1, hold.2⟩
      · refine Or.inr ⟨Or.inl rfl, hr, ?_⟩
        rw [hrun, Ne, Option.some.injEq, Loc.running.injEq]
        exact fun h' => hne h'.symm
    · rintro (hold | ⟨rfl | hmem, hr, hr'⟩)
      · exact Or.inl (Or.inl hold)
      · refine Or.inr ⟨rfl, hr, ?_⟩
        rintro rfl
        exact hr' hrun
      · exact Or.inl (Or.inr ⟨hmem, hr, hr'⟩)

end Written

theorem nodup_getD_appendIn {d : Dict ExecutorId (List ReqId)} (h : ∀ e, (d.getD e []).Nodup)
    (hr : r ∉ d.getD e []) (e' : ExecutorId) : ((Tables.appendIn d e r).getD e' []).Nodup := by
  rw [Tables.getD_appendIn]
  by_cases he : e' = e
  · rw [if_pos he, ← List.concat_eq_append]
    exact (h e).concat hr
  · rw [if_neg he]
    exact h e'

theorem mem_getD_appendIn (d : Dict ExecutorId (List ReqId)) (e e' : ExecutorId) (r r' : ReqId) :
    r' ∈ (Tables.appendIn d e r).getD e' [] ↔ r' ∈ d.getD e' [] ∨ r' = r ∧ e' = e := by
  rw [Tables.getD_appendIn]
  by_cases he : e' = e
  · simp [he]
  · simp [he]

section Finalize

variable {old : Dict ReqId (Option ExecutorId)} {found : List ExecutorId} {l : Loc}

theorem ensures_leave (h : Written cfg s₂ π₁ π₂ done s t) (href : Refines s₂ π₂)
    (hcache : ∀ e, e ∈ s₂.executorStates → e ∈ s₂.kvCacheManagers) (hnot : r ∉ done)
    (hr : π₂ r = some l) (hhost : ∀ e, π₁ r = some (.running e) → e ∈ s₂.executorStates) :
    (leave cfg (s, t) r (π₁.resident? r)).Ensures (Unallocated cfg) fun x =>
      Touches r s x.1 ∧ x.2 = t ∧ ∀ e' r', r' ∈ x.1.freeReqIds.getD e' OrderedSet.empty ↔
        r' ∈ s.freeReqIds.getD e' OrderedSet.empty ∨ r' = r ∧ π₁ r = some (.running e') := by
  cases hres : π₁.resident? r with
  | none =>
      have hrun : ∀ e, π₁ r ≠ some (.running e) := by
        intro e he
        rw [(Placement.resident?_eq_some_iff π₁ r e).mpr he] at hres
        cases hres
      exact ⟨Touches.refl r s, rfl, fun e' r' => by simp [hrun e']⟩
  | some e =>
      have hrun : π₁ r = some (.running e) := (Placement.resident?_eq_some_iff π₁ r e).mp hres
      have hmem : e ∈ s.kvCacheManagers := (h.framed.caches e).mpr (hcache e (hhost e hrun))
      obtain ⟨req, hreq, -⟩ := (h.framed.refines href).request hr
      have htok : r ∉ t.numScheduledTokens.getD e Dict.empty :=
        fun hmem => hnot ((h.tokens e r).mp hmem).1
      have hblk : r ∉ t.reqToNewBlockIds.getD e Dict.empty :=
        fun hmem => hnot ((h.blocks e r).mp hmem).1
      refine (ensures_dropRequest cfg hmem (Dict.mem_of_get? hreq) htok hblk).mono
        (fun _ hf => hf.elim) fun x hx => ?_
      obtain ⟨htouch, ht, hfree⟩ := hx
      refine ⟨htouch, ht, ?_⟩
      intro e' r'
      rw [hfree, hrun, Option.some.injEq, Loc.running.injEq]
      apply or_congr Iff.rfl
      constructor
      · rintro ⟨rfl, rfl⟩
        exact ⟨rfl, rfl⟩
      · rintro ⟨rfl, rfl⟩
        exact ⟨rfl, rfl⟩

theorem ensures_finalize (h : Written cfg s₂ π₁ π₂ done s t) (href : Refines s₂ π₂)
    (hcache : ∀ e, e ∈ s₂.executorStates → e ∈ s₂.kvCacheManagers) (hnot : r ∉ done)
    (hr : π₂ r = some l) (hold : (old.get? r).join = π₁.resident? r)
    (hhost : ∀ e, π₁ r = some (.running e) → e ∈ s₂.executorStates)
    (hfound : ∀ e, π₂ r = some (.running e) → e ∈ found) :
    (finalize cfg found old (s, t) r).Ensures (Unallocated cfg) fun x =>
      Written cfg s₂ π₁ π₂ (r :: done) x.1 x.2 := by
  have hrefs : Refines s π₂ := h.framed.refines href
  obtain ⟨rs, hrs, hrep⟩ := hrefs.represents hr
  have hnew : rs.executorId = π₂.resident? r := by
    rw [hrep.executorId, Placement.resident?, hr, Option.bind_some]
  unfold finalize
  rw [ensures_bind, subscript_of_get? _ hrs, ensures_ok]
  simp only [hold, hnew]
  by_cases hsame : π₁.resident? r = π₂.resident? r
  · -- the executor is the same as before
    simp only [hsame, ne_eq, not_true_eq_false, if_false]
    cases hres : π₂.resident? r with
    | none =>
        have hrun : ∀ π : Placement, π.resident? r = none → ∀ e, π r ≠ some (.running e) := by
          intro π hπ e he
          rw [(Placement.resident?_eq_some_iff π r e).mpr he] at hπ
          cases hπ
        apply h.skip (hrun π₂ hres) (Touches.refl r s)
        intro e' r'
        simp [hrun π₁ (hsame.trans hres) e']
    | some e =>
        have hrun₁ := (Placement.resident?_eq_some_iff π₁ r e).mp (hsame.trans hres)
        have hrun₂ := (Placement.resident?_eq_some_iff π₂ r e).mp hres
        obtain ⟨req, hreq, -⟩ := hrefs.request hr
        rw [ensures_bind, ensures_pyAssert]
        refine ⟨fun _ => ?_, fun hf => by simp [hfound e hrun₂] at hf⟩
        refine (ensures_addRunningRequest cfg t hreq).mono (fun _ hf => hf.elim) fun x hx => ?_
        obtain ⟨htouch, hfree, ⟨req', hreq', hn, hshape⟩, ht⟩ := hx
        rw [ht]
        refine h.add hnot hrun₂ htouch ?_ hreq' hn.symm ?_ ?_ ?_ ?_ ?_
        · intro e' r'
          rw [hfree, hrun₁, Option.some.injEq, Loc.running.injEq]
          apply (or_iff_left _).symm
          rintro ⟨-, h1, h2⟩
          exact h2 h1.symm
        · simpa [hrun₁] using hshape
        · intro e' r'
          simp [hrun₁]
        · intro e' r'
          rw [mem_getD_appendIn]
          simp [hrun₁]
        · exact h.nodupNew
        · exact nodup_getD_appendIn h.nodupRunning fun hmem =>
            hnot ((h.running e r).mp hmem).1
  · -- it leaves one and comes to the other
    rw [if_pos hsame, ensures_bind]
    refine (ensures_leave h href hcache hnot hr hhost).imp fun x hx => ?_
    obtain ⟨s', t'⟩ := x
    obtain ⟨htouch, ht, hfree⟩ := hx
    dsimp only at htouch ht hfree
    subst ht
    cases hres : π₂.resident? r with
    | none =>
        apply h.skip _ htouch hfree
        intro e he
        rw [(Placement.resident?_eq_some_iff π₂ r e).mpr he] at hres
        cases hres
    | some e =>
        have hrun₂ := (Placement.resident?_eq_some_iff π₂ r e).mp hres
        have hrun₁ : π₁ r ≠ some (.running e) := by
          intro he
          rw [(Placement.resident?_eq_some_iff π₁ r e).mpr he, hres] at hsame
          exact hsame rfl
        obtain ⟨req, hreq, -⟩ := (htouch.framed.refines hrefs).request hr
        have hmem : e ∈ s'.kvCacheManagers := by
          rw [htouch.framed.caches, h.framed.caches]
          exact hcache e (href.hosted r e (Placement.host?_of_running hrun₂))
        refine (ensures_addNewRequest cfg t' hmem hreq).imp fun x hx => ?_
        obtain ⟨htouch', hfree', ⟨req', hreq', hn, hshape⟩, b, ht⟩ := hx
        rw [ht]
        refine h.add hnot hrun₂ (htouch.trans htouch') ?_ hreq' hn.symm ?_ ?_ ?_ ?_ ?_
        · intro e' r'
          rw [hfree', hfree]
          apply or_congr Iff.rfl
          apply and_congr_right
          rintro rfl
          constructor
          · intro hr'
            refine ⟨hr', ?_⟩
            rintro rfl
            exact hrun₁ hr'
          · exact fun hr' => hr'.1
        · simpa [hrun₁] using hshape
        · intro e' r'
          rw [mem_getD_appendIn]
          simp [hrun₁]
        · intro e' r'
          simp [hrun₁]
        · exact nodup_getD_appendIn h.nodupNew fun hmem => hnot ((h.new e r).mp hmem).1
        · exact h.nodupRunning

end Finalize

end Scheduler

end TeDiServe

import TeDiServe.Placement.Run

/-!
# The queue of deferred requests

Two things are said about the queue. The first is the order in which it is left. Requests
are admitted from its front, but a request that is added while a place is free does not
join it. A place becomes free when a request stops, and the queue is looked at only when
`schedule()` or an abort comes; a request that is added in between overtakes it. When no
request is added in between, admission is first come, first served.

The second is that the busy loop does not fall asleep over it. `has_requests()` does not
look at the queue. But a waiting request means that the limit is reached, or that a
request has stopped since, and its executor has not been told yet.
-/

namespace TeDiServe

namespace Scheduler

variable {κ : Type} {cfg : Config κ} {s s' : Scheduler κ} {π : Placement}

def hasUnfinishedRequests (s : Scheduler κ) : Bool := 0 < s.getNumUnfinishedRequests

def hasFinishedRequests (s : Scheduler κ) : Bool :=
  s.droppedDeferredRequests ≠ [] || s.freeReqIds.values.any fun free => !free.isEmpty

def hasRequests (s : Scheduler κ) : Bool := s.hasUnfinishedRequests || s.hasFinishedRequests

/-- A request joins the queue exactly when the limit is reached. -/
theorem ensures_addRequest_queue (cfg : Config κ) (s : Scheduler κ) (req : Request) :
    (s.addRequest cfg req).Ensures (fun _ => True) fun s' =>
      s.atLimit cfg = true ∧ s'.requestStates = s.requestStates ∧
        s'.deferredRequests = s.deferredRequests ++ [req] ∨
      s.atLimit cfg = false ∧ s'.deferredRequests = s.deferredRequests ∧
        ∀ r, r ∈ s'.requestStates ↔ r = req.requestId ∨ r ∈ s.requestStates := by
  unfold addRequest
  dsimp only
  by_cases hlim : s.atLimit cfg = true
  · rw [if_pos (by exact hlim)]
    exact Or.inl ⟨hlim, rfl, rfl⟩
  · rw [if_neg (by exact hlim)]
    unfold admitRequest
    apply ensures_bind_any
    intro rs
    exact Or.inr ⟨Bool.eq_false_iff.mpr hlim, rfl, fun r => Dict.mem_set _ _ _ _⟩

/-- After the admission at its start, a call of `schedule()` leaves the queue alone. -/
theorem Course.queue {env : ScheduleEnv} {s₀ s₁ : Scheduler κ} {π₀ π₁ π₂ : Placement} {p : Plan κ}
    {outs : Dict ExecutorId SchedulerOutput} (h : Course cfg env s π s₀ π₀ s₁ π₁ p π₂)
    (hr : Returned cfg s p π₁ π₂ s' outs) :
    s'.deferredRequests = s₀.deferredRequests ∧
      ∀ r, r ∈ s'.requestStates ↔ r ∈ s₀.requestStates := by
  have hsoft := soft_drainStepEstimateUpdates cfg env.predict s₁
  have hstart : (s₁.drainStepEstimateUpdates cfg env.predict).considerIdle.deferredRequests =
      s₀.deferredRequests :=
    hsoft.framed.deferredRequests.trans h.reshaped.deferredRequests
  refine ⟨?_, fun r => hr.issued.framed.mem_requestStates.trans h.mem_requestStates⟩
  rw [hr.issued.framed.deferredRequests]
  rcases h.derived with ⟨-, -, heq⟩ | ⟨q, -, hin, -, hframed, -⟩
  · rw [heq, hstart]
  · obtain ⟨es, rs, hq, -⟩ := hin.moved
    rw [hframed.deferredRequests, hq]
    exact hstart

end Scheduler

namespace Calls

open Scheduler

variable {κ : Type} {cfg : Config κ} {t t' : Calls κ} {c : Call} {π π' : Placement}

/-! ## First come, first served -/

/-- The request `r` was added before `r'`. Of an id that was used again, the last use
counts. -/
def AddedBefore (t : Calls κ) (r r' : ReqId) : Prop :=
  t.usedReqIds.idxOf r' < t.usedReqIds.idxOf r

/-- The queue is in the order in which its requests were added, and they were added after
all that are active. -/
structure InLine (t : Calls κ) : Prop where
  queue : t.scheduler.deferredRequests.Pairwise fun q q' =>
    t.AddedBefore q.requestId q'.requestId
  active : ∀ r ∈ t.scheduler.requestStates, ∀ q ∈ t.scheduler.deferredRequests,
    t.AddedBefore r q.requestId

theorem InLine.of_advanced (h : InLine t) (hused : t'.usedReqIds = t.usedReqIds)
    (hadv : Advanced t.scheduler t'.scheduler) : InLine t' := by
  obtain ⟨admitted, hsub, hmem⟩ := hadv
  have hpair := h.queue.sublist hsub
  unfold AddedBefore at hpair
  rw [← hused] at hpair
  obtain ⟨-, hrest, hcross⟩ := List.pairwise_append.mp hpair
  refine ⟨hrest, ?_⟩
  intro r hr q hq
  rcases hmem r hr with hr | hr
  · unfold AddedBefore
    rw [hused]
    exact h.active r hr q (hsub.subset (List.mem_append_right _ hq))
  · obtain ⟨q', hq', rfl⟩ := List.mem_map.mp hr
    exact hcross q' hq' q hq

theorem addedBefore_cons {r r' : ReqId} {s : Scheduler κ} (hne : r ≠ r') :
    AddedBefore { t with scheduler := s, usedReqIds := r' :: t.usedReqIds } r r' := by
  unfold AddedBefore
  dsimp only
  rw [List.idxOf_cons_self, List.idxOf_cons_ne _ hne.symm]
  exact Nat.succ_pos _

theorem AddedBefore.cons {r r' r₀ : ReqId} {s : Scheduler κ} (h : t.AddedBefore r r')
    (hr : r ≠ r₀) (hr' : r' ≠ r₀) :
    AddedBefore { t with scheduler := s, usedReqIds := r₀ :: t.usedReqIds } r r' := by
  unfold AddedBefore
  dsimp only
  rw [List.idxOf_cons_ne _ hr.symm, List.idxOf_cons_ne _ hr'.symm]
  exact Nat.succ_lt_succ h

/-- A request is added only while nothing waits, or while there is no place. -/
def InTurn (cfg : Config κ) (t : Calls κ) : Call → Prop
  | .addRequest _ => t.scheduler.deferredRequests = [] ∨ t.scheduler.atLimit cfg = true
  | _ => True

/-- All other calls take requests from the front of the queue. -/
theorem Effect.advanced (he : Effect cfg t π c t' π') (hc : ∀ req, c ≠ .addRequest req)
    (hπ : Refines t.scheduler π) :
    t'.usedReqIds = t.usedReqIds ∧ Advanced t.scheduler t'.scheduler := by
  have hsame : ∀ s : Scheduler κ, s.deferredRequests = t.scheduler.deferredRequests →
      (∀ r ∈ s.requestStates, r ∈ t.scheduler.requestStates) → Advanced t.scheduler s := by
    intro s hq hsub
    apply Advanced.of_sublist _ hsub
    rw [hq]
  cases he with
  | addRequest => exact absurd rfl (hc _)
  | @schedule env s outs p π₁ _ readied returned course loop =>
      obtain ⟨s₀, π₀, s₁, hcourse⟩ := course
      obtain ⟨hq, hmem⟩ := hcourse.queue returned
      refine ⟨rfl, hcourse.admitted.advanced.trans ?_⟩
      apply Advanced.of_sublist
      · rw [hq]
      · exact fun r hr => (hmem r).mp hr
  | manager management keyed => exact ⟨rfl, hsame _ rfl fun _ hr => hr⟩
  | finishExecution flight keyed => exact ⟨rfl, hsame _ rfl fun _ hr => hr⟩
  | @updateFromOutput e msg res s outs m done _ flight apply_eq visited applied progressed keyed =>
      refine ⟨rfl, hsame _ applied.deferredRequests ?_⟩
      intro r hr
      obtain ⟨l, hl⟩ := applied.refines.mem_requestStates_iff.mp hr
      rcases applied.placement r with hp | ⟨-, hp, -⟩
      · rw [hp] at hl
        exact hπ.mem_requestStates_iff.mpr ⟨l, hl⟩
      · rw [hp] at hl
        cases hl
  | finishRequests finish_eq finished abortable aborted => exact ⟨rfl, aborted.advanced⟩
  | refreshEstimates soft =>
      exact ⟨rfl, hsame _ soft.framed.deferredRequests
        fun r hr => soft.framed.mem_requestStates.mp hr⟩
  | controlLoad inRange minInRange =>
      refine ⟨rfl, hsame _ rfl ?_⟩
      intro r hr
      rw [Dict.mem_def] at hr ⊢
      dsimp only [Scheduler.controlLoad] at hr
      rwa [Dict.keys_mapEntries] at hr

theorem InLine.step (h : InLine t) (hcons : Consistent cfg t)
    (hstep : Step cfg (InTurn cfg) t c t') : InLine t' := by
  obtain ⟨π, π', hπ, he⟩ := hcons.effect hstep
  obtain ⟨hpossible, hturn, hnext⟩ := hstep
  by_cases hc : ∃ req, c = .addRequest req
  · obtain ⟨req, rfl⟩ := hc
    -- the id of the new request is that of no other
    have hactive : ∀ r ∈ t.scheduler.requestStates, r ≠ req.requestId := by
      rintro r hr rfl
      exact hpossible (hπ.known _ hr)
    have hqueue : ∀ q ∈ t.scheduler.deferredRequests, q.requestId ≠ req.requestId := by
      intro q hq heq
      apply hpossible
      rw [← heq, hcons.ledger.known]
      exact Or.inr ((hcons.ledger.queue _).mpr (List.mem_map_of_mem hq))
    obtain ⟨s, hs, ht'⟩ := bind_eq_ok.mp hnext
    cases ht'
    rcases ensures_of_ok (ensures_addRequest_queue cfg t.scheduler req) hs with
      ⟨-, hstates, hq⟩ | ⟨hroom, hq, hmem⟩
    · refine ⟨?_, ?_⟩
      · dsimp only
        rw [hq, List.pairwise_append]
        refine ⟨?_, List.pairwise_singleton _ _, ?_⟩
        · refine h.queue.imp_of_mem ?_
          intro q q' hq hq' hlt
          exact hlt.cons (hqueue q hq) (hqueue q' hq')
        · intro q hq' q' hmem
          rw [List.mem_singleton.mp hmem]
          exact addedBefore_cons (hqueue q hq')
      · intro r hr q hmem
        dsimp only at hr hmem
        rw [hstates] at hr
        rw [hq, List.mem_append] at hmem
        rcases hmem with hmem | hmem
        · exact (h.active r hr q hmem).cons (hactive r hr) (hqueue q hmem)
        · rw [List.mem_singleton.mp hmem]
          exact addedBefore_cons (hactive r hr)
    · -- there is a place, so nothing waits
      have hnil : t.scheduler.deferredRequests = [] := by
        rcases hturn with hnil | hfull
        · exact hnil
        · rw [hfull] at hroom
          cases hroom
      have hnil' : s.deferredRequests = [] := hq.trans hnil
      refine ⟨?_, ?_⟩
      · dsimp only
        rw [hnil']
        exact List.Pairwise.nil
      · intro r _ q hq'
        dsimp only at hq'
        rw [hnil'] at hq'
        cases hq'
  · obtain ⟨hused, hadv⟩ := he.advanced (fun req heq => hc ⟨req, heq⟩) hπ
    exact h.of_advanced hused hadv

theorem deferredRequests_of_init (h : Init cfg t) : t.scheduler.deferredRequests = [] := by
  obtain ⟨m, -, -, -, -, hreshaped, -⟩ := built_of_init h
  exact hreshaped.deferredRequests

theorem Reachable.inLine (h : Reachable cfg (InTurn cfg) t) : InLine t := by
  apply h.invariant
  · intro t ht
    have hnil := deferredRequests_of_init ht
    refine ⟨?_, ?_⟩
    · rw [hnil]
      exact List.Pairwise.nil
    · intro r _ q hq
      rw [hnil] at hq
      cases hq
  · intro t c t' hr ht hstep
    exact ht.step (Reachable.consistent hr) hstep

/-- When requests are added only while nothing waits or while there is no place, a request
becomes active only when no request that was added before it is waiting, and the requests
that wait do so in the order in which they were added, after all that are active. -/
theorem admitted_in_order (cfg : Config κ) (h : Reachable cfg (InTurn cfg) t)
    (hstep : Step cfg (InTurn cfg) t c t') :
    (∀ r, r ∉ t.scheduler.requestStates → r ∈ t'.scheduler.requestStates →
      ∀ q ∈ t'.scheduler.deferredRequests, ¬t'.AddedBefore q.requestId r) ∧
    (∀ r ∈ t'.scheduler.requestStates, ∀ q ∈ t'.scheduler.deferredRequests,
      t'.AddedBefore r q.requestId) ∧
    t'.scheduler.deferredRequests.Pairwise
      fun q q' => t'.AddedBefore q.requestId q'.requestId := by
  have hline := h.inLine.step (Reachable.consistent h) hstep
  refine ⟨?_, hline.active, hline.queue⟩
  intro r _ hr q hq
  exact lt_asymm (hline.active r hr q hq)

def inTurn? (cfg : Config κ) (t : Calls κ) : Call → Bool
  | .addRequest _ => t.scheduler.deferredRequests.isEmpty || t.scheduler.atLimit cfg
  | _ => true

theorem inTurn_of_inTurn? (cfg : Config κ) (t : Calls κ) (c : Call)
    (h : inTurn? cfg t c = true) : InTurn cfg t c := by
  cases c with
  | addRequest req =>
      rw [inTurn?, Bool.or_eq_true, List.isEmpty_iff] at h
      exact h
  | _ => trivial

def aloneToTheEnd : List Call :=
  [.schedule .still, .startExecution 0,
    .finishExecution 0 ⟨Dict.empty.set "a" 0, [[(1, 7), (2, 7)]]⟩, .updateFromOutput 0,
    .schedule .still, .startExecution 0,
    .finishExecution 0 ⟨Dict.empty.set "a" 0, [[(3, 7), (4, 7)]]⟩, .updateFromOutput 0]

/-- The second request waits for the first to stop, and is then admitted. -/
theorem admitted_in_order_small : ∃ t t' : Calls Unit,
    Reachable (Config.small true true (some 1)) (InTurn (Config.small true true (some 1))) t ∧
    t.next (Config.small true true (some 1)) (.schedule .still) = .ok t' ∧
    "b" ∉ t.scheduler.requestStates ∧ "b" ∈ t'.scheduler.requestStates ∧
    t'.scheduler.deferredRequests.map Request.requestId = ["c"] ∧ ¬t'.AddedBefore "c" "b" := by
  obtain ⟨t, hreach, hbefore, hnext⟩ := exists_of_ensures
    (reachable_of_replay (Config.small true true (some 1))
      (inTurn_of_inTurn? (Config.small true true (some 1))) [(0, [0])]
      ([.addRequest (Request.small "a"), .addRequest (Request.small "b"),
        .addRequest (Request.small "c")] ++ aloneToTheEnd))
    (Q := fun t =>
      "b" ∉ t.scheduler.requestStates ∧
      (t.next (Config.small true true (some 1)) (.schedule .still)).Ensures (fun _ => False)
        fun t' => "b" ∈ t'.scheduler.requestStates ∧
          t'.scheduler.deferredRequests.map Request.requestId = ["c"]) (by decide +kernel)
  obtain ⟨t', ht', hafter, hqueue⟩ := hnext.exists_ok
  refine ⟨t, t', hreach, ht', hbefore, hafter, hqueue, ?_⟩
  obtain ⟨q, hq, hid⟩ : ∃ q ∈ t'.scheduler.deferredRequests, q.requestId = "c" := by
    rw [← List.mem_map, hqueue]
    exact List.mem_singleton.mpr rfl
  rw [← hid]
  have hturn := admitted_in_order (c := .schedule .still) _ hreach ⟨trivial, trivial, ht'⟩
  exact hturn.1 "b" hbefore hafter q hq

/-- The first request has stopped, the second waits, and the third is admitted. -/
theorem queue_overtaken : ∃ t t' : Calls Unit,
    Reachable (Config.small true true (some 1)) (fun _ _ => True) t ∧
    Step (Config.small true true (some 1)) (fun _ _ => True) t
      (.addRequest (Request.small "c")) t' ∧
    "c" ∉ t.scheduler.requestStates ∧ "c" ∈ t'.scheduler.requestStates ∧
    t'.scheduler.deferredRequests.map Request.requestId = ["b"] ∧ t'.AddedBefore "b" "c" := by
  obtain ⟨t, hreach, hnew, hbefore, hnext⟩ := exists_of_ensures
    (reachable_of_replay (Config.small true true (some 1)) Transition.allows_any [(0, [0])]
      ([.addRequest (Request.small "a"), .addRequest (Request.small "b")] ++ aloneToTheEnd))
    (Q := fun t =>
      "c" ∉ t.scheduler.requests ∧ "c" ∉ t.scheduler.requestStates ∧
      (t.next (Config.small true true (some 1)) (.addRequest (Request.small "c"))).Ensures
        (fun _ => False) fun t' => "c" ∈ t'.scheduler.requestStates ∧
          t'.scheduler.deferredRequests.map Request.requestId = ["b"] ∧
          t'.usedReqIds.idxOf "c" < t'.usedReqIds.idxOf "b") (by decide +kernel)
  obtain ⟨t', ht', hafter, hqueue, horder⟩ := hnext.exists_ok
  exact ⟨t, t', hreach, ⟨hnew, trivial, ht'⟩, hbefore, hafter, hqueue, horder⟩

/-! ## Waiting requests keep the loop awake -/

/-- A request is active, or an executor has a request to free. -/
def Stirring (s : Scheduler κ) : Prop :=
  (∃ r, r ∈ s.requestStates) ∨ ∃ e r, r ∈ s.freeReqIds.getD e OrderedSet.empty

theorem Stirring.hasRequests {s : Scheduler κ} (h : Stirring s) : s.hasRequests = true := by
  unfold Scheduler.hasRequests
  rw [Bool.or_eq_true]
  rcases h with ⟨r, hr⟩ | ⟨e, r, hr⟩
  · left
    unfold hasUnfinishedRequests getNumUnfinishedRequests
    rw [decide_eq_true_eq]
    exact List.length_pos_of_mem hr
  · right
    unfold hasFinishedRequests
    rw [Bool.or_eq_true, List.any_eq_true]
    right
    cases hfree : s.freeReqIds.get? e with
    | none =>
        unfold Dict.getD at hr
        rw [hfree] at hr
        exact absurd hr (OrderedSet.not_mem_empty r)
    | some free =>
        rw [Dict.getD_of_get? hfree] at hr
        refine ⟨free, ?_, ?_⟩
        · exact List.mem_map.mpr ⟨(e, free), (Dict.mem_entries_iff _ _ _).mpr hfree, rfl⟩
        · rw [Bool.not_eq_true', ← Bool.not_eq_true, OrderedSet.isEmpty_iff]
          exact fun hnone => hnone r hr

theorem exists_active_of_atLimit {s : Scheduler κ}
    (hlimit : ∀ n, cfg.maxNumUnfinishedRequests = some n → 1 ≤ n) (h : s.atLimit cfg = true) :
    ∃ r, r ∈ s.requestStates := by
  unfold atLimit at h
  cases hn : cfg.maxNumUnfinishedRequests with
  | none =>
      rw [hn] at h
      cases h
  | some n =>
      rw [hn] at h
      have hle : 1 ≤ s.requestStates.keys.length := (hlimit n hn).trans (of_decide_eq_true h)
      obtain ⟨r, hr⟩ := List.exists_mem_of_length_pos hle
      exact ⟨r, hr⟩

theorem Effect.stirring (he : Effect cfg t π c t' π') (hπ : Refines t.scheduler π)
    (hlimit : ∀ n, cfg.maxNumUnfinishedRequests = some n → 1 ≤ n)
    (hc : ∀ req, c ≠ .addRequest req)
    (h : t.scheduler.deferredRequests ≠ [] → Stirring t.scheduler) :
    t'.scheduler.deferredRequests ≠ [] → Stirring t'.scheduler := by
  cases he with
  | addRequest => exact absurd rfl (hc _)
  | @schedule env s outs p π₁ _ readied returned course loop =>
      obtain ⟨s₀, π₀, s₁, hcourse⟩ := course
      obtain ⟨hq, hmem⟩ := hcourse.queue returned
      intro hne
      dsimp only at hne
      rw [hq] at hne
      -- the admission at the start of the call has gone up to the limit
      obtain ⟨r, hr⟩ := exists_active_of_atLimit hlimit (hcourse.admitted.full hne)
      exact Or.inl ⟨r, (hmem r).mpr hr⟩
  | manager management keyed => exact h
  | finishExecution flight keyed => exact h
  | @updateFromOutput e msg res s outs m done _ flight apply_eq visited applied progressed keyed =>
      intro hne
      dsimp only at hne
      rw [applied.deferredRequests] at hne
      rcases h hne with ⟨r, hr⟩ | ⟨e', r, hr⟩
      · obtain ⟨l, hl⟩ := hπ.mem_requestStates_iff.mp hr
        rcases applied.placement r with hp | ⟨-, hnone, e', hrun⟩
        · left
          exact ⟨r, applied.refines.mem_requestStates_iff.mpr ⟨l, hp.trans hl⟩⟩
        · right
          exact ⟨e', r, (applied.free e' r).mpr (Or.inr ⟨hrun, hnone⟩)⟩
      · right
        exact ⟨e', r, (applied.free e' r).mpr (Or.inl hr)⟩
  | finishRequests finish_eq finished abortable aborted =>
      exact fun hne => Or.inl (exists_active_of_atLimit hlimit (aborted.full hne))
  | refreshEstimates soft =>
      intro hne
      dsimp only at hne
      rw [soft.framed.deferredRequests] at hne
      rcases h hne with ⟨r, hr⟩ | hfree
      · exact Or.inl ⟨r, soft.framed.mem_requestStates.mpr hr⟩
      · right
        dsimp only
        rw [soft.freeReqIds]
        exact hfree
  | controlLoad inRange minInRange =>
      intro hne
      rcases h hne with ⟨r, hr⟩ | hfree
      · left
        refine ⟨r, ?_⟩
        rw [Dict.mem_def] at hr ⊢
        dsimp only [Scheduler.controlLoad]
        rwa [Dict.keys_mapEntries]
      · exact Or.inr hfree

theorem Reachable.stirring {allowed : Calls κ → Call → Prop}
    (hlimit : ∀ n, cfg.maxNumUnfinishedRequests = some n → 1 ≤ n)
    (h : Reachable cfg allowed t) :
    t.scheduler.deferredRequests ≠ [] → Stirring t.scheduler := by
  apply h.invariant
  · intro t ht hne
    exact absurd (deferredRequests_of_init ht) hne
  · intro t c t' hr ht hstep
    obtain ⟨π, π', hπ, he⟩ := (Reachable.consistent hr).effect hstep
    by_cases hc : ∃ req, c = .addRequest req
    · obtain ⟨req, rfl⟩ := hc
      obtain ⟨s, hs, ht'⟩ := bind_eq_ok.mp hstep.2.2
      cases ht'
      intro _
      left
      rcases ensures_of_ok (ensures_addRequest_queue cfg t.scheduler req) hs with
        ⟨hfull, hstates, -⟩ | ⟨-, -, hmem⟩
      · dsimp only
        rw [hstates]
        exact exists_active_of_atLimit hlimit hfull
      · exact ⟨req.requestId, (hmem _).mpr (Or.inl rfl)⟩
    · exact he.stirring hπ hlimit (fun req heq => hc ⟨req, heq⟩) ht

/-- In every state of every run, a deferred request means that `has_requests()` holds. -/
theorem deferred_not_stranded (cfg : Config κ)
    (hlimit : ∀ n, cfg.maxNumUnfinishedRequests = some n → 1 ≤ n)
    {allowed : Calls κ → Call → Prop} (h : Reachable cfg allowed t)
    (hdeferred : t.scheduler.deferredRequests ≠ []) : t.scheduler.hasRequests = true :=
  (h.stirring hlimit hdeferred).hasRequests

/-- The only active request has stopped while another one waits. -/
theorem deferred_not_stranded_small : ∃ t : Calls Unit,
    Reachable (Config.small true true (some 1)) (fun _ _ => True) t ∧
    t.scheduler.requestStates.keys = [] ∧
    t.scheduler.deferredRequests.map Request.requestId = ["b"] ∧
    t.scheduler.hasRequests = true := by
  obtain ⟨t, hreach, hactive, hqueue⟩ := exists_of_ensures
    (reachable_of_replay (Config.small true true (some 1)) Transition.allows_any [(0, [0])]
      ([.addRequest (Request.small "a"), .addRequest (Request.small "b")] ++ aloneToTheEnd))
    (Q := fun t => t.scheduler.requestStates.keys = [] ∧
      t.scheduler.deferredRequests.map Request.requestId = ["b"]) (by decide +kernel)
  have hne : t.scheduler.deferredRequests ≠ [] := by
    intro hnil
    rw [hnil] at hqueue
    cases hqueue
  have hlimit : ∀ n, (Config.small true true (some 1)).maxNumUnfinishedRequests = some n →
      1 ≤ n := by
    intro n hn
    cases hn
    exact le_rfl
  exact ⟨t, hreach, hactive, hqueue, deferred_not_stranded _ hlimit hreach hne⟩

end Calls

end TeDiServe

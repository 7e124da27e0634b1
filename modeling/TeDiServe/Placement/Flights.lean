import TeDiServe.Placement.Run

/-!
# Messages in flight

Without deferral, an executor with a message in flight is in use from the moment when the
message is sent until its result has been applied: it is not idle, so that nothing is
placed on it or taken from it, and it cannot be killed. A request that is executed stays on
its executor until then, unless it is aborted. The one way to lose this is to use the id of
an aborted request again while it occurs in a message in flight; `NotInFlight` excludes it.
-/

namespace TeDiServe

/-- The executor has been sent a message whose result is not applied yet. -/
def ExecutorStatus.inUse : ExecutorStatus → Bool
  | .scheduled | .executing | .outputReady => true
  | _ => false

namespace Scheduler

variable {κ : Type} {s : Scheduler κ} {e : ExecutorId}

theorem flush_of_quiet (h : s.droppedDeferredRequests = []) (found : List ExecutorId)
    (outs : Dict ExecutorId SchedulerOutput) : s.flush found outs = outs := by
  simp [flush, h]

theorem isGone_of_inUse {m : ExecutorsManager} {st : ExecutorStatus} (h : m.status? e = some st)
    (hst : st.inUse = true) : isGone m e = false := by
  cases st with
  | scheduled | executing | outputReady => simp [isGone, h]
  | _ => cases hst

end Scheduler

namespace Calls

open Scheduler

variable {κ : Type} {cfg : Config κ} {t t' : Calls κ} {c : Call} {π π' : Placement}

theorem get?_dispatch (outs : Dict ExecutorId SchedulerOutput) (d : Dict ExecutorId Flight)
    (e : ExecutorId) :
    (outs.entries.foldl (fun d y => d.set y.1 ⟨y.2, none⟩) d).get? e =
      match outs.get? e with
      | some out => some ⟨out, none⟩
      | none => d.get? e := by
  cases hout : outs.get? e with
  | none =>
      have hnot : e ∉ outs.entries.map Prod.fst := (Dict.get?_eq_none_iff outs e).mp hout
      exact Dict.get?_foldl_set_of_not_mem Prod.fst
        (fun y : ExecutorId × SchedulerOutput => (⟨y.2, none⟩ : Flight)) outs.entries d hnot
  | some out =>
      exact Dict.get?_foldl_set_of_mem Prod.fst
        (fun y : ExecutorId × SchedulerOutput => (⟨y.2, none⟩ : Flight)) outs.entries d
        outs.nodup ((Dict.mem_entries_iff outs e out).mpr hout)

/-- An id is not used for a new request while it occurs in a message in flight. -/
def NotInFlight (t : Calls κ) : Call → Prop
  | .addRequest req => ∀ e f, t.inFlight.get? e = some f →
      req.requestId ∉ f.message.numScheduledTokens
  | _ => True

def notInFlight? (t : Calls κ) : Call → Bool
  | .addRequest req => t.inFlight.entries.all fun x =>
      req.requestId ∉ x.2.message.numScheduledTokens
  | _ => true

theorem notInFlight_of_notInFlight? (t : Calls κ) (c : Call) (h : t.notInFlight? c = true) :
    t.NotInFlight c := by
  cases c with
  | addRequest req =>
      intro e f hf
      exact of_decide_eq_true
        (List.all_eq_true.mp h (e, f) ((Dict.mem_entries_iff _ _ _).mpr hf))
  | _ => trivial

/-! ## Executors -/

structure Manned (t : Calls κ) : Prop where
  used : ∀ e st, t.scheduler.executorsManager.status? e = some st →
    e ∈ t.scheduler.executorsManager.usedExecutorIds
  inUse : ∀ e f, t.inFlight.get? e = some f →
    ∃ st, t.scheduler.executorsManager.status? e = some st ∧ st.inUse = true

section

variable (h : Manned t)
include h

theorem Manned.not_found {e : ExecutorId} {f : Flight} (hf : t.inFlight.get? e = some f)
    {st : ExecutorStatus} (hst : st.inUse = false) :
    t.scheduler.executorsManager.status? e ≠ some st := by
  intro heq
  obtain ⟨st', hst', huse⟩ := h.inUse e f hf
  rw [heq, Option.some.injEq] at hst'
  rw [← hst', hst] at huse
  cases huse

theorem Manned.not_mem_found {p : Plan κ} {π₁ π₂ : Placement} {e : ExecutorId} {f : Flight}
    (hr : Readied cfg t.scheduler π p π₁ π₂) (hf : t.inFlight.get? e = some f) : e ∉ p.found := by
  intro hfound
  rcases hr.mem_found.mp hfound with hidle | hidle
  · exact h.not_found hf rfl hidle
  · exact h.not_found hf rfl hidle

theorem Manned.running_of_running {p : Plan κ} {π₁ π₂ : Placement} {e : ExecutorId} {f : Flight}
    {r : ReqId} (hr : Readied cfg t.scheduler π p π₁ π₂) (hf : t.inFlight.get? e = some f)
    (hrun : π r = some (.running e)) : π₂ r = some (.running e) := by
  obtain ⟨st, hst, huse⟩ := h.inUse e f hf
  rw [hr.busy r e (h.not_mem_found hr hf), hr.resident]
  exact ⟨hrun, isGone_of_inUse hst huse⟩

/-- A manager keeps the invariant if it notes all ids and the executors with a message in
flight stay in use. -/
theorem Manned.withManager {m : ExecutorsManager}
    (hused : ∀ e st, m.status? e = some st → e ∈ m.usedExecutorIds) (hstatus : ∀ e, e ∈ t.inFlight →
      m.status? e = t.scheduler.executorsManager.status? e ∨
        ∃ st, m.status? e = some st ∧ st.inUse = true) : Manned (t.withManager m) := by
  refine ⟨hused, ?_⟩
  intro e f hf
  rcases hstatus e (Dict.mem_of_get? hf) with heq | hst
  · obtain ⟨st, hst, huse⟩ := h.inUse e f hf
    exact ⟨st, heq.trans hst, huse⟩
  · exact hst

theorem Manned.not_inFlight {e : ExecutorId} {st : ExecutorStatus}
    (hst : t.scheduler.executorsManager.status? e = some st) (huse : st.inUse = false) :
    e ∉ t.inFlight := by
  intro he
  obtain ⟨f, hf⟩ := (Dict.mem_iff_exists _ _).mp he
  exact h.not_found hf huse hst

theorem Manned.setStatus {e : ExecutorId} {st : ExecutorStatus} {m : ExecutorsManager}
    (hm : t.scheduler.executorsManager.setStatus e st = .ok m)
    (hok : e ∉ t.inFlight ∨ st.inUse = true) : Manned (t.withManager m) := by
  obtain ⟨-, hids, hstatus, -, hkeys⟩ :=
    ensures_of_ok (ExecutorsManager.ensures_setStatus _ e st) hm
  apply h.withManager
  · intro e' st' hst'
    have hmem := ExecutorsManager.mem_of_status? hst'
    rw [Dict.mem_def, hkeys, ← Dict.mem_def, Dict.mem_iff_exists] at hmem
    obtain ⟨y, hy⟩ := hmem
    rw [hids]
    exact h.used e' y.status ((ExecutorsManager.status?_eq_some_iff _ _ _).mpr ⟨y, hy, rfl⟩)
  · intro e' he'
    rw [hstatus]
    by_cases he : e' = e
    · rw [if_pos he]
      rcases hok with hnot | huse
      · exact absurd (he ▸ he') hnot
      · exact Or.inr ⟨st, rfl, huse⟩
    · rw [if_neg he]
      exact Or.inl rfl

end

theorem manager_of_next {x : Except PyError ExecutorsManager} {m : ExecutorsManager}
    (hx : t.next cfg c = (x >>= fun m => pure (t.withManager m)))
    (hn : t.next cfg c = .ok (t.withManager m)) : x = .ok m := by
  rw [hn] at hx
  obtain ⟨m', hm', heq⟩ := bind_eq_ok.mp hx.symm
  rw [hm']
  exact congrArg (fun t => Except.ok t.scheduler.executorsManager) (Except.ok.inj heq)

/-- The calls that concern the manager only: an executor is launched under a new id, and it
is killed when it is idle. -/
theorem Manned.of_management (h : Manned t) (hkey : t.scheduler.executorsManager.Keyed)
    (hp : t.Possible cfg c) (hc : c.isManagement = true) {m : ExecutorsManager}
    (hn : t.next cfg c = .ok (t.withManager m)) : Manned (t.withManager m) := by
  have hof : ∀ {x : Except PyError ExecutorsManager},
      t.next cfg c = (x >>= fun m => pure (t.withManager m)) → x = .ok m := fun hx =>
    manager_of_next hx hn
  cases c with
  | addRequest _ | schedule _ | finishExecution _ _ | updateFromOutput _ | finishRequests _ _ _
    | refreshEstimates _ | controlLoad _ _ => cases hc
  | startExecution e => exact h.setStatus (hof rfl) (Or.inr rfl)
  | setKilling e => exact h.setStatus (hof rfl) (Or.inl (h.not_inFlight hp rfl))
  | launch e bundleIds =>
      obtain ⟨-, hnew, hexec, hids, -⟩ :=
        ensures_of_ok (ExecutorsManager.ensures_launchExecutor hkey) (hof rfl)
      have hstatus : ∀ e', e' ≠ e → m.status? e' = t.scheduler.executorsManager.status? e' := by
        intro e' he
        simp [ExecutorsManager.status?, hexec, he]
      apply h.withManager
      · intro e' st hst
        rw [hids, OrderedSet.mem_add]
        by_cases he : e' = e
        · exact Or.inl he
        · rw [hstatus e' he] at hst
          exact Or.inr (h.used e' st hst)
      · intro e' he'
        obtain ⟨f, hf⟩ := (Dict.mem_iff_exists _ _).mp he'
        obtain ⟨st, hst, -⟩ := h.inUse e' f hf
        exact Or.inl (hstatus e' fun he => hnew (he ▸ h.used e' st hst))
  | announceKill e =>
      obtain ⟨hexec, hids, -⟩ :=
        ensures_of_ok (ExecutorsManager.ensures_announceKill _ e) (hof rfl)
      have hstatus : ∀ e', m.status? e' = t.scheduler.executorsManager.status? e' := by
        intro e'
        rw [ExecutorsManager.status?, hexec, ExecutorsManager.status?]
      apply h.withManager
      · intro e' st hst
        rw [hids]
        rw [hstatus] at hst
        exact h.used e' st hst
      · intro e' _
        exact Or.inl (hstatus e')
  | remove e =>
      have hm : t.scheduler.executorsManager.deleteExecutor e = m := Except.ok.inj (hof rfl)
      have hstatus : ∀ e', m.status? e' =
          if e' = e then none else t.scheduler.executorsManager.status? e' := by
        intro e'
        rw [← hm]
        by_cases he : e' = e
        · simp [ExecutorsManager.status?, ExecutorsManager.deleteExecutor, he]
        · simp [ExecutorsManager.status?, ExecutorsManager.deleteExecutor, he]
      apply h.withManager
      · intro e' st hst
        rw [← hm]
        rw [hstatus] at hst
        split_ifs at hst
        exact h.used e' st hst
      · intro e' he'
        rw [hstatus]
        by_cases he : e' = e
        · rcases hp with hst | hst
          · exact absurd (he ▸ he') (h.not_inFlight hst rfl)
          · exact absurd (he ▸ he') (h.not_inFlight hst rfl)
        · rw [if_neg he]
          exact Or.inl rfl

theorem Effect.manned (he : Effect cfg t π c t' π') (hq : Quiet t) (hc : Consistent cfg t)
    (hp : t.Possible cfg c) (h : Manned t) : Manned t' := by
  -- the calls that do not change the manager or the messages in flight
  have hsame : ∀ {s : Scheduler κ} {used : List ReqId},
      s.executorsManager = t.scheduler.executorsManager →
      Manned { t with scheduler := s, usedReqIds := used } := by
    intro s used hm
    constructor
    · dsimp only
      rw [hm]
      exact h.used
    · dsimp only
      rw [hm]
      exact h.inUse
  cases he with
  | addRequest refines ledger extends_ enrolled requests dropped deferred =>
      exact hsame enrolled.executorsManager
  | @schedule env s outs p π₁ _ readied returned course loop =>
      have hframed := returned.issued.framed
      have hflush := flush_of_quiet (s := s) (by
        rw [hframed.droppedDeferredRequests, (readied.quiet hq.1).2, hq.2]) p.found outs
      constructor
      · intro e st hst
        dsimp only at hst ⊢
        rw [returned.used]
        rw [returned.status] at hst
        by_cases hfound : e ∈ p.found
        · rcases readied.mem_found.mp hfound with hidle | hidle
          · exact h.used e _ hidle
          · exact h.used e _ hidle
        · rw [if_neg hfound] at hst
          exact h.used e st hst
      · intro e f hf
        dsimp only at hf ⊢
        rw [hflush, get?_dispatch] at hf
        rw [returned.status]
        cases hout : outs.get? e with
        | some out =>
            rw [if_pos (returned.issued.sent e out hout).1, if_pos (Dict.mem_of_get? hout)]
            exact ⟨_, rfl, rfl⟩
        | none =>
            rw [hout] at hf
            rw [if_neg (h.not_mem_found readied hf)]
            exact h.inUse e f hf
  | manager management keyed next_eq => exact h.of_management hc.keyed hp management next_eq
  | @finishExecution e res f m flight keyed set_eq =>
      have hset := h.setStatus set_eq (Or.inr rfl)
      refine ⟨hset.used, ?_⟩
      intro e' f' hf'
      dsimp only at hf'
      rw [Dict.get?_set] at hf'
      by_cases he : e' = e
      · exact hset.inUse e' f (he ▸ flight)
      · rw [if_neg he] at hf'
        exact hset.inUse e' f' hf'
  | @updateFromOutput e msg res s outs m done _ flight apply_eq visited applied progressed keyed
      set_eq =>
      obtain ⟨st, hm⟩ := set_eq
      rw [applied.manager] at hm
      have herase : Manned ({ t with inFlight := t.inFlight.erase e } : Calls κ) := by
        refine ⟨h.used, ?_⟩
        intro e' f hf
        dsimp only at hf
        rw [Dict.get?_erase] at hf
        split_ifs at hf
        exact h.inUse e' f hf
      have hset := herase.setStatus hm (Or.inl (by simp))
      exact ⟨hset.used, hset.inUse⟩
  | finishRequests finish_eq finished abortable aborted => exact hsame aborted.manager
  | refreshEstimates soft => exact hsame soft.executorsManager
  | controlLoad inRange minInRange => exact hsame rfl

theorem manned_of_init (h : Init cfg t) : Manned t := by
  obtain ⟨launches, m, s, hm, hs, rfl⟩ := h
  have hloop := ensures_foldlM (E := fun _ => True)
    (I := fun m : ExecutorsManager => m.Keyed ∧
      ∀ e st, m.status? e = some st → e ∈ m.usedExecutorIds)
    (f := fun (m : ExecutorsManager) (x : ExecutorId × List ℕ) => m.launchExecutor x.1 x.2)
    launches (fun m x _ hk => (ExecutorsManager.ensures_launchExecutor hk.1).imp fun m' hm' => by
      obtain ⟨hkey, -, hexec, hids, -⟩ := hm'
      refine ⟨hkey, fun e st hst => ?_⟩
      rw [hids, OrderedSet.mem_add]
      by_cases he : e = x.1
      · exact Or.inl he
      · refine Or.inr (hk.2 e st ?_)
        simpa [ExecutorsManager.status?, hexec, he] using hst)
    ExecutorsManager.empty ⟨ExecutorsManager.keyed_empty, fun e st hst => by cases hst⟩
  obtain ⟨hkey, hused⟩ := ensures_of_ok hloop hm
  obtain ⟨-, -, -, hre, -⟩ := ensures_of_ok
    (ensures_updateExecutors (refines_empty m) (ledger_empty cfg m) hkey) hs
  constructor
  · dsimp only
    rw [hre.executorsManager]
    exact hused
  · intro e f hf
    cases hf

theorem Reachable.manned {allowed : Calls κ → Call → Prop}
    (hdefer : cfg.maxNumUnfinishedRequests = none) (h : Reachable cfg allowed t) : Manned t := by
  apply h.invariant
  · intro t ht
    exact manned_of_init ht
  · intro t c t' hr ht hstep
    have hcons := Reachable.consistent hr
    obtain ⟨π, π', -, he⟩ := hcons.effect hstep
    exact he.manned (Reachable.quiet hdefer hr) hcons hstep.1 ht

/-! ## Requests -/

/-- The requests in a message in flight that are still known run on its executor. -/
def Boarded (t : Calls κ) (π : Placement) : Prop :=
  ∀ e f r, t.inFlight.get? e = some f → r ∈ f.message.numScheduledTokens →
    r ∈ t.scheduler.requests → π r = some (.running e)

theorem Quiet.exists_location (hq : Quiet t) (hc : Consistent cfg t) (hπ : Refines t.scheduler π)
    {r : ReqId} (hr : r ∈ t.scheduler.requests) : ∃ l, π r = some l := by
  obtain ⟨rs, hrs⟩ := (Dict.mem_iff_exists _ _).mp ((hq.mem_requests_iff hc r).mp hr)
  obtain ⟨l, hl, -⟩ := hπ.location hrs
  exact ⟨l, hl⟩

theorem Effect.boarded (he : Effect cfg t π c t' π') (hq : Quiet t) (hman : Manned t)
    (hq' : Quiet t') (hc' : Consistent cfg t') (hπ' : Refines t'.scheduler π')
    (hnew : t.NotInFlight c) (h : Boarded t π) : Boarded t' π' := by
  intro e f r hf hr hknown
  cases he with
  | @addRequest req s _ refines ledger extends_ enrolled requests dropped deferred =>
      dsimp only at hf hknown
      rw [requests, Dict.mem_set] at hknown
      rcases hknown with rfl | hknown
      · exact absurd hr (hnew e f hf)
      · exact (extends_.eq_some_iff (by simp)).mpr (h e f r hf hr hknown)
  | @schedule env s outs p π₁ _ readied returned course loop =>
      have hframed := returned.issued.framed
      dsimp only at hf hknown
      rw [flush_of_quiet (by rw [hframed.droppedDeferredRequests, (readied.quiet hq.1).2, hq.2]),
        get?_dispatch] at hf
      cases hout : outs.get? e with
      | some out =>
          rw [hout] at hf
          cases hf
          exact ((returned.issued.sent e out hout).2.2.1.tokens r).mp hr
      | none =>
          rw [hout] at hf
          have hrun := h e f r hf hr (readied.mem_requests (hframed.mem_requests.mp hknown))
          exact hman.running_of_running readied hf hrun
  | manager management keyed next_eq => exact h e f r hf hr hknown
  | @finishExecution e₀ res f₀ m flight keyed set_eq =>
      dsimp only at hf
      rw [Dict.get?_set] at hf
      by_cases he : e = e₀
      · rw [if_pos he, Option.some.injEq] at hf
        rw [← hf] at hr
        exact h e f₀ r (he ▸ flight) hr hknown
      · rw [if_neg he] at hf
        exact h e f r hf hr hknown
  | @updateFromOutput e₀ msg res s outs m done _ flight apply_eq visited applied progressed keyed
      set_eq =>
      dsimp only at hf hknown
      rw [Dict.get?_erase] at hf
      split_ifs at hf
      obtain ⟨req, hreq⟩ := (Dict.mem_iff_exists _ _).mp hknown
      obtain ⟨req₀, hreq₀, -, -⟩ := applied.requests r req hreq
      have hrun := h e f r hf hr (Dict.mem_of_get? hreq₀)
      obtain ⟨l, hl⟩ := hq'.exists_location hc' hπ' hknown
      rcases applied.placement r with hsame | ⟨-, hnone, -⟩
      · rw [hsame, hrun]
      · rw [hnone] at hl
        cases hl
  | finishRequests finish_eq finished abortable aborted =>
      obtain ⟨req, hreq⟩ := (Dict.mem_iff_exists _ _).mp hknown
      have hrun := h e f r hf hr (Dict.mem_of_get? (aborted.requests r req hreq))
      exact aborted.running_iff.mpr ⟨hrun, fun hmem => aborted.gone r hmem hknown⟩
  | refreshEstimates soft =>
      exact h e f r hf hr (soft.framed.mem_requests.mp hknown)
  | controlLoad inRange minInRange => exact h e f r hf hr hknown

/-- In runs in which no id is used again while it is in flight, the requests of a message in
flight run on its executor. -/
theorem Reachable.boarded (hdefer : cfg.maxNumUnfinishedRequests = none)
    (h : Reachable cfg NotInFlight t) (hπ : Refines t.scheduler π) : Boarded t π := by
  have hinv : ∃ π, Refines t.scheduler π ∧ Boarded t π := by
    apply h.invariant
    · intro t ht
      obtain ⟨m, -, hπ, -, -, -, hnone⟩ := built_of_init ht
      obtain ⟨π, hπ⟩ := (consistent_of_init ht).refines
      refine ⟨π, hπ, fun e f r hf => ?_⟩
      rw [hnone] at hf
      cases hf
    · rintro t c t' hr ⟨π, hπ, hb⟩ hstep
      have hcons := Reachable.consistent hr
      obtain ⟨π', he⟩ := ensures_of_ok (ensures_effect hπ hcons.ledger hcons.keyed hstep.1)
        hstep.2.2
      have hnext : Reachable cfg NotInFlight t' := Transition.Reachable.next hr hstep
      obtain ⟨hcons', hπ'⟩ := Effect.consistent hcons hπ he
      exact ⟨π', hπ', he.boarded (Reachable.quiet hdefer hr) (Reachable.manned hdefer hr)
        (Reachable.quiet hdefer hnext) hcons' hπ' hstep.2.1 hb⟩
  obtain ⟨π₀, hπ₀, hb⟩ := hinv
  intro e f r hf hr hknown
  rw [← hπ.residentOn_iff, hπ₀.residentOn_iff]
  exact hb e f r hf hr hknown

end Calls

end TeDiServe

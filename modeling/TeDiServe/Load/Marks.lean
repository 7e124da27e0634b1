import TeDiServe.Load.Stored

/-!
# Marks

Stage 5 marks everything on an executor that gains or loses a request, at most once
for each executor and call. `Flagged` describes the marks after some requests were
visited: whoever has come to an executor finds it marked, and with it all records on
it.
-/

namespace TeDiServe

namespace Scheduler

variable {κ : Type} {cfg : Config κ} {s s' q : Scheduler κ} {r : ReqId} {e : ExecutorId}

/-! ## Marking records -/

structure Marking (s s' : Scheduler κ) : Prop where
  executorStates : s'.executorStates = s.executorStates
  counter : s'.confMarkCounter = s.confMarkCounter
  active : ∀ r rs', s'.requestStates.get? r = some rs' →
    ∃ rs, s.requestStates.get? r = some rs ∧ rs.Keeps rs'
  deferred : ∀ r rs', s'.deferredRequestStates.get? r = some rs' →
    ∃ rs, s.deferredRequestStates.get? r = some rs ∧ rs.Keeps rs'

theorem Marking.of_eq (hx : s'.executorStates = s.executorStates)
    (hc : s'.confMarkCounter = s.confMarkCounter) (hact : s'.requestStates = s.requestStates)
    (hdef : s'.deferredRequestStates = s.deferredRequestStates) : Marking s s' := by
  refine ⟨hx, hc, ?_, ?_⟩
  · intro r rs hrs
    rw [hact] at hrs
    exact ⟨rs, hrs, rfl, rfl, rfl, fun hd => hd⟩
  · intro r rs hrs
    rw [hdef] at hrs
    exact ⟨rs, hrs, rfl, rfl, rfl, fun hd => hd⟩

theorem Marking.trans {s'' : Scheduler κ} (h : Marking s s') (h' : Marking s' s'') :
    Marking s s'' := by
  refine ⟨h'.executorStates.trans h.executorStates, h'.counter.trans h.counter, ?_, ?_⟩
  · intro r rs'' hrs''
    obtain ⟨rs', hrs', hk'⟩ := h'.active r rs'' hrs''
    obtain ⟨rs, hrs, hk⟩ := h.active r rs' hrs'
    exact ⟨rs, hrs, hk.trans hk'⟩
  · intro r rs'' hrs''
    obtain ⟨rs', hrs', hk'⟩ := h'.deferred r rs'' hrs''
    obtain ⟨rs, hrs, hk⟩ := h.deferred r rs' hrs'
    exact ⟨rs, hrs, hk.trans hk'⟩

theorem marking_markConfidenceThresholdDirty (s : Scheduler κ) (r : ReqId) :
    Marking s (s.markConfidenceThresholdDirty r) ∧
    (s.markConfidenceThresholdDirty r).executorConfMarkVersion = s.executorConfMarkVersion ∧
    ∀ rs, (s.markConfidenceThresholdDirty r).requestStates.get? r = some rs →
      rs.confidenceThresholdDirty = true := by
  have hset : ∀ {d : Dict ReqId RequestState} {rs : RequestState}, d.get? r = some rs →
      ∀ r' rs', (d.set r { rs with confidenceThresholdDirty := true }).get? r' = some rs' →
        ∃ rs, d.get? r' = some rs ∧ rs.Keeps rs' := by
    intro d rs hrs r' rs' hrs'
    rw [Dict.get?_set] at hrs'
    split_ifs at hrs' with hr
    · cases hrs'
      rw [hr]
      exact ⟨rs, hrs, rfl, rfl, rfl, fun _ => rfl⟩
    · exact ⟨rs', hrs', rfl, rfl, rfl, fun hd => hd⟩
  have hsame : ∀ {d : Dict ReqId RequestState} r' rs', d.get? r' = some rs' →
      ∃ rs, d.get? r' = some rs ∧ rs.Keeps rs' :=
    fun r' rs' hrs' => ⟨rs', hrs', rfl, rfl, rfl, fun hd => hd⟩
  unfold markConfidenceThresholdDirty updateState
  cases hrs : s.requestStates.get? r with
  | some rs =>
      refine ⟨⟨rfl, rfl, hset hrs, hsame⟩, rfl, ?_⟩
      intro rs' hrs'
      dsimp only at hrs'
      rw [Dict.get?_set_self, Option.some.injEq] at hrs'
      rw [← hrs']
  | none =>
      cases hdef : s.deferredRequestStates.get? r with
      | some rs =>
          refine ⟨⟨rfl, rfl, hsame, hset hdef⟩, rfl, ?_⟩
          intro rs' hrs'
          dsimp only at hrs'
          rw [hrs] at hrs'
          cases hrs'
      | none =>
          refine ⟨⟨rfl, rfl, hsame, hsame⟩, rfl, ?_⟩
          intro rs' hrs'
          dsimp only at hrs'
          rw [hrs] at hrs'
          cases hrs'

theorem marking_foldl (l : List ReqId) (s : Scheduler κ) :
    Marking s (l.foldl markConfidenceThresholdDirty s) ∧
    (l.foldl markConfidenceThresholdDirty s).executorConfMarkVersion =
      s.executorConfMarkVersion ∧
    ∀ r ∈ l, ∀ rs, (l.foldl markConfidenceThresholdDirty s).requestStates.get? r = some rs →
      rs.confidenceThresholdDirty = true := by
  induction l generalizing s with
  | nil => exact ⟨Marking.of_eq rfl rfl rfl rfl, rfl, by simp⟩
  | cons r l ih =>
      obtain ⟨hone, hver, hdirty⟩ := marking_markConfidenceThresholdDirty s r
      obtain ⟨hrest, hver', hdirty'⟩ := ih (s.markConfidenceThresholdDirty r)
      rw [List.foldl_cons]
      refine ⟨hone.trans hrest, hver'.trans hver, ?_⟩
      intro r' hr' rs' hrs'
      rcases List.mem_cons.mp hr' with rfl | hr'
      · obtain ⟨rs, hrs, hk⟩ := hrest.active r' rs' hrs'
        exact hk.dirty (hdirty rs hrs)
      · exact hdirty' r' hr' rs' hrs'

/-! ## Stage 5 -/

/-- What stage 5 has marked in the state `q` after the requests of `done`: everything
on an executor that was marked in this cycle, and the executors to which one of the
requests has come or from which one has gone. -/
structure Flagged (q : Scheduler κ) (old : Dict ReqId (Option ExecutorId)) (done : List ReqId)
    (s : Scheduler κ) : Prop where
  executorStates : s.executorStates = q.executorStates
  active : ∀ r rs', s.requestStates.get? r = some rs' →
    ∃ rs, q.requestStates.get? r = some rs ∧ rs.Keeps rs'
  deferred : ∀ r rs', s.deferredRequestStates.get? r = some rs' →
    ∃ rs, q.deferredRequestStates.get? r = some rs ∧ rs.Keeps rs'
  marks : ∀ e v, s.executorConfMarkVersion.get? e = some v → v ≤ s.confMarkCounter
  marked : ∀ e es, s.executorConfMarkVersion.get? e = some s.confMarkCounter →
    s.executorStates.get? e = some es → ∀ r ∈ es.getProjectedReqIds, ∀ rs,
      s.requestStates.get? r = some rs → rs.confidenceThresholdDirty = true
  moved : ∀ r ∈ done, ∀ rs e, s.requestStates.get? r = some rs →
    ¬(rs.executorId = some e ↔ (old.get? r).join = some e) → e ∈ q.executorStates →
    s.executorConfMarkVersion.get? e = some s.confMarkCounter

namespace Flagged

variable {old : Dict ReqId (Option ExecutorId)} {done : List ReqId}

theorem start (q : Scheduler κ) (old : Dict ReqId (Option ExecutorId))
    (h : ∀ e v, q.executorConfMarkVersion.get? e = some v → v ≤ q.confMarkCounter) :
    Flagged q old [] { q with confMarkCounter := q.confMarkCounter + 1 } := by
  have hq : Marking q { q with confMarkCounter := q.confMarkCounter } :=
    Marking.of_eq rfl rfl rfl rfl
  refine ⟨rfl, hq.active, hq.deferred, fun e v hv => (h e v hv).trans (Nat.le_succ _), ?_, ?_⟩
  · intro e es hv
    exact absurd (h e _ hv) (Nat.not_succ_le_self _)
  · simp

theorem of_eq (h : Flagged q old done s) (hx : s'.executorStates = s.executorStates)
    (hact : s'.requestStates = s.requestStates)
    (hdef : s'.deferredRequestStates = s.deferredRequestStates)
    (hver : s'.executorConfMarkVersion = s.executorConfMarkVersion)
    (hc : s'.confMarkCounter = s.confMarkCounter) : Flagged q old done s' := by
  refine ⟨hx.trans h.executorStates, ?_, ?_, ?_, ?_, ?_⟩
  · rw [hact]
    exact h.active
  · rw [hdef]
    exact h.deferred
  · rw [hver, hc]
    exact h.marks
  · rw [hver, hc, hx, hact]
    exact h.marked
  · rw [hver, hc, hact]
    exact h.moved

theorem mark (h : Flagged q old done s) (e : ExecutorId) :
    Flagged q old done (s.markExecutorConfidenceThresholdsDirty e) ∧
    (e ∈ q.executorStates →
      (s.markExecutorConfidenceThresholdsDirty e).executorConfMarkVersion.get? e =
        some (s.markExecutorConfidenceThresholdsDirty e).confMarkCounter) := by
  unfold markExecutorConfidenceThresholdsDirty
  cases hes : s.executorStates.get? e with
  | none =>
      refine ⟨h, fun he => ?_⟩
      rw [← h.executorStates, Dict.mem_iff_exists, hes] at he
      obtain ⟨es, hc⟩ := he
      cases hc
  | some es =>
      dsimp only
      split_ifs with hv
      · exact ⟨h, fun _ => hv⟩
      obtain ⟨hm, hver, hdirty⟩ := marking_foldl es.getProjectedReqIds
        { s with executorConfMarkVersion := s.executorConfMarkVersion.set e s.confMarkCounter }
      have hnow : ∀ e', (s.executorConfMarkVersion.set e s.confMarkCounter).get? e' =
          if e' = e then some s.confMarkCounter else s.executorConfMarkVersion.get? e' :=
        fun e' => Dict.get?_set _ _ _ _
      refine ⟨⟨hm.executorStates.trans h.executorStates, ?_, ?_, ?_, ?_, ?_⟩, fun _ => ?_⟩
      · intro r rs'' hrs''
        obtain ⟨rs', hrs', hk'⟩ := hm.active r rs'' hrs''
        obtain ⟨rs, hrs, hk⟩ := h.active r rs' hrs'
        exact ⟨rs, hrs, hk.trans hk'⟩
      · intro r rs'' hrs''
        obtain ⟨rs', hrs', hk'⟩ := hm.deferred r rs'' hrs''
        obtain ⟨rs, hrs, hk⟩ := h.deferred r rs' hrs'
        exact ⟨rs, hrs, hk.trans hk'⟩
      · intro e' v hv'
        rw [hver, hnow] at hv'
        rw [hm.counter]
        split_ifs at hv' with he
        · cases hv'
          exact le_rfl
        · exact h.marks e' v hv'
      · intro e' es' hv' hes' r hr rs hrs
        rw [hver, hnow, hm.counter] at hv'
        rw [hm.executorStates] at hes'
        by_cases he : e' = e
        · rw [he] at hes'
          dsimp only at hes'
          rw [hes, Option.some.injEq] at hes'
          rw [← hes'] at hr
          exact hdirty r hr rs hrs
        · rw [if_neg he] at hv'
          obtain ⟨rs', hrs', hk⟩ := hm.active r rs hrs
          exact hk.dirty (h.marked e' es' hv' hes' r hr rs' hrs')
      · intro r hr rs e' hrs hne he'
        obtain ⟨rs', hrs', hk⟩ := hm.active r rs hrs
        rw [hk.executorId] at hne
        have hv' := h.moved r hr rs' e' hrs' hne he'
        rw [hver, hnow, hm.counter, hv']
        split_ifs <;> rfl
      · rw [hver, hnow, if_pos rfl, hm.counter]

end Flagged

theorem ensures_modifyRequest_flagged {old : Dict ReqId (Option ExecutorId)} {done : List ReqId}
    (h : Flagged q old done s) (r : ReqId) (f : Request → Request) :
    (s.modifyRequest r f).Ensures (fun _ => True) (Flagged q old done) := by
  unfold modifyRequest
  apply ensures_bind_any
  exact fun req => h.of_eq rfl rfl rfl rfl rfl

def MarkedAt (q : Scheduler κ) (o : Option ExecutorId) (s : Scheduler κ) : Prop :=
  ∀ e, o = some e → e ∈ q.executorStates →
    s.executorConfMarkVersion.get? e = some s.confMarkCounter

theorem MarkedAt.mark {o : Option ExecutorId} (h : MarkedAt q o s) (e : ExecutorId) :
    MarkedAt q o (s.markExecutorConfidenceThresholdsDirty e) := by
  intro e' he' hmem
  have hv := h e' he' hmem
  unfold markExecutorConfidenceThresholdsDirty
  cases s.executorStates.get? e with
  | none => exact hv
  | some es =>
      dsimp only
      split_ifs
      · exact hv
      obtain ⟨hm, hver, -⟩ := marking_foldl es.getProjectedReqIds
        { s with executorConfMarkVersion := s.executorConfMarkVersion.set e s.confMarkCounter }
      rw [hver, hm.counter, Dict.get?_set, hv]
      split_ifs <;> rfl

theorem MarkedAt.ensures_modifyRequest {o : Option ExecutorId} (h : MarkedAt q o s) (r : ReqId)
    (f : Request → Request) :
    (s.modifyRequest r f).Ensures (fun _ => True) (MarkedAt q o) := by
  unfold modifyRequest
  apply ensures_bind_any
  exact fun req => h

theorem ensures_leave_flagged {old : Dict ReqId (Option ExecutorId)} {done : List ReqId}
    {x : Scheduler κ × Tables} (h : Flagged q old done x.1) (r : ReqId) (o : Option ExecutorId) :
    (leave cfg x r o).Ensures (fun _ => True) fun y => Flagged q old done y.1 ∧
      MarkedAt q o y.1 := by
  cases o with
  | none =>
      refine ⟨h, ?_⟩
      intro e he
      cases he
  | some e =>
      unfold leave dropRequest freeBlocks
      rw [ensures_bind, ensures_bind, ensures_subscript]
      refine ⟨fun m _ => ?_, fun _ => trivial⟩
      have hfreed : Flagged q old done
          { x.1.markFree e r with
            kvCacheManagers := (x.1.markFree e r).kvCacheManagers.set e (cfg.kv.free m r) } :=
        h.of_eq rfl rfl rfl rfl rfl
      rw [ensures_pure, ensures_bind]
      apply (ensures_modifyRequest_flagged hfreed r _).imp
      intro s' hs'
      refine ⟨(hs'.mark e).1, ?_⟩
      intro e' he' hmem
      cases he'
      exact (hs'.mark e).2 hmem

theorem ensures_arrive_flagged {old : Dict ReqId (Option ExecutorId)} {done : List ReqId}
    {x : Scheduler κ × Tables} (h : Flagged q old done x.1) (r : ReqId) (o : Option ExecutorId)
    {o' : Option ExecutorId} (hleft : MarkedAt q o' x.1) :
    (arrive cfg x r o).Ensures (fun _ => True) fun y => Flagged q old done y.1 ∧
      MarkedAt q o y.1 ∧ MarkedAt q o' y.1 := by
  cases o with
  | none =>
      refine ⟨h, ?_, hleft⟩
      intro e he
      cases he
  | some e =>
      have halloc : ∀ req, (x.1.allocate cfg req e).Ensures (fun _ => True) fun s' =>
          Flagged q old done s' ∧ MarkedAt q o' s' := by
        intro req
        unfold allocate
        split_ifs
        · apply ensures_bind_any
          intro m
          split
          · trivial
          · exact ⟨h.of_eq rfl rfl rfl rfl rfl, hleft⟩
        · exact ⟨h, hleft⟩
      unfold arrive addNewRequest
      apply ensures_bind_any
      intro req
      apply (halloc req).bind
      rintro s' ⟨hs', hleft'⟩
      apply ensures_bind_any
      intro m
      apply ((ensures_modifyRequest_flagged hs' r _).and (hleft'.ensures_modifyRequest r _)).bind
      rintro s'' ⟨hs'', hleft''⟩
      refine ⟨(hs''.mark e).1, ?_, hleft''.mark e⟩
      intro e' he' hmem
      cases he'
      exact (hs''.mark e).2 hmem

theorem ensures_finalize_flagged {old : Dict ReqId (Option ExecutorId)} {done : List ReqId}
    (found : List ExecutorId) {x : Scheduler κ × Tables} (h : Flagged q old done x.1)
    (r : ReqId) :
    (finalize cfg found old x r).Ensures (fun _ => True) fun y =>
      Flagged q old (r :: done) y.1 := by
  unfold finalize
  rw [ensures_bind, ensures_subscript]
  refine ⟨fun rs hrs => ?_, fun _ => trivial⟩
  obtain ⟨rs₀, hrs₀, hk⟩ := h.active r rs hrs
  -- the executor of a record is the one that it has in `q`
  have hsame : ∀ y : Scheduler κ, Flagged q old done y → ∀ rs', y.requestStates.get? r = some rs' →
      rs'.executorId = rs.executorId := by
    intro y hy rs' hrs'
    obtain ⟨rs₁, hrs₁, hk₁⟩ := hy.active r rs' hrs'
    rw [hrs₀, Option.some.injEq] at hrs₁
    rw [hk₁.executorId, ← hrs₁, hk.executorId]
  have hvisit : ∀ y : Scheduler κ, Flagged q old done y →
      (∀ e, ¬(rs.executorId = some e ↔ (old.get? r).join = some e) → e ∈ q.executorStates →
        y.executorConfMarkVersion.get? e = some y.confMarkCounter) →
      Flagged q old (r :: done) y := by
    intro y hy hr
    refine ⟨hy.executorStates, hy.active, hy.deferred, hy.marks, hy.marked, ?_⟩
    intro r' hr' rs' e hrs' hne he
    rcases List.mem_cons.mp hr' with rfl | hr'
    · rw [hsame y hy rs' hrs'] at hne
      exact hr e hne he
    · exact hy.moved r' hr' rs' e hrs' hne he
  dsimp only
  split_ifs with hne
  · apply (ensures_leave_flagged h r _).bind
    rintro y ⟨hy, hleft⟩
    apply (ensures_arrive_flagged hy r _ hleft).imp
    rintro z ⟨hz, harrived, hleft'⟩
    apply hvisit z.1 hz
    intro e hmoved he
    by_cases hnow : rs.executorId = some e
    · exact harrived e hnow he
    · by_cases hold : (old.get? r).join = some e
      · exact hleft' e hold he
      · exact absurd (iff_of_false hnow hold) hmoved
  · have hstay : ∀ e, ¬(rs.executorId = some e ↔ (old.get? r).join = some e) → False := by
      intro e hmoved
      rw [not_not.mp hne] at hmoved
      exact hmoved Iff.rfl
    split
    · exact hvisit x.1 h fun e hmoved _ => (hstay e hmoved).elim
    · apply ensures_bind_any
      intro _
      unfold addRunningRequest
      apply ensures_bind_any
      intro req
      apply (ensures_modifyRequest_flagged h r _).bind
      intro s' hs'
      exact hvisit s' hs' fun e hmoved _ => (hstay e hmoved).elim

theorem ensures_stage5_flagged (env : ScheduleEnv) (found : List ExecutorId)
    (old : Dict ReqId (Option ExecutorId)) (p : Round κ)
    (hmarks : ∀ e v, p.scheduler.executorConfMarkVersion.get? e = some v →
      v ≤ p.scheduler.confMarkCounter) :
    (stage5 cfg env found old p).Ensures (fun _ => True) fun x =>
      ∃ done, Flagged p.scheduler old done x.1 ∧
        ∀ r ∈ p.requestsInSchedulerOutput.items, r ∈ done := by
  have hloop : ∀ (l done : List ReqId) (x : Scheduler κ × Tables),
      Flagged p.scheduler old done x.1 →
      (l.foldlM (finalize cfg found old) x).Ensures (fun _ => True) fun y =>
        Flagged p.scheduler old (l.reverse ++ done) y.1 := by
    intro l
    induction l with
    | nil => exact fun done x hx => hx
    | cons r l ih =>
        intro done x hx
        rw [List.foldlM_cons, ensures_bind]
        apply (ensures_finalize_flagged found hx r).imp
        intro y hy
        rw [List.reverse_cons, List.append_assoc]
        exact ih (r :: done) y hy
  unfold stage5
  apply (hloop _ [] _ (Flagged.start p.scheduler old hmarks)).imp
  intro x hx
  refine ⟨_, hx, ?_⟩
  intro r hr
  rw [List.append_nil, List.mem_reverse]
  exact (env.setOrder_perm _).symm.subset hr

theorem flagged_of_inRound {env : ScheduleEnv} {found : List ExecutorId}
    {old : Dict ReqId (Option ExecutorId)} {π₁ π₂ : Placement} {p : Round κ}
    {x : Scheduler κ × Tables} (hin : Round.InRound cfg found s π₁ p π₂)
    (hmarks : Begun s.executorConfMarkVersion s.confMarkCounter)
    (hstage : stage5 cfg env found old p = .ok x) :
    ∃ done, Flagged p.scheduler old done x.1 ∧
      ∀ r ∈ p.requestsInSchedulerOutput.items, r ∈ done := by
  obtain ⟨es, states, hp, -⟩ := hin.moved
  have hflag := ensures_of_ok (ensures_stage5_flagged env found old p (by rw [hp]; exact hmarks))
    hstage
  exact hflag

end Scheduler

end TeDiServe

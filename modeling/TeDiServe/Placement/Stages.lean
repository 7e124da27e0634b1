import TeDiServe.Placement.Refines

/-!
# What the placement stages may do

`InRound` relates the placement in the middle of a scheduling round to the one at
its start. Only executors that were found idle gain or lose residents, a request
whose executor changes is noted, and with caching a request in the middle of a
block stays where it is. Every stage keeps this relation; stage 0 leaves no
pending addition on the idle executors, and stage 1 notes all their residents.

The only errors the stages can raise are about latency profiles.
-/

namespace TeDiServe

/-- Errors that would mean that the placement records disagree, or that a record
is missing. Missing profiles, predictions and thresholds are none of these. -/
def PyError.isPlacement : PyError → Bool
  | .assertion | .zeroDivision | .attribute | .runtime => true
  | .key .latencyProfiles | .key .throughputSupply | .key .predNumStepsLeft => false
  | .key _ => true
  | .index | .type | .value | .unboundLocal => false

def Placement.resident? (π : Placement) (r : ReqId) : Option ExecutorId :=
  (π r).bind Loc.resident?

theorem Placement.resident?_eq_some_iff (π : Placement) (r : ReqId) (e : ExecutorId) :
    π.resident? r = some e ↔ π r = some (.running e) := by
  unfold Placement.resident?
  cases h : π r with
  | none => simp
  | some l => cases l <;> simp [Loc.resident?]

abbrev NotPlacement (err : PyError) : Prop := err.isPlacement = false

/-- The result of a lookup cannot be unpacked when the profile has no entry for one of the
sizes that were asked for. -/
def AskedInVain {κ : Type} (cfg : Config κ) (Asked : ℕ → Prop) (err : PyError) : Prop :=
  err = .type → ∃ d p n, cfg.latencyProfiles.get? d = some p ∧ p.lookup n = none ∧ Asked n

theorem AskedInVain.mono {κ : Type} {cfg : Config κ} {Asked Asked' : ℕ → Prop} {err : PyError}
    (h : AskedInVain cfg Asked err) (hsub : ∀ n, Asked n → Asked' n) :
    AskedInVain cfg Asked' err := by
  intro heq
  obtain ⟨d, p, n, hp, hn, hask⟩ := h heq
  exact ⟨d, p, n, hp, hn, hsub n hask⟩

def Unprofiled {κ : Type} (cfg : Config κ) (Asked : ℕ → Prop) (err : PyError) : Prop :=
  NotPlacement err ∧ AskedInVain cfg Asked err

namespace Unprofiled

variable {κ : Type} {cfg : Config κ} {Asked Asked' : ℕ → Prop} {err : PyError}

theorem of_ne (h : NotPlacement err) (hne : err ≠ .type) : Unprofiled cfg Asked err :=
  ⟨h, fun heq => absurd heq hne⟩

theorem mono (h : Unprofiled cfg Asked err) (hsub : ∀ n, Asked n → Asked' n) :
    Unprofiled cfg Asked' err :=
  ⟨h.1, h.2.mono hsub⟩

end Unprofiled

namespace Scheduler

variable {κ : Type} {cfg : Config κ} {s : Scheduler κ} {π : Placement} {r : ReqId}
  {e : ExecutorId}

/-! ## The search -/

theorem ensures_getProfileLatency (cfg : Config κ) {Asked : ℕ → Prop} (d : ℕ) {b : ℕ}
    (hb : Asked b) : (getProfileLatency cfg d b).Ensures (Unprofiled cfg Asked) fun _ => True := by
  unfold getProfileLatency
  rw [ensures_bind, ensures_subscript]
  constructor
  · intro p hp
    cases hlook : p.lookup b with
    | none => exact ⟨rfl, fun _ => ⟨d, p, b, hp, hlook, hb⟩⟩
    | some x => trivial
  · intro _
    exact Unprofiled.of_ne rfl (by simp)

theorem ensures_projectedBatchSize (h : Refines s π) (he : e ∈ s.executorStates) :
    (s.projectedBatchSize e).Ensures (fun _ => False) fun n =>
      ∃ es, s.executorStates.get? e = some es ∧ n = es.load s.size := by
  obtain ⟨es, hes⟩ := (Dict.mem_iff_exists _ _).mp he
  have hmir := h.executors e es hes
  unfold projectedBatchSize
  rw [ensures_bind, subscript_of_get? _ hes, ensures_ok]
  apply (hmir.ensures_tokensNeeded (fun r hr => h.size_ne_none_of_host hr)
    fun r hr => hmir.mem_projected_iff.mp hr).imp
  intro n hn
  exact ⟨es, hes, hn⟩

theorem ensures_projectedStepLatency (cfg : Config κ) {Asked : ℕ → Prop} (h : Refines s π)
    (he : e ∈ s.executorStates) {n : ℕ}
    (hask : ∀ es, s.executorStates.get? e = some es → Asked (es.load s.size + n)) :
    (s.projectedStepLatency cfg e n).Ensures (Unprofiled cfg Asked) fun _ => True := by
  obtain ⟨es, hes⟩ := (Dict.mem_iff_exists _ _).mp he
  have hmir := h.executors e es hes
  unfold projectedStepLatency
  rw [ensures_bind, subscript_of_get? _ hes, ensures_ok, ensures_bind]
  refine (hmir.ensures_tokensNeeded (fun r hr => h.size_ne_none_of_host hr)
    fun r hr => hmir.mem_projected_iff.mp hr).mono (fun _ hf => hf.elim) fun b hb => ?_
  have hload : b = es.load s.size := hb
  rw [ensures_bind, hload]
  exact (ensures_getProfileLatency cfg _ (hask es hes)).imp fun _ _ => trivial

/-- The sizes that a search for `r` asks for: the load of the executor that the request is
on, and the loads of the candidates with the request, as far as they fit. -/
def SearchAsks (cfg : Config κ) (s : Scheduler κ) (r : ReqId) (cur : Option ExecutorId) (n : ℕ) :
    Prop :=
  ∃ e es, s.executorStates.get? e = some es ∧
    (cur = some e ∧ n = es.load s.size ∨
      n = es.load s.size + (s.size r).getD 0 ∧ n ≤ cfg.maxNumScheduledTokens)

theorem ensures_currentStepLatency (cfg : Config κ) (h : Refines s π) (r : ReqId)
    {cur : Option ExecutorId} (hcur : ∀ e, cur = some e → e ∈ s.executorStates) :
    (s.currentStepLatency cfg cur).Ensures (Unprofiled cfg (SearchAsks cfg s r cur))
      fun _ => True := by
  cases cur with
  | none => trivial
  | some e =>
      unfold currentStepLatency
      refine (ensures_projectedStepLatency cfg h (hcur e rfl) ?_).bind fun _ _ => trivial
      intro es hes
      exact ⟨e, es, hes, Or.inl ⟨rfl, rfl⟩⟩

def Room (cfg : Config κ) (s : Scheduler κ) (r : ReqId) (e : ExecutorId) : Prop :=
  ∃ es, s.executorStates.get? e = some es ∧
    es.load s.size + (s.size r).getD 0 ≤ cfg.maxNumScheduledTokens

theorem ensures_scanCandidates (cfg : Config κ) (h : Refines s π) {n : ℕ}
    (hn : s.size r = some n) (cur : Option ExecutorId) (cs : List ExecutorId)
    (hcs : ∀ e ∈ cs, e ∈ s.executorStates)
    (best : Option ExecutorId) (lat : WithTop ℚ) :
    (s.scanCandidates cfg n cur cs best lat).Ensures (Unprofiled cfg (SearchAsks cfg s r cur))
      fun b => ∀ x, b = some x → best = some x ∨ x ∈ cs ∧ Room cfg s r x := by
  induction cs generalizing best lat with
  | nil =>
      intro x hx
      exact Or.inl hx
  | cons e cs ih =>
      have hrest : ∀ e ∈ cs, e ∈ s.executorStates := fun x hx => hcs x (List.mem_cons_of_mem e hx)
      have hkeep : ∀ lat', (s.scanCandidates cfg n cur cs best lat').Ensures
          (Unprofiled cfg (SearchAsks cfg s r cur)) fun b =>
            ∀ x, b = some x → best = some x ∨ x ∈ e :: cs ∧ Room cfg s r x := by
        intro lat'
        refine (ih hrest best lat').imp fun b hb x hx => ?_
        rcases hb x hx with hx | ⟨hx, hroom⟩
        · exact Or.inl hx
        · exact Or.inr ⟨List.mem_cons_of_mem e hx, hroom⟩
      have he : e ∈ s.executorStates := hcs e List.mem_cons_self
      unfold scanCandidates
      by_cases hcur : cur = some e
      · rw [if_pos hcur]
        exact hkeep lat
      · rw [if_neg hcur, ensures_bind]
        refine (ensures_projectedBatchSize h he).mono (fun _ hf => hf.elim) fun b hsize => ?_
        obtain ⟨es, hes, hb⟩ := hsize
        by_cases hfull : cfg.maxNumScheduledTokens < b + n
        · rw [if_pos hfull]
          intro x hx
          exact Or.inl hx
        · rw [if_neg hfull, ensures_bind]
          have hroom : Room cfg s r e := by
            refine ⟨es, hes, ?_⟩
            rw [← hb, hn, Option.getD_some]
            exact Nat.le_of_not_lt hfull
          have hask : ∀ es', s.executorStates.get? e = some es' →
              SearchAsks cfg s r cur (es'.load s.size + n) := by
            intro es' hes'
            rw [hes, Option.some.injEq] at hes'
            refine ⟨e, es, hes, Or.inr ⟨by rw [← hes', hn, Option.getD_some], ?_⟩⟩
            rw [← hes', ← hb]
            exact Nat.le_of_not_lt hfull
          refine (ensures_projectedStepLatency cfg h he hask).imp fun l _ => ?_
          by_cases hl : (l : WithTop ℚ) < lat
          · rw [if_pos hl]
            refine (ih hrest (some e) l).imp fun b hb x hx => ?_
            rcases hb x hx with hx | ⟨hx, hroom'⟩
            · rw [Option.some.injEq] at hx
              exact Or.inr ⟨hx ▸ List.mem_cons_self, hx ▸ hroom⟩
            · exact Or.inr ⟨List.mem_cons_of_mem e hx, hroom'⟩
          · rw [if_neg hl]
            exact hkeep lat

/-- The executor found is one of the candidates and has room for the request; the
candidates are only permuted. -/
theorem ensures_findBestExecutor (cfg : Config κ) (h : Refines s π) {cands : List ExecutorId}
    (hcands : ∀ e ∈ cands, e ∈ s.executorStates) (hr : r ∈ s.requests)
    {cur : Option ExecutorId} (hcur : ∀ e, cur = some e → e ∈ s.executorStates) :
    (s.findBestExecutor cfg cands r cur).Ensures (Unprofiled cfg (SearchAsks cfg s r cur)) fun b =>
      (∀ x, b.1 = some x → x ∈ cands ∧ Room cfg s r x) ∧ b.2.Perm cands := by
  obtain ⟨req, hreq⟩ := (Dict.mem_iff_exists _ _).mp hr
  unfold findBestExecutor
  refine (ensures_currentStepLatency cfg h r hcur).bind fun lat _ => ?_
  rw [ensures_bind, subscript_of_get? _ hreq, ensures_ok, ensures_bind]
  have hkeys : ∀ e ∈ cands, (s.projectedBatchSize e).Ensures
      (Unprofiled cfg (SearchAsks cfg s r cur)) fun _ => True := by
    intro e he
    exact (ensures_projectedBatchSize h (hcands e he)).mono (fun _ hf => hf.elim)
      fun _ _ => trivial
  refine (ensures_sortedByKey cands hkeys).imp fun sorted hperm => ?_
  have htried : ∀ e ∈ (if cur.isSome then sorted.take 1 else sorted), e ∈ cands := by
    intro e he
    by_cases hc : cur.isSome = true
    · rw [if_pos hc] at he
      exact hperm.subset (List.mem_of_mem_take he)
    · rw [if_neg hc] at he
      exact hperm.subset he
  rw [ensures_bind]
  have hsize : s.size r = some req.numTokens := by simp [size, hreq]
  refine (ensures_scanCandidates cfg h hsize cur _
    (fun e he => hcands e (htried e he)) none lat).imp fun b hb => ?_
  rw [ensures_pure]
  refine ⟨?_, hperm⟩
  intro x hx
  rcases hb x hx with hx | ⟨hx, hroom⟩
  · cases hx
  · exact ⟨htried x hx, hroom⟩

end Scheduler

end TeDiServe

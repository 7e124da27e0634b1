import TeDiServe.Engine.Calls
import TeDiServe.Library.Greedy
import TeDiServe.Scheduler.LoadControl

/-!
# Load control is greedy, and optimal

The thresholds that load control hands out are a greedy assignment under the
throughput supply, in the order of progress, with the demand at a candidate
threshold as the cost of its index. What is said here about supply and about the
lexicographic order is then read off the general facts about such assignments.

Load control writes indices and nothing else: its result is an instance of
`Scheduler.controlLoad`, for which only the range of the indices is assumed.
-/

namespace TeDiServe

def RequestState.relabel (i : Option ℕ) (rs : RequestState) : RequestState :=
  { rs with maxConfidenceThresholdIdx := i.getD rs.maxConfidenceThresholdIdx }

namespace Scheduler

variable {κ : Type} {cfg : Config κ} {s : Scheduler κ} {r : ReqId} {now : ℚ}

def demandAt (cfg : Config κ) (s : Scheduler κ) (r : ReqId) (i : ℕ) : ℚ :=
  s.getRequestTputDemand cfg r (cfg.candidateConfidenceThresholds.getD i 0)

def lowestIdx (cfg : Config κ) : ℕ := cfg.candidateConfidenceThresholds.length - 1

def maxIdx (s : Scheduler κ) (r : ReqId) : ℕ :=
  ((s.getState? r).map RequestState.maxConfidenceThresholdIdx).getD 0

/-! ## What load control writes -/

def Apart (s : Scheduler κ) : Prop := ∀ r ∈ s.requestStates, r ∉ s.deferredRequestStates

theorem getState?_controlLoad (s : Scheduler κ) (idx : ReqId → Option ℕ) (m : ℕ) (r : ReqId) :
    (s.controlLoad idx m).getState? r = (s.getState? r).map (RequestState.relabel (idx r)) := by
  simp only [getState?, Scheduler.controlLoad, Dict.get?_mapEntries]
  cases s.requestStates.get? r with
  | none => rfl
  | some rs => rfl

theorem updateState_controlLoad (happ : s.Apart) (idx : ReqId → Option ℕ) (m : ℕ)
    (hr : (s.getState? r).isSome) (i m' : ℕ) :
    { (s.controlLoad idx m).updateState r fun rs => { rs with maxConfidenceThresholdIdx := i } with
      minMaxConfidenceThresholdIdx := m' } =
    s.controlLoad (Function.update idx r (some i)) m' := by
  have hne : ∀ r', r' ≠ r → RequestState.relabel (Function.update idx r (some i) r') =
      RequestState.relabel (idx r') := by
    intro r' hr'
    rw [Function.update_of_ne hr']
  have hother : ∀ d : Dict ReqId RequestState, r ∉ d →
      (d.mapEntries fun r' => RequestState.relabel (idx r')) =
      d.mapEntries fun r' => RequestState.relabel (Function.update idx r (some i) r') := by
    intro d hd
    apply Dict.mapEntries_congr
    intro r' rs hrs
    rw [hne r']
    rintro rfl
    exact hd (Dict.mem_of_get? hrs)
  have hset : ∀ (d : Dict ReqId RequestState) rs, d.get? r = some rs →
      (d.mapEntries fun r' => RequestState.relabel (idx r')).set r
        { rs with maxConfidenceThresholdIdx := i } =
      d.mapEntries fun r' => RequestState.relabel (Function.update idx r (some i) r') := by
    intro d rs hrs
    rw [← Dict.set_mapEntries hrs hne, Function.update_self]
    rfl
  have hmap : ∀ idx m, s.controlLoad idx m =
      { s with
        requestStates := s.requestStates.mapEntries fun r => RequestState.relabel (idx r)
        deferredRequestStates :=
          s.deferredRequestStates.mapEntries fun r => RequestState.relabel (idx r)
        minMaxConfidenceThresholdIdx := m } := fun _ _ => rfl
  unfold updateState
  cases hrs : s.requestStates.get? r with
  | some rs =>
      have hd : r ∉ s.deferredRequestStates := happ r (Dict.mem_of_get? hrs)
      simp only [hmap, Dict.get?_mapEntries, hrs, Option.map_some, RequestState.relabel]
      rw [← hset _ rs hrs, ← hother _ hd]
  | none =>
      obtain ⟨rs, hds⟩ : ∃ rs, s.deferredRequestStates.get? r = some rs := by
        rw [getState?, hrs, Option.none_or, Option.isSome_iff_exists] at hr
        exact hr
      have hd : r ∉ s.requestStates := (Dict.get?_eq_none_iff _ _).mp hrs
      simp only [hmap, Dict.get?_mapEntries, hrs, hds, Option.map_none, Option.map_some,
        RequestState.relabel]
      rw [← hset _ rs hds, ← hother _ hd]

theorem minIdx_updateState (s : Scheduler κ) (r : ReqId) (f : RequestState → RequestState) :
    (s.updateState r f).minMaxConfidenceThresholdIdx = s.minMaxConfidenceThresholdIdx := by
  unfold updateState
  split
  · rfl
  · split <;> rfl

theorem isPossibleToMeetSlo_controlLoad (cfg : Config κ) (s : Scheduler κ)
    (idx : ReqId → Option ℕ) (m : ℕ) (r : ReqId) (now : ℚ) :
    (s.controlLoad idx m).isPossibleToMeetSlo cfg r now = s.isPossibleToMeetSlo cfg r now := by
  unfold isPossibleToMeetSlo
  rw [getState?_controlLoad]
  cases s.getState? r with
  | none => rfl
  | some rs => rfl

theorem getRequestTputDemand_controlLoad (cfg : Config κ) (s : Scheduler κ)
    (idx : ReqId → Option ℕ) (m : ℕ) (r : ReqId) (conf : ℚ) :
    (s.controlLoad idx m).getRequestTputDemand cfg r conf =
      s.getRequestTputDemand cfg r conf := by
  unfold getRequestTputDemand getNumStepsLeftByType
  rw [getState?_controlLoad]
  cases s.getState? r with
  | none => rfl
  | some rs => rfl

/-! ## The greedy choice -/

theorem isPossibleToMeetSlo_of_nil (hr : (s.getState? r).isSome)
    (hnil : cfg.candidateConfidenceThresholds = []) :
    s.isPossibleToMeetSlo cfg r now = .error .index := by
  obtain ⟨rs, hrs⟩ := Option.isSome_iff_exists.mp hr
  simp [isPossibleToMeetSlo, hrs, hnil]
  rfl

theorem lowestThreshold_eq (hne : cfg.candidateConfidenceThresholds ≠ []) :
    lowestThreshold cfg =
      .ok (cfg.candidateConfidenceThresholds.getD (lowestIdx cfg) 0) := by
  unfold lowestThreshold lowestIdx
  rw [List.getLast?_eq_getElem?, List.getElem?_eq_getElem
    (Nat.sub_lt (List.length_pos_of_ne_nil hne) one_pos)]
  simp [List.getD, List.getElem?_eq_getElem
    (Nat.sub_lt (List.length_pos_of_ne_nil hne) one_pos)]

theorem cumMinTputSuffix_eq (hne : cfg.candidateConfidenceThresholds ≠ []) (l : List ReqId) :
    s.cumMinTputSuffix cfg l = .ok (Greedy.reserves (s.demandAt cfg) (lowestIdx cfg) l) := by
  induction l with
  | nil => rfl
  | cons a l ih =>
      cases l with
      | nil => rfl
      | cons r rest =>
          unfold cumMinTputSuffix
          rw [ih, lowestThreshold_eq hne]
          change Except.ok ((_ + s.demandAt cfg r _) :: _) = Except.ok _
          rw [Greedy.reserves, List.headD_cons, add_comm, ← Greedy.reserve_cons]
          rfl

/-- The scan stops at the first candidate that fits, or at the last one. -/
theorem scanDemands_eq (demand : ℚ → ℚ) (fits : ℚ → Bool) (cs : List ℚ) (k : ℕ)
    (best : Option (ℕ × ℚ)) (hne : cs ≠ []) :
    scanDemands demand fits cs k best =
      some (k + Greedy.pick (fun i => fits (demand (cs.getD i 0))) (cs.length - 1),
        demand (cs.getD
          (Greedy.pick (fun i => fits (demand (cs.getD i 0))) (cs.length - 1)) 0)) := by
  induction cs generalizing k best with
  | nil => exact absurd rfl hne
  | cons c cs ih =>
      unfold scanDemands
      cases cs with
      | nil =>
          by_cases hc : fits (demand c) = true
          · simp [hc, Greedy.pick]
          · simp [hc, Greedy.pick, scanDemands]
      | cons c' cs =>
          by_cases hc : fits (demand c) = true
          · have hpick : Greedy.pick (fun i => fits (demand ((c :: c' :: cs).getD i 0)))
                ((c :: c' :: cs).length - 1) = 0 := by
              apply Nat.le_zero.mp
              apply Greedy.pick_le_of_fits (Nat.zero_le _)
              simpa using hc
            rw [if_pos hc, hpick]
            simp
          · have hpick : Greedy.pick (fun i => fits (demand ((c :: c' :: cs).getD i 0)))
                ((c :: c' :: cs).length - 1) =
                Greedy.pick (fun i => fits (demand ((c' :: cs).getD i 0)))
                  ((c' :: cs).length - 1) + 1 := by
              have h := Greedy.pick_succ
                (fun i => fits (demand ((c :: c' :: cs).getD i 0))) (by simpa using hc)
                cs.length
              simpa using h
            rw [if_neg hc, ih (k + 1) _ (List.cons_ne_nil _ _), hpick, List.getD_cons_succ,
              add_right_comm, add_assoc]

/-- The requests that get the lowest threshold in any case. -/
def cannotMeetSlo (cfg : Config κ) (s : Scheduler κ) (now : ℚ) (r : ReqId) : Bool :=
  s.isPossibleToMeetSlo cfg r now = .ok false

theorem ensures_chooseThreshold (hne : cfg.candidateConfidenceThresholds ≠ [])
    (idx : ReqId → Option ℕ) (m : ℕ) (current suffix : ℚ) :
    ((s.controlLoad idx m).chooseThreshold cfg now r current suffix).Ensures
      (fun err => s.isPossibleToMeetSlo cfg r now = .error err)
      fun x => x.1 = (if s.cannotMeetSlo cfg now r then lowestIdx cfg
          else Greedy.pick (fun i => current + s.demandAt cfg r i + suffix ≤ s.throughputSupply)
            (lowestIdx cfg)) ∧
        x.2 = s.demandAt cfg r x.1 := by
  have hd : (s.controlLoad idx m).getRequestTputDemand cfg r = s.getRequestTputDemand cfg r :=
    funext (getRequestTputDemand_controlLoad cfg s idx m r)
  unfold chooseThreshold
  rw [isPossibleToMeetSlo_controlLoad, hd]
  cases hp : s.isPossibleToMeetSlo cfg r now with
  | error err => exact rfl
  | ok possible =>
      cases possible with
      | false =>
          rw [lowestThreshold_eq hne]
          simp only [cannotMeetSlo, hp, decide_true, if_true]
          exact ⟨rfl, rfl⟩
      | true =>
          rw [ensures_bind, ensures_ok]
          simp only [Bool.not_true, Bool.false_eq_true, if_false]
          rw [scanDemands_eq _ _ _ 0 none hne, zero_add]
          simp only [cannotMeetSlo, hp, Except.ok.injEq, Bool.true_eq_false, decide_false,
            Bool.false_eq_true, if_false]
          exact ⟨rfl, rfl⟩

/-- The loop writes the greedy assignment of the requests still to visit. -/
theorem ensures_assignThresholds (happ : s.Apart)
    (hne : cfg.candidateConfidenceThresholds ≠ []) (l : List ReqId) (hnodup : l.Nodup)
    (hl : ∀ r ∈ l, (s.getState? r).isSome) (idx : ReqId → Option ℕ) (m : ℕ) (spent : ℚ) :
    ((l.zip (Greedy.reserves (s.demandAt cfg) (lowestIdx cfg) l)).foldlM (assignThreshold cfg now)
      (s.controlLoad idx m, spent)).Ensures
      (fun err => ∃ r ∈ l, s.isPossibleToMeetSlo cfg r now = .error err)
      fun x => ∃ idx' m', x.1 = s.controlLoad idx' m' ∧ (∀ r, r ∉ l → idx' r = idx r) ∧
        l.map idx' = (Greedy.assign (s.demandAt cfg) (s.cannotMeetSlo cfg now) (lowestIdx cfg)
          s.throughputSupply spent l).map some ∧
        (m ≤ lowestIdx cfg → m' ≤ lowestIdx cfg) := by
  induction l generalizing idx m spent with
  | nil => exact ⟨idx, m, rfl, fun _ _ => rfl, rfl, id⟩
  | cons r l ih =>
      obtain ⟨hfresh, hnodup⟩ := List.nodup_cons.mp hnodup
      have hr : (s.getState? r).isSome := hl r List.mem_cons_self
      obtain ⟨rs, hrs⟩ := Option.isSome_iff_exists.mp hr
      rw [Greedy.reserves, List.zip_cons_cons, List.foldlM_cons, ensures_bind]
      unfold assignThreshold
      simp only [getState?_controlLoad, hrs, Option.map_some, ensures_bind]
      apply (ensures_chooseThreshold hne idx m spent _).mono
      · intro err herr
        exact ⟨r, List.mem_cons_self, herr⟩
      · rintro ⟨i, demand⟩ ⟨hi, hdemand⟩
        dsimp only at hi hdemand
        simp only [ensures_pure]
        rw [updateState_controlLoad happ idx m hr, hdemand]
        apply (ih hnodup (fun r' hr' => hl r' (List.mem_cons_of_mem r hr')) _ _ _).mono
        · rintro _ ⟨r', hr', herr⟩
          exact ⟨r', List.mem_cons_of_mem r hr', herr⟩
        · rintro x ⟨idx', m', hx, hkeep, hmap, hm⟩
          refine ⟨idx', m', hx, ?_, ?_, ?_⟩
          · intro r' hr'
            rw [List.mem_cons, not_or] at hr'
            rw [hkeep r' hr'.2, Function.update_of_ne hr'.1]
          · rw [List.map_cons, hkeep r hfresh, Function.update_self, hmap, Greedy.assign,
              List.map_cons, ← hi]
          · intro hle
            apply hm
            refine max_le ?_ ?_
            · rw [minIdx_updateState]
              exact hle
            · rw [hi]
              split_ifs
              · exact le_rfl
              · exact Greedy.pick_le _ _

/-! ## The result -/

theorem isSome_getState?_iff (s : Scheduler κ) (r : ReqId) :
    (s.getState? r).isSome ↔ r ∈ s.allReqIds := by
  rw [getState?, Option.isSome_or, Bool.or_eq_true, allReqIds, List.mem_append]
  simp only [Option.isSome_iff_exists, ← Dict.mem_iff_exists]
  exact Iff.rfl

theorem Apart.nodup (h : s.Apart) : s.allReqIds.Nodup :=
  s.requestStates.nodup_keys.append s.deferredRequestStates.nodup_keys fun r hr hd => h r hr hd

theorem ensures_reqsByProgress (s : Scheduler κ) :
    (s.reqsByProgress).Ensures
      (fun err => ∃ r ∈ s.allReqIds, s.unmaskProgress r = .error err)
      fun order => order.Perm s.allReqIds ∧
        order.Pairwise fun r r' => ∀ p p', s.unmaskProgress r = .ok p →
          s.unmaskProgress r' = .ok p' → p' ≤ p := by
  have hkey : ∀ r ∈ s.allReqIds, (do
      let p ← s.unmaskProgress r
      pure (OrderDual.toDual p) : Except PyError ℚᵒᵈ).Ensures
        (fun err => ∃ r ∈ s.allReqIds, s.unmaskProgress r = .error err) fun _ => True := by
    intro r hr
    rw [ensures_bind]
    cases hp : s.unmaskProgress r with
    | error err => exact ⟨r, hr, hp⟩
    | ok p => trivial
  unfold reqsByProgress
  apply ((ensures_sortedByKey _ hkey).and (ensures_sortedByKey_sorted _ hkey)).imp
  rintro order ⟨hperm, hsorted⟩
  refine ⟨hperm, hsorted.imp ?_⟩
  intro r r' h p p' hp hp'
  have hle := h (OrderDual.toDual p) (OrderDual.toDual p') (by rw [hp]; rfl) (by rw [hp']; rfl)
  exact OrderDual.toDual_le_toDual.mp hle

theorem ensures_cumMinTputSuffix (cfg : Config κ) (s : Scheduler κ) (l : List ReqId) :
    (s.cumMinTputSuffix cfg l).Ensures (fun err => err = .index) fun _ => True := by
  induction l with
  | nil => trivial
  | cons a l ih =>
      cases l with
      | nil => trivial
      | cons r rest =>
          unfold cumMinTputSuffix
          apply ih.bind
          intro cum _
          rw [ensures_bind, lowestThreshold]
          cases cfg.candidateConfidenceThresholds.getLast? with
          | none => exact rfl
          | some c => trivial

theorem ensures_of_no_candidates (hnil : cfg.candidateConfidenceThresholds = []) (r : ReqId)
    (l : List ReqId) (hr : (s.getState? r).isSome) (m : ℕ) :
    (do
      let cum ← s.cumMinTputSuffix cfg (r :: l)
      let x ← ((r :: l).zip cum).foldlM (assignThreshold cfg now)
        ({ s with minMaxConfidenceThresholdIdx := m }, 0)
      pure x.1 : Except PyError (Scheduler κ)).Ensures
      (fun err => s.isPossibleToMeetSlo cfg r now = .error err) fun _ => False := by
  have hposs : s.isPossibleToMeetSlo cfg r now = .error .index :=
    isPossibleToMeetSlo_of_nil hr hnil
  cases l with
  | nil =>
      obtain ⟨rs, hrs⟩ := Option.isSome_iff_exists.mp hr
      have hget : ({ s with minMaxConfidenceThresholdIdx := m } : Scheduler κ).getState? r =
          some rs := hrs
      have hposs' : ({ s with minMaxConfidenceThresholdIdx := m } :
          Scheduler κ).isPossibleToMeetSlo cfg r now = .error .index := hposs
      simp only [cumMinTputSuffix, List.zip_cons_cons, List.foldlM_cons, assignThreshold, hget,
        chooseThreshold, hposs', ensures_bind, ensures_ok, ensures_error]
      exact hposs
  | cons r' l =>
      have hlow : lowestThreshold cfg = .error .index := by
        simp [lowestThreshold, hnil]
      unfold cumMinTputSuffix
      rw [ensures_bind, ensures_bind]
      apply (s.ensures_cumMinTputSuffix cfg (r' :: l)).mono
      · rintro err rfl
        exact hposs
      · intro cum _
        rw [hlow]
        exact hposs

/-- The result of load control: indices in the range of the candidates, and the greedy
assignment in the order of progress. -/
theorem ensures_updateRequestMaxConfidenceThresholds (happ : s.Apart) :
    (s.updateRequestMaxConfidenceThresholds cfg now).Ensures
      (fun err => ∃ r ∈ s.allReqIds, s.unmaskProgress r = .error err ∨
        s.isPossibleToMeetSlo cfg r now = .error err)
      fun s' => ∃ order idx m, s' = s.controlLoad idx m ∧ order.Perm s.allReqIds ∧
        (order.Pairwise fun r r' => ∀ p p', s.unmaskProgress r = .ok p →
          s.unmaskProgress r' = .ok p' → p' ≤ p) ∧
        order.map s'.maxIdx = Greedy.assign (s.demandAt cfg) (s.cannotMeetSlo cfg now)
          (lowestIdx cfg) s.throughputSupply 0 order ∧
        m ≤ lowestIdx cfg ∧ ∀ r i, idx r = some i → i ≤ lowestIdx cfg := by
  unfold updateRequestMaxConfidenceThresholds
  rw [ensures_bind]
  apply (s.ensures_reqsByProgress).mono
  · rintro _ ⟨r, hr, herr⟩
    exact ⟨r, hr, Or.inl herr⟩
  rintro order ⟨hperm, hsorted⟩
  have hstate : ∀ r ∈ order, (s.getState? r).isSome :=
    fun r hr => (s.isSome_getState?_iff r).mpr (hperm.subset hr)
  have hstart : ({ s with minMaxConfidenceThresholdIdx := 0 } : Scheduler κ) =
      s.controlLoad (fun _ => none) 0 := by
    change _ = { s with
      requestStates := s.requestStates.mapEntries fun _ rs => rs
      deferredRequestStates := s.deferredRequestStates.mapEntries fun _ rs => rs
      minMaxConfidenceThresholdIdx := 0 }
    rw [Dict.mapEntries_eq_self, Dict.mapEntries_eq_self]
  by_cases hne : cfg.candidateConfidenceThresholds = []
  · cases order with
    | nil =>
        exact ⟨[], fun _ => none, 0, hstart, hperm, List.Pairwise.nil, rfl, Nat.zero_le _,
          fun _ _ hi => by cases hi⟩
    | cons r order =>
        apply (ensures_of_no_candidates hne r order (hstate r List.mem_cons_self) _).mono
        · rintro _ herr
          exact ⟨r, hperm.subset List.mem_cons_self, Or.inr herr⟩
        · exact fun _ hf => hf.elim
  · rw [cumMinTputSuffix_eq hne, ensures_bind, ensures_ok, ensures_bind, hstart]
    apply (ensures_assignThresholds happ hne order (hperm.symm.nodup happ.nodup) hstate _ 0 0).mono
    · rintro _ ⟨r, hr, herr⟩
      exact ⟨r, hperm.subset hr, Or.inr herr⟩
    · rintro ⟨s', spent⟩ ⟨idx, m, hs', hother, hmap, hm⟩
      dsimp only at hs'
      rw [ensures_pure]
      have hrange : ∀ r i, idx r = some i → i ≤ lowestIdx cfg := by
        intro r i hi
        by_cases hr : r ∈ order
        · have hmem := List.mem_map_of_mem (f := idx) hr
          rw [hmap, hi] at hmem
          obtain ⟨j, hj, hij⟩ := List.mem_map.mp hmem
          cases hij
          exact Greedy.le_of_mem_assign hj
        · rw [hother r hr] at hi
          cases hi
      refine ⟨order, idx, m, hs', hperm, hsorted, ?_, hm (Nat.zero_le _), hrange⟩
      have hidx : ∀ r ∈ order, s'.maxIdx r = (idx r).getD 0 := by
        intro r hr
        obtain ⟨rs, hrs⟩ := Option.isSome_iff_exists.mp (hstate r hr)
        have hmem := List.mem_map_of_mem (f := idx) hr
        rw [hmap] at hmem
        obtain ⟨i, -, hi⟩ := List.mem_map.mp hmem
        rw [hs', maxIdx, getState?_controlLoad, hrs, ← hi]
        rfl
      calc order.map s'.maxIdx = (order.map idx).map fun o => o.getD 0 := by
            rw [List.map_map]
            exact List.map_congr_left hidx
        _ = _ := by
            rw [hmap, List.map_map]
            exact List.map_id _

/-- Load control respects the supply and is greedy-optimal. It raises only when the
progress or the deadline test of a request does. Otherwise, with the requests in
decreasing order of progress: if the supply covers all demands at the lowest
candidate, it covers the demands at the indices handed out. If no demand increases
from a candidate to the next lower one, these indices are the lexicographically
smallest ones that give the lowest candidate to every request that cannot meet its
deadline and stay within the supply; and if the supply does not even cover the
lowest demands, every request gets the lowest candidate. -/
theorem load_control_greedy (cfg : Config κ) (s : Scheduler κ) (now : ℚ) (happ : s.Apart) :
    (s.updateRequestMaxConfidenceThresholds cfg now).Ensures
      (fun _ => ∃ r ∈ s.allReqIds, (∃ err, s.unmaskProgress r = .error err) ∨
        ∃ err, s.isPossibleToMeetSlo cfg r now = .error err)
      fun s' =>
        ((s.allReqIds.map fun r => s.demandAt cfg r (lowestIdx cfg)).sum ≤ s.throughputSupply →
          (s.allReqIds.map fun r => s.demandAt cfg r (s'.maxIdx r)).sum ≤ s.throughputSupply) ∧
        ((∀ r ∈ s.allReqIds, ∀ i j, i ≤ j → j ≤ lowestIdx cfg →
            s.demandAt cfg r j ≤ s.demandAt cfg r i) →
          ((s.allReqIds.map fun r => s.demandAt cfg r (lowestIdx cfg)).sum ≤
              s.throughputSupply →
            ∃ order : List ReqId, order.Perm s.allReqIds ∧
              (order.Pairwise fun r r' => ∀ p p', s.unmaskProgress r = .ok p →
                s.unmaskProgress r' = .ok p' → p' ≤ p) ∧
              IsLeast {v : List ℕ |
                List.Forall₂ (fun r i => i ≤ lowestIdx cfg ∧
                  (s.isPossibleToMeetSlo cfg r now = .ok false → i = lowestIdx cfg)) order v ∧
                (List.zipWith (s.demandAt cfg) order v).sum ≤ s.throughputSupply}
                (order.map s'.maxIdx)) ∧
          (s.throughputSupply <
              (s.allReqIds.map fun r => s.demandAt cfg r (lowestIdx cfg)).sum →
            ∀ r ∈ s.allReqIds, s'.maxIdx r = lowestIdx cfg)) := by
  apply (ensures_updateRequestMaxConfidenceThresholds happ).mono
  · rintro err ⟨r, hr, herr | herr⟩
    · exact ⟨r, hr, Or.inl ⟨err, herr⟩⟩
    · exact ⟨r, hr, Or.inr ⟨err, herr⟩⟩
  rintro s' ⟨order, idx, m, -, hperm, hsorted, hassign, -⟩
  have hsum : ∀ f : ReqId → ℚ, (s.allReqIds.map f).sum = (order.map f).sum :=
    fun f => ((hperm.map f).sum_eq).symm
  have hzip : ∀ f : ReqId → ℕ, (List.zipWith (s.demandAt cfg) order (order.map f)).sum =
      (order.map fun r => s.demandAt cfg r (f r)).sum := by
    intro f
    rw [List.zipWith_map_right, List.zipWith_self]
  have hadm : ∀ v, Greedy.Admissible (s.cannotMeetSlo cfg now) (lowestIdx cfg) order v ↔
      List.Forall₂ (fun r i => i ≤ lowestIdx cfg ∧
        (s.isPossibleToMeetSlo cfg r now = .ok false → i = lowestIdx cfg)) order v := by
    intro v
    simp only [Greedy.Admissible, cannotMeetSlo, decide_eq_true_eq]
  refine ⟨?_, ?_⟩
  · intro hlow
    rw [hsum, ← zero_add (List.sum _)] at hlow
    rw [hsum, ← hzip, hassign]
    have hreserve : 0 + Greedy.reserve (s.demandAt cfg) (lowestIdx cfg) order ≤
        s.throughputSupply := hlow
    have hle := Greedy.spent_add_total_assign_le (s.cannotMeetSlo cfg now) hreserve
    rwa [zero_add] at hle
  · intro hdec
    have hdec' : Greedy.Decreasing (s.demandAt cfg) (lowestIdx cfg) order :=
      fun r hr => hdec r (hperm.subset hr)
    refine ⟨?_, ?_⟩
    · intro hlow
      rw [hsum, ← zero_add (List.sum _)] at hlow
      have hleast := Greedy.isLeast_assign (s.cannotMeetSlo cfg now) hdec' hlow
      refine ⟨order, hperm, hsorted, ?_⟩
      rw [hassign]
      simpa only [zero_add, hadm, Greedy.total] using hleast
    · intro hover r hr
      rw [hsum, ← zero_add (List.sum _)] at hover
      rw [Greedy.assign_eq_replicate hdec' hover] at hassign
      have hmem : s'.maxIdx r ∈ order.map s'.maxIdx :=
        List.mem_map_of_mem (hperm.symm.subset hr)
      rw [hassign] at hmem
      exact List.eq_of_mem_replicate hmem

def loadedConfig : Config Unit :=
  { Config.small false false none with candidateConfidenceThresholds := [9 / 10, 1 / 2] }

/-- Two requests of five tokens, the second one further than the first, and a supply
for one of them at each threshold. -/
def loadedScheduler : Scheduler Unit :=
  let rs := RequestState.init ((Dict.empty.set (9 / 10) 4).set (1 / 2) 2) 0
  { Scheduler.empty ExecutorsManager.empty with
    maxTpDegree := 1
    requests := (Dict.empty.set "a" (Request.small "a")).set "b"
      { Request.small "b" with unmaskedTokenIds := [(1, 7)] }
    requestStates := (Dict.empty.set "a" rs).set "b" rs
    throughputSupply := 30 }

/-- The more advanced request keeps the high threshold, the other one gets the low
threshold, and the supply is used up. -/
theorem load_control_greedy_small : ∃ s',
    loadedScheduler.updateRequestMaxConfidenceThresholds loadedConfig 0 = .ok s' ∧
    s'.maxIdx "b" = 0 ∧ s'.maxIdx "a" = 1 ∧
    (loadedScheduler.allReqIds.map fun r =>
      loadedScheduler.demandAt loadedConfig r (s'.maxIdx r)).sum ≤ 30 := by
  have hrun : (loadedScheduler.updateRequestMaxConfidenceThresholds loadedConfig 0).Ensures
      (fun _ => False) fun s' => s'.maxIdx "b" = 0 ∧ s'.maxIdx "a" = 1 := by
    decide +kernel
  have happ : loadedScheduler.Apart := by
    intro r _
    exact Dict.not_mem_empty r
  obtain ⟨s', hs', hb, ha⟩ := hrun.exists_ok
  have hall := ensures_of_ok (load_control_greedy loadedConfig loadedScheduler 0 happ) hs'
  exact ⟨s', hs', hb, ha, hall.1 (by decide +kernel)⟩

end Scheduler

end TeDiServe

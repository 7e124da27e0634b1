import TeDiServe.Load.Control
import TeDiServe.Load.Marks
import TeDiServe.Placement.Budget
import Mathlib.Algebra.Order.Archimedean.Basic
import Mathlib.Tactic.Linarith
import Mathlib.Tactic.Positivity

/-!
# Predicted steps

The predictions of a request are counted down with its steps as long as they are positive,
and a refresh overwrites them. A prediction of less than a step becomes negative with the
next step, and with it the demand of the request, which then makes room for others that
is not there.

Whole numbers of steps stay whole, and non-negative, in every interleaving of the engine
with the thread that refreshes them: it takes the pending requests at one time and writes
their predictions at another.
-/

namespace TeDiServe

/-! ## Whole predictions -/

def Predicted (P : ℚ → Prop) (d : Dict ℚ ℚ) : Prop := ∀ c p, d.get? c = some p → P p

def IsWhole (p : ℚ) : Prop := ∃ n : ℕ, p = n

theorem IsWhole.nonneg {p : ℚ} (h : IsWhole p) : 0 ≤ p := by
  obtain ⟨n, rfl⟩ := h
  exact n.cast_nonneg

theorem IsWhole.sub_one {p : ℚ} (h : IsWhole p) (hp : 0 < p) : IsWhole (p - 1) := by
  obtain ⟨n, rfl⟩ := h
  exact ⟨n - 1, (Nat.cast_pred (Nat.cast_pos.mp hp)).symm⟩

/-- The whole predictions are those that stay non-negative however many steps are counted. -/
theorem isWhole_iff (p : ℚ) : IsWhole p ↔ ∀ n, 0 ≤ (fun p => if 0 < p then p - 1 else p)^[n] p := by
  constructor
  · intro h n
    induction n generalizing p with
    | zero => exact h.nonneg
    | succ n ih =>
        rw [Function.iterate_succ_apply]
        split_ifs with hp
        · exact ih _ (h.sub_one hp)
        · exact ih _ h
  · intro h
    obtain ⟨k, hk⟩ := exists_nat_gt p
    induction k generalizing p with
    | zero => exact absurd (h 0) (not_le.mpr (by simpa using hk))
    | succ k ih =>
        rcases (show 0 ≤ p from h 0).eq_or_lt with rfl | hp
        · exact ⟨0, rfl⟩
        · have hstep : ∀ n, 0 ≤ (fun p => if 0 < p then p - 1 else p)^[n] (p - 1) := by
            intro n
            have hn := h (n + 1)
            rwa [Function.iterate_succ_apply, if_pos hp] at hn
          obtain ⟨n, hn⟩ := ih (p - 1) hstep (by push_cast at hk; linarith)
          exact ⟨n + 1, by push_cast; linarith⟩

theorem Predicted.set {P : ℚ → Prop} {d : Dict ℚ ℚ} (h : Predicted P d) (c : ℚ) {p : ℚ}
    (hp : P p) : Predicted P (d.set c p) := by
  intro c' p' hp'
  rcases Dict.get?_set_cases hp' with ⟨-, rfl⟩ | ⟨-, hp'⟩
  · exact hp
  · exact h c' p' hp'

/-- A well-formed request is in none of the blocks after the last one. -/
theorem Request.WellFormed.numRecomputeStepsLeft_nonneg {req : Request} (h : req.WellFormed) :
    0 ≤ req.numRecomputeStepsLeft := by
  have hpos := h.positive
  unfold Request.numRecomputeStepsLeft Request.isStartOfNewBlock Request.outputLength
  rcases h.live with hlive | ⟨hmax, hnone⟩
  · have hle := (Nat.le_div_iff_mul_le hpos).mpr (h.block_le hlive)
    split_ifs <;> omega
  · have hcount := h.count
    rw [hnone] at hcount
    have hblock : req.curBlock = 0 := by
      rcases Nat.mul_eq_zero.mp (Nat.eq_zero_of_add_eq_zero_right hcount.symm) with h0 | h0
      · exact h0
      · omega
    have hcur : req.curBlockNumUnmaskedTokens = 0 := by omega
    simp [hmax, hblock, hcur]

namespace Scheduler

variable {κ : Type} {cfg : Config κ} {s : Scheduler κ} {predict : ReqId → ℚ → ℚ}

def WholeSteps (_ : ReqId) (rs : RequestState) : Prop := Predicted IsWhole rs.predNumStepsLeft

abbrev Whole : Scheduler κ → Prop := Records WholeSteps Begun

theorem closed_wholeSteps : RequestState.Closed WholeSteps := ⟨id, id, fun _ => id⟩

theorem counts_wholeSteps (cfg : Config κ) : Counts cfg WholeSteps := by
  intro r rs h
  refine List.foldlRecOn _ _ h fun d hd c _ => ?_
  split
  · rename_i p hp
    split_ifs with hpos
    · exact hd.set c ((hd c p hp).sub_one hpos)
    · exact hd
  · exact hd

theorem WholeSteps.refresh {r : ReqId} {rs : RequestState} (h : WholeSteps r rs)
    (hpred : ∀ r c, IsWhole (predict r c)) (l : List ℚ) :
    Predicted IsWhole (l.foldl (fun d c => d.set c (predict r c)) rs.predNumStepsLeft) :=
  List.foldlRecOn _ _ h fun _ hd c _ => hd.set c (hpred r c)

theorem refreshes_wholeSteps (cfg : Config κ) (hpred : ∀ r c, IsWhole (predict r c)) :
    Refreshes cfg predict WholeSteps :=
  fun _ _ _ h => h.refresh hpred _

theorem WholeSteps.of_forecast {r : ReqId} {rs rs' : RequestState} (h : WholeSteps r rs)
    (hkeep : rs'.forecast = rs.forecast) : WholeSteps r rs' := by
  have hsteps : rs'.predNumStepsLeft = rs.predNumStepsLeft := congrArg Prod.snd hkeep
  rw [WholeSteps, hsteps]
  exact h

theorem Course.whole {env : ScheduleEnv} {s₀ s₁ : Scheduler κ} {π π₀ π₁ π₂ : Placement}
    {p : Plan κ} (hc : Course cfg env s π s₀ π₀ s₁ π₁ p π₂)
    (hpred : cfg.syncStepPrediction = true → ∀ r c, IsWhole (env.predict r c)) (h : Whole s) :
    Whole p.scheduler := by
  have hstart := hc.records closed_wholeSteps (fun hs => refreshes_wholeSteps cfg (hpred hs)) h
  rcases hc.derived with ⟨-, -, heq⟩ | ⟨q, -, hin, -, -, hstage⟩
  · rw [heq]
    exact hstart
  obtain ⟨done, hflag, -⟩ := flagged_of_inRound hin hstart.marks hstage
  obtain ⟨es, states, hq, -, -, hkeep⟩ := hin.moved
  refine ⟨?_, ?_, hflag.marks⟩
  · intro r rs hrs
    obtain ⟨rs', hrs', hk⟩ := hflag.active r rs hrs
    rw [hq] at hrs'
    obtain ⟨rs₁, hrs₁, hk'⟩ := Dict.exists_of_map_eq (hkeep r) hrs'
    exact (hstart.active r rs₁ hrs₁).of_forecast (hk.forecast.trans hk')
  · intro r rs hrs
    obtain ⟨rs', hrs', hk⟩ := hflag.deferred r rs hrs
    rw [hq] at hrs'
    exact (hstart.deferred r rs' hrs').of_forecast hk.forecast

theorem ensures_schedule_whole {π : Placement} (env : ScheduleEnv) (h : Refines s π)
    (hl : Ledger cfg s) (hkey : s.executorsManager.Keyed)
    (hpred : cfg.syncStepPrediction = true → ∀ r c, IsWhole (env.predict r c)) (hw : Whole s) :
    (s.schedule cfg env).Ensures (fun _ => True) fun x => Whole x.1 := by
  apply (ensures_schedule_course env h hl hkey).mono (fun _ _ => trivial)
  rintro x ⟨p, π₁, π₂, outs, -, -, -, ⟨s₀, π₀, s₁, hc⟩, hloop⟩
  have hx := ensures_of_ok (ensures_stage6_of (P := Whole) (fun _ _ h => h.of_eq rfl rfl rfl rfl)
    (fun _ r rs _ h hrs => h.setActive (h.active r rs hrs))
    (fun _ _ _ _ h _ => h.of_eq rfl rfl rfl rfl) (fun _ _ _ h => h.of_eq rfl rfl rfl rfl) env
    p.found _ _ (hc.whole hpred hw)) hloop
  exact hx

/-! ## The refreshing thread -/

/-- The first half of a refresh: the pending requests that have unmasked enough tokens. -/
def getStepEstimateBatch (cfg : Config κ) (s : Scheduler κ) : List (ReqId × ℕ) :=
  s.stepEstimatePendingReqIds.items.filterMap fun r =>
    match s.requests.get? r, s.getState? r with
    | some req, some rs =>
        if (req.numUnmaskedTokens : ℤ) - rs.lastStepEstimateRefreshUnmaskedTokens <
            cfg.stepEstimatorRefreshUnmaskedTokenDelta then none
        else some (r, req.numUnmaskedTokens)
    | _, _ => none

/-- The second half: the predictions are written to the records that are still there. -/
def writeStepEstimates (cfg : Config κ) (predict : ReqId → ℚ → ℚ) (batch : List (ReqId × ℕ))
    (s : Scheduler κ) : Scheduler κ :=
  if cfg.candidateConfidenceThresholds = [] then s
  else
    batch.foldl (fun s x =>
      s.updateState x.1 fun rs =>
        { rs with
          predNumStepsLeft := cfg.candidateConfidenceThresholds.foldl
            (fun d c => d.set c (predict x.1 c)) rs.predNumStepsLeft
          lastStepEstimateRefreshUnmaskedTokens := x.2
          confidenceThresholdDirty := true }) s

theorem soft_writeStepEstimates (cfg : Config κ) (predict : ReqId → ℚ → ℚ)
    (batch : List (ReqId × ℕ)) (s : Scheduler κ) :
    Soft s (s.writeStepEstimates cfg predict batch) := by
  unfold writeStepEstimates
  split_ifs
  · exact Soft.refl s
  · apply Soft.foldl
    exact fun s x => soft_updateState s x.1 fun _ => rfl

theorem whole_writeStepEstimates (hpred : ∀ r c, IsWhole (predict r c))
    (batch : List (ReqId × ℕ)) (h : Whole s) : Whole (s.writeStepEstimates cfg predict batch) := by
  unfold writeStepEstimates
  split_ifs
  · exact h
  · exact List.foldlRecOn _ _ h fun s hs x _ => hs.updateState x.1 fun rs hrs =>
      WholeSteps.refresh hrs hpred _

/-! ## What is computed from predictions -/

structure Sound (s : Scheduler κ) : Prop where
  whole : Whole s
  healthy : ∀ r req, s.requests.get? r = some req → req.WellFormed

def Timed (cfg : Config κ) : Prop :=
  ∀ d p, cfg.latencyProfiles.get? d = some p → ∀ x ∈ p.profile, 0 ≤ x.2

namespace Sound

theorem predicted (h : Sound s) {r : ReqId} {rs : RequestState} (hrs : s.getState? r = some rs) :
    Predicted IsWhole rs.predNumStepsLeft := by
  rcases Option.or_eq_some_iff.mp hrs with hrs | ⟨-, hrs⟩
  · exact h.whole.active r rs hrs
  · exact h.whole.deferred r rs hrs

theorem ensures_getNumStepsLeftByType (h : Sound s) (r : ReqId) (conf : ℚ) :
    (s.getNumStepsLeftByType cfg r conf).Ensures (fun _ => True) fun x => 0 ≤ x.1 ∧ 0 ≤ x.2 := by
  unfold getNumStepsLeftByType
  split
  · exact ⟨le_rfl, le_rfl⟩
  · rename_i rs hrs
    rw [ensures_bind, ensures_subscript]
    refine ⟨fun p hp => ?_, fun _ => trivial⟩
    split_ifs
    · exact ⟨(h.predicted hrs conf p hp).nonneg, le_max_left _ _⟩
    · rw [ensures_bind, ensures_subscript]
      refine ⟨fun req hreq => ⟨?_, le_max_left _ _⟩, fun _ => trivial⟩
      exact Int.cast_nonneg (h.healthy r req hreq).numRecomputeStepsLeft_nonneg
    · trivial

theorem getRequestTputDemand_nonneg (h : Sound s) (r : ReqId) (conf : ℚ) :
    0 ≤ s.getRequestTputDemand cfg r conf := by
  have hdemand : (do
      let steps ← s.getNumStepsLeftByType cfg r conf
      let req ← subscript s.requests .requests r
      pure (steps.1 * req.numTokens + steps.2 * req.denoiseBlockSize) :
        Except PyError ℚ).Ensures (fun _ => True) (0 ≤ ·) := by
    refine (h.ensures_getNumStepsLeftByType r conf).bind fun x hx =>
      ensures_bind_any _ fun req => ?_
    obtain ⟨hfull, hcached⟩ := hx
    rw [ensures_pure]
    positivity
  unfold getRequestTputDemand
  dsimp only
  split
  · rename_i d hd
    exact ensures_of_ok hdemand hd
  · exact le_rfl

theorem ensures_getProfileLatency_nonneg (hcfg : Timed cfg) (d n : ℕ) :
    (getProfileLatency cfg d n).Ensures (fun _ => True) fun x => 0 ≤ x.2 := by
  unfold getProfileLatency LatencyProfile.lookup
  rw [ensures_bind, ensures_subscript]
  refine ⟨fun p hp => ?_, fun _ => trivial⟩
  split
  · rename_i x hx
    split_ifs at hx
    exact hcfg d p hp x (List.mem_of_find?_eq_some hx)
  · trivial

theorem ensures_getEstimatedTimeLeft (h : Sound s) (hcfg : Timed cfg) (r : ReqId) (d : ℕ)
    (batch : List ReqId) (conf : ℚ) :
    (s.getEstimatedTimeLeft cfg r d batch conf).Ensures (fun _ => True) (0 ≤ ·) := by
  have hcached : (s.cacheStepLatency cfg r d batch).Ensures (fun _ => True) (0 ≤ ·) := by
    unfold cacheStepLatency
    split_ifs
    · exact le_rfl
    · exact ensures_bind_any _ fun n =>
        (ensures_getProfileLatency_nonneg hcfg d n).bind fun _ hx => hx
    · exact ensures_bind_any _ fun req =>
        (ensures_getProfileLatency_nonneg hcfg d _).bind fun _ hx => hx
    · trivial
  refine ensures_bind_any _ fun n =>
    (ensures_getProfileLatency_nonneg hcfg d n).bind fun full hfull =>
    (h.ensures_getNumStepsLeftByType r conf).bind fun steps hsteps =>
    hcached.bind fun cached hc => ?_
  obtain ⟨hone, htwo⟩ := hsteps
  rw [ensures_pure]
  positivity

/-- Load control takes back nothing that it has counted. -/
theorem ensures_assignThreshold (h : Sound s) (idx : ReqId → Option ℕ) (m : ℕ) (now total : ℚ)
    (y : ReqId × ℚ) :
    (assignThreshold cfg now (s.controlLoad idx m, total) y).Ensures (fun _ => True) fun x =>
      total ≤ x.2 := by
  unfold assignThreshold
  dsimp only
  split
  · exact le_rfl
  · rename_i rs hrs
    by_cases hnil : cfg.candidateConfidenceThresholds = []
    · unfold chooseThreshold
      rw [isPossibleToMeetSlo_of_nil (Option.isSome_of_mem hrs) hnil]
      trivial
    · apply ((ensures_chooseThreshold hnil idx m total y.2).mono (fun _ _ => trivial)
        fun _ hx => hx).bind
      rintro x ⟨-, hx⟩
      rw [ensures_pure, hx]
      exact le_add_of_nonneg_right (h.getRequestTputDemand_nonneg y.1 _)

end Sound

/-- Nothing that is computed from predictions is negative, and no request lowers the demand
that load control has counted, which changes indices only. -/
structure NonNegative (cfg : Config κ) (s : Scheduler κ) : Prop where
  predictions : ∀ r rs c p, s.getState? r = some rs → rs.predNumStepsLeft.get? c = some p → 0 ≤ p
  demand : ∀ r c, 0 ≤ s.getRequestTputDemand cfg r c
  time : ∀ r d batch c t, s.getEstimatedTimeLeft cfg r d batch c = .ok t → 0 ≤ t
  counted : ∀ idx m now total y x,
    assignThreshold cfg now (s.controlLoad idx m, total) y = .ok x → total ≤ x.2

theorem Sound.nonNegative (h : Sound s) (hcfg : Timed cfg) : NonNegative cfg s where
  predictions _ _ c p hrs hp := (h.predicted hrs c p hp).nonneg
  demand := h.getRequestTputDemand_nonneg
  time r d batch c _ := ensures_of_ok (h.ensures_getEstimatedTimeLeft hcfg r d batch c)
  counted idx m now total y _ := ensures_of_ok (h.ensures_assignThreshold idx m now total y)

end Scheduler

/-! ## Runs -/

open Scheduler

/-- What may happen next: a call of the engine, or a half of a refresh. -/
inductive RefreshEvent where
  | call (c : Call)
  | take
  | write (predict : ReqId → ℚ → ℚ)

/-- What the estimator returns in the event. -/
def RefreshEvent.estimates? {κ : Type} (cfg : Config κ) :
    RefreshEvent → Option (ReqId → ℚ → ℚ)
  | .call (.schedule env) => if cfg.syncStepPrediction then some env.predict else none
  | .call (.refreshEstimates predict) => some predict
  | .write predict => some predict
  | _ => none

/-- The calls of the engine, and the batch that the refreshing thread has taken and not
yet written. -/
structure Refreshing (κ : Type) where
  calls : Calls κ
  batch : List (ReqId × ℕ)

namespace Refreshing

variable {κ : Type} {cfg : Config κ} {x y : Refreshing κ} {v : RefreshEvent}

def next (cfg : Config κ) (x : Refreshing κ) : RefreshEvent → Except PyError (Refreshing κ)
  | .call c => do
      let t ← x.calls.next cfg c
      pure { x with calls := t }
  | .take => .ok
      { calls :=
          { x.calls with
            scheduler := { x.calls.scheduler with stepEstimatePendingReqIds := OrderedSet.empty } }
        batch := x.calls.scheduler.getStepEstimateBatch cfg }
  | .write predict => .ok
      { calls :=
          { x.calls with
            scheduler := x.calls.scheduler.writeStepEstimates cfg predict x.batch }
        batch := [] }

/-- A step of a genuine engine in which all that the estimator returns satisfies `P`. -/
structure Step (cfg : Config κ) (P : ℚ → Prop) (x : Refreshing κ) (v : RefreshEvent)
    (y : Refreshing κ) : Prop where
  genuine : ∀ c, v = .call c → x.calls.Possible cfg c ∧ x.calls.Genuine c
  estimates : ∀ predict ∈ v.estimates? cfg, ∀ r c, P (predict r c)
  next_eq : x.next cfg v = .ok y

abbrev Reachable (cfg : Config κ) (P : ℚ → Prop) : Refreshing κ → Prop :=
  Transition.Reachable (fun x => Calls.Init cfg x.calls ∧ x.batch = []) (Step cfg P)

structure Good (cfg : Config κ) (t : Calls κ) : Prop where
  consistent : t.Consistent cfg
  sound : Sound t.scheduler

/-- The writes of the refreshing thread. -/
theorem Good.of_soft {t : Calls κ} {s : Scheduler κ} (h : Good cfg t) (hsoft : Soft t.scheduler s)
    (hw : Whole s) : Good cfg { t with scheduler := s } := by
  obtain ⟨π, hπ⟩ := h.consistent.refines
  have he : Calls.Effect cfg t π (.refreshEstimates fun _ _ => 0) { t with scheduler := s } π :=
    .refreshEstimates hsoft
  exact ⟨(he.consistent h.consistent hπ).1, hw, he.healthy trivial h.sound.healthy⟩

theorem Good.next (hcfg : ∀ req, Predicted IsWhole (cfg.getInitialDefaultPredictions req))
    {t t' : Calls κ} {c : Call} (h : Good cfg t) (hpos : t.Possible cfg c) (hgen : t.Genuine c)
    (hest : ∀ predict ∈ (RefreshEvent.call c).estimates? cfg, ∀ r k, IsWhole (predict r k))
    (hnext : t.next cfg c = .ok t') : Good cfg t' := by
  have hstep : Calls.Step cfg (fun _ _ => True) t c t' := ⟨hpos, trivial, hnext⟩
  obtain ⟨π, π', hπ, he⟩ := h.consistent.effect hstep
  refine ⟨(he.consistent h.consistent hπ).1, ?_, he.healthy hgen h.sound.healthy⟩
  have hrecords := Calls.ensures_next_records cfg closed_wholeSteps (fun _ _ _ hrs => hrs)
    (counts_wholeSteps cfg) h.sound.whole c ?_ ?_ ?_
  · rw [hnext] at hrecords
    exact hrecords
  · exact fun req _ => hcfg req
  · rintro env rfl
    exact ensures_schedule_whole env hπ h.consistent.ledger h.consistent.keyed
      (fun hsync => hest _ (if_pos hsync)) h.sound.whole
  · rintro predict rfl
    exact refreshes_wholeSteps cfg (hest _ rfl)

theorem Reachable.good (hcfg : ∀ req, Predicted IsWhole (cfg.getInitialDefaultPredictions req))
    (h : Reachable cfg IsWhole x) : Good cfg x.calls := by
  apply h.invariant
  · rintro x ⟨hx, -⟩
    exact ⟨Calls.consistent_of_init hx, Calls.records_of_init closed_wholeSteps nofun hx,
      Calls.healthy_of_init hx⟩
  · rintro x v y - hx ⟨hgen, hest, hnext⟩
    cases v with
    | call c =>
        obtain ⟨t, ht, hy⟩ := bind_eq_ok.mp hnext
        cases hy
        exact hx.next hcfg (hgen c rfl).1 (hgen c rfl).2 hest ht
    | take =>
        cases hnext
        exact hx.of_soft ⟨_, _, _, _, rfl, fun _ => rfl, fun _ => rfl,
          fun r hr => absurd hr (OrderedSet.not_mem_empty r)⟩ (hx.sound.whole.of_eq rfl rfl rfl rfl)
    | write predict =>
        cases hnext
        exact hx.of_soft (soft_writeStepEstimates cfg predict _ _)
          (whole_writeStepEstimates (hest predict rfl) _ hx.sound.whole)

/-- In every interleaving of the engine with the refreshing thread, if the estimator and the
defaults predict whole numbers of steps, then predictions stay non-negative, with all that
is computed from them. -/
theorem predictions_nonnegative (cfg : Config κ)
    (hcfg : ∀ req, Predicted IsWhole (cfg.getInitialDefaultPredictions req)) (htimed : Timed cfg)
    (h : Reachable cfg IsWhole x) : NonNegative cfg x.calls.scheduler :=
  (Reachable.good hcfg h).sound.nonNegative htimed

def Unasked (cfg : Config κ) (t : Calls κ) (c : Call) : Prop :=
  t.Genuine c ∧ (RefreshEvent.call c).estimates? cfg = none

/-- A run of calls that do not ask the estimator, with nothing done by the thread. -/
theorem reachable_of_calls {P : ℚ → Prop} {t : Calls κ}
    (h : Calls.Reachable cfg (Unasked cfg) t) : Reachable cfg P ⟨t, []⟩ := by
  apply h.invariant
  · exact fun t ht => .start ⟨ht, rfl⟩
  · rintro t c t' - ht ⟨hpos, ⟨hgen, hnone⟩, hnext⟩
    refine ht.next (a := .call c) ⟨?_, ?_, ?_⟩
    · rintro _ ⟨⟩
      exact ⟨hpos, hgen⟩
    · rw [hnone]
      nofun
    · rw [Refreshing.next, hnext]
      rfl

/-- A refresh after every token, and `p` steps predicted at first. -/
def predictedConfig (p : ℚ) : Config Unit :=
  { Config.small false false none with
    stepEstimatorRefreshUnmaskedTokenDelta := 1
    getInitialDefaultPredictions := fun _ => Dict.empty.set (9 / 10) p }

theorem predicted_predictedConfig {P : ℚ → Prop} {p : ℚ} (hp : P p) (req : Request) :
    Predicted P ((predictedConfig p).getInitialDefaultPredictions req) :=
  Predicted.set (fun _ _ hnone => by cases hnone) _ hp

/-- The prediction for a request. -/
def left? (s : Scheduler Unit) : Option ℚ :=
  (s.getState? "a").bind fun rs => rs.predNumStepsLeft.get? (9 / 10)

/-- One step of a request. -/
theorem reachable_predicted (P : ℚ → Prop) (p : ℚ) {Q : Calls Unit → Prop}
    (hQ : (Calls.replay (predictedConfig p) (fun t c => t.genuine? c &&
      ((RefreshEvent.call c).estimates? (predictedConfig p)).isNone) [(0, [0])]
      [.addRequest (Request.small "a"), .schedule .still, .startExecution 0,
        .finishExecution 0 ⟨Dict.empty.set "a" 0, [[(1, 7)]]⟩, .updateFromOutput 0]).Ensures
      (fun _ => False) Q) :
    ∃ t, Reachable (predictedConfig p) P ⟨t, []⟩ ∧ Q t := by
  have htest : ∀ t c, (t.genuine? c &&
      ((RefreshEvent.call c).estimates? (predictedConfig p)).isNone) = true →
        Unasked (predictedConfig p) t c := by
    intro t c hc
    rw [Bool.and_eq_true, Option.isNone_iff_eq_none] at hc
    exact hc.imp_left (Calls.genuine_of_genuine? t c)
  obtain ⟨t, ht, hq⟩ := exists_of_ensures (Calls.reachable_of_replay _ htest _ _) hQ
  exact ⟨t, reachable_of_calls ht, hq⟩

/-- A request with four predicted steps makes one; then the thread takes it and predicts
two. -/
theorem predictions_nonnegative_small : ∃ x : Refreshing Unit,
    Reachable (predictedConfig 4) IsWhole x ∧ left? x.calls.scheduler = some 2 ∧
    NonNegative (predictedConfig 4) x.calls.scheduler := by
  obtain ⟨t, hstart, hleft⟩ := reachable_predicted IsWhole 4 (Q := fun t =>
    left? ({ t.scheduler with stepEstimatePendingReqIds := OrderedSet.empty }.writeStepEstimates
      (predictedConfig 4) (fun _ _ => 2) (t.scheduler.getStepEstimateBatch (predictedConfig 4))) =
        some 2) (by decide +kernel)
  have htake := hstart.next (a := .take) ⟨nofun, nofun, rfl⟩
  have htwo : ∀ predict ∈ (RefreshEvent.write fun _ _ => 2).estimates? (predictedConfig 4),
      ∀ r c, IsWhole (predict r c) := by
    rintro _ ⟨⟩ r c
    exact ⟨2, rfl⟩
  have hend := htake.next (a := .write fun _ _ => 2) ⟨nofun, htwo, rfl⟩
  have htimed : Timed (predictedConfig 4) := by
    intro d p hp x hx
    rcases Dict.get?_set_cases hp with ⟨-, rfl⟩ | ⟨-, hp⟩
    · rw [List.mem_singleton.mp hx]
      exact zero_le_one
    · cases hp
  exact ⟨_, hend, hleft, predictions_nonnegative (predictedConfig 4)
    (predicted_predictedConfig ⟨4, rfl⟩) htimed hend⟩

/-- Half a step is predicted, and a step is made: half a step less than none is left, and
the demand of the request is negative. -/
theorem prediction_negative :
    (∀ req, Predicted (0 ≤ ·) ((predictedConfig (1 / 2)).getInitialDefaultPredictions req)) ∧
    ∃ x : Refreshing Unit, Reachable (predictedConfig (1 / 2)) (0 ≤ ·) x ∧
      left? x.calls.scheduler = some (-1 / 2) ∧
      x.calls.scheduler.getRequestTputDemand (predictedConfig (1 / 2)) "a" (9 / 10) < 0 := by
  obtain ⟨t, ht, hneg⟩ := reachable_predicted (0 ≤ ·) (1 / 2) (Q := fun t =>
    left? t.scheduler = some (-1 / 2) ∧
    t.scheduler.getRequestTputDemand (predictedConfig (1 / 2)) "a" (9 / 10) < 0)
    (by decide +kernel)
  exact ⟨predicted_predictedConfig (by positivity), _, ht, hneg⟩

end Refreshing

end TeDiServe

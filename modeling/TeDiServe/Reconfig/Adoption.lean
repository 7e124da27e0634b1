import TeDiServe.Reconfig.Planner
import Mathlib.Tactic.Linarith

/-!
# When a plan is adopted

The planner compares the best plan with the best one that keeps the counts of the current
configuration, and it adopts the former if it is better by a tenth. The comparison
multiplies the objectives by `1.1`, which makes a negative objective smaller. The slack is
negative under overload, and then a plan that is as good as the current configuration, or
a little worse, is taken for an improvement.
-/

namespace TeDiServe

/-- There is a reason to change the configuration: its counts have no solution, or the
confidence gets better by more than a tenth, or the slack gets better and the confidence
not worse. -/
def PlannerAnswers.Improves (a : PlannerAnswers) : Prop :=
  a.fixed.solCount = 0 ∨ ∃ confFree slackFree confFixed slackFixed : ℚ,
    a.free.objectives = some (confFree, slackFree) ∧
    a.fixed.objectives = some (confFixed, slackFixed) ∧
    (confFixed + |confFixed| / 10 < confFree ∨
      confFixed ≤ confFree ∧ slackFixed < slackFree)

/-- Objectives that are taken for an improvement: a negative confidence that gets worse by
less than a tenth, or a confidence that is about the same with a slack that does not get
better, if the confidence is negative or the slack is negative and gets worse by less than
a tenth. -/
def Misjudged (confFree slackFree confFixed slackFixed : ℚ) : Prop :=
  confFixed < 0 ∧ confFixed * (11 / 10) < confFree ∧ confFree < confFixed ∨
    confFixed ≤ confFree ∧ confFree ≤ confFixed + |confFixed| / 10 ∧ slackFree ≤ slackFixed ∧
      (confFixed < 0 ∨ slackFixed * (11 / 10) < slackFree)

theorem misjudged_iff (confFree slackFree confFixed slackFixed : ℚ) :
    Misjudged confFree slackFree confFixed slackFixed ↔
      (confFree > confFixed * (11 / 10) ∨
        confFree ≥ confFixed ∧ slackFree > slackFixed * (11 / 10)) ∧
      ¬(confFixed + |confFixed| / 10 < confFree ∨
        confFixed ≤ confFree ∧ slackFixed < slackFree) := by
  unfold Misjudged
  rcases lt_or_ge confFixed 0 with hneg | hpos
  · rw [abs_of_neg hneg]
    constructor
    · rintro (⟨-, hlow, hhigh⟩ | ⟨hle, hclose, hslack, -⟩)
      · refine ⟨Or.inl hlow, ?_⟩
        rintro (h | h) <;> linarith
      · refine ⟨Or.inl (by linarith), ?_⟩
        rintro (h | h) <;> linarith
    · rintro ⟨hadopt, hno⟩
      rw [not_or, not_and_or, not_lt, not_le, not_lt] at hno
      obtain ⟨hclose, hlt | hslack⟩ := hno
      · refine Or.inl ⟨hneg, ?_, hlt⟩
        rcases hadopt with h | h
        · exact h
        · linarith
      · rcases lt_or_ge confFree confFixed with hlt | hle
        · refine Or.inl ⟨hneg, ?_, hlt⟩
          rcases hadopt with h | h
          · exact h
          · linarith
        · exact Or.inr ⟨hle, hclose, hslack, Or.inl hneg⟩
  · rw [abs_of_nonneg hpos]
    constructor
    · rintro (⟨h, -⟩ | ⟨hle, hclose, hslack, h | hlow⟩)
      · linarith
      · linarith
      · refine ⟨Or.inr ⟨hle, hlow⟩, ?_⟩
        rintro (h | h) <;> linarith
    · rintro ⟨hadopt, hno⟩
      rw [not_or, not_and_or, not_lt, not_le, not_lt] at hno
      obtain ⟨hclose, hrest⟩ := hno
      rcases hadopt with h | ⟨hle, hlow⟩
      · linarith
      · refine Or.inr ⟨hle, hclose, ?_, Or.inr hlow⟩
        rcases hrest with h | h
        · linarith
        · exact h

theorem adoptsFree_of_departs {nodeToBundles : Dict String (List ℕ)} {degrees : List ℕ}
    {hasWorkload : Bool} {current new : ExecutorConfig} {answers : PlannerAnswers}
    (h : planReconfiguration nodeToBundles degrees hasWorkload current answers = .ok new)
    (hne : new ≠ current) : adoptsFree answers = true := by
  by_contra hno
  have hkeep : (planReconfiguration nodeToBundles degrees hasWorkload current answers).Ensures
      (fun _ => True) fun new => new = current := by
    unfold planReconfiguration
    split_ifs
    · rfl
    · apply ensures_bind_any
      intro newConfigFree
      apply ensures_bind_any
      intro _
      rfl
  have hsame := ensures_of_ok hkeep h
  exact hne hsame

/-! ## A plan that departs -/

def twoBundles : Dict String (List ℕ) := Dict.empty.set "n" [0, 1]

def pairedConfig : ExecutorConfig := Dict.empty.set 0 [0, 1]

def splitSlots : SlotValues where
  u := fun s => s.tpDegree = 1
  a := fun s b => s.tpDegree = 1 ∧ s.index = b
  mKeep := fun _ _ => false

def splitAnswers (solFree solFixed : ℕ) (objFree objFixed : Option (ℚ × ℚ)) : PlannerAnswers where
  free := ⟨Dict.empty.set ("n", 1) 2, solFree, objFree⟩
  fixed := ⟨Dict.empty.set ("n", 2) 1, solFixed, objFixed⟩
  slots := splitSlots

theorem departs_of_adoptsFree (solFree solFixed : ℕ) (objFree objFixed : Option (ℚ × ℚ))
    (h : adoptsFree (splitAnswers solFree solFixed objFree objFixed) = true) :
    ∃ new, planReconfiguration twoBundles [2, 1] true pairedConfig
      (splitAnswers solFree solFixed objFree objFixed) = .ok new ∧ new ≠ pairedConfig := by
  have hmove : (getMinimumMovementConfig twoBundles [2, 1] (Dict.empty.set ("n", 1) 2)
      pairedConfig splitSlots).Ensures (fun _ => False) fun new =>
        (checkPlan twoBundles pairedConfig new).Ensures (fun _ => False) fun _ =>
          new.keys = [1, 2] := by
    decide +kernel
  have hplan : (planReconfiguration twoBundles [2, 1] true pairedConfig
      (splitAnswers solFree solFixed objFree objFixed)).Ensures (fun _ => False) fun new =>
        new.keys = [1, 2] := by
    unfold planReconfiguration
    rw [if_neg (by decide), h, ensures_bind]
    apply hmove.imp
    intro new hcheck
    rw [ensures_bind]
    exact hcheck
  obtain ⟨new, hok, hkeys⟩ := hplan.exists_ok
  refine ⟨new, hok, fun hc => ?_⟩
  rw [hc] at hkeys
  exact absurd hkeys (by decide)

/-- The planner departs from the current configuration only with a reason, exactly if the
objectives are not misjudged. -/
theorem departs_only_on_improvement_iff (solFree solFixed : ℕ) (objFree objFixed : Option (ℚ × ℚ)) :
    (∀ nodeToBundles degrees hasWorkload current new xFree xFixed slots,
      planReconfiguration nodeToBundles degrees hasWorkload current
        ⟨⟨xFree, solFree, objFree⟩, ⟨xFixed, solFixed, objFixed⟩, slots⟩ = .ok new →
      new ≠ current →
      PlannerAnswers.Improves ⟨⟨xFree, solFree, objFree⟩, ⟨xFixed, solFixed, objFixed⟩, slots⟩) ↔
    (solFixed ≠ 0 → ∀ confFree slackFree confFixed slackFixed,
      objFree = some (confFree, slackFree) → objFixed = some (confFixed, slackFixed) →
      ¬Misjudged confFree slackFree confFixed slackFixed) := by
  constructor
  · rintro hall hsol confFree slackFree confFixed slackFixed rfl rfl hmis
    obtain ⟨hadopt, hno⟩ := (misjudged_iff _ _ _ _).mp hmis
    obtain ⟨new, hok, hne⟩ := departs_of_adoptsFree solFree solFixed
      (some (confFree, slackFree)) (some (confFixed, slackFixed)) (by
        simp [adoptsFree, splitAnswers, hsol, hadopt])
    rcases hall _ _ _ _ new _ _ _ hok hne with hzero | ⟨cf, sf, cx, sx, hf, hx, himp⟩
    · exact hsol hzero
    · cases hf
      cases hx
      exact hno himp
  · intro hcond nodeToBundles degrees hasWorkload current new xFree xFixed slots hok hne
    have hadopt := adoptsFree_of_departs hok hne
    unfold adoptsFree at hadopt
    by_cases hsol : solFixed = 0
    · exact Or.inl hsol
    · rw [if_neg hsol] at hadopt
      cases objFree with
      | none => cases hadopt
      | some objFree =>
          cases objFixed with
          | none => cases hadopt
          | some objFixed =>
              obtain ⟨confFree, slackFree⟩ := objFree
              obtain ⟨confFixed, slackFixed⟩ := objFixed
              have hno := hcond hsol confFree slackFree confFixed slackFixed rfl rfl
              rw [misjudged_iff, not_and, not_not] at hno
              exact Or.inr ⟨confFree, slackFree, confFixed, slackFixed, rfl, rfl,
                hno (of_decide_eq_true hadopt)⟩

/-- With the same confidence and the same negative slack the executor is killed and two
others are launched. -/
theorem departs_with_equal_objectives : ∃ new,
    planReconfiguration twoBundles [2, 1] true pairedConfig
      (splitAnswers 1 1 (some (1 / 2, -1)) (some (1 / 2, -1))) = .ok new ∧
    new ≠ pairedConfig ∧
    ¬(splitAnswers 1 1 (some (1 / 2, -1)) (some (1 / 2, -1))).Improves := by
  obtain ⟨new, hok, hne⟩ := departs_of_adoptsFree 1 1 (some (1 / 2, -1)) (some (1 / 2, -1))
    (by decide +kernel)
  refine ⟨new, hok, hne, ?_⟩
  rintro (hzero | ⟨cf, sf, cx, sx, hf, hx, himp⟩)
  · exact absurd hzero (by decide)
  · cases hf
    cases hx
    rw [abs_of_pos (by norm_num)] at himp
    norm_num at himp

end TeDiServe

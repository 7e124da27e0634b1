import TeDiServe.Engine.Calls
import TeDiServe.Library.Lists
import Mathlib.Algebra.BigOperators.Ring.Finset

/-!
# The workload monitor

The resource manager plans for the workload of a sliding time window. The monitor
appends every arrival to a queue, drops expired arrivals from the left end whenever the
workload is read, and describes the rest as classes of similar lengths with a rate each.

The queue is in the order of recording and not of arrival. What a reader sees is
therefore the recorded list without its longest expired beginning, whenever the earlier
readers came, and it is the window exactly if no expired request was recorded after one
of the window.
-/

namespace TeDiServe

/-! ## Expiry from the left end -/

/-! ## The monitor -/

structure RequestArrivalStats where
  requestId : ReqId
  arrivalTime : ℚ
  promptLength : ℕ
  outputLength : ℕ
  latencySlo : Option ℚ
  deriving DecidableEq

structure WorkloadClass where
  promptLength : ℕ
  outputLength : ℕ
  slo : ℚ
  rps : ℚ
  deriving DecidableEq

/-- `math.ceil(n / 256) * 256`. -/
def lengthBin (n : ℕ) : ℕ := (n + 255) / 256 * 256

theorem lengthBin_eq_iff (n k : ℕ) :
    lengthBin n = lengthBin k ↔ lengthBin k < n + 256 ∧ n ≤ lengthBin k := by
  unfold lengthBin
  omega

namespace RequestArrivalStats

def fromRequest (request : Request) : RequestArrivalStats where
  requestId := request.requestId
  arrivalTime := request.arrivalTime
  promptLength := request.promptTokenIds.length
  outputLength := request.maxTokens
  latencySlo := request.latencySlo

def bins (req : RequestArrivalStats) : ℕ × ℕ :=
  (lengthBin req.promptLength, lengthBin req.outputLength)

/-- Adding up the SLOs fails at one that is not set. -/
def getSlo (req : RequestArrivalStats) : Except PyError ℚ :=
  match req.latencySlo with
  | some slo => pure slo
  | none => throw .type

end RequestArrivalStats

def WorkloadClass.bins (c : WorkloadClass) : ℕ × ℕ := (c.promptLength, c.outputLength)

/-- The requests a class is about, by its upper bounds and the width of a bin. -/
def WorkloadClass.Contains (c : WorkloadClass) (r : RequestArrivalStats) : Prop :=
  (c.promptLength < r.promptLength + 256 ∧ r.promptLength ≤ c.promptLength) ∧
    c.outputLength < r.outputLength + 256 ∧ r.outputLength ≤ c.outputLength

instance (c : WorkloadClass) (r : RequestArrivalStats) : Decidable (c.Contains r) :=
  inferInstanceAs (Decidable (_ ∧ _))

theorem WorkloadClass.contains_iff {c : WorkloadClass} {a r : RequestArrivalStats}
    (h : c.bins = a.bins) : c.Contains r ↔ r.bins = c.bins := by
  obtain ⟨p, o, slo, rps⟩ := c
  obtain ⟨rfl, rfl⟩ := Prod.mk.injEq _ _ _ _ ▸ h
  rw [Contains, ← lengthBin_eq_iff, ← lengthBin_eq_iff, RequestArrivalStats.bins, bins,
    Prod.mk.injEq]

structure WorkloadMonitor where
  requestArrivalStatsQueue : List RequestArrivalStats
  timeWindow : ℚ
  startTime : ℚ

namespace WorkloadMonitor

def create (timeWindow startTime : ℚ) : WorkloadMonitor := ⟨[], timeWindow, startTime⟩

def recordRequestArrival (m : WorkloadMonitor) (request : Request) : WorkloadMonitor :=
  { m with requestArrivalStatsQueue := m.requestArrivalStatsQueue ++ [.fromRequest request] }

def InWindow (m : WorkloadMonitor) (now : ℚ) (req : RequestArrivalStats) : Prop :=
  now - m.timeWindow ≤ req.arrivalTime

instance (m : WorkloadMonitor) (now : ℚ) : DecidablePred (m.InWindow now) :=
  fun _ => inferInstanceAs (Decidable (_ ≤ _))

def purgeOldRequests (m : WorkloadMonitor) (now : ℚ) : WorkloadMonitor :=
  { m with requestArrivalStatsQueue :=
      m.requestArrivalStatsQueue.dropWhile fun req => ¬m.InWindow now req }

/-- The time a rate is measured over. The clock is read again for each class. -/
def duration (m : WorkloadMonitor) (clock : ℕ × ℕ → ℚ) (bins : ℕ × ℕ) : ℚ :=
  min m.timeWindow (clock bins - m.startTime)

def workloadClass (m : WorkloadMonitor) (clock : ℕ × ℕ → ℚ)
    (x : (ℕ × ℕ) × List RequestArrivalStats) : Except PyError WorkloadClass := do
  let duration := m.duration clock x.1
  if duration = 0 then throw .zeroDivision
  let slos ← x.2.mapM RequestArrivalStats.getSlo
  pure ⟨x.1.1, x.1.2, slos.sum / x.2.length, x.2.length / duration⟩

/-- The purge stays when the rest of the call raises. -/
def getWorkloadClasses (m : WorkloadMonitor) (now : ℚ) (clock : ℕ × ℕ → ℚ) :
    WorkloadMonitor × Except PyError (List WorkloadClass) :=
  let m := m.purgeOldRequests now
  let grouped := Dict.groupBy RequestArrivalStats.bins m.requestArrivalStatsQueue
  (m, grouped.entries.mapM (m.workloadClass clock))

/-! ## The classes of a queue -/

def Measured (m : WorkloadMonitor) (clock : ℕ × ℕ → ℚ) (queue : List RequestArrivalStats) : Prop :=
  ∀ r ∈ queue, m.duration clock r.bins ≠ 0 ∧ r.latencySlo.isSome

instance (m : WorkloadMonitor) (clock : ℕ × ℕ → ℚ) (queue : List RequestArrivalStats) :
    Decidable (m.Measured clock queue) :=
  inferInstanceAs (Decidable (∀ r ∈ queue, _))

structure Describes (m : WorkloadMonitor) (clock : ℕ × ℕ → ℚ) (queue : List RequestArrivalStats)
    (classes : List WorkloadClass) : Prop where
  distinct : (classes.map WorkloadClass.bins).Nodup
  one : ∀ r ∈ queue, ∃! c, c ∈ classes ∧ c.Contains r
  rate : ∀ c ∈ classes, c.rps * m.duration clock c.bins = (queue.filter c.Contains).length
  total : (classes.map fun c => c.rps * m.duration clock c.bins).sum = queue.length

section Classes

variable {m : WorkloadMonitor} {clock : ℕ × ℕ → ℚ} {queue : List RequestArrivalStats}
  {x : (ℕ × ℕ) × List RequestArrivalStats}

def classOf (m : WorkloadMonitor) (clock : ℕ × ℕ → ℚ) (x : (ℕ × ℕ) × List RequestArrivalStats) :
    WorkloadClass :=
  ⟨x.1.1, x.1.2, (x.2.map fun r => r.latencySlo.getD 0).sum / x.2.length,
    x.2.length / m.duration clock x.1⟩

theorem workloadClass_eq_ok (hdur : m.duration clock x.1 ≠ 0)
    (hslo : ∀ r ∈ x.2, r.latencySlo.isSome) :
    m.workloadClass clock x = .ok (m.classOf clock x) := by
  have hslos : x.2.mapM RequestArrivalStats.getSlo =
      .ok (x.2.map fun r => r.latencySlo.getD 0) := by
    apply mapM_eq_ok
    intro r hr
    obtain ⟨slo, hs⟩ := Option.isSome_iff_exists.mp (hslo r hr)
    rw [RequestArrivalStats.getSlo, hs]
    rfl
  rw [workloadClass, if_neg hdur, hslos]
  rfl

theorem ensures_workloadClass (m : WorkloadMonitor) (clock : ℕ × ℕ → ℚ)
    (x : (ℕ × ℕ) × List RequestArrivalStats) :
    (m.workloadClass clock x).Ensures (fun _ => True) fun _ =>
      m.duration clock x.1 ≠ 0 ∧ ∀ r ∈ x.2, r.latencySlo.isSome := by
  unfold workloadClass
  dsimp only
  split_ifs with hzero
  · trivial
  · apply (ensures_mapM (R := fun r _ => r.latencySlo.isSome = true) x.2 _).bind
    · intro slos hall
      refine ⟨hzero, fun r hr => ?_⟩
      obtain ⟨-, -, hr⟩ := exists_mem_zip_of_forall2 hall hr
      exact hr
    · intro r _
      unfold RequestArrivalStats.getSlo
      cases r.latencySlo with
      | none => trivial
      | some slo => rfl

theorem group_of_mem (hx : x ∈ (Dict.groupBy RequestArrivalStats.bins queue).entries) :
    x.2 = queue.filter (·.bins = x.1) ∧ ∃ a ∈ queue, a.bins = x.1 := by
  have hget := Dict.get?_of_mem_entries (v := x.2) hx
  rw [← Dict.getD_groupBy, Dict.getD_of_get? hget]
  exact ⟨rfl, (Dict.mem_groupBy _ _ _).mp (Dict.mem_of_get? hget)⟩

theorem exists_group {r : RequestArrivalStats} (hr : r ∈ queue) :
    ∃ x ∈ (Dict.groupBy RequestArrivalStats.bins queue).entries, x.1 = r.bins :=
  List.mem_map.mp ((Dict.mem_groupBy _ queue r.bins).mpr ⟨r, hr, rfl⟩)

theorem measured_iff : m.Measured clock queue ↔
    ∀ x ∈ (Dict.groupBy RequestArrivalStats.bins queue).entries,
      m.duration clock x.1 ≠ 0 ∧ ∀ r ∈ x.2, r.latencySlo.isSome := by
  constructor
  · intro h x hx
    obtain ⟨hgroup, a, ha, hbins⟩ := group_of_mem hx
    refine ⟨hbins ▸ (h a ha).1, fun r hr => ?_⟩
    rw [hgroup] at hr
    exact (h r (List.mem_of_mem_filter hr)).2
  · intro h r hr
    obtain ⟨x, hx, hbins⟩ := exists_group hr
    obtain ⟨hdur, hslo⟩ := h x hx
    rw [(group_of_mem hx).1] at hslo
    exact ⟨hbins ▸ hdur, hslo r (List.mem_filter.mpr ⟨hr, decide_eq_true hbins.symm⟩)⟩

/-- The call returns exactly if nothing is missing, and then one class for each group. -/
theorem mapM_workloadClass_eq_ok {classes : List WorkloadClass} :
    (Dict.groupBy RequestArrivalStats.bins queue).entries.mapM (m.workloadClass clock) =
        .ok classes ↔
      m.Measured clock queue ∧
        classes = (Dict.groupBy RequestArrivalStats.bins queue).entries.map (m.classOf clock) := by
  have hok : m.Measured clock queue →
      (Dict.groupBy RequestArrivalStats.bins queue).entries.mapM (m.workloadClass clock) =
        .ok ((Dict.groupBy RequestArrivalStats.bins queue).entries.map (m.classOf clock)) := by
    intro h
    apply mapM_eq_ok
    intro x hx
    obtain ⟨hdur, hslo⟩ := measured_iff.mp h x hx
    exact workloadClass_eq_ok hdur hslo
  constructor
  · intro h
    have hmeasured : m.Measured clock queue := by
      rw [measured_iff]
      intro x hx
      have hall := ensures_of_ok
        (ensures_mapM _ fun x _ => ensures_workloadClass m clock x) h
      obtain ⟨-, -, hboth⟩ := exists_mem_zip_of_forall2 hall hx
      exact hboth
    rw [hok hmeasured, Except.ok.injEq] at h
    exact ⟨hmeasured, h.symm⟩
  · rintro ⟨h, rfl⟩
    exact hok h

theorem describes_groups (h : m.Measured clock queue) : m.Describes clock queue
    ((Dict.groupBy RequestArrivalStats.bins queue).entries.map (m.classOf clock)) := by
  have hcontains : ∀ x ∈ (Dict.groupBy RequestArrivalStats.bins queue).entries,
      ∀ r, (m.classOf clock x).Contains r ↔ r.bins = x.1 := by
    intro x hx r
    obtain ⟨-, a, -, hbins⟩ := group_of_mem hx
    exact WorkloadClass.contains_iff (a := a) hbins.symm
  have hrate : ∀ x ∈ (Dict.groupBy RequestArrivalStats.bins queue).entries,
      (m.classOf clock x).rps * m.duration clock (m.classOf clock x).bins = x.2.length :=
    fun x hx => div_mul_cancel₀ _ (measured_iff.mp h x hx).1
  constructor
  · rw [List.map_map]
    exact Dict.nodup_keys _
  · intro r hr
    obtain ⟨x, hx, hbins⟩ := exists_group hr
    refine ⟨m.classOf clock x, ⟨List.mem_map_of_mem hx, (hcontains x hx r).mpr hbins.symm⟩, ?_⟩
    rintro _ ⟨hmem, hr'⟩
    obtain ⟨y, hy, rfl⟩ := List.mem_map.mp hmem
    have hkey : y.1 = x.1 := ((hcontains y hy r).mp hr').symm.trans hbins.symm
    have hval : y.2 = x.2 := by rw [(group_of_mem hx).1, (group_of_mem hy).1, hkey]
    rw [Prod.ext hkey hval]
  · intro c hc
    obtain ⟨x, hx, rfl⟩ := List.mem_map.mp hc
    rw [hrate x hx, (group_of_mem hx).1]
    simp only [hcontains x hx]
  · rw [List.map_map, List.map_congr_left (g := fun x => (x.2.length : ℚ)) hrate,
      ← (Dict.flatten_groupBy_perm RequestArrivalStats.bins queue).length_eq, List.length_flatten,
      Dict.values, List.map_map, Nat.cast_list_sum, List.map_map]
    rfl

end Classes

/-! ## Whole histories -/

/-- What changes the monitor: arrivals, and the readers with the times they read. -/
inductive Event where
  | record (request : Request)
  | getClasses (now : ℚ) (clock : ℕ × ℕ → ℚ)

def next (m : WorkloadMonitor) : Event → WorkloadMonitor
  | .record request => m.recordRequestArrival request
  | .getClasses now clock => (m.getWorkloadClasses now clock).1

def recorded (history : List Event) : List RequestArrivalStats :=
  history.filterMap fun
    | .record request => some (.fromRequest request)
    | .getClasses _ _ => none

def Until (now : ℚ) (history : List Event) : Prop :=
  ∀ t clock, Event.getClasses t clock ∈ history → t ≤ now

theorem timeWindow_next (m : WorkloadMonitor) (ev : Event) :
    (m.next ev).timeWindow = m.timeWindow ∧ (m.next ev).startTime = m.startTime := by
  cases ev <;> exact ⟨rfl, rfl⟩

theorem timeWindow_foldl (m : WorkloadMonitor) (history : List Event) :
    (history.foldl next m).timeWindow = m.timeWindow ∧
      (history.foldl next m).startTime = m.startTime := by
  induction history generalizing m with
  | nil => exact ⟨rfl, rfl⟩
  | cons ev history ih =>
      obtain ⟨hw, hs⟩ := ih (m.next ev)
      obtain ⟨hw', hs'⟩ := m.timeWindow_next ev
      exact ⟨hw.trans hw', hs.trans hs'⟩

/-- Whenever the earlier readers came, a reader finds the queue that was never purged
before. -/
theorem queue_purge_foldl {now : ℚ} {history : List Event} (h : Until now history)
    (m : WorkloadMonitor) :
    (history.foldl next m).requestArrivalStatsQueue.dropWhile (fun r => ¬m.InWindow now r) =
      (m.requestArrivalStatsQueue ++ recorded history).dropWhile fun r => ¬m.InWindow now r := by
  induction history generalizing m with
  | nil => simp [recorded]
  | cons ev history ih =>
      have hrest := ih (fun t clock ht => h t clock (List.mem_cons_of_mem ev ht)) (m.next ev)
      cases ev with
      | record request =>
          refine Eq.trans hrest (congrArg _ ?_)
          exact List.append_assoc _ [_] (recorded history)
      | getClasses t clock =>
          refine Eq.trans hrest (List.dropWhile_dropWhile_append (fun r hr => ?_) _ _)
          have hle := h t clock List.mem_cons_self
          simp only [InWindow, decide_eq_true_eq, not_le] at hr ⊢
          exact hr.trans_le (sub_le_sub_right hle _)

/-- After any history, a reader gets the classes of the recorded requests of the window
exactly if no request recorded after one of the window is older than the window, and
every request of the window has an SLO and is counted over some time. -/
theorem workload_describes_window_iff (timeWindow startTime now : ℚ) (clock : ℕ × ℕ → ℚ)
    (history : List Event) (h : Until now history) :
    let m := create timeWindow startTime
    let window := (recorded history).filter (m.InWindow now)
    let x := (history.foldl next m).getWorkloadClasses now clock
    (x.1.requestArrivalStatsQueue = window ∧
        ∃ classes, x.2 = .ok classes ∧ m.Describes clock window classes) ↔
      ((recorded history).Pairwise fun a b => m.InWindow now a → m.InWindow now b) ∧
        m.Measured clock window := by
  intro m window x
  obtain ⟨hw, hs⟩ := m.timeWindow_foldl history
  have hqueue : x.1.requestArrivalStatsQueue =
      (recorded history).dropWhile fun r => ¬m.InWindow now r := by
    have hpurge := queue_purge_foldl h m
    simp only [InWindow, ← hw] at hpurge ⊢
    exact hpurge
  have hduration : x.1.duration clock = m.duration clock := by
    funext bins
    exact congrArg₂ (fun w s => min w (clock bins - s)) hw hs
  have hmeasured : ∀ queue, x.1.Measured clock queue ↔ m.Measured clock queue := by
    simp only [Measured, hduration, implies_true]
  rw [hqueue, List.dropWhile_eq_filter_iff]
  refine and_congr_right fun horder => ?_
  have hcount : x.1.requestArrivalStatsQueue = window :=
    hqueue.trans ((List.dropWhile_eq_filter_iff _ _).mpr horder)
  have hclasses : ∀ classes, x.2 = .ok classes ↔ x.1.Measured clock window ∧
      classes = (Dict.groupBy RequestArrivalStats.bins window).entries.map (x.1.classOf clock) := by
    intro classes
    rw [← hcount]
    exact mapM_workloadClass_eq_ok
  constructor
  · rintro ⟨classes, hok, -⟩
    exact (hmeasured window).mp ((hclasses classes).mp hok).1
  · intro hall
    have hall' := (hmeasured window).mpr hall
    obtain ⟨h₁, h₂, h₃, h₄⟩ := describes_groups hall'
    rw [hduration] at h₃ h₄
    exact ⟨_, (hclasses _).mpr ⟨hall', rfl⟩, h₁, h₂, h₃, h₄⟩

def arrival (r : ReqId) (arrivalTime : ℚ) : Event :=
  .record { Request.small r with arrivalTime, latencySlo := some 10 }

/-- Two requests arrive in order, with a reader in between. -/
theorem workload_describes_window_small :
    let m := create 30 0
    let history := [arrival "a" 70, .getClasses 90 fun _ => 90, arrival "b" 110]
    let window := (recorded history).filter (m.InWindow 120)
    let x := (history.foldl next m).getWorkloadClasses 120 fun _ => 120
    window = [⟨"b", 110, 1, 4, some 10⟩] ∧ x.1.requestArrivalStatsQueue = window ∧
      ∃ classes, x.2 = .ok classes ∧ m.Describes (fun _ => 120) window classes := by
  intro m history window x
  have huntil : Until 120 history := by
    intro t clock h
    simp only [history, arrival, List.mem_cons, reduceCtorEq, Event.getClasses.injEq,
      List.not_mem_nil, false_or, or_false] at h
    rw [h.1]
    decide +kernel
  exact ⟨by decide +kernel, (workload_describes_window_iff 30 0 120 _ history huntil).mpr
    ⟨by decide +kernel, by decide +kernel⟩⟩

/-- A request that arrived 40 seconds ago is counted in a window of 30 seconds, because it
was recorded after one that arrived now. -/
theorem expired_request_counted :
    let m := create 30 0
    let history := [arrival "a" 100, arrival "b" 60]
    let x := (history.foldl next m).getWorkloadClasses 100 fun _ => 100
    (recorded history).filter (m.InWindow 100) = [⟨"a", 100, 1, 4, some 10⟩] ∧
      x.1.requestArrivalStatsQueue = [⟨"a", 100, 1, 4, some 10⟩, ⟨"b", 60, 1, 4, some 10⟩] ∧
      x.2 = .ok [⟨256, 256, 10, 2 / 30⟩] := by
  decide +kernel

end WorkloadMonitor

end TeDiServe

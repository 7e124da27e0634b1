import TeDiServe.Load.Records

/-!
# Stored thresholds

A record keeps the threshold of the last step until it is marked dirty. `Stored Q`
says of a record that a threshold which may be used again as it is satisfies `Q`, a
condition on the executor, the threshold and the index that load control has given
to the request. Everything but the moves of a round and stage 6 keeps it: a record
either loses its executor, or it keeps executor, threshold and index and is at most
marked.

The marks themselves are counted: no executor was marked in a cycle that has not
begun.
-/

namespace TeDiServe

/-- A threshold that may be used again as it is satisfies `Q`. -/
def RequestState.Stored (Q : ExecutorId → ℚ → ℕ → Prop) (rs : RequestState) : Prop :=
  ∀ e c, rs.executorId = some e → rs.confidenceThresholdDirty = false →
    rs.confidenceThreshold = some c → Q e c rs.maxConfidenceThresholdIdx

namespace RequestState

variable {Q Q' : ExecutorId → ℚ → ℕ → Prop} {rs rs' : RequestState}

structure Keeps (rs rs' : RequestState) : Prop where
  executorId : rs'.executorId = rs.executorId
  confidenceThreshold : rs'.confidenceThreshold = rs.confidenceThreshold
  forecast : rs'.forecast = rs.forecast
  dirty : rs.confidenceThresholdDirty = true → rs'.confidenceThresholdDirty = true

theorem Keeps.trans {rs'' : RequestState} (h : rs.Keeps rs') (h' : rs'.Keeps rs'') :
    rs.Keeps rs'' :=
  ⟨h'.executorId.trans h.executorId, h'.confidenceThreshold.trans h.confidenceThreshold,
    h'.forecast.trans h.forecast, fun hd => h'.dirty (h.dirty hd)⟩

theorem Stored.keep (h : rs.Stored Q) (hk : rs.Keeps rs') : rs'.Stored Q := by
  intro e c he hd hc
  rw [hk.executorId] at he
  rw [hk.confidenceThreshold] at hc
  rw [show rs'.maxConfidenceThresholdIdx = rs.maxConfidenceThresholdIdx from
    congrArg Prod.fst hk.forecast]
  refine h e c he ?_ hc
  by_contra hdirty
  rw [hk.dirty (Bool.eq_true_of_not_eq_false hdirty)] at hd
  cases hd

theorem stored_of_executorId (Q : ExecutorId → ℚ → ℕ → Prop) (h : rs.executorId = none) :
    rs.Stored Q := by
  intro e c he
  rw [h] at he
  cases he

theorem stored_of_dirty (Q : ExecutorId → ℚ → ℕ → Prop) (h : rs.confidenceThresholdDirty = true) :
    rs.Stored Q := by
  intro e c _ hd
  rw [h] at hd
  cases hd

theorem closed_stored (Q : ExecutorId → ℚ → ℕ → Prop) : Closed fun _ => Stored Q where
  removeExecutor _ := stored_of_executorId Q rfl
  removePendingExecutor h := h.keep ⟨rfl, rfl, rfl, fun hd => hd⟩
  removeExecutorToFree _ h := h.keep ⟨rfl, rfl, rfl, fun hd => hd⟩

end RequestState

namespace Scheduler

variable {κ : Type} {cfg : Config κ} {Q Q' : ExecutorId → ℚ → ℕ → Prop} {s : Scheduler κ}

/-- No executor was marked in a cycle that has not begun. -/
def Begun (version : Dict ExecutorId ℕ) (counter : ℕ) : Prop :=
  ∀ e v, version.get? e = some v → v ≤ counter

abbrev Held (Q : ExecutorId → ℚ → ℕ → Prop) : Scheduler κ → Prop :=
  Records (fun _ => RequestState.Stored Q) Begun

theorem refreshes_stored (Q : ExecutorId → ℚ → ℕ → Prop) (predict : ReqId → ℚ → ℚ) :
    Refreshes cfg predict fun _ => RequestState.Stored Q :=
  fun _ _ _ _ => RequestState.stored_of_dirty Q rfl

end Scheduler

end TeDiServe

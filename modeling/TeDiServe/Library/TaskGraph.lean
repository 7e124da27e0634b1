import Mathlib.Data.List.Nodup
import Mathlib.Logic.Function.Basic
import TeDiServe.Library.Dict
import TeDiServe.Library.Transition

/-!
# Concurrent execution of a graph of tasks

Every task knows the tasks it waits for, its parents, and the tasks that wait for
it, its children. A task that has been spawned enters its body at some later
moment and finishes at some later moment still. When it finishes, it takes itself
off the parents of each of its children, and it spawns each child that has no
parent left. Spawned tasks run concurrently: any spawned task may enter next and
any running task may finish next.

If parents and children are two descriptions of one relation, then a task is
spawned exactly once, when the last of its parents has finished.
-/

/-- Tasks with what they wait for and what waits for them. -/
structure TaskGraph (α : Type) where
  parents : α → OrderedSet α
  children : α → OrderedSet α

namespace TaskGraph

variable {α : Type} [DecidableEq α]

structure WellFormed (g : TaskGraph α) (root : α) : Prop where
  mirror : ∀ p c, c ∈ g.children p ↔ p ∈ g.parents c
  root : ∀ p, p ∉ g.parents root

/-- Why an action does not happen. A `blocked` action is not due; the other two
are errors of a task that does run. -/
inductive Fault
  | blocked
  | notReady
  | notAParent
  deriving DecidableEq, Repr

/-- The state of an execution: the parents that are left, the tasks that have been
spawned and not entered, and the tasks that have entered and have finished, the
last first. -/
structure Execution (α : Type) where
  parents : α → OrderedSet α
  spawned : List α
  started : List α
  finished : List α

inductive Action (α : Type)
  | enter (c : α)
  | finish (c : α)

def start (g : TaskGraph α) (root : α) : Execution α :=
  { parents := g.parents, spawned := [root], started := [], finished := [] }

def enter (x : Execution α) (c : α) : Except Fault (Execution α) :=
  if c ∉ x.spawned then .error .blocked
  else if !(x.parents c).isEmpty then .error .notReady
  else .ok { x with spawned := x.spawned.erase c, started := c :: x.started }

def notify (p : α) (x : Execution α) (c : α) : Except Fault (Execution α) :=
  if p ∉ x.parents c then .error .notAParent
  else .ok
    { x with
      parents := Function.update x.parents c ((x.parents c).discard p)
      spawned := if ((x.parents c).discard p).isEmpty then c :: x.spawned else x.spawned }

def finish (g : TaskGraph α) (x : Execution α) (p : α) : Except Fault (Execution α) :=
  if p ∈ x.started ∧ p ∉ x.finished then
    (g.children p).items.foldlM (notify p) { x with finished := p :: x.finished }
  else .error .blocked

def act (g : TaskGraph α) (x : Execution α) : Action α → Except Fault (Execution α)
  | .enter c => enter x c
  | .finish c => finish g x c

def Reachable (g : TaskGraph α) (root : α) : Execution α → Prop :=
  Transition.Reachable (fun x => x = g.start root) fun x a x' => g.act x a = .ok x'

def replay (g : TaskGraph α) (root : α) (actions : List (Action α)) :
    Except Fault (Execution α) :=
  actions.foldlM g.act (g.start root)

theorem reachable_of_replay (g : TaskGraph α) (root : α) (actions : List (Action α)) :
    (g.replay root actions).Ensures (fun _ => True) (g.Reachable root) :=
  Transition.ensures_reachable (fun _ _ _ hact => hact) actions (.start rfl)

namespace Execution

/-- Whether the parent `p` has finished and `c` has been told so; `due` are the
notifications still to be made. -/
def Told (x : Execution α) (due : List (α × α)) (p c : α) : Prop :=
  p ∈ x.finished ∧ (p, c) ∉ due

/-- The invariant. It has the notifications still to be made as a parameter and so
holds in the middle of a loop over children as well. -/
structure Orderly (g : TaskGraph α) (root : α) (due : List (α × α)) (x : Execution α) :
    Prop where
  waiting : ∀ c p, p ∈ x.parents c ↔ p ∈ g.parents c ∧ ¬x.Told due p c
  awake : ∀ c, (c ∈ x.spawned ∨ c ∈ x.started) ↔
    c = root ∨ (∃ p, p ∈ g.parents c) ∧ ∀ p ∈ g.parents c, x.Told due p c
  once : (x.spawned ++ x.started).Nodup
  finished : ∀ c ∈ x.finished, c ∈ x.started
  finishedOnce : x.finished.Nodup

def Terminal (x : Execution α) : Prop :=
  x.spawned = [] ∧ ∀ c ∈ x.started, c ∈ x.finished

omit [DecidableEq α] in
@[simp] theorem told_nil (x : Execution α) (p c : α) : x.Told [] p c ↔ p ∈ x.finished := by
  simp [Told]

variable {g : TaskGraph α} {root p c : α} {x : Execution α} {due : List (α × α)}

omit [DecidableEq α] in
theorem orderly_start (g : TaskGraph α) (root : α) : Orderly g root [] (g.start root) where
  waiting := by simp [start]
  awake := by
    intro c
    simp only [start, List.mem_singleton, List.not_mem_nil, or_false, told_nil]
    refine ⟨Or.inl, ?_⟩
    rintro (hc | ⟨⟨p, hp⟩, hall⟩)
    · exact hc
    · exact (hall p hp).elim
  once := by simp [start]
  finished := by simp [start]
  finishedOnce := by simp [start]

omit [DecidableEq α] in
theorem Orderly.ready (h : Orderly g root due x) (hg : g.WellFormed root)
    (hc : c ∈ x.spawned ∨ c ∈ x.started) (hp : p ∈ g.parents c) : x.Told due p c := by
  rcases (h.awake c).mp hc with rfl | ⟨_, hall⟩
  · exact absurd hp (hg.root p)
  · exact hall p hp

omit [DecidableEq α] in
theorem Orderly.isEmpty_parents (h : Orderly g root due x) (hg : g.WellFormed root)
    (hc : c ∈ x.spawned ∨ c ∈ x.started) : (x.parents c).isEmpty = true := by
  rw [OrderedSet.isEmpty_iff]
  intro p hp
  obtain ⟨hpg, hnot⟩ := (h.waiting c p).mp hp
  exact hnot (h.ready hg hc hpg)

theorem Orderly.ensures_enter (h : Orderly g root [] x) (hg : g.WellFormed root) (c : α) :
    (enter x c).Ensures (fun f => f = .blocked) fun x' =>
      Orderly g root [] x' ∧ x'.started = c :: x.started ∧ x'.finished = x.finished := by
  unfold enter
  by_cases hc : c ∈ x.spawned
  · rw [if_neg (not_not.mpr hc), h.isEmpty_parents hg (.inl hc), if_neg (by simp)]
    have hmem : ∀ d, (d ∈ x.spawned.erase c ∨ d ∈ c :: x.started) ↔
        (d ∈ x.spawned ∨ d ∈ x.started) := by
      intro d
      rw [(List.nodup_append.mp h.once).1.mem_erase_iff, List.mem_cons]
      by_cases hd : d = c
      · simp [hd, hc]
      · simp [hd]
    refine ⟨⟨h.waiting, fun d => (hmem d).trans (h.awake d), ?_, ?_, h.finishedOnce⟩, rfl, rfl⟩
    · have hperm : (x.spawned.erase c ++ c :: x.started).Perm (x.spawned ++ x.started) :=
        List.perm_middle.trans ((List.perm_cons_erase hc).symm.append_right x.started)
      exact hperm.nodup_iff.mpr h.once
    · intro d hd
      exact List.mem_cons_of_mem c (h.finished d hd)
  · rw [if_pos hc]
    rfl

theorem Orderly.ensures_notify (h : Orderly g root ((p, c) :: due) x)
    (hc : c ∈ g.children p) (hg : g.WellFormed root) (hp : p ∈ x.finished)
    (hdue : (p, c) ∉ due) :
    (notify p x c).Ensures (fun _ => False) fun x' =>
      Orderly g root due x' ∧ x'.started = x.started ∧ x'.finished = x.finished := by
  have hpg : p ∈ g.parents c := (hg.mirror p c).mp hc
  have hnot : ¬x.Told ((p, c) :: due) p c := by simp [Told]
  have htold : ∀ q d, x.Told due q d ↔ x.Told ((p, c) :: due) q d ∨ (q = p ∧ d = c) := by
    intro q d
    unfold Told
    rw [List.mem_cons, Prod.mk.injEq]
    by_cases hqd : q = p ∧ d = c
    · rw [hqd.1, hqd.2]
      simp [hp, hdue]
    · simp [hqd]
  have hasleep : ¬(c ∈ x.spawned ∨ c ∈ x.started) := fun hc' => hnot (h.ready hg hc' hpg)
  have hleft : ∀ q, q ∈ (x.parents c).discard p ↔ q ∈ g.parents c ∧ ¬x.Told due q c := by
    intro q
    rw [OrderedSet.mem_discard, h.waiting, htold]
    tauto
  unfold notify
  rw [if_neg (not_not.mpr ((h.waiting c p).mpr ⟨hpg, hnot⟩))]
  refine ⟨⟨?_, ?_, ?_, h.finished, h.finishedOnce⟩, rfl, rfl⟩
  · intro d q
    by_cases hd : d = c
    · subst hd
      change q ∈ Function.update x.parents d _ d ↔ q ∈ g.parents d ∧ ¬x.Told due q d
      rw [Function.update_self, hleft]
    · simp only [Function.update_of_ne hd, h.waiting]
      change _ ↔ q ∈ g.parents d ∧ ¬x.Told due q d
      rw [htold]
      tauto
  · intro d
    change (d ∈ (if _ then _ else _) ∨ d ∈ x.started) ↔
      d = root ∨ (∃ q, q ∈ g.parents d) ∧ ∀ q ∈ g.parents d, x.Told due q d
    by_cases hd : d = c
    · subst hd
      have hroot : d ≠ root := fun hd => hg.root p (hd ▸ hpg)
      split_ifs with hempty
      · rw [OrderedSet.isEmpty_iff] at hempty
        refine iff_of_true (.inl List.mem_cons_self) (.inr ⟨⟨p, hpg⟩, fun q hq => ?_⟩)
        by_contra hq'
        exact hempty q ((hleft q).mpr ⟨hq, hq'⟩)
      · rw [OrderedSet.isEmpty_iff, not_forall_not] at hempty
        obtain ⟨q, hq⟩ := hempty
        refine iff_of_false hasleep ?_
        rintro (hd | ⟨_, hall⟩)
        · exact hroot hd
        · exact ((hleft q).mp hq).2 (hall q ((hleft q).mp hq).1)
    · have hsame : ∀ q, x.Told due q d ↔ x.Told ((p, c) :: due) q d := by
        intro q
        rw [htold]
        simp [hd]
      simp only [hsame, ← h.awake]
      split_ifs
      · simp [hd]
      · rfl
  · change ((if _ then _ else _) ++ x.started).Nodup
    split_ifs
    · rw [List.cons_append, List.nodup_cons, List.mem_append]
      exact ⟨hasleep, h.once⟩
    · exact h.once

/-- When `p` has finished and has told nobody yet, all its children are due. -/
theorem Orderly.finishing (h : Orderly g root [] x) (hg : g.WellFormed root)
    (hp : p ∈ x.started) (hnot : p ∉ x.finished) :
    Orderly g root ((g.children p).items.map fun c => (p, c))
      { x with finished := p :: x.finished } := by
  have htold : ∀ q d, q ∈ g.parents d →
      (({ x with finished := p :: x.finished } : Execution α).Told
        ((g.children p).items.map fun c => (p, c)) q d ↔ x.Told [] q d) := by
    intro q d hq
    simp only [Told, List.mem_cons, List.mem_map, Prod.mk.injEq, List.not_mem_nil,
      not_false_eq_true, and_true]
    by_cases hqp : q = p
    · subst hqp
      have hd : d ∈ (g.children q).items := (hg.mirror q d).mpr hq
      simp [hd, hnot]
    · simp [hqp, Ne.symm hqp]
  refine ⟨?_, ?_, h.once, ?_, List.nodup_cons.mpr ⟨hnot, h.finishedOnce⟩⟩
  · intro d q
    change q ∈ x.parents d ↔ _
    rw [h.waiting]
    exact and_congr_right fun hq => not_congr (htold q d hq).symm
  · intro d
    change (d ∈ x.spawned ∨ d ∈ x.started) ↔ _
    rw [h.awake]
    exact or_congr_right (and_congr_right fun _ =>
      forall₂_congr fun q hq => (htold q d hq).symm)
  · exact List.forall_mem_cons.mpr ⟨hp, h.finished⟩

/-- A running task may finish: it notifies every child and does not fail in doing so. -/
theorem Orderly.ensures_finish (h : Orderly g root [] x) (hg : g.WellFormed root)
    (hp : p ∈ x.started) (hnot : p ∉ x.finished) :
    (finish g x p).Ensures (fun _ => False) fun x' =>
      Orderly g root [] x' ∧ x'.started = x.started ∧ x'.finished = p :: x.finished := by
  let I : List α → Execution α → Prop := fun rest y =>
    Orderly g root (rest.map fun c => (p, c)) y ∧ rest.Nodup ∧
      (∀ c ∈ rest, c ∈ g.children p) ∧ y.started = x.started ∧ y.finished = p :: x.finished
  have hloop := Except.ensures_foldlM_rest (f := notify p) (E := fun _ => False) I
    (fun y c rest hy => by
      obtain ⟨hy, hnodup, hrest, hstarted, hfinished⟩ := hy
      have hcr : c ∉ rest ∧ rest.Nodup := List.nodup_cons.mp hnodup
      have hdue : (p, c) ∉ rest.map fun c => (p, c) := by simpa using hcr.1
      refine (hy.ensures_notify (hrest c List.mem_cons_self) hg (by simp [hfinished]) hdue).imp ?_
      rintro y' ⟨hy', hs, hf⟩
      exact ⟨hy', hcr.2, fun d hd => hrest d (List.mem_cons_of_mem c hd),
        hs.trans hstarted, hf.trans hfinished⟩)
    (g.children p).items { x with finished := p :: x.finished }
    ⟨h.finishing hg hp hnot, (g.children p).nodup, fun c hc => hc, rfl, rfl⟩
  unfold finish
  rw [if_pos ⟨hp, hnot⟩]
  exact hloop.imp fun y hy => ⟨hy.1, hy.2.2.2⟩

end Execution

open Execution

variable {g : TaskGraph α} {root c p : α} {x : Execution α}

theorem ensures_act (h : Orderly g root [] x) (hg : g.WellFormed root) (a : Action α) :
    (g.act x a).Ensures (fun f => f = .blocked) (Orderly g root []) := by
  cases a with
  | enter c => exact (h.ensures_enter hg c).imp fun _ hx => hx.1
  | finish c =>
      by_cases hc : c ∈ x.started ∧ c ∉ x.finished
      · exact (h.ensures_finish hg hc.1 hc.2).mono (fun _ hf => hf.elim) fun _ hx => hx.1
      · simp [act, finish, hc]

variable (hg : g.WellFormed root)
include hg

section

variable (h : g.Reachable root x)
include h

theorem orderly_of_reachable : Orderly g root [] x := by
  refine h.invariant ?_ ?_
  · rintro y rfl
    exact orderly_start g root
  · intro y a y' _ hy hstep
    exact Except.ensures_of_ok (ensures_act hy hg a) hstep

/-- A task runs only when all its parents have finished. -/
theorem finished_of_started (hc : c ∈ x.started) (hp : p ∈ g.parents c) : p ∈ x.finished :=
  (told_nil x p c).mp ((orderly_of_reachable hg h).ready hg (.inr hc) hp)

/-- Only the root runs without having waited for a parent. -/
theorem exists_parent_of_started (hc : c ∈ x.started) (hroot : c ≠ root) :
    ∃ p, p ∈ g.parents c ∧ p ∈ x.finished := by
  rcases ((orderly_of_reachable hg h).awake c).mp (.inr hc) with hc | ⟨⟨p, hp⟩, hall⟩
  · exact absurd hc hroot
  · exact ⟨p, hp, (told_nil x p c).mp (hall p hp)⟩

/-- At the end, a task with parents has run if all of them have. -/
theorem finished_of_terminal (ht : x.Terminal) (hp : p ∈ g.parents c)
    (hall : ∀ q ∈ g.parents c, q ∈ x.finished) : c ∈ x.finished := by
  rcases ((orderly_of_reachable hg h).awake c).mpr
    (.inr ⟨⟨p, hp⟩, fun q hq => (told_nil x q c).mpr (hall q hq)⟩) with hc | hc
  · simp [ht.1] at hc
  · exact ht.2 c hc

theorem root_finished_of_terminal (ht : x.Terminal) : root ∈ x.finished := by
  rcases ((orderly_of_reachable hg h).awake root).mpr (.inl rfl) with hc | hc
  · simp [ht.1] at hc
  · exact ht.2 root hc

end

/-- As long as something is left to run, some action happens. -/
theorem exists_act (h : Orderly g root [] x) (ht : ¬x.Terminal) :
    ∃ a x', g.act x a = .ok x' ∧
      x'.started.length + x'.finished.length = x.started.length + x.finished.length + 1 := by
  cases hs : x.spawned with
  | cons c rest =>
      have hc : c ∈ x.spawned := hs ▸ List.mem_cons_self
      have hok : enter x c =
          .ok { x with spawned := x.spawned.erase c, started := c :: x.started } := by
        rw [enter, if_neg (not_not.mpr hc), h.isEmpty_parents hg (.inl hc), if_neg (by simp)]
      exact ⟨.enter c, _, hok, by simp only [List.length_cons]; omega⟩
  | nil =>
      have hrun : ∃ c ∈ x.started, c ∉ x.finished := by
        by_contra hno
        push Not at hno
        exact ht ⟨hs, hno⟩
      obtain ⟨c, hc, hnot⟩ := hrun
      obtain ⟨x', hok, -, hs', hf'⟩ := (h.ensures_finish hg hc hnot).exists_ok
      exact ⟨.finish c, x', hok, by rw [hs', hf', List.length_cons]; omega⟩

/-- Every execution of finitely many tasks can be driven to its end. -/
theorem exists_terminal (nodes : List α) (hroot : root ∈ nodes)
    (hnodes : ∀ c p, p ∈ g.parents c → c ∈ nodes) : ∃ x, g.Reachable root x ∧ x.Terminal := by
  have hbound : ∀ x, Orderly g root [] x →
      x.started.length ≤ nodes.length ∧ x.finished.length ≤ nodes.length := by
    intro x hx
    have hsub : x.started ⊆ nodes := by
      intro c hc
      rcases (hx.awake c).mp (.inr hc) with rfl | ⟨⟨p, hp⟩, _⟩
      · exact hroot
      · exact hnodes c p hp
    have hfinished : x.finished ⊆ nodes := fun c hc => hsub (hx.finished c hc)
    exact ⟨(List.subperm_of_subset (List.nodup_append.mp hx.once).2.1 hsub).length_le,
      (List.subperm_of_subset hx.finishedOnce hfinished).length_le⟩
  -- every action adds one entry to the two histories, and these are bounded
  have hdrive : ∀ n x, g.Reachable root x →
      2 * nodes.length - (x.started.length + x.finished.length) = n →
      ∃ x', g.Reachable root x' ∧ x'.Terminal := by
    intro n
    induction n with
    | zero =>
        intro x hx hn
        by_contra hno
        have hend : ¬x.Terminal := fun ht => hno ⟨x, hx, ht⟩
        obtain ⟨a, x', hact, hlen⟩ := exists_act hg (orderly_of_reachable hg hx) hend
        have hx' := hbound x' (orderly_of_reachable hg (hx.next hact))
        omega
    | succ n ih =>
        intro x hx hn
        by_cases hend : x.Terminal
        · exact ⟨x, hx, hend⟩
        · obtain ⟨a, x', hact, hlen⟩ := exists_act hg (orderly_of_reachable hg hx) hend
          exact ih x' (hx.next hact) (by omega)
  exact hdrive _ (g.start root) (.start rfl) rfl

end TaskGraph

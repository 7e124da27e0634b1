import Mathlib.Logic.Basic
import Mathlib.Tactic.Common

/-!
# Postconditions of a computation that may raise

A computation of type `Except ε α` either raises an error or returns a value.
`Ensures x E Q` is its postcondition: every error it raises satisfies `E`, and
every value it returns satisfies `Q`. It distributes over sequencing as an
equivalence, so a straight-line program is analysed by rewriting, and a loop is
analysed by one invariant with `ensures_foldlM`.
-/

universe u v

theorem exists_getElem?_of_forall₂ {α β : Type*} {R : α → β → Prop} {l : List α} {l' : List β}
    (h : List.Forall₂ R l l') {i : ℕ} {a : α} (ha : l[i]? = some a) :
    ∃ b, l'[i]? = some b ∧ R a b := by
  induction h generalizing i with
  | nil => cases ha
  | cons hab _ ih =>
      cases i with
      | zero =>
          rw [List.getElem?_cons_zero, Option.some.injEq] at ha
          exact ⟨_, List.getElem?_cons_zero, ha ▸ hab⟩
      | succ i =>
          rw [List.getElem?_cons_succ] at ha ⊢
          exact ih ha

theorem map_eq_of_forall2 {α β : Type*} {f : β → α} {l : List α} {l' : List β}
    (h : List.Forall₂ (fun a b => f b = a) l l') : l'.map f = l := by
  induction h with
  | nil => rfl
  | cons hab _ ih => rw [List.map_cons, hab, ih]

theorem exists_mem_zip_of_forall2 {α β : Type*} {R : α → β → Prop} {l : List α} {l' : List β}
    (h : List.Forall₂ R l l') {a : α} (ha : a ∈ l) : ∃ b, (a, b) ∈ l.zip l' ∧ R a b := by
  induction h with
  | nil => cases ha
  | cons hab _ ih =>
      rcases List.mem_cons.mp ha with rfl | ha
      · exact ⟨_, List.mem_cons_self, hab⟩
      · obtain ⟨b, hb, hR⟩ := ih ha
        exact ⟨b, List.mem_cons_of_mem _ hb, hR⟩

namespace Except

variable {ε : Type v} {α β σ : Type u}

/-- Every error raised by `x` satisfies `E` and every value it returns
satisfies `Q`. -/
def Ensures (x : Except ε α) (E : ε → Prop) (Q : α → Prop) : Prop :=
  match x with
  | .ok a => Q a
  | .error e => E e

instance (x : Except ε α) (E : ε → Prop) (Q : α → Prop) [DecidablePred E] [DecidablePred Q] :
    Decidable (Ensures x E Q) :=
  match x with
  | .ok a => inferInstanceAs (Decidable (Q a))
  | .error e => inferInstanceAs (Decidable (E e))

@[simp] theorem ensures_ok (a : α) (E : ε → Prop) (Q : α → Prop) :
    Ensures (.ok a) E Q ↔ Q a := Iff.rfl

@[simp] theorem ensures_pure (a : α) (E : ε → Prop) (Q : α → Prop) :
    Ensures (pure a) E Q ↔ Q a := Iff.rfl

@[simp] theorem ensures_error (e : ε) (E : ε → Prop) (Q : α → Prop) :
    Ensures (.error e) E Q ↔ E e := Iff.rfl

@[simp] theorem ensures_throw (e : ε) (E : ε → Prop) (Q : α → Prop) :
    Ensures (throw e : Except ε α) E Q ↔ E e := Iff.rfl

/-- Sequencing: the second computation has to meet the postcondition from every
value the first one may return. -/
@[simp] theorem ensures_bind (x : Except ε α) (f : α → Except ε β)
    (E : ε → Prop) (Q : β → Prop) :
    Ensures (x >>= f) E Q ↔ Ensures x E fun a => Ensures (f a) E Q := by
  cases x <;> rfl

theorem ensures_of_ok {x : Except ε α} {E : ε → Prop} {Q : α → Prop} {a : α}
    (h : Ensures x E Q) (hx : x = .ok a) : Q a := by
  rw [hx] at h
  exact h

theorem ensures_of_error {x : Except ε α} {E : ε → Prop} {Q : α → Prop} {e : ε}
    (h : Ensures x E Q) (hx : x = .error e) : E e := by
  rw [hx] at h
  exact h

theorem ok_bind (a : α) (f : α → Except ε β) : ((.ok a : Except ε α) >>= f) = f a := rfl

theorem error_bind (e : ε) (f : α → Except ε β) :
    ((.error e : Except ε α) >>= f) = .error e := rfl

theorem bind_eq_ok {x : Except ε α} {f : α → Except ε β} {b : β} :
    x >>= f = .ok b ↔ ∃ a, x = .ok a ∧ f a = .ok b := by
  cases x with
  | error e =>
      refine iff_of_false (fun h => by cases h) ?_
      rintro ⟨a, ha, -⟩
      cases ha
  | ok a =>
      refine ⟨fun h => ⟨a, rfl, h⟩, ?_⟩
      rintro ⟨a', ha, h⟩
      cases ha
      exact h

theorem Ensures.exists_ok {x : Except ε α} {Q : α → Prop} (h : Ensures x (fun _ => False) Q) :
    ∃ a, x = .ok a ∧ Q a := by
  cases x with
  | ok a => exact ⟨a, rfl, h⟩
  | error e => exact h.elim

theorem exists_of_ensures {x : Except ε α} {E : ε → Prop} {R Q : α → Prop} (h : Ensures x E R)
    (h' : Ensures x (fun _ => False) Q) : ∃ a, R a ∧ Q a := by
  obtain ⟨a, ha, hQ⟩ := h'.exists_ok
  exact ⟨a, ensures_of_ok h ha, hQ⟩

theorem Ensures.exists_error {x : Except ε α} {E : ε → Prop}
    (h : Ensures x E fun _ => False) : ∃ e, x = .error e ∧ E e := by
  cases x with
  | ok a => exact h.elim
  | error e => exact ⟨e, rfl, h⟩

theorem Ensures.mono {x : Except ε α} {E E' : ε → Prop} {Q Q' : α → Prop}
    (h : Ensures x E Q) (hE : ∀ e, E e → E' e) (hQ : ∀ a, Q a → Q' a) :
    Ensures x E' Q' := by
  cases x with
  | ok a => exact hQ a h
  | error e => exact hE e h

theorem Ensures.imp {x : Except ε α} {E : ε → Prop} {Q Q' : α → Prop}
    (h : Ensures x E Q) (hQ : ∀ a, Q a → Q' a) : Ensures x E Q' :=
  h.mono (fun _ he => he) hQ

theorem Ensures.bind {x : Except ε α} {f : α → Except ε β} {E : ε → Prop} {P : α → Prop}
    {Q : β → Prop} (h : Ensures x E P) (hf : ∀ a, P a → Ensures (f a) E Q) :
    Ensures (x >>= f) E Q :=
  (ensures_bind x f E Q).mpr (h.imp hf)

theorem Ensures.bind_any {x : Except ε α} {f : α → Except ε β} {E : ε → Prop} {P : α → Prop}
    {Q : β → Prop} (h : Ensures x E P) (hf : ∀ a, P a → Ensures (f a) (fun _ => True) Q) :
    Ensures (x >>= f) (fun _ => True) Q :=
  (ensures_bind x f _ Q).mpr (h.mono (fun _ _ => trivial) hf)

theorem Ensures.and {x : Except ε α} {E : ε → Prop} {Q Q' : α → Prop}
    (h : Ensures x E Q) (h' : Ensures x E Q') : Ensures x E fun a => Q a ∧ Q' a := by
  cases x with
  | ok a => exact ⟨h, h'⟩
  | error e => exact h

/-- The value that is described is the one returned. -/
theorem Ensures.with_eq {x : Except ε α} {E : ε → Prop} {Q : α → Prop} (h : Ensures x E Q) :
    Ensures x E fun a => Q a ∧ x = .ok a := by
  cases x with
  | ok a => exact ⟨h, rfl⟩
  | error e => exact h

theorem Ensures.both {x : Except ε α} {E E' : ε → Prop} {Q Q' : α → Prop}
    (h : Ensures x E Q) (h' : Ensures x E' Q') :
    Ensures x (fun e => E e ∧ E' e) fun a => Q a ∧ Q' a := by
  cases x with
  | ok a => exact ⟨h, h'⟩
  | error e => exact ⟨h, h'⟩

theorem ensures_any (x : Except ε α) : Ensures x (fun _ => True) fun _ => True := by
  cases x <;> trivial

theorem ensures_bind_ok (x : Except ε α) {f : α → Except ε β} {Q : β → Prop}
    (h : ∀ a, x = .ok a → Ensures (f a) (fun _ => True) Q) :
    Ensures (x >>= f) (fun _ => True) Q := by
  cases x with
  | ok a => exact h a rfl
  | error e => trivial

theorem ensures_bind_any (x : Except ε α) {f : α → Except ε β} {Q : β → Prop}
    (h : ∀ a, Ensures (f a) (fun _ => True) Q) : Ensures (x >>= f) (fun _ => True) Q :=
  ensures_bind_ok x fun a _ => h a

/-- The invariant rule of a loop: an invariant that every iteration keeps holds
at the end, and the errors of the loop are those of its iterations. -/
theorem ensures_foldlM {f : σ → α → Except ε σ} {E : ε → Prop} {I : σ → Prop}
    (l : List α) (hf : ∀ s, ∀ a ∈ l, I s → Ensures (f s a) E I) :
    ∀ s, I s → Ensures (l.foldlM f s) E I := by
  induction l with
  | nil =>
      intro s hs
      exact hs
  | cons a l ih =>
      intro s hs
      rw [List.foldlM_cons, ensures_bind]
      refine (hf s a List.mem_cons_self hs).imp fun s' hs' => ?_
      exact ih (fun s b hb => hf s b (List.mem_cons_of_mem a hb)) s' hs'

/-- The invariant rule with an invariant that speaks of the elements still to
be visited. -/
theorem ensures_foldlM_rest {f : σ → α → Except ε σ} {E : ε → Prop}
    (I : List α → σ → Prop)
    (hf : ∀ s a l, I (a :: l) s → Ensures (f s a) E (I l)) :
    ∀ (l : List α) (s : σ), I l s → Ensures (l.foldlM f s) E (I [])
  | [], _, hs => hs
  | a :: l, s, hs => by
      rw [List.foldlM_cons, ensures_bind]
      exact (hf s a l hs).imp fun s' hs' => ensures_foldlM_rest I hf l s' hs'

theorem ensures_mapM {f : α → Except ε β} {E : ε → Prop} {R : α → β → Prop}
    (l : List α) (hf : ∀ a ∈ l, Ensures (f a) E (R a)) :
    Ensures (l.mapM f) E fun bs => List.Forall₂ R l bs := by
  induction l with
  | nil => exact List.Forall₂.nil
  | cons a l ih =>
      rw [List.mapM_cons, ensures_bind]
      refine (hf a List.mem_cons_self).imp fun b hb => ?_
      rw [ensures_bind]
      refine (ih fun a' ha' => hf a' (List.mem_cons_of_mem a ha')).imp fun bs hbs => ?_
      exact List.Forall₂.cons hb hbs

theorem mapM_eq_ok {f : α → Except ε β} {g : α → β} {l : List α}
    (h : ∀ a ∈ l, f a = .ok (g a)) : l.mapM f = .ok (l.map g) := by
  induction l with
  | nil => rfl
  | cons a l ih =>
      rw [List.mapM_cons, h a List.mem_cons_self, ih fun b hb => h b (List.mem_cons_of_mem a hb)]
      rfl

theorem ensures_mapM_mem {f : α → Except ε β} {E : ε → Prop} {P : β → Prop}
    (l : List α) (hf : ∀ a ∈ l, Ensures (f a) E P) :
    Ensures (l.mapM f) E fun bs => ∀ b ∈ bs, P b := by
  refine (ensures_mapM (R := fun _ b => P b) l hf).imp fun bs hbs => ?_
  induction hbs with
  | nil => simp
  | cons hb _ ih =>
      intro b' hb'
      rcases List.mem_cons.mp hb' with rfl | hb'
      · exact hb
      · exact ih (fun a ha => hf a (List.mem_cons_of_mem _ ha)) b' hb'

end Except

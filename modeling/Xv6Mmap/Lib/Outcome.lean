import Mathlib.Logic.Function.Basic

/-!
# Computations that may abort

`Ends x Q E` says what a computation in `Except` guarantees: `Q` of the value it returns and `E` of the way it aborts. A proof
that only cares about returned values takes `E` to be trivial; a proof that an abort is unreachable takes `E` to exclude it.
The rules follow the shape of the computation.

`AbortsIn E x` is the second half alone. Its rules are equivalences for `simp`, which takes a computation apart down to its calls.
-/

namespace Xv6Mmap

/-- What a computation that may abort guarantees: `Q` of the value it returns, `E` of the way it aborts. -/
def Ends {ε α : Type} (x : Except ε α) (Q : α → Prop) (E : ε → Prop) : Prop :=
  match x with
  | .ok a => Q a
  | .error e => E e

/-- No demand on the way a computation aborts. -/
def anyAbort {ε : Type} : ε → Prop := fun _ => True

section Rules

variable {ε α β : Type} {Q R : α → Prop} {P : β → Prop} {E F : ε → Prop} {a : α} {e : ε} {x : Except ε α} {f : α → Except ε β}

theorem ends_ok (h : Q a) : Ends (.ok a : Except ε α) Q E := h

theorem ends_pure (h : Q a) : Ends (pure a : Except ε α) Q E := h

theorem ends_throw (h : E e) : Ends (throw e : Except ε α) Q E := h

theorem ends_error (h : E e) : Ends (.error e : Except ε α) Q E := h

/-- Sequencing: what the first part returns satisfies `Q`, and the rest ends well from every such value. -/
theorem ends_bind (hx : Ends x Q E) (hf : ∀ a, Q a → Ends (f a) P E) : Ends (x >>= f) P E := by
  cases x with
  | error e => exact hx
  | ok a => exact hf a hx

theorem ends_mono (hx : Ends x Q E) (hq : ∀ a, Q a → R a) (he : ∀ e, E e → F e) : Ends x R F := by
  cases x with
  | error e => exact he e hx
  | ok a => exact hq a hx

/-- Only the demand on returned values is weakened. -/
theorem ends_imp (hx : Ends x Q E) (hq : ∀ a, Q a → R a) : Ends x R E :=
  ends_mono hx hq (fun _ h => h)

theorem ends_ite {c : Prop} [Decidable c] {y : Except ε α} (hx : c → Ends x Q E) (hy : ¬c → Ends y Q E) :
    Ends (if c then x else y) Q E := by
  by_cases hc : c
  · rw [if_pos hc]; exact hx hc
  · rw [if_neg hc]; exact hy hc

/-- A guarantee gives the postcondition of every value returned. -/
theorem Ends.of_ok (h : Ends x Q E) (hx : x = .ok a) : Q a := by
  subst hx; exact h

/-- A guarantee gives the demand on every abort. -/
theorem Ends.of_error (h : Ends x Q E) (hx : x = .error e) : E e := by
  subst hx; exact h

/-- A computation that can abort in no way returns. -/
theorem Ends.returns (h : Ends x Q E) (he : ∀ e, ¬E e) : ∃ a, x = .ok a ∧ Q a := by
  cases x with
  | error e => exact absurd h (he e)
  | ok a => exact ⟨a, rfl, h⟩

/-- A postcondition of every returned value, with no demand on aborts. -/
theorem ends_of_forall_ok (h : ∀ a, x = .ok a → Q a) : Ends x Q anyAbort := by
  cases x with
  | error e => exact trivial
  | ok a => exact h a rfl

/-- Two guarantees of one computation hold together. -/
theorem Ends.and (hq : Ends x Q E) (hr : Ends x R E) : Ends x (fun a => Q a ∧ R a) E := by
  cases x with
  | error e => exact hq
  | ok a => exact ⟨hq, hr⟩

theorem ok_bind (a : α) (f : α → Except ε β) : ((.ok a : Except ε α) >>= f) = f a := rfl

/-- A computation that returns: its two parts return. -/
theorem bind_eq_ok {b : β} : (x >>= f) = .ok b ↔ ∃ a, x = .ok a ∧ f a = .ok b := by
  cases x with
  | error e => exact ⟨fun h => (nomatch h), fun ⟨_, h, _⟩ => (nomatch h)⟩
  | ok a => exact ⟨fun h => ⟨a, rfl, h⟩, fun ⟨_, h, h'⟩ => by cases h; exact h'⟩

/-- Every abort of the computation is in `E`. -/
def AbortsIn (E : ε → Prop) (x : Except ε α) : Prop := ∀ e, x = .error e → E e

theorem Ends.abortsIn (h : Ends x Q E) : AbortsIn E x := fun _ he => h.of_error he

theorem AbortsIn.ends (h : AbortsIn E x) (hq : ∀ a, x = .ok a → Q a) : Ends x Q E := by
  cases x with
  | error e => exact h e rfl
  | ok a => exact hq a rfl

theorem AbortsIn.any (h : AbortsIn E x) : Ends x (fun _ => True) E := h.ends fun _ _ => trivial

@[simp] theorem abortsIn_pure (a : α) : AbortsIn E (pure a) := fun _ he => (nomatch he)

@[simp] theorem abortsIn_ok (a : α) : AbortsIn E (.ok a) := fun _ he => (nomatch he)

@[simp] theorem abortsIn_throw : AbortsIn E (throw e : Except ε α) ↔ E e :=
  ⟨fun h => h e rfl, fun h _ he => by cases he; exact h⟩

@[simp] theorem abortsIn_bind : AbortsIn E (x >>= f) ↔ AbortsIn E x ∧ ∀ a, x = .ok a → AbortsIn E (f a) := by
  cases x with
  | error e =>
    constructor
    · intro h
      exact ⟨fun _ he => by cases he; exact h e rfl, fun _ ha => (nomatch ha)⟩
    · rintro ⟨h, -⟩ e' he
      cases he
      exact h e rfl
  | ok a =>
    constructor
    · intro h
      exact ⟨abortsIn_ok a, fun b hb => by cases hb; exact h⟩
    · rintro ⟨-, h⟩
      exact h a rfl

@[simp] theorem abortsIn_map {f : α → β} : AbortsIn E (f <$> x) ↔ AbortsIn E x := by
  rw [map_eq_pure_bind, abortsIn_bind]
  exact ⟨fun h => h.1, fun h => ⟨h, fun a _ => abortsIn_pure (f a)⟩⟩

@[simp] theorem abortsIn_ite {c : Prop} [Decidable c] {y : Except ε α} :
    AbortsIn E (if c then x else y) ↔ (c → AbortsIn E x) ∧ (¬c → AbortsIn E y) := by
  by_cases hc : c <;> simp [hc]

/-! Tests of a computation, for `decide`. -/

/-- Whether a computation returns a value with the property. -/
instance decidableReturns [DecidablePred Q] : ∀ x : Except ε α, Decidable (∃ a, x = .ok a ∧ Q a)
  | .ok a => decidable_of_iff (Q a) ⟨fun h => ⟨a, rfl, h⟩, fun h => h.elim fun _ h => (Except.ok.inj h.1).symm ▸ h.2⟩
  | .error _ => isFalse fun h => h.elim fun _ h => by cases h.1

/-- Whether it aborts in this way. -/
instance decidableAborts [DecidableEq ε] (e : ε) : ∀ x : Except ε α, Decidable (x = .error e)
  | .ok _ => isFalse fun h => by cases h
  | .error e' => decidable_of_iff (e' = e) ⟨congrArg _, Except.error.inj⟩

/-- Whether there is a value, with the property. -/
instance decidableSome [DecidablePred Q] : ∀ o : Option α, Decidable (∃ a, o = some a ∧ Q a)
  | some a => decidable_of_iff (Q a) ⟨fun h => ⟨a, rfl, h⟩, fun h => h.elim fun _ h => (Option.some.inj h.1).symm ▸ h.2⟩
  | none => isFalse fun h => h.elim fun _ h => by cases h.1

end Rules

-- the rules are the interface: without this, elaboration evaluates the computations that statements are about
attribute [irreducible] Ends

end Xv6Mmap

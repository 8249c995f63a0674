import Xv6Mmap.Lib.Runs
import Mathlib.Logic.Function.Basic

/-!
# Programs over a shared state

A program returns, or makes an action and goes on with its result. Processes run programs over one shared state, an action at a
time and in any order; a process whose program has returned may start another, and the state may also change beside them.

`Rules` give each process a state of its own, its view: which actions the view allows, what the results can be, and how the view
moves. `Obeys R p g Q` says that the program keeps to the rules from view `g` on and ends with `Q`; it composes along the program. By
`Machine.reach_obeys`, a property of the shared state and the views that every allowed action preserves holds in every run.
-/

namespace Xv6Mmap

open Function

/-- A program that makes actions of type `Act`, each with its type of results. -/
inductive Prog (Act : Type) (Res : Act → Type) (α : Type) : Type where
  | ret (a : α)
  | act (a : Act) (k : Res a → Prog Act Res α)

namespace Prog

variable {Act α β : Type} {Res : Act → Type}

/-- One program after another. -/
def bind : Prog Act Res α → (α → Prog Act Res β) → Prog Act Res β
  | .ret a, f => f a
  | .act a k, f => .act a fun r => (k r).bind f

instance : Monad (Prog Act Res) where
  pure := ret
  bind := bind

theorem bind_ret (p : Prog Act Res α) : p.bind ret = p := by
  induction p with
  | ret a => rfl
  | act a k ih => exact congrArg (act a) (funext ih)

theorem bind_bind {δ : Type} (p : Prog Act Res α) (f : α → Prog Act Res β) (g : β → Prog Act Res δ) :
    (p.bind f).bind g = p.bind fun a => (f a).bind g := by
  induction p with
  | ret a => rfl
  | act a k ih => exact congrArg (act a) (funext ih)

instance : LawfulMonad (Prog Act Res) := LawfulMonad.mk' _ bind_ret (fun _ _ => rfl) bind_bind

/-- The program that makes one action. -/
def call (a : Act) : Prog Act Res (Res a) := .act a .ret

/-- Whether the next action of a program has the property. -/
instance decidableNext {Q : Act → Prop} [DecidablePred Q] : ∀ p : Prog Act Res α, Decidable (∃ a k, p = .act a k ∧ Q a)
  | .ret _ => isFalse fun h => h.elim fun _ h => h.elim fun _ h => by cases h.1
  | .act a k => decidable_of_iff (Q a) ⟨fun h => ⟨a, k, rfl, h⟩,
      fun h => h.elim fun _ h => h.elim fun _ h => (Prog.act.inj h.1).1.symm ▸ h.2⟩

end Prog

/-! ## Rules -/

/-- What a process with a view of type `γ` may do, what it can get, and the view after it. -/
structure Rules (Act : Type) (Res : Act → Type) (γ : Type) where
  may : γ → Act → Prop
  gives : γ → (a : Act) → Res a → Prop
  next : γ → (a : Act) → Res a → γ

section Obeys

variable {Act γ α β : Type} {Res : Act → Type} {R : Rules Act Res γ}

/-- The program keeps to the rules from view `g` on, and returns a value and a view with `Q`. -/
def Obeys (R : Rules Act Res γ) : Prog Act Res α → γ → (α → γ → Prop) → Prop
  | .ret a, g, Q => Q a g
  | .act a k, g, Q => R.may g a ∧ ∀ r, R.gives g a r → Obeys R (k r) (R.next g a r) Q

theorem obeys_mono {p : Prog Act Res α} {g : γ} {Q Q' : α → γ → Prop} (h : Obeys R p g Q) (hq : ∀ a g, Q a g → Q' a g) :
    Obeys R p g Q' := by
  induction p generalizing g with
  | ret a => exact hq a g h
  | act a k ih => exact ⟨h.1, fun r hr => ih r (h.2 r hr)⟩

theorem obeys_bind {p : Prog Act Res α} {f : α → Prog Act Res β} {g : γ} {Q : α → γ → Prop} {Q' : β → γ → Prop}
    (hp : Obeys R p g Q) (hf : ∀ a g, Q a g → Obeys R (f a) g Q') : Obeys R (p >>= f) g Q' := by
  induction p generalizing g with
  | ret a => exact hf a g hp
  | act a k ih => exact ⟨hp.1, fun r hr => ih r (hp.2 r hr)⟩

/-- An action, and what follows it. -/
theorem obeys_call_bind {a : Act} {f : Res a → Prog Act Res β} {g : γ} {Q : β → γ → Prop} (hmay : R.may g a)
    (h : ∀ r, R.gives g a r → Obeys R (f r) (R.next g a r) Q) : Obeys R (Prog.call a >>= f) g Q :=
  ⟨hmay, h⟩

/-- The program keeps to the rules from each view of `G`, and comes back to it. -/
def Keeps (R : Rules Act Res γ) (G : γ → Prop) (p : Prog Act Res α) : Prop :=
  ∀ g, G g → Obeys R p g fun _ g' => g' = g

variable {G : γ → Prop} {p : Prog Act Res α}

theorem keeps_pure (a : α) : Keeps R G (pure a : Prog Act Res α) := fun _ _ => rfl

theorem keeps_bind {f : α → Prog Act Res β} (hp : Keeps R G p) (hf : ∀ a, Keeps R G (f a)) : Keeps R G (p >>= f) := by
  intro g hg
  refine obeys_bind (hp g hg) fun a g' e => ?_
  subst e
  exact hf a g' hg

/-- As before, with something known of the value of the first program. -/
theorem keeps_bind_of {f : α → Prog Act Res β} {Q : α → Prop}
    (hp : ∀ g, G g → Obeys R p g fun a g' => g' = g ∧ Q a) (hf : ∀ a, Q a → Keeps R G (f a)) : Keeps R G (p >>= f) := by
  intro g hg
  refine obeys_bind (hp g hg) fun a g' h => ?_
  obtain ⟨e, ha⟩ := h
  subst e
  exact hf a ha g' hg

theorem keeps_ite {c : Prop} [Decidable c] {q : Prog Act Res α} (hp : c → Keeps R G p) (hq : ¬c → Keeps R G q) :
    Keeps R G (if c then p else q) := by
  split
  · exact hp ‹_›
  · exact hq ‹_›

/-- An action that leaves the view where it is. -/
def Steady (R : Rules Act Res γ) (G : γ → Prop) (a : Act) : Prop :=
  ∀ g, G g → R.may g a ∧ ∀ r, R.gives g a r → R.next g a r = g

theorem keeps_call {a : Act} (h : Steady R G a) : Keeps R G (Prog.call a) := fun g hg => ⟨(h g hg).1, (h g hg).2⟩

theorem Keeps.weaken {G' : γ → Prop} (h : Keeps R G p) (hg : ∀ g, G' g → G g) : Keeps R G' p :=
  fun g hg' => h g (hg g hg')

theorem Keeps.or {G' : γ → Prop} (h : Keeps R G p) (h' : Keeps R G' p) : Keeps R (fun g => G g ∨ G' g) p :=
  fun g hg => hg.elim (h g) (h' g)

end Obeys

/-! ## Runs -/

/-- How actions change the shared state, which programs a process can start, and what else changes the state. -/
structure Machine (Act : Type) (Res : Act → Type) (σ ε κ η : Type) where
  exec : σ → Nat → (a : Act) → Except ε (Res a × σ)
  start : κ → Prog Act Res Unit
  env : σ → η → σ

/-- The shared state and the program each process has still to run. -/
structure Conf (Act : Type) (Res : Act → Type) (σ : Type) where
  state : σ
  prog : Nat → Prog Act Res Unit

/-- What happens next: an action of a process, a new program for one that has returned, or something beside them. -/
inductive ConfEvent (κ η : Type) where
  | act (i : Nat)
  | call (i : Nat) (c : κ)
  | env (e : η)

section Runs

variable {Act σ ε κ η γ : Type} {Res : Act → Type}

namespace Machine

/-- One step. A process that has nothing to do, or is not done yet, stays as it is. -/
def step (M : Machine Act Res σ ε κ η) (c : Conf Act Res σ) : ConfEvent κ η → Except ε (Conf Act Res σ)
  | .act i =>
    match c.prog i with
    | .ret _ => pure c
    | .act a k => do
      let (r, s) ← M.exec c.state i a
      pure ⟨s, update c.prog i (k r)⟩
  | .call i p =>
    match c.prog i with
    | .ret _ => pure ⟨c.state, update c.prog i (M.start p)⟩
    | .act _ _ => pure c
  | .env e => pure ⟨M.env c.state e, c.prog⟩

/-- The next action of process `i`, if it has one, meets the condition. -/
def Meets (P : σ → Nat → Act → Prop) (c : Conf Act Res σ) : ConfEvent κ η → Prop
  | .act i =>
    match c.prog i with
    | .ret _ => True
    | .act a _ => P c.state i a
  | _ => True

/-- The configurations reached from `c₀` by steps whose actions all meet `P` in the state before the action. -/
inductive Reach (M : Machine Act Res σ ε κ η) (P : σ → Nat → Act → Prop) (c₀ : Conf Act Res σ) : Conf Act Res σ → Prop where
  | refl : Reach M P c₀ c₀
  | step {c c' : Conf Act Res σ} {e : ConfEvent κ η} : Reach M P c₀ c → Meets P c e → M.step c e = .ok c' → Reach M P c₀ c'

/-- The same test, computed. -/
def meets (check : σ → Nat → Act → Bool) (c : Conf Act Res σ) : ConfEvent κ η → Bool
  | .act i =>
    match c.prog i with
    | .ret _ => true
    | .act a _ => check c.state i a
  | _ => true

variable {M : Machine Act Res σ ε κ η} {P : σ → Nat → Act → Prop} {c₀ c : Conf Act Res σ} {R : Rules Act Res γ}
  {I : σ → (Nat → γ) → Prop} {z : γ}

/-- A run of a list of events, computed, is a run. -/
theorem reach_runSteps {check : σ → Nat → Act → Bool} (hP : ∀ s i a, check s i a = true → P s i a) {es : List (ConfEvent κ η)}
    (h : runSteps M.step (meets check) es c₀ = some c) : Reach M P c₀ c := by
  refine runSteps_keeps (fun c e c' hr hc hs => ?_) es Reach.refl h
  refine hr.step (e := e) ?_ hs
  cases e with
  | act i =>
    unfold meets at hc
    unfold Meets
    dsimp only at hc ⊢
    cases hp : c.prog i with
    | ret a => exact trivial
    | act a k =>
      rw [hp] at hc
      exact hP _ _ _ hc
  | call i p | env e => trivial

/-- The rule for runs. If every allowed action gives what the rules say and preserves `I`, as does what happens beside the processes,
and every program obeys the rules from the view `z` back to `z`, then `I` holds in every run, for views from which every process obeys
the rules. -/
theorem reach_obeys (hrun : Reach M P c₀ c) (hact : ∀ s g i a r s', I s g → P s i a → R.may (g i) a → M.exec s i a = .ok (r, s') →
      R.gives (g i) a r ∧ I s' (update g i (R.next (g i) a r))) (hcall : ∀ p, Obeys R (M.start p) z fun _ g => g = z)
    (henv : ∀ s g e, I s g → I (M.env s e) g) (h0 : I c₀.state fun _ => z) (hret : ∀ i, c₀.prog i = .ret ()) :
    ∃ g, I c.state g ∧ ∀ i, Obeys R (c.prog i) (g i) fun _ g => g = z := by
  induction hrun with
  | refl =>
    refine ⟨_, h0, fun i => ?_⟩
    rw [hret i]
    rfl
  | @step c c' e _ hp hs ih =>
    obtain ⟨g, hI, hob⟩ := ih
    cases e with
    | act i =>
      have hi := hob i
      unfold Machine.step at hs
      unfold Meets at hp
      dsimp only at hs hp
      cases hprog : c.prog i with
      | ret a =>
        rw [hprog] at hs
        cases hs
        exact ⟨g, hI, hob⟩
      | act a k =>
        rw [hprog] at hs hp hi
        obtain ⟨⟨r, s⟩, hx, hs⟩ := bind_eq_ok.mp hs
        cases hs
        obtain ⟨hgives, hI'⟩ := hact c.state g i a r s hI hp hi.1 hx
        refine ⟨_, hI', fun j => ?_⟩
        by_cases hj : j = i
        · subst hj
          simp only [update_self]
          exact hi.2 r hgives
        · simp only [update_of_ne hj]
          exact hob j
    | call i p =>
      unfold Machine.step at hs
      dsimp only at hs
      cases hprog : c.prog i with
      | ret a =>
        have hz := hob i
        rw [hprog] at hs hz
        cases hs
        refine ⟨g, hI, fun j => ?_⟩
        by_cases hj : j = i
        · subst hj
          have hgz : g j = z := hz
          simp only [update_self]
          rw [hgz]
          exact hcall p
        · simp only [update_of_ne hj]
          exact hob j
      | act a k =>
        rw [hprog] at hs
        cases hs
        exact ⟨g, hI, hob⟩
    | env e =>
      cases hs
      exact ⟨g, henv c.state g e hI, hob⟩

end Machine

end Runs

end Xv6Mmap

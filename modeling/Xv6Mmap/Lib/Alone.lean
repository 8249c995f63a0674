import Xv6Mmap.Lib.Prog
import Xv6Mmap.Lib.Outcome

/-!
# A program run alone

A program whose actions are made one after the other is a function of the state. `Runs exec p s Q E` says what it guarantees from `s`:
`Q` of the value and the state it returns, and `E` of the action that stops it. The rules follow the shape of the program.
-/

namespace Xv6Mmap

variable {Act σ ε α β : Type} {Res : Act → Type}

/-- The program run alone from a state. -/
def Prog.run (exec : σ → (a : Act) → Except ε (Res a × σ)) : Prog Act Res α → σ → Except ε (α × σ)
  | .ret a, s => .ok (a, s)
  | .act a k, s =>
    match exec s a with
    | .ok (r, s) => (k r).run exec s
    | .error e => .error e

/-- What a program run alone guarantees: `Q` of what it returns, `E` of the way it stops. -/
def Runs (exec : σ → (a : Act) → Except ε (Res a × σ)) (p : Prog Act Res α) (s : σ) (Q : α → σ → Prop) (E : ε → Prop) : Prop :=
  Ends (p.run exec s) (fun r => Q r.1 r.2) E

section Rules

variable {exec : σ → (a : Act) → Except ε (Res a × σ)} {p : Prog Act Res α} {s s' : σ} {Q R : α → σ → Prop} {E F : ε → Prop}

theorem run_bind (p : Prog Act Res α) (f : α → Prog Act Res β) (s : σ) :
    (p >>= f).run exec s = (p.run exec s >>= fun r => (f r.1).run exec r.2) := by
  induction p generalizing s with
  | ret a => rfl
  | act a k ih =>
    show Prog.run exec (.act a fun r => k r >>= f) s = _
    rw [Prog.run, Prog.run]
    cases exec s a with
    | error e => rfl
    | ok r => exact ih r.1 r.2

theorem runs_pure {a : α} (h : Q a s) : Runs exec (pure a) s Q E := ends_ok h

theorem runs_bind {f : α → Prog Act Res β} {R : β → σ → Prop} (hp : Runs exec p s Q E)
    (hf : ∀ a s', Q a s' → Runs exec (f a) s' R E) : Runs exec (p >>= f) s R E := by
  unfold Runs
  rw [run_bind]
  exact ends_bind hp fun r hr => hf r.1 r.2 hr

theorem runs_act {a : Act} {f : Res a → Prog Act Res β} {r : Res a} {R : β → σ → Prop} (he : exec s a = .ok (r, s'))
    (h : Runs exec (f r) s' R E) : Runs exec (Prog.call a >>= f) s R E := by
  unfold Runs
  rw [run_bind, Prog.call, Prog.run, he]
  exact h

theorem runs_call {a : Act} {r : Res a} {R : Res a → σ → Prop} (he : exec s a = .ok (r, s')) (h : R r s') :
    Runs exec (Prog.call a) s R E := by
  unfold Runs
  rw [Prog.call, Prog.run, he]
  exact ends_ok h

theorem runs_mono (hp : Runs exec p s Q E) (hq : ∀ a s', Q a s' → R a s') (he : ∀ e, E e → F e) : Runs exec p s R F :=
  ends_mono hp (fun r hr => hq r.1 r.2 hr) he

theorem runs_imp (hp : Runs exec p s Q E) (hq : ∀ a s', Q a s' → R a s') : Runs exec p s R E := runs_mono hp hq fun _ he => he

theorem runs_ite {c : Prop} [Decidable c] {q : Prog Act Res α} (hp : c → Runs exec p s Q E) (hq : ¬c → Runs exec q s Q E) :
    Runs exec (if c then p else q) s Q E := by
  by_cases hc : c
  · rw [if_pos hc]
    exact hp hc
  · rw [if_neg hc]
    exact hq hc

theorem Runs.returns (h : Runs exec p s Q E) (hE : ∀ e, ¬E e) : ∃ a s', p.run exec s = .ok (a, s') ∧ Q a s' := by
  obtain ⟨r, hr, hq⟩ := Ends.returns h hE
  exact ⟨r.1, r.2, hr, hq⟩

end Rules

-- as with `Ends`, the rules are the interface
attribute [irreducible] Runs

end Xv6Mmap

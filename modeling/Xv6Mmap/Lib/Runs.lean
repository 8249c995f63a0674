import Xv6Mmap.Lib.Outcome

/-!
# Runs of a step function

A run of a list of events, each checked before its step; it ends when a step aborts or a check fails. It is the executable side of a
reachability relation: what the relation has at the start and keeps in every checked step, it has of the state the run returns.
-/

namespace Xv6Mmap

section Runs

variable {σ η ε : Type} {step : σ → η → Except ε σ} {check : σ → η → Bool} {R : σ → Prop}

/-- The events in their order, as long as each passes the check and the steps return. -/
def runSteps (step : σ → η → Except ε σ) (check : σ → η → Bool) : List η → σ → Option σ
  | [], s => some s
  | e :: es, s =>
    if check s e then
      match step s e with
      | .ok s' => runSteps step check es s'
      | .error _ => none
    else none

/-- What every checked step keeps holds in the state that a run returns. -/
theorem runSteps_keeps (hstep : ∀ s e s', R s → check s e = true → step s e = .ok s' → R s') (es : List η) {s s' : σ}
    (h0 : R s) (h : runSteps step check es s = some s') : R s' := by
  induction es generalizing s with
  | nil =>
    cases h
    exact h0
  | cons e es ih =>
    unfold runSteps at h
    split at h
    · rename_i hc
      split at h
      · rename_i s1 hs
        exact ih (hstep s e s1 h0 hc hs) h
      · cases h
    · cases h

end Runs

end Xv6Mmap

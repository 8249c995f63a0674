import Mathlib.Logic.Function.Basic
import Mathlib.Order.MinMax
import Mathlib.Order.Nat

/-!
# Tables of records as finite maps

A table is a function from slots to an optional key with its value; its first `n` slots are in use. `findSlot` is the linear search
for a key and `freeSlot` the search for a hole, which falls off the end when there is none. While no key stands in two slots
(`NoDup`), the table is the finite map `valueOf`: a new key put into a hole is an update of the map, and so is a slot cleared.
-/

namespace Xv6Mmap

open Function

section SlotMap

variable {κ ν : Type}

/-- The first hole among the `n` slots from `s` on, or the slot after them. -/
def freeSlot (f : Nat → Option (κ × ν)) : Nat → Nat → Nat
  | 0, s => s
  | n + 1, s => if f s = none then s else freeSlot f n (s + 1)

/-- No key stands in two slots. -/
def NoDup (f : Nat → Option (κ × ν)) (n : Nat) : Prop :=
  ∀ s t k v v', s < n → t < n → f s = some (k, v) → f t = some (k, v') → s = t

theorem freeSlot_spec (f : Nat → Option (κ × ν)) (n s : Nat) :
    s ≤ freeSlot f n s ∧ freeSlot f n s ≤ s + n ∧ (freeSlot f n s < s + n → f (freeSlot f n s) = none) := by
  induction n generalizing s with
  | zero => exact ⟨le_refl s, le_refl s, fun h => absurd h (lt_irrefl s)⟩
  | succ n ih =>
    rw [freeSlot]
    by_cases hs : f s = none
    · rw [if_pos hs]
      exact ⟨le_refl s, by omega, fun _ => hs⟩
    · rw [if_neg hs]
      obtain ⟨h1, h2, h3⟩ := ih (s + 1)
      exact ⟨by omega, by omega, fun h => h3 (by omega)⟩

/-- There is no hole before the one that `freeSlot` finds. -/
theorem freeSlot_le {f : Nat → Option (κ × ν)} {n s t : Nat} (ht : t < s + n) (hs : s ≤ t) (hole : f t = none) : freeSlot f n s ≤ t := by
  induction n generalizing s with
  | zero => omega
  | succ n ih =>
    rw [freeSlot]
    by_cases h : f s = none
    · rw [if_pos h]
      exact hs
    rw [if_neg h]
    have hne : s ≠ t := by
      intro e
      rw [e] at h
      exact h hole
    exact ih (by omega) (by omega)

variable [DecidableEq κ]

/-- The first of the `n` slots from `s` on with key `k`, with its value. -/
def findSlot (f : Nat → Option (κ × ν)) (k : κ) : Nat → Nat → Option (Nat × ν)
  | 0, _ => none
  | n + 1, s =>
    match f s with
    | none => findSlot f k n (s + 1)
    | some (k', v) => if k' = k then some (s, v) else findSlot f k n (s + 1)

/-- The value of a key. -/
def valueOf (f : Nat → Option (κ × ν)) (n : Nat) (k : κ) : Option ν := (findSlot f k n 0).map Prod.snd

variable {f f' : Nat → Option (κ × ν)} {k : κ} {v : ν} {n s t : Nat}

theorem findSlot_some (h : findSlot f k n s = some (t, v)) : s ≤ t ∧ t < s + n ∧ f t = some (k, v) := by
  induction n generalizing s with
  | zero => cases h
  | succ n ih =>
    have hnext : findSlot f k n (s + 1) = some (t, v) → s ≤ t ∧ t < s + (n + 1) ∧ f t = some (k, v) := by
      intro h'
      obtain ⟨h1, h2, h3⟩ := ih h'
      exact ⟨by omega, by omega, h3⟩
    rw [findSlot] at h
    cases hs : f s with
    | none =>
      rw [hs] at h
      exact hnext h
    | some e =>
      rw [hs] at h
      obtain ⟨k', v'⟩ := e
      by_cases hk : k' = k
      · simp only [if_pos hk] at h
        cases h
        exact ⟨le_refl t, by omega, by rw [hs, hk]⟩
      · simp only [if_neg hk] at h
        exact hnext h

theorem findSlot_none (h : findSlot f k n s = none) (hs : s ≤ t) (ht : t < s + n) : f t ≠ some (k, v) := by
  induction n generalizing s with
  | zero => omega
  | succ n ih =>
    rw [findSlot] at h
    intro he
    by_cases hts : t = s
    · subst hts
      rw [he] at h
      simp only [if_true] at h
      cases h
    · refine ih ?_ (by omega : s + 1 ≤ t) (by omega) he
      cases hs' : f s with
      | none =>
        rw [hs'] at h
        exact h
      | some e =>
        rw [hs'] at h
        obtain ⟨k', v'⟩ := e
        by_cases hk : k' = k
        · simp only [if_pos hk] at h
          cases h
        · simp only [if_neg hk] at h
          exact h

/-- The searches look at the slots from `s` on only. -/
theorem findSlot_congr (h : ∀ t, s ≤ t → t < s + n → f' t = f t) : findSlot f' k n s = findSlot f k n s := by
  induction n generalizing s with
  | zero => rfl
  | succ n ih =>
    rw [findSlot, findSlot, h s (le_refl s) (by omega), ih fun t h1 h2 => h t (by omega) (by omega)]

theorem valueOf_iff (h : NoDup f n) : valueOf f n k = some v ↔ ∃ t < n, f t = some (k, v) := by
  rw [valueOf]
  constructor
  · intro he
    obtain ⟨⟨t, v'⟩, hf, rfl⟩ := Option.map_eq_some_iff.mp he
    obtain ⟨-, h2, h3⟩ := findSlot_some hf
    exact ⟨t, by omega, h3⟩
  · intro he
    obtain ⟨t, ht, hft⟩ := he
    cases hf : findSlot f k n 0 with
    | none => exact absurd hft (findSlot_none hf (Nat.zero_le t) (by omega))
    | some e =>
      obtain ⟨s, v'⟩ := e
      obtain ⟨-, h2, h3⟩ := findSlot_some hf
      have hst := h s t k v' v (by omega) ht h3 hft
      rw [hst, hft] at h3
      cases h3
      rfl

theorem valueOf_eq_none (h : NoDup f n) : valueOf f n k = none ↔ ∀ t < n, ∀ v, f t ≠ some (k, v) := by
  rw [Option.eq_none_iff_forall_ne_some]
  constructor
  · intro hn t ht v hf
    exact hn v ((valueOf_iff h).mpr ⟨t, ht, hf⟩)
  · intro hn v hv
    obtain ⟨t, ht, hf⟩ := (valueOf_iff h).mp hv
    exact hn t ht v hf

/-- Equal maps, from the slots that hold a key and a value. -/
theorem valueOf_ext {n' : Nat} (h' : NoDup f' n') {g : κ → Option ν}
    (hg : ∀ k v, (∃ t < n', f' t = some (k, v)) ↔ g k = some v) : valueOf f' n' = g := by
  funext k
  refine Option.ext fun v => ?_
  rw [valueOf_iff h', hg]

/-- A new key put into a hole, or into the slot after the last. -/
theorem NoDup.put (h : NoDup f n) (ht : t ≤ n) (hfree : t < n → f t = none) (hk : valueOf f n k = none) :
    NoDup (update f t (some (k, v))) (max n (t + 1)) ∧
      valueOf (update f t (some (k, v))) (max n (t + 1)) = update (valueOf f n) k (some v) := by
  rw [valueOf_eq_none h] at hk
  -- a slot other than `t` is as it was, and below `n`
  have hold : ∀ s, s < max n (t + 1) → s ≠ t → s < n := by
    intro s hs hne
    rcases lt_max_iff.mp hs with hs | hs
    · exact hs
    · omega
  have hdup : NoDup (update f t (some (k, v))) (max n (t + 1)) := by
    intro a b k1 v1 v2 ha hb hfa hfb
    by_cases ea : a = t
    · subst ea
      rw [update_self] at hfa
      cases hfa
      by_cases eb : b = a
      · exact eb.symm
      · rw [update_of_ne eb] at hfb
        exact absurd hfb (hk b (hold b hb eb) v2)
    · rw [update_of_ne ea] at hfa
      by_cases eb : b = t
      · subst eb
        rw [update_self] at hfb
        cases hfb
        exact absurd hfa (hk a (hold a ha ea) v1)
      · rw [update_of_ne eb] at hfb
        exact h a b k1 v1 v2 (hold a ha ea) (hold b hb eb) hfa hfb
  refine ⟨hdup, valueOf_ext hdup fun k' v' => ?_⟩
  by_cases ek : k' = k
  · subst ek
    rw [update_self]
    constructor
    · intro he
      obtain ⟨s, hs, hf⟩ := he
      by_cases es : s = t
      · subst es
        rw [update_self] at hf
        cases hf
        rfl
      · rw [update_of_ne es] at hf
        exact absurd hf (hk s (hold s hs es) v')
    · intro he
      cases he
      exact ⟨t, lt_max_iff.mpr (Or.inr (Nat.lt_succ_self t)), update_self ..⟩
  · rw [update_of_ne ek, valueOf_iff h]
    constructor
    · intro he
      obtain ⟨s, hs, hf⟩ := he
      have es : s ≠ t := by
        intro es
        subst es
        rw [update_self] at hf
        cases hf
        exact ek rfl
      rw [update_of_ne es] at hf
      exact ⟨s, hold s hs es, hf⟩
    · intro he
      obtain ⟨s, hs, hf⟩ := he
      have es : s ≠ t := by
        intro es
        rw [es] at hs hf
        rw [hfree hs] at hf
        cases hf
      exact ⟨s, lt_max_iff.mpr (Or.inl hs), by rw [update_of_ne es]; exact hf⟩

theorem NoDup.clear (h : NoDup f n) (ht : t < n) (hf : f t = some (k, v)) :
    NoDup (update f t none) n ∧ valueOf (update f t none) n = update (valueOf f n) k none := by
  have hother : ∀ s k1 v1, update f t none s = some (k1, v1) → s ≠ t ∧ f s = some (k1, v1) := by
    intro s k1 v1 hs
    have es : s ≠ t := by
      intro es
      rw [es, update_self] at hs
      cases hs
    rw [update_of_ne es] at hs
    exact ⟨es, hs⟩
  have hdup : NoDup (update f t none) n :=
    fun a b k1 v1 v2 ha hb hfa hfb => h a b k1 v1 v2 ha hb (hother a k1 v1 hfa).2 (hother b k1 v2 hfb).2
  refine ⟨hdup, valueOf_ext hdup fun k' v' => ?_⟩
  by_cases ek : k' = k
  · subst ek
    rw [update_self]
    constructor
    · intro he
      obtain ⟨s, hs, hfs⟩ := he
      obtain ⟨hne, hfs⟩ := hother s k' v' hfs
      exact absurd (h s t k' v' v hs ht hfs hf) hne
    · intro he
      cases he
  · rw [update_of_ne ek, valueOf_iff h]
    constructor
    · intro he
      obtain ⟨s, hs, hfs⟩ := he
      exact ⟨s, hs, (hother s k' v' hfs).2⟩
    · intro he
      obtain ⟨s, hs, hfs⟩ := he
      have es : s ≠ t := by
        intro es
        rw [es, hf] at hfs
        cases hfs
        exact ek rfl
      exact ⟨s, hs, by rw [update_of_ne es]; exact hfs⟩

end SlotMap

end Xv6Mmap

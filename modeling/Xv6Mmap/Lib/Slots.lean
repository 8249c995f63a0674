import Mathlib.Logic.Function.Basic
import Mathlib.Data.Finset.Card
import Mathlib.Data.Finset.Filter
import Mathlib.Data.Finset.Prod
import Mathlib.Data.Finset.Range

/-!
# Tables of slots

A table of pointers is a function from slots to an optional target, and `refsTo S g b` counts the slots of `S` that point to `b`. A
reference count is exact when it equals such a number (`refsTo_agree`). `firstSlot n p` is the search that allocates: the first of
the slots below `n` with the property `p`.
-/

namespace Xv6Mmap

variable {n i : Nat} {p : Nat → Bool}

/-- How many slots of `S` point to `b`. -/
def refsTo {ι β : Type} [DecidableEq β] (S : Finset ι) (g : ι → Option β) (b : β) : Nat :=
  (S.filter fun i => g i = some b).card

/-- The first slot below `n` with the property `p`. -/
def firstSlot (n : Nat) (p : Nat → Bool) : Option Nat := (List.range n).find? p

theorem firstSlot_some (h : firstSlot n p = some i) : i < n ∧ p i = true :=
  ⟨List.mem_range.mp (List.mem_of_find?_eq_some h), List.find?_some h⟩

theorem firstSlot_none (h : firstSlot n p = none) (hi : i < n) : p i = false := by
  simpa using List.find?_eq_none.mp h i (List.mem_range.mpr hi)

/-- The slots before the one found do not have the property. -/
theorem firstSlot_first (h : firstSlot n p = some i) {j : Nat} (hj : j < i) : p j = false := by
  simpa using (List.find?_range_eq_some.mp h).2.2 j hj

/-- The places of a table with `n` rows of `m` slots. -/
def grid (n m : Nat) : Finset (Nat × Nat) := Finset.range n ×ˢ Finset.range m

theorem mem_grid {m j : Nat} (hi : i < n) (hj : j < m) : (i, j) ∈ grid n m :=
  Finset.mem_product.mpr ⟨Finset.mem_range.mpr hi, Finset.mem_range.mpr hj⟩

-- a grid of known size is not written out
attribute [irreducible] grid

section Refs

variable {ι β : Type} [DecidableEq β] {S : Finset ι} {g g' : ι → Option β} {b : β}

theorem refsTo_congr (h : ∀ i ∈ S, g' i = g i) : refsTo S g' b = refsTo S g b := by
  unfold refsTo
  congr 1
  refine Finset.filter_congr fun i hi => ?_
  rw [h i hi]

theorem refsTo_pos {i : ι} (hi : i ∈ S) (hg : g i = some b) : 0 < refsTo S g b :=
  Finset.card_pos.mpr ⟨i, Finset.mem_filter.mpr ⟨hi, hg⟩⟩

theorem refsTo_eq_zero (h : ∀ i ∈ S, g i ≠ some b) : refsTo S g b = 0 :=
  Finset.card_eq_zero.mpr (Finset.filter_eq_empty_iff.mpr fun _ hi => h _ hi)

theorem not_of_refsTo_eq_zero (h : refsTo S g b = 0) {i : ι} (hi : i ∈ S) : g i ≠ some b := by
  intro hg
  have := refsTo_pos hi hg
  omega

variable [DecidableEq ι]

theorem refsTo_erase {i : ι} (hi : i ∈ S) : refsTo S g b = refsTo (S.erase i) g b + if g i = some b then 1 else 0 := by
  unfold refsTo
  rw [Finset.filter_erase]
  by_cases hg : g i = some b
  · have hm : i ∈ S.filter fun i => g i = some b := Finset.mem_filter.mpr ⟨hi, hg⟩
    rw [if_pos hg, Finset.card_erase_add_one hm]
  · have hm : i ∉ S.filter fun i => g i = some b := fun h => hg (Finset.mem_filter.mp h).2
    rw [if_neg hg, Finset.erase_eq_of_notMem hm, add_zero]

/-- Tables that agree outside one slot: the counts differ by what that slot points to. -/
theorem refsTo_agree {i : ι} (hi : i ∈ S) (h : ∀ j ∈ S, j ≠ i → g' j = g j) :
    refsTo S g' b + (if g i = some b then 1 else 0) = refsTo S g b + if g' i = some b then 1 else 0 := by
  have he : refsTo (S.erase i) g' b = refsTo (S.erase i) g b :=
    refsTo_congr fun j hj => h j (Finset.mem_of_mem_erase hj) (Finset.ne_of_mem_erase hj)
  rw [refsTo_erase (g := g') hi, refsTo_erase (g := g) hi]
  omega

end Refs

end Xv6Mmap

import Xv6Mmap.Grep
import Mathlib.Computability.Language

/-!
# What grep's patterns mean
-/

namespace Xv6Mmap

open List

/-- An item of a pattern: a character, or a character with `*` after it. -/
inductive Item where
  | one (c : UInt8)
  | many (c : UInt8)

/-- The items of a pattern, and whether it ends in `$`. -/
def items : List UInt8 → List Item × Bool
  | [] => ([], false)
  | c :: 42 :: re => (.many c :: (items re).1, (items re).2)
  | [36] => ([], true)
  | c :: re => (.one c :: (items re).1, (items re).2)

def Item.words : Item → Language UInt8
  | .one c => { w | ∃ b, w = [b] ∧ (c = 46 ∨ c = b) }
  | .many c => { w | ∀ b ∈ w, c = 46 ∨ c = b }

/-- The text begins with a word of the items, and ends with it after `$`. -/
def Begins (re : List Item × Bool) (text : List UInt8) : Prop :=
  ∃ word rest, text = word ++ rest ∧ word ∈ (re.1.map Item.words).prod ∧ (re.2 = true → rest = [])

/-- The meaning of a pattern: the word stands at the beginning of the text after `^`, and anywhere without it. -/
def Matched : List UInt8 → List UInt8 → Prop
  | 94 :: re, text => Begins (items re) text
  | re, text => ∃ before rest, text = before ++ rest ∧ Begins (items re) rest

@[simp] theorem mem_one {c : UInt8} {w : List UInt8} : w ∈ (Item.one c).words ↔ ∃ b, w = [b] ∧ (c = 46 ∨ c = b) := Iff.rfl

@[simp] theorem mem_many {c : UInt8} {w : List UInt8} : w ∈ (Item.many c).words ↔ ∀ b ∈ w, c = 46 ∨ c = b := Iff.rfl

theorem begins_cons {i : Item} {is : List Item} {anchor : Bool} {text : List UInt8} :
    Begins (i :: is, anchor) text ↔ ∃ word rest, text = word ++ rest ∧ word ∈ i.words ∧ Begins (is, anchor) rest := by
  constructor
  · rintro ⟨_, rest, rfl, ⟨v, hv, w, hw, rfl⟩, h⟩
    exact ⟨v, w ++ rest, append_assoc .., hv, w, rest, rfl, hw, h⟩
  · rintro ⟨v, _, rfl, hv, w, rest, rfl, hw, h⟩
    exact ⟨v ++ w, rest, (append_assoc ..).symm, ⟨v, hv, w, hw, rfl⟩, h⟩

theorem matchstar_iff {here : List UInt8 → Bool} {c : UInt8} {text : List UInt8} :
    matchstar here c text = true ↔ ∃ word rest, text = word ++ rest ∧ word ∈ (Item.many c).words ∧ here rest = true := by
  induction text with
  | nil => simp [matchstar]
  | cons t text ih =>
    simp only [matchstar, Bool.or_eq_true, Bool.and_eq_true, beq_iff_eq, ih]
    constructor
    · rintro (h | ⟨ht, word, rest, rfl, hw, h⟩)
      · exact ⟨[], _, rfl, by simp, h⟩
      · refine ⟨t :: word, rest, rfl, ?_, h⟩
        rintro b (_ | ⟨_, hb⟩)
        · exact ht.symm.imp_right Eq.symm
        · exact hw b hb
    · rintro ⟨_ | ⟨b, word⟩, rest, h1, hw, h⟩
      · exact .inl (h1 ▸ h)
      · cases h1
        exact .inr ⟨(hw t mem_cons_self).symm.imp_left Eq.symm, word, rest, rfl, fun b hb => hw b (mem_cons_of_mem _ hb), h⟩

theorem matchhere_iff (re text : List UInt8) : matchhere re text = true ↔ Begins (items re) text := by
  induction re using items.induct generalizing text with
  | case1 | case3 => simp [matchhere, Begins, items]
  | case2 c re ih => simp only [matchhere, matchstar_iff, ih, items, begins_cons]
  | case4 c re h1 h2 ih =>
    simp only [items, begins_cons]
    cases text with
    | nil => simp [matchhere]
    | cons t text => simp [matchhere, ih]

theorem match_iff (re text : List UInt8) : matchText re text = true ↔ Matched re text := by
  unfold matchText Matched
  split
  · exact matchhere_iff _ _
  · simp only [any_eq_true, mem_tails, matchhere_iff, IsSuffix]
    grind

end Xv6Mmap

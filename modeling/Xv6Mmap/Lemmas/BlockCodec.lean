import Xv6Mmap.BlockFs

/-!
# Numbers, bits and inodes in a block

What is written into a block is read back, and what is beside it stays: little-endian numbers, bits of the bitmap, and `struct dinode`s.
-/

namespace Xv6Mmap.Blk

variable {d e : Bytes} {o o' n n' v x : Nat}

/-! ## Numbers -/

theorem leField_congr (h : ∀ x, o ≤ x → x < o + n → d x = e x) : leField d o n = leField e o n := by
  induction n generalizing o with
  | zero => rfl
  | succ n ih =>
    rw [leField, leField, h o (le_refl o) (by omega), ih fun x h1 h2 => h x (by omega) (by omega)]

theorem leField_zero (h : ∀ x, o ≤ x → x < o + n → d x = 0) : leField d o n = 0 := by
  induction n generalizing o with
  | zero => rfl
  | succ n ih =>
    rw [leField, h o (le_refl o) (by omega), ih fun x h1 h2 => h x (by omega) (by omega)]
    rfl

theorem leField_digits (h : ∀ k < n, d (o + k) = UInt8.ofNat (v / 256 ^ k)) : leField d o n = v % 256 ^ n := by
  induction n generalizing o v with
  | zero => rw [leField, Nat.pow_zero, Nat.mod_one]
  | succ n ih =>
    have hrest : leField d (o + 1) n = v / 256 % 256 ^ n := by
      refine ih fun k hk => ?_
      rw [add_assoc, add_comm 1 k, h (k + 1) (by omega), Nat.pow_succ, mul_comm, Nat.div_div_eq_div_mul]
    have hfirst := h 0 (by omega)
    rw [add_zero, Nat.pow_zero, Nat.div_one] at hfirst
    rw [leField, hrest, hfirst, Nat.pow_succ, mul_comm (256 ^ n), Nat.mod_mul]
    rfl

theorem leField_putLe (hv : v < 256 ^ n) : leField (putLe d o n v) o n = v := by
  refine (leField_digits (v := v) fun k hk => ?_).trans (Nat.mod_eq_of_lt hv)
  rw [putLe, if_pos (by omega), Nat.add_sub_cancel_left]

theorem putLe_apart (h : x < o ∨ o + n ≤ x) : putLe d o n v x = d x := if_neg (by omega)

theorem leField_putLe_apart (h : o' + n' ≤ o ∨ o + n ≤ o') : leField (putLe d o n v) o' n' = leField d o' n' :=
  leField_congr fun x _ _ => putLe_apart (by omega)

/-! ## The bitmap -/

theorem toNat_bitMask (k : Nat) : (bitMask k).toNat = 2 ^ (k % 8) := by
  have h : ∀ j < 8, ((1 : UInt8) <<< UInt8.ofNat j).toNat = 2 ^ j := by decide
  exact h (k % 8) (Nat.mod_lt k (by decide))

theorem bitFree_eq (d : Bytes) (k : Nat) : bitFree d k = !(d (k / 8)).toNat.testBit (k % 8) := by
  have hnat : (d (k / 8) &&& bitMask k).toNat = if (d (k / 8)).toNat.testBit (k % 8) then 2 ^ (k % 8) else 0 := by
    rw [UInt8.toNat_and, toNat_bitMask, Nat.and_two_pow]
    cases (d (k / 8)).toNat.testBit (k % 8) <;> simp
  have hz : (d (k / 8) &&& bitMask k = 0) ↔ (d (k / 8) &&& bitMask k).toNat = 0 := by
    rw [← UInt8.toNat_inj]
    rfl
  unfold bitFree
  rw [Bool.eq_iff_iff, beq_iff_eq, hz, hnat]
  cases (d (k / 8)).toNat.testBit (k % 8) <;> simp

theorem bitFree_bitSet (d : Bytes) (k j : Nat) : bitFree (bitSet d k) j = (!decide (j = k) && bitFree d j) := by
  rw [bitFree_eq, bitFree_eq, bitSet]
  by_cases hbyte : j / 8 = k / 8
  · rw [hbyte, Function.update_self, UInt8.toNat_or, toNat_bitMask, Nat.testBit_or, Nat.testBit_two_pow, Bool.not_or, Bool.and_comm]
    have : k % 8 = j % 8 ↔ j = k := by omega
    simp only [this]
  · rw [Function.update_of_ne hbyte, decide_eq_false (by rintro rfl; exact hbyte rfl), Bool.not_false, Bool.true_and]

/-! ## Inodes -/

theorem shortAt_congr (h : leField d o 2 = leField e o' 2) : shortAt d o = shortAt e o' := by
  unfold shortAt
  rw [h]

theorem dinode_congr (h : ∀ x, o ≤ x → x < o + 64 → d x = e x) :
    dinodeInfo d o = dinodeInfo e o ∧ ∀ k ≤ ndirect, dinodeAddrs d o k = dinodeAddrs e o k := by
  have hfield : ∀ {o' n}, o ≤ o' → o' + n ≤ o + 64 → leField d o' n = leField e o' n :=
    fun h1 h2 => leField_congr fun x h3 h4 => h x (by omega) (by omega)
  constructor
  · unfold dinodeInfo
    rw [hfield (by omega) (by omega), hfield (by omega) (by omega), shortAt_congr (hfield (by omega) (by omega)),
      shortAt_congr (hfield (by omega) (by omega)), shortAt_congr (hfield (by omega) (by omega))]
  · intro k hk
    have hk : k ≤ 12 := hk
    exact hfield (by omega) (by omega)

theorem inodeOff_apart {y z : Nat} (hblock : y / ipb = z / ipb) (hne : y ≠ z) :
    inodeOff y + 64 ≤ inodeOff z ∨ inodeOff z + 64 ≤ inodeOff y := by
  have hy := Nat.div_add_mod y ipb
  have hz := Nat.div_add_mod z ipb
  rw [hblock] at hy
  unfold inodeOff
  omega

end Xv6Mmap.Blk

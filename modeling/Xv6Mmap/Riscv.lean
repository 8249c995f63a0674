import Mathlib.Data.Nat.Bitwise

/-!
# Machine words, pages and page-table entries

The constants and macros of `riscv.h`, `memlayout.h`, `param.h` and `vma.h`. A `uint64` is a natural number below `2 ^ 64`, and an
operation that can wrap says so with `% 2 ^ 64`; the same for `uint` and `2 ^ 32`. A physical page is named by its number.
-/

namespace Xv6Mmap

variable {a b sz : Nat}

/-! ## Constants -/

/-- `PGSIZE`. -/
abbrev pgSize : Nat := 4096

/-- `MAXVA`, one beyond the highest virtual address. -/
abbrev maxVa : Nat := 2 ^ 38

/-- `TRAMPOLINE`, the highest user page. -/
abbrev trampoline : Nat := maxVa - pgSize

/-- `TRAPFRAME`, the page below it. -/
abbrev trapframe : Nat := trampoline - pgSize

/-- `START_ADDRESS`, where the first VMA of a process is placed. -/
abbrev startAddress : Nat := 0x2000000000

/-- `TOP_ADDRESS`, the address no VMA may pass. -/
abbrev topAddress : Nat := 0x3FFFFFDFFF

/-- `KERNBASE` and `PHYSTOP`: the physical memory the kernel maps. -/
abbrev kernBase : Nat := 0x80000000
abbrev physTop : Nat := kernBase + 128 * 1024 * 1024

/-- `NPROC`, `NOFILE`, `NFILE`, `NINODE`, `NDEV`: the sizes of the kernel's tables. -/
abbrev nproc : Nat := 64
abbrev nofile : Nat := 16
abbrev nfile : Nat := 100
abbrev ninode : Nat := 50
abbrev ndev : Nat := 10

/-- `MAX_VMAS`, the VMAs of one process, and `VMAS_STORED`, the slots of the global table. -/
abbrev maxVmas : Nat := 10
abbrev vmasStored : Nat := 30

/-- The value `-1` (`0xffffffffffffffff`) of a system call that fails. -/
abbrev minusOne : Nat := 2 ^ 64 - 1

/-! ## Rounding to pages -/

/-- `PGROUNDUP` on `uint64`. -/
def pgRoundUp (sz : Nat) : Nat := (sz + (pgSize - 1)) % 2 ^ 64 / pgSize * pgSize

/-- `PGROUNDDOWN`. -/
def pgRoundDown (a : Nat) : Nat := a / pgSize * pgSize

theorem pgRoundUp_mod (sz : Nat) : pgRoundUp sz % pgSize = 0 := Nat.mul_mod_left _ _

theorem pgRoundDown_mod (a : Nat) : pgRoundDown a % pgSize = 0 := Nat.mul_mod_left _ _

theorem pgRoundDown_le (a : Nat) : pgRoundDown a ≤ a := Nat.div_mul_le_self a pgSize

theorem pgRoundDown_of_aligned (h : a % pgSize = 0) : pgRoundDown a = a := by
  simp only [pgRoundDown, pgSize] at h ⊢
  omega

theorem le_pgRoundDown (hb : b % pgSize = 0) (h : b ≤ a) : b ≤ pgRoundDown a := by
  simp only [pgRoundDown, pgSize] at hb ⊢
  omega

/-- Rounding up without wrapping: the least page-aligned address not below `sz`. -/
theorem pgRoundUp_eq (h : sz + 4095 < 2 ^ 64) : pgRoundUp sz = (sz + 4095) / pgSize * pgSize := by
  simp only [pgRoundUp, pgSize]
  rw [Nat.mod_eq_of_lt (by omega)]

theorem pgRoundUp_of_aligned (h : sz % pgSize = 0) (hs : sz < 2 ^ 64) : pgRoundUp sz = sz := by
  simp only [pgRoundUp, pgSize] at h ⊢
  omega

theorem le_pgRoundUp (h : sz + 4095 < 2 ^ 64) : sz ≤ pgRoundUp sz := by
  simp only [pgRoundUp, pgSize]
  omega

/-- A page-aligned bound of `sz` bounds `sz` rounded up. -/
theorem pgRoundUp_le (hb : b % pgSize = 0) (h : sz ≤ b) : pgRoundUp sz ≤ b := by
  simp only [pgRoundUp, pgSize] at hb ⊢
  omega

/-! ## Page-table entries -/

/-- `PTE_V`, `PTE_R`, `PTE_W`, `PTE_X`, `PTE_U` and the dirty bit `PTE_D`. -/
abbrev pteV : Nat := 1
abbrev pteR : Nat := 2
abbrev pteW : Nat := 4
abbrev pteX : Nat := 8
abbrev pteU : Nat := 16
abbrev pteD : Nat := 128

/-- `PA2PTE`, `PTE2PA` and `PTE_FLAGS`. -/
def pa2pte (pa : Nat) : Nat := (pa >>> 12) <<< 10
def pte2pa (pte : Nat) : Nat := (pte >>> 10) <<< 12
def pteFlags (pte : Nat) : Nat := pte &&& 0x3FF

/-- `*pte & flag`, as a test. -/
def hasFlag (pte flag : Nat) : Bool := pte &&& flag != 0

/-- `PX(level, va)`: the 9-bit index of level `level`. -/
def px (level va : Nat) : Nat := (va >>> (12 + 9 * level)) &&& 0x1FF

/-- The physical page a PTE names. -/
def ptePage (pte : Nat) : Nat := pte2pa pte / pgSize

/-- The PTE `mappages` writes for a physical address and permissions. -/
def mkPte (pa perm : Nat) : Nat := pa2pte pa ||| perm ||| pteV

theorem px_eq (level va : Nat) : px level va = va / 2 ^ (12 + 9 * level) % 512 := by
  rw [px, Nat.shiftRight_eq_div_pow, show (0x1FF : Nat) = 2 ^ 9 - 1 from rfl, Nat.and_two_pow_sub_one_eq_mod]

theorem px_lt (level va : Nat) : px level va < 512 := by
  rw [px_eq]
  exact Nat.mod_lt _ (by omega)

/-- A page of the three-level address space: a page-aligned address below `2 ^ 39`. -/
def PageAddr (va : Nat) : Prop := va % pgSize = 0 ∧ va < 2 ^ 39

theorem px_inj (ha : PageAddr a) (hb : PageAddr b) (h2 : px 2 a = px 2 b) (h1 : px 1 a = px 1 b) (h0 : px 0 a = px 0 b) : a = b := by
  simp only [px_eq, PageAddr, pgSize] at *
  omega

/-- The page whose three indices are given. -/
def vaOf (i j k : Nat) : Nat := i * 2 ^ 30 + j * 2 ^ 21 + k * 2 ^ 12

theorem px_vaOf {i j k : Nat} (hi : i < 512) (hj : j < 512) (hk : k < 512) :
    px 2 (vaOf i j k) = i ∧ px 1 (vaOf i j k) = j ∧ px 0 (vaOf i j k) = k := by
  simp only [px_eq, vaOf]
  omega

theorem pageAddr_vaOf {i j k : Nat} (hi : i < 512) (hj : j < 512) (hk : k < 512) : PageAddr (vaOf i j k) := by
  simp only [PageAddr, vaOf, pgSize]
  omega

theorem px_pgRoundDown (level va : Nat) : px level (pgRoundDown va) = px level va := by
  have e : ∀ n, va / 4096 * 4096 / (4096 * n) = va / (4096 * n) := by
    intro n
    rw [← Nat.div_div_eq_div_mul, ← Nat.div_div_eq_div_mul, Nat.mul_div_cancel _ (by omega)]
  simp only [px_eq, pgRoundDown, pgSize, Nat.pow_add]
  rw [e]

section Bits

/-- A PTE made from a physical address below `2 ^ 56` and permissions within the flag bits, taken apart. -/
theorem mkPte_eq {pa perm : Nat} (hperm : perm < 1024) : mkPte pa perm = pa / 4096 * 1024 + (perm ||| pteV) := by
  have hlt : perm ||| 1 < 2 ^ 10 := Nat.or_lt_two_pow (by omega) (by omega)
  rw [mkPte, pa2pte, Nat.or_assoc, Nat.shiftRight_eq_div_pow, ← Nat.shiftLeft_add_eq_or_of_lt hlt,
    Nat.shiftLeft_eq]

theorem ptePage_mkPte {pa perm : Nat} (hperm : perm < 1024) : ptePage (mkPte pa perm) = pa / pgSize := by
  have hlt : perm ||| 1 < 2 ^ 10 := Nat.or_lt_two_pow (by omega) (by omega)
  rw [mkPte_eq hperm, ptePage, pte2pa, Nat.shiftLeft_eq]
  simp only [pgSize, pteV] at *
  omega

theorem pte2pa_eq (pte : Nat) : pte2pa pte = ptePage pte * pgSize := by
  rw [ptePage, pte2pa]
  simp only [pgSize]
  omega

/-- A flag of the low bits of a made PTE is a flag of the permissions, or the valid bit. -/
theorem testBit_mkPte {pa perm i : Nat} (hi : i < 10) : (mkPte pa perm).testBit i = (perm.testBit i || pteV.testBit i) := by
  rw [mkPte, pa2pte, Nat.testBit_or, Nat.testBit_or]
  simp [Nat.not_le.mpr hi]

theorem hasFlag_two_pow (pte i : Nat) : hasFlag pte (2 ^ i) = pte.testBit i := by
  rw [hasFlag, Nat.and_two_pow]
  cases pte.testBit i <;> simp

end Bits

end Xv6Mmap

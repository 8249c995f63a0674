import Xv6Mmap.Trap

/-!
# Booting, and running concrete systems

`kinit` frees every page of the managed memory. `runEvents` runs a list of events from a booted kernel over any disk, and what it
returns is reached in the sense of `Reach`. The last section fixes a linker layout and a small disk, for the examples of the other
modules.
-/

namespace Xv6Mmap

open Function Mem

variable {Λ : Layout} {check : Kernel → Nat → Event → Bool}

/-! ## `kinit` -/

/-- `_kfree`: `kfree` without its look at the count. -/
def kfreeInit (Λ : Layout) (m : Mem) (pa : Nat) : Except Panic Mem :=
  if pa % pgSize ≠ 0 ∨ pa < Λ.endAddr ∨ physTop ≤ pa then throw .kfree
  else pure
    { freelist := some (pa / pgSize)
      runs := update m.runs (pa / pgSize) { m.runs (pa / pgSize) with next := m.freelist }
      out := m.out
      ram := update m.ram (pa / pgSize) fun _ => 1 }

/-- The loop of `_freerange` over the `n` pages from `p` on. -/
def freerangeInit (Λ : Layout) : Nat → Mem → Nat → Except Panic Mem
  | 0, m, _ => pure m
  | n + 1, m, p => do
    let m ← kfreeInit Λ m p
    freerangeInit Λ n m (p + pgSize)

/-- `kinit`. -/
def kinit (Λ : Layout) (m : Mem) : Except Panic Mem :=
  freerangeInit Λ ((physTop - pgRoundUp Λ.endAddr) / pgSize) m (pgRoundUp Λ.endAddr)

/-- Memory before `kinit`: the kernel's own data is zero. -/
def Mem.zero : Mem := ⟨none, fun _ => ⟨none, 0⟩, fun _ => false, fun _ _ => 0⟩

/-- The first page that `kinit` frees. -/
def Layout.firstPage (Λ : Layout) : Nat := pgRoundUp Λ.endAddr / pgSize

/-- Memory once `kinit` freed `n` pages: each links to the one below. -/
def Mem.freed (Λ : Layout) (n : Nat) : Mem where
  freelist := if n = 0 then none else some (Λ.firstPage + n - 1)
  runs := fun r => ⟨if Λ.firstPage < r ∧ r < Λ.firstPage + n then some (r - 1) else none, 0⟩
  out := fun _ => false
  ram := fun r _ => if Λ.firstPage ≤ r ∧ r < Λ.firstPage + n then 1 else 0

theorem Mem.freed_zero (Λ : Layout) : freed Λ 0 = zero := by
  have h : ∀ r, ¬(Λ.firstPage < r ∧ r < Λ.firstPage + 0) := fun r => by omega
  have h' : ∀ r, ¬(Λ.firstPage ≤ r ∧ r < Λ.firstPage + 0) := fun r => by omega
  simp only [freed, zero, h, h', if_false, if_true]

theorem Layout.firstPage_addr (Λ : Layout) : Λ.endAddr ≤ Λ.firstPage * pgSize ∧ Λ.firstPage * pgSize < Λ.endAddr + pgSize ∧
    Λ.firstPage * pgSize ≤ physTop := by
  have := Λ.end_le
  simp only [Layout.firstPage, pgRoundUp, physTop, kernBase, pgSize] at *
  omega

theorem kfreeInit_freed {n : Nat} (h : (Λ.firstPage + n) * pgSize < physTop) :
    kfreeInit Λ (freed Λ n) ((Λ.firstPage + n) * pgSize) = .ok (freed Λ (n + 1)) := by
  have hend := Λ.firstPage_addr.1
  have hcond : ¬((Λ.firstPage + n) * pgSize % pgSize ≠ 0 ∨ (Λ.firstPage + n) * pgSize < Λ.endAddr ∨
      physTop ≤ (Λ.firstPage + n) * pgSize) := by
    simp only [pgSize] at *
    omega
  rw [kfreeInit, if_neg hcond, Nat.mul_div_cancel _ (by decide)]
  -- the two memories agree field by field
  have hlist : some (Λ.firstPage + n) = (freed Λ (n + 1)).freelist := by simp [freed]
  have hruns : update (freed Λ n).runs (Λ.firstPage + n)
      { (freed Λ n).runs (Λ.firstPage + n) with next := (freed Λ n).freelist } = (freed Λ (n + 1)).runs := by
    funext r
    by_cases hr : r = Λ.firstPage + n
    · subst hr
      rcases Nat.eq_zero_or_pos n with rfl | hn
      · simp [freed]
      · have hne : n ≠ 0 := by omega
        simp [freed, hne, hn]
    · have e : (Λ.firstPage < r ∧ r < Λ.firstPage + (n + 1)) ↔ (Λ.firstPage < r ∧ r < Λ.firstPage + n) := by omega
      simp only [update_of_ne hr, freed, e]
  have hram : update (freed Λ n).ram (Λ.firstPage + n) (fun _ => 1) = (freed Λ (n + 1)).ram := by
    funext r
    by_cases hr : r = Λ.firstPage + n
    · subst hr
      simp [freed]
    · have e : (Λ.firstPage ≤ r ∧ r < Λ.firstPage + (n + 1)) ↔ (Λ.firstPage ≤ r ∧ r < Λ.firstPage + n) := by omega
      simp only [update_of_ne hr, freed, e]
  rw [hruns, hram]
  rfl

theorem freerangeInit_freed (n j : Nat) (h : (Λ.firstPage + j + n) * pgSize ≤ physTop) :
    freerangeInit Λ n (freed Λ j) ((Λ.firstPage + j) * pgSize) = .ok (freed Λ (j + n)) := by
  induction n generalizing j with
  | zero => rfl
  | succ n ih =>
    have hj : (Λ.firstPage + j) * pgSize < physTop := by
      simp only [pgSize] at *
      omega
    have e : (Λ.firstPage + j) * pgSize + pgSize = (Λ.firstPage + (j + 1)) * pgSize := by
      simp only [pgSize]
      omega
    rw [freerangeInit, kfreeInit_freed hj]
    show freerangeInit Λ n (freed Λ (j + 1)) ((Λ.firstPage + j) * pgSize + pgSize) = _
    have hn : Λ.firstPage + (j + 1) + n = Λ.firstPage + j + (n + 1) := by omega
    rw [e, ih (j + 1) (by rw [hn]; exact h), add_right_comm j 1 n]
    rfl

/-- Memory after `kinit`. -/
def Mem.boot (Λ : Layout) : Mem := Mem.freed Λ ((physTop - pgRoundUp Λ.endAddr) / pgSize)

/-- `kinit` returns, with every managed page on the free list. -/
theorem kinit_eq (Λ : Layout) : kinit Λ zero = .ok (boot Λ) := by
  have hmod : pgRoundUp Λ.endAddr = (Λ.firstPage + 0) * pgSize := by
    have := pgRoundUp_mod Λ.endAddr
    simp only [Layout.firstPage, pgSize] at *
    omega
  have hle : (Λ.firstPage + 0 + (physTop - (Λ.firstPage + 0) * pgSize) / pgSize) * pgSize ≤ physTop := by
    have h1 := Λ.firstPage_addr.2.2
    have h2 := Nat.div_mul_le_self (physTop - (Λ.firstPage + 0) * pgSize) pgSize
    rw [Nat.add_mul]
    exact (Nat.add_le_add_left h2 _).trans_eq (Nat.add_sub_cancel' h1)
  rw [kinit, ← freed_zero Λ, boot, hmod, freerangeInit_freed _ 0 hle, zero_add]

theorem chain_freed (Λ : Layout) (n : Nat) : ∃ fl, Chain (fun r => ((freed Λ n).runs r).next) (freed Λ n).freelist fl ∧
    ∀ r, r ∈ fl ↔ Λ.firstPage ≤ r ∧ r < Λ.firstPage + n := by
  -- the links below a page do not depend on how many pages follow it
  have hgen : ∀ j ≤ n, ∃ fl, Chain (fun r => ((freed Λ n).runs r).next) (freed Λ j).freelist fl ∧
      ∀ r, r ∈ fl ↔ Λ.firstPage ≤ r ∧ r < Λ.firstPage + j := by
    intro j
    induction j with
    | zero =>
      refine fun _ => ⟨[], Chain.nil, fun r => ?_⟩
      simp only [List.not_mem_nil, false_iff]
      omega
    | succ j ih =>
      intro hj
      obtain ⟨fl, hfl, hmem⟩ := ih (by omega)
      refine ⟨(Λ.firstPage + j) :: fl, ?_, fun r => ?_⟩
      · have hhead : (freed Λ (j + 1)).freelist = some (Λ.firstPage + j) := by simp [freed]
        rw [hhead]
        refine Chain.cons ?_
        have hnext : ((freed Λ n).runs (Λ.firstPage + j)).next = (freed Λ j).freelist := by
          rcases Nat.eq_zero_or_pos j with rfl | hpos
          · simp [freed]
          · have h1 : Λ.firstPage < Λ.firstPage + j ∧ Λ.firstPage + j < Λ.firstPage + n := by omega
            have h2 : j ≠ 0 := by omega
            simp only [freed, if_pos h1, if_neg h2]
        rw [hnext]
        exact hfl
      · rw [List.mem_cons, hmem]
        omega
  exact hgen n (le_refl n)

theorem kmemInv_boot (Λ : Layout) : KmemInv Λ (boot Λ) := by
  obtain ⟨fl, hfl, hmem⟩ := chain_freed Λ ((physTop - pgRoundUp Λ.endAddr) / pgSize)
  -- the pages freed are the managed ones
  have hman : ∀ r, r ∈ fl ↔ Λ.managed r := by
    intro r
    have h1 := Λ.firstPage_addr
    have h2 := pgRoundUp_mod Λ.endAddr
    rw [hmem, Layout.managed]
    simp only [Layout.firstPage, physTop, kernBase, pgSize] at *
    omega
  refine ⟨⟨fl, hfl, fun r hr => ⟨(hman r).mp hr, rfl⟩, fun r hr _ => (hman r).mpr hr⟩, fun r hr => ?_⟩
  cases hr

/-! ## Booted kernels -/

/-- The kernel before its first process, over a disk with `ninodes` inodes. -/
def bootKernel (Λ : Layout) (disk : Nat → Nat → Dinode) (ninodes : Nat) : Kernel where
  proc := fun _ => ⟨false, .unused, false, 0, 0, none, 0, none, 0, fun _ => none, none, none, 0, none⟩
  vmas := fun _ => ⟨false, 0, none, 0, 0, 0, 0, none, 0, 0⟩
  ftable := fun _ => ⟨.none, 0, false, false, 0, none, 0, 0⟩
  fs := ⟨fun _ => ⟨0, 0, 0, false, ⟨0, 0, 0, 0, 0⟩⟩, disk, ninodes⟩
  pipes := fun _ => ⟨false, false⟩
  mem := Mem.boot Λ
  nextpid := 1

theorem fresh_bootKernel (Λ : Layout) (disk : Nat → Nat → Dinode) (ninodes : Nat) : Fresh Λ (bootKernel Λ disk ninodes) where
  proc := fun _ => rfl
  vmas := fun _ => rfl
  ftable := fun _ => ⟨rfl, rfl⟩
  itable := fun _ => rfl
  kmem := kmemInv_boot Λ

/-! ## Running a list of events -/

/-- The run of a list of events with their processes; none when one aborts or `check` refuses it. -/
def runEvents (Λ : Layout) (check : Kernel → Nat → Event → Bool) : List (Nat × Event) → Kernel → Option Kernel
  | [], k => some k
  | (i, ev) :: evs, k =>
    if i < nproc ∧ check k i ev = true then
      match step Λ true k i ev with
      | .ok (_, k) => runEvents Λ check evs k
      | .error _ => none
    else none

theorem reach_runEvents {P : Kernel → Nat → Event → Prop}
    (hP : ∀ k i ev, check k i ev = true → P k i ev) {evs : List (Nat × Event)} {k0 k k' : Kernel} (h0 : Reach Λ P k0 k)
    (h : runEvents Λ check evs k = some k') : Reach Λ P k0 k' := by
  induction evs generalizing k with
  | nil =>
    cases h
    exact h0
  | cons e evs ih =>
    obtain ⟨i, ev⟩ := e
    unfold runEvents at h
    split at h
    · rename_i hc
      split at h
      · rename_i r k1 hs
        exact ih (h0.step hc.1 (hP k i ev hc.2) hs) h
      · cases h
    · cases h

/-- The first process booted and a list of events run. -/
def bootRun (Λ : Layout) (disk : Nat → Nat → Dinode) (ninodes : Nat) (check : Kernel → Nat → Event → Bool)
    (evs : List (Nat × Event)) : Option Kernel :=
  match userinit Λ (bootKernel Λ disk ninodes) with
  | .ok k => runEvents Λ check evs k
  | .error _ => none

theorem reach_bootRun {disk : Nat → Nat → Dinode} {ninodes : Nat}
    {P : Kernel → Nat → Event → Prop} (hP : ∀ k i ev, check k i ev = true → P k i ev) {evs : List (Nat × Event)}
    {k : Kernel} (h : bootRun Λ disk ninodes check evs = some k) : ∃ k0, Booted Λ k0 ∧ Reach Λ P k0 k := by
  unfold bootRun at h
  split at h
  · rename_i k0 hk
    exact ⟨k0, ⟨_, fresh_bootKernel Λ disk ninodes, hk⟩, reach_runEvents hP Reach.refl h⟩
  · cases h

/-! ## A small system -/

/-- A linker layout: the table `kmem.runs` ends below `end`. -/
def demoLayout : Layout where
  endAddr := 0x80900000
  runs := 0x80020000
  tramp := 0x80007000
  runs_ge := by decide
  runs_lt := by decide
  tramp_ge := by decide
  tramp_lt := by decide
  tramp_aligned := by decide
  end_le := by decide

/-- The path of the one file of the small disk. -/
def demoPath : Option (List UInt8) := some [102]

/-- The root directory of the small disk: `.`, `..` and the file, inode 2. -/
def demoRoot (x : Nat) : UInt8 :=
  if x < 16 then mkDirent [46] 1 x else if x < 32 then mkDirent [46, 46] 1 (x - 16) else mkDirent [102] 2 (x - 32)

/-- A disk with one file of `size` bytes, whose byte at `x` is `x % 251 + 1`. -/
def demoDisk (size : Nat) (_ inum : Nat) : Dinode :=
  if inum = 1 then ⟨⟨tDir, 0, 0, 1, 48⟩, fun x => if x < 48 then demoRoot x else 0⟩
  else if inum = 2 then ⟨⟨tFile, 0, 0, 1, size⟩, fun x => if x < size then UInt8.ofNat (x % 251 + 1) else 0⟩
  else ⟨⟨0, 0, 0, 0, 0⟩, fun _ => 0⟩

/-- A run of the small system. -/
def demoRun (size : Nat) (check : Kernel → Nat → Event → Bool) (evs : List (Nat × Event)) : Option Kernel :=
  bootRun demoLayout (demoDisk size) 200 check evs

/-- The condition of runs in which every step is allowed. -/
theorem always_of_check (_ : Kernel) (_ : Nat) (_ : Event) (_ : true = true) : True := trivial

/-- A run of the small system that ends in a state with the property. -/
theorem reach_demoRun {P : Kernel → Nat → Event → Prop} {T : Kernel → Prop} (size : Nat) (hP : ∀ k i ev, check k i ev = true → P k i ev)
    (evs : List (Nat × Event)) (h : ∃ k, demoRun size check evs = some k ∧ T k) :
    ∃ k0 k, Booted demoLayout k0 ∧ Reach demoLayout P k0 k ∧ T k := by
  obtain ⟨k, hk, ht⟩ := h
  obtain ⟨k0, h0, hrun⟩ := reach_bootRun hP hk
  exact ⟨k0, k, h0, hrun, ht⟩

end Xv6Mmap

import Xv6Mmap.Riscv
import Xv6Mmap.Lib.Outcome
import Xv6Mmap.Lib.Chain

/-!
# The physical page allocator

`kalloc.c`. The free pages are a list threaded through the side array `kmem.runs`, indexed by page number, and addresses come from
pointer subtraction. With an empty list `kalloc` subtracts from the null pointer: the result is not `0` but an address that no RAM
answers to (`Layout.nullRun`), so the first access to it traps. `out` is not in the kernel: it records the pages handed out and not
freed since.
-/

namespace Xv6Mmap

open Function

/-- How the kernel stops: a `panic` by its message, a trap in kernel mode, or a loop without end. -/
inductive Panic where
  | kerneltrap | acquire | hang | blockLayer
  | walk | mappagesSize | mappagesRemap | uvmunmapNotAligned | uvmunmapWalk | uvmunmapNotMapped | uvmunmapNotALeaf
  | freewalkLeaf | inituvm | uvmcopyPte | uvmcopyPage | uvmclear | kfree | kfreeRef | loadseg
  | ilock | ilockNoType | igetNoInodes | iallocNoInodes | dirlookupNotDir | dirlookupRead | dirlinkRead | dirlink
  | createDots | createDirlink | isdirempty | unlinkNlink | unlinkWritei | filedup | fileclose | initExiting
  deriving DecidableEq, Repr

/-- The addresses of the linker: `end`, `kmem.runs` and the trampoline, all in the kernel image. -/
structure Layout where
  endAddr : Nat
  runs : Nat
  tramp : Nat
  runs_ge : kernBase ≤ runs
  runs_lt : runs < endAddr
  tramp_ge : kernBase ≤ tramp
  tramp_lt : tramp < endAddr
  tramp_aligned : tramp % pgSize = 0
  end_le : endAddr ≤ physTop

/-- `(r - kmem.runs) * PGSIZE` for a null `r`, in `struct run`s of 16 bytes. -/
def Layout.nullRun (Λ : Layout) : Nat := (2 ^ 64 - Λ.runs / 16 * pgSize) % 2 ^ 64

/-- The pages the allocator manages, `[PGROUNDUP(end), PHYSTOP)`. -/
def Layout.managed (Λ : Layout) (r : Nat) : Prop := Λ.endAddr ≤ r * pgSize ∧ r * pgSize < physTop

/-- `struct run`: the link of the free list and the count of the page. -/
structure Run where
  next : Option Nat
  ref : Nat

/-- Physical memory: the free list, `kmem.runs`, the pages handed out, and the bytes of each page. -/
structure Mem where
  freelist : Option Nat
  runs : Nat → Run
  out : Nat → Bool
  ram : Nat → Nat → UInt8

/-- A page that the kernel maps; an access to another one traps. -/
def isRam (pa : Nat) : Bool := decide (kernBase ≤ pa ∧ pa < physTop)

/-- `memset` over the page at `pa`. -/
def memset (m : Mem) (pa : Nat) (b : UInt8) : Except Panic Mem :=
  if isRam pa then pure { m with ram := update m.ram (pa / pgSize) fun _ => b } else throw .kerneltrap

/-- `kalloc`: the first page of the free list, filled with junk. -/
def kalloc (Λ : Layout) (m : Mem) : Nat × Mem :=
  match m.freelist with
  | none => (Λ.nullRun, m)
  | some r =>
    (r * pgSize,
      { freelist := (m.runs r).next
        runs := update m.runs r { m.runs r with ref := 1 }
        out := update m.out r true
        ram := update m.ram r fun _ => 5 })

/-- `kfree`. The failed assertion `ref == 1` calls `exit(-1)`: the call does not return. -/
def kfree (Λ : Layout) (m : Mem) (pa : Nat) : Except Panic Mem :=
  if pa % pgSize ≠ 0 ∨ pa < Λ.endAddr ∨ physTop ≤ pa then throw .kfree
  else if (m.runs (pa / pgSize)).ref ≠ 1 then throw .kfreeRef
  else pure
    { freelist := some (pa / pgSize)
      runs := update m.runs (pa / pgSize) { m.runs (pa / pgSize) with next := m.freelist }
      out := update m.out (pa / pgSize) false
      ram := update m.ram (pa / pgSize) fun _ => 1 }

/-! ## The allocator's invariant -/

/-- The free list is a chain of managed pages; every other managed page is handed out, with count 1. -/
structure KmemInv (Λ : Layout) (m : Mem) : Prop where
  chain : ∃ fl, Chain (fun r => (m.runs r).next) m.freelist fl ∧ (∀ r ∈ fl, Λ.managed r ∧ m.out r = false) ∧
    ∀ r, Λ.managed r → m.out r = false → r ∈ fl
  out : ∀ r, m.out r = true → Λ.managed r ∧ (m.runs r).ref = 1

theorem managed_isRam {Λ : Layout} {r : Nat} (h : Λ.managed r) : isRam (r * pgSize) = true := by
  have h1 := Λ.runs_ge
  have h2 := Λ.runs_lt
  obtain ⟨h3, h4⟩ := h
  simp only [isRam, decide_eq_true_eq]
  omega

/-- The address `kalloc` returns when no page is free is no RAM. -/
theorem nullRun_not_isRam (Λ : Layout) : isRam Λ.nullRun = false := by
  have h1 := Λ.runs_ge
  have h2 := Λ.runs_lt
  have h3 := Λ.end_le
  rw [isRam, decide_eq_false_iff_not, Layout.nullRun]
  simp only [kernBase, physTop, pgSize] at h1 h3 ⊢
  omega

/-- `kalloc` never returns `0`: the wild address is not `0`, and page 0 is not managed. -/
theorem nullRun_ne_zero (Λ : Layout) : Λ.nullRun ≠ 0 := by
  have h1 := Λ.runs_ge
  have h2 := Λ.runs_lt
  have h3 := Λ.end_le
  simp only [Layout.nullRun, kernBase, physTop, pgSize] at h1 h3 ⊢
  omega

/-- What `kalloc` does: nothing with no page free, else the head of the list is handed out. -/
theorem kalloc_spec {Λ : Layout} {m : Mem} (h : KmemInv Λ m) : (m.freelist = none ∧ kalloc Λ m = (Λ.nullRun, m)) ∨
    ∃ r m', kalloc Λ m = (r * pgSize, m') ∧ m.freelist = some r ∧ Λ.managed r ∧ m.out r = false ∧ KmemInv Λ m' ∧
      m'.out = update m.out r true ∧ m'.ram = update m.ram r (fun _ => 5) := by
  obtain ⟨fl, hc, hfl, hall⟩ := h.chain
  cases hh : m.freelist with
  | none => exact Or.inl ⟨rfl, by simp [kalloc, hh]⟩
  | some r =>
    right
    rw [hh] at hc
    cases hc with
    | @cons _ l hc =>
      obtain ⟨hman, hout⟩ := hfl r List.mem_cons_self
      have hnd : (r :: l).Nodup := (Chain.cons hc).nodup
      have hrl : ∀ x ∈ l, x ≠ r := by
        rintro x hx rfl
        exact (List.nodup_cons.mp hnd).1 hx
      have e : kalloc Λ m = (r * pgSize,
          { freelist := (m.runs r).next
            runs := update m.runs r { m.runs r with ref := 1 }
            out := update m.out r true
            ram := update m.ram r fun _ => 5 }) := by
        simp only [kalloc, hh]
      refine ⟨r, _, e, rfl, hman, hout, ⟨⟨l, ?_, ?_, ?_⟩, ?_⟩, rfl, rfl⟩
      · refine hc.congr fun x hx => ?_
        simp only [update_of_ne (hrl x hx)]
      · intro x hx
        refine ⟨(hfl x (List.mem_cons_of_mem _ hx)).1, ?_⟩
        simp only [update_of_ne (hrl x hx)]
        exact (hfl x (List.mem_cons_of_mem _ hx)).2
      · intro x hx hxo
        by_cases hxr : x = r
        · subst hxr
          simp at hxo
        · simp only [update_of_ne hxr] at hxo
          rcases List.mem_cons.mp (hall x hx hxo) with e | hm
          · exact absurd e hxr
          · exact hm
      · intro x hx
        by_cases hxr : x = r
        · subst hxr
          exact ⟨hman, by simp⟩
        · simp only [update_of_ne hxr] at hx ⊢
          exact h.out x hx

/-- `kfree` of a page that is handed out returns, and the page is free. -/
theorem kfree_spec {Λ : Layout} {m : Mem} (h : KmemInv Λ m) {r : Nat} (hr : m.out r = true) :
    ∃ m', kfree Λ m (r * pgSize) = .ok m' ∧ KmemInv Λ m' ∧ m'.out = update m.out r false ∧
      m'.freelist = some r ∧ (m'.runs r).next = m.freelist ∧ (∀ x, x ≠ r → (m'.runs x).next = (m.runs x).next) ∧
      m'.ram = update m.ram r (fun _ => 1) := by
  obtain ⟨fl, hc, hfl, hall⟩ := h.chain
  obtain ⟨hman, href⟩ := h.out r hr
  have hdiv : r * pgSize / pgSize = r := Nat.mul_div_cancel _ (by decide)
  have hcond : ¬(r * pgSize % pgSize ≠ 0 ∨ r * pgSize < Λ.endAddr ∨ physTop ≤ r * pgSize) := by
    obtain ⟨h1, h2⟩ := hman
    have h3 : r * pgSize % pgSize = 0 := Nat.mul_mod_left _ _
    omega
  have hrfl : r ∉ fl := by
    intro hm
    rw [(hfl r hm).2] at hr
    cases hr
  have e : kfree Λ m (r * pgSize) = .ok
      { freelist := some r
        runs := update m.runs r { m.runs r with next := m.freelist }
        out := update m.out r false
        ram := update m.ram r fun _ => 1 } := by
    rw [kfree, if_neg hcond, hdiv, if_neg (not_not.mpr href)]
    rfl
  refine ⟨_, e, ⟨⟨r :: fl, ?_, ?_, ?_⟩, ?_⟩, rfl, rfl, by simp, ?_, rfl⟩
  · refine Chain.cons ?_
    simp only [update_self]
    refine hc.congr fun x hx => ?_
    have hxr : x ≠ r := by
      rintro rfl
      exact hrfl hx
    simp only [update_of_ne hxr]
  · intro x hx
    by_cases hxr : x = r
    · subst hxr
      exact ⟨hman, by simp⟩
    · simp only [update_of_ne hxr]
      exact hfl x ((List.mem_cons.mp hx).resolve_left hxr)
  · intro x hx hxo
    by_cases hxr : x = r
    · exact List.mem_cons.mpr (Or.inl hxr)
    · simp only [update_of_ne hxr] at hxo
      exact List.mem_cons_of_mem _ (hall x hx hxo)
  · intro x hx
    by_cases hxr : x = r
    · subst hxr
      simp at hx
    · simp only [update_of_ne hxr] at hx ⊢
      exact h.out x hx
  · intro x hx
    simp only [update_of_ne hx]

end Xv6Mmap

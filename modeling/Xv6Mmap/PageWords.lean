import Xv6Mmap.Vm

/-!
# Page tables as words of physical memory

The functions of `vm.c` one level further down: a page-table page is 512 words of physical memory, a PTE is read and written through
its address, and `walk` follows the physical addresses packed into PTEs. The allocator is only its contract: a call of `kalloc`
returns `0`, at any time, or the address of a page that is not handed out. The tree of `Vm` is what the words spell (`Spelled`).

`calls` counts the calls of `kalloc`, so that an allocator is free to answer each of them differently.
-/

namespace Xv6Mmap

open Function

/-- Physical memory: the words of each page, the pages handed out, and the number of calls of `kalloc` so far. -/
structure Phys where
  word : Nat → Nat → Nat
  out : Nat → Bool
  calls : Nat

/-- The contract of `kalloc`: the page it returns, if it returns one, is not handed out, and its address is not `0`. -/
structure Allocator where
  pick : Phys → Option Nat
  fresh : ∀ w pg, pick w = some pg → w.out pg = false ∧ 0 < pg ∧ pg < 2 ^ 44

namespace Phys

/-- A word written. -/
def set (w : Phys) (pg i x : Nat) : Phys := { w with word := update w.word pg (update (w.word pg) i x) }

/-- `memset` of a page, by what a word of it holds afterwards. -/
def fill (w : Phys) (pg x : Nat) : Phys := { w with word := update w.word pg fun _ => x }

/-- `kalloc`. -/
def kalloc (A : Allocator) (w : Phys) : Nat × Phys :=
  match A.pick w with
  | none => (0, { w with calls := w.calls + 1 })
  | some pg =>
    (pg * pgSize, { w with out := update w.out pg true, calls := w.calls + 1 }.fill pg 0x0505050505050505)

/-- `kfree`, which takes back pages handed out and no others. -/
def kfree (w : Phys) (pa : Nat) : Except Panic Phys :=
  if pa % pgSize = 0 ∧ w.out (pa / pgSize) = true then
    pure ({ w with out := update w.out (pa / pgSize) false }.fill (pa / pgSize) 0x0101010101010101)
  else throw .kfree

/-! ## `walk` -/

/-- One round of `walk`: the table behind entry `i` of the table in page `pg`, made when it is missing and `alloc` is set. -/
def walkLevel (A : Allocator) (w : Phys) (pg i : Nat) (alloc : Bool) : Option Nat × Phys :=
  let pte := w.word pg i
  if hasFlag pte pteV then (some (ptePage pte), w)
  else if alloc then
    let (pa, w) := kalloc A w
    if pa = 0 then (none, w)
    else (some (pa / pgSize), (w.fill (pa / pgSize) 0).set pg i (pa2pte pa ||| pteV))
  else (none, w)

/-- The loop of `walk` from level `level` down, at the table in page `pg`. -/
def walkLoop (A : Allocator) (va : Nat) (alloc : Bool) : Nat → Phys → Nat → Option Nat × Phys
  | 0, w, pg => (some pg, w)
  | level + 1, w, pg =>
    match walkLevel A w pg (px (level + 1) va) alloc with
    | (none, w) => (none, w)
    | (some pg, w) => walkLoop A va alloc level w pg

/-- `walk`: where the PTE of `va` is, by page and index. -/
def walk (A : Allocator) (w : Phys) (root va : Nat) (alloc : Bool) : Except Panic (Option (Nat × Nat) × Phys) :=
  if maxVa ≤ va then throw .walk
  else
    let (pg, w) := walkLoop A va alloc 2 w root
    pure (pg.map fun pg => (pg, px 0 va), w)

/-- `walkaddr`. -/
def walkaddr (A : Allocator) (w : Phys) (root va : Nat) : Except Panic Nat :=
  if maxVa ≤ va then pure 0
  else do
    let (pte, w) ← walk A w root va false
    match pte with
    | none => pure 0
    | some (pg, i) =>
      if !hasFlag (w.word pg i) pteV then pure 0
      else if !hasFlag (w.word pg i) pteU then pure 0
      else pure (pte2pa (w.word pg i))

/-! ## Mapping and unmapping -/

/-- The loop of `mappages`. -/
def mapLoop (A : Allocator) (root perm last : Nat) : Nat → Phys → Nat → Nat → Except Panic (Bool × Phys)
  | 0, _, _, _ => throw .hang
  | n + 1, w, a, pa => do
    let (pte, w) ← walk A w root a true
    match pte with
    | none => pure (false, w)
    | some (pg, i) =>
      if hasFlag (w.word pg i) pteV then throw .mappagesRemap
      else
        let w := w.set pg i (mkPte pa perm)
        if a = last then pure (true, w) else mapLoop A root perm last n w (a + pgSize) (pa + pgSize)

/-- `mappages`. -/
def mappages (A : Allocator) (w : Phys) (root va size pa perm : Nat) : Except Panic (Bool × Phys) :=
  if size = 0 then throw .mappagesSize
  else mapLoop A root perm (pgRoundDown ((va + size - 1) % 2 ^ 64)) (maxVa / pgSize + 1) w (pgRoundDown va) pa

/-- The loop of `uvmunmap` over the `n` pages from `a` on. -/
def unmapLoop (A : Allocator) (root : Nat) (doFree : Bool) : Nat → Phys → Nat → Except Panic Phys
  | 0, w, _ => pure w
  | n + 1, w, a => do
    let (pte, w) ← walk A w root a false
    match pte with
    | none => throw .uvmunmapWalk
    | some (pg, i) =>
      if !hasFlag (w.word pg i) pteV then throw .uvmunmapNotMapped
      else if pteFlags (w.word pg i) = pteV then throw .uvmunmapNotALeaf
      else do
        let w ← (if doFree then kfree w (pte2pa (w.word pg i)) else pure w)
        unmapLoop A root doFree n (w.set pg i 0) (a + pgSize)

/-- `uvmunmap`. -/
def uvmunmap (A : Allocator) (w : Phys) (root va npages : Nat) (doFree : Bool) : Except Panic Phys :=
  if va % pgSize ≠ 0 then throw .uvmunmapNotAligned else unmapLoop A root doFree npages w va

/-- `uvmcreate`: the page of an empty page table. -/
def uvmcreate (A : Allocator) (w : Phys) : Option Nat × Phys :=
  let (pa, w) := kalloc A w
  if pa = 0 then (none, w) else (some (pa / pgSize), w.fill (pa / pgSize) 0)

end Phys

end Xv6Mmap

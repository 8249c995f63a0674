import Xv6Mmap.PageWords
import Xv6Mmap.Lib.Slots

/-!
# The memory of processes, over the words of memory

`growproc`, `fork` and the part of `exec` that builds a memory image, over the words of physical memory and an allocator that may fail
at any call. Of a process there are its page table, its trapframe page and `p->sz`.
-/

namespace Xv6Mmap

open Function

namespace Phys

/-! ## Growing and shrinking -/

/-- `uvmdealloc`. -/
def uvmdealloc (A : Allocator) (w : Phys) (root oldsz newsz : Nat) : Except Panic (Nat × Phys) :=
  if oldsz ≤ newsz then pure (oldsz, w)
  else if pgRoundUp newsz < pgRoundUp oldsz then do
    let w ← uvmunmap A w root (pgRoundUp newsz) ((pgRoundUp oldsz - pgRoundUp newsz) / pgSize) true
    pure (newsz, w)
  else pure (newsz, w)

/-- The loop of `uvmalloc` over the `n` pages from `a` on. -/
def allocLoop (A : Allocator) (root oldsz : Nat) : Nat → Phys → Nat → Except Panic (Bool × Phys)
  | 0, w, _ => pure (true, w)
  | n + 1, w, a =>
    let (mem, w) := kalloc A w
    if mem = 0 then do
      let (_, w) ← uvmdealloc A w root a oldsz
      pure (false, w)
    else do
      let (ok, w) ← mappages A (w.fill (mem / pgSize) 0) root a pgSize mem (pteW ||| pteX ||| pteR ||| pteU)
      if ok then allocLoop A root oldsz n w (a + pgSize)
      else do
        let w ← kfree w mem
        let (_, w) ← uvmdealloc A w root a oldsz
        pure (false, w)

/-- `uvmalloc`. -/
def uvmalloc (A : Allocator) (w : Phys) (root oldsz newsz : Nat) : Except Panic (Nat × Phys) :=
  if newsz < oldsz then pure (oldsz, w)
  else do
    let (ok, w) ←
      allocLoop A root (pgRoundUp oldsz) ((newsz - pgRoundUp oldsz + (pgSize - 1)) / pgSize) w (pgRoundUp oldsz)
    pure (if ok then newsz else 0, w)

/-- `growproc` of a process of size `sz`: whether it returned `0`, and the size after it. The size goes through a `uint`. -/
def growproc (A : Allocator) (w : Phys) (root size : Nat) (n : Int) : Except Panic (Bool × Nat × Phys) :=
  let sz := size % 2 ^ 32
  let next := ((sz + n) % 2 ^ 32).toNat
  if 0 < n then do
    let (r, w) ← uvmalloc A w root sz next
    if r % 2 ^ 32 = 0 then pure (false, size, w) else pure (true, r % 2 ^ 32, w)
  else if n < 0 then do
    let (r, w) ← uvmdealloc A w root sz next
    pure (true, r % 2 ^ 32, w)
  else pure (true, sz, w)

/-! ## Freeing a page table -/

/-- The loop of `freewalk` over the first `n` entries of the table in page `pg`, with `free` for the tables below. -/
def freeEntries (free : Phys → Nat → Except Panic Phys) (pg : Nat) : Nat → Phys → Except Panic Phys
  | 0, w => pure w
  | n + 1, w => do
    let w ← freeEntries free pg n w
    let pte := w.word pg n
    if hasFlag pte pteV && !hasFlag pte (pteR ||| pteW ||| pteX) then do
      let w ← free w (ptePage pte)
      pure (w.set pg n 0)
    else if hasFlag pte pteV then throw .freewalkLeaf
    else pure w

/-- `freewalk`, at most `depth` levels deep. -/
def freewalk : Nat → Phys → Nat → Except Panic Phys
  | 0, _, _ => throw .hang
  | depth + 1, w, pg => do
    let w ← freeEntries (freewalk depth) pg 512 w
    kfree w (pg * pgSize)

/-- `uvmfree`. -/
def uvmfree (A : Allocator) (w : Phys) (root sz : Nat) : Except Panic Phys := do
  let w ← (if 0 < sz then uvmunmap A w root 0 (pgRoundUp sz / pgSize) true else pure w)
  freewalk 3 w root

/-! ## Copying -/

/-- `memmove` of a whole page. -/
def copyPage (w : Phys) (dst src : Nat) : Phys := { w with word := update w.word dst (w.word src) }

/-- The loop of `uvmcopy` over the `n` pages from `i` on, with its exit `err`. -/
def uvmcopyLoop (A : Allocator) (old new : Nat) : Nat → Phys → Nat → Except Panic (Bool × Phys)
  | 0, w, _ => pure (true, w)
  | n + 1, w, i => do
    let (pte, w) ← walk A w old i false
    match pte with
    | none => throw .uvmcopyPte
    | some (pg, k) =>
      if !hasFlag (w.word pg k) pteV then throw .uvmcopyPage
      else
        let pte := w.word pg k
        let (mem, w) := kalloc A w
        if mem = 0 then do
          let w ← uvmunmap A w new 0 (i / pgSize) true
          pure (false, w)
        else do
          let (ok, w) ← mappages A (w.copyPage (mem / pgSize) (ptePage pte)) new i pgSize mem (pteFlags pte)
          if ok then uvmcopyLoop A old new n w (i + pgSize)
          else do
            let w ← kfree w mem
            let w ← uvmunmap A w new 0 (i / pgSize) true
            pure (false, w)

/-- `uvmcopy`. -/
def uvmcopy (A : Allocator) (w : Phys) (old new sz : Nat) : Except Panic (Bool × Phys) :=
  uvmcopyLoop A old new ((sz + (pgSize - 1)) / pgSize) w 0

/-! ## Page tables of processes -/

/-- `proc_pagetable` for the trapframe in page `tf` and the trampoline in page `tramp`. -/
def procPagetable (A : Allocator) (tramp : Nat) (w : Phys) (tf : Nat) : Except Panic (Option Nat × Phys) :=
  match uvmcreate A w with
  | (none, w) => pure (none, w)
  | (some root, w) => do
    let (ok, w) ← mappages A w root trampoline pgSize (tramp * pgSize) (pteR ||| pteX)
    if !ok then do
      let w ← uvmfree A w root 0
      pure (none, w)
    else do
      let (ok, w) ← mappages A w root trapframe pgSize (tf * pgSize) (pteR ||| pteW)
      if !ok then do
        let w ← uvmunmap A w root trampoline 1 false
        let w ← uvmfree A w root 0
        pure (none, w)
      else pure (some root, w)

/-- `proc_freepagetable`. -/
def procFreepagetable (A : Allocator) (w : Phys) (root sz : Nat) : Except Panic Phys := do
  let w ← uvmunmap A w root trampoline 1 false
  let w ← uvmunmap A w root trapframe 1 false
  uvmfree A w root sz

/-- `*(np->trapframe) = *(p->trapframe)` and `np->trapframe->a0 = 0`: 36 words, of which `a0` is number 14. -/
def copyTrapframe (w : Phys) (dst src : Nat) : Phys :=
  { w with word := update w.word dst fun i => if i = 14 then 0 else if i < 36 then w.word src i else w.word dst i }

/-- `uvmclear`: the page is no longer the user's. -/
def uvmclear (A : Allocator) (w : Phys) (root va : Nat) : Except Panic Phys := do
  let (pte, w) ← walk A w root va false
  match pte with
  | none => throw .uvmclear
  | some (pg, i) => pure (w.set pg i (w.word pg i &&& (2 ^ 64 - 1 - pteU)))

end Phys

/-! ## Processes -/

/-- What a process has in physical memory: the pages of its page table and of its trapframe, and `p->sz`. -/
structure Image where
  root : Nat
  tf : Nat
  sz : Nat

/-- Physical memory and the process table; an unused entry has no image. -/
structure ImageSys where
  w : Phys
  proc : Nat → Option Image

namespace ImageSys

/-- An entry of the process table changed. -/
def setProc (s : ImageSys) (w : Phys) (j : Nat) (I : Image) : ImageSys := ⟨w, update s.proc j (some I)⟩

/-- `growproc` by process `j`. -/
def growproc (A : Allocator) (s : ImageSys) (j : Nat) (n : Int) : Except Panic (Bool × ImageSys) :=
  match s.proc j with
  | none => pure (false, s)
  | some I => do
    let (ok, sz, w) ← s.w.growproc A I.root I.sz n
    pure (ok, s.setProc w j { I with sz := sz })

/-- `allocproc`: a trapframe and an empty page table for a new process; what was allocated is given back when one fails. -/
def allocproc (A : Allocator) (tramp : Nat) (w : Phys) : Except Panic (Option (Nat × Nat) × Phys) :=
  let (tf, w) := w.kalloc A
  if tf = 0 then pure (none, w)
  else do
    let (root, w) ← w.procPagetable A tramp (tf / pgSize)
    match root with
    | none => do
      let w ← w.kfree tf
      pure (none, w)
    | some root => pure (some (tf / pgSize, root), w)

/-- `fork` by process `j`: the child's entry, or none for the return value `-1`. -/
def fork (A : Allocator) (tramp : Nat) (s : ImageSys) (j : Nat) : Except Panic (Option Nat × ImageSys) :=
  match s.proc j, firstSlot nproc fun i => (s.proc i).isNone with
  | some I, some np => do
    let (new, w) ← allocproc A tramp s.w
    match new with
    | none => pure (none, { s with w := w })
    | some (tf, root) => do
      let (ok, w) ← w.uvmcopy A I.root root I.sz
      if ok then pure (some np, s.setProc (w.copyTrapframe tf I.tf) np ⟨root, tf, I.sz⟩)
      else do
        let w ← w.kfree (tf * pgSize)
        let w ← w.procFreepagetable A root 0
        pure (none, { s with w := w })
  | _, _ => pure (none, s)

end ImageSys

end Xv6Mmap

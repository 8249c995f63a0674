import Xv6Mmap.Kalloc

/-!
# Page tables and the functions of `vm.c`

A page table is a tree of table pages, three levels deep: a table page knows its physical page and its 512 entries. The
entries of the upper two levels are valid exactly when they lead to a table page, so they are optional tables; the entries of
level 0 are the PTEs, as words. A pointer to a PTE that `walk` returns is here the fact that the level-0 table exists, and
`PageTable.pte`, `PageTable.setPte` read and write through it.

The loops of the source that step through addresses are recursions on the number of pages left, in the order of the source.
-/

namespace Xv6Mmap

open Function

/-- A page-table page of level 0: its physical page and its PTEs. -/
structure Table0 where
  page : Nat
  pte : Nat → Nat

/-- A page-table page of level 1. -/
structure Table1 where
  page : Nat
  sub : Nat → Option Table0

/-- A page table, by its page of level 2. -/
structure PageTable where
  page : Nat
  sub : Nat → Option Table1

namespace PageTable

/-- The physical page of the level-1 table in place `i`. -/
def mid (pt : PageTable) (i : Nat) : Option Nat := (pt.sub i).map (·.page)

/-- The physical page of the level-0 table in place `i`, `j`. -/
def low (pt : PageTable) (i j : Nat) : Option Nat := (pt.sub i).bind fun t => (t.sub j).map (·.page)

/-- The PTE in place `i`, `j`, `k`: invalid where a table is missing. -/
def leaf (pt : PageTable) (i j k : Nat) : Nat :=
  match (pt.sub i).bind fun t => t.sub j with
  | none => 0
  | some t => t.pte k

/-- A new, empty table of level 1. -/
def addTable1 (pt : PageTable) (i pg : Nat) : PageTable :=
  { pt with sub := update pt.sub i (some ⟨pg, fun _ => none⟩) }

/-- A new, empty table of level 0. -/
def addTable0 (pt : PageTable) (i j pg : Nat) : PageTable :=
  { pt with
    sub := update pt.sub i
      ((pt.sub i).map fun t => { t with sub := update t.sub j (some ⟨pg, fun _ => 0⟩) }) }

/-- A PTE written. -/
def setLeaf (pt : PageTable) (i j k x : Nat) : PageTable :=
  { pt with
    sub := update pt.sub i ((pt.sub i).map fun t =>
      { t with sub := update t.sub j ((t.sub j).map fun t0 => { t0 with pte := update t0.pte k x }) }) }

/-- The PTE of a virtual address. -/
def pte (pt : PageTable) (va : Nat) : Nat := pt.leaf (px 2 va) (px 1 va) (px 0 va)

/-- The PTE of a virtual address, written. -/
def setPte (pt : PageTable) (va x : Nat) : PageTable := pt.setLeaf (px 2 va) (px 1 va) (px 0 va) x

/-- Whether the level-0 table of a virtual address exists, so that `walk` finds its PTE. -/
def hasTable (pt : PageTable) (va : Nat) : Bool := (pt.low (px 2 va) (px 1 va)).isSome

/-- Whether a virtual address is mapped: its PTE is valid. -/
def mapped (pt : PageTable) (va : Nat) : Bool := hasFlag (pt.pte va) pteV

end PageTable

/-! ## `walk` -/

/-- `pagetable = kalloc()` in `walk`: no page when `kalloc` returns `0`, else a page cleared to zero. -/
def allocTable (Λ : Layout) (m : Mem) : Except Panic (Option Nat × Mem) :=
  let (pa, m) := kalloc Λ m
  if pa = 0 then pure (none, m)
  else do
    let m ← memset m pa 0
    pure (some (pa / pgSize), m)

/-- The step of `walk` at level 2: the level-1 table is there, or it is made. -/
def walkLevel2 (Λ : Layout) (pt : PageTable) (m : Mem) (i : Nat) (alloc : Bool) :
    Except Panic (Bool × PageTable × Mem) :=
  if (pt.mid i).isSome then pure (true, pt, m)
  else if alloc then do
    let (pg, m) ← allocTable Λ m
    match pg with
    | none => pure (false, pt, m)
    | some pg => pure (true, pt.addTable1 i pg, m)
  else pure (false, pt, m)

/-- The step of `walk` at level 1: the level-0 table is there, or it is made. -/
def walkLevel1 (Λ : Layout) (pt : PageTable) (m : Mem) (i j : Nat) (alloc : Bool) :
    Except Panic (Bool × PageTable × Mem) :=
  if (pt.low i j).isSome then pure (true, pt, m)
  else if alloc then do
    let (pg, m) ← allocTable Λ m
    match pg with
    | none => pure (false, pt, m)
    | some pg => pure (true, pt.addTable0 i j pg, m)
  else pure (false, pt, m)

/-- `walk`: whether the PTE of `va` is found, with the page table and the memory after the tables it made. -/
def walk (Λ : Layout) (pt : PageTable) (m : Mem) (va : Nat) (alloc : Bool) : Except Panic (Bool × PageTable × Mem) :=
  if maxVa ≤ va then throw .walk
  else do
    let (found, pt, m) ← walkLevel2 Λ pt m (px 2 va) alloc
    if found then walkLevel1 Λ pt m (px 2 va) (px 1 va) alloc else pure (false, pt, m)

/-- `walkaddr`: the physical address of a user page, or `0`. -/
def walkaddr (pt : PageTable) (va : Nat) : Nat :=
  if maxVa ≤ va then 0
  else if !pt.hasTable va then 0
  else if !hasFlag (pt.pte va) pteV then 0
  else if !hasFlag (pt.pte va) pteU then 0
  else pte2pa (pt.pte va)

/-! ## Mapping and unmapping -/

/-- The loop of `mappages` from page `a` and physical address `pa` on. `walk` stops it at `MAXVA` at the latest. -/
def mapLoop (Λ : Layout) (perm last : Nat) : Nat → PageTable → Mem → Nat → Nat → Except Panic (Bool × PageTable × Mem)
  | 0, _, _, _, _ => throw .hang
  | n + 1, pt, m, a, pa => do
    let (found, pt, m) ← walk Λ pt m a true
    if !found then pure (false, pt, m)
    else if hasFlag (pt.pte a) pteV then throw .mappagesRemap
    else if a = last then pure (true, pt.setPte a (mkPte pa perm), m)
    else mapLoop Λ perm last n (pt.setPte a (mkPte pa perm)) m (a + pgSize) (pa + pgSize)

/-- `mappages`: `false` for its return value `-1`. -/
def mappages (Λ : Layout) (pt : PageTable) (m : Mem) (va size pa perm : Nat) : Except Panic (Bool × PageTable × Mem) :=
  if size = 0 then throw .mappagesSize
  else mapLoop Λ perm (pgRoundDown ((va + size - 1) % 2 ^ 64)) (maxVa / pgSize + 1) pt m (pgRoundDown va) pa

/-- The loop of `uvmunmap` over the `n` pages from `a` on. -/
def unmapLoop (Λ : Layout) (doFree : Bool) : Nat → PageTable → Mem → Nat → Except Panic (PageTable × Mem)
  | 0, pt, m, _ => pure (pt, m)
  | n + 1, pt, m, a => do
    let (found, _, _) ← walk Λ pt m a false
    if !found then throw .uvmunmapWalk
    else if !hasFlag (pt.pte a) pteV then throw .uvmunmapNotMapped
    else if pteFlags (pt.pte a) = pteV then throw .uvmunmapNotALeaf
    else do
      let m ← (if doFree then kfree Λ m (pte2pa (pt.pte a)) else pure m)
      unmapLoop Λ doFree n (pt.setPte a 0) m (a + pgSize)

/-- `uvmunmap`. -/
def uvmunmap (Λ : Layout) (pt : PageTable) (m : Mem) (va npages : Nat) (doFree : Bool) : Except Panic (PageTable × Mem) :=
  if va % pgSize ≠ 0 then throw .uvmunmapNotAligned else unmapLoop Λ doFree npages pt m va

/-- `uvmcreate`: an empty page table; none when `kalloc` returns `0`. -/
def uvmcreate (Λ : Layout) (m : Mem) : Except Panic (Option PageTable × Mem) := do
  let (pg, m) ← allocTable Λ m
  pure (pg.map fun pg => ⟨pg, fun _ => none⟩, m)

/-- `uvminit`: the first page of the first process. The result of `mappages` is not looked at. -/
def uvminit (Λ : Layout) (pt : PageTable) (m : Mem) (src : List UInt8) : Except Panic (PageTable × Mem) :=
  if pgSize ≤ src.length then throw .inituvm
  else do
    let (mem, m) := kalloc Λ m
    let m ← memset m mem 0
    let (_, pt, m) ← mappages Λ pt m 0 pgSize mem (pteW ||| pteR ||| pteX ||| pteU)
    pure (pt, { m with ram := update m.ram (mem / pgSize) fun x => src.getD x 0 })

/-! ## Growing and shrinking the process -/

/-- `uvmdealloc`. -/
def uvmdealloc (Λ : Layout) (pt : PageTable) (m : Mem) (oldsz newsz : Nat) : Except Panic (Nat × PageTable × Mem) :=
  if oldsz ≤ newsz then pure (oldsz, pt, m)
  else if pgRoundUp newsz < pgRoundUp oldsz then do
    let (pt, m) ← uvmunmap Λ pt m (pgRoundUp newsz) ((pgRoundUp oldsz - pgRoundUp newsz) / pgSize) true
    pure (newsz, pt, m)
  else pure (newsz, pt, m)

/-- The loop of `uvmalloc` over the `n` pages from `a` on; `false` when an allocation failed and the pages were given back. -/
def allocLoop (Λ : Layout) (oldsz : Nat) : Nat → PageTable → Mem → Nat → Except Panic (Bool × PageTable × Mem)
  | 0, pt, m, _ => pure (true, pt, m)
  | n + 1, pt, m, a =>
    let (mem, m) := kalloc Λ m
    if mem = 0 then do
      let (_, pt, m) ← uvmdealloc Λ pt m a oldsz
      pure (false, pt, m)
    else do
      let m ← memset m mem 0
      let (ok, pt, m) ← mappages Λ pt m a pgSize mem (pteW ||| pteX ||| pteR ||| pteU)
      if ok then allocLoop Λ oldsz n pt m (a + pgSize)
      else do
        let m ← kfree Λ m mem
        let (_, pt, m) ← uvmdealloc Λ pt m a oldsz
        pure (false, pt, m)

/-- `uvmalloc`: the new size, or `0`. -/
def uvmalloc (Λ : Layout) (pt : PageTable) (m : Mem) (oldsz newsz : Nat) : Except Panic (Nat × PageTable × Mem) :=
  if newsz < oldsz then pure (oldsz, pt, m)
  else do
    let (ok, pt, m) ←
      allocLoop Λ (pgRoundUp oldsz) ((newsz - pgRoundUp oldsz + (pgSize - 1)) / pgSize) pt m (pgRoundUp oldsz)
    pure (if ok then newsz else 0, pt, m)

/-! ## Freeing a page table -/

/-- The loop of `freewalk` over the first `n` entries of a level-0 table. An entry there that is valid without R, W and X would
be taken for a table page; `mappages` writes none. -/
def freeLeaves (pte : Nat → Nat) : Nat → Except Panic Unit
  | 0 => pure ()
  | n + 1 => do
    freeLeaves pte n
    if !hasFlag (pte n) pteV then pure ()
    else if hasFlag (pte n) (pteR ||| pteW ||| pteX) then throw .freewalkLeaf
    else throw .kerneltrap

/-- `freewalk` on a level-0 table. -/
def freewalk0 (Λ : Layout) (t : Table0) (m : Mem) : Except Panic Mem := do
  freeLeaves t.pte 512
  kfree Λ m (t.page * pgSize)

/-- The loop of `freewalk` over the first `n` entries of a table, with `free` for the tables below. -/
def freeSubs {τ : Type} (free : τ → Mem → Except Panic Mem) (sub : Nat → Option τ) : Nat → Mem → Except Panic Mem
  | 0, m => pure m
  | n + 1, m => do
    let m ← freeSubs free sub n m
    match sub n with
    | none => pure m
    | some t => free t m

/-- `freewalk` on a level-1 table. -/
def freewalk1 (Λ : Layout) (t : Table1) (m : Mem) : Except Panic Mem := do
  let m ← freeSubs (freewalk0 Λ) t.sub 512 m
  kfree Λ m (t.page * pgSize)

/-- `freewalk` on a page table. -/
def freewalk (Λ : Layout) (pt : PageTable) (m : Mem) : Except Panic Mem := do
  let m ← freeSubs (freewalk1 Λ) pt.sub 512 m
  kfree Λ m (pt.page * pgSize)

/-- `uvmfree`. -/
def uvmfree (Λ : Layout) (pt : PageTable) (m : Mem) (sz : Nat) : Except Panic Mem := do
  let (pt, m) ← (if 0 < sz then uvmunmap Λ pt m 0 (pgRoundUp sz / pgSize) true else pure (pt, m))
  freewalk Λ pt m

/-- `uvmclear`: the page is no longer the user's. -/
def uvmclear (Λ : Layout) (pt : PageTable) (m : Mem) (va : Nat) : Except Panic PageTable := do
  let (found, _, _) ← walk Λ pt m va false
  if found then pure (pt.setPte va (pt.pte va &&& (2 ^ 64 - 1 - pteU))) else throw .uvmclear

/-! ## Copying -/

/-- `memmove` of a whole page into the page at `mem`. -/
def copyPage (m : Mem) (mem pa : Nat) : Except Panic Mem :=
  if isRam mem then pure { m with ram := update m.ram (mem / pgSize) (m.ram (pa / pgSize)) }
  else throw .kerneltrap

/-- The loop of `uvmcopy` over the `n` pages from `i` on, with its exit `err`. -/
def uvmcopyLoop (Λ : Layout) (old : PageTable) : Nat → PageTable → Mem → Nat → Except Panic (Bool × PageTable × Mem)
  | 0, new, m, _ => pure (true, new, m)
  | n + 1, new, m, i => do
    let (found, _, _) ← walk Λ old m i false
    if !found then throw .uvmcopyPte
    else if !hasFlag (old.pte i) pteV then throw .uvmcopyPage
    else
      let (mem, m) := kalloc Λ m
      if mem = 0 then do
        let (new, m) ← uvmunmap Λ new m 0 (i / pgSize) true
        pure (false, new, m)
      else do
        let m ← copyPage m mem (pte2pa (old.pte i))
        let (ok, new, m) ← mappages Λ new m i pgSize mem (pteFlags (old.pte i))
        if ok then uvmcopyLoop Λ old n new m (i + pgSize)
        else do
          let m ← kfree Λ m mem
          let (new, m) ← uvmunmap Λ new m 0 (i / pgSize) true
          pure (false, new, m)

/-- `uvmcopy`: `false` for its return value `-1`. -/
def uvmcopy (Λ : Layout) (old new : PageTable) (m : Mem) (sz : Nat) : Except Panic (Bool × PageTable × Mem) :=
  uvmcopyLoop Λ old ((sz + (pgSize - 1)) / pgSize) new m 0

/-- The bytes `src` written at offset `o` of a physical page. -/
def writeRam (ram : Nat → Nat → UInt8) (pg o : Nat) (src : Nat → UInt8) (n : Nat) : Nat → Nat → UInt8 :=
  update ram pg fun x => if o ≤ x ∧ x < o + n then src (x - o) else ram pg x

/-- The loop of `copyout`. Each round copies at least a byte, so `len` rounds are enough. -/
def copyoutLoop (pt : PageTable) : Nat → (Nat → Nat → UInt8) → Nat → (Nat → UInt8) → Nat → Bool × (Nat → Nat → UInt8)
  | 0, ram, _, _, len => (len == 0, ram)
  | fuel + 1, ram, dstva, src, len =>
    if len = 0 then (true, ram)
    else
      let va0 := pgRoundDown dstva
      let pa0 := walkaddr pt va0
      if pa0 = 0 then (false, ram)
      else
        let n := min (pgSize - (dstva - va0)) len
        copyoutLoop pt fuel (writeRam ram (pa0 / pgSize) (dstva - va0) src n) (va0 + pgSize) (fun x => src (x + n)) (len - n)

/-- `copyout`: whether it returned `0`, and the memory after it. -/
def copyout (pt : PageTable) (ram : Nat → Nat → UInt8) (dstva : Nat) (src : Nat → UInt8) (len : Nat) :
    Bool × (Nat → Nat → UInt8) :=
  copyoutLoop pt len ram dstva src len

/-- The loop of `copyin`: the bytes at `dst` and after, once `done` of them are copied. -/
def copyinLoop (pt : PageTable) (ram : Nat → Nat → UInt8) : Nat → (Nat → UInt8) → Nat → Nat → Nat → Bool × (Nat → UInt8)
  | 0, dst, _, _, len => (len == 0, dst)
  | fuel + 1, dst, done, srcva, len =>
    if len = 0 then (true, dst)
    else
      let va0 := pgRoundDown srcva
      let pa0 := walkaddr pt va0
      if pa0 = 0 then (false, dst)
      else
        let n := min (pgSize - (srcva - va0)) len
        let dst' := fun x => if done ≤ x ∧ x < done + n then ram (pa0 / pgSize) (srcva - va0 + (x - done)) else dst x
        copyinLoop pt ram fuel dst' (done + n) (va0 + pgSize) (len - n)

/-- `copyin` into a buffer that held `dst`: whether it returned `0`, and the buffer after it. -/
def copyin (pt : PageTable) (ram : Nat → Nat → UInt8) (dst : Nat → UInt8) (srcva len : Nat) : Bool × (Nat → UInt8) :=
  copyinLoop pt ram len dst 0 srcva len

/-- The inner loop of `copyinstr` over `n` bytes of a page from offset `o` on, with `done` bytes at `dst` already: whether it met the
NUL. -/
def copyinstrPage (page : Nat → UInt8) : Nat → (Nat → UInt8) → Nat → Nat → Bool × (Nat → UInt8)
  | 0, dst, _, _ => (false, dst)
  | n + 1, dst, done, o =>
    if page o = 0 then (true, update dst done 0)
    else copyinstrPage page n (update dst done (page o)) (done + 1) (o + 1)

/-- The loop of `copyinstr`. Each round goes over at least a byte, so `max` rounds are enough. -/
def copyinstrLoop (pt : PageTable) (ram : Nat → Nat → UInt8) : Nat → (Nat → UInt8) → Nat → Nat → Nat → Bool × (Nat → UInt8)
  | 0, dst, _, _, _ => (false, dst)
  | fuel + 1, dst, done, srcva, max =>
    if max = 0 then (false, dst)
    else
      let va0 := pgRoundDown srcva
      let pa0 := walkaddr pt va0
      if pa0 = 0 then (false, dst)
      else
        let n := min (pgSize - (srcva - va0)) max
        match copyinstrPage (ram (pa0 / pgSize)) n dst done (srcva - va0) with
        | (true, dst) => (true, dst)
        | (false, dst) => copyinstrLoop pt ram fuel dst (done + n) (va0 + pgSize) (max - n)

/-- `copyinstr` into a buffer that held `dst`: whether it returned `0`, and the buffer after it. -/
def copyinstr (pt : PageTable) (ram : Nat → Nat → UInt8) (dst : Nat → UInt8) (srcva max : Nat) : Bool × (Nat → UInt8) :=
  copyinstrLoop pt ram max dst 0 srcva max

end Xv6Mmap

import Xv6Mmap.Vm
import Xv6Mmap.Fs

/-!
# The kernel state, open files, `mmap` and `munmap`

The state of `proc.h`, `file.h` and `vma.h`, with an optional index for a pointer into a kernel table, and the functions of `file.c`
and `pipe.c` that open, share, close and map files. For a call by process `i`, `myproc()` is `k.proc i`. `mmap` returns without
releasing `p->lock` when a VMA does not fit; `lock` records it, and the next `acquire` of it stops the kernel.
-/

namespace Xv6Mmap

open Function

/-- The types of `struct file`. -/
inductive FdType where
  | none | pipe | inode | device
  deriving DecidableEq, Repr

/-- `struct file`. -/
structure File where
  type : FdType
  ref : Int
  readable : Bool
  writable : Bool
  pipe : Nat
  ip : Option Nat
  off : Nat
  major : Int

/-- The ends of `struct pipe`, by the page it lives in. -/
structure Pipe where
  readopen : Bool
  writeopen : Bool

/-- `struct vma`. -/
structure Vma where
  use : Bool
  size : Nat
  ofile : Option Nat
  addrinit : Nat
  addri : Nat
  addre : Nat
  offset : Nat
  next : Option Nat
  prot : Nat
  flag : Nat

/-- The states of a process; the scheduler moves it among `SLEEPING`, `RUNNABLE` and `RUNNING`, here `runnable`. -/
inductive ProcState where
  | unused | used | runnable | zombie
  deriving DecidableEq, Repr

/-- `struct proc`. `exiting`: inside the unmap loop of `exit`, with this status. -/
structure Proc where
  lock : Bool
  state : ProcState
  killed : Bool
  xstate : Int
  pid : Nat
  parent : Option Nat
  sz : Nat
  pagetable : Option PageTable
  trapframe : Nat
  ofile : Nat → Option Nat
  cwd : Option Nat
  vmas : Option Nat
  nvma : Nat
  exiting : Option Int

/-- The tables of the kernel. -/
structure Kernel where
  proc : Nat → Proc
  vmas : Nat → Vma
  ftable : Nat → File
  fs : Fs
  pipes : Nat → Pipe
  mem : Mem
  nextpid : Nat

/-- `initproc`, the first entry of the process table. -/
abbrev initproc : Nat := 0

/-- `MAP_PRIVATE` and `MAP_SHARED`. -/
abbrev mapPrivate : Nat := 1
abbrev mapShared : Nat := 2

/-- `PROT_READ`, `PROT_WRITE` and `PROT_READ_WRITE`. -/
abbrev protRead : Nat := 2
abbrev protWrite : Nat := 4
abbrev protReadWrite : Nat := 6

/-- A process changed. -/
def Kernel.setProc (k : Kernel) (i : Nat) (p : Proc) : Kernel := { k with proc := update k.proc i p }

/-- A file changed. -/
def Kernel.setFile (k : Kernel) (f : Nat) (file : File) : Kernel := { k with ftable := update k.ftable f file }

/-! ## Files -/

/-- `filealloc`: the first file with no reference. -/
def filealloc (k : Kernel) : Option (Nat × Kernel) :=
  (firstSlot nfile fun f => (k.ftable f).ref == 0).map fun f => (f, k.setFile f { k.ftable f with ref := 1 })

/-- `filedup`. -/
def filedup (k : Kernel) (f : Nat) : Except Panic Kernel :=
  if (k.ftable f).ref < 1 then throw .filedup
  else pure (k.setFile f { k.ftable f with ref := (k.ftable f).ref + 1 })

/-- One end of a pipe closed. -/
def Pipe.close (pipe : Pipe) (writable : Bool) : Pipe :=
  if writable then { pipe with writeopen := false } else { pipe with readopen := false }

/-- `pipeclose`: one end is closed, and the page freed when both are. -/
def pipeclose (Λ : Layout) (k : Kernel) (pi : Nat) (writable : Bool) : Except Panic Kernel :=
  let pipe := (k.pipes pi).close writable
  let k := { k with pipes := update k.pipes pi pipe }
  if pipe.readopen = false ∧ pipe.writeopen = false then do
    let m ← kfree Λ k.mem (pi * pgSize)
    pure { k with mem := m }
  else pure k

/-- What `fileclose` does once the last reference is gone. -/
def fileRelease (Λ : Layout) (io : Bool) (k : Kernel) (ff : File) : Except Panic Kernel :=
  match ff.type with
  | .none => pure k
  | .pipe => pipeclose Λ k ff.pipe ff.writable
  | .inode | .device => do
    let fs ← iput io k.fs ff.ip
    pure { k with fs := fs }

/-- `fileclose`. -/
def fileclose (Λ : Layout) (io : Bool) (k : Kernel) (f : Nat) : Except Panic Kernel :=
  let ff := k.ftable f
  if ff.ref < 1 then throw .fileclose
  else if 0 < ff.ref - 1 then pure (k.setFile f { ff with ref := ff.ref - 1 })
  else fileRelease Λ io (k.setFile f { ff with ref := 0, type := .none }) ff

/-- `pipealloc`: two files for the ends of a new pipe. -/
def pipealloc (Λ : Layout) (io : Bool) (k : Kernel) : Except Panic (Option (Nat × Nat) × Kernel) :=
  match filealloc k with
  | none => pure (none, k)
  | some (f0, k) =>
    match filealloc k with
    | none => do
      let k ← fileclose Λ io k f0
      pure (none, k)
    | some (f1, k) =>
      let (pi, m) := kalloc Λ k.mem
      let k := { k with mem := m }
      if pi = 0 then do
        let k ← fileclose Λ io k f0
        let k ← fileclose Λ io k f1
        pure (none, k)
      else if !isRam pi then throw .kerneltrap
      else
        let pg := pi / pgSize
        let k := { k with pipes := update k.pipes pg ⟨true, true⟩ }
        let k := k.setFile f0 { k.ftable f0 with type := .pipe, readable := true, writable := false, pipe := pg }
        let k := k.setFile f1 { k.ftable f1 with type := .pipe, readable := false, writable := true, pipe := pg }
        pure (some (f0, f1), k)

/-! ## `mmap` -/

/-- Where `mmap` puts a new VMA: nowhere, or after `prev` and before `next`. -/
inductive Spot where
  | refused
  | found (prev next : Option Nat)

/-- The search of `mmap` for a place of `psize` bytes, `r` rounds from the end. -/
def findSpot (V : Nat → Vma) (psize : Nat) : Nat → Option Nat → Option Nat → Spot
  | 0, _, _ => .refused
  | _ + 1, none, none => if topAddress < (startAddress + psize) % 2 ^ 64 then .refused else .found none none
  | _ + 1, some q, none =>
    if topAddress < ((V q).addre + psize) % 2 ^ 64 then .refused else .found (some q) none
  | r + 1, none, some a => findSpot V psize r (some a) (V a).next
  | r + 1, some q, some a =>
    if ((V q).addre + psize) % 2 ^ 64 ≤ (V a).addri then .found (some q) (some a)
    else findSpot V psize r (some a) (V a).next

/-- `findVma`: the first free slot of the VMA table. -/
def findVma (V : Nat → Vma) : Option Nat := firstSlot vmasStored fun c => !(V c).use

/-- The VMA table with slot `n` linked in after `prev`. -/
def linkVma (V : Nat → Vma) (n : Nat) (prev : Option Nat) (v : Vma) : Nat → Vma :=
  match prev with
  | none => update V n v
  | some q => update (update V q { V q with next := some n }) n v

/-- The start of a VMA placed after `prev`. -/
def spotStart (V : Nat → Vma) : Option Nat → Nat
  | none => startAddress
  | some q => (V q).addre

/-- The tail of `mmap`, at `allocated`: slot `n` becomes a VMA over the file `f`. -/
def allocated (k : Kernel) (i length prot flag f n : Nat) (prev next : Option Nat) : Kernel :=
  let p := k.proc i
  let addri := spotStart k.vmas prev
  let v : Vma :=
    { use := true, size := length, ofile := some f, addrinit := addri, addri := addri,
      addre := (addri + pgRoundUp length) % 2 ^ 64, offset := 0, next := next, prot := prot, flag := flag }
  { k with
    proc := update k.proc i { p with vmas := if p.nvma = 0 then some n else p.vmas, nvma := p.nvma + 1 }
    vmas := linkVma k.vmas n prev v
    ftable := update k.ftable f { k.ftable f with ref := (k.ftable f).ref + 1 } }

/-- Whether `mmap` may share the file behind a pointer; a null one traps. -/
def mayShare (k : Kernel) : Option Nat → Except Panic Bool
  | none => throw .kerneltrap
  | some f => pure ((k.ftable f).readable && (k.ftable f).writable)

/-- `mmap` by process `i`. The file behind `fd` is read through at the start when shared, and at the end to count the reference. -/
def mmap (k : Kernel) (i length prot flag fd : Nat) : Except Panic (Nat × Kernel) := do
  let p := k.proc i
  let may ← (if flag = mapShared then mayShare k (p.ofile fd) else pure true)
  if !may then pure (minusOne, k)
  else if p.lock then throw .acquire
  else if p.nvma = maxVmas then pure (minusOne, k)
  else
    match findSpot k.vmas (pgRoundUp length) (maxVmas + 1) none p.vmas with
    | .refused => pure (minusOne, k.setProc i { p with lock := true })
    | .found prev next =>
      match findVma k.vmas, p.ofile fd with
      | none, _ => pure (minusOne, k)
      | some _, none => throw .kerneltrap
      | some n, some f => pure (spotStart k.vmas prev, allocated k i length prot flag f n prev next)

/-! ## `munmap` -/

/-- The test of `munmap` for the VMA that contains the range. -/
def Vma.covers (v : Vma) (addr length : Nat) : Bool :=
  let e := (addr + length) % 2 ^ 64
  decide (v.addri ≤ e ∧ e ≤ v.addre ∧ v.addri ≤ addr ∧ addr < v.addre)

/-- The search of `munmap` through the `n` VMAs left: the one with the range, and the one before it. -/
def munmapFind (V : Nat → Vma) (addr length : Nat) : Nat → Option Nat → Option Nat →
    Except Panic (Option (Option Nat × Nat))
  | 0, _, _ => pure none
  | _ + 1, _, none => throw .kerneltrap
  | n + 1, prev, some a =>
    if (V a).covers addr length then pure (some (prev, a)) else munmapFind V addr length n (some a) (V a).next

/-- A 32-bit `int` as a `uint64`. -/
def signExtend (x : Nat) : Nat := if x % 2 ^ 32 < 2 ^ 31 then x % 2 ^ 32 else 2 ^ 64 - 2 ^ 32 + x % 2 ^ 32

/-- `PGROUNDDOWN(addr + i*PGSIZE)`, the product an `int`. -/
def munmapPage (addr i : Nat) : Nat := pgRoundDown ((addr + signExtend (i * pgSize)) % 2 ^ 64)

/-- `i < PGROUNDUP(length)/PGSIZE` with an `int` index: how many rounds `munmap` can make. -/
def munmapRounds (length : Nat) : Nat := min (pgRoundUp length / pgSize) (2 ^ 31)

/-- `sizeWritten` at first in round `i`, a difference of `uint`s as an `int`. -/
def sizeWritten (i size : Nat) : Int :=
  let d : Nat := (pgSize * (i + 1) + 2 ^ 32 - size % 2 ^ 32) % 2 ^ 32
  if d < 2 ^ 31 then d else (d : Int) - 2 ^ 32

/-- How many bytes round `i` writes to a file of `size` bytes. -/
def writeLen (i size : Nat) : Nat := if 0 < sizeWritten i size then (sizeWritten i size).toNat else pgSize

/-- `either_copyin` from user memory at `src`. -/
def userGet (pt : PageTable) (ram : Nat → Nat → UInt8) (src o : Nat) (buf : Nat → UInt8) (m : Nat) :
    Bool × (Nat → UInt8) :=
  copyin pt ram buf ((src + o) % 2 ^ 64) m

/-- The write-back of a dirty page of a shared VMA in round `i`: whether `writei` succeeded, and whether the loop ends here. -/
def writeBack (io : Bool) (F : Nat → File) (v : Vma) (pt : PageTable) (ram : Nat → Nat → UInt8) (fs : Fs) (i page : Nat) :
    Except Panic (Bool × Bool × Fs) :=
  match v.ofile with
  | none => throw .kerneltrap
  | some f => do
    let fs ← ilock fs (F f).ip
    match (F f).ip with
    | none => throw .ilock
    | some ip => do
      let size := (fs.itable ip).info.size
      let (r, fs) ← writei io fs ip (userGet pt ram page) ((page + 2 ^ 64 - v.addrinit) % 2 ^ 32) (writeLen i size)
      pure (decide (r ≠ -1), decide (0 < sizeWritten i size), fs)

/-- The page loop of `munmap`, `n` rounds left, at round `i`: `false` for `-1`. -/
def munmapPages (Λ : Layout) (io : Bool) (F : Nat → File) (v : Vma) (addr : Nat) :
    Nat → Nat → PageTable → Mem → Fs → Except Panic (Bool × PageTable × Mem × Fs)
  | 0, _, pt, m, fs => pure (true, pt, m, fs)
  | n + 1, i, pt, m, fs => do
    let page := munmapPage addr i
    let (found, _, _) ← walk Λ pt m page false
    if !found then throw .kerneltrap
    else if !hasFlag (pt.pte page) pteV then munmapPages Λ io F v addr n (i + 1) pt m fs
    else do
      let (ok, out, fs) ←
        (if hasFlag (pt.pte page) pteD ∧ v.flag = mapShared then writeBack io F v pt m.ram fs i page
        else pure (true, false, fs))
      if !ok then pure (false, pt, m, fs)
      else do
        let (pt, m) ← uvmunmap Λ pt m page 1 true
        if out then pure (true, pt, m, fs) else munmapPages Λ io F v addr n (i + 1) pt m fs

/-- A slot of the VMA table after `freeVma`. -/
def Vma.clear (_ : Vma) : Vma :=
  { use := false, size := 0, ofile := none, addrinit := 0, addri := 0, addre := 0, offset := 0, next := none, prot := 0,
    flag := 0 }

/-- `freeVma` in `munmap`: slot `a` is unlinked and cleared, its reference to the file dropped. -/
def freeVma (k : Kernel) (i a : Nat) (prev : Option Nat) : Except Panic Kernel :=
  let p := k.proc i
  match (k.vmas a).ofile with
  | none => throw .kerneltrap
  | some f =>
    let V := match prev with
      | none => k.vmas
      | some q => update k.vmas q { k.vmas q with next := (k.vmas a).next }
    pure { k with
      proc := update k.proc i
        { p with vmas := if prev.isNone then (k.vmas a).next else p.vmas, nvma := p.nvma - 1 }
      vmas := update V a (V a).clear
      ftable := update k.ftable f { k.ftable f with ref := (k.ftable f).ref - 1 } }

/-- The end of `munmap`: the VMA goes away, or its start or its end moves. -/
def munmapResize (k : Kernel) (i a : Nat) (prev : Option Nat) (addr length : Nat) : Except Panic Kernel :=
  let v := k.vmas a
  if (v.addri + pgRoundUp length) % 2 ^ 64 = v.addre then freeVma k i a prev
  else if v.addri = addr then
    pure { k with vmas := update k.vmas a { v with addri := (v.addri + pgRoundUp length) % 2 ^ 64 } }
  else pure { k with vmas := update k.vmas a { v with addre := pgRoundDown addr } }

/-- `munmap` by process `i`: `false` for its return value `-1`. -/
def munmap (Λ : Layout) (io : Bool) (k : Kernel) (i addr length : Nat) : Except Panic (Bool × Kernel) :=
  let p := k.proc i
  if p.lock then throw .acquire
  else do
    match ← munmapFind k.vmas addr length p.nvma none p.vmas with
    | none => pure (false, k)
    | some (prev, a) =>
      match p.pagetable with
      | none => throw .kerneltrap
      | some pt => do
        let (ok, pt, m, fs) ← munmapPages Λ io k.ftable (k.vmas a) addr (munmapRounds length) 0 pt k.mem k.fs
        let k := { k.setProc i { p with pagetable := some pt } with mem := m, fs := fs }
        if !ok then pure (false, k)
        else do
          let k ← munmapResize k i a prev addr length
          pure (true, k)

end Xv6Mmap

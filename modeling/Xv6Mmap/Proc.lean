import Xv6Mmap.File

/-!
# Processes

`proc.c`: creating, growing, copying and ending a process. `exit` is cut where its unmap loop calls `munmap`: `exitBegin` up to the
loop, `exitUnmap` one round of it, `exitDone` what follows.
-/

namespace Xv6Mmap

open Function

/-! ## Page tables of processes -/

/-- `proc_pagetable` for a process whose trapframe is at `tf`. -/
def procPagetable (Λ : Layout) (m : Mem) (tf : Nat) : Except Panic (Option PageTable × Mem) := do
  let (pt, m) ← uvmcreate Λ m
  match pt with
  | none => pure (none, m)
  | some pt => do
    let (ok, pt, m) ← mappages Λ pt m trampoline pgSize Λ.tramp (pteR ||| pteX)
    if !ok then do
      let m ← uvmfree Λ pt m 0
      pure (none, m)
    else do
      let (ok, pt, m) ← mappages Λ pt m trapframe pgSize tf (pteR ||| pteW)
      if !ok then do
        let (pt, m) ← uvmunmap Λ pt m trampoline 1 false
        let m ← uvmfree Λ pt m 0
        pure (none, m)
      else pure (some pt, m)

/-- `proc_freepagetable`. -/
def procFreepagetable (Λ : Layout) (pt : PageTable) (m : Mem) (sz : Nat) : Except Panic Mem := do
  let (pt, m) ← uvmunmap Λ pt m trampoline 1 false
  let (pt, m) ← uvmunmap Λ pt m trapframe 1 false
  uvmfree Λ pt m sz

/-- The entry of the process table after `freeproc`. -/
def Proc.freed (p : Proc) : Proc :=
  { p with
    trapframe := 0, pagetable := none, sz := 0, pid := 0, parent := none, killed := false, xstate := 0, state := .unused
    exiting := none }

/-- `freeproc`. -/
def freeproc (Λ : Layout) (p : Proc) (m : Mem) : Except Panic (Proc × Mem) := do
  let m ← (if p.trapframe ≠ 0 then kfree Λ m p.trapframe else pure m)
  let m ← (match p.pagetable with
    | none => pure m
    | some pt => procFreepagetable Λ pt m p.sz)
  pure (p.freed, m)

/-- `allocproc`: the first unused entry, with a trapframe and an empty page table. The search acquires the lock of each entry on
the way; one that is never released stops it. -/
def allocproc (Λ : Layout) (k : Kernel) : Except Panic (Option Nat × Kernel) :=
  match firstSlot nproc fun j => (k.proc j).lock || (k.proc j).state == .unused with
  | none => pure (none, k)
  | some j =>
    let p := k.proc j
    if p.lock then throw .acquire
    else do
      let (tf, m) := kalloc Λ k.mem
      let p := { p with pid := k.nextpid, state := .used, trapframe := tf }
      let k := { k with nextpid := k.nextpid + 1 }
      if tf = 0 then do
        let (p, m) ← freeproc Λ p m
        pure (none, { k.setProc j p with mem := m })
      else do
        let (pt, m) ← procPagetable Λ m tf
        match pt with
        | none => do
          let (p, m) ← freeproc Λ p m
          pure (none, { k.setProc j p with mem := m })
        | some pt => pure (some j, { k.setProc j { p with pagetable := some pt } with mem := m })

/-! ## `sbrk` -/

/-- `growproc` by process `i`, for an `int` `n`: `false` for its return value `-1`. The size is kept in a `uint`. -/
def growproc (Λ : Layout) (k : Kernel) (i : Nat) (n : Int) : Except Panic (Bool × Kernel) :=
  let p := k.proc i
  match p.pagetable with
  | none => throw .kerneltrap
  | some pt => do
    let sz := p.sz % 2 ^ 32
    let newsz := ((sz + n) % 2 ^ 32).toNat
    if 0 < n then do
      let (r, pt, m) ← uvmalloc Λ pt k.mem sz newsz
      if r % 2 ^ 32 = 0 then pure (false, { k.setProc i { p with pagetable := some pt } with mem := m })
      else pure (true, { k.setProc i { p with pagetable := some pt, sz := r % 2 ^ 32 } with mem := m })
    else if n < 0 then do
      let (r, pt, m) ← uvmdealloc Λ pt k.mem sz newsz
      pure (true, { k.setProc i { p with pagetable := some pt, sz := r % 2 ^ 32 } with mem := m })
    else pure (true, k.setProc i { p with sz := sz })

/-! ## `fork` -/

/-- The loop of `fork` that duplicates the descriptors `fd`, `fd + 1`, ..., `n` of them. -/
def dupFiles (ofile : Nat → Option Nat) : Nat → Nat → Kernel → (Nat → Option Nat) → Except Panic (Kernel × (Nat → Option Nat))
  | 0, _, k, np => pure (k, np)
  | n + 1, fd, k, np =>
    match ofile fd with
    | none => dupFiles ofile n (fd + 1) k np
    | some f => do
      let k ← filedup k f
      dupFiles ofile n (fd + 1) k (update np fd (some f))

/-- The copy of a VMA into a free slot. -/
def Vma.copy (v : Vma) : Vma := { v with use := true, next := none }

/-- A VMA copied into slot `s` for child `np`, after slot `last`, with a new reference to its file `f`. -/
def copyVma (k : Kernel) (np a s f : Nat) (last : Option Nat) : Kernel :=
  let V := match last with
    | none => k.vmas
    | some q => update k.vmas q { k.vmas q with next := some s }
  let p := k.proc np
  { k with
    proc := update k.proc np { p with vmas := if last.isNone then some s else p.vmas }
    vmas := update V s (k.vmas a).copy
    ftable := update k.ftable f { k.ftable f with ref := (k.ftable f).ref + 1 } }

/-- The loop of `fork` that copies the `n` VMAs from `act` on into slots from `c` on, for child `np`; `last` is the slot filled
before. When the search for a slot runs into the end of the table, `fork` fails (`false`); when it starts there, the VMA is passed
over. -/
def forkVmas (np : Nat) : Nat → Kernel → Option Nat → Nat → Option Nat → Except Panic (Bool × Kernel)
  | 0, k, _, _, _ => pure (true, k)
  | n + 1, k, act, c, last =>
    if vmasStored ≤ c then
      match act with
      | none => throw .kerneltrap
      | some a => forkVmas np n k (k.vmas a).next (c + 1) last
    else
      match firstSlot vmasStored fun s => decide (c ≤ s) && !(k.vmas s).use with
      | none => pure (false, k)
      | some s =>
        match act with
        | none => throw .kerneltrap
        | some a =>
          match (k.vmas a).ofile with
          | none => throw .kerneltrap
          | some f =>
            let k := copyVma k np a s f last
            forkVmas np n k (k.vmas a).next (s + 1) (some s)

/-- `fork` by process `i`: the pid of the child, or none for `-1`. The trapframe, a page of registers, is left out. -/
def fork (Λ : Layout) (k : Kernel) (i : Nat) : Except Panic (Option Nat × Kernel) := do
  let (np, k) ← allocproc Λ k
  let p := k.proc i
  match np, p.pagetable with
  | none, _ => pure (none, k)
  | some _, none => throw .kerneltrap
  | some np, some pt =>
    match (k.proc np).pagetable with
    | none => throw .kerneltrap
    | some npt => do
      let (ok, npt, m) ← uvmcopy Λ pt npt k.mem p.sz
      let c := k.proc np
      if !ok then do
        let (c, m) ← freeproc Λ { c with pagetable := some npt } m
        pure (none, { k.setProc np c with mem := m })
      else do
        let k := { k.setProc np { c with pagetable := some npt, sz := p.sz } with mem := m }
        let (k, ofile) ← dupFiles p.ofile nofile 0 k (k.proc np).ofile
        let fs ← idup k.fs p.cwd
        let k := { k.setProc np { k.proc np with ofile := ofile, cwd := p.cwd, nvma := p.nvma } with fs := fs }
        let (ok, k) ← forkVmas np p.nvma k p.vmas 0 none
        if !ok then pure (none, k)
        else pure (some (k.proc np).pid, k.setProc np { k.proc np with parent := some i, state := .runnable })

/-! ## `exit` and `wait` -/

/-- The loop of `exit` that closes the descriptors `fd`, `fd + 1`, ..., `n` of them. -/
def closeFiles (Λ : Layout) (io : Bool) (i : Nat) : Nat → Nat → Kernel → Except Panic Kernel
  | 0, _, k => pure k
  | n + 1, fd, k =>
    match (k.proc i).ofile fd with
    | none => closeFiles Λ io i n (fd + 1) k
    | some f => do
      let k ← fileclose Λ io k f
      let p := k.proc i
      closeFiles Λ io i n (fd + 1) (k.setProc i { p with ofile := update p.ofile fd none })

/-- `exit` up to its unmap loop. -/
def exitBegin (Λ : Layout) (io : Bool) (k : Kernel) (i : Nat) (status : Int) : Except Panic Kernel :=
  if i = initproc then throw .initExiting
  else do
    let k ← closeFiles Λ io i nofile 0 k
    pure (k.setProc i { k.proc i with exiting := some status })

/-- One round of the unmap loop of `exit`: the whole of the first VMA. What `munmap` returns is not looked at. -/
def exitUnmap (Λ : Layout) (io : Bool) (k : Kernel) (i : Nat) : Except Panic Kernel :=
  match (k.proc i).vmas with
  | none => throw .kerneltrap
  | some a => do
    let v := k.vmas a
    let (_, k) ← munmap Λ io k i v.addri ((v.addre + 2 ^ 64 - v.addri) % 2 ^ 64)
    pure k

/-- `reparent`: the children of a process go to `init`. -/
def reparent (k : Kernel) (i : Nat) : Kernel :=
  { k with proc := fun j =>
      if (k.proc j).parent = some i then { k.proc j with parent := some initproc } else k.proc j }

/-- `exit` after its unmap loop. -/
def exitDone (io : Bool) (k : Kernel) (i : Nat) (status : Int) : Except Panic Kernel := do
  let fs ← iput io k.fs (k.proc i).cwd
  let k := { k.setProc i { k.proc i with cwd := none } with fs := fs }
  let k := reparent k i
  if (k.proc i).lock then throw .acquire
  else pure (k.setProc i { k.proc i with xstate := status, state := .zombie, exiting := none })

/-- An `int` as its four bytes. -/
def intBytes (x : Int) (o : Nat) : UInt8 := UInt8.ofNat ((x % 2 ^ 32).toNat / 256 ^ o)

/-- What one scan of `wait` comes to: the pid of a child it freed, a failure, or nothing yet, so that the caller sleeps. -/
inductive WaitResult where
  | freed (pid : Nat)
  | failed
  | sleeps

/-- One scan of `wait` by process `i`, with the exit status copied to `addr` unless that is `0`. -/
def wait (Λ : Layout) (k : Kernel) (i addr : Nat) : Except Panic (WaitResult × Kernel) :=
  let p := k.proc i
  match firstSlot nproc fun j =>
      (k.proc j).parent == some i && ((k.proc j).lock || (k.proc j).state == .zombie) with
  | some j =>
    let c := k.proc j
    if c.lock then throw .acquire
    else
      match p.pagetable with
      | none => throw .kerneltrap
      | some pt =>
        let (ok, ram) := if addr = 0 then (true, k.mem.ram) else copyout pt k.mem.ram addr (intBytes c.xstate) 4
        let m := { k.mem with ram := ram }
        if !ok then pure (.failed, { k with mem := m })
        else do
          let (c', m) ← freeproc Λ c m
          pure (.freed c.pid, { k.setProc j c' with mem := m })
  | none =>
    if (firstSlot nproc fun j => (k.proc j).parent == some i) = none ∨ p.killed = true then pure (.failed, k)
    else pure (.sleeps, k)

/-! ## The first process -/

/-- `initcode`. -/
def initcode : List UInt8 :=
  [0x17, 0x05, 0x00, 0x00, 0x13, 0x05, 0x45, 0x02, 0x97, 0x05, 0x00, 0x00, 0x93, 0x85, 0x35, 0x02,
    0x93, 0x08, 0x70, 0x00, 0x73, 0x00, 0x00, 0x00, 0x93, 0x08, 0x20, 0x00, 0x73, 0x00, 0x00, 0x00,
    0xef, 0xf0, 0x9f, 0xff, 0x2f, 0x69, 0x6e, 0x69, 0x74, 0x00, 0x00, 0x24, 0x00, 0x00, 0x00, 0x00,
    0x00, 0x00, 0x00, 0x00]

/-- `userinit`: the first process, with one page and the root directory as its own. -/
def userinit (Λ : Layout) (k : Kernel) : Except Panic Kernel := do
  let (np, k) ← allocproc Λ k
  match np with
  | none => throw .kerneltrap
  | some i =>
    match (k.proc i).pagetable with
    | none => throw .kerneltrap
    | some pt => do
      let (pt, m) ← uvminit Λ pt k.mem initcode
      let (cwd, fs) ← namei true k.fs none [slash]
      let p := k.proc i
      pure { k.setProc i
        { p with pagetable := some pt, sz := pgSize, cwd := cwd, vmas := none, state := .runnable } with mem := m, fs := fs }

end Xv6Mmap

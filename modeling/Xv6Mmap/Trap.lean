import Xv6Mmap.Sysfile

/-!
# Traps and runs

The page-fault branch of `usertrap`, what a user program can do, and runs of the whole system. A step is one user store, one
trap with the kernel call it makes, or one of the pieces of `exit`, by one process; between steps any other process may run.

A trap stores the registers through the user's `TRAPFRAME` page and returns through it, and runs on the user's `TRAMPOLINE`
page: a process one of whose two pages is unmapped makes no further step.
-/

namespace Xv6Mmap

/-- The page faults: causes 12, 13 and 15. -/
inductive Cause where
  | instruction | load | store
  deriving DecidableEq, Repr

/-- The PTE bits an access needs beside `PTE_V` and `PTE_U`; a PTE with `PTE_W` and without `PTE_R` grants nothing. -/
def Cause.needs : Cause → Nat → Bool
  | .instruction, pte => hasFlag pte pteX
  | .load, pte => hasFlag pte pteR
  | .store, pte => hasFlag pte pteR && hasFlag pte pteW

/-- Whether the hardware grants a user access to `va`. -/
def permits (pt : PageTable) (va : Nat) (cause : Cause) : Bool :=
  decide (va < maxVa) && hasFlag (pt.pte (pgRoundDown va)) pteV && hasFlag (pt.pte (pgRoundDown va)) pteU &&
    cause.needs (pt.pte (pgRoundDown va))

/-! ## The page-fault branch -/

/-- The search of the page-fault branch through the `n` VMAs left. -/
def faultFind (V : Nat → Vma) (va : Nat) : Nat → Option Nat → Except Panic (Option Nat)
  | 0, _ => pure none
  | _ + 1, none => throw .kerneltrap
  | n + 1, some a => if (V a).addri ≤ va ∧ va < (V a).addre then pure (some a) else faultFind V va n (V a).next

/-- `p->killed = 1; exit(-1)`. -/
def killExit (Λ : Layout) (io : Bool) (k : Kernel) (i : Nat) : Except Panic Kernel :=
  exitBegin Λ io (k.setProc i { k.proc i with killed := true }) i (-1)

/-- `either_copyout` to user memory at `dst`. -/
def userPut (pt : PageTable) (dst : Nat) (ram : Nat → Nat → UInt8) (o : Nat) (src : Nat → UInt8) (m : Nat) :
    Bool × (Nat → Nat → UInt8) :=
  copyout pt ram ((dst + o) % 2 ^ 64) src m

/-- The content of a page of a VMA read in from the file: `ilock`, `readi`, `iunlock`. What `readi` returns is not looked at. -/
def readPage (k : Kernel) (v : Vma) (pt : PageTable) (m : Mem) (va : Nat) : Except Panic (Mem × Fs) :=
  match v.ofile with
  | none => throw .kerneltrap
  | some f => do
    let fs ← ilock k.fs (k.ftable f).ip
    match (k.ftable f).ip with
    | none => throw .ilock
    | some ip =>
      let r := readi (fs.itable ip).info.size (fs.data ip) (userPut pt (pgRoundDown va)) m.ram
        ((pgRoundDown va + 2 ^ 64 - v.addri) % 2 ^ 32) pgSize
      pure ({ m with ram := r.2 }, fs)

/-- The page-fault branch of `usertrap` at address `va`, with the test of `p->killed` that follows it. It does not look at the
cause. -/
def pageFault (Λ : Layout) (io : Bool) (k : Kernel) (i va : Nat) : Except Panic Kernel := do
  let p := k.proc i
  if p.nvma = 0 then killExit Λ io k i
  else
    match ← faultFind k.vmas va p.nvma p.vmas with
    | none => killExit Λ io k i
    | some a =>
      match p.pagetable with
      | none => throw .kerneltrap
      | some pt => do
        let (paddr, m) := kalloc Λ k.mem
        let p := { p with killed := p.killed || paddr == 0 }
        let m ← memset m paddr 0
        let (ok, pt, m) ← mappages Λ pt m va pgSize paddr ((k.vmas a).prot ||| pteU)
        if !ok then do
          let m ← kfree Λ m paddr
          killExit Λ io { k.setProc i { p with pagetable := some pt } with mem := m } i
        else do
          let (m, fs) ← readPage k (k.vmas a) pt m va
          let k := { k.setProc i { p with pagetable := some pt } with mem := m, fs := fs }
          if p.killed then exitBegin Λ io k i (-1) else pure k

/-! ## Steps of a process -/

/-- What a process does: the system calls, a page fault, a store that the hardware grants, and the pieces of `exit`. -/
inductive Event where
  | mmap (length prot flag fd : Nat)
  | munmap (addr length : Nat)
  | fault (va : Nat) (cause : Cause)
  | store (va : Nat) (b : UInt8)
  | sbrk (n : Int)
  | fork
  | exit (status : Int)
  | exitUnmap
  | exitDone
  | wait (addr : Nat)
  | exec (path : List UInt8) (argv : List (List UInt8))
  | openPath (path : Option (List UInt8)) (omode : Nat)
  | dup (fd : Int)
  | close (fd : Int)
  | pipe (fdarray : Nat)
  | chdir (path : Option (List UInt8))

/-- The process runs user code: it lives, is not in `exit`, and its `TRAPFRAME` and `TRAMPOLINE` pages are mapped. -/
def inUser (p : Proc) : Option PageTable :=
  if p.state = .runnable ∧ p.exiting = none then
    p.pagetable.bind fun pt => if pt.mapped trapframe && pt.mapped trampoline then some pt else none
  else none

/-- A store by user code to a page that grants it: the byte changes and the PTE gets its dirty bit. -/
def userStore (k : Kernel) (i : Nat) (pt : PageTable) (va : Nat) (b : UInt8) : Kernel :=
  if permits pt va .store then
    let page := pgRoundDown va
    let pte := pt.pte page
    let pg := ptePage pte
    { k.setProc i { k.proc i with pagetable := some (pt.setPte page (pte ||| pteD)) } with
      mem := { k.mem with
        ram := Function.update k.mem.ram pg (Function.update (k.mem.ram pg) (va % pgSize) b) } }
  else k

/-- A trap from user code: its registers are stored through the `TRAPFRAME` page, which becomes dirty. -/
def trapEntry (k : Kernel) (i : Nat) (pt : PageTable) : Kernel :=
  k.setProc i { k.proc i with pagetable := some (pt.setPte trapframe (pt.pte trapframe ||| pteD)) }

/-- What the kernel does for a trap of process `i`: the value returned in `a0`, and the kernel after it. -/
def trap (Λ : Layout) (io : Bool) (k : Kernel) (i : Nat) : Event → Except Panic (Nat × Kernel)
  | .mmap length prot flag fd => sysMmap k i length prot flag fd
  | .munmap addr length => sysMunmap Λ io k i addr length
  | .fault va _ => do
    let k ← pageFault Λ io k i va
    pure (0, k)
  | .sbrk n => do
    let sz := (k.proc i).sz
    let (ok, k) ← growproc Λ k i n
    pure (if ok then signExtend sz else minusOne, k)
  | .fork => do
    let (pid, k) ← fork Λ k i
    pure (pid.getD minusOne, k)
  | .exit status => do
    let k ← exitBegin Λ io k i status
    pure (0, k)
  | .wait addr => do
    let (r, k) ← wait Λ k i addr
    match r with
    | .freed pid => pure (pid, k)
    | .failed | .sleeps => pure (minusOne, k)
  | .exec path argv => do
    let (argc, k) ← exec Λ io k i path argv
    pure (argc.getD minusOne, k)
  | .openPath path omode => sysOpen Λ io k i path omode
  | .dup fd => sysDup k i fd
  | .close fd => sysClose Λ io k i fd
  | .pipe fdarray => sysPipe Λ io k i fdarray
  | .chdir path => sysChdir io k i path
  | .store _ _ | .exitUnmap | .exitDone => pure (0, k)

/-- One step of process `i`. A process that is not where the event can happen does nothing. -/
def step (Λ : Layout) (io : Bool) (k : Kernel) (i : Nat) (ev : Event) : Except Panic (Nat × Kernel) :=
  let p := k.proc i
  match ev, p.exiting with
  | .exitUnmap, some _ =>
    if p.nvma = 0 then pure (0, k)
    else do
      let k ← exitUnmap Λ io k i
      pure (0, k)
  | .exitDone, some status =>
    if p.nvma = 0 then do
      let k ← exitDone io k i status
      pure (0, k)
    else pure (0, k)
  | .store va b, none =>
    match inUser p with
    | none => pure (0, k)
    | some pt => pure (0, userStore k i pt va b)
  | ev, _ =>
    match inUser p with
    | none => pure (0, k)
    | some pt => trap Λ io (trapEntry k i pt) i ev

/-! ## Runs -/

/-- The kernel before its first process: no process, no VMA, no open file, no inode in memory, and the allocator in order. -/
structure Fresh (Λ : Layout) (k : Kernel) : Prop where
  proc : ∀ i, k.proc i = ⟨false, .unused, false, 0, 0, none, 0, none, 0, fun _ => none, none, none, 0, none⟩
  vmas : ∀ c, (k.vmas c).use = false
  ftable : ∀ f, (k.ftable f).ref = 0 ∧ (k.ftable f).type = .none
  itable : ∀ i, (k.fs.itable i).ref = 0
  kmem : KmemInv Λ k.mem

/-- A kernel that has started its first process. -/
def Booted (Λ : Layout) (k : Kernel) : Prop := ∃ k₀, Fresh Λ k₀ ∧ userinit Λ k₀ = .ok k

/-- The states reached from `k₀` by steps of processes of the table that all meet `P` in the state before the step. -/
inductive Reach (Λ : Layout) (P : Kernel → Nat → Event → Prop) (k₀ : Kernel) : Kernel → Prop where
  | refl : Reach Λ P k₀ k₀
  | step {k k' : Kernel} {io : Bool} {i r : Nat} {ev : Event} : Reach Λ P k₀ k → i < nproc → P k i ev →
      step Λ io k i ev = .ok (r, k') → Reach Λ P k₀ k'

/-- The invariant rule for runs. -/
theorem Reach.invariant {Λ : Layout} {P : Kernel → Nat → Event → Prop} {k0 k : Kernel} {I : Kernel → Prop}
    (hrun : Reach Λ P k0 k) (h0 : I k0)
    (hstep : ∀ k io i ev r k', I k → i < nproc → P k i ev → Xv6Mmap.step Λ io k i ev = .ok (r, k') → I k') : I k := by
  induction hrun with
  | refl => exact h0
  | step _ hi hp hs ih => exact hstep _ _ _ _ _ _ ih hi hp hs

end Xv6Mmap

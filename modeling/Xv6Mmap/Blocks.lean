import Xv6Mmap.Lib.Prog
import Xv6Mmap.Log
import Xv6Mmap.Sysfile
import Xv6Mmap.Trap

/-!
# The file system by blocks, with its locks

The level below `Fs`: programs whose actions are the critical sections of the source, so that the calls of several processes
interleave. The state has the buffer cache by block number (there is one disk), the holders of the sleep-locks, the disk, the log in
memory, the inode table with the block addresses, and the `p->lock` of each process. The rest of the kernel is `k` (`k.fs` is not
looked at), which changes beside the programs in any way.

An action that has to sleep is not made: it `waits`, unless the process holds its `p->lock`, which `sleep` acquires. `wakeup` takes
the `p->lock` of every other process in turn and spins on one that is held. Buffers of the blocks in `log.lh` are pinned; any other
that nobody holds may be recycled.
-/

namespace Xv6Mmap.Blk

open Function

/-- The bytes of a disk block. -/
abbrev Bytes : Type := Nat → UInt8

/-- `NDIRECT` and `NINDIRECT`. -/
abbrev ndirect : Nat := 12
abbrev nindirect : Nat := bsize / 4

/-- The fields of `struct superblock` that are read after the start. -/
structure Superblock where
  size : Nat
  ninodes : Nat
  logstart : Nat
  inodestart : Nat
  bmapstart : Nat

/-- `struct inode`, an entry of the inode table, with its block addresses. -/
structure Minode where
  dev : Nat
  inum : Nat
  ref : Int
  valid : Bool
  info : InodeInfo
  addrs : Nat → Nat

/-- The panics that only this level has. -/
inductive FsPanic where
  | bwrite | brelse | balloc | bfree | bmap | iunlock | fileread | filewrite | isdirempty | unlinkNlink | unlinkWritei
  deriving DecidableEq, Repr

/-- Why an action is not made: the process waits, or the kernel stops. -/
inductive Stop where
  | waits
  | panic (e : Panic)
  | fs (e : FsPanic)
  | log (e : LogPanic)
  deriving DecidableEq, Repr

/-- The state the processes share. `inOp` counts the `begin_op`s without `end_op`; `fate` is how the next work on page tables and
memory comes out. -/
structure Sys where
  cache : Nat → Option Bytes
  holder : Nat → Option Nat
  disk : Nat → Bytes
  log : Log
  inode : Nat → Minode
  ilock : Nat → Option Nat
  plock : Nat → Bool
  inOp : Nat → Nat
  k : Kernel
  fate : Bool

/-- The actions.

* buffers: `bread`, a change of the data of a locked buffer, `bwrite`, `brelse`;
* the log: the critical sections of `begin_op`, `log_write` and `end_op`, the blocks in `log.lh`, and the two steps of a commit;
* the inode table: `iget`, `idup`, the fields of an entry, the lock of an entry, the two critical sections of `iput`;
* what `bmap` reads, a slot of `ip->addrs` and an entry of an indirect block, and the test at the start of `writei`;
* user memory: `copyin` to the buffer of a block, and `copyout`;
* files and descriptors;
* the process: its `p->lock`, VMAs, page table and directory;
* `device` for reads and writes of pipes and devices, `panic`, and `hang` for a loop that has run longer than it was followed. -/
inductive Act where
  | bread (b : Nat) | bset (b : Nat) (d : Bytes) | bwrite (b : Nat) | brelse (b : Nat)
  | beginOp | logWrite (b : Nat) | endOp | header | commitDone | commitCleared
  | iget (dev inum : Nat) | idup (j : Nat) | inode (j : Nat) | setInfo (j : Nat) (info : InodeInfo)
  | setAddrs (j : Nat) (addrs : Nat → Nat) | setAddr (j bn a : Nat) | setValid (j : Nat) (valid : Bool)
  | acquiresleep (j : Nat) | holdingsleep (j : Nat) | releasesleep (j : Nat) | iputBegin (j : Nat) | iputEnd (j : Nat)
  | addr (j bn : Nat) | entry (b bn : Nat) | mayWrite (j off n : Nat)
  | copyin (b src : Nat) (buf : Bytes) (n : Nat) | copyout (dst : Nat) (src : Bytes) (n : Nat)
  | file (f : Nat) | setOff (f off : Nat) | filealloc | fdalloc (f : Nat) | setFile (f : Nat) (file : File) | fileDrop (f : Nat)
  | ofile (fd : Nat) | clearFd (fd : Nat)
  | isInit | killed | cwd | setCwd (ip : Option Nat) | acquireP | releaseP | wakeup
  | vmaFind (addr length : Nat) | vmaHead | pteValid (page : Nat) | dirtyShared (a page : Nat) | vmaFile (a : Nat)
  | unmapPage (page : Nat) | resize (a : Nat) (prev : Option Nat) (addr length : Nat)
  | faultFind (va : Nat) | vmasFull | noPlace (length : Nat) | fate
  | device | panic (e : Panic) | fsPanic (e : FsPanic) | hang

/-- What each action results in. -/
def Act.Res : Act → Type
  | .bread _ => Bytes
  | .endOp | .iputBegin _ | .holdingsleep _ | .mayWrite _ _ _ | .copyout _ _ _ => Bool
  | .header => List Nat
  | .iget _ _ | .addr _ _ | .entry _ _ => Nat
  | .inode _ => Minode
  | .copyin _ _ _ _ => Bool × Bytes
  | .file _ => File
  | .filealloc | .fdalloc _ | .ofile _ | .cwd | .faultFind _ => Option Nat
  | .fileDrop _ => Option File
  | .isInit | .killed | .pteValid _ | .dirtyShared _ _ | .unmapPage _ | .vmasFull | .noPlace _ | .fate => Bool
  | .vmaFind _ _ => Option (Option Nat × Nat)
  | .vmaHead => Option (Nat × Nat)
  | .vmaFile _ => Vma × Option Nat
  | .panic _ | .fsPanic _ | .hang => Empty
  | _ => Unit

/-! ## What the actions do -/

/-- A little-endian number of `n` bytes at offset `o` written over a block. -/
def putLe (d : Bytes) (o n v : Nat) : Bytes := fun x =>
  if o ≤ x ∧ x < o + n then UInt8.ofNat (v / 256 ^ (x - o)) else d x

namespace Sys

variable (s : Sys) (i : Nat)

/-- `sleep`: the process waits; with its `p->lock` held it panics in `acquire`. -/
def sleep {α : Type} : Except Stop α := throw (if s.plock i then .panic .acquire else .waits)

/-- No other process holds its `p->lock`, so `wakeup` gets through. -/
def othersFree : Bool := (List.range nproc).all fun j => j == i || !s.plock j

/-- An entry of the inode table changed. -/
def setInode (j : Nat) (x : Minode) : Sys := { s with inode := update s.inode j x }

/-- `bread`: the lock of the buffer, and the content, from the disk if it is not there yet. -/
def bread (b : Nat) : Except Stop (Bytes × Sys) :=
  if (s.holder b).isSome then s.sleep i
  else
    match s.cache b with
    | some d => pure (d, { s with holder := update s.holder b (some i) })
    | none =>
      if s.plock i then s.sleep i
      else pure (s.disk b, { s with
        cache := update s.cache b (some (s.disk b)), holder := update s.holder b (some i) })

/-- The data of a buffer changed by the process that holds it. -/
def bset (b : Nat) (d : Bytes) : Except Stop Sys :=
  if s.holder b = some i then pure { s with cache := update s.cache b (some d) } else throw (.panic .kerneltrap)

/-- `bwrite`. -/
def bwrite (b : Nat) : Except Stop Sys :=
  if s.holder b = some i then
    if s.plock i then s.sleep i
    else pure { s with disk := update s.disk b ((s.cache b).getD (s.disk b)) }
  else throw (.fs .bwrite)

/-- `brelse`. -/
def brelse (b : Nat) : Except Stop Sys :=
  if s.holder b = some i then
    if s.othersFree i then pure { s with holder := update s.holder b none } else throw .waits
  else throw (.fs .brelse)

/-- The critical section of `begin_op`. -/
def beginOp : Except Stop Sys :=
  match Xv6Mmap.beginOp s.log with
  | none => s.sleep i
  | some l => pure { s with log := l, inOp := update s.inOp i (s.inOp i + 1) }

/-- `log_write`. -/
def logWrite (b : Nat) : Except Stop Sys :=
  match Xv6Mmap.logWrite s.log b with
  | .error e => throw (.log e)
  | .ok l => pure { s with log := l }

/-- The first critical section of `end_op`; it wakes the others unless it commits. -/
def endOp : Except Stop (Bool × Sys) :=
  match Xv6Mmap.endOp s.log with
  | .error e => throw (.log e)
  | .ok (doCommit, l) =>
    if doCommit || s.othersFree i then
      pure (doCommit, { s with log := l, inOp := update s.inOp i (s.inOp i - 1) })
    else throw .waits

/-- The critical section of `iget`. -/
def iget (dev inum : Nat) : Except Stop (Nat × Sys) :=
  match firstSlot ninode fun j => decide (0 < (s.inode j).ref) && (s.inode j).dev == dev && (s.inode j).inum == inum with
  | some j => pure (j, s.setInode j { s.inode j with ref := (s.inode j).ref + 1 })
  | none =>
    match firstSlot ninode fun j => (s.inode j).ref == 0 with
    | none => throw (.panic .igetNoInodes)
    | some j => pure (j, s.setInode j { s.inode j with dev := dev, inum := inum, ref := 1, valid := false })

/-- `acquiresleep` of the lock of an inode. -/
def acquiresleep (j : Nat) : Except Stop Sys :=
  if (s.ilock j).isSome then s.sleep i else pure { s with ilock := update s.ilock j (some i) }

/-- `releasesleep` of the lock of an inode. -/
def releasesleep (j : Nat) : Except Stop Sys :=
  if s.othersFree i then pure { s with ilock := update s.ilock j none } else throw .waits

/-- The start of `iput`: whether the inode has to be freed, with its lock; otherwise the reference is gone. -/
def iputBegin (j : Nat) : Except Stop (Bool × Sys) :=
  let ip := s.inode j
  if ip.ref = 1 ∧ ip.valid = true ∧ ip.info.nlink = 0 then do
    let s ← s.acquiresleep i j
    pure (true, s)
  else pure (false, s.setInode j { ip with ref := ip.ref - 1 })

/-- The page table of the process. -/
def table : Except Stop PageTable :=
  match (s.k.proc i).pagetable with
  | some pt => pure pt
  | none => throw (.panic .kerneltrap)

/-- A panic of the rest of the kernel. -/
def lift {α : Type} : Except Panic α → Except Stop α
  | .ok a => pure a
  | .error e => throw (.panic e)

/-- The critical section of `fileclose`: the file as it was, for a last reference. -/
def fileDrop (f : Nat) : Except Stop (Option File × Sys) :=
  let ff := s.k.ftable f
  if ff.ref < 1 then throw (.panic .fileclose)
  else if 0 < ff.ref - 1 then pure (none, { s with k := s.k.setFile f { ff with ref := ff.ref - 1 } })
  else pure (some ff, { s with k := s.k.setFile f { ff with ref := 0, type := .none } })

/-- `uvmunmap` of one page in `munmap`; `false` when `kfree` found a count other than 1 and called `exit`. -/
def unmapPage (Λ : Layout) (page : Nat) : Except Stop (Bool × Sys) := do
  let pt ← s.table i
  match uvmunmap Λ pt s.k.mem page 1 true with
  | .ok (pt, m) => pure (true, { s with k := { s.k.setProc i { s.k.proc i with pagetable := some pt } with mem := m } })
  | .error .kfreeRef => pure (false, s)
  | .error e => throw (.panic e)

end Sys

/-- An action of process `i`. -/
def perform (Λ : Layout) (s : Sys) (i : Nat) : (a : Act) → Except Stop (a.Res × Sys)
  | .bread b => s.bread i b
  | .bset b d => do let s ← s.bset i b d; pure ((), s)
  | .bwrite b => do let s ← s.bwrite i b; pure ((), s)
  | .brelse b => do let s ← s.brelse i b; pure ((), s)
  | .beginOp => do let s ← s.beginOp i; pure ((), s)
  | .logWrite b => do let s ← s.logWrite b; pure ((), s)
  | .endOp => s.endOp i
  | .header => pure (s.log.lh, s)
  | .commitDone => pure ((), { s with log := Xv6Mmap.commitDone s.log })
  | .commitCleared =>
    if s.othersFree i then pure ((), { s with log := Xv6Mmap.commitCleared s.log }) else throw .waits
  | .iget dev inum => s.iget dev inum
  | .idup j => pure ((), s.setInode j { s.inode j with ref := (s.inode j).ref + 1 })
  | .inode j => pure (s.inode j, s)
  | .setInfo j info => pure ((), s.setInode j { s.inode j with info := info })
  | .setAddrs j addrs => pure ((), s.setInode j { s.inode j with addrs := addrs })
  | .setAddr j bn a => pure ((), s.setInode j { s.inode j with addrs := update (s.inode j).addrs bn a })
  | .setValid j valid => pure ((), s.setInode j { s.inode j with valid := valid })
  | .acquiresleep j => do let s ← s.acquiresleep i j; pure ((), s)
  | .holdingsleep j => pure (decide (s.ilock j = some i), s)
  | .releasesleep j => do let s ← s.releasesleep i j; pure ((), s)
  | .iputBegin j => s.iputBegin i j
  | .iputEnd j => pure ((), s.setInode j { s.inode j with ref := (s.inode j).ref - 1 })
  | .addr j bn => pure ((s.inode j).addrs bn, s)
  | .entry b bn => pure (leField ((s.cache b).getD (s.disk b)) (4 * bn) 4, s)
  | .mayWrite j off n =>
    pure (!decide ((s.inode j).info.size < off ∨ (off + n) % 2 ^ 32 < off ∨ maxFileBytes < off + n), s)
  | .copyin _ src buf n => do
    let pt ← s.table i
    pure (Xv6Mmap.copyin pt s.k.mem.ram buf src n, s)
  | .copyout dst src n => do
    let pt ← s.table i
    let (ok, ram) := Xv6Mmap.copyout pt s.k.mem.ram dst src n
    pure (ok, { s with k := { s.k with mem := { s.k.mem with ram := ram } } })
  | .file f => pure (s.k.ftable f, s)
  | .setOff f off => pure ((), { s with k := s.k.setFile f { s.k.ftable f with off := off } })
  | .filealloc =>
    match Xv6Mmap.filealloc s.k with
    | some (f, k) => pure (some f, { s with k := k })
    | none => pure (none, s)
  | .fdalloc f =>
    match Xv6Mmap.fdalloc s.k i f with
    | some (fd, k) => pure (some fd, { s with k := k })
    | none => pure (none, s)
  | .setFile f file => pure ((), { s with k := s.k.setFile f file })
  | .fileDrop f => s.fileDrop f
  | .ofile fd => pure ((s.k.proc i).ofile fd, s)
  | .clearFd fd => pure ((), { s with k := s.k.setFd i fd none })
  | .isInit => pure (decide (i = initproc), s)
  | .killed => pure ((s.k.proc i).killed, s)
  | .cwd => pure ((s.k.proc i).cwd, s)
  | .setCwd ip => pure ((), { s with k := s.k.setProc i { s.k.proc i with cwd := ip } })
  | .acquireP =>
    if s.plock i then throw (.panic .acquire) else pure ((), { s with plock := update s.plock i true })
  | .releaseP => pure ((), { s with plock := update s.plock i false })
  | .wakeup => if s.othersFree i then pure ((), s) else throw .waits
  | .vmaFind addr length => do
    let r ← Sys.lift (munmapFind s.k.vmas addr length (s.k.proc i).nvma none (s.k.proc i).vmas)
    pure (r, s)
  | .vmaHead =>
    if (s.k.proc i).nvma = 0 then pure (none, s)
    else
      match (s.k.proc i).vmas with
      | none => throw (.panic .kerneltrap)
      | some a => pure (some ((s.k.vmas a).addri, ((s.k.vmas a).addre + 2 ^ 64 - (s.k.vmas a).addri) % 2 ^ 64), s)
  | .pteValid page => do
    let pt ← s.table i
    if maxVa ≤ page then throw (.panic .walk)
    else if !pt.hasTable page then throw (.panic .kerneltrap)
    else pure (hasFlag (pt.pte page) pteV, s)
  | .dirtyShared a page => do
    let pt ← s.table i
    pure (hasFlag (pt.pte page) pteD && decide ((s.k.vmas a).flag = mapShared), s)
  | .vmaFile a =>
    match (s.k.vmas a).ofile with
    | none => throw (.panic .kerneltrap)
    | some f => pure ((s.k.vmas a, (s.k.ftable f).ip), s)
  | .unmapPage page => s.unmapPage i Λ page
  | .resize a prev addr length => do
    let k ← Sys.lift (munmapResize s.k i a prev addr length)
    pure ((), { s with k := k })
  | .faultFind va =>
    if (s.k.proc i).nvma = 0 then pure (none, s)
    else do
      let r ← Sys.lift (Xv6Mmap.faultFind s.k.vmas va (s.k.proc i).nvma (s.k.proc i).vmas)
      pure (r, s)
  | .vmasFull => pure (decide ((s.k.proc i).nvma = maxVmas), s)
  | .noPlace length =>
    pure (match findSpot s.k.vmas (pgRoundUp length) (maxVmas + 1) none (s.k.proc i).vmas with
      | .refused => true
      | .found _ _ => false, s)
  | .fate => pure (s.fate, s)
  | .device => if s.plock i then s.sleep i else if s.othersFree i then pure ((), s) else throw .waits
  | .panic e => throw (.panic e)
  | .fsPanic e => throw (.fs e)
  | .hang => throw .waits

/-- Beside the programs: a buffer that nobody holds and the log has not pinned is recycled, and the rest of the kernel changes. -/
inductive Beside where
  | recycle (b : Nat)
  | kernel (k : Kernel)
  | fate (b : Bool)

/-- The state after it. -/
def beside (s : Sys) : Beside → Sys
  | .recycle b => if s.holder b = none ∧ b ∉ s.log.lh then { s with cache := update s.cache b none } else s
  | .kernel k => { s with k := k }
  | .fate b => { s with fate := b }

/-- File-system code. -/
abbrev Code : Type → Type := Prog Act Act.Res

/-- The code that makes one action. -/
abbrev act (a : Act) : Code a.Res := Prog.call a

end Xv6Mmap.Blk

import Xv6Mmap.Riscv
import Xv6Mmap.Lib.Ring
import Xv6Mmap.Lib.Slots

/-!
# The buffer cache

The critical sections of `bio.c` under `bcache.lock`, and the sleep-lock of each buffer, taken after that of `bget` and given up
before that of `brelse`. The list is the two link fields, with `nbuf` for `bcache.head`; the layers above say what buffers hold.
`pinned` has those that `log_write` has pinned, until `install_trans` undoes it.
-/

namespace Xv6Mmap

open Function

/-- `NBUF`. -/
abbrev nbuf : Nat := 30

/-- `struct buf`, without the data. -/
structure Buf where
  valid : Bool
  dev : Nat
  blockno : Nat
  refcnt : Int

/-- The panics of `bget` and `brelse`. -/
inductive BioPanic where
  | noBuffers | brelse
  deriving DecidableEq, Repr

/-- Where a process is: elsewhere, waiting in `bget` for the lock of a buffer, or in `brelse` after it gave it up. -/
inductive BioState where
  | runs
  | waits (b : Nat)
  | leaves (b : Nat)

/-- `bcache`, the holder of each buffer's sleep-lock, and the processes. -/
structure Bcache where
  buf : Nat → Buf
  next : Nat → Nat
  prev : Nat → Nat
  lock : Nat → Option Nat
  proc : Nat → BioState
  pinned : Nat → Bool

namespace Bcache

/-- A buffer changed. -/
def setBuf (s : Bcache) (b : Nat) (x : Buf) : Bcache := { s with buf := update s.buf b x }

/-- A process changed. -/
def setProc (s : Bcache) (p : Nat) (x : BioState) : Bcache := { s with proc := update s.proc p x }

/-- A buffer put at the front of the list, as `binit` and `brelse` do. -/
def linkFront (s : Bcache) (b : Nat) : Bcache :=
  let s := { s with next := update s.next b (s.next nbuf) }
  let s := { s with prev := update s.prev b nbuf }
  let s := { s with prev := update s.prev (s.next nbuf) b }
  { s with next := update s.next nbuf b }

/-- A buffer moved to the front of the list. -/
def moveFront (s : Bcache) (b : Nat) : Bcache :=
  let s := { s with prev := update s.prev (s.next b) (s.prev b) }
  let s := { s with next := update s.next (s.prev b) (s.next b) }
  s.linkFront b

/-- The loop of `binit` over the first `n` buffers. -/
def binitLoop (s : Bcache) : Nat → Bcache
  | 0 => s
  | n + 1 => (s.binitLoop n).linkFront n

/-- The cache after `binit`: zero buffers, put in one by one. -/
def binit : Bcache :=
  binitLoop ⟨fun _ => ⟨false, 0, 0, 0⟩, fun _ => nbuf, fun _ => nbuf, fun _ => none, fun _ => .runs, fun _ => false⟩ nbuf

/-- The critical section of `bget`: the buffer of the block, or the least recently used free one. -/
def bget (s : Bcache) (dev blockno : Nat) : Except BioPanic (Nat × Bcache) :=
  match findFrom s.next nbuf (fun b => (s.buf b).dev == dev && (s.buf b).blockno == blockno) (nbuf + 1) (s.next nbuf) with
  | some b => pure (b, s.setBuf b { s.buf b with refcnt := (s.buf b).refcnt + 1 })
  | none =>
    match findFrom s.prev nbuf (fun b => (s.buf b).refcnt == 0) (nbuf + 1) (s.prev nbuf) with
    | some b => pure (b, s.setBuf b ⟨false, dev, blockno, 1⟩)
    | none => throw .noBuffers

/-- The critical section of `brelse`. -/
def brelseDrop (s : Bcache) (b : Nat) : Bcache :=
  let s := s.setBuf b { s.buf b with refcnt := (s.buf b).refcnt - 1 }
  if (s.buf b).refcnt = 0 then s.moveFront b else s

/-- `bpin` and `bunpin`. -/
def bpin (s : Bcache) (b : Nat) : Bcache := s.setBuf b { s.buf b with refcnt := (s.buf b).refcnt + 1 }
def bunpin (s : Bcache) (b : Nat) : Bcache := s.setBuf b { s.buf b with refcnt := (s.buf b).refcnt - 1 }

end Bcache

/-- The critical section of `bget`, the end of its `acquiresleep`, the read of the block, the two halves of `brelse`, and the pins of
the log. -/
inductive BioEvent where
  | bget (dev blockno : Nat)
  | locked
  | read (b : Nat)
  | brelse (b : Nat)
  | drop
  | bpin (b : Nat)
  | bunpin (b : Nat)

/-- One step of process `p`; nothing when it is not where the event can happen. -/
def bioStep (s : Bcache) (p : Nat) (ev : BioEvent) : Except BioPanic Bcache :=
  match ev, s.proc p with
  | .bget dev blockno, .runs => do
    let (b, s) ← s.bget dev blockno
    pure (s.setProc p (.waits b))
  | .locked, .waits b =>
    if (s.lock b).isNone then pure { s.setProc p .runs with lock := update s.lock b (some p) } else pure s
  | .read b, .runs => if s.lock b = some p then pure (s.setBuf b { s.buf b with valid := true }) else pure s
  | .brelse b, .runs =>
    if s.lock b = some p then pure { s.setProc p (.leaves b) with lock := update s.lock b none } else throw .brelse
  | .drop, .leaves b => pure ((s.brelseDrop b).setProc p .runs)
  | .bpin b, .runs =>
    if s.lock b = some p ∧ s.pinned b = false then pure { s.bpin b with pinned := update s.pinned b true } else pure s
  | .bunpin b, .runs =>
    if s.lock b = some p ∧ s.pinned b = true then pure { s.bunpin b with pinned := update s.pinned b false } else pure s
  | _, _ => pure s

/-- The blocks asked for are not on device 0, that of a buffer never used. -/
def BioEvent.onDevice : BioEvent → Bool
  | .bget dev _ => dev != 0
  | _ => true

/-- The states reached after `binit` by steps of processes. -/
inductive BioReach : Bcache → Prop where
  | init : BioReach .binit
  | step {s s' : Bcache} {p : Nat} {ev : BioEvent} : BioReach s → p < nproc → ev.onDevice = true → bioStep s p ev = .ok s' →
      BioReach s'

/-- The buffer a process waits for, or is about to drop. -/
def BioState.uses : BioState → Option Nat
  | .runs => none
  | .waits b | .leaves b => some b

/-- The processes that wait for a buffer or are about to drop it. -/
def usersOf (proc : Nat → BioState) (b : Nat) : Nat := refsTo (Finset.range nproc) (fun p => (proc p).uses) b

/-- The references to a buffer: those processes, the one that holds it, and the log. -/
def Bcache.refs (s : Bcache) (b : Nat) : Nat := usersOf s.proc b + (s.lock b).isSome.toNat + (s.pinned b).toNat

end Xv6Mmap

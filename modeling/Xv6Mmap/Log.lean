import Xv6Mmap.Riscv
import Mathlib.Data.Finset.Card

/-!
# The log in memory

The counters of `log.c` and the critical sections of `begin_op`, `log_write` and `end_op` under `log.lock`. `commit` runs outside the
lock: `end_op` decides on it in its first critical section, `commit` ends with `log.lh.n = 0`, and the second critical section clears
`log.committing`; these are three steps, between which other processes run.

A process that must sleep in `begin_op` stays where it is and tries again.
-/

namespace Xv6Mmap

/-- `MAXOPBLOCKS` and `LOGSIZE`, and `nlog` of `mkfs`. -/
abbrev maxOpBlocks : Nat := 10
abbrev logSize : Nat := maxOpBlocks * 3
abbrev mkfsNlog : Nat := logSize

/-- The panics of `log_write` and `end_op`. -/
inductive LogPanic where
  | tooBig | outsideTrans | committing
  deriving DecidableEq, Repr

/-- `struct log`: `lh` is the part of `lh.block` in use, so that `lh.n` is its length. -/
structure Log where
  size : Nat
  outstanding : Int
  committing : Bool
  lh : List Nat

/-- The critical section of `begin_op`; none when it has to sleep. -/
def beginOp (l : Log) : Option Log :=
  if l.committing then none
  else if (logSize : Int) < l.lh.length + (l.outstanding + 1) * maxOpBlocks then none
  else some { l with outstanding := l.outstanding + 1 }

/-- Block `b` in the header: where it was found, or at the end. -/
def Log.record (l : Log) (b : Nat) : Log := if b ∈ l.lh then l else { l with lh := l.lh ++ [b] }

/-- `log_write` of block `b`. The two tests come before the search for the block among those logged already. -/
def logWrite (l : Log) (b : Nat) : Except LogPanic Log :=
  if logSize ≤ l.lh.length ∨ (l.size : Int) - 1 ≤ l.lh.length then throw .tooBig
  else if l.outstanding < 1 then throw .outsideTrans
  else pure (l.record b)

/-- The first critical section of `end_op`, with `do_commit`. -/
def endOp (l : Log) : Except LogPanic (Bool × Log) :=
  let l := { l with outstanding := l.outstanding - 1 }
  if l.committing then throw .committing
  else if l.outstanding = 0 then pure (true, { l with committing := true })
  else pure (false, l)

/-- `log.lh.n = 0`, which `commit` does once the transaction is installed. -/
def commitDone (l : Log) : Log := { l with lh := [] }

/-- The second critical section of `end_op`. -/
def commitCleared (l : Log) : Log := { l with committing := false }

/-! ## Processes -/

/-- Where a process is: outside of an operation, in one that has logged these blocks, in `commit`, or back from it. -/
inductive OpState where
  | idle
  | inOp (blocks : Finset Nat)
  | commits
  | cleared
  deriving DecidableEq

/-- The log and the processes that use it. `ended` records, for the statements, the blocks of each operation that has ended since
the last commit. -/
structure LogSys where
  log : Log
  proc : Nat → OpState
  ended : List (Finset Nat)

/-- What a process does next. -/
inductive LogEvent where
  | begin
  | write (b : Nat)
  | ends
  | commit
  | clear

/-- A process changed. -/
def LogSys.setProc (s : LogSys) (p : Nat) (o : OpState) : LogSys := { s with proc := Function.update s.proc p o }

/-- One step of process `p`. A process that is not where the event can happen does nothing. -/
def logStep (s : LogSys) (p : Nat) (ev : LogEvent) : Except LogPanic LogSys :=
  match ev, s.proc p with
  | .begin, .idle =>
    match beginOp s.log with
    | none => pure s
    | some l => pure { s.setProc p (.inOp ∅) with log := l }
  | .write b, .inOp blocks => do
    let l ← logWrite s.log b
    pure { s.setProc p (.inOp (insert b blocks)) with log := l }
  | .ends, .inOp blocks => do
    let (doCommit, l) ← endOp s.log
    pure { s.setProc p (if doCommit then .commits else .idle) with log := l, ended := blocks :: s.ended }
  | .commit, .commits => pure { s.setProc p .cleared with log := commitDone s.log, ended := [] }
  | .clear, .cleared => pure { s.setProc p .idle with log := commitCleared s.log }
  | _, _ => pure s

/-- The log after `initlog` on a disk with `size` log blocks. -/
def LogSys.init (size : Nat) : LogSys := ⟨⟨size, 0, false, []⟩, fun _ => .idle, []⟩

/-- The states reached from there by steps that all meet `P` in the state before the step. -/
inductive LogReach (P : LogSys → Nat → LogEvent → Prop) (size : Nat) : LogSys → Prop where
  | init : LogReach P size (.init size)
  | step {s s' : LogSys} {p : Nat} {ev : LogEvent} : LogReach P size s → P s p ev → logStep s p ev = .ok s' →
      LogReach P size s'

/-- The operation stays within `MAXOPBLOCKS` distinct blocks. -/
def withinOp (s : LogSys) (p : Nat) (ev : LogEvent) : Bool :=
  match ev, s.proc p with
  | .write b, .inOp blocks => decide ((insert b blocks).card ≤ maxOpBlocks)
  | _, _ => true

/-- The blocks logged since the last commit, by operations that have ended and by those that run. -/
def LogSys.Logged (s : LogSys) : Set Nat :=
  {b | (∃ o ∈ s.ended, b ∈ o) ∨ ∃ p blocks, s.proc p = .inOp blocks ∧ b ∈ blocks}

end Xv6Mmap

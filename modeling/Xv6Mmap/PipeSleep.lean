import Xv6Mmap.Pipe

/-!
# Sleeping on a pipe

The calls on one pipe, now cut at every point where another process can see a difference: `acquire` and `release` of the pipe's lock,
each round of a loop, each process that `wakeup` visits, and the steps of `sleep`. A process holds its `p->lock` across such a point
only in `sleep`, from before it gives up the pipe's lock until it is `SLEEPING`; a `wakeup` or a `kill` that comes to it meanwhile has
to wait. Everything else under `p->lock` is one step.
-/

namespace Xv6Mmap

open Function

/-- What processes sleep on: `&pi->nread` and `&pi->nwrite`. -/
inductive Chan where
  | nread | nwrite
  deriving DecidableEq, Repr

/-- A `pipewrite` that has written `i` bytes, or a `piperead`. -/
inductive PipeTask where
  | write (addr : Nat) (n : Int) (i : Nat)
  | read (addr : Nat) (n : Int)
  deriving DecidableEq, Repr

/-- What follows a `wakeup`: the call releases the lock and returns, it sleeps, or it is the end of `pipeclose`. -/
inductive AfterWakeup where
  | returns (r : Int)
  | sleep (c : Chan) (t : PipeTask)
  | closed
  deriving DecidableEq, Repr

/-- Where a process is. -/
inductive PipePc where
  /-- In no call on the pipe. -/
  | idle
  /-- At `acquire(&pi->lock)`, at the start of the call or at the end of `sleep`. -/
  | acquires (t : PipeTask)
  /-- At `acquire(&pi->lock)` of `pipeclose`. -/
  | closes (writable : Bool)
  /-- At the test of the `while` loop. A writer has put `put` bytes into the ring since it took the lock; no step looks at `put`. -/
  | tests (t : PipeTask) (put : Nat)
  /-- In the `for` loop of `piperead`, with `i` bytes copied. -/
  | copies (addr : Nat) (n : Int) (i : Nat)
  /-- In `wakeup(c)`, about to visit process `q`. -/
  | wakes (c : Chan) (q : Nat) (next : AfterWakeup)
  /-- At `acquire(&p->lock)` of `sleep`. -/
  | sleeps (c : Chan) (t : PipeTask)
  /-- At `release(lk)` of `sleep`. -/
  | locked (c : Chan) (t : PipeTask)
  /-- In `sleep`, the pipe's lock given up, not yet `SLEEPING`. -/
  | unlocked (c : Chan) (t : PipeTask)
  /-- `SLEEPING`. -/
  | asleep (c : Chan) (t : PipeTask)
  deriving DecidableEq, Repr

/-- The pipe with its lock, and the processes. -/
structure PipeLocks where
  pi : PipeBuf
  lock : Option Nat
  pc : Nat → PipePc
  killed : Nat → Bool
  ret : Nat → Int
  freed : Bool

/-- A call that a process can make. -/
inductive PipeStart where
  | task (t : PipeTask)
  | close (writable : Bool)

/-- A step of a process: it starts a call, goes on in its call, with what `copyin` or `copyout` of the next byte comes to, or
kills a process. -/
inductive PipeMove where
  | start (c : PipeStart)
  | go (copyin : Option UInt8) (copyout : Bool)
  | kill (v : Nat)

namespace PipePc

/-- The process holds its own lock across the step. -/
def ownLock : PipePc → Bool
  | .locked _ _ | .unlocked _ _ => true
  | _ => false

/-- `wakeup` and `kill` make a sleeping process runnable: it goes on at the end of `sleep`. -/
def woken : PipePc → PipePc
  | .asleep _ t => .acquires t
  | pc => pc

end PipePc

namespace PipeLocks

/-- The process moves. -/
def at_ (s : PipeLocks) (j : Nat) (pc : PipePc) : PipeLocks := { s with pc := update s.pc j pc }

/-- The process releases the pipe's lock and returns. -/
def return_ (s : PipeLocks) (j : Nat) (r : Int) : PipeLocks :=
  { s.at_ j .idle with lock := none, ret := update s.ret j r }

/-- A round of the loop of `pipewrite`. -/
def testsWrite (s : PipeLocks) (j addr : Nat) (n : Int) (i put : Nat) (copyin : Option UInt8) : PipeLocks :=
  if (i : Int) < n then
    if !s.pi.readopen || s.killed j then s.return_ j (-1)
    else if s.pi.ring.full pipeSize counters then s.at_ j (.wakes .nread 0 (.sleep .nwrite (.write addr n i)))
    else
      match copyin with
      | none => s.at_ j (.wakes .nread 0 (.returns i))
      | some ch =>
        { s.at_ j (.tests (.write addr n (i + 1)) (put + 1)) with pi := { s.pi with ring := s.pi.ring.push pipeSize counters ch } }
  else s.at_ j (.wakes .nread 0 (.returns i))

/-- A round of the `while` loop of `piperead`. -/
def testsRead (s : PipeLocks) (j addr : Nat) (n : Int) : PipeLocks :=
  if s.pi.ring.empty && s.pi.writeopen then
    if s.killed j then s.return_ j (-1) else s.at_ j (.sleeps .nread (.read addr n))
  else s.at_ j (.copies addr n 0)

/-- A round of the `for` loop of `piperead`. -/
def copiesByte (s : PipeLocks) (j addr : Nat) (n : Int) (i : Nat) (copyout : Bool) : PipeLocks :=
  if (i : Int) < n ∧ s.pi.ring.empty = false then
    let s := { s with pi := { s.pi with ring := s.pi.ring.pop counters } }
    if copyout then s.at_ j (.copies addr n (i + 1)) else s.at_ j (.wakes .nwrite 0 (.returns i))
  else s.at_ j (.wakes .nwrite 0 (.returns i))

/-- What follows `wakeup`. -/
def afterWakeup (s : PipeLocks) (j : Nat) : AfterWakeup → PipeLocks
  | .returns r => s.return_ j r
  | .sleep c t => s.at_ j (.sleeps c t)
  | .closed => { s.return_ j 0 with freed := !s.pi.readopen && !s.pi.writeopen }

/-- The body of `wakeup` under the lock of process `q`. -/
def wakeProc (s : PipeLocks) (c : Chan) (q : Nat) : PipeLocks :=
  match s.pc q with
  | .asleep c' _ => if c' = c then s.at_ q (s.pc q).woken else s
  | _ => s

/-- `wakeup` visits process `q`, or is done. It waits for the lock of a process that is about to sleep. -/
def visits (s : PipeLocks) (j : Nat) (c : Chan) (q : Nat) (next : AfterWakeup) : Option PipeLocks :=
  if q < nproc then
    if q = j then some (s.at_ j (.wakes c (q + 1) next))
    else if (s.pc q).ownLock then none
    else some ((s.wakeProc c q).at_ j (.wakes c (q + 1) next))
  else some (s.afterWakeup j next)

/-- `acquire(&pi->lock)`: none while another process holds it. -/
def takeLock (s : PipeLocks) (j : Nat) : Option PipeLocks :=
  match s.lock with
  | none => some { s with lock := some j }
  | some _ => none

/-- A process goes on in its call; none when it has to wait. -/
def go (s : PipeLocks) (j : Nat) (copyin : Option UInt8) (copyout : Bool) : Option PipeLocks :=
  match s.pc j with
  | .idle => none
  | .acquires t => (s.takeLock j).map fun s => s.at_ j (.tests t 0)
  | .closes writable => (s.takeLock j).map fun s =>
      { s.at_ j (.wakes (if writable then .nread else .nwrite) 0 .closed) with
        pi := { s.pi with toPipe := s.pi.toPipe.close writable } }
  | .tests (.write addr n i) put => some (s.testsWrite j addr n i put copyin)
  | .tests (.read addr n) _ => some (s.testsRead j addr n)
  | .copies addr n i => some (s.copiesByte j addr n i copyout)
  | .wakes c q next => s.visits j c q next
  | .sleeps c t => some (s.at_ j (.locked c t))
  | .locked c t => some { s.at_ j (.unlocked c t) with lock := none }
  | .unlocked c t => some (s.at_ j (.asleep c t))
  | .asleep _ _ => none

/-- `kill` of process `v`, which waits for its lock. -/
def kill (s : PipeLocks) (v : Nat) : Option PipeLocks :=
  if (s.pc v).ownLock then none
  else some { s.at_ v (s.pc v).woken with killed := update s.killed v true }

/-- A process in no call starts one, while the pipe is there. -/
def start (s : PipeLocks) (j : Nat) (c : PipeStart) : Option PipeLocks :=
  if s.pc j = .idle ∧ s.freed = false then
    match c with
    | .task (.write addr n _) => some (s.at_ j (.acquires (.write addr n 0)))
    | .task (.read addr n) => some (s.at_ j (.acquires (.read addr n)))
    | .close writable => some (s.at_ j (.closes writable))
  else none

/-- A step of process `j`. -/
def move (s : PipeLocks) (j : Nat) : PipeMove → Option PipeLocks
  | .start c => s.start j c
  | .go copyin copyout => s.go j copyin copyout
  | .kill v => s.kill v

/-- A pipe as `pipealloc` leaves it, in a page with any content, before any call. -/
def fresh (data : Nat → UInt8) : PipeLocks :=
  ⟨⟨⟨true, true⟩, ⟨data, 0, 0⟩⟩, none, fun _ => .idle, fun _ => false, fun _ => 0, false⟩

end PipeLocks

/-- The states that steps of processes of the table reach, each step meeting the condition `P`. -/
inductive PipeReach (P : PipeLocks → Nat → PipeMove → Prop) : PipeLocks → Prop where
  | fresh (data : Nat → UInt8) : PipeReach P (.fresh data)
  | step {s s' : PipeLocks} {j : Nat} {m : PipeMove} (h : PipeReach P s) (hj : j < nproc) (hp : P s j m)
      (hs : s.move j m = some s') : PipeReach P s'

/-- The steps of a list, each meeting the check. -/
def PipeLocks.run (check : PipeLocks → Nat → PipeMove → Bool) : List (Nat × PipeMove) → PipeLocks → Option PipeLocks
  | [], s => some s
  | (j, m) :: ms, s => if j < nproc ∧ check s j m = true then (s.move j m).bind (run check ms) else none

theorem PipeReach.of_run {P : PipeLocks → Nat → PipeMove → Prop} {check : PipeLocks → Nat → PipeMove → Bool}
    (hP : ∀ s j m, check s j m = true → P s j m) {ms : List (Nat × PipeMove)} {s s' : PipeLocks} (h : PipeReach P s)
    (hs : s.run check ms = some s') : PipeReach P s' := by
  induction ms generalizing s with
  | nil =>
    cases hs
    exact h
  | cons jm ms ih =>
    simp only [PipeLocks.run] at hs
    split at hs
    · rename_i hc
      obtain ⟨s1, h1, h2⟩ := Option.bind_eq_some_iff.mp hs
      exact ih (h.step hc.1 (hP _ _ _ hc.2) h1) h2
    · cases hs

/-- A run from a fresh pipe whose page is zero, with a test of the state it ends in. -/
theorem PipeReach.of_fresh {P : PipeLocks → Nat → PipeMove → Prop} {check : PipeLocks → Nat → PipeMove → Bool}
    (hP : ∀ s j m, check s j m = true → P s j m) (ms : List (Nat × PipeMove)) (test : PipeLocks → Bool)
    (h : ((PipeLocks.fresh fun _ => 0).run check ms).any test = true) : ∃ s, PipeReach P s ∧ test s = true := by
  cases hs : (PipeLocks.fresh fun _ => 0).run check ms with
  | none =>
    rw [hs] at h
    cases h
  | some s =>
    rw [hs] at h
    exact ⟨s, (PipeReach.fresh _).of_run hP hs, h⟩

end Xv6Mmap

import Xv6Mmap.File

/-!
# Parents and children

`fork`, `exit`, `wait` and `kill` on the process table, cut at every point where another process can see a difference: `acquire` and
`release` of `wait_lock`, each entry that a loop visits, and the steps of `sleep`. What happens under the `p->lock` of an entry is one
step, except where a process keeps its own lock over such a point: in `sleep`, from before it gives up `wait_lock`, and in `exit`,
until the scheduler has switched away from it. Whoever comes to the entry meanwhile waits.

`id`, `creator` and the history are not in the source; they tell apart the processes that use a slot one after the other.
-/

namespace Xv6Mmap

open Function

/-- The states of `enum procstate`. -/
inductive LifeState where
  | unused | used | sleeping | runnable | running | zombie
  deriving DecidableEq, Repr

/-- An entry of the process table. Parents and channels are entries, or none. -/
structure ProcSlot where
  state : LifeState
  pid : UInt32
  parent : Option Nat
  chan : Option Nat
  killed : Bool
  xstate : Int
  /-- The process in the slot. -/
  id : Nat
  /-- The process that forked it. -/
  creator : Nat
  deriving DecidableEq, Repr

/-- What follows a `wakeup` in `exit`: the rest of `reparent`, or the end. -/
inductive AfterWakes where
  | reparents (status : Int) (pp : Nat)
  | dies (status : Int)
  deriving DecidableEq, Repr

/-- Where a process is. -/
inductive LifePc where
  /-- The slot has no process, or one that has not been made runnable. -/
  | idle
  /-- In none of the calls. -/
  | user
  /-- In `allocproc`, about to visit entry `np`. -/
  | allocs (np : Nat)
  /-- In `fork`, at `acquire(&wait_lock)`. -/
  | adopts (np : Nat) (pid : UInt32)
  /-- In `fork`, at the second `acquire(&np->lock)`. -/
  | readies (np : Nat) (pid : UInt32)
  /-- In `exit`, at `acquire(&wait_lock)`. -/
  | exits (status : Int)
  /-- In `reparent`, about to visit entry `pp`. -/
  | reparents (status : Int) (pp : Nat)
  /-- In `wakeup(c)` of `exit`, about to visit entry `q`. -/
  | wakes (c : Option Nat) (q : Nat) (next : AfterWakes)
  /-- In `exit`, at `acquire(&p->lock)`. -/
  | dies (status : Int)
  /-- `ZOMBIE`, not yet switched away. -/
  | leaves
  /-- `ZOMBIE`. -/
  | gone
  /-- At `acquire(&wait_lock)`, at the start of `wait` or the end of `sleep`. -/
  | waits (addr : Nat)
  /-- In the scan of `wait`, about to visit entry `np`. -/
  | scans (addr : Nat) (np : Nat) (havekids : Bool)
  /-- At `acquire(&p->lock)` of `sleep`. -/
  | sleeps (addr : Nat)
  /-- At `release(lk)` of `sleep`. -/
  | locked (addr : Nat)
  /-- In `sleep`, `wait_lock` given up, not yet `SLEEPING`. -/
  | unlocked (addr : Nat)
  /-- In `sched` of `sleep`, or woken in it. -/
  | asleep (addr : Nat)
  /-- In `kill`, about to visit entry `q`. -/
  | kills (pid : UInt32) (q : Nat)
  deriving DecidableEq, Repr

/-- `parent` returned from `fork` with a pid, a process became a zombie, or `wait` of `by_` returned a pid, with the status if it was
given an address. -/
inductive LifeEvent where
  | forked (parent child : Nat) (pid : UInt32)
  | exited (child : Nat) (status : Int)
  | reaped (by_ child : Nat) (pid : UInt32) (status : Option Int)
  deriving DecidableEq, Repr

/-- The process table, the lock, and what happened, newest first. -/
structure Procs where
  slots : Nat → ProcSlot
  pc : Nat → LifePc
  waitLock : Option Nat
  nextpid : UInt32
  ret : Nat → Int
  nextId : Nat
  history : List LifeEvent

/-- A call that a process can make. -/
inductive LifeCall where
  | fork
  | exit (status : Int)
  | wait (addr : Nat)
  | kill (pid : UInt32)

/-- How `fork` goes once it has a slot: no memory, no VMAs left, or well. -/
inductive ForkEnd where
  | noMemory | vmasFull | ok
  deriving DecidableEq, Repr

/-- A step of a process, or of the scheduler on it. -/
inductive LifeMove where
  | call (c : LifeCall)
  | go (f : ForkEnd) (copyout : Bool)
  | dispatch
  | yield
  | switched

namespace LifePc

/-- The process holds its own lock across the step. -/
def ownLock : LifePc → Bool
  | .locked _ | .unlocked _ | .leaves => true
  | _ => false

/-- The process holds `wait_lock`. -/
def holds : LifePc → Bool
  | .reparents _ _ | .wakes _ _ _ | .dies _ | .scans _ _ _ | .sleeps _ | .locked _ => true
  | _ => false

end LifePc

namespace ProcSlot

/-- `freeproc`. -/
def freeproc (p : ProcSlot) : ProcSlot :=
  { p with pid := 0, parent := none, chan := none, killed := false, xstate := 0, state := .unused }

/-- The body of `wakeup` under the lock of the entry. -/
def wakeup (p : ProcSlot) (c : Option Nat) : ProcSlot :=
  if p.state = .sleeping ∧ p.chan = c then { p with state := .runnable } else p

/-- The body of `kill` for the process it looks for. -/
def kill (p : ProcSlot) : ProcSlot :=
  { p with killed := true, state := if p.state = .sleeping then .runnable else p.state }

end ProcSlot

namespace Procs

/-- The process moves. -/
def at_ (s : Procs) (j : Nat) (pc : LifePc) : Procs := { s with pc := update s.pc j pc }

/-- The entry is changed. -/
def set (s : Procs) (q : Nat) (p : ProcSlot) : Procs := { s with slots := update s.slots q p }

/-- The call returns. -/
def returns (s : Procs) (j : Nat) (r : Int) : Procs := { s.at_ j .user with ret := update s.ret j r }

/-- `allocproc` finds entry `np` free: the rest of `fork` up to `release(&np->lock)`. -/
def found (s : Procs) (j np : Nat) (f : ForkEnd) : Procs :=
  let pid := s.nextpid
  let p := { s.slots np with pid := pid, state := .used, id := s.nextId, creator := (s.slots j).id }
  let s := { s with nextpid := s.nextpid + 1, nextId := s.nextId + 1 }
  match f with
  | .noMemory => (s.set np p.freeproc).returns j (-1)
  | .vmasFull => (s.set np p).returns j (-1)
  | .ok => (s.set np p).at_ j (.adopts np pid)

/-- `allocproc` visits entry `np`. -/
def allocs (s : Procs) (j np : Nat) (f : ForkEnd) : Option Procs :=
  if np < nproc then
    if (s.pc np).ownLock then none
    else if (s.slots np).state = .unused then some (s.found j np f)
    else some (s.at_ j (.allocs (np + 1)))
  else some (s.returns j (-1))

/-- `np->parent = p`, under `wait_lock`. -/
def adopts (s : Procs) (j np : Nat) (pid : UInt32) : Option Procs :=
  if s.waitLock = none then some ((s.set np { s.slots np with parent := some j }).at_ j (.readies np pid)) else none

/-- `np->state = RUNNABLE` under the child's lock, and the return of `fork`. -/
def readies (s : Procs) (j np : Nat) (pid : UInt32) : Option Procs :=
  if (s.pc np).ownLock then none
  else
    let s := { (s.set np { s.slots np with state := .runnable }).at_ np .user with
      history := .forked (s.slots j).id (s.slots np).id pid :: s.history }
    some (s.returns j pid.toBitVec.toInt)

/-- `reparent` visits entry `pp`, or is done. -/
def reparents (s : Procs) (j : Nat) (status : Int) (pp : Nat) : Procs :=
  if pp < nproc then
    if (s.slots pp).parent = some j then
      (s.set pp { s.slots pp with parent := some initproc }).at_ j (.wakes (some initproc) 0 (.reparents status (pp + 1)))
    else s.at_ j (.reparents status (pp + 1))
  else s.at_ j (.wakes (s.slots j).parent 0 (.dies status))

/-- `wakeup` visits entry `q`, or is done. -/
def wakes (s : Procs) (j : Nat) (c : Option Nat) (q : Nat) (next : AfterWakes) : Option Procs :=
  if q < nproc then
    if q = j then some (s.at_ j (.wakes c (q + 1) next))
    else if (s.pc q).ownLock then none
    else some ((s.set q ((s.slots q).wakeup c)).at_ j (.wakes c (q + 1) next))
  else
    match next with
    | .reparents status pp => some (s.at_ j (.reparents status pp))
    | .dies status => some (s.at_ j (.dies status))

/-- The process becomes a zombie and gives up `wait_lock`. -/
def dies (s : Procs) (j : Nat) (status : Int) : Procs :=
  { (s.set j { s.slots j with xstate := status, state := .zombie }).at_ j .leaves with
    waitLock := none
    history := .exited (s.slots j).id status :: s.history }

/-- `wait` has found a zombie. -/
def reaps (s : Procs) (j addr np : Nat) (copyout : Bool) : Procs :=
  let p := s.slots np
  if addr ≠ 0 ∧ copyout = false then { s.returns j (-1) with waitLock := none }
  else
    let s := { (s.set np p.freeproc).at_ np .idle with
      waitLock := none
      history := .reaped (s.slots j).id p.id p.pid (if addr ≠ 0 then some p.xstate else none) :: s.history }
    s.returns j p.pid.toBitVec.toInt

/-- The scan of `wait` visits entry `np`, or is done. -/
def scans (s : Procs) (j addr np : Nat) (havekids copyout : Bool) : Option Procs :=
  if np < nproc then
    if (s.slots np).parent = some j then
      if (s.pc np).ownLock then none
      else if (s.slots np).state = .zombie then some (s.reaps j addr np copyout)
      else some (s.at_ j (.scans addr (np + 1) true))
    else some (s.at_ j (.scans addr (np + 1) havekids))
  else if !havekids || (s.slots j).killed then some { s.returns j (-1) with waitLock := none }
  else some (s.at_ j (.sleeps addr))

/-- `kill` visits entry `q`. -/
def kills (s : Procs) (j : Nat) (pid : UInt32) (q : Nat) : Option Procs :=
  if q < nproc then
    if (s.pc q).ownLock then none
    else if (s.slots q).pid = pid then some ((s.set q (s.slots q).kill).returns j 0)
    else some (s.at_ j (.kills pid (q + 1)))
  else some (s.returns j (-1))

/-- A process goes on in its call; none when it has to wait. -/
def go (s : Procs) (j : Nat) (f : ForkEnd) (copyout : Bool) : Option Procs :=
  match s.pc j with
  | .idle | .user | .leaves | .gone => none
  | .allocs np => s.allocs j np f
  | .adopts np pid => s.adopts j np pid
  | .readies np pid => s.readies j np pid
  | .exits status => if s.waitLock = none then some { s.at_ j (.reparents status 0) with waitLock := some j } else none
  | .reparents status pp => some (s.reparents j status pp)
  | .wakes c q next => s.wakes j c q next
  | .dies status => some (s.dies j status)
  | .waits addr => if s.waitLock = none then some { s.at_ j (.scans addr 0 false) with waitLock := some j } else none
  | .scans addr np havekids => s.scans j addr np havekids copyout
  | .sleeps addr => some (s.at_ j (.locked addr))
  | .locked addr => some { s.at_ j (.unlocked addr) with waitLock := none }
  | .unlocked addr => some ((s.set j { s.slots j with chan := some j, state := .sleeping }).at_ j (.asleep addr))
  | .asleep addr => some ((s.set j { s.slots j with chan := none }).at_ j (.waits addr))
  | .kills pid q => s.kills j pid q

/-- A process in no call makes one. The first process does not exit. -/
def call (s : Procs) (j : Nat) : LifeCall → Option Procs
  | .fork => some (s.at_ j (.allocs 0))
  | .exit status => if j = initproc then none else some (s.at_ j (.exits status))
  | .wait addr => some (s.at_ j (.waits addr))
  | .kill pid => some (s.at_ j (.kills pid 0))

/-- A step of process `j`, or of the scheduler, which does not take a process with a lock off the processor. -/
def move (s : Procs) (j : Nat) : LifeMove → Option Procs
  | .call c => if (s.slots j).state = .running ∧ s.pc j = .user then s.call j c else none
  | .go f copyout => if (s.slots j).state = .running then s.go j f copyout else none
  | .dispatch => if (s.slots j).state = .runnable then some (s.set j { s.slots j with state := .running }) else none
  | .yield =>
    if (s.slots j).state = .running ∧ !(s.pc j).holds ∧ !(s.pc j).ownLock then
      some (s.set j { s.slots j with state := .runnable })
    else none
  | .switched => if s.pc j = .leaves then some (s.at_ j .gone) else none

/-- The table after `userinit`: the first process runnable, the rest zero. -/
def booted : Procs where
  slots q := ⟨if q = initproc then .runnable else .unused, if q = initproc then 1 else 0, none, none, false, 0, 0, 0⟩
  pc q := if q = initproc then .user else .idle
  waitLock := none
  nextpid := 2
  ret _ := 0
  nextId := 1
  history := []

end Procs

/-- The states that steps of the processes of the table reach. -/
inductive LifeReach : Procs → Prop where
  | booted : LifeReach .booted
  | step {s s' : Procs} {j : Nat} {m : LifeMove} (h : LifeReach s) (hj : j < nproc) (hs : s.move j m = some s') : LifeReach s'

/-- The steps of a list. -/
def Procs.run : List (Nat × LifeMove) → Procs → Option Procs
  | [], s => some s
  | (j, m) :: ms, s => if j < nproc then (s.move j m).bind (run ms) else none

theorem LifeReach.of_run {ms : List (Nat × LifeMove)} {s s' : Procs} (h : LifeReach s) (hs : s.run ms = some s') : LifeReach s' := by
  induction ms generalizing s with
  | nil =>
    cases hs
    exact h
  | cons jm ms ih =>
    simp only [Procs.run] at hs
    split at hs
    · rename_i hj
      obtain ⟨s1, h1, h2⟩ := Option.bind_eq_some_iff.mp hs
      exact ih (h.step hj h1) h2
    · cases hs

end Xv6Mmap

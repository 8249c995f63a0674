import Xv6Mmap.File
import Xv6Mmap.Lib.RingBuffer

/-!
# Pipes

`pipewrite` and `piperead` on one pipe. A call holds the pipe's lock from `acquire` on and gives it up where it sleeps and where it
returns: a stretch runs from one such point to the next, and between two stretches every other process may run its own. User memory is
what `copyin` and `copyout` of one byte find in it during the stretch.

For the statements the system records every byte that was put into the ring and every byte that was taken out.
-/

namespace Xv6Mmap

open Function

/-- `PIPESIZE`. -/
abbrev pipeSize : Nat := 512

/-- The counters are `uint`s. -/
abbrev counters : Nat := 2 ^ 32

/-- `struct pipe`, apart from its lock. -/
structure PipeBuf extends Pipe where
  ring : RingBuffer UInt8

/-- How a stretch ends: the call returns, or it sleeps having written `i` bytes. -/
inductive Stretch where
  | returned (r : Int)
  | sleeps (i : Nat)

/-- The loop of `pipewrite` from byte `i` on, with `left` bytes to go; the last component is what it put into the ring. -/
def pipewriteLoop (copyin : Nat → Option UInt8) (killed : Bool) (addr : Nat) :
    Nat → PipeBuf → Nat → Stretch × PipeBuf × List UInt8
  | 0, pi, i => (.returned i, pi, [])
  | left + 1, pi, i =>
    if !pi.readopen || killed then (.returned (-1), pi, [])
    else if pi.ring.full pipeSize counters then (.sleeps i, pi, [])
    else
      match copyin ((addr + i) % 2 ^ 64) with
      | none => (.returned i, pi, [])
      | some ch =>
        let (r, pi, put) := pipewriteLoop copyin killed addr left { pi with ring := pi.ring.push pipeSize counters ch } (i + 1)
        (r, pi, ch :: put)

/-- A stretch of `pipewrite`, from byte `i` on. -/
def pipewrite (copyin : Nat → Option UInt8) (killed : Bool) (pi : PipeBuf) (addr : Nat) (n : Int) (i : Nat) :
    Stretch × PipeBuf × List UInt8 :=
  pipewriteLoop copyin killed addr (n - i).toNat pi i

/-- The loop of `piperead` from byte `i` on, with `left` bytes to go; the last component is what it took out of the ring. -/
def pipereadLoop (copyout : Nat → UInt8 → Bool) (addr : Nat) : Nat → PipeBuf → Nat → Nat × PipeBuf × List UInt8
  | 0, pi, i => (i, pi, [])
  | left + 1, pi, i =>
    if pi.ring.empty then (i, pi, [])
    else
      let ch := pi.ring.front pipeSize
      let pi := { pi with ring := pi.ring.pop counters }
      if copyout ((addr + i) % 2 ^ 64) ch then
        let (r, pi, taken) := pipereadLoop copyout addr left pi (i + 1)
        (r, pi, ch :: taken)
      else (i, pi, [ch])

/-- A stretch of `piperead`: the wait for a byte, and the loop once there is one or no writer is left. -/
def piperead (copyout : Nat → UInt8 → Bool) (killed : Bool) (pi : PipeBuf) (addr : Nat) (n : Int) : Stretch × PipeBuf × List UInt8 :=
  if pi.ring.empty && pi.writeopen then
    if killed then (.returned (-1), pi, []) else (.sleeps 0, pi, [])
  else
    let (r, pi, taken) := pipereadLoop copyout addr n.toNat pi 0
    (.returned r, pi, taken)

/-! ## Any number of calls on one pipe -/

/-- Where a process is: in no call on the pipe, or asleep in one. -/
inductive PipeCall where
  | none
  | writing (addr : Nat) (n : Int) (i : Nat)
  | reading (addr : Nat) (n : Int)

/-- The pipe, the processes, and the bytes put in and taken out so far. -/
structure PipeSys where
  pi : PipeBuf
  killed : Nat → Bool
  call : Nat → PipeCall
  put : List UInt8
  taken : List UInt8

/-- What a process does: it makes a call, it runs on after a wake-up, it closes an end, or it kills a process. -/
inductive PipeEvent where
  | write (addr : Nat) (n : Int) (copyin : Nat → Option UInt8)
  | read (addr : Nat) (n : Int) (copyout : Nat → UInt8 → Bool)
  | resume (copyin : Nat → Option UInt8) (copyout : Nat → UInt8 → Bool)
  | close (writable : Bool)
  | kill (j : Nat)

/-- A stretch of a write by process `j`. -/
def PipeSys.writes (s : PipeSys) (j addr : Nat) (n : Int) (i : Nat) (copyin : Nat → Option UInt8) : PipeSys :=
  let (r, pi, put) := pipewrite copyin (s.killed j) s.pi addr n i
  let call := match r with
    | .returned _ => .none
    | .sleeps i => .writing addr n i
  { s with pi := pi, call := update s.call j call, put := s.put ++ put }

/-- A stretch of a read by process `j`. -/
def PipeSys.reads (s : PipeSys) (j addr : Nat) (n : Int) (copyout : Nat → UInt8 → Bool) : PipeSys :=
  let (r, pi, taken) := piperead copyout (s.killed j) s.pi addr n
  let call := match r with
    | .returned _ => .none
    | .sleeps _ => .reading addr n
  { s with pi := pi, call := update s.call j call, taken := s.taken ++ taken }

/-- One stretch of process `j`. A process that sleeps makes no new call; one that does not has nothing to resume. -/
def PipeSys.step (s : PipeSys) : Nat × PipeEvent → PipeSys
  | (j, .write addr n copyin) =>
    match s.call j with
    | .none => s.writes j addr n 0 copyin
    | _ => s
  | (j, .read addr n copyout) =>
    match s.call j with
    | .none => s.reads j addr n copyout
    | _ => s
  | (j, .resume copyin copyout) =>
    match s.call j with
    | .none => s
    | .writing addr n i => s.writes j addr n i copyin
    | .reading addr n => s.reads j addr n copyout
  | (_, .close writable) => { s with pi := { s.pi with toPipe := s.pi.toPipe.close writable } }
  | (_, .kill j) => { s with killed := update s.killed j true }

/-- A pipe as `pipealloc` leaves it, in a page with any content. -/
def PipeSys.start (data : Nat → UInt8) : PipeSys :=
  ⟨⟨⟨true, true⟩, ⟨data, 0, 0⟩⟩, fun _ => false, fun _ => .none, [], []⟩

/-- The system after a list of stretches. -/
def PipeSys.run (s : PipeSys) (es : List (Nat × PipeEvent)) : PipeSys := es.foldl PipeSys.step s

end Xv6Mmap

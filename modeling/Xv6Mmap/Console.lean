import Xv6Mmap.Lib.RingBuffer

/-!
# The console's input

`consoleintr` and `consoleread` of `kernel/console.c`, under `cons.lock`. `consoleread` gives it up where it sleeps and is cut into
stretches there, like the calls on a pipe; user memory is what `either_copyout` of a byte finds in it. What it reads from is a
parameter: the ring, or the line editor that the ring stands for.
-/

namespace Xv6Mmap

open Function

/-- `INPUT_BUF`. -/
abbrev inputBuf : Nat := 128

/-- `cons`, with `r` and `e` as the counters of the ring. -/
structure Cons where
  ring : RingBuffer UInt8
  w : Nat

namespace Cons

/-- `cons.e--`. -/
def erase (s : Cons) : Cons := { s with ring := s.ring.unpush (2 ^ 32) }

/-- The loop of kill-line, with `n` characters after `w`. -/
def killLoop : Nat → Cons → Cons
  | 0, s => s
  | n + 1, s => if s.ring.data (s.erase.ring.nwrite % inputBuf) = 10 then s else killLoop n s.erase

/-- `consoleintr`, apart from what it prints. -/
def intr (s : Cons) (c : UInt8) : Cons :=
  -- control-P, control-U, control-H and delete
  if c = 16 then s
  else if c = 21 then killLoop ((s.ring.nwrite + 2 ^ 32 - s.w) % 2 ^ 32) s
  else if c = 8 ∨ c = 127 then if s.ring.nwrite = s.w then s else s.erase
  else if c = 0 ∨ inputBuf ≤ (s.ring.nwrite + 2 ^ 32 - s.ring.nread) % 2 ^ 32 then s
  else
    let c := if c = 13 then 10 else c
    let ring := s.ring.push inputBuf (2 ^ 32) c
    if c = 10 ∨ c = 4 ∨ ring.full inputBuf (2 ^ 32) then ⟨ring, ring.nwrite⟩ else { s with ring := ring }

/-- `cons.buf[cons.r++ % INPUT_BUF]`, unless `cons.r == cons.w`. -/
def take (s : Cons) : Option (UInt8 × Cons) :=
  if s.ring.nread = s.w then none else some (s.ring.front inputBuf, { s with ring := s.ring.pop (2 ^ 32) })

end Cons

/-- Characters that may be read, and a line that may still be edited. -/
structure LineEditor where
  ready : List UInt8
  line : List UInt8

namespace LineEditor

/-- A key is pressed. -/
def intr (a : LineEditor) (c : UInt8) : LineEditor :=
  if c = 16 then a
  else if c = 21 then { a with line := [] }
  else if c = 8 ∨ c = 127 then { a with line := a.line.dropLast }
  else if c = 0 ∨ inputBuf ≤ a.ready.length + a.line.length then a
  else
    let c := if c = 13 then 10 else c
    let line := a.line ++ [c]
    if c = 10 ∨ c = 4 ∨ a.ready.length + line.length = inputBuf then ⟨a.ready ++ line, []⟩ else { a with line := line }

def take : LineEditor → Option (UInt8 × LineEditor)
  | ⟨[], _⟩ => none
  | ⟨c :: ready, line⟩ => some (c, ⟨ready, line⟩)

end LineEditor

/-! ## Reading -/

/-- How a stretch ends: the call returns, or sleeps with `n` bytes to go to `dst`. -/
inductive ReadEnd where
  | returned (r : Int)
  | sleeps (dst n : Nat)

/-- A stretch of `consoleread`, `n` of `target` bytes to go; the last component is what it copied out. -/
def consoleread {σ : Type} (take : σ → Option (UInt8 × σ)) (copyout : Nat → UInt8 → Bool) (killed : Bool) (target : Nat) :
    Nat → σ → Nat → ReadEnd × σ × List UInt8
  | 0, s, _ => (.returned target, s, [])
  | n + 1, s, dst =>
    match take s with
    | none => (if killed then .returned (-1) else .sleeps dst (n + 1), s, [])
    | some (c, s') =>
      -- control-D; `cons.r--` saves it for the next call
      if c = 4 then (.returned (target - (n + 1)), if n + 1 < target then s else s', [])
      else if !copyout dst c then (.returned (target - (n + 1)), s', [])
      else if c = 10 then (.returned (target - n), s', [c])
      else
        let (r, s, out) := consoleread take copyout killed target n s' ((dst + 1) % 2 ^ 64)
        (r, s, c :: out)

/-- A key, a call of process `j`, or a stretch of `j` after a wake-up. -/
inductive ConsEvent where
  | key (c : UInt8)
  | read (j dst : Nat) (n : Int) (copyout : Nat → UInt8 → Bool) (killed : Bool)
  | resume (j : Nat) (copyout : Nat → UInt8 → Bool) (killed : Bool)

/-- The input, the calls that sleep (`target`, `dst`, `n`), and how each stretch ended, with its bytes. -/
structure ConsSys (σ : Type) where
  input : σ
  call : Nat → Option (Nat × Nat × Nat)
  out : List (Nat × ReadEnd × List UInt8)

section Runs

variable {σ : Type} (intr : σ → UInt8 → σ) (take : σ → Option (UInt8 × σ))

def ConsSys.stretch (s : ConsSys σ) (j : Nat) (copyout : Nat → UInt8 → Bool) (killed : Bool) : Nat × Nat × Nat → ConsSys σ
  | (target, dst, n) =>
    let (r, input, bytes) := consoleread take copyout killed target n s.input dst
    let call := match r with
      | .returned _ => none
      | .sleeps dst n => some (target, dst, n)
    ⟨input, update s.call j call, s.out ++ [(j, r, bytes)]⟩

def ConsSys.step (s : ConsSys σ) : ConsEvent → ConsSys σ
  | .key c => { s with input := intr s.input c }
  | .read j dst n copyout killed =>
    if (s.call j).isSome then s else s.stretch take j copyout killed (n.toNat, dst, n.toNat)
  | .resume j copyout killed =>
    match s.call j with
    | none => s
    | some c => s.stretch take j copyout killed c

/-- The runs from a given input, with no call under way. -/
def consRun (input : σ) (es : List ConsEvent) : ConsSys σ := es.foldl (ConsSys.step intr take) ⟨input, fun _ => none, []⟩

end Runs

end Xv6Mmap

import Mathlib.Data.List.Infix

/-!
# grep

`user/grep.c`, with `strchr` and `memmove` of `user/ulib.c`. A pattern is the bytes before its NUL, a pointer into `buf` its offset.
What a string function sees at a pointer is the rest of the buffer.
-/

namespace Xv6Mmap

/-- `matchstar`, where `here` is `matchhere` of the rest of the pattern. -/
def matchstar (here : List UInt8 → Bool) (c : UInt8) : List UInt8 → Bool
  | [] => here []
  | t :: text => here (t :: text) || ((t == c || c == 46) && matchstar here c text)

/-- `matchhere`, with `*` as 42, `$` as 36 and `.` as 46. -/
def matchhere : List UInt8 → List UInt8 → Bool
  | [], _ => true
  | c :: 42 :: re, text => matchstar (matchhere re) c text
  | [36], text => text.isEmpty
  | c :: re, t :: text => (c == 46 || c == t) && matchhere re text
  | _ :: _, [] => false

/-- `match`, with `^` as 94. -/
def matchText : List UInt8 → List UInt8 → Bool
  | 94 :: re, text => matchhere re text
  | re, text => text.tails.any (matchhere re)

/-- The string at a pointer: the bytes before the NUL. -/
def cText (s : List UInt8) : List UInt8 := s.takeWhile (· != 0)

/-- `strchr`, as the distance of the byte from `s`. -/
def strchr (c : UInt8) : List UInt8 → Option Nat
  | [] => none
  | b :: s => if b = 0 then none else if b = c then some 0 else (strchr c s).map (· + 1)

/-- `while(n-- > 0) *dst++ = *src++`. -/
def copyUp : Nat → Nat → Nat → List UInt8 → List UInt8
  | 0, _, _, mem => mem
  | n + 1, dst, src, mem => copyUp n (dst + 1) (src + 1) (mem.set dst (mem.getD src 0))

/-- `while(n-- > 0) *--dst = *--src`, from `dst + n` and `src + n`. -/
def copyDown : Nat → Nat → Nat → List UInt8 → List UInt8
  | 0, _, _, mem => mem
  | n + 1, dst, src, mem => copyDown n dst src (mem.set (dst + n) (mem.getD (src + n) 0))

def memmove (dst src n : Nat) (mem : List UInt8) : List UInt8 :=
  if dst < src then copyUp n dst src mem else copyDown n dst src mem

/-- `sizeof(buf)`. -/
abbrev grepBuf : Nat := 1024

/-- The inner loop of `grep` from `p` on: the buffer, `p` and what was written. -/
def grepLines (pattern : List UInt8) :
    Nat → List UInt8 → Nat → List (List UInt8) → Option (List UInt8 × Nat × List (List UInt8))
  | 0, _, _, _ => none
  | fuel + 1, buf, p, out =>
    match strchr 10 (buf.drop p) with
    | none => some (buf, p, out)
    | some i =>
      let q := p + i
      let cut := buf.set q 0
      if matchText pattern (cText (cut.drop p)) then
        let buf := cut.set q 10
        grepLines pattern fuel buf (q + 1) (out ++ [(buf.drop p).take (q + 1 - p)])
      -- the newline of a line that does not match stays overwritten
      else grepLines pattern fuel cut (q + 1) out

/-- The outer loop, with `input` left and `avail 0 + 1` bytes of it there for the next `read`. -/
def grepLoop (pattern : List UInt8) : Nat → (Nat → Nat) → List UInt8 → Nat → List UInt8 → List (List UInt8) →
    Option (List (List UInt8) × List UInt8)
  | 0, _, _, _, _, _ => none
  | fuel + 1, avail, buf, m, input, out => do
    let n := min (avail 0 + 1) (grepBuf - m - 1)
    let chunk := input.take n
    if chunk = [] then return (out, input)
    let buf := buf.take m ++ chunk ++ buf.drop (m + chunk.length)
    let m := m + chunk.length
    let (buf, p, out) ← grepLines pattern grepBuf (buf.set m 0) 0 out
    let (buf, m) := if 0 < m then (memmove 0 p (m - p) buf, m - p) else (buf, m)
    grepLoop pattern fuel (fun i => avail (i + 1)) buf m (input.drop n) out

/-- `grep` on `input`: what it writes and what it leaves unread. The `i`-th `read` finds `avail i + 1` bytes, or all that are left;
`buf` is as an earlier call left it. -/
def grep (pattern : List UInt8) (buf : Vector UInt8 grepBuf) (avail : Nat → Nat) (input : List UInt8) :
    Option (List (List UInt8) × List UInt8) :=
  grepLoop pattern (input.length + 1) avail buf.toList 0 input []

end Xv6Mmap

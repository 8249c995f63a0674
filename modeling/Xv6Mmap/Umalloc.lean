import Xv6Mmap.Lib.Circular
import Xv6Mmap.Lib.Tiling
import Mathlib

/-!
# The user heap

`malloc` and `free` of `user/umalloc.c`. A header is two fields at an address, `ptr` and `size`; `sizeof(Header)` is 16, sizes count
headers and are `uint`. The null pointer is 0. `sbrk` is the world's: for each call it fails or returns memory some way above all it
has returned before. The loops take fuel, which bounds their rounds.

Beside the heap the model keeps what `sbrk` has returned and which blocks are live, which the code does not store.
-/

namespace Xv6Mmap

open Function

/-- A sum of `uint`. -/
def uintAdd (a b : Nat) : Nat := (a + b) % 2 ^ 32

/-- What the calls of `sbrk` do, in their order: fail, or skip some bytes and return what follows. -/
abbrev BrkWorld : Type := Nat → Option Nat

/-- The memory of the headers, `freep`, the end of what `sbrk` has returned, the pieces of it, and the number of calls of `sbrk`. -/
structure UserHeap where
  ptr : Nat → Nat
  size : Nat → Nat
  freep : Nat
  brk : Nat
  pieces : List Extent
  calls : Nat

namespace UserHeap

/-- The bytes `sbrk` has returned. -/
def total (h : UserHeap) : Nat := (h.pieces.map Prod.snd).sum

/-- The two tests that end the search of `free`. -/
def freeStops (h : UserHeap) (bp p : Nat) : Bool :=
  decide (bp > p ∧ bp < h.ptr p) || decide (p ≥ h.ptr p ∧ (bp > p ∨ bp < h.ptr p))

/-- `free` joins the block with the one above it, or points it to that one. -/
def joinUpper (h : UserHeap) (bp p : Nat) : UserHeap :=
  if bp + 16 * h.size bp = h.ptr p then
    { h with
      size := update h.size bp (uintAdd (h.size bp) (h.size (h.ptr p)))
      ptr := update h.ptr bp (h.ptr (h.ptr p)) }
  else { h with ptr := update h.ptr bp (h.ptr p) }

/-- `free` joins the block with the one below it, or points that one to it. -/
def joinLower (h : UserHeap) (bp p : Nat) : UserHeap :=
  if p + 16 * h.size p = bp then
    { h with
      size := update h.size p (uintAdd (h.size p) (h.size bp))
      ptr := update h.ptr p (h.ptr bp) }
  else { h with ptr := update h.ptr p bp }

/-- `free`. -/
def free (n : Nat) (h : UserHeap) (ap : Nat) : Option UserHeap := do
  let bp := ap - 16
  let p ← seek (h.freeStops bp) h.ptr n h.freep
  some { (h.joinUpper bp p).joinLower bp p with freep := p }

/-- `sbrk`, with -1 as `none`. -/
def sbrk (W : BrkWorld) (h : UserHeap) (n : Nat) : Option Nat × UserHeap :=
  match W h.calls with
  | none => (none, { h with calls := h.calls + 1 })
  | some skip =>
    (some (h.brk + skip),
      { h with calls := h.calls + 1, brk := h.brk + skip + n, pieces := (h.brk + skip, n) :: h.pieces })

/-- The units that `morecore` asks for. -/
def moreUnits (nu : Nat) : Nat := if nu < 4096 then 4096 else nu

/-- `morecore`. -/
def morecore (W : BrkWorld) (n : Nat) (h : UserHeap) (nu : Nat) : Option (Nat × UserHeap) :=
  let nu := moreUnits nu
  match h.sbrk W (nu * 16) with
  | (none, h) => some (0, h)
  | (some p, h) => do
    let h ← free n { h with size := update h.size p nu } (p + 16)
    some (h.freep, h)

/-- A block that is large enough is taken out of the list, or its tail is cut off. -/
def take (h : UserHeap) (nunits prevp p : Nat) : Nat × UserHeap :=
  if h.size p = nunits then (p + 16, { h with ptr := update h.ptr prevp (h.ptr p), freep := prevp })
  else
    let size := update h.size p (h.size p - nunits)
    let q := p + 16 * size p
    (q + 16, { h with size := update size q nunits, freep := prevp })

/-- The loop of `malloc`. -/
def mallocLoop (W : BrkWorld) (nunits : Nat) : Nat → UserHeap → Nat → Nat → Option (Nat × UserHeap)
  | 0, _, _, _ => none
  | n + 1, h, prevp, p =>
    if h.size p ≥ nunits then some (h.take nunits prevp p)
    else if p = h.freep then do
      let (p, h) ← h.morecore W n nunits
      if p = 0 then some (0, h) else mallocLoop W nunits n h p (h.ptr p)
    else mallocLoop W nunits n h p (h.ptr p)

/-- `nunits` of `malloc`. -/
def units (nbytes : Nat) : Nat := ((nbytes + 16 - 1) / 16 + 1) % 2 ^ 32

/-- The first call of `malloc` makes the list with `base` alone. -/
def start (base : Nat) (h : UserHeap) : UserHeap :=
  if h.freep = 0 then { h with ptr := update h.ptr base base, freep := base, size := update h.size base 0 } else h

/-- `malloc`. -/
def malloc (base : Nat) (W : BrkWorld) (n : Nat) (h : UserHeap) (nbytes : Nat) : Option (Nat × UserHeap) :=
  let h := h.start base
  mallocLoop W (units nbytes) n h h.freep (h.ptr h.freep)

end UserHeap

/-- The size is one whose rounded request in bytes is a positive `int`. -/
def LegalRequest (nbytes : Nat) : Prop := nbytes < 2 ^ 32 ∧ 16 * UserHeap.units nbytes < 2 ^ 31

instance (nbytes : Nat) : Decidable (LegalRequest nbytes) := inferInstanceAs (Decidable (_ ∧ _))

/-! ## Runs -/

/-- The heap with the headers of the live blocks. -/
structure HeapRun where
  heap : UserHeap
  live : List Nat

inductive HeapCall where
  | malloc (nbytes : Nat)
  | free (ap : Nat)

/-- A call of the program: `malloc` of a size it may ask for, `free` of a live block. -/
def HeapRun.call (base : Nat) (W : BrkWorld) (n : Nat) (s : HeapRun) : HeapCall → Option HeapRun
  | .malloc nbytes =>
    if LegalRequest nbytes then do
      let (r, h) ← s.heap.malloc base W n nbytes
      some ⟨h, if r = 0 then s.live else (r - 16) :: s.live⟩
    else none
  | .free ap =>
    if ap - 16 ∈ s.live ∧ 16 ≤ ap then do
      let h ← s.heap.free n ap
      some ⟨h, s.live.erase (ap - 16)⟩
    else none

/-- A header that the program cannot write to: it is outside of what it has in its live blocks. -/
def HeapRun.Kept (s : HeapRun) (x : Nat) : Prop :=
  ∀ b ∈ s.live, x + 16 ≤ b + 16 ∨ b + 16 * s.heap.size b ≤ x

/-- The states that calls reach, with stores of the program into its live blocks between them. The static header `base` lies below
what `sbrk` returns. -/
inductive HeapReach (base : Nat) (W : BrkWorld) : HeapRun → Prop where
  | start {h : UserHeap} (hbase : 0 < base) (hfreep : h.freep = 0) (hbrk : base + 16 ≤ h.brk) (hpieces : h.pieces = []) :
      HeapReach base W ⟨h, []⟩
  | call {s s' : HeapRun} (n : Nat) (c : HeapCall) (hr : HeapReach base W s) (h : s.call base W n c = some s') : HeapReach base W s'
  | store {s : HeapRun} {ptr size : Nat → Nat} (hr : HeapReach base W s)
      (h : ∀ x, s.Kept x → ptr x = s.heap.ptr x ∧ size x = s.heap.size x) :
      HeapReach base W { s with heap := { s.heap with ptr := ptr, size := size } }

/-- The calls of a list, one after the other. -/
def HeapRun.run (base : Nat) (W : BrkWorld) (n : Nat) : List HeapCall → HeapRun → Option HeapRun
  | [], s => some s
  | c :: cs, s => (s.call base W n c).bind (HeapRun.run base W n cs)

theorem HeapReach.of_run {base : Nat} {W : BrkWorld} {n : Nat} {cs : List HeapCall} {s s' : HeapRun} (hr : HeapReach base W s)
    (h : s.run base W n cs = some s') : HeapReach base W s' := by
  induction cs generalizing s with
  | nil =>
    cases h
    exact hr
  | cons c cs ih =>
    obtain ⟨s1, h1, h2⟩ := Option.bind_eq_some_iff.mp h
    exact ih (.call n c hr h1) h2

end Xv6Mmap

import Xv6Mmap.Riscv
import Xv6Mmap.Lib.Outcome

/-!
# The log on the disk

`write_log`, `write_head`, `install_trans`, `commit` and `recover_from_log`, with the disk writes they issue. The power may fail
between any two of them: `left` is how many more block writes reach the disk. A block is a function from its 32-bit words, of which
the header block uses word `0` for `n` and word `i + 1` for `block[i]`.

A buffer that holds no block, or holds what is on the disk, is the same to a reader; `cache` are the blocks that are in memory.
-/

namespace Xv6Mmap

/-- The words of a disk block. -/
abbrev Block : Type := Nat → Nat

/-- The disk, the blocks in the buffer cache, and the block writes left before the power fails. -/
structure Dev where
  disk : Nat → Block
  cache : Nat → Option Block
  left : Nat

namespace Dev

/-- The content `bread` returns. -/
def bread (d : Dev) (b : Nat) : Block := (d.cache b).getD (d.disk b)

/-- `bwrite` of a buffer with content `x`. -/
def bwrite (d : Dev) (b : Nat) (x : Block) : Except (Nat → Block) Dev :=
  if d.left = 0 then throw d.disk
  else pure ⟨Function.update d.disk b x, Function.update d.cache b (some x), d.left - 1⟩

/-- The loop of `write_log` from log block `tail` on: cached blocks are copied to the log. -/
def writeLog (start : Nat) : Nat → List Nat → Dev → Except (Nat → Block) Dev
  | _, [], d => pure d
  | tail, b :: bs, d => do
    let d ← d.bwrite (start + tail + 1) (d.bread b)
    writeLog start (tail + 1) bs d

/-- The header block with `n` and the first `n` entries written over it. -/
def headBlock (old : Block) (lh : List Nat) : Block := fun w =>
  if w = 0 then lh.length else if w ≤ lh.length then lh.getD (w - 1) 0 else old w

/-- `write_head`. -/
def writeHead (start : Nat) (lh : List Nat) (d : Dev) : Except (Nat → Block) Dev :=
  d.bwrite start (headBlock (d.bread start) lh)

/-- The loop of `install_trans` from log block `tail` on: log blocks are copied home. -/
def installTrans (start : Nat) : Nat → List Nat → Dev → Except (Nat → Block) Dev
  | _, [], d => pure d
  | tail, b :: bs, d => do
    let d ← d.bwrite b (d.bread (start + tail + 1))
    installTrans start (tail + 1) bs d

/-- `commit` of the blocks `lh`. -/
def commit (start : Nat) (lh : List Nat) (d : Dev) : Except (Nat → Block) Dev :=
  if 0 < lh.length then do
    let d ← writeLog start 0 lh d
    let d ← writeHead start lh d
    let d ← installTrans start 0 lh d
    writeHead start [] d
  else pure d

/-- The entries that `read_head` takes from a header block. -/
def headList (h : Block) : List Nat := (List.range (h 0)).map fun i => h (i + 1)

/-- `recover_from_log`. -/
def recoverFromLog (start : Nat) (d : Dev) : Except (Nat → Block) Dev := do
  let lh := headList (d.bread start)
  let d ← installTrans start 0 lh d
  writeHead start [] d

/-- The machine switched on again, with an empty cache. -/
def reboot (disk : Nat → Block) (left : Nat) : Dev := ⟨disk, fun _ => none, left⟩

end Dev

/-! ## Transactions and crashes -/

/-- `log.start` and `log.size`. -/
structure LogArea where
  start : Nat
  size : Nat

/-- A block outside the log. -/
def LogArea.Home (A : LogArea) (b : Nat) : Prop := b < A.start ∨ A.start + A.size ≤ b

/-- The blocks of a transaction: distinct, outside the log, and no more than it holds beside its header. -/
structure LogArea.Fits (A : LogArea) (lh : List Nat) : Prop where
  nodup : lh.Nodup
  home : ∀ b ∈ lh, A.Home b
  length : lh.length < A.size

/-- A transaction: the blocks logged, and the buffer cache when it commits. -/
structure Txn where
  lh : List Nat
  cache : Nat → Option Block

/-- What a transaction makes of the content of the disk: its blocks are as they are in the cache. -/
def Txn.apply (t : Txn) (home : Nat → Block) (b : Nat) : Block := if b ∈ t.lh then (t.cache b).getD (home b) else home b

/-- The content after the transactions, in their order. -/
def applyAll (ts : List Txn) (home : Nat → Block) : Nat → Block := ts.foldl (fun h t => t.apply h) home

/-- The commit of a transaction. -/
def Txn.commit (A : LogArea) (t : Txn) (d : Dev) : Except (Nat → Block) Dev := { d with cache := t.cache }.commit A.start t.lh

/-- The commits of transactions, one after the other. -/
def commitAll (A : LogArea) : List Txn → Dev → Except (Nat → Block) Dev
  | [], d => pure d
  | t :: ts, d => do
    let d ← t.commit A d
    commitAll A ts d

/-- The disk after any number of recoveries in which the power failed again. -/
inductive RecoveryCrashes (A : LogArea) (disk : Nat → Block) : (Nat → Block) → Prop where
  | refl : RecoveryCrashes A disk disk
  | crash {d d' : Nat → Block} (left : Nat) : RecoveryCrashes A disk d →
      (Dev.reboot d left).recoverFromLog A.start = .error d' → RecoveryCrashes A disk d'

end Xv6Mmap

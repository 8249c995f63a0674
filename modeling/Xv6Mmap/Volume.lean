import Xv6Mmap.BlockFs
import Xv6Mmap.Lib.Owned

/-!
# Files and the blocks they own

The file system that the blocks of a disk stand for: which blocks the bitmap marks as used, the allocated inodes with their sizes and
block addresses, and the bytes of the data blocks. The number of a block is kept in a `Slot` of an inode, and a sound volume marks as used
exactly the blocks that one slot holds, and those before the data. The content of a file is read through its slots.
-/

namespace Xv6Mmap.Blk

open Function

/-- `MAXFILE`. -/
abbrev maxfile : Nat := ndirect + nindirect

/-- The first block after the bitmap. -/
def Superblock.datastart (sb : Superblock) : Nat := sb.bmapstart + sb.size / bpb + 1

/-- The files of a disk. -/
@[ext] structure Vol where
  used : Nat → Bool
  live : Nat → Prop
  addrs : Nat → Nat → Nat
  size : Nat → Nat
  bytes : Nat → Bytes

/-- Where the number of a block is kept: for block `bn` of inode `x`, in `addrs[bn]` or in entry `bn - NDIRECT` of its indirect
block; for the indirect block itself, in `addrs[NDIRECT]`. -/
inductive Slot where
  | data (x bn : Nat)
  | table (x : Nat)
  deriving DecidableEq

/-- The inode of a slot. -/
def Slot.inode : Slot → Nat
  | .data x _ => x
  | .table x => x

namespace Vol

/-- Entry `k` of indirect block `a`. -/
def entry (v : Vol) (a k : Nat) : Nat := leField (v.bytes a) (4 * k) 4

/-- Block `bn` of inode `x`, or `0`. -/
def block (v : Vol) (x bn : Nat) : Nat :=
  if bn < ndirect then v.addrs x bn
  else if v.addrs x ndirect = 0 then 0
  else v.entry (v.addrs x ndirect) (bn - ndirect)

/-- A slot of an allocated inode holds block `b`. -/
def Holds (v : Vol) : Slot → Nat → Prop
  | .data x bn, b => v.live x ∧ bn < maxfile ∧ v.block x bn = b ∧ b ≠ 0
  | .table x, b => v.live x ∧ v.addrs x ndirect = b ∧ b ≠ 0

/-- Byte `o` of file `x`. -/
def content (v : Vol) (x o : Nat) : UInt8 := v.bytes (v.block x (o / bsize)) (o % bsize)

/-- The bitmap marks the blocks before the data and those that one slot holds, and every file has its blocks. -/
structure Sound (sb : Superblock) (v : Vol) : Prop where
  full : Full v.Holds {b | b < sb.datastart} fun b => v.used b = true
  inside : ∀ b, v.used b = true → b < sb.size
  covered : ∀ x, v.live x → ∀ bn, bn * bsize < v.size x → v.block x bn ≠ 0
  sized : ∀ x, v.live x → v.size x ≤ maxFileBytes

/-! ## Changes -/

/-- A free block marked as used, and zeroed. -/
def alloc (v : Vol) (b : Nat) : Vol :=
  { v with used := update v.used b true, bytes := update v.bytes b fun _ => 0 }

/-- A block address of inode `x`. -/
def setAddr (v : Vol) (x k a : Nat) : Vol :=
  { v with addrs := update v.addrs x (update (v.addrs x) k a) }

/-- The bytes of a block. -/
def put (v : Vol) (b : Nat) (d : Bytes) : Vol := { v with bytes := update v.bytes b d }

/-- An entry of an indirect block. -/
def setEntry (v : Vol) (a k b : Nat) : Vol := v.put a (putLe (v.bytes a) (4 * k) 4 b)

/-- The addresses and the size of inode `x`. -/
def setFile (v : Vol) (x : Nat) (addrs : Nat → Nat) (size : Nat) : Vol :=
  { v with addrs := update v.addrs x addrs, size := update v.size x size }

/-- The size of inode `x`. -/
def setSize (v : Vol) (x size : Nat) : Vol := { v with size := update v.size x size }

/-- What an allocation finds. -/
structure Fresh (sb : Superblock) (v : Vol) (b : Nat) : Prop where
  lt : b < sb.size
  unused : v.used b = false

end Vol

/-! ## The volume on a disk -/

/-- The bytes of a block, of which it has `BSIZE`. -/
def blockBytes (d : Bytes) : Bytes := fun o => if o < bsize then d o else 0

/-- The block addresses of an inode, of which it has `NDIRECT + 1`. -/
def slotAddrs (addrs : Nat → Nat) : Nat → Nat := fun k => if k ≤ ndirect then addrs k else 0

/-- The inode `x` that a disk with blocks `m` has. -/
def diskInfo (sb : Superblock) (m : Nat → Bytes) (x : Nat) : InodeInfo := dinodeInfo (m (sb.iblock x)) (inodeOff x)
def diskAddrs (sb : Superblock) (m : Nat → Bytes) (x : Nat) : Nat → Nat := slotAddrs (dinodeAddrs (m (sb.iblock x)) (inodeOff x))

/-- The volume that blocks `m` stand for. -/
def volOf (sb : Superblock) (m : Nat → Bytes) : Vol where
  used b := decide (b < sb.size) && !bitFree (m (sb.bblock b)) (b % bpb)
  live x := x < sb.ninodes ∧ (diskInfo sb m x).type ≠ 0
  addrs x := if x < sb.ninodes then diskAddrs sb m x else fun _ => 0
  size x := if x < sb.ninodes then (diskInfo sb m x).size else 0
  bytes b := if sb.datastart ≤ b then blockBytes (m b) else fun _ => 0

namespace Sys

/-- The content of a block: of its buffer, or of the disk. -/
def block (s : Sys) (b : Nat) : Bytes := (s.cache b).getD (s.disk b)

/-- The volume of a state. -/
def vol (s : Sys) (sb : Superblock) : Vol := volOf sb s.block

/-- The volume with the inode of table entry `j` as it is in memory. -/
def volAt (s : Sys) (sb : Superblock) (j : Nat) : Vol :=
  (s.vol sb).setFile (s.inode j).inum (slotAddrs (s.inode j).addrs) (s.inode j).info.size

end Sys

end Xv6Mmap.Blk

import Xv6Mmap.Lemmas.Dirs
import Mathlib.Data.Set.Basic

/-!
# The tree of names

What the system calls on names are about: the type and the link count of each inode of the root device and the entries of the
directories. Looking up a path is a function of the tree, and every call changes it by a few operations: an inode is allocated or freed,
a count is set, an entry is put in a slot or cleared.
-/

namespace Xv6Mmap

open Function

/-- The inodes of a disk as directories see them: `len` slots in a directory, each with a name and an inode number or empty. -/
@[ext] structure NameTree where
  type : Nat → Nat
  nlink : Nat → Int
  len : Nat → Nat
  slot : Nat → Nat → Option (List UInt8 × Nat)

/-- How many slots an inode has: none when it is not a directory. -/
def Dinode.len (d : Dinode) : Nat := if d.info.type = tDir then d.info.size / 16 else 0

/-- The entry in a slot of an inode. -/
def Dinode.slot (d : Dinode) (s : Nat) : Option (List UInt8 × Nat) := if s < d.len then direntAt d.data s else none

/-- The tree on the root device. -/
def Fs.tree (fs : Fs) : NameTree where
  type x := (fs.disk rootDev x).info.type
  nlink x := (fs.disk rootDev x).info.nlink
  len x := (fs.disk rootDev x).len
  slot x := (fs.disk rootDev x).slot

/-- The names `.` and `..`. -/
abbrev dot : List UInt8 := [46]
abbrev dotdot : List UInt8 := [46, 46]

namespace NameTree

/-! ## Lookup -/

/-- The slot and the inode number of a name in a directory. -/
def find (t : NameTree) (y : Nat) (key : List UInt8) : Option (Nat × Nat) := findSlot (t.slot y) key (t.len y) 0

/-- `namex` from inode `x` on: the inode reached, and with `parent` the last path element. -/
def walk (t : NameTree) (parent : Bool) : Nat → Nat → List UInt8 → Option (Nat × List UInt8)
  | 0, _, _ => none
  | fuel + 1, x, path =>
    match skipelem path with
    | none => if parent then none else some (x, [])
    | some (name, rest) =>
      if t.type x ≠ tDir then none
      else if parent && rest.isEmpty then some (x, name)
      else
        match t.find x (dirKey name) with
        | none => none
        | some (_, z) => t.walk parent fuel z rest

/-- The walk of a path for a process with current directory `cwd`. -/
def namex (t : NameTree) (parent : Bool) (cwd : Nat) (path : List UInt8) : Option (Nat × List UInt8) :=
  t.walk parent (path.length + 1) (if path.head? = some slash then rootIno else cwd) path

/-- The inode of a path. -/
def namei (t : NameTree) (cwd : Nat) (path : List UInt8) : Option Nat := (t.namex false cwd path).map (·.1)

/-- The parent directory and the last element of a path. -/
def nameiparent (t : NameTree) (cwd : Nat) (path : List UInt8) : Option (Nat × List UInt8) := t.namex true cwd path

/-- An entry of some directory names a free inode. -/
def Dangles (t : NameTree) : Prop := ∃ y s key x, t.slot y s = some (key, x) ∧ t.type x = 0

/-! ## Operations -/

/-- The link count of `x` set. -/
def setNlink (t : NameTree) (x : Nat) (n : Int) : NameTree := { t with nlink := update t.nlink x n }

/-- An entry put in slot `s` of `y`. -/
def put (t : NameTree) (y s : Nat) (e : List UInt8 × Nat) : NameTree :=
  { t with
    len := update t.len y (max (t.len y) (s + 1))
    slot := update t.slot y (update (t.slot y) s (some e)) }

/-- Slot `s` of `y` cleared. -/
def clear (t : NameTree) (y s : Nat) : NameTree :=
  { t with slot := update t.slot y (update (t.slot y) s none) }

/-- The free inode `x` allocated with one link. -/
def alloc (t : NameTree) (x type : Nat) : NameTree :=
  { t with type := update t.type x type, nlink := update t.nlink x 1 }

/-- The directory `x` with its entries `.` and `..`, and the count of the parent `y` for the latter. -/
def dots (t : NameTree) (x y : Nat) : NameTree :=
  ((t.setNlink y (toShort (t.nlink y + 1))).put x 0 (dot, x)).put x 1 (dotdot, y)

/-- `create`: the new inode `x` named in slot `s` of `y`. -/
def make (t : NameTree) (y s : Nat) (key : List UInt8) (x type : Nat) : NameTree :=
  (if type = tDir then (t.alloc x type).dots x y else t.alloc x type).put y s (key, x)

/-- `link`: a further name of `x` in slot `s` of `y`. -/
def link (t : NameTree) (y s : Nat) (key : List UInt8) (x : Nat) : NameTree :=
  (t.setNlink x (toShort (t.nlink x + 1))).put y s (key, x)

/-- `unlink`: the name of `x` in slot `s` of `y` goes away, with the count of `y` for the entry `..` of a directory. -/
def unlink (t : NameTree) (y s x : Nat) : NameTree :=
  ((if t.type x = tDir then t.setNlink y (toShort (t.nlink y - 1)) else t).clear y s).setNlink x (toShort (t.nlink x - 1))

open Classical in
/-- The inodes of `F` freed. -/
noncomputable def freeAll (t : NameTree) (F : Set Nat) : NameTree where
  type x := if x ∈ F then 0 else t.type x
  nlink := t.nlink
  len x := if x ∈ F then 0 else t.len x
  slot x s := if x ∈ F then none else t.slot x s

section Operations

variable {t : NameTree} {y s x z type : Nat} {key : List UInt8}

/-- A new inode has one link. -/
theorem make_nlink (h : x ≠ y) : (t.make y s key x type).nlink x = 1 := by
  rw [make]
  by_cases hdir : type = tDir
  · rw [if_pos hdir]
    simp [put, dots, setNlink, alloc, h]
  · rw [if_neg hdir]
    simp [put, alloc]

theorem make_type : (t.make y s key x type).type = update t.type x type := by
  unfold make
  split
  · rfl
  · rfl

theorem make_type_self : (t.make y s key x type).type x = type := by rw [make_type, update_self]

theorem make_type_of_ne (hz : z ≠ x) : (t.make y s key x type).type z = t.type z := by rw [make_type, update_of_ne hz]

theorem make_nlink_parent (hx : x ≠ y) :
    (t.make y s key x type).nlink y = if type = tDir then toShort (t.nlink y + 1) else t.nlink y := by
  unfold make
  split
  · simp [put, dots, setNlink, alloc, hx.symm]
  · simp [put, alloc, hx.symm]

theorem make_nlink_of_ne (hz : z ≠ x) (hy : z ≠ y) : (t.make y s key x type).nlink z = t.nlink z := by
  unfold make
  split
  · simp [put, dots, setNlink, alloc, hz, hy]
  · simp [put, alloc, hz]

theorem unlink_type : (t.unlink y s x).type = t.type := by
  unfold unlink
  split
  · rfl
  · rfl

theorem unlink_nlink_self : (t.unlink y s x).nlink x = toShort (t.nlink x - 1) := by simp [unlink, setNlink]

theorem unlink_nlink_parent (hx : x ≠ y) :
    (t.unlink y s x).nlink y = if t.type x = tDir then toShort (t.nlink y - 1) else t.nlink y := by
  unfold unlink
  split
  · simp [clear, setNlink, hx.symm]
  · simp [clear, setNlink, hx.symm]

theorem unlink_nlink_of_ne (hz : z ≠ x) (hy : z ≠ y) : (t.unlink y s x).nlink z = t.nlink z := by
  unfold unlink
  split
  · simp [clear, setNlink, hz, hy]
  · simp [clear, setNlink, hz]

end Operations

section FreeAll

variable {t : NameTree} {F : Set Nat} {x s : Nat}

@[simp] theorem freeAll_type_of_mem (h : x ∈ F) : (t.freeAll F).type x = 0 := if_pos h

@[simp] theorem freeAll_type_of_notMem (h : x ∉ F) : (t.freeAll F).type x = t.type x := if_neg h

@[simp] theorem freeAll_len_of_mem (h : x ∈ F) : (t.freeAll F).len x = 0 := if_pos h

@[simp] theorem freeAll_len_of_notMem (h : x ∉ F) : (t.freeAll F).len x = t.len x := if_neg h

@[simp] theorem freeAll_slot_of_mem (h : x ∈ F) : (t.freeAll F).slot x s = none := if_pos h

@[simp] theorem freeAll_slot_of_notMem (h : x ∉ F) : (t.freeAll F).slot x s = t.slot x s := if_neg h

@[simp] theorem freeAll_nlink : (t.freeAll F).nlink = t.nlink := rfl

@[simp] theorem freeAll_empty : t.freeAll ∅ = t := by
  refine NameTree.ext (funext fun z => ?_) rfl (funext fun z => ?_) (funext fun z => funext fun s => ?_)
  · exact freeAll_type_of_notMem (Set.notMem_empty z)
  · exact freeAll_len_of_notMem (Set.notMem_empty z)
  · exact freeAll_slot_of_notMem (Set.notMem_empty z)

theorem freeAll_freeAll (t : NameTree) (F G : Set Nat) : (t.freeAll F).freeAll G = t.freeAll (G ∪ F) := by
  refine NameTree.ext (funext fun z => ?_) rfl (funext fun z => ?_) (funext fun z => funext fun s => ?_)
  all_goals
    by_cases hG : z ∈ G
    · simp [hG]
    · by_cases hF : z ∈ F
      · simp [hG, hF]
      · simp [hG, hF]

end FreeAll

section Find

variable {t : NameTree} {y s x : Nat} {key : List UInt8}

theorem find_some (h : t.find y key = some (s, x)) : s < t.len y ∧ t.slot y s = some (key, x) := by
  obtain ⟨-, hlt, hat⟩ := findSlot_some h
  exact ⟨by rwa [zero_add] at hlt, hat⟩

theorem find_none (h : t.find y key = none) (hs : s < t.len y) : t.slot y s ≠ some (key, x) :=
  findSlot_none h (Nat.zero_le s) (by rwa [zero_add])

end Find

/-- Link counts make no difference to a walk. -/
theorem walk_setNlink (t : NameTree) (x : Nat) (n : Int) (parent : Bool) (fuel z : Nat) (path : List UInt8) :
    (t.setNlink x n).walk parent fuel z path = t.walk parent fuel z path := by
  induction fuel generalizing z path with
  | zero => rfl
  | succ fuel ih =>
    rw [walk, walk]
    show (match skipelem path with
      | none => _
      | some (name, rest) => if t.type z ≠ tDir then none else if _ then _ else
        match t.find z (dirKey name) with
        | none => none
        | some (_, z) => (t.setNlink x n).walk parent fuel z rest) = _
    simp only [ih]

end NameTree

end Xv6Mmap

import Xv6Mmap.Fs
import Mathlib.Data.Multiset.Count
import Mathlib.Data.Multiset.Filter

/-!
# The inode table under interleaving

`iget` and `idup` are one critical section of `itable.lock` each, and `iput` is one or two: to free an inode without links with its
last reference, it gives up the lock. Between critical sections other processes run theirs, and what the lock does not protect (the
disk, and what an inode's sleep-lock protects) may change. `held` records, for the statements, a pair for each reference: the holder
and the entry.
-/

namespace Xv6Mmap

/-- The test of `iput` for its truncate-and-free branch. -/
def iputFrees (fs : Fs) (i : Nat) : Bool :=
  decide ((fs.itable i).ref = 1 ∧ (fs.itable i).valid = true ∧ (fs.itable i).info.nlink = 0)

/-- `ip->ref--`, with which `iput` ends. -/
def iputDrop (fs : Fs) (i : Nat) : Fs := fs.setInode i { fs.itable i with ref := (fs.itable i).ref - 1 }

/-- The table, the references with their holders, and the entry each process is freeing in `iput`. -/
structure ItableSys where
  fs : Fs
  held : Multiset (Nat × Nat)
  freeing : Nat → Option Nat

/-- Two file systems whose tables have the same identities and counts. -/
def SameTable (fs fs' : Fs) : Prop :=
  ∀ i, (fs'.itable i).dev = (fs.itable i).dev ∧ (fs'.itable i).inum = (fs.itable i).inum ∧ (fs'.itable i).ref = (fs.itable i).ref

/-- A critical section of process `j`, or other code. A process duplicates, hands over and drops only references that it holds. -/
inductive ItableStep : ItableSys → ItableSys → Prop where
  | iget {s : ItableSys} {j dev inum i : Nat} {fs : Fs} : s.freeing j = none → iget s.fs dev inum = .ok (i, fs) →
      ItableStep s { s with fs := fs, held := (j, i) ::ₘ s.held }
  | idup {s : ItableSys} {j i : Nat} {fs : Fs} : s.freeing j = none → (j, i) ∈ s.held → idup s.fs (some i) = .ok fs →
      ItableStep s { s with fs := fs, held := (j, i) ::ₘ s.held }
  | iput {s : ItableSys} {j i : Nat} : s.freeing j = none → (j, i) ∈ s.held → iputFrees s.fs i = false →
      ItableStep s { s with fs := iputDrop s.fs i, held := s.held.erase (j, i) }
  | iputBegin {s : ItableSys} {j i : Nat} : s.freeing j = none → (j, i) ∈ s.held → iputFrees s.fs i = true →
      ItableStep s { s with freeing := Function.update s.freeing j (some i) }
  | iputEnd {s : ItableSys} {j i : Nat} : s.freeing j = some i →
      ItableStep s { fs := iputDrop s.fs i, held := s.held.erase (j, i), freeing := Function.update s.freeing j none }
  | give {s : ItableSys} {j i : Nat} (j' : Nat) : s.freeing j = none → (j, i) ∈ s.held →
      ItableStep s { s with held := (j', i) ::ₘ s.held.erase (j, i) }
  | others {s : ItableSys} {fs : Fs} : SameTable s.fs fs → ItableStep s { s with fs := fs }

/-- The states reached from a table without references. -/
inductive ItableReach : ItableSys → Prop where
  | start {fs : Fs} : (∀ i, (fs.itable i).ref = 0) → ItableReach ⟨fs, 0, fun _ => none⟩
  | step {s s' : ItableSys} : ItableReach s → ItableStep s s' → ItableReach s'

end Xv6Mmap

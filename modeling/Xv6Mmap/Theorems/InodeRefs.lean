import Xv6Mmap.Theorems.MapAccess

/-!
# References to inodes over whole runs

The table of inodes counts the references that open files and current directories hold. It counts more only for files that went away
with a mapping, which `munmap` does not release.
-/

namespace Xv6Mmap

open Finset

variable {Λ : Layout} {k₀ k : Kernel} {L : Nat → List Nat} {j : Nat}

/-- The open files on the inode of entry `j`, and the processes in it. -/
def inodeUsers (k : Kernel) (j : Nat) : Nat :=
  ((range nfile).filter fun f => 0 < (k.ftable f).ref ∧ (k.ftable f).inode = some j).card +
    ((range nproc).filter fun i => (k.proc i).cwd = some j).card

theorem inodeUsers_le (k : Kernel) (j : Nat) : (inodeUsers k j : Int) ≤ heldRefs k j := by
  have hsub : ((range nfile).filter fun f => 0 < (k.ftable f).ref ∧ (k.ftable f).inode = some j).card ≤
      refsTo (range nfile) (fun f => (k.ftable f).inode) j :=
    card_le_card fun f hf => by simp_all
  simp only [inodeUsers, heldRefs, refsTo] at hsub ⊢
  omega

theorem inodeUsers_eq (hc : Counted k L) (hr : Released k) : (inodeUsers k j : Int) = heldRefs k j := by
  have heq : ((range nfile).filter fun f => 0 < (k.ftable f).ref ∧ (k.ftable f).inode = some j) =
      (range nfile).filter fun f => (k.ftable f).inode = some j := by
    refine filter_congr fun f _ => and_iff_right_of_imp fun hj => ?_
    -- a file without references holds no inode
    have hne : (k.ftable f).ref ≠ 0 := by
      intro h0
      rw [File.inode, hr f h0] at hj
      cases hj
    have := hc.refs f
    omega
  simp [inodeUsers, heldRefs, refsTo, heq]

/-- What steps keep of the references, and with `D` when none drops the last one to a file. -/
structure RefsKept (D : Prop) (k : Kernel) : Prop where
  counted : ∃ L, Counted k L
  within : FilesIn k
  lost : ∀ j, 0 ≤ lostRefs k j
  exact : D → Released k ∧ lostRefs k = 0

theorem RefsKept.step {D : Prop} {io : Bool} {i : Nat} {ev : Event} {r : Nat × Kernel} (h : RefsKept D k) (hi : i < nproc)
    (hD : D → ¬DropsFile Λ io k i ev) (hs : step Λ io k i ev = .ok r) : RefsKept D r.2 := by
  obtain ⟨L, hc⟩ := h.counted
  obtain ⟨hstep, hgain⟩ := step_files hc h.within hi hs
  refine ⟨(hc.step hi).of_ok hs, hstep.within h.within, fun j => (h.lost j).trans (hstep.lost j), fun d => ?_⟩
  obtain ⟨hr, hzero⟩ := h.exact d
  exact ⟨(hgain.resolve_left (hD d)).released hr, (hstep.exact hr).trans hzero⟩

/-- In every run, an inode that an open file or a current directory refers to is counted for each of them, so that its entry is not
given to another inode. If no step frees a VMA with the last reference to its file, every file without references was released, and
the counts are exact. -/
theorem inode_refs_reach {P : Kernel → Nat → Event → Prop} (h0 : Booted Λ k₀) (hrun : Reach Λ P k₀ k) :
    (∀ j, inodeUsers k j ≤ (k.fs.itable j).ref) ∧
    ((∀ io k i ev, P k i ev → ¬DropsFile Λ io k i ev) → Released k ∧ ∀ j, (k.fs.itable j).ref = inodeUsers k j) := by
  have h : RefsKept (∀ io k i ev, P k i ev → ¬DropsFile Λ io k i ev) k :=
    hrun.invariant ⟨⟨_, h0.counted⟩, fun f _ => (h0.noFile f).1, fun j => by rw [h0.lost]; rfl,
      fun _ => ⟨fun f _ => (h0.noFile f).2, h0.lost⟩⟩ fun k io i ev r k' h hi hP hs => h.step hi (fun d => d io k i ev hP) hs
  refine ⟨fun j => ?_, fun d => ?_⟩
  · have h1 := h.lost j
    have h2 := inodeUsers_le k j
    simp only [lostRefs, Pi.sub_apply, Fs.refs] at h1
    omega
  · obtain ⟨L, hc⟩ := h.counted
    obtain ⟨hr, hzero⟩ := h.exact d
    refine ⟨hr, fun j => ?_⟩
    rw [inodeUsers_eq hc hr]
    exact sub_eq_zero.mp (congrFun hzero j)

/-- A mapping outlives its descriptor and is unmapped: nothing refers to the file, but it keeps its inode. -/
theorem inode_refs_unmapped : ∃ k₀ k, Booted demoLayout k₀ ∧ Reach demoLayout (fun _ _ _ => True) k₀ k ∧
    (k.ftable 0).ref = 0 ∧ (k.ftable 0).type = .inode ∧ ∀ j, inodeUsers k j ≤ (k.fs.itable j).ref := by
  obtain ⟨k₀, k, h0, hrun, ht⟩ := reach_demoRun (T := fun k => (k.ftable 0).ref = 0 ∧ (k.ftable 0).type = .inode) 5000 always_of_check
    [(0, .openPath demoPath oRdwr), (0, .mmap 4096 protRead mapPrivate 0), (0, .fault startAddress .load), (0, .close 0),
      (0, .munmap startAddress 4096)] (by decide +kernel)
  exact ⟨k₀, k, h0, hrun, ht.1, ht.2, (inode_refs_reach h0 hrun).1⟩

end Xv6Mmap

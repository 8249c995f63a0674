import Xv6Mmap.Lemmas.Refs
import Xv6Mmap.Boot

/-!
# File reference counts over runs

Every step keeps the counts of the file table exact, however a call fails; a file that `filealloc` hands out is then behind no
descriptor and no mapping, and no call stops in `filedup` or `fileclose`.
-/

namespace Xv6Mmap

variable {Λ : Layout} {io : Bool} {k k' : Kernel} {L : Nat → List Nat} {i : Nat} {ev : Event}

/-! ## Calls that open files -/

theorem openPath_quiet (path : List UInt8) (omode : Nat) : Quiet (openPath Λ io k i path omode) := by
  refine abortsIn_bind.mpr ⟨by simp, ?_⟩
  rintro ⟨ip, fs⟩ -
  cases ip with
  | none => simp
  | some ip =>
    refine abortsIn_ite.mpr ⟨fun _ => by simp, fun _ => ?_⟩
    split
    · simp
    rename_i f k1 hal
    obtain ⟨-, -, rfl⟩ := filealloc_some hal
    split
    · refine abortsIn_bind.mpr ⟨fileclose_quiet Λ io ?_, fun k2 _ => by simp⟩
      simp [Kernel.setFile]
    · simp

theorem closeBoth_quiet {f g : Nat} (hf : 1 ≤ (k.ftable f).ref) (hg : 1 ≤ (k.ftable g).ref) (hne : g ≠ f) :
    Quiet (closeBoth Λ io k f g) := by
  refine abortsIn_bind.mpr ⟨fileclose_quiet Λ io hf, fun k1 h1 => abortsIn_bind.mpr ⟨fileclose_quiet Λ io ?_, fun _ _ => by simp⟩⟩
  rw [fileclose_ref h1, if_neg hne, sub_zero]
  exact hg

theorem pipealloc_quiet : Quiet (pipealloc Λ io k) := by
  unfold pipealloc
  split
  · simp
  rename_i f k1 h0
  obtain ⟨-, -, rfl⟩ := filealloc_some h0
  split
  · refine abortsIn_bind.mpr ⟨fileclose_quiet Λ io ?_, fun _ _ => by simp⟩
    simp [Kernel.setFile]
  rename_i g k2 h1
  obtain ⟨-, hg, rfl⟩ := filealloc_some h1
  have hne : g ≠ f := by
    rintro rfl
    simp [Kernel.setFile] at hg
  refine abortsIn_ite.mpr ⟨fun _ => ?_, fun _ => abortsIn_ite.mpr ⟨fun _ => by simp, fun _ => by simp⟩⟩
  refine abortsIn_bind.mpr ⟨fileclose_quiet Λ io ?_, fun k3 h3 => abortsIn_bind.mpr ⟨fileclose_quiet Λ io ?_, fun _ _ => by simp⟩⟩
  · simp [Kernel.setFile, hne.symm]
  · rw [fileclose_ref h3]
    simp [Kernel.setFile, hne]

theorem sysPipe_quiet (fdarray : Nat) : Quiet (sysPipe Λ io k i fdarray) := by
  refine abortsIn_bind.mpr ⟨pipealloc_quiet, ?_⟩
  rintro ⟨files, k1⟩ hal
  rcases files with _ | ⟨f, g⟩
  · simp
  cases pipealloc_ok hal with
  | done _ _ pg _ _ _ _ hne _ _ _ _ hrf hwf =>
    have hf : (k1.ftable f).ref = 1 := by rw [hrf]
    have hg : (k1.ftable g).ref = 1 := by rw [hwf]
    dsimp only
    split
    · exact closeBoth_quiet (by omega) (by omega) hne
    rename_i fd0 k2 hfd
    obtain ⟨-, -, rfl⟩ := fdalloc_some hfd
    split
    · exact closeBoth_quiet (k := (k1.setFd i fd0 (some f)).setFd i fd0 none) hf.ge hg.ge hne
    rename_i fd1 k3 hfd'
    obtain ⟨-, -, rfl⟩ := fdalloc_some hfd'
    split
    · simp
    · refine abortsIn_ite.mpr ⟨fun _ => by simp, fun _ => ?_⟩
      exact closeBoth_quiet hf.ge hg.ge hne

/-! ## One step -/

theorem Counted.pageFault {va : Nat} (h : Counted k L) (hi : i < nproc) (hrun : (k.proc i).Running) :
    Ends (pageFault Λ io k i va) (fun k' => Counted k' L) NotFile := by
  refine ends_ite (fun _ => h.killExit hi hrun) fun _ => ?_
  refine ends_bind (faultFind_quiet k.vmas va _ _).any fun found _ => ?_
  cases found with
  | none => exact h.killExit hi hrun
  | some a =>
    dsimp only
    split
    · exact ends_throw (by decide)
    rename_i pt hpt
    -- the process with the fields that the branch may have changed by now
    have hchanged : ∀ b pt' m fs, Counted (k.upd i { k.proc i with killed := b, pagetable := some pt' } m fs) L :=
      fun b pt' m fs => h.upd (hrun.procOk_of rfl rfl) rfl rfl rfl
    have hrun' : ∀ b pt' m fs,
        ((k.upd i { k.proc i with killed := b, pagetable := some pt' } m fs).proc i).Running := by
      intro b pt' m fs
      rw [upd_self]
      exact hrun.congr rfl rfl
    refine ends_bind (memset_quiet _ _ 0).any fun m2 _ => ?_
    refine ends_bind (mappages_quiet Λ pt m2 va _ _ _).any ?_
    rintro ⟨ok, pt', m3⟩ -
    refine ends_ite (fun _ => ?_) fun _ => ?_
    · refine ends_bind (kfree_quiet Λ m3 _).any fun m4 _ => ?_
      exact (hchanged _ pt' m4 k.fs).killExit hi (hrun' _ pt' m4 k.fs)
    · refine ends_bind (readPage_quiet pt' m3 k _ va).any ?_
      rintro ⟨m4, fs⟩ -
      refine ends_ite (fun _ => ?_) fun _ => ends_pure (hchanged _ pt' m4 fs)
      exact (hchanged _ pt' m4 fs).exitBegin hi (hrun' _ pt' m4 fs)

/-- Every kernel call keeps the counts exact and stops in neither `filedup` nor `fileclose`. -/
theorem Counted.trap (h : Counted k L) (hi : i < nproc) (hrun : (k.proc i).Running) :
    Ends (trap Λ io k i ev) (fun r => ∃ L', Counted r.2 L') NotFile := by
  cases ev with
  | mmap length prot flag fd =>
    refine (sysMmap_quiet k i length prot flag fd).ends fun r hr => ?_
    rcases sysMmap_ok hr with rfl | hm
    · exact ⟨L, h⟩
    · exact h.mmap hrun hm
  | munmap addr length =>
    refine ends_bind ((munmap_quiet Λ io k i addr length).ends fun r hr => h.munmap hrun.state hr) ?_
    exact fun r hr => ends_pure hr
  | fault va cause => exact ends_bind (h.pageFault hi hrun) fun k' h' => ends_pure ⟨L, h'⟩
  | sbrk n =>
    refine ends_bind ((growproc_quiet Λ k i n).ends fun r hr => growproc_ok hr) ?_
    rintro ⟨ok, k'⟩ ⟨pt, sz, m, e⟩
    subst e
    exact ends_pure ⟨L, h.upd (p := { k.proc i with pagetable := pt, sz := sz }) (hrun.procOk_of rfl rfl) rfl rfl rfl⟩
  | fork => exact ends_bind (h.fork hi hrun) fun r hr => ends_pure hr
  | exit status => exact ends_bind (h.exitBegin hi hrun) fun k' h' => ends_pure ⟨L, h'⟩
  | wait addr =>
    refine ends_bind ((wait_quiet Λ k i addr).ends fun r hr => h.wait (wait_ok hr)) ?_
    rintro ⟨w, k'⟩ h'
    cases w <;> exact ends_pure ⟨L, h'⟩
  | exec path argv =>
    refine ends_bind ((exec_quiet Λ io k i path argv).ends fun r hr => exec_ok hr) ?_
    rintro ⟨argc, k'⟩ ⟨pt, sz, m, fs, e⟩
    subst e
    exact ends_pure ⟨L, h.upd (p := { k.proc i with pagetable := pt, sz := sz }) (hrun.procOk_of rfl rfl) rfl rfl rfl⟩
  | openPath path omode =>
    cases path with
    | none => exact ends_pure ⟨L, h⟩
    | some path => exact (openPath_quiet path omode).ends fun r hr => ⟨L, h.openPath hi hrun (openPath_ok hr)⟩
  | dup fd =>
    refine AbortsIn.ends ?_ fun r hr => ⟨L, h.dup hi hrun (sysDup_ok hr)⟩
    simp only [Xv6Mmap.trap]
    unfold sysDup
    split
    · simp
    rename_i fd' f hfd
    obtain ⟨hlt, hf⟩ := argfd_some hfd
    have hpos := h.refs.fd_pos hi hlt hf
    split
    · simp
    · rename_i fd1 k1 hal
      obtain ⟨-, -, rfl⟩ := fdalloc_some hal
      exact abortsIn_bind.mpr ⟨filedup_quiet (k := k.setFd i fd1 (some f)) hpos, fun _ _ => by simp⟩
  | close fd =>
    refine AbortsIn.ends ?_ fun r hr => ⟨L, h.close hi hrun (sysClose_ok hr)⟩
    simp only [Xv6Mmap.trap]
    unfold sysClose
    split
    · simp
    · rename_i fd' f hfd
      obtain ⟨hlt, hf⟩ := argfd_some hfd
      have hpos := h.refs.fd_pos hi hlt hf
      exact abortsIn_bind.mpr ⟨fileclose_quiet (k := k.setFd i fd' none) Λ io hpos, fun _ _ => by simp⟩
  | pipe fdarray => exact (sysPipe_quiet fdarray).ends fun r hr => ⟨L, h.pipe hi hrun (sysPipe_ok hr)⟩
  | chdir path =>
    refine (sysChdir_quiet io k i path).ends fun r hr => ?_
    obtain ⟨cwd, fs, e⟩ := sysChdir_ok hr
    rw [e]
    exact ⟨L, h.upd (p := { k.proc i with cwd := cwd }) (hrun.procOk_of rfl rfl) rfl rfl rfl⟩
  | store va b | exitUnmap | exitDone => exact ends_pure ⟨L, h⟩

theorem Counted.step (h : Counted k L) (hi : i < nproc) : Ends (step Λ io k i ev) (fun r => ∃ L', Counted r.2 L') NotFile := by
  refine step_ends ⟨L, h⟩ ?_ ?_ ?_ ?_
  · intro status _ hex _
    refine (exitUnmap_quiet Λ io k i).ends fun k' hk => ?_
    obtain ⟨a, ok, -, hm⟩ := exitUnmap_ok hk
    refine h.munmap ⟨fun e => ?_, fun e => ?_⟩ hm
    · rw [((h.idle i).gone (Or.inl e)).2.2] at hex
      cases hex
    · rw [((h.idle i).gone (Or.inr e)).2.2] at hex
      cases hex
  · intro status _ hex hn
    exact (exitDone_quiet io k i status).ends fun k' hk => ⟨L, h.exitDone (by rw [hex]; rfl) hn hk⟩
  · intro va b pt _ hu
    obtain ⟨pt', ram, e⟩ := userStore_eq (k := k) (i := i) pt va b
    rw [e]
    exact ⟨L, h.upd ((inUser_running hu).procOk_of rfl rfl) rfl rfl rfl⟩
  · intro pt hu
    have hrun := inUser_running hu
    have h' : Counted (trapEntry k i pt) L := h.upd (hrun.procOk_of rfl rfl) rfl rfl rfl
    refine h'.trap hi ?_
    rw [trapEntry_eq, upd_self]
    exact hrun.congr rfl rfl

/-! ## Runs -/

/-- A booted kernel: no file is referenced, and the first process has no descriptor. -/
theorem Booted.counted (h : Booted Λ k) : Counted k fun _ => [] := by
  obtain ⟨k0, hf, hk⟩ := h
  obtain ⟨j, tf, pt, pt', m1, m, m', cwd, fs, -, -, -, -, -, -, rfl⟩ := userinit_ok hk
  have hidle : ∀ i, ProcOk (k0.proc i) := fun i => by
    rw [hf.proc]
    exact ⟨fun _ _ _ => rfl, fun _ => ⟨rfl, rfl, rfl⟩⟩
  have hlists : VmaLists k0 fun _ => [] := by
    refine ⟨⟨fun i => ?_, fun _ _ _ ha => (nomatch ha)⟩, fun _ _ ha => (nomatch ha), fun _ => Nat.zero_le _, fun i => ?_⟩
    · rw [Kernel.heads, hf.proc]
      exact Chain.nil
    · rw [hf.proc]
      exact Nat.zero_le _
  have hrefs : RefsExact k0 := by
    intro f
    have h1 : fdRefs k0 f = 0 := refsTo_eq_zero fun x _ => by simp [hf.proc]
    have h2 : vmaRefs k0 f = 0 := refsTo_eq_zero fun c _ => by simp [Vma.file, hf.vmas]
    rw [(hf.ftable f).1, h1, h2]
    rfl
  have h0 : Counted k0 fun _ => [] := ⟨hlists, hidle, hrefs⟩
  have hup : Counted (k0.upd j _ m' fs) _ := h0.upd
    (p := { k0.proc j with
      pid := k0.nextpid, trapframe := tf, pagetable := some pt', sz := pgSize, cwd := cwd, vmas := none, state := .runnable })
    (Proc.Running.procOk ⟨⟨by simp, by simp⟩, by simp [hf.proc]⟩) (by simp [hf.proc]) rfl rfl
  exact hup.of_same ⟨⟨rfl, fun _ => rfl, fun _ => rfl⟩, fun _ => rfl, fun _ => rfl⟩ hup.idle

theorem reach_counted {P : Kernel → Nat → Event → Prop} {k0 : Kernel} (h0 : Booted Λ k0) (hrun : Reach Λ P k0 k) :
    ∃ L, Counted k L := by
  refine hrun.invariant (I := fun k => ∃ L, Counted k L) ⟨_, h0.counted⟩ ?_
  rintro k io i ev r k' ⟨L, h⟩ hi _ hs
  exact (h.step hi).of_ok hs

/-- In every run, whatever the processes do, each file's count is the number of descriptors and of VMAs in use that refer to it. So
`filealloc` never hands out a file that is still behind a descriptor or a mapping, and no step stops in `filedup` or in
`fileclose`. -/
theorem fileRefs_reach {Λ : Layout} {k₀ k : Kernel} (h0 : Booted Λ k₀) (hrun : Reach Λ (fun _ _ _ => True) k₀ k) :
    (∀ f, (k.ftable f).ref = fdRefs k f + vmaRefs k f) ∧
    (∀ f k', filealloc k = some (f, k') → (∀ i < nproc, ∀ fd < nofile, (k.proc i).ofile fd ≠ some f) ∧
      ∀ c < vmasStored, (k.vmas c).use = true → (k.vmas c).ofile ≠ some f) ∧
    ∀ io i ev, i < nproc → step Λ io k i ev ≠ .error .filedup ∧ step Λ io k i ev ≠ .error .fileclose := by
  obtain ⟨L, h⟩ := reach_counted h0 hrun
  refine ⟨h.refs, fun f k' hal => h.refs.unreferenced (filealloc_some hal).2.1, fun io i ev hi => ⟨fun he => ?_, fun he => ?_⟩⟩
  · exact ((h.step hi).of_error he).1 rfl
  · exact ((h.step hi).of_error he).2 rfl

/-- A file mapped, its descriptor closed, and the process forked. -/
def demoCloseFork : List (Nat × Event) :=
  [(0, .openPath demoPath oRdwr), (0, .mmap 4096 protRead mapPrivate 0), (0, .close 0), (0, .fork)]

/-- The file is then referenced by the two mappings only. -/
theorem fileRefs_reach_demo : ∃ k₀ k, Booted demoLayout k₀ ∧ Reach demoLayout (fun _ _ _ => True) k₀ k ∧
    (k.proc 0).ofile 0 = none ∧ (k.ftable 0).ref = 2 ∧ fdRefs k 0 + vmaRefs k 0 = 2 := by
  obtain ⟨k₀, k, h0, hrun, hfd, href⟩ := reach_demoRun (T := fun k => (k.proc 0).ofile 0 = none ∧ (k.ftable 0).ref = 2) 5000
    always_of_check demoCloseFork (by decide +kernel)
  have hrefs := (fileRefs_reach h0 hrun).1 0
  exact ⟨k₀, k, h0, hrun, hfd, href, by omega⟩

/-- A process that is gone has an empty list of VMAs. -/
theorem Counted.vmas_none (h : Counted k L) (hgone : (k.proc i).state = .unused ∨ (k.proc i).state = .zombie) :
    (k.proc i).vmas = none := by
  have hshort := h.lists.short i
  rw [((h.idle i).gone hgone).1, Nat.le_zero, List.length_eq_zero_iff] at hshort
  have hchain := h.lists.chains.chain i
  rw [hshort] at hchain
  cases hhead : (k.proc i).vmas with
  | none => rfl
  | some a =>
    rw [show k.heads i = some a from hhead] at hchain
    cases hchain

/-- In every run, a process that is in `exit`, a zombie or not in use has no descriptor, and in the last two cases no VMA and no
current directory. -/
theorem exited_holds_nothing {Λ : Layout} {P : Kernel → Nat → Event → Prop} {k₀ k : Kernel} (h0 : Booted Λ k₀)
    (hrun : Reach Λ P k₀ k) (i : Nat) :
    ((k.proc i).state = .unused ∨ (k.proc i).state = .zombie ∨ (k.proc i).exiting.isSome = true →
      ∀ fd < nofile, (k.proc i).ofile fd = none) ∧
    ((k.proc i).state = .unused ∨ (k.proc i).state = .zombie →
      (k.proc i).nvma = 0 ∧ (k.proc i).vmas = none ∧ (k.proc i).cwd = none) := by
  obtain ⟨L, h⟩ := reach_counted h0 hrun
  refine ⟨(h.idle i).closed, fun hgone => ?_⟩
  obtain ⟨hn, hcwd, -⟩ := (h.idle i).gone hgone
  exact ⟨hn, h.vmas_none hgone, hcwd⟩

/-- A child with a descriptor and a mapping exits: the file is left to its parent. -/
theorem exited_holds_nothing_child : ∃ k₀ k, Booted demoLayout k₀ ∧ Reach demoLayout (fun _ _ _ => True) k₀ k ∧
    (k.proc 1).state = .zombie ∧ (k.ftable 0).ref = 2 ∧ (k.proc 1).ofile 0 = none ∧ (k.proc 1).vmas = none := by
  obtain ⟨k₀, k, h0, hrun, ht⟩ := reach_demoRun (T := fun k => (k.proc 1).state = .zombie ∧ (k.ftable 0).ref = 2) 5000 always_of_check
    [(0, .openPath demoPath oRdwr), (0, .mmap 4096 protRead mapPrivate 0), (0, .fork), (1, .fault startAddress .load), (1, .exit 0),
      (1, .exitUnmap), (1, .exitDone)] (by decide +kernel)
  obtain ⟨hfd, hgone⟩ := exited_holds_nothing h0 hrun 1
  exact ⟨k₀, k, h0, hrun, ht.1, ht.2, hfd (Or.inr (Or.inl ht.1)) 0 (by decide), (hgone (Or.inr ht.1)).2.1⟩

end Xv6Mmap

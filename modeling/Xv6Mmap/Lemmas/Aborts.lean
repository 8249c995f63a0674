import Xv6Mmap.Lemmas.Inodes
import Xv6Mmap.Trap

/-!
# Which calls can stop in `filedup` or `fileclose`

The functions that neither duplicate nor close a file stop in other ways only, and `filedup` and `fileclose` stop so only at a file with
no reference. The rules of `AbortsIn` take each function apart; for the calls that remain the lemma before is a `simp` lemma.
-/

namespace Xv6Mmap

/-- The computation stops neither in `filedup` nor in `fileclose`. -/
abbrev Quiet {α : Type} (x : Except Panic α) : Prop := AbortsIn NotFile x

@[simp] theorem notFile_iff (e : Panic) : NotFile e ↔ e ≠ .filedup ∧ e ≠ .fileclose := Iff.rfl

variable (Λ : Layout) (io : Bool) (pt : PageTable) (m : Mem)

/-! ## Memory -/

@[simp] theorem memset_quiet (pa : Nat) (b : UInt8) : Quiet (memset m pa b) := by simp [memset]

@[simp] theorem kfree_quiet (pa : Nat) : Quiet (kfree Λ m pa) := by simp [kfree]

@[simp] theorem copyPage_quiet (mem pa : Nat) : Quiet (copyPage m mem pa) := by simp [copyPage]

@[simp] theorem allocTable_quiet : Quiet (allocTable Λ m) := by simp [allocTable]

@[simp] theorem walk_quiet (va : Nat) (alloc : Bool) : Quiet (walk Λ pt m va alloc) := by
  have h2 : ∀ pt m i, Quiet (walkLevel2 Λ pt m i alloc) := by simp [walkLevel2, Option.forall]
  have h1 : ∀ pt m i j, Quiet (walkLevel1 Λ pt m i j alloc) := by simp [walkLevel1, Option.forall]
  simp [walk, h2, h1]

@[simp] theorem mappages_quiet (va size pa perm : Nat) : Quiet (mappages Λ pt m va size pa perm) := by
  have hloop : ∀ last n pt m a pa, Quiet (mapLoop Λ perm last n pt m a pa) := by
    intro last n
    induction n with
    | zero => simp [mapLoop]
    | succ n ih => simp [mapLoop, ih]
  simp [mappages, hloop]

@[simp] theorem uvmunmap_quiet (va npages : Nat) (doFree : Bool) : Quiet (uvmunmap Λ pt m va npages doFree) := by
  have hloop : ∀ n pt m a, Quiet (unmapLoop Λ doFree n pt m a) := by
    intro n
    induction n with
    | zero => simp [unmapLoop]
    | succ n ih => simp [unmapLoop, ih]
  simp [uvmunmap, hloop]

@[simp] theorem uvmcreate_quiet : Quiet (uvmcreate Λ m) := by simp [uvmcreate]

@[simp] theorem uvmdealloc_quiet (oldsz newsz : Nat) : Quiet (uvmdealloc Λ pt m oldsz newsz) := by simp [uvmdealloc]

@[simp] theorem uvmalloc_quiet (oldsz newsz : Nat) : Quiet (uvmalloc Λ pt m oldsz newsz) := by
  have hloop : ∀ oldsz n pt m a, Quiet (allocLoop Λ oldsz n pt m a) := by
    intro oldsz n
    induction n with
    | zero => simp [allocLoop]
    | succ n ih => simp [allocLoop, ih]
  simp [uvmalloc, hloop]

@[simp] theorem freeSubs_quiet {τ : Type} {free : τ → Mem → Except Panic Mem} (hfree : ∀ t m, Quiet (free t m))
    (sub : Nat → Option τ) (n : Nat) : Quiet (freeSubs free sub n m) := by
  induction n generalizing m with
  | zero => simp [freeSubs]
  | succ n ih =>
    refine abortsIn_bind.mpr ⟨ih m, fun m' _ => ?_⟩
    cases sub n with
    | none => simp
    | some t => exact hfree t m'

@[simp] theorem freewalk_quiet : Quiet (freewalk Λ pt m) := by
  have hleaves : ∀ (pte : Nat → Nat) n, Quiet (freeLeaves pte n) := by
    intro pte n
    induction n with
    | zero => simp [freeLeaves]
    | succ n ih => simp [freeLeaves, ih]
  have h0 : ∀ t m, Quiet (freewalk0 Λ t m) := by simp [freewalk0, hleaves]
  have h1 : ∀ t m, Quiet (freewalk1 Λ t m) := by simp [freewalk1, h0]
  simp [freewalk, h1]

@[simp] theorem uvmfree_quiet (sz : Nat) : Quiet (uvmfree Λ pt m sz) := by simp [uvmfree]

@[simp] theorem uvmclear_quiet (va : Nat) : Quiet (uvmclear Λ pt m va) := by simp [uvmclear]

@[simp] theorem uvmcopy_quiet (old : PageTable) (sz : Nat) : Quiet (uvmcopy Λ old pt m sz) := by
  have hloop : ∀ n new m i, Quiet (uvmcopyLoop Λ old n new m i) := by
    intro n
    induction n with
    | zero => simp [uvmcopyLoop]
    | succ n ih => simp [uvmcopyLoop, ih]
  simp [uvmcopy, hloop]

/-! ## Processes -/

@[simp] theorem procPagetable_quiet (tf : Nat) : Quiet (procPagetable Λ m tf) := by
  simp [procPagetable, Option.forall]

@[simp] theorem procFreepagetable_quiet (sz : Nat) : Quiet (procFreepagetable Λ pt m sz) := by simp [procFreepagetable]

@[simp] theorem freeproc_quiet (p : Proc) : Quiet (freeproc Λ p m) := by
  unfold freeproc
  cases p.pagetable <;> simp

@[simp] theorem allocproc_quiet (k : Kernel) : Quiet (allocproc Λ k) := by
  unfold allocproc
  split <;> simp [Option.forall]

@[simp] theorem growproc_quiet (k : Kernel) (i : Nat) (n : Int) : Quiet (growproc Λ k i n) := by
  unfold growproc
  dsimp only
  split <;> simp

@[simp] theorem wait_quiet (k : Kernel) (i addr : Nat) : Quiet (wait Λ k i addr) := by
  unfold wait
  dsimp only
  split
  · split
    · simp
    · split <;> simp
  · simp

@[simp] theorem execImage_quiet (tf size : Nat) (data : Nat → UInt8) (argv : List (List UInt8)) :
    Quiet (execImage Λ m tf size data argv) := by
  have hseg : ∀ pt va offset sz n i ram, Quiet (loadsegLoop pt size data va offset sz n i ram) := by
    intro pt va offset sz n
    induction n with
    | zero => simp [loadsegLoop]
    | succ n ih => simp [loadsegLoop, ih]
  have hload : ∀ n off sz pt m, Quiet (execLoad Λ size data n off sz pt m) := by
    intro n
    induction n with
    | zero => simp [execLoad]
    | succ n ih =>
      intro off sz pt m
      unfold execLoad
      split <;> simp [ih, loadseg, hseg]
  unfold execImage
  split <;> simp [Option.forall, hload]

/-! ## Inodes -/

@[simp] theorem iput_quiet (fs : Fs) (o : Option Nat) : Quiet (iput io fs o) := (iput_refs io fs o).abortsIn

@[simp] theorem ilock_quiet (fs : Fs) (o : Option Nat) : Quiet (ilock fs o) := (ilock_refs fs o).abortsIn

@[simp] theorem idup_quiet (fs : Fs) (o : Option Nat) : Quiet (idup fs o) := (idup_refs fs o).abortsIn

@[simp] theorem itrunc_quiet (fs : Fs) (i : Nat) : Quiet (itrunc io fs i) := (itrunc_refs io fs i).abortsIn

@[simp] theorem writei_quiet (fs : Fs) (i : Nat) (get : Nat → (Nat → UInt8) → Nat → Bool × (Nat → UInt8)) (off n : Nat) :
    Quiet (writei io fs i get off n) := (writei_refs io fs i get off n).abortsIn

@[simp] theorem namei_quiet (fs : Fs) (cwd : Option Nat) (path : List UInt8) : Quiet (namei io fs cwd path) :=
  (namei_refs io fs cwd path).abortsIn

@[simp] theorem openInode_quiet (fs : Fs) (cwd : Option Nat) (path : List UInt8) (omode : Nat) :
    Quiet (openInode io fs cwd path omode) := (openInode_refs io fs cwd path omode).abortsIn

@[simp] theorem exec_quiet (k : Kernel) (i : Nat) (path : List UInt8) (argv : List (List UInt8)) :
    Quiet (exec Λ io k i path argv) := by
  cases hpt : (k.proc i).pagetable <;> simp [exec, hpt, Option.forall]

@[simp] theorem sysChdir_quiet (k : Kernel) (i : Nat) (path : Option (List UInt8)) : Quiet (sysChdir io k i path) := by
  cases path <;> simp [sysChdir, Option.forall]

@[simp] theorem exitDone_quiet (k : Kernel) (i : Nat) (status : Int) : Quiet (exitDone io k i status) := by simp [exitDone]

/-! ## Mappings -/

@[simp] theorem munmapFind_quiet (V : Nat → Vma) (addr length n : Nat) (prev act : Option Nat) :
    Quiet (munmapFind V addr length n prev act) := by
  induction n generalizing prev act with
  | zero => simp [munmapFind]
  | succ n ih => cases act <;> simp [munmapFind, ih]

@[simp] theorem writeBack_quiet (F : Nat → File) (v : Vma) (ram : Nat → Nat → UInt8) (fs : Fs) (j page : Nat) :
    Quiet (writeBack io F v pt ram fs j page) := by
  unfold writeBack
  split
  · simp
  · rename_i f _
    cases (F f).ip <;> simp

@[simp] theorem munmapPages_quiet (F : Nat → File) (v : Vma) (addr n j : Nat) (fs : Fs) :
    Quiet (munmapPages Λ io F v addr n j pt m fs) := by
  induction n generalizing j pt m fs with
  | zero => simp [munmapPages]
  | succ n ih => simp [munmapPages, ih]

@[simp] theorem munmapResize_quiet (k : Kernel) (i a : Nat) (prev : Option Nat) (addr length : Nat) :
    Quiet (munmapResize k i a prev addr length) := by
  have hfree : Quiet (freeVma k i a prev) := by
    unfold freeVma
    split <;> simp
  simp [munmapResize, hfree]

@[simp] theorem munmap_quiet (k : Kernel) (i addr length : Nat) : Quiet (munmap Λ io k i addr length) := by
  refine abortsIn_ite.mpr ⟨by simp, fun _ => abortsIn_bind.mpr ⟨by simp, fun found _ => ?_⟩⟩
  rcases found with _ | ⟨prev, a⟩
  · simp
  · dsimp only
    split <;> simp

@[simp] theorem exitUnmap_quiet (k : Kernel) (i : Nat) : Quiet (exitUnmap Λ io k i) := by
  unfold exitUnmap
  split <;> simp

@[simp] theorem sysMmap_quiet (k : Kernel) (i length prot flag fd : Nat) : Quiet (sysMmap k i length prot flag fd) := by
  have hmap : Quiet (mmap k i length prot flag fd) := by
    have hmay : ∀ o, Quiet (mayShare k o) := by simp [Option.forall, mayShare]
    unfold mmap
    simp only [abortsIn_bind, abortsIn_ite, hmay, abortsIn_pure, abortsIn_throw]
    refine ⟨by simp, fun _ _ => ⟨by simp, fun _ => ⟨by simp, fun _ => ⟨by simp, fun _ => ?_⟩⟩⟩⟩
    split
    · simp
    · split <;> simp
  simp [sysMmap, hmap]

@[simp] theorem forkVmas_quiet (np n : Nat) (k : Kernel) (act : Option Nat) (c : Nat) (last : Option Nat) :
    Quiet (forkVmas np n k act c last) := by
  induction n generalizing k act c last with
  | zero => simp [forkVmas]
  | succ n ih =>
    unfold forkVmas
    split
    · split
      · simp
      · exact ih _ _ _ _
    · split
      · simp
      split
      · simp
      · split
        · simp
        · exact ih _ _ _ _

@[simp] theorem readPage_quiet (k : Kernel) (v : Vma) (va : Nat) : Quiet (readPage k v pt m va) := by
  unfold readPage
  cases v.ofile with
  | none => simp
  | some f =>
    refine abortsIn_bind.mpr ⟨by simp, fun fs _ => ?_⟩
    cases (k.ftable f).ip with
    | none => simp
    | some ip => exact abortsIn_pure _

@[simp] theorem faultFind_quiet (V : Nat → Vma) (va n : Nat) (act : Option Nat) : Quiet (faultFind V va n act) := by
  induction n generalizing act with
  | zero => simp [faultFind]
  | succ n ih => cases act <;> simp [faultFind, ih]

/-! ## Files -/

theorem filedup_quiet {k : Kernel} {f : Nat} (h : 1 ≤ (k.ftable f).ref) : Quiet (filedup k f) := by
  have hn : ¬(k.ftable f).ref < 1 := by omega
  simp [filedup, hn]

theorem fileclose_quiet {k : Kernel} {f : Nat} (h : 1 ≤ (k.ftable f).ref) : Quiet (fileclose Λ io k f) := by
  have hn : ¬(k.ftable f).ref < 1 := by omega
  have hrel : ∀ k ff, Quiet (fileRelease Λ io k ff) := by
    intro k ff
    unfold fileRelease
    split <;> simp [pipeclose]
  simp [fileclose, hn, hrel]

end Xv6Mmap

import Xv6Mmap.Lemmas.MkfsFiles
import Xv6Mmap.Lib.Outcome

/-!
# Whether the image is consistent

`mkfs` takes inodes and blocks from two counters and checks neither. An inode is handed out even when there are `NINODES` already. The
blocks cannot run over, since a block past the end of the image cannot be read. At the end the size of the root directory is rounded up
to the next block, also when it ends at a block boundary, and then it has a block without an address.
-/

namespace Xv6Mmap.Blk

variable {st st' : Mkfs} {x n : Nat} {din : Bytes} {files : List HostFile}

/-- What the kernel assumes of the image, with the inodes that `mkfs` handed out. -/
structure Consistent (st : Mkfs) : Prop where
  inodes : ∀ x, 1 ≤ x → x < st.freeinode → x < mkNinodes
  blocks : ∀ o b, (volOf mkSb st.image).Holds o b → nmeta ≤ b ∧ b < fsSize
  marked : ∀ b < fsSize, (volOf mkSb st.image).used b = true ↔ b < nmeta ∨ ∃ o, (volOf mkSb st.image).Holds o b
  once : ∀ o o' b, (volOf mkSb st.image).Holds o b → (volOf mkSb st.image).Holds o' b → o = o'
  covered : ∀ x, (volOf mkSb st.image).live x → ∀ bn, bn * bsize < (volOf mkSb st.image).size x → (volOf mkSb st.image).block x bn ≠ 0

theorem consistent_of_sound (h : (volOf mkSb st.image).Sound mkSb) (hn : st.freeinode ≤ mkNinodes) : Consistent st where
  inodes := fun _ _ hx => lt_of_lt_of_le hx hn
  blocks := fun _ _ hb => ⟨mkSb_datastart ▸ h.datastart_le hb, h.lt_size hb⟩
  marked := fun b _ =>
    ⟨fun hb => (h.full.total b hb).imp_left fun hlt => mkSb_datastart ▸ hlt,
      fun hb => hb.elim (fun hlt => h.full.rest b (mkSb_datastart ▸ hlt)) fun ⟨_, ho⟩ => h.used_of_holds ho⟩
  once := h.full.inj
  covered := h.covered

/-! ## The counter of the inodes -/

section

variable (st)

theorem winode_freeinode (x : Nat) (din : Bytes) : Ends (st.winode x din) (fun st' => st'.freeinode = st.freeinode) anyAbort :=
  ends_bind (Q := fun _ => True) (ends_of_forall_ok fun _ _ => trivial) fun _ _ => ends_pure rfl

theorem fill_freeinode (d : Bytes) (o : Nat) : (st.fill d o).2.freeinode = st.freeinode := by
  unfold Mkfs.fill
  split <;> rfl

theorem fileBlock_freeinode (din : Bytes) (bn : Nat) :
    Ends (st.fileBlock din bn) (fun r => r.2.2.freeinode = st.freeinode) anyAbort := by
  unfold Mkfs.fileBlock
  split
  · exact ends_pure (fill_freeinode st _ _)
  · refine ends_bind (Q := fun _ => True) (ends_of_forall_ok fun _ _ => trivial) fun d _ => ends_pure ?_
    split
    · exact (fill_freeinode _ _ _).trans (fill_freeinode st _ _)
    · exact (fill_freeinode _ _ _).trans (fill_freeinode st _ _)

theorem iappendLoop_freeinode (fuel : Nat) (st : Mkfs) (din : Bytes) (off : Nat) (p : List UInt8) :
    Ends (Mkfs.iappendLoop fuel st din off p) (fun r => r.1.freeinode = st.freeinode) anyAbort := by
  induction fuel generalizing st din off p with
  | zero => exact ends_pure rfl
  | succ fuel ih =>
    refine ends_ite (fun _ => ends_pure rfl) fun _ => ends_ite (fun _ => ?_) fun _ => ends_throw trivial
    refine ends_bind (fileBlock_freeinode st din _) fun r hr => ?_
    refine ends_bind (Q := fun _ => True) (ends_of_forall_ok fun _ _ => trivial) fun buf _ => ?_
    exact ends_imp (ih _ _ _ _) fun r' hr' => hr'.trans hr

theorem iappend_freeinode (x : Nat) (p : List UInt8) : Ends (st.iappend x p) (fun st' => st'.freeinode = st.freeinode) anyAbort := by
  refine ends_bind (Q := fun _ => True) (ends_of_forall_ok fun _ _ => trivial) fun din _ => ?_
  refine ends_bind (iappendLoop_freeinode _ st din _ p) fun r hr => ?_
  exact ends_imp (winode_freeinode r.1 x _) fun st' h => h.trans hr

theorem ialloc_freeinode (type : Nat) : Ends (st.ialloc type) (fun r => r.2.freeinode = st.freeinode + 1) anyAbort :=
  ends_bind (winode_freeinode _ _ _) fun _ h => ends_pure h

theorem appendAll_freeinode (x : Nat) (ps : List { l : List UInt8 // 0 < l.length ∧ l.length ≤ bsize }) (st : Mkfs) :
    Ends (Mkfs.appendAll x ps st) (fun st' => st'.freeinode = st.freeinode) anyAbort := by
  induction ps generalizing st with
  | nil => exact ends_pure rfl
  | cons p ps ih => exact ends_bind (iappend_freeinode st x p.1) fun st1 h => ends_imp (ih st1) fun _ h' => h'.trans h

theorem addFile_freeinode (f : HostFile) : Ends (st.addFile f) (fun st' => st'.freeinode = st.freeinode + 1) anyAbort := by
  refine ends_ite (fun _ => ends_throw trivial) fun _ => ?_
  rcases f.pieces with _ | ps
  · exact ends_throw trivial
  refine ends_bind (ialloc_freeinode st tFile) fun r hr => ?_
  refine ends_bind (iappend_freeinode r.2 _ _) fun st2 h2 => ?_
  exact ends_imp (appendAll_freeinode r.1 ps st2) fun st' h => h.trans (h2.trans hr)

theorem addFiles_freeinode (files : List HostFile) (st : Mkfs) :
    Ends (Mkfs.addFiles files st) (fun st' => st'.freeinode = st.freeinode + files.length) anyAbort := by
  induction files generalizing st with
  | nil => exact ends_pure rfl
  | cons f files ih =>
    refine ends_bind (addFile_freeinode st f) fun st1 h => ends_imp (ih st1) fun st' h' => ?_
    rw [h', List.length_cons]
    omega

end

theorem mkfs_freeinode (files : List HostFile) : Ends (mkfs files) (fun st => st.freeinode = files.length + 2) anyAbort := by
  refine ends_bind (ialloc_freeinode blankImage tDir) fun r hr => ends_ite (fun _ => ?_) fun _ => ends_throw trivial
  refine ends_bind (iappend_freeinode r.2 _ _) fun st1 h1 => ?_
  refine ends_bind (iappend_freeinode st1 _ _) fun st2 h2 => ?_
  refine ends_bind (addFiles_freeinode files st2) fun st3 h3 => ?_
  have hfix : Ends st3.fixRoot (fun st => st.freeinode = st3.freeinode) anyAbort :=
    ends_bind (Q := fun _ => True) (ends_of_forall_ok fun _ _ => trivial) fun _ _ => winode_freeinode _ _ _
  refine ends_bind hfix fun st4 h4 => ends_ite (fun _ => ends_pure ?_) fun _ => ends_throw trivial
  have hblank : blankImage.freeinode = 1 := rfl
  show st4.freeinode = files.length + 2
  omega

/-! ## The size of the root directory -/

theorem Finished.covered_iff (h : MkFiles st (files.length + 1) mkTypes (mkContents files)) (hf : Finished st st') :
    (∀ bn, bn * bsize < (volOf mkSb st'.image).size rootIno → (volOf mkSb st'.image).block rootIno bn ≠ 0) ↔
      (files.length + 2) % 64 ≠ 0 := by
  have hlive : st.vol.live rootIno := (h.live _).mpr ⟨le_rfl, Nat.le_add_left ..⟩
  have hsize : st.vol.size rootIno = 16 * (files.length + 2) :=
    (h.size _ le_rfl (Nat.le_add_left ..)).trans (rootBytes_length files)
  have hfew := h.few
  have hsize' : (volOf mkSb st'.image).size rootIno = roundedSize (16 * (files.length + 2)) := by
    rw [hf.vol, hsize]
    exact Vol.setSize_size
  have hblock : ∀ bn, (volOf mkSb st'.image).block rootIno bn = st.vol.block rootIno bn := fun bn => by rw [hf.vol]; rfl
  simp only [hsize', hblock, roundedSize]
  constructor
  · intro hcov hmod
    refine hcov (16 * (files.length + 2) / bsize) (by simp only [bsize]; omega) ?_
    refine h.inv.tight _ hlive _ ?_ ?_
    · simp only [bsize, maxfile, ndirect, nindirect, mkNinodes] at hfew ⊢
      omega
    · simp only [bsize]
      omega
  · intro hmod bn hbn
    refine h.inv.sound.covered _ hlive bn ?_
    simp only [bsize] at hbn ⊢
    omega

/-- The image is consistent when there are inodes for all files and the last block of the root directory is not full. -/
theorem Finished.consistent_iff (h : MkFiles st (files.length + 1) mkTypes (mkContents files)) (hf : Finished st st') :
    Consistent st' ↔ (files.length + 2) % 64 ≠ 0 := by
  have hlive : st.vol.live rootIno := (h.live _).mpr ⟨le_rfl, Nat.le_add_left ..⟩
  have hcov := hf.covered_iff h
  constructor
  · intro hc
    exact hcov.mp (hc.covered rootIno (by rw [hf.vol]; exact hlive))
  intro hmod
  refine consistent_of_sound ?_ (by rw [hf.freeinode, h.freeinode]; exact h.few)
  have hall := hcov.mpr hmod
  rw [hf.vol] at hall ⊢
  refine h.inv.sound.setSize ?_ fun _ m hm => hall m ?_
  · have hfew := h.few
    have hsize : st.vol.size rootIno = 16 * (files.length + 2) :=
      (h.size _ le_rfl (Nat.le_add_left ..)).trans (rootBytes_length files)
    show roundedSize _ ≤ 274432
    simp only [roundedSize, bsize, mkNinodes] at hfew ⊢
    omega
  · exact Nat.lt_of_lt_of_eq hm Vol.setSize_size.symm

/-- The images of `mkfs` are consistent exactly when there is an inode below `NINODES` for each file, and the entries of the root
directory, `.` and `..` included, do not fill its last block. -/
theorem mkfs_consistent_iff {files : List HostFile} {st : Mkfs} (h : mkfs files = .ok st) :
    Consistent st ↔ files.length + 1 < mkNinodes ∧ (files.length + 2) % 64 ≠ 0 := by
  by_cases hn : files.length + 1 < mkNinodes
  · rw [and_iff_right hn]
    rcases mkfs_cases files hn with ⟨-, -, st0, st', he, hm, hf⟩ | ⟨-, e, he⟩
    · rw [h] at he
      cases he
      exact hf.consistent_iff hm
    · rw [h] at he
      cases he
  · refine iff_of_false (fun hc => hn ?_) fun hc => hn hc.1
    have hfree := (mkfs_freeinode files).of_ok h
    exact hc.inodes (files.length + 1) (Nat.le_add_left ..) (by omega)

/-- When `k` copies of a file fit. -/
theorem fits_replicate (f : HostFile) (k : Nat) : Fits ((List.replicate k f).length + 1) (mkContents (List.replicate k f)) ↔
    nmeta + (blocksFor (16 * (k + 2)) + k * blocksFor f.bytes.length) ≤ fsSize ∧
      16 * (k + 2) ≤ maxFileBytes ∧ (0 < k → f.bytes.length ≤ maxFileBytes) := by
  rw [List.length_replicate]
  have hroot : (mkContents (List.replicate k f) 1).length = 16 * (k + 2) := by
    rw [mkContents, rootBytes_length, List.length_replicate]
  have hfile : ∀ i < k, (mkContents (List.replicate k f) (i + 2)).length = f.bytes.length := by
    intro i hi
    simp [mkContents, hi]
  have hsum : ∑ x ∈ Finset.Icc 1 (k + 1), blocksFor (mkContents (List.replicate k f) x).length =
      blocksFor (16 * (k + 2)) + k * blocksFor f.bytes.length := by
    have hrest : ∀ x ∈ Finset.Ioc 1 (k + 1), blocksFor (mkContents (List.replicate k f) x).length = blocksFor f.bytes.length := by
      intro x hx
      have hx' := Finset.mem_Ioc.mp hx
      obtain ⟨i, rfl⟩ : ∃ i, x = i + 2 := ⟨x - 2, by omega⟩
      rw [hfile i (by omega)]
    rw [Finset.Icc_eq_cons_Ioc (Nat.le_add_left ..), Finset.sum_cons, hroot, Finset.sum_const_nat hrest, Nat.card_Ioc,
      Nat.add_sub_cancel]
  constructor
  · intro h
    refine ⟨hsum ▸ h.blocks, hroot ▸ h.sizes 1 le_rfl (Nat.le_add_left ..), fun hk => ?_⟩
    rw [← hfile 0 hk]
    exact h.sizes 2 (by decide) (by omega)
  · rintro ⟨hblocks, hr, hf⟩
    refine ⟨by rw [hsum]; exact hblocks, fun x hx hxk => ?_⟩
    rcases x with _ | _ | i
    · exact absurd hx (by decide)
    · rw [hroot]
      exact hr
    · rw [hfile i (by omega)]
      exact hf (by omega)

/-- A file of `n` full blocks. -/
def fullBlocks (n : Nat) : HostFile :=
  ⟨[97], some (List.replicate n ⟨List.replicate bsize 0, by rw [List.length_replicate]; decide⟩)⟩

theorem fullBlocks_usable (n k : Nat) : ∀ f ∈ List.replicate k (fullBlocks n), f.Usable := by
  intro f hf
  rw [List.eq_of_mem_replicate hf]
  exact ⟨show slash ∉ Mkfs.shortname [97] by decide, rfl⟩

/-- What `k` empty files come to. -/
theorem mkfs_empty_files {k : Nat} (hk : k + 1 < mkNinodes) :
    ∃ st st', mkfs (List.replicate k ⟨[97], some []⟩) = .ok st' ∧
      MkFiles st ((List.replicate k (fullBlocks 0)).length + 1) mkTypes (mkContents (List.replicate k (fullBlocks 0))) ∧
      Finished st st' := by
  have hroot : 16 * (k + 2) ≤ 4096 := by
    simp only [mkNinodes] at hk
    omega
  have hblocks : nmeta + blocksFor (16 * (k + 2)) ≤ fsSize :=
    le_trans (Nat.add_le_add_left (blocksFor_mono hroot) _) (by decide)
  refine (mkfs_cases _ (by rwa [List.length_replicate])).elim (fun h => h.2.2) fun h => absurd ⟨fullBlocks_usable 0 k, ?_⟩ h.1
  exact (fits_replicate _ k).mpr ⟨hblocks, le_trans hroot (by decide), fun _ => Nat.zero_le _⟩

/-- With three empty files the image is consistent. -/
theorem mkfs_consistent_three : ∃ st, mkfs (List.replicate 3 ⟨[97], some []⟩) = .ok st ∧ Consistent st := by
  obtain ⟨-, st, he, -, -⟩ := mkfs_empty_files (k := 3) (by decide)
  exact ⟨st, he, (mkfs_consistent_iff he).mpr (by decide)⟩

/-- With 62 files the root directory has 64 entries, which fill its only block, and its size becomes two blocks. -/
theorem mkfs_full_directory : ∃ st, mkfs (List.replicate 62 ⟨[97], some []⟩) = .ok st ∧ ¬ Consistent st := by
  obtain ⟨st0, st, he, hm, hf⟩ := mkfs_empty_files (k := 62) (by decide)
  exact ⟨st, he, fun hc => absurd ((hf.consistent_iff hm).mp hc) (by decide)⟩

/-- As long as there are inodes for them, `mkfs` makes an image of exactly the lists of files that can all be opened, have a short name
without a slash, are of at most `MAXFILE` blocks and need no more blocks, with the root directory, than there are after the bitmap. -/
theorem mkfs_succeeds_iff (files : List HostFile) (hn : files.length + 1 < mkNinodes) :
    (∃ st, mkfs files = .ok st) ↔ (∀ f ∈ files, f.Usable) ∧ Fits (files.length + 1) (mkContents files) := by
  rcases mkfs_cases files hn with ⟨husable, hfits, -, st, he, -⟩ | ⟨hno, e, he⟩
  · exact ⟨fun _ => ⟨husable, hfits⟩, fun _ => ⟨st, he⟩⟩
  · refine ⟨?_, fun h => absurd h hno⟩
    rintro ⟨st, hst⟩
    rw [hst] at he
    cases he

/-- One file that cannot be opened, one that fits, and four that need more blocks than there are. -/
theorem mkfs_succeeds_iff_demo : (¬∃ st, mkfs [⟨[97], none⟩] = .ok st) ∧ (∃ st, mkfs (List.replicate 1 (fullBlocks 1)) = .ok st) ∧
    ¬∃ st, mkfs (List.replicate 4 (fullBlocks 268)) = .ok st := by
  have hlen : ∀ n, (fullBlocks n).bytes.length = n * bsize := fun n => by simp [HostFile.bytes, fullBlocks, joined]
  refine ⟨fun h => ?_, (mkfs_succeeds_iff _ (by decide)).mpr ⟨fullBlocks_usable 1 1, ?_⟩, fun h => ?_⟩
  · simpa [HostFile.Usable] using ((mkfs_succeeds_iff _ (by decide)).mp h).1
  · rw [fits_replicate, hlen]
    decide
  · have hfits := ((mkfs_succeeds_iff _ (by decide)).mp h).2
    rw [fits_replicate, hlen] at hfits
    exact absurd hfits (by decide)

end Xv6Mmap.Blk

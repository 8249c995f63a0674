import Xv6Mmap.Sysfile
import Mathlib.Algebra.Group.Pi.Basic
import Mathlib.Tactic.Abel

/-!
# References to inodes

What the functions of `fs.c` do to the counts of the inode table: each adds one reference for an inode it returns, `iput` takes one
away, and the others leave the counts alone. None of them stops in `filedup` or `fileclose`.
-/

namespace Xv6Mmap

/-- An abort other than the panics of `filedup` and `fileclose`. -/
def NotFile (e : Panic) : Prop := e ≠ .filedup ∧ e ≠ .fileclose

instance (e : Panic) : Decidable (NotFile e) := inferInstanceAs (Decidable (_ ∧ _))

/-- The counts of the inode table. -/
def Fs.refs (fs : Fs) (j : Nat) : Int := (fs.itable j).ref

/-- One reference to entry `i`. -/
def one (i : Nat) : Nat → Int := Pi.single i 1

theorem refs_setInode (fs : Fs) (i : Nat) (ip : Inode) (d : Int) (h : ip.ref = (fs.itable i).ref + d) :
    (fs.setInode i ip).refs = fs.refs + Pi.single i d := by
  funext j
  by_cases hj : j = i
  · subst hj
    simp [Fs.refs, Fs.setInode, h]
  · simp [Fs.refs, Fs.setInode, hj]

theorem refs_setInode_same (fs : Fs) (i : Nat) (ip : Inode) (h : ip.ref = (fs.itable i).ref) : (fs.setInode i ip).refs = fs.refs := by
  rw [refs_setInode fs i ip 0 (by rw [h, add_zero]), Pi.single_zero, add_zero]

/-! ## Writes to the table and the disk -/

section Fields

variable (fs : Fs) (i : Nat) (ip : Inode) (dev inum : Nat) (d : Dinode)

@[simp] theorem setInode_self : (fs.setInode i ip).itable i = ip := Function.update_self ..

@[simp] theorem setInode_of_ne {j : Nat} (h : j ≠ i) : (fs.setInode i ip).itable j = fs.itable j := Function.update_of_ne h ..

@[simp] theorem setDinode_itable : (fs.setDinode dev inum d).itable = fs.itable := rfl

@[simp] theorem setDinode_self : (fs.setDinode dev inum d).disk dev inum = d := by simp [Fs.setDinode]

@[simp] theorem setDinode_of_ne {x : Nat} (h : x ≠ inum) : (fs.setDinode dev inum d).disk dev x = fs.disk dev x := by
  simp [Fs.setDinode, h]

end Fields

/-- `iget` counts up the entry of the inode, or gives it a free one. -/
theorem iget_cases {fs fs' : Fs} {dev inum i : Nat} (h : iget fs dev inum = .ok (i, fs')) : i < ninode ∧
    ((0 < (fs.itable i).ref ∧ (fs.itable i).dev = dev ∧ (fs.itable i).inum = inum ∧
        fs' = fs.setInode i { fs.itable i with ref := (fs.itable i).ref + 1 }) ∨
      ((fs.itable i).ref = 0 ∧ (∀ i' < ninode, 0 < (fs.itable i').ref → ¬((fs.itable i').dev = dev ∧ (fs.itable i').inum = inum)) ∧
        fs' = fs.setInode i { fs.itable i with dev := dev, inum := inum, ref := 1, valid := false })) := by
  unfold iget at h
  split at h
  · rename_i i0 hfound
    cases h
    obtain ⟨hlt, hp⟩ := firstSlot_some hfound
    simp only [Bool.and_eq_true, decide_eq_true_eq, beq_iff_eq] at hp
    exact ⟨hlt, Or.inl ⟨hp.1.1, hp.1.2, hp.2, rfl⟩⟩
  · rename_i hnone
    split at h
    · cases h
    rename_i i0 hfree
    cases h
    obtain ⟨hlt, hp⟩ := firstSlot_some hfree
    refine ⟨hlt, Or.inr ⟨beq_iff_eq.mp hp, fun i' hi' hpos he => ?_, rfl⟩⟩
    have hno := firstSlot_none hnone hi'
    simp [hpos, he.1, he.2] at hno

/-! ## Counts -/

section Entries

variable (io : Bool) (fs : Fs) (i : Nat)

theorem iget_refs (dev inum : Nat) : Ends (iget fs dev inum) (fun r => r.2.refs = fs.refs + one r.1) NotFile := by
  unfold iget
  split
  · exact ends_pure (refs_setInode fs _ _ 1 rfl)
  split
  · exact ends_throw (by decide)
  · rename_i j hj
    have h0 : (fs.itable j).ref = 0 := by simpa using (firstSlot_some hj).2
    exact ends_pure (refs_setInode fs j _ 1 (by rw [h0]; rfl))

theorem idup_refs (o : Option Nat) : Ends (idup fs o) (fun fs' => ∃ i, o = some i ∧ fs'.refs = fs.refs + one i) NotFile := by
  cases o with
  | none => exact ends_throw (by decide)
  | some i => exact ends_pure ⟨i, rfl, refs_setInode fs i _ 1 rfl⟩

theorem iupdate_refs : Ends (iupdate io fs i) (fun fs' => fs'.refs = fs.refs) NotFile :=
  ends_ite (fun _ => ends_pure rfl) fun _ => ends_throw (by decide)

theorem ilock_refs (o : Option Nat) : Ends (ilock fs o) (fun fs' => fs'.refs = fs.refs) NotFile := by
  cases o with
  | none => exact ends_throw (by decide)
  | some i =>
    refine ends_ite (fun _ => ends_throw (by decide)) fun _ => ?_
    refine ends_ite (fun _ => ends_pure rfl) fun _ => ?_
    refine ends_ite (fun _ => ends_throw (by decide)) fun _ => ?_
    exact ends_pure (refs_setInode_same fs i _ rfl)

theorem itrunc_refs : Ends (itrunc io fs i) (fun fs' => fs'.refs = fs.refs) NotFile :=
  ends_imp (iupdate_refs io _ i) fun _ h => h.trans (refs_setInode_same fs i _ rfl)

theorem ifree_refs : Ends (ifree io fs i) (fun fs' => fs'.refs = fs.refs) NotFile := by
  refine ends_bind (itrunc_refs io fs i) fun fs1 h1 => ?_
  refine ends_bind (iupdate_refs io _ i) fun fs2 h2 => ?_
  have h3 : fs2.refs = fs1.refs := h2.trans (refs_setInode_same fs1 i _ rfl)
  refine ends_pure (Eq.trans ?_ (h3.trans h1))
  exact refs_setInode_same fs2 i { fs2.itable i with valid := false } rfl

theorem iput_refs (o : Option Nat) : Ends (iput io fs o) (fun fs' => ∃ i, o = some i ∧ fs'.refs = fs.refs - one i) NotFile := by
  cases o with
  | none => exact ends_throw (by decide)
  | some i =>
    have hfree : Ends (if (fs.itable i).ref = 1 ∧ (fs.itable i).valid = true ∧ (fs.itable i).info.nlink = 0 then ifree io fs i
        else pure fs) (fun fs' => fs'.refs = fs.refs) NotFile :=
      ends_ite (fun _ => ifree_refs io fs i) fun _ => ends_pure rfl
    refine ends_bind hfree fun fs1 h1 => ends_pure ⟨i, rfl, ?_⟩
    have hneg : Pi.single i (-1) = -one i := by
      funext j
      by_cases hj : j = i
      · subst hj
        simp [one]
      · simp [one, hj]
    rw [refs_setInode fs1 i _ (-1) rfl, h1, hneg, ← sub_eq_add_neg]

theorem iput_some_refs : Ends (iput io fs (some i)) (fun fs' => fs'.refs = fs.refs - one i) NotFile :=
  ends_imp (iput_refs io fs (some i)) fun _ ⟨_, e, h⟩ => by
    cases e
    exact h

theorem ialloc_refs (dev type : Nat) : Ends (ialloc io fs dev type) (fun r => r.2.refs = fs.refs + one r.1) NotFile := by
  unfold ialloc
  split
  · exact ends_throw (by decide)
  · refine ends_ite (fun _ => ?_) fun _ => ends_throw (by decide)
    exact iget_refs _ dev _

theorem writei_refs (get : Nat → (Nat → UInt8) → Nat → Bool × (Nat → UInt8)) (off n : Nat) :
    Ends (writei io fs i get off n) (fun r => r.2.refs = fs.refs) NotFile := by
  refine ends_ite (fun _ => ends_pure rfl) fun _ => ?_
  refine ends_ite (fun _ => ends_pure rfl) fun _ => ?_
  refine ends_bind (iupdate_refs io _ i) fun fs1 h1 => ends_pure ?_
  exact h1.trans (refs_setInode_same _ i _ rfl)

end Entries

/-! ## Directories and paths -/

section Paths

variable (io : Bool) (fs : Fs)

theorem dirScan_aborts (size : Nat) (data : Nat → UInt8) (name : List UInt8) (n off : Nat) :
    Ends (dirScan size data name n off) (fun _ => True) NotFile := by
  induction n generalizing off with
  | zero => exact ends_pure trivial
  | succ n ih =>
    unfold dirScan
    split
    · exact ends_throw (by decide)
    · refine ends_ite (fun _ => ih _) fun _ => ends_ite (fun _ => ends_pure trivial) fun _ => ih _

theorem dirFree_aborts (size : Nat) (data : Nat → UInt8) (n off : Nat) : Ends (dirFree size data n off) (fun _ => True) NotFile := by
  induction n generalizing off with
  | zero => exact ends_pure trivial
  | succ n ih =>
    unfold dirFree
    split
    · exact ends_throw (by decide)
    · exact ends_ite (fun _ => ends_pure trivial) fun _ => ih _

/-- The references to the inode that a call returns, if it does. -/
def oneOf : Option Nat → Nat → Int
  | none => 0
  | some i => one i

theorem oneOf_apply (o : Option Nat) (j : Nat) : oneOf o j = if o = some j then 1 else 0 := by
  cases o with
  | none => rfl
  | some i =>
    by_cases h : i = j
    · subst h
      simp [oneOf, one]
    · simp [oneOf, one, h, Ne.symm h]

theorem oneOf_nonneg (o : Option Nat) (j : Nat) : 0 ≤ oneOf o j := by
  rw [oneOf_apply]
  split
  · exact Int.one_nonneg
  · exact le_refl 0

theorem dirlookup_refs (dp : Nat) (name : List UInt8) :
    Ends (dirlookup fs dp name) (fun r => r.2.refs = fs.refs + oneOf r.1) NotFile := by
  refine ends_ite (fun _ => ends_throw (by decide)) fun _ => ?_
  refine ends_bind (dirScan_aborts _ _ _ _ _) fun found _ => ?_
  rcases found with _ | ⟨off, inum⟩
  · exact ends_pure (by simp [oneOf])
  · exact ends_bind (iget_refs fs _ inum) fun r h => ends_pure h

theorem dirlink_refs (dp : Nat) (name : List UInt8) (inum : Nat) :
    Ends (dirlink io fs dp name inum) (fun r => r.2.refs = fs.refs) NotFile := by
  refine ends_bind (dirlookup_refs fs dp name) ?_
  rintro ⟨found, fs1⟩ h1
  cases found with
  | some i =>
    refine ends_bind (iput_some_refs io fs1 i) fun fs2 h2 => ends_pure ?_
    rw [h2, h1]
    exact add_sub_cancel_right _ _
  | none =>
    have h1' : fs1.refs = fs.refs := h1.trans (add_zero _)
    refine ends_bind (dirFree_aborts _ _ _ _) fun off _ => ?_
    refine ends_bind (writei_refs io fs1 dp _ off 16) fun r hr => ?_
    exact ends_ite (fun _ => ends_pure (hr.trans h1')) fun _ => ends_throw (by decide)

/-- The loop of `namex` trades its reference for one to the inode it ends at. -/
theorem namexLoop_refs (parent : Bool) (fuel ip : Nat) (path : List UInt8) :
    Ends (namexLoop io parent fuel fs ip path) (fun r => r.2.refs = fs.refs - one ip + oneOf (r.1.map (·.1))) NotFile := by
  induction fuel generalizing fs ip path with
  | zero => exact ends_throw (by decide)
  | succ fuel ih =>
    -- the walk stops here without an inode
    have hput : ∀ fs1 : Fs, fs1.refs = fs.refs → Ends (do
        let fs ← iput io fs1 (some ip)
        pure ((none : Option (Nat × List UInt8)), fs))
        (fun r => r.2.refs = fs.refs - one ip + oneOf (r.1.map (·.1))) NotFile := by
      intro fs1 h1
      refine ends_bind (iput_some_refs io fs1 ip) fun fs2 h2 => ends_pure ?_
      rw [h2, h1]
      exact (add_zero _).symm
    have hkeep : ∀ fs1 : Fs, fs1.refs = fs.refs → fs1.refs = fs.refs - one ip + one ip :=
      fun fs1 h1 => h1.trans (sub_add_cancel _ _).symm
    unfold namexLoop
    split
    · exact ends_ite (fun _ => hput fs rfl) fun _ => ends_pure (hkeep fs rfl)
    rename_i name rest _
    refine ends_bind (ilock_refs fs (some ip)) fun fs1 h1 => ?_
    refine ends_ite (fun _ => hput fs1 h1) fun _ => ends_ite (fun _ => ends_pure (hkeep fs1 h1)) fun _ => ?_
    refine ends_bind (dirlookup_refs fs1 ip name) ?_
    rintro ⟨next, fs2⟩ h2
    refine ends_bind (iput_some_refs io fs2 ip) fun fs3 h3 => ?_
    have h3' : fs3.refs = fs.refs + oneOf next - one ip := by rw [h3, h2, h1]
    cases next with
    | none =>
      refine ends_pure ?_
      rw [h3']
      simp only [oneOf, Option.map_none, add_zero]
    | some next =>
      refine ends_imp (ih fs3 next rest) fun r hr => ?_
      rw [hr, h3']
      simp only [oneOf]
      abel

theorem namex_refs (parent : Bool) (cwd : Option Nat) (path : List UInt8) :
    Ends (namex io parent fs cwd path) (fun r => r.2.refs = fs.refs + oneOf (r.1.map (·.1))) NotFile := by
  refine ends_ite (fun _ => ?_) fun _ => ?_
  · refine ends_bind (iget_refs fs rootDev rootIno) ?_
    rintro ⟨ip, fs1⟩ h1
    refine ends_imp (namexLoop_refs io fs1 parent _ ip path) fun r hr => ?_
    rw [hr, h1, add_sub_cancel_right]
  · refine ends_bind (idup_refs fs cwd) fun fs1 ⟨ip, hip, h1⟩ => ?_
    subst hip
    refine ends_imp (namexLoop_refs io fs1 parent _ ip path) fun r hr => ?_
    rw [hr, h1, add_sub_cancel_right]

theorem namei_refs (cwd : Option Nat) (path : List UInt8) :
    Ends (namei io fs cwd path) (fun r => r.2.refs = fs.refs + oneOf r.1) NotFile :=
  ends_bind (namex_refs io fs false cwd path) fun _ h => ends_pure h

theorem createDots_refs (ip dp : Nat) : Ends (createDots io fs ip dp) (fun fs' => fs'.refs = fs.refs) NotFile := by
  refine ends_bind (iupdate_refs io _ dp) fun fs1 h1 => ?_
  have h1' : fs1.refs = fs.refs := h1.trans (refs_setInode_same fs dp _ rfl)
  refine ends_bind (dirlink_refs io fs1 ip _ _) ?_
  rintro ⟨ok, fs2⟩ h2
  refine ends_ite (fun _ => ends_throw (by decide)) fun _ => ?_
  refine ends_bind (dirlink_refs io fs2 ip _ _) ?_
  rintro ⟨ok', fs3⟩ h3
  exact ends_ite (fun _ => ends_throw (by decide)) fun _ => ends_pure (h3.trans (h2.trans h1'))

theorem create_refs (cwd : Option Nat) (path : List UInt8) (type : Nat) (major minor : Int) :
    Ends (create io fs cwd path type major minor) (fun r => r.2.refs = fs.refs + oneOf r.1) NotFile := by
  refine ends_bind (namex_refs io fs true cwd path) ?_
  rintro ⟨r, fs1⟩ h1
  rcases r with _ | ⟨dp, name⟩
  · exact ends_pure h1
  refine ends_bind (ilock_refs fs1 (some dp)) fun fs2 h2 => ?_
  refine ends_bind (dirlookup_refs fs2 dp name) ?_
  rintro ⟨found, fs3⟩ h3
  have h3' : fs3.refs = fs.refs + one dp + oneOf found := by rw [h3, h2, h1]; rfl
  cases found with
  | some ip =>
    refine ends_bind (iput_some_refs io fs3 dp) fun fs4 h4 => ?_
    refine ends_bind (ilock_refs fs4 (some ip)) fun fs5 h5 => ?_
    have h5' : fs5.refs = fs.refs + one ip := by
      rw [h5, h4, h3']
      abel
    refine ends_ite (fun _ => ends_pure h5') fun _ => ?_
    refine ends_bind (iput_some_refs io fs5 ip) fun fs6 h6 => ends_pure ?_
    rw [h6, h5', add_sub_cancel_right]
    exact (add_zero _).symm
  | none =>
    refine ends_bind (ialloc_refs io fs3 _ type) ?_
    rintro ⟨ip, fs4⟩ h4
    refine ends_bind (ilock_refs fs4 (some ip)) fun fs5 h5 => ?_
    refine ends_bind (iupdate_refs io _ ip) fun fs6 h6 => ?_
    have h6' : fs6.refs = fs5.refs := h6.trans (refs_setInode_same fs5 ip _ rfl)
    have hdots : Ends (if type = tDir then createDots io fs6 ip dp else pure fs6) (fun fs' => fs'.refs = fs6.refs) NotFile :=
      ends_ite (fun _ => createDots_refs io fs6 ip dp) fun _ => ends_pure rfl
    refine ends_bind hdots fun fs7 h7 => ?_
    refine ends_bind (dirlink_refs io fs7 dp name _) ?_
    rintro ⟨ok, fs8⟩ h8
    refine ends_ite (fun _ => ends_throw (by decide)) fun _ => ?_
    refine ends_bind (iput_some_refs io fs8 dp) fun fs9 h9 => ends_pure ?_
    have h8' : fs8.refs = fs.refs + one dp + one ip := by
      rw [h8, h7, h6', h5, h4, h3']
      simp only [oneOf, add_zero]
    rw [h9, h8']
    abel

theorem openInode_refs (cwd : Option Nat) (path : List UInt8) (omode : Nat) :
    Ends (openInode io fs cwd path omode) (fun r => r.2.refs = fs.refs + oneOf r.1) NotFile := by
  refine ends_ite (fun _ => create_refs io fs cwd path tFile 0 0) fun _ => ?_
  refine ends_bind (namei_refs io fs cwd path) ?_
  rintro ⟨r, fs1⟩ h1
  cases r with
  | none => exact ends_pure h1
  | some ip =>
    refine ends_bind (ilock_refs fs1 (some ip)) fun fs2 h2 => ?_
    have h2' : fs2.refs = fs.refs + one ip := h2.trans h1
    refine ends_ite (fun _ => ?_) fun _ => ends_pure h2'
    refine ends_bind (iput_some_refs io fs2 ip) fun fs3 h3 => ends_pure ?_
    rw [h3, h2', add_sub_cancel_right]
    exact (add_zero _).symm

end Paths

end Xv6Mmap

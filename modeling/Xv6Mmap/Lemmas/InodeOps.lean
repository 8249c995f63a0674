import Xv6Mmap.NameTree
import Xv6Mmap.Lemmas.Inodes
import Mathlib.Tactic.Linarith

/-!
# The inode table as a cache

`Coherent`: the inode table is a cache of the inodes of the root device. Entries with references have different inodes, the fields of
a valid entry are those on the disk, and an inode without links is referenced by a valid entry. Every function of the layer keeps it,
does one of the operations on trees, and keeps the inode of an entry with a reference (`Keep`).
-/

namespace Xv6Mmap

open Function

/-- The range of a `short`. -/
def IsShort (n : Int) : Prop := -32768 ≤ n ∧ n ≤ 32767

theorem isShort_one : IsShort 1 := ⟨by decide, by decide⟩

theorem isShort_toShort (n : Int) : IsShort (toShort n) := by
  unfold IsShort toShort
  omega

theorem toShort_of_isShort {n : Int} (h : IsShort n) : toShort n = n := by
  unfold IsShort at h
  unfold toShort
  omega

theorem toShort_add_sub {n : Int} (h : IsShort n) : toShort (toShort (n + 1) + -1) = n := by
  unfold IsShort at h
  unfold toShort
  omega

/-- The inode table is a cache of the inodes of the root device. -/
structure Coherent (fs : Fs) : Prop where
  nonneg : ∀ j, 0 ≤ fs.refs j
  lt : ∀ j, 0 < fs.refs j → j < ninode
  dev : ∀ j, 0 < fs.refs j → (fs.itable j).dev = rootDev
  inj : ∀ j k, 0 < fs.refs j → 0 < fs.refs k → (fs.itable j).inum = (fs.itable k).inum → j = k
  copy : ∀ j, 0 < fs.refs j → (fs.itable j).valid = true →
    (fs.itable j).info = (fs.disk rootDev (fs.itable j).inum).info ∧ fs.tree.type (fs.itable j).inum ≠ 0
  anchored : ∀ x, fs.tree.type x ≠ 0 → fs.tree.nlink x = 0 →
    ∃ j, 0 < fs.refs j ∧ (fs.itable j).inum = x ∧ (fs.itable j).valid = true
  sized : ∀ x, fs.tree.type x = tDir → DirSized (fs.disk rootDev x).info.size
  short : ∀ x, IsShort (fs.tree.nlink x)
  range : ∀ x, fs.tree.type x ≠ 0 → 0 < x ∧ x < fs.ninodes
  small : fs.ninodes ≤ 65536

/-- The entries with a reference in `b` keep their inode, and stay valid. -/
def Keep (b : Nat → Int) (fs fs' : Fs) : Prop :=
  ∀ j, 0 < b j → 0 < fs'.refs j ∧ (fs'.itable j).inum = (fs.itable j).inum ∧
    ((fs.itable j).valid = true → (fs'.itable j).valid = true)

/-- Entry `i` is a referenced and valid copy of inode `x`. -/
structure Locked (fs : Fs) (i x : Nat) : Prop where
  ref : 0 < fs.refs i
  inum : (fs.itable i).inum = x
  valid : (fs.itable i).valid = true

section Basics

variable {fs fs' fs'' : Fs} {b b' : Nat → Int} {i x : Nat}

theorem Keep.trans (h : Keep b fs fs') (h' : Keep b fs' fs'') : Keep b fs fs'' := by
  intro j hj
  obtain ⟨-, hnum, hval⟩ := h j hj
  obtain ⟨hpos, hnum', hval'⟩ := h' j hj
  exact ⟨hpos, hnum'.trans hnum, fun hv => hval' (hval hv)⟩

theorem Keep.mono (h : Keep b fs fs') (hb : ∀ j, 0 < b' j → 0 < b j) : Keep b' fs fs' := fun j hj => h j (hb j hj)

theorem Keep.refl (h : ∀ j, 0 < b j → 0 < fs.refs j) : Keep b fs fs := fun j hj => ⟨h j hj, rfl, id⟩

theorem Locked.keep (h : Locked fs i x) (hk : Keep b fs fs') (hi : 0 < b i) : Locked fs' i x := by
  obtain ⟨hpos, hnum, hval⟩ := hk i hi
  exact ⟨hpos, hnum.trans h.inum, hval h.valid⟩

end Basics

/-! ## Changes to the table and the disk -/

section Changes

variable {fs : Fs} {i x : Nat} {ip : Inode} {d : Dinode}

@[simp] theorem refs_setInode_self : (fs.setInode i ip).refs i = ip.ref := by rw [Fs.refs, setInode_self]

@[simp] theorem refs_setInode_of_ne {j : Nat} (h : j ≠ i) : (fs.setInode i ip).refs j = fs.refs j := by
  rw [Fs.refs, Fs.refs, setInode_of_ne fs i ip h]

theorem setInode_forall {P : Nat → Inode → Prop} (hi : P i ip) (h : ∀ j, j ≠ i → P j (fs.itable j)) :
    ∀ j, P j ((fs.setInode i ip).itable j) := (forall_update_iff fs.itable P).mpr ⟨hi, h⟩

theorem setDinode_forall {P : Nat → Dinode → Prop} (hx : P x d) (h : ∀ z, z ≠ x → P z (fs.disk rootDev z)) (z : Nat) :
    P z ((fs.setDinode rootDev x d).disk rootDev z) := by
  by_cases e : z = x
  · subst e
    rwa [setDinode_self]
  · rw [setDinode_of_ne fs rootDev x d e]
    exact h z e

theorem keep_setInode (hi : 0 < fs.refs i → 0 < ip.ref ∧ ip.inum = (fs.itable i).inum ∧ ((fs.itable i).valid = true → ip.valid = true)) :
    Keep fs.refs fs (fs.setInode i ip) :=
  setInode_forall (P := fun j e => 0 < fs.refs j → 0 < e.ref ∧ e.inum = (fs.itable j).inum ∧ ((fs.itable j).valid = true → e.valid = true))
    hi fun _ _ hj => ⟨hj, rfl, id⟩

theorem Coherent.sole (h : Coherent fs) (hi : 0 < fs.refs i) : ∀ j, j ≠ i → 0 < fs.refs j → (fs.itable j).inum ≠ (fs.itable i).inum :=
  fun j hj hpos he => hj (h.inj j i hpos hi he)

@[simp] theorem tree_setInode : (fs.setInode i ip).tree = fs.tree := rfl

theorem tree_setDinode : (fs.setDinode rootDev x d).tree =
    ⟨update fs.tree.type x d.info.type, update fs.tree.nlink x d.info.nlink, update fs.tree.len x d.len,
      update fs.tree.slot x d.slot⟩ := by
  have hat : ∀ {β : Type} (g : Dinode → β), (fun z => g ((fs.setDinode rootDev x d).disk rootDev z)) =
      update (fun z => g (fs.disk rootDev z)) x (g d) := by
    intro β g
    funext z
    by_cases e : z = x
    · subst e
      rw [setDinode_self, update_self]
    · rw [setDinode_of_ne fs rootDev x d e, update_of_ne e]
  unfold Fs.tree
  rw [hat fun d => d.info.type, hat fun d => d.info.nlink, hat Dinode.len, hat Dinode.slot]

/-- An entry that changes stays the only one of its inode, and a copy if valid. -/
theorem Coherent.setInode (h : Coherent fs) (hnonneg : 0 ≤ ip.ref)
    (hlive : 0 < ip.ref → i < ninode ∧ ip.dev = rootDev ∧ (∀ j, j ≠ i → 0 < fs.refs j → (fs.itable j).inum ≠ ip.inum) ∧
      (ip.valid = true → ip.info = (fs.disk rootDev ip.inum).info ∧ fs.tree.type ip.inum ≠ 0))
    (hanchor : 0 < fs.refs i → (fs.itable i).valid = true → fs.tree.type (fs.itable i).inum ≠ 0 →
      fs.tree.nlink (fs.itable i).inum = 0 → 0 < ip.ref ∧ ip.inum = (fs.itable i).inum ∧ ip.valid = true) :
    Coherent (fs.setInode i ip) where
  nonneg := setInode_forall (P := fun _ e => 0 ≤ e.ref) hnonneg fun j _ => h.nonneg j
  lt := setInode_forall (P := fun j e => 0 < e.ref → j < ninode) (fun hi => (hlive hi).1) fun j _ => h.lt j
  dev := setInode_forall (P := fun _ e => 0 < e.ref → e.dev = rootDev) (fun hi => (hlive hi).2.1) fun j _ => h.dev j
  inj := by
    refine setInode_forall (P := fun j e => ∀ k, 0 < e.ref → 0 < (fs.setInode i ip).refs k →
      e.inum = ((fs.setInode i ip).itable k).inum → j = k) ?_ fun j ej => ?_
    · exact setInode_forall (P := fun k e => 0 < ip.ref → 0 < e.ref → ip.inum = e.inum → i = k) (fun _ _ _ => rfl)
        fun k ek hi hk he => absurd he.symm ((hlive hi).2.2.1 k ek hk)
    · exact setInode_forall (P := fun k e => 0 < fs.refs j → 0 < e.ref → (fs.itable j).inum = e.inum → j = k)
        (fun hj hi he => absurd he ((hlive hi).2.2.1 j ej hj)) fun k _ => h.inj j k
  copy := setInode_forall (P := fun _ e => 0 < e.ref → e.valid = true → e.info = (fs.disk rootDev e.inum).info ∧ fs.tree.type e.inum ≠ 0)
    (fun hi => (hlive hi).2.2.2) fun j _ => h.copy j
  anchored := by
    intro x htype hlink
    obtain ⟨j, hj, hnum, hv⟩ := h.anchored x htype hlink
    by_cases e : j = i
    · subst e hnum
      obtain ⟨hpos, hnum', hv'⟩ := hanchor hj hv htype hlink
      exact ⟨j, by rwa [refs_setInode_self], by rwa [setInode_self], by rwa [setInode_self]⟩
    · exact ⟨j, by rwa [refs_setInode_of_ne e], by rwa [setInode_of_ne fs i ip e], by rwa [setInode_of_ne fs i ip e]⟩
  sized := h.sized
  short := h.short
  range := h.range
  small := h.small

/-- An entry written to its inode on the disk, as a valid copy. -/
def Fs.store (fs : Fs) (i x : Nat) (d : Dinode) : Fs :=
  (fs.setInode i { fs.itable i with valid := true, info := d.info }).setDinode rootDev x d

@[simp] theorem refs_store : (fs.store i x d).refs = fs.refs := refs_setInode_same fs i _ rfl

theorem tree_store : (fs.store i x d).tree =
    ⟨update fs.tree.type x d.info.type, update fs.tree.nlink x d.info.nlink, update fs.tree.len x d.len,
      update fs.tree.slot x d.slot⟩ := tree_setDinode

theorem store_itable : (fs.store i x d).itable i = { fs.itable i with valid := true, info := d.info } := setInode_self ..

theorem store_itable_of_ne {j : Nat} (h : j ≠ i) : (fs.store i x d).itable j = fs.itable j := setInode_of_ne fs i _ h

theorem store_disk : (fs.store i x d).disk rootDev x = d := setDinode_self ..

theorem store_disk_of_ne {z : Nat} (h : z ≠ x) : (fs.store i x d).disk rootDev z = fs.disk rootDev z :=
  setDinode_of_ne _ rootDev x d h

theorem store_keep : Keep fs.refs fs (fs.store i x d) := keep_setInode fun hi => ⟨hi, rfl, fun _ => rfl⟩

theorem Coherent.store (h : Coherent fs) (href : 0 < fs.refs i) (hnum : (fs.itable i).inum = x) (htype : d.info.type ≠ 0)
    (hsized : d.info.type = tDir → DirSized d.info.size) (hshort : IsShort d.info.nlink) (hrange : 0 < x ∧ x < fs.ninodes) :
    Coherent (fs.store i x d) where
  nonneg := by
    rw [refs_store]
    exact h.nonneg
  lt := by
    rw [refs_store]
    exact h.lt
  dev := setInode_forall (P := fun _ e => 0 < e.ref → e.dev = rootDev) (h.dev i) fun j _ => h.dev j
  inj := by
    have hsame : ∀ j, ((fs.store i x d).itable j).inum = (fs.itable j).inum :=
      setInode_forall (P := fun j e => e.inum = (fs.itable j).inum) rfl fun _ _ => rfl
    intro j k hj hk he
    rw [refs_store] at hj hk
    rw [hsame, hsame] at he
    exact h.inj j k hj hk he
  copy := by
    intro j hj hv
    rw [refs_store] at hj
    by_cases e : j = i
    · subst e
      rw [store_itable, tree_store, hnum, store_disk]
      exact ⟨rfl, by dsimp only; rw [update_self]; exact htype⟩
    · have hne : (fs.itable j).inum ≠ x := fun he => e (h.inj j i hj href (he.trans hnum.symm))
      rw [store_itable_of_ne e] at hv
      rw [store_itable_of_ne e, tree_store, store_disk_of_ne hne]
      refine ⟨(h.copy j hj hv).1, ?_⟩
      dsimp only
      rw [update_of_ne hne]
      exact (h.copy j hj hv).2
  anchored := by
    intro z hz hlink
    rw [tree_store] at hz hlink
    dsimp only at hz hlink
    rw [refs_store]
    by_cases e : z = x
    · subst e
      exact ⟨i, href, by rw [store_itable]; exact hnum, by rw [store_itable]⟩
    · rw [update_of_ne e] at hz hlink
      obtain ⟨j, hj, hnum', hv⟩ := h.anchored z hz hlink
      have hne : j ≠ i := fun ej => e (by rw [← hnum', ej, hnum])
      exact ⟨j, hj, by rw [store_itable_of_ne hne]; exact hnum', by rw [store_itable_of_ne hne]; exact hv⟩
  sized := setDinode_forall (P := fun _ d => d.info.type = tDir → DirSized d.info.size) hsized fun z _ => h.sized z
  short := setDinode_forall (P := fun _ d => IsShort d.info.nlink) hshort fun z _ => h.short z
  range := setDinode_forall (P := fun z d => d.info.type ≠ 0 → 0 < z ∧ z < fs.ninodes) (fun _ => hrange) fun z _ => h.range z
  small := h.small

/-- The last reference of entry `i` went away and its inode `x` with it. -/
def Fs.release (fs : Fs) (i x : Nat) : Fs :=
  let info := { (fs.itable i).info with type := 0, size := 0 }
  (fs.setInode i { fs.itable i with ref := (fs.itable i).ref - 1, valid := false, info := info }).setDinode rootDev x ⟨info, fun _ => 0⟩

theorem release_itable_of_ne {j : Nat} (h : j ≠ i) : (fs.release i x).itable j = fs.itable j := setInode_of_ne fs i _ h

theorem release_disk_of_ne {z : Nat} (h : z ≠ x) : (fs.release i x).disk rootDev z = fs.disk rootDev z :=
  setDinode_of_ne _ rootDev x _ h

theorem release_refs_of_ne {j : Nat} (h : j ≠ i) : (fs.release i x).refs j = fs.refs j := refs_setInode_of_ne h

theorem release_refs : (fs.release i x).refs i = fs.refs i - 1 := refs_setInode_self

theorem iput_last (io : Bool) (hdev : (fs.itable i).dev = rootDev) (hnum : (fs.itable i).inum = x)
    (hlast : (fs.itable i).ref = 1 ∧ (fs.itable i).valid = true ∧ (fs.itable i).info.nlink = 0) :
    iput io fs (some i) = if io = true then .ok (fs.release i x) else .error .blockLayer := by
  rw [iput, if_pos hlast]
  cases io with
  | false => rfl
  | true =>
    subst hnum
    simp [ifree, itrunc, iupdate, Fs.release, Fs.setInode, Fs.setDinode, Fs.dinode, hdev, update_idem, update_self,
      ok_bind, pure, Except.pure]

theorem tree_release (hlink : (fs.itable i).info.nlink = fs.tree.nlink x) : (fs.release i x).tree = fs.tree.freeAll {x} := by
  have hlen : (⟨{ (fs.itable i).info with type := 0, size := 0 }, fun _ => 0⟩ : Dinode).len = 0 := rfl
  rw [Fs.release, tree_setDinode, tree_setInode, hlink, update_eq_self]
  refine NameTree.ext (funext fun z => ?_) rfl (funext fun z => ?_) (funext fun z => funext fun s => ?_)
  all_goals
    by_cases e : z = x
    · have hmem : z ∈ ({x} : Set Nat) := e
      subst e
      simp [hmem, Dinode.slot, hlen]
    · have hmem : z ∉ ({x} : Set Nat) := e
      simp [hmem, e]

theorem Coherent.release (h : Coherent fs) (hl : Locked fs i x) (hone : fs.refs i = 1) : Coherent (fs.release i x) := by
  have hzero : (fs.release i x).refs i = 0 := by rw [release_refs, hone]; rfl
  -- the entries with references are others, of other inodes
  have hother : ∀ j, 0 < (fs.release i x).refs j → j ≠ i ∧ 0 < fs.refs j ∧ (fs.itable j).inum ≠ x := by
    intro j hj
    have e : j ≠ i := fun e => hj.ne' (e ▸ hzero)
    rw [release_refs_of_ne e] at hj
    exact ⟨e, hj, fun hn => e (h.inj j i hj hl.ref (hn.trans hl.inum.symm))⟩
  constructor
  case nonneg =>
    exact setInode_forall (P := fun _ e => 0 ≤ e.ref) (Int.sub_nonneg_of_le (hone ▸ le_rfl : (1 : Int) ≤ fs.refs i)) fun j _ => h.nonneg j
  case lt => exact fun j hj => h.lt j (hother j hj).2.1
  case dev =>
    intro j hj
    obtain ⟨e, hpos, -⟩ := hother j hj
    rw [release_itable_of_ne e]
    exact h.dev j hpos
  case inj =>
    intro j k hj hk he
    obtain ⟨ej, hj', -⟩ := hother j hj
    obtain ⟨ek, hk', -⟩ := hother k hk
    rw [release_itable_of_ne ej, release_itable_of_ne ek] at he
    exact h.inj j k hj' hk' he
  case copy =>
    intro j hj hv
    obtain ⟨e, hpos, hne⟩ := hother j hj
    rw [release_itable_of_ne e] at hv
    show _ ∧ ((fs.release i x).disk rootDev _).info.type ≠ 0
    rw [release_itable_of_ne e, release_disk_of_ne hne]
    exact h.copy j hpos hv
  case anchored =>
    intro z hz hlink
    change ((fs.release i x).disk rootDev z).info.type ≠ 0 at hz
    change ((fs.release i x).disk rootDev z).info.nlink = 0 at hlink
    have hne : z ≠ x := fun e => by simp [e, Fs.release] at hz
    rw [release_disk_of_ne hne] at hz hlink
    obtain ⟨j, hj, hnum, hv⟩ := h.anchored z hz hlink
    have e : j ≠ i := fun e => hne (by rw [← hnum, e, hl.inum])
    exact ⟨j, by rwa [release_refs_of_ne e], by rwa [release_itable_of_ne e], by rwa [release_itable_of_ne e]⟩
  case sized => exact setDinode_forall (P := fun _ d => d.info.type = tDir → DirSized d.info.size) (fun e => nomatch e) fun z _ => h.sized z
  case short =>
    refine setDinode_forall (P := fun _ d => IsShort d.info.nlink) ?_ fun z _ => h.short z
    rw [(h.copy i hl.ref hl.valid).1]
    exact h.short _
  case range => exact setDinode_forall (P := fun z d => d.info.type ≠ 0 → 0 < z ∧ z < fs.ninodes) (absurd rfl) fun z _ => h.range z
  case small => exact h.small

end Changes

/-! ## The functions of the inode layer -/

/-- An abort that is not `ilock`'s panic about a free inode. -/
def NotNoType (e : Panic) : Prop := e ≠ .ilockNoType

instance (e : Panic) : Decidable (NotNoType e) := inferInstanceAs (Decidable (_ ≠ _))

/-- What a function leaves: a coherent table, the tree `t`, and the entries of `b` as they were. -/
structure Leaves (b : Nat → Int) (t : NameTree) (fs fs' : Fs) : Prop where
  coherent : Coherent fs'
  tree : fs'.tree = t
  keep : Keep b fs fs'

/-- A call that began in `fs` has the references `q` besides those that were there. -/
structure During (b : Nat → Int) (t : NameTree) (fs : Fs) (q : Nat → Int) (fs' : Fs) : Prop extends Leaves b t fs fs' where
  refs : fs'.refs = b + q
  more : ∀ j, 0 ≤ q j

section Functions

variable {fs fs' fs'' : Fs} {b q q' : Nat → Int} {t t' : NameTree} {io : Bool} {i x : Nat}

theorem Leaves.trans (h : Leaves b t fs fs') (h' : Leaves b t' fs' fs'') : Leaves b t' fs fs'' :=
  ⟨h'.coherent, h'.tree, h.keep.trans h'.keep⟩

theorem Leaves.mono {b' : Nat → Int} (h : Leaves b t fs fs') (hb : ∀ j, 0 < b' j → 0 < b j) : Leaves b' t fs fs' :=
  ⟨h.coherent, h.tree, h.keep.mono hb⟩

theorem Coherent.leaves (h : Coherent fs) : Leaves fs.refs fs.tree fs fs := ⟨h, rfl, Keep.refl fun _ hj => hj⟩

theorem Leaves.during (h : Leaves fs.refs t fs fs') (hr : fs'.refs = fs.refs) : During fs.refs t fs 0 fs' :=
  ⟨h, hr.trans (add_zero _).symm, fun _ => le_refl 0⟩

theorem During.le (h : During b t fs q fs') (j : Nat) : b j ≤ fs'.refs j := by
  rw [h.refs]
  exact le_add_of_nonneg_right (h.more j)

theorem During.pos (h : During b t fs q fs') {j : Nat} (hj : 0 < b j) : 0 < fs'.refs j := hj.trans_le (h.le j)

theorem During.pos_of_more (h : During b t fs q fs') (hb : ∀ j, 0 ≤ b j) (hi : 0 < q i) : 0 < fs'.refs i := by
  rw [h.refs]
  exact add_pos_of_nonneg_of_pos (hb i) hi

theorem During.trans (h : During b t fs q fs') (h' : During fs'.refs t' fs' q' fs'') : During b t' fs (q + q') fs'' := by
  refine ⟨h.toLeaves.trans (h'.toLeaves.mono fun j => h.pos), ?_, fun j => add_nonneg (h.more j) (h'.more j)⟩
  rw [h'.refs, h.refs, add_assoc]

theorem During.next (h : During b t fs q fs') (h' : During fs'.refs t' fs' 0 fs'') : During b t' fs q fs'' := by
  have := h.trans h'
  rwa [add_zero] at this

theorem Locked.during (hl : Locked fs i x) (d : During fs.refs t fs q fs') : Locked fs' i x := hl.keep d.keep hl.ref

theorem During.refs_eq (h : During b t fs 0 fs') : fs'.refs = b := h.refs.trans (add_zero b)

theorem Coherent.more (h : Coherent fs) (hi : 0 < fs.refs i) :
    Leaves fs.refs fs.tree fs (fs.setInode i { fs.itable i with ref := (fs.itable i).ref + 1 }) := by
  have hpos : 0 < (fs.itable i).ref + 1 := hi.trans (lt_add_one _)
  refine ⟨h.setInode hpos.le (fun _ => ⟨h.lt i hi, h.dev i hi, h.sole hi, h.copy i hi⟩) ?_, rfl, ?_⟩
  · exact fun _ hv _ _ => ⟨hpos, rfl, hv⟩
  · exact keep_setInode fun _ => ⟨hpos, rfl, id⟩

theorem iget_leaves (h : Coherent fs) (x : Nat) : Ends (iget fs rootDev x)
    (fun r => During fs.refs fs.tree fs (one r.1) r.2 ∧ (r.2.itable r.1).inum = x) NotNoType := by
  refine AbortsIn.ends (fun e he => ?_) fun r hr => ?_
  · unfold iget at he
    split at he
    · cases he
    · split at he
      · cases he
        decide
      · cases he
  · have hrefs := ((iget_refs fs rootDev x).of_ok hr)
    obtain ⟨i, fs'⟩ := r
    obtain ⟨hi, ⟨hpos, -, hnum, rfl⟩ | ⟨hzero, hnone, rfl⟩⟩ := iget_cases hr
    · exact ⟨⟨h.more hpos, hrefs, oneOf_nonneg (some i)⟩, by rw [setInode_self]; exact hnum⟩
    refine ⟨⟨⟨h.setInode Int.one_nonneg (fun _ => ⟨hi, rfl, ?_, fun hv => nomatch hv⟩) ?_, rfl, ?_⟩, hrefs, oneOf_nonneg (some i)⟩,
      by rw [setInode_self]⟩
    · exact fun j _ hj he => hnone j (h.lt j hj) hj ⟨h.dev j hj, he⟩
    · exact fun hpos => absurd hzero hpos.ne'
    · exact keep_setInode fun hpos => absurd hzero hpos.ne'

theorem idup_leaves (h : Coherent fs) (hi : 0 < fs.refs i) : Ends (idup fs (some i)) (During fs.refs fs.tree fs (one i)) NotNoType :=
  ends_pure ⟨h.more hi, refs_setInode fs i _ 1 rfl, oneOf_nonneg (some i)⟩

theorem ilock_locked (h : Locked fs i x) : ilock fs (some i) = .ok fs := by
  have hpos : 0 < (fs.itable i).ref := h.ref
  rw [ilock, if_neg (by omega), if_pos h.valid]
  rfl

section

variable (h : Coherent fs)

include h

/-- `ilock` fails on a free inode, and makes the entry a copy. -/
theorem ilock_leaves (hi : 0 < fs.refs i) (hnum : (fs.itable i).inum = x) : Ends (ilock fs (some i))
    (fun fs' => During fs.refs fs.tree fs 0 fs' ∧ Locked fs' i x) (fun e => e = .ilockNoType → fs.tree.type x = 0) := by
  have hpos : 0 < (fs.itable i).ref := hi
  have hdisk : fs.dinode i = fs.disk rootDev x := by rw [Fs.dinode, h.dev i hi, hnum]
  refine ends_ite (fun hlt => absurd hlt (by omega)) fun _ => ?_
  refine ends_ite (fun hv => ends_pure ⟨h.leaves.during rfl, hi, hnum, hv⟩) fun hv => ?_
  rw [hdisk]
  refine ends_ite (fun htype => ends_throw fun _ => htype) fun htype => ends_pure ?_
  refine ⟨Leaves.during ⟨h.setInode hpos.le (fun _ => ⟨h.lt i hi, h.dev i hi, h.sole hi, fun _ => ?_⟩) ?_, rfl, ?_⟩
    (refs_setInode_same fs i _ rfl), by rwa [refs_setInode_self], by rwa [setInode_self], by rw [setInode_self]⟩
  · rw [hnum]
    exact ⟨rfl, htype⟩
  · exact fun _ _ _ _ => ⟨hi, rfl, rfl⟩
  · exact keep_setInode fun _ => ⟨hi, rfl, fun _ => rfl⟩

/-- `iput`: the last reference frees an inode without links. -/
theorem iput_leaves (hi : 0 < fs.refs i) (hnum : (fs.itable i).inum = x) : Ends (iput io fs (some i))
    (fun fs' => Leaves fs'.refs (fs.tree.freeAll {z | z = x ∧ fs.refs i = 1 ∧ (fs.itable i).valid = true ∧ fs.tree.nlink x = 0}) fs fs' ∧
      fs'.refs = fs.refs - one i) NotNoType := by
  have hlinks : (fs.itable i).valid = true → (fs.itable i).info.nlink = fs.tree.nlink x := by
    intro hv
    rw [(h.copy i hi hv).1, hnum]
    rfl
  by_cases hc : (fs.itable i).ref = 1 ∧ (fs.itable i).valid = true ∧ (fs.itable i).info.nlink = 0
  · have hset : {z | z = x ∧ fs.refs i = 1 ∧ (fs.itable i).valid = true ∧ fs.tree.nlink x = 0} = {x} := by
      ext z
      exact ⟨fun hz => hz.1, fun hz => ⟨hz, hc.1, hc.2.1, (hlinks hc.2.1).symm.trans hc.2.2⟩⟩
    rw [iput_last io (h.dev i hi) hnum hc, hset]
    refine ends_ite (fun hio => ?_) fun _ => ends_error (by decide)
    refine ends_ok ⟨⟨h.release ⟨hi, hnum, hc.2.1⟩ hc.1, tree_release (hlinks hc.2.1), ?_⟩, ?_⟩
    · intro j hj
      have e : j ≠ i := by
        rintro rfl
        rw [release_refs, show fs.refs j = 1 from hc.1] at hj
        exact lt_irrefl _ hj
      rw [release_itable_of_ne e]
      exact ⟨hj, rfl, id⟩
    · exact (iput_some_refs io fs i).of_ok (by rw [iput_last io (h.dev i hi) hnum hc, if_pos hio])
  · have hset : {z | z = x ∧ fs.refs i = 1 ∧ (fs.itable i).valid = true ∧ fs.tree.nlink x = 0} = ∅ := by
      ext z
      refine ⟨fun hz => hc ⟨hz.2.1, hz.2.2.1, (hlinks hz.2.2.1).trans hz.2.2.2⟩, fun hz => hz.elim⟩
    have hpos : 0 < (fs.itable i).ref := hi
    have hput : iput io fs (some i) = .ok (fs.setInode i { fs.itable i with ref := (fs.itable i).ref - 1 }) := by
      rw [iput, if_neg hc]
      rfl
    rw [hset, NameTree.freeAll_empty, hput]
    refine ends_ok ⟨⟨h.setInode (by dsimp only; omega) (fun _ => ⟨h.lt i hi, h.dev i hi, h.sole hi, h.copy i hi⟩) ?_, rfl, ?_⟩, ?_⟩
    · intro _ hv _ hlink
      have hne : (fs.itable i).ref ≠ 1 := fun hone => hc ⟨hone, hv, by rw [hlinks hv, ← hnum]; exact hlink⟩
      exact ⟨by dsimp only; omega, rfl, hv⟩
    · exact setInode_forall (P := fun j e => 0 < e.ref → 0 < e.ref ∧ e.inum = (fs.itable j).inum ∧
        ((fs.itable j).valid = true → e.valid = true)) (fun hj => ⟨hj, rfl, id⟩) fun _ _ hj => ⟨hj, rfl, id⟩
    · exact (iput_some_refs io fs i).of_ok hput

theorem iput_keeps (hi : 0 < fs.refs i) (hnum : (fs.itable i).inum = x)
    (hkeep : (fs.itable i).valid = true → fs.tree.nlink x = 0 → fs.refs i ≠ 1) : Ends (iput io fs (some i))
    (fun fs' => Leaves fs'.refs fs.tree fs fs' ∧ fs'.refs = fs.refs - one i) NotNoType := by
  refine ends_imp (iput_leaves h hi hnum) fun fs' hfs => ?_
  have hset : {z | z = x ∧ fs.refs i = 1 ∧ (fs.itable i).valid = true ∧ fs.tree.nlink x = 0} = ∅ := by
    ext z
    exact ⟨fun hz => hkeep hz.2.2.1 hz.2.2.2 hz.2.1, fun hz => hz.elim⟩
  rwa [hset, NameTree.freeAll_empty] at hfs

/-! ## Writing to an inode -/

theorem iupdate_store (hl : Locked fs i x) (io : Bool) (d : Dinode) :
    iupdate io ((fs.setInode i { fs.itable i with info := d.info }).setDinode rootDev x ⟨(fs.disk rootDev x).info, d.data⟩) i =
      if io = true then .ok (fs.store i x d) else .error .blockLayer := by
  have hvalid : ({ fs.itable i with info := d.info } : Inode) = { fs.itable i with valid := true, info := d.info } := by
    rw [← hl.valid]
  cases io with
  | false => rfl
  | true =>
    rw [Fs.store, ← hvalid]
    simp [iupdate, Fs.setInode, Fs.setDinode, Fs.dinode, h.dev i hl.ref, hl.inum, update_idem]
    rfl

theorem iupdate_info (hl : Locked fs i x) (io : Bool) (info : InodeInfo) :
    iupdate io (fs.setInode i { fs.itable i with info := info }) i =
      if io = true then .ok (fs.store i x ⟨info, (fs.disk rootDev x).data⟩) else .error .blockLayer := by
  rw [← iupdate_store h hl io ⟨info, (fs.disk rootDev x).data⟩]
  simp [Fs.setDinode, Fs.setInode]

theorem addLink_leaves (hl : Locked fs i x) (n : Int) : Ends (iupdate io (fs.addLink i n) i)
    (During fs.refs (fs.tree.setNlink x (toShort (fs.tree.nlink x + n))) fs 0) NotNoType := by
  obtain ⟨hcopy, htype⟩ := h.copy i hl.ref hl.valid
  rw [hl.inum] at hcopy htype
  rw [Fs.addLink, hcopy, iupdate_info h hl]
  refine ends_ite (fun _ => ends_ok (Leaves.during ⟨?_, ?_, store_keep⟩ refs_store)) fun _ => ends_error (by decide)
  · exact h.store hl.ref hl.inum htype (h.sized x) (isShort_toShort _) (h.range x htype)
  rw [tree_store]
  refine NameTree.ext ?_ rfl ?_ ?_
  · exact update_eq_self x _
  · exact update_eq_self x _
  · exact update_eq_self x _

theorem itrunc_leaves (hl : Locked fs i x) (hfile : fs.tree.type x ≠ tDir) : Ends (itrunc io fs i)
    (During fs.refs fs.tree fs 0) NotNoType := by
  obtain ⟨hcopy, htype⟩ := h.copy i hl.ref hl.valid
  rw [hl.inum] at hcopy htype
  have hup : itrunc io fs i = if io = true then .ok (fs.store i x ⟨{ (fs.disk rootDev x).info with size := 0 }, fun _ => 0⟩)
      else .error .blockLayer := by
    rw [← iupdate_store h hl, itrunc, Fs.dinode, hcopy]
    simp only [h.dev i hl.ref, hl.inum]
  have hlen : ∀ d : Dinode, d.info.type ≠ tDir → d.len = 0 ∧ d.slot = fun _ => none := by
    intro d hd
    have hlen : d.len = 0 := if_neg hd
    refine ⟨hlen, funext fun s => ?_⟩
    rw [Dinode.slot, hlen, if_neg (Nat.not_lt_zero s)]
  have hnew := hlen ⟨{ (fs.disk rootDev x).info with size := 0 }, fun _ => 0⟩ hfile
  have hold := hlen (fs.disk rootDev x) hfile
  rw [hup]
  refine ends_ite (fun _ => ends_ok (Leaves.during ⟨?_, ?_, store_keep⟩ refs_store)) fun _ => ends_error (by decide)
  · exact h.store hl.ref hl.inum htype (fun hd => absurd hd hfile) (h.short x) (h.range x htype)
  · rw [tree_store]
    refine NameTree.ext (update_eq_self x _) (update_eq_self x _) ?_ ?_
    · exact update_eq_self_iff.mpr (hnew.1.trans hold.1.symm)
    · exact update_eq_self_iff.mpr (hnew.2.trans hold.2.symm)

theorem putSlot_store (hl : Locked fs i x) (s : Nat) (de : Nat → UInt8) : fs.putSlot i s de =
    fs.store i x ⟨{ (fs.disk rootDev x).info with size := max (fs.disk rootDev x).info.size (16 * s + 16) },
      setSlot (fs.disk rootDev x).data s de⟩ := by
  obtain ⟨hcopy, -⟩ := h.copy i hl.ref hl.valid
  rw [Fs.putSlot, Fs.store, Fs.data, Fs.dinode, hcopy]
  simp only [h.dev i hl.ref, hl.inum, hl.valid]

end

end Functions

end Xv6Mmap

import Xv6Mmap.Lemmas.Refs

/-!
# What holds the references to inodes

A file of type `FD_INODE` or `FD_DEVICE` holds a reference to its inode, and so does a process to its directory (`heldRefs`). What the
inode table counts beyond these is lost (`lostRefs`): nothing gives it back. A reference is lost only where a file that was never
released is allocated again. `FileMove` is what every call but `open` and `pipe` does to the file table, `Tidy` what those do that
release each file whose last reference they drop, and `FileStep` what every call does.
-/

namespace Xv6Mmap

open Function Kernel

/-- The inode a file holds a reference to. -/
def File.inode (f : File) : Option Nat :=
  match f.type with
  | .inode | .device => f.ip
  | .none | .pipe => none

/-- A file of type `FD_INODE` has an inode. -/
def File.HasInode (f : File) : Prop := f.type = .inode → f.ip.isSome = true

/-- The references to inodes that files and processes hold. -/
def heldRefs (k : Kernel) (j : Nat) : Int :=
  (refsTo (Finset.range nfile) (fun f => (k.ftable f).inode) j : Int) +
    refsTo (Finset.range nproc) (fun i => (k.proc i).cwd) j

/-- The references that the inode table counts and nothing holds. -/
def lostRefs (k : Kernel) : Nat → Int := k.fs.refs - heldRefs k

/-- Only entries of the file table have references. -/
def FilesIn (k : Kernel) : Prop := ∀ f, nfile ≤ f → (k.ftable f).ref = 0

/-- A file without references was released. -/
def Released (k : Kernel) : Prop := ∀ f, (k.ftable f).ref = 0 → (k.ftable f).type = .none

/-! ## Counting -/

section Counting

variable {k k' : Kernel}

theorem heldRefs_file {f : Nat} (hf : f < nfile) (hft : ∀ x, x ≠ f → (k'.ftable x).inode = (k.ftable x).inode)
    (hcwd : ∀ j, (k'.proc j).cwd = (k.proc j).cwd) :
    heldRefs k' = heldRefs k - oneOf (k.ftable f).inode + oneOf (k'.ftable f).inode := by
  funext j
  have h1 : refsTo (Finset.range nfile) (fun x => (k'.ftable x).inode) j + (if (k.ftable f).inode = some j then 1 else 0) =
      refsTo (Finset.range nfile) (fun x => (k.ftable x).inode) j + if (k'.ftable f).inode = some j then 1 else 0 :=
    refsTo_agree (Finset.mem_range.mpr hf) fun x _ hx => hft x hx
  have h2 : refsTo (Finset.range nproc) (fun i => (k'.proc i).cwd) j = refsTo (Finset.range nproc) (fun i => (k.proc i).cwd) j :=
    refsTo_congr fun x _ => hcwd x
  simp only [heldRefs, Pi.add_apply, Pi.sub_apply, oneOf_apply, h2]
  split_ifs at h1 ⊢ <;> omega

theorem heldRefs_cwd {i : Nat} (hi : i < nproc) (hft : ∀ x, (k'.ftable x).inode = (k.ftable x).inode)
    (hcwd : ∀ j, j ≠ i → (k'.proc j).cwd = (k.proc j).cwd) :
    heldRefs k' = heldRefs k - oneOf (k.proc i).cwd + oneOf (k'.proc i).cwd := by
  funext j
  have h1 : refsTo (Finset.range nproc) (fun x => (k'.proc x).cwd) j + (if (k.proc i).cwd = some j then 1 else 0) =
      refsTo (Finset.range nproc) (fun x => (k.proc x).cwd) j + if (k'.proc i).cwd = some j then 1 else 0 :=
    refsTo_agree (Finset.mem_range.mpr hi) fun x _ hx => hcwd x hx
  have h2 : refsTo (Finset.range nfile) (fun x => (k'.ftable x).inode) j = refsTo (Finset.range nfile) (fun x => (k.ftable x).inode) j :=
    refsTo_congr fun x _ => hft x
  simp only [heldRefs, Pi.add_apply, Pi.sub_apply, oneOf_apply, h2]
  split_ifs at h1 ⊢ <;> omega

theorem heldRefs_same (hft : ∀ x, (k'.ftable x).inode = (k.ftable x).inode) (hcwd : ∀ j, (k'.proc j).cwd = (k.proc j).cwd) :
    heldRefs k' = heldRefs k := by
  rw [heldRefs_file (f := 0) (by decide) (fun x _ => hft x) hcwd, hft]
  exact sub_add_cancel _ _

theorem lostRefs_same (hft : ∀ x, (k'.ftable x).inode = (k.ftable x).inode) (hcwd : ∀ j, (k'.proc j).cwd = (k.proc j).cwd)
    (hfs : k'.fs.refs = k.fs.refs) : lostRefs k' = lostRefs k := by
  rw [lostRefs, lostRefs, hfs, heldRefs_same hft hcwd]

/-- An inode that a file holds has a reference when all held ones are counted. -/
theorem refs_pos_of_held (hlost : ∀ j, 0 ≤ lostRefs k j) {f j : Nat} (hf : f < nfile) (hj : (k.ftable f).inode = some j) :
    1 ≤ k.fs.refs j := by
  have h1 : 0 < refsTo (Finset.range nfile) (fun x => (k.ftable x).inode) j := refsTo_pos (Finset.mem_range.mpr hf) hj
  have h2 := hlost j
  simp only [lostRefs, Pi.sub_apply, heldRefs] at h2
  omega

end Counting

/-! ## Changes of the file table -/

/-- A file changed in its count, its offset and its pipe only. -/
structure SameKind (f g : File) : Prop where
  type : g.type = f.type
  readable : g.readable = f.readable
  writable : g.writable = f.writable
  ip : g.ip = f.ip

theorem SameKind.refl (f : File) : SameKind f f := ⟨rfl, rfl, rfl, rfl⟩

theorem SameKind.trans {f g h : File} (h1 : SameKind f g) (h2 : SameKind g h) : SameKind f h :=
  ⟨h2.type.trans h1.type, h2.readable.trans h1.readable, h2.writable.trans h1.writable, h2.ip.trans h1.ip⟩

theorem SameKind.inode {f g : File} (h : SameKind f g) : g.inode = f.inode := by
  unfold File.inode
  rw [h.type, h.ip]

theorem SameKind.hasInode {f g : File} (h : SameKind f g) (hf : f.HasInode) : g.HasInode := by
  unfold File.HasInode
  rw [h.type, h.ip]
  exact hf

/-- Each file as before or released, none referenced anew, no reference to an inode lost. -/
structure FileMove (k k' : Kernel) : Prop where
  kind : ∀ f, SameKind (k.ftable f) (k'.ftable f) ∨ (k'.ftable f).ref = 0 ∧ (k'.ftable f).type = .none
  ref0 : ∀ f, (k.ftable f).ref = 0 → (k'.ftable f).ref = 0
  lost : lostRefs k' = lostRefs k

/-- The same, with each file released whose last reference went away. -/
structure Tidy (k k' : Kernel) : Prop extends FileMove k k' where
  free : ∀ f, (k'.ftable f).ref = 0 → (k.ftable f).ref = 0 ∨ (k'.ftable f).type = .none

/-- What every call does to the file table. -/
structure FileStep (k k' : Kernel) : Prop where
  within : FilesIn k → FilesIn k'
  kept : ∀ f, (k.ftable f).ref ≠ 0 → (k'.ftable f).ref ≠ 0 → SameKind (k.ftable f) (k'.ftable f)
  fresh : ∀ f, (k.ftable f).ref = 0 → (k'.ftable f).ref ≠ 0 → (k'.ftable f).HasInode
  lost : ∀ j, lostRefs k j ≤ lostRefs k' j
  exact : Released k → lostRefs k' = lostRefs k

section Moves

variable {k k' k'' : Kernel}

theorem FileMove.trans (h : FileMove k k') (h' : FileMove k' k'') : FileMove k k'' := by
  refine ⟨fun f => ?_, fun f hf => h'.ref0 f (h.ref0 f hf), h'.lost.trans h.lost⟩
  rcases h'.kind f with h2 | h2
  · rcases h.kind f with h1 | h1
    · exact Or.inl (h1.trans h2)
    · exact Or.inr ⟨h'.ref0 f h1.1, h2.type.trans h1.2⟩
  · exact Or.inr h2

theorem Tidy.trans (h : Tidy k k') (h' : Tidy k' k'') : Tidy k k'' := by
  refine ⟨h.toFileMove.trans h'.toFileMove, fun f hf => ?_⟩
  rcases h'.free f hf with h1 | h1
  · rcases h.free f h1 with h2 | h2
    · exact Or.inl h2
    · right
      rcases h'.kind f with h3 | h3
      · exact h3.type.trans h2
      · exact h3.2
  · exact Or.inr h1

theorem FileMove.within (h : FileMove k k') (hk : FilesIn k) : FilesIn k' := fun f hf => h.ref0 f (hk f hf)

theorem FileMove.step (h : FileMove k k') : FileStep k k' := by
  refine ⟨h.within, fun f _ hf => ?_, fun f hf hf' => absurd (h.ref0 f hf) hf', fun j => (congrFun h.lost j).ge,
    fun _ => h.lost⟩
  rcases h.kind f with h1 | h1
  · exact h1
  · exact absurd h1.1 hf

theorem Tidy.released (h : Tidy k k') (hk : Released k) : Released k' := by
  intro f hf
  rcases h.free f hf with h1 | h1
  · rcases h.kind f with h2 | h2
    · exact h2.type.trans (hk f h1)
    · exact h2.2
  · exact h1

theorem Tidy.of_same (hft : k'.ftable = k.ftable) (hcwd : ∀ j, (k'.proc j).cwd = (k.proc j).cwd)
    (hfs : k'.fs.refs = k.fs.refs) : Tidy k k' := by
  refine ⟨⟨fun f => ?_, fun f => ?_, lostRefs_same (fun x => by rw [hft]) hcwd hfs⟩, fun f hf => ?_⟩
  · rw [hft]
    exact Or.inl (SameKind.refl _)
  · rw [hft]
    exact id
  · rw [hft] at hf
    exact Or.inl hf

theorem Tidy.refl (k : Kernel) : Tidy k k := Tidy.of_same rfl (fun _ => rfl) rfl

theorem Tidy.upd {i : Nat} {p : Proc} {m : Mem} {fs : Fs} (hp : p.cwd = (k.proc i).cwd) (hfs : fs.refs = k.fs.refs) :
    Tidy k (k.upd i p m fs) := Tidy.of_same rfl (upd_field k i p m fs Proc.cwd hp) hfs

theorem Tidy.of_refs (hkind : ∀ f, k'.ftable f = { k.ftable f with ref := (k'.ftable f).ref })
    (href : ∀ f, (k'.ftable f).ref = 0 ↔ (k.ftable f).ref = 0) (hcwd : ∀ j, (k'.proc j).cwd = (k.proc j).cwd)
    (hfs : k'.fs.refs = k.fs.refs) : Tidy k k' := by
  have hk : ∀ f, SameKind (k.ftable f) (k'.ftable f) := fun f => by
    rw [hkind f]
    exact ⟨rfl, rfl, rfl, rfl⟩
  exact ⟨⟨fun f => Or.inl (hk f), fun f => (href f).mpr, lostRefs_same (fun x => (hk x).inode) hcwd hfs⟩,
    fun f hf => Or.inl ((href f).mp hf)⟩

theorem FileMove.recount {f : Nat} {n : Int} (hft : k'.ftable = update k.ftable f { k.ftable f with ref := n })
    (hn : (k.ftable f).ref = 0 → n = 0) (hcwd : ∀ j, (k'.proc j).cwd = (k.proc j).cwd) (hfs : k'.fs.refs = k.fs.refs) :
    FileMove k k' := by
  have hkind : ∀ x, SameKind (k.ftable x) (k'.ftable x) := by
    rw [hft]
    exact (forall_update_iff k.ftable fun x y => SameKind (k.ftable x) y).mpr ⟨⟨rfl, rfl, rfl, rfl⟩, fun x _ => SameKind.refl _⟩
  refine ⟨fun x => Or.inl (hkind x), ?_, lostRefs_same (fun x => (hkind x).inode) hcwd hfs⟩
  rw [hft]
  exact (forall_update_iff k.ftable fun x y => (k.ftable x).ref = 0 → y.ref = 0).mpr ⟨hn, fun _ _ => id⟩

theorem Tidy.recount {f : Nat} {n : Int} (hft : k'.ftable = update k.ftable f { k.ftable f with ref := n })
    (hn : n = 0 ↔ (k.ftable f).ref = 0) (hcwd : ∀ j, (k'.proc j).cwd = (k.proc j).cwd) (hfs : k'.fs.refs = k.fs.refs) :
    Tidy k k' := by
  refine ⟨FileMove.recount hft hn.mpr hcwd hfs, ?_⟩
  rw [hft]
  exact (forall_update_iff k.ftable fun x y => y.ref = 0 → (k.ftable x).ref = 0 ∨ y.type = .none).mpr
    ⟨fun h => Or.inl (hn.mp h), fun _ _ => Or.inl⟩

end Moves

/-! ## Closing files -/

section Closing

variable {Λ : Layout} {io : Bool} {k k' : Kernel} {i : Nat}

/-- What `fileclose` gives back at the end: the inode of the file. -/
theorem fileRelease_refs {ff : File} (h : fileRelease Λ io k ff = .ok k') : k'.fs.refs = k.fs.refs - oneOf ff.inode := by
  cases fileRelease_ok h with
  | pipe m pipes ht =>
    have hnone : ff.inode = none := by rcases ht with ht | ht <;> rw [File.inode, ht]
    rw [hnone]
    exact (sub_zero _).symm
  | inode fs ht hput =>
    have hip : ff.inode = ff.ip := by rcases ht with ht | ht <;> rw [File.inode, ht]
    obtain ⟨j, e, hj⟩ := (iput_refs io k.fs ff.ip).of_ok hput
    rw [hip, e]
    exact hj

theorem fileclose_tidy {f : Nat} (hin : FilesIn k) (h : fileclose Λ io k f = .ok k') : Tidy k k' := by
  have hfo := fileclose_fileOnly h
  have hcwd : ∀ j, (k'.proc j).cwd = (k.proc j).cwd := fun j => by rw [hfo.proc]
  cases fileclose_ok h with
  | shared href hk => exact Tidy.recount (by rw [hk]; rfl) (by omega) hcwd (by rw [hk]; rfl)
  | last href hk =>
    have hf : f < nfile := by
      by_contra hlt
      have := hin f (Nat.le_of_not_lt hlt)
      omega
    have hft : k'.ftable = update k.ftable f { k.ftable f with ref := 0, type := .none } := fileRelease_ftable hk
    refine ⟨⟨?_, ?_, ?_⟩, ?_⟩
    · rw [hft]
      exact (forall_update_iff k.ftable fun x y => SameKind (k.ftable x) y ∨ y.ref = 0 ∧ y.type = .none).mpr
        ⟨Or.inr ⟨rfl, rfl⟩, fun x _ => Or.inl (SameKind.refl _)⟩
    · rw [hft]
      exact (forall_update_iff k.ftable fun x y => (k.ftable x).ref = 0 → y.ref = 0).mpr ⟨fun _ => rfl, fun _ _ => id⟩
    · have hheld : heldRefs k' = heldRefs k - oneOf (k.ftable f).inode + oneOf (k'.ftable f).inode :=
        heldRefs_file hf (fun x hx => by rw [hft, update_of_ne hx]) hcwd
      have hrefs : k'.fs.refs = k.fs.refs - oneOf (k.ftable f).inode := (fileRelease_refs hk).trans rfl
      have hnone : (k'.ftable f).inode = none := by rw [hft, update_self]; rfl
      rw [lostRefs, lostRefs, hheld, hrefs, hnone]
      abel
    · rw [hft]
      exact (forall_update_iff k.ftable fun x y => y.ref = 0 → (k.ftable x).ref = 0 ∨ y.type = .none).mpr
        ⟨fun _ => Or.inr rfl, fun _ _ => Or.inl⟩

theorem tidy_setFd (k : Kernel) (i fd : Nat) (o : Option Nat) : Tidy k (k.setFd i fd o) :=
  Tidy.upd (i := i) (p := { k.proc i with ofile := update (k.proc i).ofile fd o }) rfl rfl

theorem exitBegin_tidy {status : Int} (hin : FilesIn k) (h : exitBegin Λ io k i status = .ok k') : Tidy k k' := by
  obtain ⟨-, k1, hc, rfl⟩ := exitBegin_ok h
  have hclose : Tidy k k1 := by
    refine (closeFiles_ends (I := fun _ k1 => Tidy k k1) (E := anyAbort) (fun _ _ hs _ _ => hs) ?_ nofile 0 (by omega)
      (Tidy.refl k)).of_ok hc
    intro fd k2 f ht _ _
    refine ends_of_forall_ok fun k3 hk => ?_
    exact (ht.trans (fileclose_tidy (ht.within hin) hk)).trans (tidy_setFd k3 i fd none)
  exact hclose.trans (Tidy.upd (i := i) (p := { k1.proc i with exiting := some status }) rfl rfl)

theorem killExit_tidy (hin : FilesIn k) (h : killExit Λ io k i = .ok k') : Tidy k k' := by
  have h1 : Tidy k (k.setProc i { k.proc i with killed := true }) :=
    Tidy.upd (i := i) (p := { k.proc i with killed := true }) rfl rfl
  exact h1.trans (exitBegin_tidy (h1.within hin) h)

end Closing

/-! ## Opening files -/

section Opening

variable {Λ : Layout} {io : Bool} {k k' : Kernel} {i : Nat}

theorem Tidy.undo {f : Nat} (h : Tidy (k.setFile f { k.ftable f with ref := 1 }) k') (hf : (k.ftable f).ref = 0)
    (hf' : (k'.ftable f).ref = 0) : Tidy k k' := by
  have hother : ∀ x, x = f ∨ (k.setFile f { k.ftable f with ref := 1 }).ftable x = k.ftable x :=
    fun x => (eq_or_ne x f).imp_right fun hx => update_of_ne hx _ _
  have hnone : (k'.ftable f).type = .none := by
    refine (h.free f hf').resolve_left ?_
    simp [setFile]
  refine ⟨⟨fun x => ?_, fun x hx0 => ?_, h.lost.trans ?_⟩, fun x hx0 => ?_⟩
  · rcases hother x with rfl | e
    · exact Or.inr ⟨hf', hnone⟩
    · exact e ▸ h.kind x
  · rcases hother x with rfl | e
    · exact hf'
    · exact h.ref0 x (e ▸ hx0)
  · exact lostRefs_same (update_field File.inode rfl) (fun _ => rfl) rfl
  · rcases hother x with rfl | e
    · exact Or.inr hnone
    · exact e ▸ h.free x hx0

theorem filesIn_setFile {f : Nat} {file : File} (hin : FilesIn k) (hf : f < nfile) : FilesIn (k.setFile f file) := by
  intro x hx
  have hne : x ≠ f := by omega
  simpa [setFile, hne] using hin x hx

theorem allocClose_tidy {f : Nat} (hin : FilesIn k) (hf : f < nfile) (href : (k.ftable f).ref = 0)
    (h : fileclose Λ io (k.setFile f { k.ftable f with ref := 1 }) f = .ok k') : Tidy k k' := by
  refine (fileclose_tidy (filesIn_setFile hin hf) h).undo href ?_
  rw [fileclose_ref h]
  simp [setFile]

/-- A call that may open files, with every file released that has no reference. -/
structure FileGain (k k' : Kernel) : Prop extends FileStep k k' where
  released : Released k → Released k'

theorem Tidy.gain (h : Tidy k k') : FileGain k k' := ⟨h.toFileMove.step, h.released⟩

theorem FileGain.trans_tidy {k'' : Kernel} (h : FileGain k k') (h' : Tidy k' k'') : FileGain k k'' := by
  have hmid : ∀ f, (k''.ftable f).ref ≠ 0 → (k'.ftable f).ref ≠ 0 ∧ SameKind (k'.ftable f) (k''.ftable f) := by
    intro f hf''
    refine ⟨fun e => hf'' (h'.ref0 f e), ?_⟩
    rcases h'.kind f with h1 | h1
    · exact h1
    · exact absurd h1.1 hf''
  refine ⟨⟨fun hin => h'.within (h.within hin), fun f hf hf'' => ?_, fun f hf hf'' => ?_, fun j => ?_, fun hr => ?_⟩,
    fun hr => h'.released (h.released hr)⟩
  · obtain ⟨hf', h1⟩ := hmid f hf''
    exact (h.kept f hf hf').trans h1
  · obtain ⟨hf', h1⟩ := hmid f hf''
    exact h1.hasInode (h.fresh f hf hf')
  · rw [h'.lost]
    exact h.lost j
  · rw [h'.lost]
    exact h.exact hr

/-- A file without reference gets one and other content: what it held is lost. -/
theorem FileGain.reuse {f : Nat} (hf : f < nfile) (href : (k.ftable f).ref = 0) (href' : (k'.ftable f).ref ≠ 0)
    (hip : (k'.ftable f).HasInode) (hother : ∀ x, x ≠ f → k'.ftable x = k.ftable x) (hcwd : ∀ j, (k'.proc j).cwd = (k.proc j).cwd)
    (hrefs : k'.fs.refs = k.fs.refs + oneOf (k'.ftable f).inode) : FileGain k k' := by
  have hlost : lostRefs k' = lostRefs k + oneOf (k.ftable f).inode := by
    have hheld : heldRefs k' = heldRefs k - oneOf (k.ftable f).inode + oneOf (k'.ftable f).inode :=
      heldRefs_file hf (fun x hx => by rw [hother x hx]) hcwd
    rw [lostRefs, lostRefs, hheld, hrefs]
    abel
  refine ⟨⟨fun hin x hx => ?_, fun x hx0 _ => ?_, fun x hx0 hx1 => ?_, fun j => ?_, fun hr => ?_⟩, fun hr x hx0 => ?_⟩
  · have hne : x ≠ f := by omega
    rw [hother x hne]
    exact hin x hx
  · have hne : x ≠ f := fun e => hx0 (e ▸ href)
    rw [hother x hne]
    exact SameKind.refl _
  · by_cases hx : x = f
    · subst hx
      exact hip
    · rw [hother x hx] at hx1
      exact absurd hx0 hx1
  · rw [hlost, Pi.add_apply, oneOf_apply]
    split_ifs <;> omega
  · have hnone : (k.ftable f).inode = none := by
      unfold File.inode
      rw [hr f href]
    rw [hlost, hnone]
    exact add_zero _
  · have hne : x ≠ f := fun e => href' (e ▸ hx0)
    rw [hother x hne] at hx0 ⊢
    exact hr x hx0

theorem FileGain.trans {k'' : Kernel} (h : FileGain k k') (h' : FileGain k' k'')
    (hkept : ∀ f, (k.ftable f).ref ≠ 0 → (k'.ftable f).ref ≠ 0) : FileGain k k'' := by
  refine ⟨⟨fun hin => h'.within (h.within hin), fun f hf hf'' => ?_, fun f hf hf'' => ?_,
    fun j => (h.lost j).trans (h'.lost j), fun hr => ?_⟩, fun hr => h'.released (h.released hr)⟩
  · exact (h.kept f hf (hkept f hf)).trans (h'.kept f (hkept f hf) hf'')
  · by_cases hf' : (k'.ftable f).ref = 0
    · exact h'.fresh f hf' hf''
    · exact (h'.kept f hf' hf'').hasInode (h.fresh f hf hf')
  · rw [h'.exact (h.released hr), h.exact hr]

theorem OpenDone.gain {path : List UInt8} {omode : Nat} {r : Nat × Kernel} (hin : FilesIn k)
    (h : OpenDone Λ io k i path omode r) : FileGain k r.2 := by
  cases h with
  | noInode fs hip =>
    have hrefs := (openInode_refs io k.fs _ path omode).of_ok hip
    have ht : Tidy k { k with fs := fs } := Tidy.of_same rfl (fun _ => rfl) (hrefs.trans (add_zero _))
    exact ht.gain
  | noFile ip fs fs' hip hput =>
    have hrefs := (openInode_refs io k.fs _ path omode).of_ok hip
    have ht : Tidy k { k with fs := fs' } := by
      refine Tidy.of_same rfl (fun _ => rfl) ?_
      rw [(iput_some_refs io fs ip).of_ok hput, hrefs]
      exact add_sub_cancel_right _ _
    exact ht.gain
  | noFd ip f fs fs' k' hip hf href hclose hput =>
    have hrefs : fs.refs = k.fs.refs + one ip := (openInode_refs io k.fs _ path omode).of_ok hip
    have ht : Tidy { k with fs := fs } k' := allocClose_tidy hin hf href hclose
    have hput' := (iput_some_refs io k'.fs ip).of_ok hput
    -- the reference to the inode is taken and given back
    have hlost : lostRefs { k' with fs := fs' } = lostRefs k := by
      have e1 : lostRefs { k' with fs := fs' } = lostRefs k' - one ip := by
        show fs'.refs - heldRefs k' = k'.fs.refs - heldRefs k' - one ip
        rw [hput']
        abel
      have e2 : lostRefs { k with fs := fs } = lostRefs k + one ip := by
        show fs.refs - heldRefs k = k.fs.refs - heldRefs k + one ip
        rw [hrefs]
        abel
      rw [e1, ht.lost, e2]
      abel
    exact Tidy.gain ⟨⟨ht.kind, ht.ref0, hlost⟩, ht.free⟩
  | done ip f fd fs fs' file hip hf href hfd hfree hfile htrunc =>
    have hrefs : fs.refs = k.fs.refs + one ip := (openInode_refs io k.fs _ path omode).of_ok hip
    have hrefs' : fs'.refs = fs.refs := by
      rcases htrunc with e | e
      · rw [e]
      · exact (itrunc_refs io fs ip).of_ok e
    have hnew : file.inode = some ip ∧ file.ref = 1 ∧ file.ip = some ip := by
      rw [hfile]
      unfold openFile
      split <;> exact ⟨rfl, rfl, rfl⟩
    have hself : (({ (withFd k i f fd).setFile f file with fs := fs' } : Kernel)).ftable f = file := by
      simp [setFile]
    refine FileGain.reuse hf href ?_ ?_ (fun x hx => ?_) (upd_field k i _ k.mem fs' Proc.cwd rfl) ?_
    · rw [hself, hnew.2.1]
      decide
    · rw [hself]
      exact fun _ => by rw [hnew.2.2]; rfl
    · simp [setFile, withFd, setFd, setProc, hx]
    · rw [hself, hnew.1]
      exact hrefs'.trans hrefs

theorem PipeAllocDone.gain {r : Option (Nat × Nat) × Kernel} (hin : FilesIn k) (h : PipeAllocDone Λ io k r) : FileGain k r.2 := by
  cases h with
  | noFile => exact (Tidy.refl k).gain
  | oneFile f k' hf href hclose => exact (allocClose_tidy hin hf href hclose).gain
  | noPage f g k1 k2 k' hf hfr hg hne hgr hk _ hf' hg' =>
    -- both files are taken, then both are closed
    have hin1 : FilesIn { k1 with mem := (kalloc Λ k.mem).2 } := by
      rw [hk]
      exact filesIn_setFile (filesIn_setFile hin hf) hg
    have h1 := fileclose_tidy hin1 hf'
    have h2 := fileclose_tidy (h1.within hin1) hg'
    have hcur : ∀ x, (k'.ftable x).ref = (k1.ftable x).ref - (if x = f then 1 else 0) - if x = g then 1 else 0 := by
      intro x
      rw [fileclose_ref hg', fileclose_ref hf']
    have hg0 : (k'.ftable g).ref = 0 := by
      rw [hcur, hk]
      simp [setFile, hne]
    have hf0 : (k'.ftable f).ref = 0 := by
      rw [hcur, hk]
      simp [setFile, hne.symm]
    have hgf : (k.setFile f { k.ftable f with ref := 1 }).ftable g = k.ftable g := by simp [setFile, hne]
    have h3 : Tidy ((k.setFile f { k.ftable f with ref := 1 }).setFile g
        { (k.setFile f { k.ftable f with ref := 1 }).ftable g with ref := 1 }) k' := by
      rw [hgf, ← hk]
      exact (Tidy.of_same rfl (fun _ => rfl) rfl : Tidy k1 { k1 with mem := (kalloc Λ k.mem).2 }).trans (h1.trans h2)
    exact ((h3.undo (by rw [hgf]; exact hgr) hg0).undo hfr hf0).gain
  | done f g pg k' hf hfr hg hne hgr hk hfs hfile hrf hwf =>
    -- one file after the other becomes an end of the pipe
    have hcwd : ∀ j, (k'.proc j).cwd = (k.proc j).cwd := fun j => by rw [hk.proc]
    have h1 : FileGain k (k.setFile f (k'.ftable f)) := by
      refine FileGain.reuse hf hfr ?_ ?_ (fun x hx => by simp [setFile, hx]) (fun _ => rfl) ?_
      · simp [setFile, hrf]
      · simp [setFile, hrf, File.HasInode]
      · simp [setFile, hrf, File.inode, oneOf]
    have h2 : FileGain (k.setFile f (k'.ftable f)) k' := by
      refine FileGain.reuse hg (by simpa [setFile, hne] using hgr) (by simp [hwf]) (by simp [hwf, File.HasInode])
        (fun x hx => ?_) hcwd ?_
      · by_cases hxf : x = f
        · subst hxf
          simp [setFile]
        · simp [setFile, hxf, hfile x hxf hx]
      · rw [hfs, hwf]
        simp [setFile, File.inode, oneOf]
    refine h1.trans h2 fun x hx => ?_
    by_cases hxf : x = f
    · subst hxf
      simp [setFile, hrf]
    · simpa [setFile, hxf] using hx

theorem PipeDone.gain {r : Nat × Kernel} (hin : FilesIn k) (h : PipeDone Λ io k i r) : FileGain k r.2 := by
  cases h with
  | failed k' hal => exact hal.gain hin
  | undone f g k1 k2 k3 k' hal hsame hf hg =>
    have h1 := hal.gain hin
    have h2 : Tidy k1 k2 := Tidy.of_same hsame.1 (fun j => by rw [hsame.2.2.2]) (by rw [hsame.2.1])
    have hin2 := h2.within (h1.within hin)
    have h3 := fileclose_tidy hin2 hf
    exact h1.trans_tidy (h2.trans (h3.trans (fileclose_tidy (h3.within hin2) hg)))
  | done f g fd0 fd1 k1 ram hal _ _ _ _ _ =>
    have h2 := (tidy_setFd k1 i fd0 (some f)).trans (tidy_setFd (k1.setFd i fd0 (some f)) i fd1 (some g))
    exact (hal.gain hin).trans_tidy (h2.trans (Tidy.of_same rfl (fun _ => rfl) rfl))

end Opening

/-! ## Mappings -/

section Mappings

variable {Λ : Layout} {io : Bool} {k k' : Kernel} {L : Nat → List Nat} {i : Nat}

theorem mmap_tidy {length prot flag fd : Nat} {r : Nat × Kernel} (h : Counted k L) (hi : i < nproc) (hfd : fd < nofile)
    (hm : mmap k i length prot flag fd = .ok r) : Tidy k r.2 := by
  cases mmap_ok hm with
  | failed => exact Tidy.refl k
  | stuck => exact Tidy.upd (i := i) (p := { k.proc i with lock := true }) rfl rfl
  | mapped f n prev next hf _ _ _ =>
    have hpos := h.refs.fd_pos hi hfd hf
    exact Tidy.recount rfl (by omega) (update_field Proc.cwd rfl) rfl

theorem writeBack_refs (F : Nat → File) (v : Vma) (pt : PageTable) (ram : Nat → Nat → UInt8) (fs : Fs) (j page : Nat) :
    Ends (writeBack io F v pt ram fs j page) (fun r => r.2.2.refs = fs.refs) NotFile := by
  unfold writeBack
  split
  · exact ends_throw (by decide)
  · refine ends_bind (ilock_refs fs _) fun fs1 h1 => ?_
    split
    · exact ends_throw (by decide)
    · exact ends_bind (writei_refs io fs1 _ _ _ _) fun r hr => ends_pure (hr.trans h1)

theorem munmapPages_refs {F : Nat → File} {v : Vma} {addr n j : Nat} {pt : PageTable} {m : Mem} {fs : Fs}
    {r : Bool × PageTable × Mem × Fs} (h : munmapPages Λ io F v addr n j pt m fs = .ok r) : r.2.2.2.refs = fs.refs := by
  induction n generalizing j pt m fs with
  | zero =>
    cases h
    rfl
  | succ n ih =>
    obtain ⟨⟨found, pt1, m1⟩, -, h⟩ := bind_eq_ok.mp h
    dsimp only at h
    split at h
    · cases h
    split at h
    · exact ih h
    obtain ⟨⟨ok, out, fs1⟩, hw, h⟩ := bind_eq_ok.mp h
    have h1 : fs1.refs = fs.refs := by
      split at hw
      · exact (writeBack_refs F v pt m.ram fs j _).of_ok hw
      · cases hw
        rfl
    split at h
    · cases h
      exact h1
    obtain ⟨⟨pt2, m2⟩, -, h⟩ := bind_eq_ok.mp h
    split at h
    · cases h
      exact h1
    · exact (ih h).trans h1

/-- The call frees the VMA that holds the last reference to its file. -/
def DropsLast (Λ : Layout) (io : Bool) (k : Kernel) (i addr length : Nat) : Prop :=
  ∃ prev a f pt pt' m fs, munmapFind k.vmas addr length (k.proc i).nvma none (k.proc i).vmas = .ok (some (prev, a)) ∧
    (k.proc i).pagetable = some pt ∧
    munmapPages Λ io k.ftable (k.vmas a) addr (munmapRounds length) 0 pt k.mem k.fs = .ok (true, pt', m, fs) ∧
    ((k.vmas a).addri + pgRoundUp length) % 2 ^ 64 = (k.vmas a).addre ∧ (k.vmas a).ofile = some f ∧ (k.ftable f).ref = 1

/-- `munmap` moves no file and releases none: it is tidy unless it drops a last reference. -/
theorem munmap_files {addr length : Nat} {r : Bool × Kernel} (h : Counted k L) (hm : munmap Λ io k i addr length = .ok r) :
    FileMove k r.2 ∧ (DropsLast Λ io k i addr length ∨ Tidy k r.2) := by
  have hboth : ∀ {k' : Kernel}, Tidy k k' → FileMove k k' ∧ (DropsLast Λ io k i addr length ∨ Tidy k k') :=
    fun ht => ⟨ht.toFileMove, Or.inr ht⟩
  have hpages : ∀ pt m fs, fs.refs = k.fs.refs → Tidy k (afterPages k i pt m fs) := fun pt m fs hfs =>
    Tidy.upd (i := i) (p := { k.proc i with pagetable := some pt }) rfl hfs
  cases munmap_ok hm with
  | notFound _ => exact hboth (Tidy.refl k)
  | failed prev a pt pt' m fs _ _ hp => exact hboth (hpages pt' m fs (munmapPages_refs hp))
  | done prev a pt pt' m fs k' hfind hpt hp hres =>
    have h1 := hpages pt' m fs (munmapPages_refs hp)
    cases hres with
    | front _ _ hk | back _ _ hk =>
      subst hk
      exact hboth (h1.trans (Tidy.of_same rfl (fun _ => rfl) rfl))
    | freed hw hk =>
      obtain ⟨l1, l2, hL, -, -⟩ := h.lists.munmapFind hfind
      obtain ⟨ha, hu⟩ := h.lists.used i a (by simp [hL])
      obtain ⟨f, V, hf, -, -, rfl⟩ := freeVma_ok hk
      have hpos : 1 ≤ (k.ftable f).ref := by
        have h3 : 0 < vmaRefs k f := refsTo_pos (Finset.mem_range.mpr ha) (by rw [Vma.file, if_pos hu]; exact hf)
        rw [h.refs f]
        omega
      have hpos' : 1 ≤ ((afterPages k i pt' m fs).ftable f).ref := hpos
      -- one count goes down by one, and nothing else that matters here changes
      refine ⟨h1.toFileMove.trans (FileMove.recount rfl (by omega) (update_field Proc.cwd rfl) rfl), ?_⟩
      by_cases hone : ((afterPages k i pt' m fs).ftable f).ref = 1
      · exact Or.inl ⟨prev, a, f, pt, pt', m, fs, hfind, hpt, hp, hw, hf, hone⟩
      · exact Or.inr (h1.trans (Tidy.recount rfl (by omega) (update_field Proc.cwd rfl) rfl))

end Mappings

/-! ## Processes -/

section Processes

variable {Λ : Layout} {io : Bool} {k k' : Kernel} {L : Nat → List Nat} {i : Nat} {ev : Event} {r : Option Nat × Kernel}

theorem AllocDone.tidy (h : AllocDone Λ k r) : Tidy k r.2 := by
  cases h with
  | full => exact Tidy.refl k
  | found j tf pt m1 m _ _ _ _ _ =>
    exact Tidy.of_same rfl (upd_field k j
      { k.proc j with pid := k.nextpid, state := .used, trapframe := tf, pagetable := some pt } m k.fs Proc.cwd rfl) rfl
  | undone j p m _ _ hp => exact Tidy.of_same rfl (upd_field k j p m k.fs Proc.cwd (by rw [hp]; rfl)) rfl

theorem dupFiles_tidy {ofile o o' : Nat → Option Nat} (h : dupFiles ofile nofile 0 k o = .ok (k', o')) :
    Tidy k k' ∧ ∀ f, (k.ftable f).ref ≤ (k'.ftable f).ref := by
  refine (dupFiles_ends (k := k) (o := o) (E := anyAbort)
    (I := fun _ k1 _ => Tidy k k1 ∧ ∀ f, (k.ftable f).ref ≤ (k1.ftable f).ref)
    (fun _ _ _ hk _ _ => hk) ?_ nofile 0 (by omega) ⟨Tidy.refl k, fun _ => le_rfl⟩).of_ok h
  rintro fd k1 o1 f ⟨ht, hle⟩ _ _
  refine ends_of_forall_ok fun k2 hdup => ?_
  obtain ⟨hpos, rfl⟩ := filedup_ok hdup
  refine ⟨ht.trans (Tidy.recount rfl (by omega) (fun _ => rfl) rfl), fun x => (hle x).trans ?_⟩
  show _ ≤ (update k1.ftable f _ x).ref
  rw [ref_update k1.ftable rfl]
  split_ifs <;> omega

theorem fork_tidy (h : Counted k L) (hrun : (k.proc i).Running) (hf : fork Λ k i = .ok r) : Tidy k r.2 := by
  cases fork_ok hf with
  | noProc k1 hal => exact hal.tidy
  | noMem np pt npt npt' m m' k1 c hal _ _ _ hfree =>
    have hc : c = Proc.freed { k1.proc np with pagetable := some npt' } := freeproc_ok hfree
    exact hal.tidy.trans (Tidy.upd (by rw [hc]; rfl) rfl)
  | copied np pt npt npt' m fs ofile k1 k2 k3 k4 k5 b r hal _ _ _ hk2 hdup hcwd hk4 hvmas hr =>
    obtain ⟨hnp, hunused, hother, ⟨tf, pt0, hent⟩, hft, -, hv⟩ := hal.entry
    have hne : i ≠ np := fun e => hrun.state.1 (e ▸ hunused)
    obtain ⟨hfo, -, -, -⟩ := dupFiles_frame hdup
    obtain ⟨h3, hle⟩ := dupFiles_tidy hdup
    have h2 : Tidy k1 k2 := by
      rw [hk2]
      exact Tidy.upd rfl rfl
    -- the child had no directory and now shares the one of its parent
    have hnone : (k3.proc np).cwd = none := by
      rw [hfo.proc, hk2, upd_self]
      rw [hent]
      exact ((h.idle np).gone (Or.inl hunused)).2.1
    have h4 : Tidy k3 k4 := by
      obtain ⟨j, hj, hrefs⟩ := (idup_refs k3.fs _).of_ok hcwd
      have hheld : heldRefs k4 = heldRefs k3 - oneOf (k3.proc np).cwd + oneOf (k4.proc np).cwd := by
        refine heldRefs_cwd hnp (fun x => by rw [hk4]; rfl) fun j hj => ?_
        rw [hk4, upd_of_ne _ _ _ _ _ hj]
      have hlost : lostRefs k4 = lostRefs k3 := by
        rw [lostRefs, lostRefs, hheld, hnone, hk4, upd_self, upd_fs, hrefs, hj]
        simp only [oneOf]
        abel
      have e : k4.ftable = k3.ftable := by rw [hk4]; rfl
      exact ⟨⟨fun f => by rw [e]; exact Or.inl (SameKind.refl _), fun f => by rw [e]; exact id, hlost⟩,
        fun f hf => Or.inl (by rw [← e]; exact hf)⟩
    -- the VMAs copied are those of the parent, whose files have references
    have hvm : k4.vmas = k.vmas := by
      rw [hk4, upd_vmas, hfo.vmas, hk2, upd_vmas, hv]
    have hchain : Chain k4.links (k1.proc i).vmas (L i) := by
      rw [hother i hne, show k4.links = k.links from by unfold links; rw [hvm]]
      exact h.lists.chains.chain i
    obtain ⟨-, hup, hsame⟩ := forkVmas_source hvmas hchain (fun a ha => by rw [hvm]; exact (h.lists.used i a ha).2)
      fun q hq => by cases hq
    obtain ⟨l, hl, -⟩ := forkVmas_ok hvmas
    have hframe := hl.frame
    have h5 : Tidy k4 k5 := by
      refine Tidy.of_refs hframe.file (fun f => ?_) (fun j => ?_) (by rw [hframe.fs])
      · by_cases hused : ∃ a ∈ L i, (k4.vmas a).ofile = some f
        · obtain ⟨a, ha, hfa⟩ := hused
          obtain ⟨hlt, hu⟩ := h.lists.used i a ha
          have hpos : 0 < vmaRefs k f :=
            refsTo_pos (Finset.mem_range.mpr hlt) (by rw [Vma.file, if_pos hu, ← hvm]; exact hfa)
          have h1 := h.refs f
          have h2 := hle f
          have h3 := hup f
          rw [hk2, upd_ftable, hft] at h2
          dsimp only at h3
          rw [hk4, upd_ftable] at h3 ⊢
          omega
        · rw [hsame f fun a ha e => hused ⟨a, ha, e⟩]
      · by_cases hj : j = np
        · subst hj
          obtain ⟨head, e⟩ := hframe.child
          rw [e]
        · rw [hframe.other j hj]
    have h6 : Tidy k k5 := hal.tidy.trans (h2.trans (h3.trans (h4.trans h5)))
    rw [hr]
    split
    · exact h6.trans (Tidy.upd (i := np) (p := { k5.proc np with parent := some i, state := .runnable }) rfl rfl)
    · exact h6

theorem readPage_refs {v : Vma} {pt : PageTable} {m : Mem} {va : Nat} {r : Mem × Fs} (h : readPage k v pt m va = .ok r) :
    r.2.refs = k.fs.refs := by
  unfold readPage at h
  split at h
  · cases h
  obtain ⟨fs, hfs, h⟩ := bind_eq_ok.mp h
  split at h
  · cases h
  · cases h
    exact (ilock_refs k.fs _).of_ok hfs

theorem pageFault_tidy {va : Nat} (hin : FilesIn k) (h : pageFault Λ io k i va = .ok k') : Tidy k k' := by
  cases pageFault_ok h with
  | outside _ hk => exact killExit_tidy hin hk
  | unmapped _ _ _ pt' _ _ _ m4 b _ _ _ _ _ _ hk =>
    have h1 : Tidy k (k.upd i { k.proc i with killed := b, pagetable := some pt' } m4 k.fs) := Tidy.upd rfl rfl
    exact h1.trans (killExit_tidy (h1.within hin) hk)
  | mapped _ _ _ pt' _ _ _ m4 fs b k1 _ _ _ _ _ _ hread _ hk1 hk =>
    have h1 : Tidy k k1 := by
      rw [hk1]
      exact Tidy.upd rfl (readPage_refs hread)
    split at hk
    · exact h1.trans (exitBegin_tidy (h1.within hin) hk)
    · rw [hk]
      exact h1

theorem exec_tidy {path : List UInt8} {argv : List (List UInt8)} (h : exec Λ io k i path argv = .ok r) : Tidy k r.2 := by
  -- the reference to the program is given back before the image is looked at
  have hrefs : r.2.fs.refs = k.fs.refs := by
    obtain ⟨⟨ip, fs⟩, hip, h⟩ := bind_eq_ok.mp h
    have h1 : fs.refs = k.fs.refs + oneOf ip := (namei_refs io k.fs _ path).of_ok hip
    cases ip with
    | none =>
      cases h
      exact h1.trans (add_zero _)
    | some ip =>
      obtain ⟨fs1, hlock, h⟩ := bind_eq_ok.mp h
      obtain ⟨⟨image, m⟩, -, h⟩ := bind_eq_ok.mp h
      obtain ⟨fs2, hput, h⟩ := bind_eq_ok.mp h
      have h2 : fs1.refs = fs.refs := (ilock_refs fs _).of_ok hlock
      have h3 : fs2.refs = k.fs.refs := by
        rw [(iput_some_refs io fs1 ip).of_ok hput, h2, h1]
        exact add_sub_cancel_right _ _
      split at h
      · cases h
        exact h3
      · cases h
      · obtain ⟨m', -, h⟩ := bind_eq_ok.mp h
        cases h
        exact h3
  obtain ⟨pt, sz, m, fs, e⟩ := exec_ok h
  rw [e] at hrefs ⊢
  exact Tidy.upd rfl hrefs

theorem Tidy.chdir {p : Proc} {m : Mem} {fs : Fs} (hi : i < nproc)
    (hrefs : fs.refs = k.fs.refs + oneOf p.cwd - oneOf (k.proc i).cwd) : Tidy k (k.upd i p m fs) := by
  have hheld : heldRefs (k.upd i p m fs) = heldRefs k - oneOf (k.proc i).cwd + oneOf ((k.upd i p m fs).proc i).cwd :=
    heldRefs_cwd hi (fun _ => rfl) fun j hj => by rw [upd_of_ne k i p m fs hj]
  refine ⟨⟨fun f => Or.inl (SameKind.refl _), fun _ => id, ?_⟩, fun f hf => Or.inl hf⟩
  rw [lostRefs, lostRefs, hheld, upd_self, upd_fs, hrefs]
  abel

theorem sysChdir_tidy {path : Option (List UInt8)} {r : Nat × Kernel} (hi : i < nproc)
    (h : sysChdir io k i path = .ok r) : Tidy k r.2 := by
  cases path with
  | none =>
    cases h
    exact Tidy.refl k
  | some path =>
    obtain ⟨⟨ip, fs⟩, hip, h⟩ := bind_eq_ok.mp h
    have h1 : fs.refs = k.fs.refs + oneOf ip := (namei_refs io k.fs _ path).of_ok hip
    cases ip with
    | none =>
      cases h
      exact Tidy.of_same rfl (fun _ => rfl) (h1.trans (add_zero _))
    | some ip =>
      obtain ⟨fs1, hlock, h⟩ := bind_eq_ok.mp h
      have h2 : fs1.refs = k.fs.refs + oneOf (some ip) := ((ilock_refs fs _).of_ok hlock).trans h1
      split at h
      · obtain ⟨fs2, hput, h⟩ := bind_eq_ok.mp h
        cases h
        refine Tidy.of_same rfl (fun _ => rfl) ?_
        rw [(iput_some_refs io fs1 ip).of_ok hput, h2]
        exact add_sub_cancel_right _ _
      · obtain ⟨fs2, hput, h⟩ := bind_eq_ok.mp h
        cases h
        obtain ⟨j, hj, h3⟩ := (iput_refs io fs1 (k.proc i).cwd).of_ok hput
        refine Tidy.chdir (p := { k.proc i with cwd := some ip }) hi ?_
        rw [h3, h2, hj]
        rfl

theorem exitDone_tidy {status : Int} (hi : i < nproc) (h : exitDone io k i status = .ok k') : Tidy k k' := by
  obtain ⟨fs, hput, -, rfl⟩ := exitDone_ok h
  obtain ⟨j, hj, hrefs⟩ := (iput_refs io k.fs (k.proc i).cwd).of_ok hput
  have h1 : Tidy k (k.upd i { k.proc i with cwd := none } k.mem fs) := by
    refine Tidy.chdir hi ?_
    rw [hrefs, hj]
    simp only [oneOf, add_zero]
  have h2 : ∀ k : Kernel, Tidy k (reparent k i) := fun k => by
    refine Tidy.of_same rfl (fun j => ?_) rfl
    unfold reparent
    dsimp only
    split <;> rfl
  refine h1.trans ((h2 _).trans ?_)
  exact Tidy.upd (i := i) (p := { (reparent (k.upd i { k.proc i with cwd := none } k.mem fs) i).proc i with
    xstate := status, state := .zombie, exiting := none }) rfl rfl

theorem WaitDone.tidy {r : WaitResult × Kernel} (h : WaitDone Λ k i r) : Tidy k r.2 := by
  cases h with
  | stay w => exact Tidy.refl k
  | failed ram => exact Tidy.of_same rfl (fun _ => rfl) rfl
  | freed j ram m _ _ _ => exact Tidy.upd rfl rfl

/-- Every call but `munmap` releases the files whose last reference it drops. -/
theorem trap_gain {r : Nat × Kernel} (h : Counted k L) (hin : FilesIn k) (hi : i < nproc) (hrun : (k.proc i).Running)
    (hev : ∀ a l, ev ≠ .munmap a l) (hk : trap Λ io k i ev = .ok r) : FileGain k r.2 := by
  cases ev with
  | munmap a l => exact absurd rfl (hev a l)
  | mmap length prot flag fd =>
    rcases sysMmap_args hk with rfl | ⟨hargs, hm⟩
    · exact (Tidy.refl k).gain
    · exact (mmap_tidy h hi hargs.fd hm).gain
  | fault va cause =>
    obtain ⟨k', hf, hk⟩ := bind_eq_ok.mp hk
    cases hk
    exact (pageFault_tidy hin hf).gain
  | sbrk n =>
    obtain ⟨⟨ok, k'⟩, hg, hk⟩ := bind_eq_ok.mp hk
    cases hk
    obtain ⟨pt, sz, m, e⟩ := growproc_ok hg
    rw [e]
    exact (Tidy.upd (p := { k.proc i with pagetable := pt, sz := sz }) rfl rfl).gain
  | fork =>
    obtain ⟨⟨pid, k'⟩, hf, hk⟩ := bind_eq_ok.mp hk
    cases hk
    exact (fork_tidy h hrun hf).gain
  | exit status =>
    obtain ⟨k', he, hk⟩ := bind_eq_ok.mp hk
    cases hk
    exact (exitBegin_tidy hin he).gain
  | wait addr =>
    obtain ⟨⟨w, k'⟩, hw, hk⟩ := bind_eq_ok.mp hk
    have ht : Tidy k k' := (wait_ok hw).tidy
    cases w <;> cases hk <;> exact ht.gain
  | exec path argv =>
    obtain ⟨⟨argc, k'⟩, he, hk⟩ := bind_eq_ok.mp hk
    cases hk
    exact (exec_tidy he).gain
  | openPath path omode =>
    cases path with
    | none =>
      cases hk
      exact (Tidy.refl k).gain
    | some path => exact (openPath_ok hk).gain hin
  | dup fd =>
    cases sysDup_ok hk with
    | failed => exact (Tidy.refl k).gain
    | done fd' fd f _ _ _ _ href =>
      have h2 : Tidy (k.setFd i fd (some f))
          ((k.setFd i fd (some f)).setFile f { k.ftable f with ref := (k.ftable f).ref + 1 }) :=
        Tidy.recount rfl (by change _ ↔ (k.ftable f).ref = 0; omega) (fun _ => rfl) rfl
      exact ((tidy_setFd k i fd (some f)).trans h2).gain
  | close fd =>
    cases sysClose_ok hk with
    | failed => exact (Tidy.refl k).gain
    | done fd f k' _ _ hc =>
      have h1 := tidy_setFd k i fd none
      exact (h1.trans (fileclose_tidy (h1.within hin) hc)).gain
  | pipe fdarray => exact (sysPipe_ok hk).gain hin
  | chdir path => exact (sysChdir_tidy hi hk).gain
  | store va b | exitUnmap | exitDone =>
    cases hk
    exact (Tidy.refl k).gain

/-- The step frees a VMA that holds the last reference to its file. -/
def DropsFile (Λ : Layout) (io : Bool) (k : Kernel) (i : Nat) : Event → Prop
  | .munmap addr length => ∃ pt, inUser (k.proc i) = some pt ∧ DropsLast Λ io (trapEntry k i pt) i addr length
  | .exitUnmap => (k.proc i).exiting ≠ none ∧ ∃ a, (k.proc i).vmas = some a ∧
      DropsLast Λ io k i (k.vmas a).addri (((k.vmas a).addre + 2 ^ 64 - (k.vmas a).addri) % 2 ^ 64)
  | _ => False

theorem FileStep.of_trapEntry {pt : PageTable} (h : FileStep (trapEntry k i pt) k') : FileStep k k' := by
  have hlost : lostRefs (trapEntry k i pt) = lostRefs k :=
    lostRefs_same (fun _ => rfl) (upd_field k i { k.proc i with
      pagetable := some (pt.setPte trapframe (pt.pte trapframe ||| pteD)) } k.mem k.fs Proc.cwd rfl) rfl
  exact ⟨h.within, h.kept, h.fresh, fun j => by rw [← hlost]; exact h.lost j, fun hr => by rw [← hlost]; exact h.exact hr⟩

/-- What every step does to the file table; it releases the files whose last reference it drops if no VMA held it. -/
theorem step_files {r : Nat × Kernel} (h : Counted k L) (hin : FilesIn k) (hi : i < nproc) (hs : step Λ io k i ev = .ok r) :
    FileStep k r.2 ∧ (DropsFile Λ io k i ev ∨ FileGain k r.2) := by
  have hgain : ∀ {k'}, FileGain k k' → FileStep k k' ∧ (DropsFile Λ io k i ev ∨ FileGain k k') :=
    fun hg => ⟨hg.toFileStep, Or.inr hg⟩
  cases step_ok hs with
  | idle => exact hgain (Tidy.refl k).gain
  | unmap status k' hev hex _ hk =>
    obtain ⟨a, ok, ha, hm⟩ := exitUnmap_ok hk
    obtain ⟨hmove, hlast⟩ := munmap_files h hm
    refine ⟨hmove.step, hlast.imp (fun hd => ?_) Tidy.gain⟩
    rw [hev]
    exact ⟨by simp [hex], a, ha, hd⟩
  | done status k' _ _ _ hk => exact hgain (exitDone_tidy hi hk).gain
  | store va b pt _ _ =>
    obtain ⟨pt', ram, e⟩ := userStore_eq (k := k) (i := i) pt va b
    rw [e]
    exact hgain (Tidy.upd (p := { k.proc i with pagetable := pt' }) rfl rfl).gain
  | trap pt r hu hk =>
    have hrun := inUser_running hu
    have h' : Counted (trapEntry k i pt) L := h.upd (hrun.procOk_of rfl rfl) rfl rfl rfl
    have hrun' : ((trapEntry k i pt).proc i).Running := by
      rw [trapEntry_eq, upd_self]
      exact hrun.congr rfl rfl
    have hback : FileGain (trapEntry k i pt) r.2 → FileGain k r.2 := fun hg => ⟨hg.toFileStep.of_trapEntry, hg.released⟩
    by_cases hmu : ∃ a l, ev = .munmap a l
    · obtain ⟨a, l, rfl⟩ := hmu
      obtain ⟨ok, hm, -⟩ := sysMunmap_ok hk
      obtain ⟨hmove, hlast⟩ := munmap_files h' hm
      exact ⟨hmove.step.of_trapEntry, hlast.imp (fun hd => ⟨pt, hu, hd⟩) fun ht => hback ht.gain⟩
    · exact hgain (hback (trap_gain h' hin hi hrun' (fun a l e => hmu ⟨a, l, e⟩) hk))

theorem step_fileStep {r : Nat × Kernel} (h : Counted k L) (hin : FilesIn k) (hi : i < nproc)
    (hs : step Λ io k i ev = .ok r) : FileStep k r.2 := (step_files h hin hi hs).1

end Processes

end Xv6Mmap

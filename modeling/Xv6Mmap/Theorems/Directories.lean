import Xv6Mmap.Lemmas.Dirs
import Xv6Mmap.Lemmas.Inodes

/-!
# A directory is a finite map

Runs of `dirlink` and of the removals of `sys_unlink` on one directory, which the caller holds a reference to. The map from the first
`DIRSIZ` bytes of a name to an inode number, updated by the same calls, gives what `dirlookup` finds; `dirlink` fails exactly on its
names. Between the calls the kernel does anything that leaves the directory alone.
-/

namespace Xv6Mmap

open Function

/-! ## Runs -/

/-- A directory that is referenced, with whole entries and no name in two of them. -/
structure IsDir (fs : Fs) (dp : Nat) : Prop where
  ref : 0 < (fs.itable dp).ref
  type : (fs.itable dp).info.type = tDir
  sized : DirSized (fs.itable dp).info.size
  names : NoDup (direntAt (fs.data dp)) ((fs.itable dp).info.size / 16)

/-- The map that a directory is. -/
def dirMap (fs : Fs) (dp : Nat) : List UInt8 → Option Nat :=
  valueOf (direntAt (fs.data dp)) ((fs.itable dp).info.size / 16)

/-- A directory that is left alone. -/
structure SameDir (fs : Fs) (dp : Nat) (fs' : Fs) : Prop where
  ref : 0 < (fs'.itable dp).ref
  type : (fs'.itable dp).info.type = (fs.itable dp).info.type
  size : (fs'.itable dp).info.size = (fs.itable dp).info.size
  data : fs'.data dp = fs.data dp

/-- The names that paths have: not empty, without NUL and `/`. -/
structure GoodName (name : List UInt8) : Prop where
  ne : name ≠ []
  nul : 0 ∉ name
  slash : slash ∉ name

/-- The calls on a directory. -/
inductive DirCall where
  | dirlink (name : List UInt8) (inum : Nat)
  | unlink (name : List UInt8)

/-- The states reached from `fs₀`, with the calls that led there, oldest first. -/
inductive DirRun (dp : Nat) (fs₀ : Fs) : List DirCall → Fs → Prop where
  | start : DirRun dp fs₀ [] fs₀
  | dirlink {h : List DirCall} {fs fs' : Fs} {io r : Bool} {name : List UInt8} {inum : Nat} : DirRun dp fs₀ h fs → GoodName name →
      0 < inum → inum < 65536 → dirlink io fs dp name inum = .ok (r, fs') → DirRun dp fs₀ (h ++ [.dirlink name inum]) fs'
  | unlink {h : List DirCall} {fs fs₁ fs' : Fs} {io : Bool} {name : List UInt8} {ip off : Nat} : DirRun dp fs₀ h fs → GoodName name →
      dirlookupOff fs dp name = .ok (some (ip, off), fs₁) → clearDirent io fs₁ dp off = .ok fs' →
      DirRun dp fs₀ (h ++ [.unlink name]) fs'
  | other {h : List DirCall} {fs fs' : Fs} : DirRun dp fs₀ h fs → SameDir fs dp fs' → DirRun dp fs₀ h fs'

/-- What a call does to the map: a name that is there stays as it is. -/
def DirCall.apply (f : List UInt8 → Option Nat) : DirCall → List UInt8 → Option Nat
  | .dirlink name inum => if f (name.take dirsiz) = none then update f (name.take dirsiz) (some inum) else f
  | .unlink name => update f (name.take dirsiz) none

/-! ## The inode table -/

section Table

variable {fs fs' fs'' : Fs} {dp i dev inum : Nat} {io : Bool}

theorem SameDir.isDir (h : SameDir fs dp fs') (hd : IsDir fs dp) : IsDir fs' dp := by
  refine ⟨h.ref, h.type.trans hd.type, ?_, ?_⟩
  · rw [h.size]
    exact hd.sized
  · rw [h.size, h.data]
    exact hd.names

theorem SameDir.dirMap_eq (h : SameDir fs dp fs') : dirMap fs' dp = dirMap fs dp := by
  rw [dirMap, dirMap, h.size, h.data]

theorem SameDir.trans (h : SameDir fs dp fs') (h' : SameDir fs' dp fs'') : SameDir fs dp fs'' :=
  ⟨h'.ref, h'.type.trans h.type, h'.size.trans h.size, h'.data.trans h.data⟩

/-- A table entry whose reference count alone changed, or the entry of another inode. -/
theorem sameDir_setInode {ip : Inode} (href : 0 < (fs.itable dp).ref)
    (h : i = dp → ip = { fs.itable dp with ref := ip.ref } ∧ 0 < ip.ref) : SameDir fs dp (fs.setInode i ip) := by
  by_cases e : i = dp
  · subst e
    obtain ⟨hip, hpos⟩ := h rfl
    have hself := setInode_self fs i ip
    refine ⟨by rw [hself]; exact hpos, by rw [hself, hip], by rw [hself, hip], ?_⟩
    rw [Fs.data, Fs.dinode, hself, hip]
    rfl
  · have hother := setInode_of_ne fs i ip (Ne.symm e)
    refine ⟨by rw [hother]; exact href, by rw [hother], by rw [hother], ?_⟩
    rw [Fs.data, Fs.dinode, hother]
    rfl

/-- `iget` leaves a referenced directory alone. -/
theorem iget_sameDir (href : 0 < (fs.itable dp).ref) (h : iget fs dev inum = .ok (i, fs')) :
    SameDir fs dp fs' ∧ (fs'.itable i).inum = inum := by
  obtain ⟨-, ⟨hpos, -, hnum, rfl⟩ | ⟨hzero, -, rfl⟩⟩ := iget_cases h
  · refine ⟨sameDir_setInode href fun e => ?_, by rw [setInode_self]; exact hnum⟩
    subst e
    exact ⟨rfl, Int.lt_add_one_of_le hpos.le⟩
  · refine ⟨sameDir_setInode href fun e => ?_, by rw [setInode_self]⟩
    subst e
    omega

theorem iget_iput_sameDir (io : Bool) (href : 0 < (fs.itable dp).ref) (h : iget fs dev inum = .ok (i, fs')) :
    ∃ fs'', iput io fs' (some i) = .ok fs'' ∧ SameDir fs dp fs'' := by
  obtain ⟨hsame, -⟩ := iget_sameDir href h
  have hkeep : ¬((fs'.itable i).ref = 1 ∧ (fs'.itable i).valid = true ∧ (fs'.itable i).info.nlink = 0) ∧
      (i = dp → 0 < (fs'.itable i).ref - 1) := by
    obtain ⟨-, ⟨hpos, -, -, rfl⟩ | ⟨hzero, -, rfl⟩⟩ := iget_cases h
    · rw [setInode_self]
      exact ⟨fun hc => by have := hc.1; dsimp only at this; omega, fun _ => by dsimp only; omega⟩
    · rw [setInode_self]
      refine ⟨fun hc => Bool.false_ne_true hc.2.1, fun e => ?_⟩
      subst e
      omega
  refine ⟨_, by rw [iput, if_neg hkeep.1]; rfl, hsame.trans (sameDir_setInode hsame.ref fun e => ?_)⟩
  have hpos := hkeep.2 e
  subst e
  exact ⟨rfl, hpos⟩

end Table

/-! ## The calls -/

section Calls

variable {fs fs' : Fs} {dp inum : Nat} {io : Bool} {name : List UInt8}

theorem IsDir.scan (h : IsDir fs dp) (name : List UInt8) :
    dirScan (fs.itable dp).info.size (fs.data dp) name (((fs.itable dp).info.size + 15) / 16) 0 =
      .ok ((findSlot (direntAt (fs.data dp)) (dirKey name) ((fs.itable dp).info.size / 16) 0).map fun e => (16 * e.1, e.2)) := by
  have hslots := h.sized.slots
  rw [show ((fs.itable dp).info.size + 15) / 16 = (fs.itable dp).info.size / 16 by omega]
  exact dirScan_eq h.sized name _ (s := 0) (zero_add _)

/-- `dirlookup` takes a reference to the inode that the map has, and leaves the directory alone. -/
theorem IsDir.dirlookup_cases (h : IsDir fs dp) (name : List UInt8) :
    (dirMap fs dp (dirKey name) = none ∧ dirlookup fs dp name = .ok (none, fs)) ∨ ∃ inum, dirMap fs dp (dirKey name) = some inum ∧
      dirlookup fs dp name = iget fs (fs.itable dp).dev inum >>= fun r => .ok (some r.1, r.2) := by
  unfold dirlookup dirMap valueOf
  rw [if_neg (not_not.mpr h.type), h.scan name]
  cases hf : findSlot (direntAt (fs.data dp)) (dirKey name) ((fs.itable dp).info.size / 16) 0 with
  | none => exact Or.inl ⟨rfl, rfl⟩
  | some e => exact Or.inr ⟨e.2, rfl, rfl⟩

theorem IsDir.dirlookup_map (h : IsDir fs dp) {r : Option Nat} (e : dirlookup fs dp name = .ok (r, fs')) :
    SameDir fs dp fs' ∧ r.map (fun i => (fs'.itable i).inum) = dirMap fs dp (dirKey name) := by
  rcases h.dirlookup_cases name with ⟨hnone, e'⟩ | ⟨inum, hsome, e'⟩
  · rw [e'] at e
    cases e
    exact ⟨⟨h.ref, rfl, rfl, rfl⟩, hnone.symm⟩
  · rw [e'] at e
    obtain ⟨⟨i, fs1⟩, hg, e⟩ := bind_eq_ok.mp e
    cases e
    obtain ⟨hsame, hnum⟩ := iget_sameDir h.ref hg
    rw [hsome]
    exact ⟨hsame, congrArg some hnum⟩

theorem IsDir.putSlot (h : IsDir fs dp) {s : Nat} {de : Nat → UInt8} (hs : s ≤ (fs.itable dp).info.size / 16)
    (hroom : 16 * s + 16 ≤ maxFileBytes)
    (hnames : NoDup (direntAt (setSlot (fs.data dp) s de)) (max ((fs.itable dp).info.size / 16) (s + 1))) :
    IsDir (fs.putSlot dp s de) dp ∧
      dirMap (fs.putSlot dp s de) dp = valueOf (direntAt (setSlot (fs.data dp) s de)) (max ((fs.itable dp).info.size / 16) (s + 1)) := by
  have hslots := h.sized.slots
  have hle := h.sized.le
  have hcount : max (fs.itable dp).info.size (16 * s + 16) / 16 = max ((fs.itable dp).info.size / 16) (s + 1) := by omega
  have hdata : (fs.putSlot dp s de).data dp = setSlot (fs.data dp) s de := by rw [Fs.data, putSlot_dinode]
  have hsize : ((fs.putSlot dp s de).itable dp).info.size = max (fs.itable dp).info.size (16 * s + 16) := by rw [putSlot_itable]
  refine ⟨⟨by rw [putSlot_itable]; exact h.ref, by rw [putSlot_itable]; exact h.type, ⟨by omega, ?_⟩, ?_⟩, ?_⟩
  · rw [hsize]
    exact max_le hle hroom
  · rw [hsize, hcount, hdata]
    exact hnames
  · rw [dirMap, hsize, hcount, hdata]

/-- `dirlink`: on a name of the map it fails and leaves the directory alone, on another it adds it to the map. -/
theorem IsDir.dirlink_map (h : IsDir fs dp) (hpos : 0 < inum) (hlt : inum < 65536) {r : Bool}
    (e : dirlink io fs dp name inum = .ok (r, fs')) :
    IsDir fs' dp ∧ (r = false ↔ dirMap fs dp (dirKey name) ≠ none) ∧ (r = false → SameDir fs dp fs') ∧
      dirMap fs' dp = if dirMap fs dp (dirKey name) = none then update (dirMap fs dp) (dirKey name) (some inum)
        else dirMap fs dp := by
  unfold dirlink at e
  rcases h.dirlookup_cases name with ⟨hnone, e'⟩ | ⟨inum', hsome, e'⟩
  · -- a new name goes into the first hole
    rw [e', ok_bind] at e
    have hslots := h.sized.slots
    dsimp only at e
    rw [show ((fs.itable dp).info.size + 15) / 16 = (fs.itable dp).info.size / 16 by omega,
      dirFree_eq h.sized _ (s := 0) (zero_add _), ok_bind] at e
    obtain ⟨-, hend, hfree⟩ := freeSlot_spec (direntAt (fs.data dp)) ((fs.itable dp).info.size / 16) 0
    rw [zero_add] at hend hfree
    generalize freeSlot (direntAt (fs.data dp)) ((fs.itable dp).info.size / 16) 0 = s at e hend hfree
    rw [writei_slot io hend] at e
    by_cases hroom : maxFileBytes < 16 * s + 16
    · rw [if_pos hroom] at e
      cases e
    rw [if_neg hroom] at e
    cases io with
    | false => cases e
    | true =>
      cases e
      have hslot := direntAt_mkDirent (fs.data dp) s name hpos hlt
      obtain ⟨hdup, hmap⟩ := h.names.put hend hfree hnone (v := inum)
      rw [← hslot] at hdup hmap
      obtain ⟨hdir, hmap'⟩ := h.putSlot hend (Nat.le_of_not_lt hroom) hdup
      refine ⟨hdir, ⟨fun hf => (nomatch hf), fun hn => absurd hnone hn⟩, fun hf => (nomatch hf), ?_⟩
      rw [if_pos hnone, hmap', hmap]
      rfl
  · rw [e'] at e
    obtain ⟨⟨found, fs1⟩, e1, e⟩ := bind_eq_ok.mp e
    obtain ⟨⟨i, fs2⟩, hg, e1⟩ := bind_eq_ok.mp e1
    cases e1
    obtain ⟨fs3, hput, hsame⟩ := iget_iput_sameDir io h.ref hg
    dsimp only at e
    rw [hput] at e
    cases e
    refine ⟨hsame.isDir h, ⟨fun _ => by rw [hsome]; exact Option.some_ne_none _, fun _ => rfl⟩, fun _ => hsame, ?_⟩
    rw [hsame.dirMap_eq, if_neg (by rw [hsome]; exact Option.some_ne_none _)]

/-- The removal of an entry takes the name out of the map. -/
theorem IsDir.clear_map (h : IsDir fs dp) {fs1 : Fs} {ip off : Nat} (e : dirlookupOff fs dp name = .ok (some (ip, off), fs1))
    (e' : clearDirent io fs1 dp off = .ok fs') : IsDir fs' dp ∧ dirMap fs' dp = update (dirMap fs dp) (dirKey name) none := by
  unfold dirlookupOff at e
  rw [if_neg (not_not.mpr h.type), h.scan name, ok_bind] at e
  cases hf : findSlot (direntAt (fs.data dp)) (dirKey name) ((fs.itable dp).info.size / 16) 0 with
  | none =>
    rw [hf] at e
    cases e
  | some found =>
    obtain ⟨s, inum⟩ := found
    obtain ⟨-, hs, hat⟩ := findSlot_some hf
    rw [zero_add] at hs
    rw [hf] at e
    obtain ⟨⟨i, fs2⟩, hg, e⟩ := bind_eq_ok.mp e
    cases e
    obtain ⟨hsame, -⟩ := iget_sameDir h.ref hg
    have hd := hsame.isDir h
    unfold clearDirent at e'
    rw [writei_slot io (by rw [hsame.size]; exact hs.le)] at e'
    have hle := h.sized.le
    rw [if_neg (by omega)] at e'
    cases io with
    | false => cases e'
    | true =>
      cases e'
      have hslot := direntAt_zero (fs1.data dp) s
      rw [hsame.data] at hslot
      obtain ⟨hdup, hmap⟩ := h.names.clear hs hat
      rw [← hslot, ← hsame.data] at hdup hmap
      have hcount : max ((fs1.itable dp).info.size / 16) (s + 1) = (fs.itable dp).info.size / 16 := by
        rw [hsame.size]
        omega
      obtain ⟨hdir, hmap'⟩ := hd.putSlot (s := s) (by rw [hsame.size]; exact hs.le) (by omega) (by rw [hcount]; exact hdup)
      refine ⟨hdir, ?_⟩
      rw [hmap', hcount, hmap, hsame.data]
      rfl

/-- `dirlookup` returns when there is a free entry in the inode table. -/
theorem iget_returns (hfree : ∃ i < ninode, (fs.itable i).ref = 0) (dev inum : Nat) : ∃ i fs', iget fs dev inum = .ok (i, fs') := by
  obtain ⟨i, hi, href⟩ := hfree
  unfold iget
  split
  · exact ⟨_, _, rfl⟩
  split
  · rename_i hnone
    have := firstSlot_none hnone hi
    rw [href] at this
    cases this
  · exact ⟨_, _, rfl⟩

/-- `dirlink` returns when there is also room in the directory and below it. -/
theorem IsDir.dirlink_returns (h : IsDir fs dp) (hfree : ∃ i < ninode, (fs.itable i).ref = 0)
    (hroom : (fs.itable dp).info.size + 16 ≤ maxFileBytes ∨ ∃ s < (fs.itable dp).info.size / 16, direntAt (fs.data dp) s = none)
    (name : List UInt8) (inum : Nat) : ∃ r fs', dirlink true fs dp name inum = .ok (r, fs') := by
  unfold dirlink
  rcases h.dirlookup_cases name with ⟨-, e⟩ | ⟨inum', -, e⟩
  · have hslots := h.sized.slots
    rw [e, ok_bind]
    dsimp only
    rw [show ((fs.itable dp).info.size + 15) / 16 = (fs.itable dp).info.size / 16 by omega,
      dirFree_eq h.sized _ (s := 0) (zero_add _), ok_bind]
    obtain ⟨-, hend, -⟩ := freeSlot_spec (direntAt (fs.data dp)) ((fs.itable dp).info.size / 16) 0
    rw [zero_add] at hend
    have hfits : 16 * freeSlot (direntAt (fs.data dp)) ((fs.itable dp).info.size / 16) 0 + 16 ≤ maxFileBytes := by
      rcases hroom with hroom | ⟨s, hs, hhole⟩
      · omega
      · have hlt := freeSlot_le (hs.trans_eq (zero_add _).symm) (Nat.zero_le s) hhole
        have hle := h.sized.le
        omega
    rw [writei_slot true hend, if_neg (by omega)]
    exact ⟨_, _, rfl⟩
  · rw [e]
    obtain ⟨i, fs1, hg⟩ := iget_returns hfree (fs.itable dp).dev inum'
    obtain ⟨fs2, hput, -⟩ := iget_iput_sameDir true h.ref hg
    rw [hg]
    refine ⟨false, fs2, ?_⟩
    show (iput true fs1 (some i) >>= fun fs => pure (false, fs)) = _
    rw [hput]
    rfl

end Calls

/-! ## Runs -/

theorem DirRun.map_eq {dp : Nat} {fs0 fs : Fs} {h : List DirCall} (hd : IsDir fs0 dp) (hr : DirRun dp fs0 h fs) :
    IsDir fs dp ∧ dirMap fs dp = h.foldl DirCall.apply (dirMap fs0 dp) := by
  induction hr with
  | start => exact ⟨hd, rfl⟩
  | dirlink _ hname hpos hlt e ih =>
    obtain ⟨hdir, -, -, hmap⟩ := ih.1.dirlink_map hpos hlt e
    refine ⟨hdir, ?_⟩
    rw [hmap, List.foldl_append, ih.2, dirKey_eq_take hname.nul]
    rfl
  | unlink _ hname e e' ih =>
    obtain ⟨hdir, hmap⟩ := ih.1.clear_map e e'
    refine ⟨hdir, ?_⟩
    rw [hmap, List.foldl_append, ih.2, dirKey_eq_take hname.nul]
    rfl
  | other _ hsame ih => exact ⟨hsame.isDir ih.1, hsame.dirMap_eq.trans ih.2⟩

/-- In every state reached, the directory has whole entries and no two of them with one name; `dirlookup` returns the inode number
that the map has, which the same calls led to, and leaves the directory alone; `dirlink` returns `-1` exactly on the names of the
map, and then leaves the directory alone. Both return when the inode table and the directory have room. -/
theorem directory_is_map {dp : Nat} {fs₀ fs : Fs} {h : List DirCall} (hd : IsDir fs₀ dp) (hr : DirRun dp fs₀ h fs) :
    (fs.itable dp).info.size % 16 = 0 ∧
    (∀ s t name inum inum', s < (fs.itable dp).info.size / 16 → t < (fs.itable dp).info.size / 16 →
      direntAt (fs.data dp) s = some (name, inum) → direntAt (fs.data dp) t = some (name, inum') → s = t) ∧
    (∀ name, GoodName name → ∀ r fs', dirlookup fs dp name = .ok (r, fs') →
      r.map (fun i => (fs'.itable i).inum) = h.foldl DirCall.apply (dirMap fs₀ dp) (name.take dirsiz) ∧ SameDir fs dp fs') ∧
    (∀ name inum, GoodName name → 0 < inum → inum < 65536 → ∀ io r fs', dirlink io fs dp name inum = .ok (r, fs') →
      (r = false ↔ h.foldl DirCall.apply (dirMap fs₀ dp) (name.take dirsiz) ≠ none) ∧ (r = false → SameDir fs dp fs')) ∧
    ((∃ i < ninode, (fs.itable i).ref = 0) → ∀ name, (∃ r, dirlookup fs dp name = .ok r) ∧
      ((fs.itable dp).info.size + 16 ≤ maxFileBytes ∨ (∃ s < (fs.itable dp).info.size / 16, direntAt (fs.data dp) s = none) →
        ∀ inum, ∃ r, dirlink true fs dp name inum = .ok r)) := by
  obtain ⟨hdir, hmap⟩ := hr.map_eq hd
  rw [← hmap]
  refine ⟨hdir.sized.slots, fun s t name inum inum' => hdir.names s t name inum inum', fun name hname r fs' e => ?_,
    fun name inum hname hpos hlt io r fs' e => ?_, fun hfree name => ⟨?_, fun hroom inum => ?_⟩⟩
  · obtain ⟨hsame, hval⟩ := hdir.dirlookup_map e
    rw [hval, dirKey_eq_take hname.nul]
    exact ⟨rfl, hsame⟩
  · obtain ⟨-, hiff, hsame, -⟩ := hdir.dirlink_map hpos hlt e
    rw [dirKey_eq_take hname.nul] at hiff
    exact ⟨hiff, hsame⟩
  · rcases hdir.dirlookup_cases name with ⟨-, e⟩ | ⟨inum, -, e⟩
    · exact ⟨_, e⟩
    · obtain ⟨i, fs', hg⟩ := iget_returns hfree (fs.itable dp).dev inum
      rw [e, hg]
      exact ⟨_, rfl⟩
  · obtain ⟨r, fs', e⟩ := hdir.dirlink_returns hfree hroom name inum
    exact ⟨_, e⟩

/-- An empty directory in entry 0 of the inode table. -/
def emptyDir : Fs where
  itable i := if i = 0 then ⟨rootDev, rootIno, 1, true, ⟨tDir, 0, 0, 1, 0⟩⟩ else ⟨0, 0, 0, false, ⟨0, 0, 0, 0, 0⟩⟩
  disk _ _ := ⟨⟨tDir, 0, 0, 1, 0⟩, fun _ => 0⟩
  ninodes := 200

theorem isDir_empty : IsDir emptyDir 0 :=
  ⟨by decide, rfl, ⟨rfl, by decide⟩, fun s _ _ _ _ hs => absurd hs (Nat.not_lt_zero s)⟩

/-- The name `a` linked in an empty directory: it is found, and a second link of it fails. -/
theorem directory_is_map_two : ∃ fs, DirRun 0 emptyDir [.dirlink [97] 5] fs ∧
    (∀ r fs', dirlookup fs 0 [97] = .ok (r, fs') → r.map (fun i => (fs'.itable i).inum) = some 5) ∧
    ∀ r fs', dirlink true fs 0 [97] 6 = .ok (r, fs') → r = false := by
  have hname : GoodName [97] := ⟨by decide, by decide, by decide⟩
  obtain ⟨-, -, -, hlink, hreturn⟩ := directory_is_map isDir_empty .start
  obtain ⟨⟨r, fs⟩, e⟩ := (hreturn ⟨1, by decide, rfl⟩ [97]).2 (Or.inl (by decide)) 5
  have hr := DirRun.start.dirlink hname (by decide) (by decide) e
  obtain ⟨-, -, hfound, hagain, -⟩ := directory_is_map isDir_empty hr
  refine ⟨fs, hr, fun r fs' e' => ?_, fun r fs' e' => ?_⟩
  · exact (hfound [97] hname r fs' e').1
  · exact ((hagain [97] 6 hname (by decide) (by decide) true r fs' e').1).mpr (by decide)

end Xv6Mmap

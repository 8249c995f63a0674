import Xv6Mmap.Names
import Xv6Mmap.Lib.SlotMap
import Xv6Mmap.Lib.Outcome

/-!
# Directories as tables

`direntAt` reads one 16-byte record of a directory: none for inode number `0`, else the name as `strncmp` sees it and the inode number.
The loops of `fs.c` over a directory are the searches of `SlotMap` over this table, and a `struct dirent` written changes one slot.
-/

namespace Xv6Mmap

open Function

/-! ## Names -/

/-- What `strncmp` and `strncpy` see: `n` bytes from `x` on, up to a NUL. -/
def cstr (s : Nat → UInt8) : Nat → Nat → List UInt8
  | 0, _ => []
  | n + 1, x => if s x = 0 then [] else s x :: cstr s n (x + 1)

/-- The name under which `dirlink` and `dirlookup` have a path element. -/
def dirKey (name : List UInt8) : List UInt8 := cstr (nameBuf name) dirsiz 0

theorem strncmpEq_iff (s t : Nat → UInt8) (n x : Nat) : strncmpEq s t n x = true ↔ cstr s n x = cstr t n x := by
  induction n generalizing x with
  | zero => simp [strncmpEq, cstr]
  | succ n ih =>
    rw [strncmpEq, cstr, cstr]
    by_cases hs : s x = 0
    · rw [hs]
      by_cases ht : t x = 0
      · rw [ht]
        simp
      · rw [if_neg ht]
        simp [Ne.symm ht]
    · rw [if_neg hs]
      by_cases he : s x = t x
      · rw [if_pos ⟨hs, he⟩, ih, ← he, if_neg hs, List.cons.injEq]
        exact ⟨fun h => ⟨rfl, h⟩, fun h => h.2⟩
      by_cases ht : t x = 0
      · rw [ht]
        simp [hs]
      · rw [if_neg ht]
        simp [he]

theorem cstr_congr {s t : Nat → UInt8} {n x : Nat} (h : ∀ i, i < n → s (x + i) = t (x + i)) : cstr s n x = cstr t n x := by
  induction n generalizing x with
  | zero => rfl
  | succ n ih =>
    have h0 := h 0 (by omega)
    rw [add_zero] at h0
    rw [cstr, cstr, h0, ih fun i hi => by rw [add_assoc, add_comm 1 i]; exact h (i + 1) (by omega)]

/-- The name of a path element without NUL: its first `DIRSIZ` bytes. -/
theorem dirKey_eq_take {name : List UInt8} (h : 0 ∉ name) : dirKey name = name.take dirsiz := by
  have hcstr : ∀ n x, cstr (nameBuf name) n x = (name.drop x).take n := by
    intro n
    induction n with
    | zero => intro x; rfl
    | succ n ih =>
      intro x
      rw [cstr, ih]
      by_cases hx : x < name.length
      · have hne : nameBuf name x ≠ 0 := by
          rw [nameBuf, List.getD_eq_getElem _ _ hx]
          intro e
          exact h (e ▸ List.getElem_mem hx)
        rw [if_neg hne, List.drop_eq_getElem_cons hx, List.take_succ_cons, nameBuf, List.getD_eq_getElem _ _ hx]
      · have hz : nameBuf name x = 0 := by
          rw [nameBuf, List.getD_eq_default _ _ (Nat.le_of_not_lt hx)]
        rw [if_pos hz, List.drop_eq_nil_of_le (Nat.le_of_not_lt hx), List.take_nil]
  rw [dirKey, hcstr, List.drop_zero]

/-! ## Entries -/

/-- The bytes of slot `s`. -/
def slotBytes (data : Nat → UInt8) (s : Nat) : Nat → UInt8 := fun x => data (16 * s + x)

/-- The entry in slot `s` of a directory. -/
def direntAt (data : Nat → UInt8) (s : Nat) : Option (List UInt8 × Nat) :=
  if direntInum (slotBytes data s) = 0 then none
  else some (cstr (fun x => slotBytes data s (2 + x)) dirsiz 0, direntInum (slotBytes data s))

/-- The content of a directory that the kernel's loops can run over. -/
structure DirSized (size : Nat) : Prop where
  slots : size % 16 = 0
  le : size ≤ maxFileBytes

theorem direntAt_congr {data data' : Nat → UInt8} {s : Nat} (h : ∀ x < 16, data' (16 * s + x) = data (16 * s + x)) :
    direntAt data' s = direntAt data s := by
  have h0 := h 0 (by omega)
  have h1 := h 1 (by omega)
  have hnum : direntInum (slotBytes data' s) = direntInum (slotBytes data s) := by simp only [direntInum, slotBytes, h0, h1]
  have hname : cstr (fun x => slotBytes data' s (2 + x)) dirsiz 0 = cstr (fun x => slotBytes data s (2 + x)) dirsiz 0 :=
    cstr_congr fun i hi => by
      exact h _ (by simp only [dirsiz] at hi; omega)
  rw [direntAt, direntAt, hnum, hname]

theorem readDirent_eq {size : Nat} (data : Nat → UInt8) {s : Nat} (hs : DirSized size) (hlt : s < size / 16) :
    ∃ de, readDirent size data (16 * s) = some de ∧ ∀ x < 16, de x = slotBytes data s x := by
  have hle := hs.le
  have hnw : ¬(size < 16 * s ∨ (16 * s + 16) % 2 ^ 32 < 16 * s) := by
    simp only [maxFileBytes, bsize] at hle
    omega
  have hin : ¬size < 16 * s + 16 := by omega
  have hblock : min (16 - 0) (bsize - 16 * s % bsize) = 16 := by
    simp only [bsize]
    omega
  have hread : readi size data bufPut (fun _ => 0) (16 * s) 16 =
      (16, fun x => if 0 ≤ x ∧ x < 0 + 16 then data (16 * s + (x - 0)) else 0) := by
    rw [readi, if_neg hnw, if_neg hin]
    simp only [readiLoop, hblock]
    simp [bufPut]
  refine ⟨_, by rw [readDirent, hread]; rfl, fun x hx => ?_⟩
  simp [hx, slotBytes]

section Entries

variable {size s n : Nat} {data : Nat → UInt8}

theorem direntAt_of_read {de : Nat → UInt8} (h : ∀ x < 16, de x = slotBytes data s x) :
    direntAt data s = if direntInum de = 0 then none else some (cstr (fun x => de (2 + x)) dirsiz 0, direntInum de) := by
  have hnum : direntInum de = direntInum (slotBytes data s) := by simp only [direntInum, h 0 (by omega), h 1 (by omega)]
  have hname : cstr (fun x => de (2 + x)) dirsiz 0 = cstr (fun x => slotBytes data s (2 + x)) dirsiz 0 :=
    cstr_congr fun i hi => by
      exact h _ (by simp only [dirsiz] at hi; omega)
  rw [direntAt, hnum, hname]

theorem dirScan_eq (hs : DirSized size) (name : List UInt8) (n : Nat) {s : Nat} (hn : s + n = size / 16) :
    dirScan size data name n (16 * s) = .ok ((findSlot (direntAt data) (dirKey name) n s).map fun e => (16 * e.1, e.2)) := by
  induction n generalizing s with
  | zero => rfl
  | succ n ih =>
    obtain ⟨de, hread, hde⟩ := readDirent_eq data hs (show s < size / 16 by omega)
    rw [dirScan, hread, findSlot, direntAt_of_read hde, show 16 * s + 16 = 16 * (s + 1) by omega]
    by_cases h0 : direntInum de = 0
    · simp only [if_pos h0]
      exact ih (by omega)
    simp only [if_neg h0, strncmpEq_iff, show cstr (nameBuf name) dirsiz 0 = dirKey name from rfl]
    by_cases hk : cstr (fun x => de (2 + x)) dirsiz 0 = dirKey name
    · rw [if_pos hk, if_pos hk.symm]
      rfl
    · rw [if_neg hk, if_neg (Ne.symm hk)]
      exact ih (by omega)

theorem dirFree_eq (hs : DirSized size) (n : Nat) {s : Nat} (hn : s + n = size / 16) :
    dirFree size data n (16 * s) = .ok (16 * freeSlot (direntAt data) n s) := by
  induction n generalizing s with
  | zero => rfl
  | succ n ih =>
    obtain ⟨de, hread, hde⟩ := readDirent_eq data hs (show s < size / 16 by omega)
    rw [dirFree, hread, freeSlot, direntAt_of_read hde, show 16 * s + 16 = 16 * (s + 1) by omega]
    by_cases h0 : direntInum de = 0
    · simp only [if_pos h0]
      rfl
    · simp only [if_neg h0, reduceCtorEq, if_false]
      exact ih (by omega)

theorem isdiremptyLoop_eq (hs : DirSized size) (n : Nat) {s : Nat} (hn : s + n = size / 16) :
    isdiremptyLoop size data n (16 * s) = .ok (decide (∀ t < s + n, s ≤ t → direntAt data t = none)) := by
  induction n generalizing s with
  | zero =>
    rw [decide_eq_true (fun t h1 h2 => by omega)]
    rfl
  | succ n ih =>
    obtain ⟨de, hread, hde⟩ := readDirent_eq data hs (show s < size / 16 by omega)
    rw [isdiremptyLoop, hread, show 16 * s + 16 = 16 * (s + 1) by omega]
    have hat := direntAt_of_read hde
    by_cases h0 : direntInum de = 0
    · rw [if_pos h0] at hat
      simp only [h0, ne_eq, not_true_eq_false, if_false]
      rw [ih (by omega)]
      congr 1
      refine decide_eq_decide.mpr ⟨fun h t ht hst => ?_, fun h t ht hst => h t (by omega) (by omega)⟩
      by_cases e : t = s
      · rw [e]
        exact hat
      · exact h t (by omega) (by omega)
    · rw [if_neg h0] at hat
      simp only [ne_eq, h0, not_false_eq_true, if_true]
      rw [decide_eq_false]
      · rfl
      · intro h
        rw [h s (by omega) (le_refl s)] at hat
        cases hat

end Entries

/-! ## Writing an entry -/

/-- The content with the 16 bytes of slot `s` replaced. -/
def setSlot (data : Nat → UInt8) (s : Nat) (de : Nat → UInt8) : Nat → UInt8 :=
  fun x => if 16 * s ≤ x ∧ x < 16 * s + 16 then de (x - 16 * s) else data x

theorem direntAt_setSlot (data : Nat → UInt8) (s t : Nat) (de : Nat → UInt8) : direntAt (setSlot data s de) t =
      if t = s then (if direntInum de = 0 then none else some (cstr (fun x => de (2 + x)) dirsiz 0, direntInum de))
      else direntAt data t := by
  by_cases e : t = s
  · subst e
    rw [if_pos rfl]
    refine direntAt_of_read fun x hx => ?_
    rw [slotBytes, setSlot, if_pos ⟨by omega, by omega⟩, Nat.add_sub_cancel_left]
  · rw [if_neg e]
    refine direntAt_congr fun x hx => ?_
    rw [setSlot, if_neg (by omega)]

theorem cstr_mkDirent (name : List UInt8) (inum : Nat) : cstr (fun x => mkDirent name inum (2 + x)) dirsiz 0 = dirKey name := by
  refine cstr_congr fun i hi => ?_
  rw [zero_add, mkDirent, if_neg (by omega), if_neg (by omega), Nat.add_sub_cancel_left, nameBuf, nameBuf]
  simp only [List.getD_eq_getElem?_getD, List.getElem?_take_of_lt hi]

theorem direntInum_mkDirent (name : List UInt8) {inum : Nat} (h : inum < 65536) : direntInum (mkDirent name inum) = inum := by
  simp only [direntInum, mkDirent, if_true, Nat.one_ne_zero, if_false, UInt8.toNat_ofNat']
  omega

theorem direntAt_mkDirent (data : Nat → UInt8) (s : Nat) (name : List UInt8) {inum : Nat} (hpos : 0 < inum) (hlt : inum < 65536) :
    direntAt (setSlot data s (mkDirent name inum)) = update (direntAt data) s (some (dirKey name, inum)) := by
  funext t
  rw [direntAt_setSlot, update_apply, direntInum_mkDirent name hlt, if_neg (Nat.ne_of_gt hpos), cstr_mkDirent]

theorem direntAt_zero (data : Nat → UInt8) (s : Nat) : direntAt (setSlot data s fun _ => 0) = update (direntAt data) s none := by
  funext t
  rw [direntAt_setSlot, update_apply]
  rfl

/-- An entry written to a directory through its in-memory inode. -/
def Fs.putSlot (fs : Fs) (dp s : Nat) (de : Nat → UInt8) : Fs :=
  let ip := fs.itable dp
  let info := { ip.info with size := max ip.info.size (16 * s + 16) }
  (fs.setInode dp { ip with info := info }).setDinode ip.dev ip.inum ⟨info, setSlot (fs.data dp) s de⟩

section Writing

variable {fs : Fs} {dp s : Nat} {de : Nat → UInt8}

/-- `writei` of one entry, which lies within a block. -/
theorem writei_slot (io : Bool) (hs : s ≤ (fs.itable dp).info.size / 16) : writei io fs dp (bufGet de) (16 * s) 16 =
      if maxFileBytes < 16 * s + 16 then .ok (-1, fs) else if io = true then .ok (16, fs.putSlot dp s de) else .error .blockLayer := by
  by_cases hmax : maxFileBytes < 16 * s + 16
  · rw [writei, if_pos hmax, if_pos hmax, ite_self]
    rfl
  have hnw : ¬((fs.itable dp).info.size < 16 * s ∨ (16 * s + 16) % 2 ^ 32 < 16 * s) := by
    simp only [maxFileBytes, bsize] at hmax
    omega
  have hblock : min (16 - 0) (bsize - 16 * s % bsize) = 16 := by
    simp only [bsize]
    omega
  have hdata : (fun x => if 16 * s ≤ x ∧ x < 16 * s + 16 then (if x - 16 * s < 16 then de (0 + (x - 16 * s)) else
      fs.data dp (16 * s + (x - 16 * s))) else fs.data dp x) = setSlot (fs.data dp) s de := by
    funext x
    rw [setSlot]
    by_cases hx : 16 * s ≤ x ∧ x < 16 * s + 16
    · rw [if_pos hx, if_pos hx, if_pos (by omega), zero_add]
    · rw [if_neg hx, if_neg hx]
  have hloop : writeiLoop (bufGet de) 16 16 (fs.data dp) 0 (16 * s) = (16, 16 * s + 16, setSlot (fs.data dp) s de) := by
    rw [← hdata]
    rw [writeiLoop, if_neg (by omega), hblock]
    simp only [bufGet, if_true]
    rw [writeiLoop, if_pos (by omega)]
  have hsize : (if (fs.itable dp).info.size < 16 * s + 16 then 16 * s + 16 else (fs.itable dp).info.size) =
      max (fs.itable dp).info.size (16 * s + 16) := by
    split <;> omega
  rw [writei, if_neg hnw, if_neg hmax, if_neg hmax, hloop]
  simp only [hsize]
  cases io with
  | false => rfl
  | true =>
    refine congrArg Except.ok (congrArg (Prod.mk 16) ?_)
    simp [Fs.putSlot, Fs.setInode, Fs.setDinode, Fs.dinode, update_idem]

theorem putSlot_itable : (fs.putSlot dp s de).itable dp =
    { fs.itable dp with info := { (fs.itable dp).info with size := max (fs.itable dp).info.size (16 * s + 16) } } :=
  update_self ..

theorem putSlot_dinode : (fs.putSlot dp s de).dinode dp =
    ⟨{ (fs.itable dp).info with size := max (fs.itable dp).info.size (16 * s + 16) }, setSlot (fs.data dp) s de⟩ := by
  rw [Fs.dinode, putSlot_itable]
  simp [Fs.putSlot, Fs.setDinode]

end Writing

end Xv6Mmap

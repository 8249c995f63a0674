import Xv6Mmap.Lemmas.Copy
import Xv6Mmap.Lemmas.Inodes
import Xv6Mmap.Lemmas.Pages

/-!
# The write-back of `munmap`

What one round of the page loop can do to the file, how much of a page `writei` takes (`pageWritten`), and the removal of the page.
-/

namespace Xv6Mmap

/-! ## `ilock` and `writei` on one entry -/

namespace Fs

/-- `ilock` returns: the entry is referenced, and its inode is not free on the disk if it has to be read. -/
def Lockable (fs : Fs) (i : Nat) : Prop :=
  1 ≤ (fs.itable i).ref ∧ ((fs.itable i).valid = true ∨ (fs.dinode i).info.type ≠ 0)

/-- The table after `ilock`. -/
def locked (fs : Fs) (i : Nat) : Fs :=
  if (fs.itable i).valid then fs else fs.setInode i { fs.itable i with valid := true, info := (fs.dinode i).info }

/-- The size of the file of an entry, in memory or still on the disk. -/
def isize (fs : Fs) (i : Nat) : Nat := if (fs.itable i).valid then (fs.itable i).info.size else (fs.dinode i).info.size

/-- The file system after a write to an entry left it with this content and this size. -/
def wrote (fs : Fs) (i : Nat) (data : Nat → UInt8) (size : Nat) : Fs :=
  let ip := { fs.itable i with info := { (fs.itable i).info with size := size } }
  (fs.setInode i ip).setDinode ip.dev ip.inum ⟨ip.info, data⟩

theorem locked_entry (fs : Fs) (i : Nat) :
    ((fs.locked i).itable i).valid = true ∧ ((fs.locked i).itable i).info.size = fs.isize i := by
  unfold locked isize
  by_cases h : (fs.itable i).valid = true
  · rw [if_pos h, if_pos h]
    exact ⟨h, rfl⟩
  · rw [if_neg h, if_neg h]
    simp [setInode]

theorem locked_disk (fs : Fs) (i : Nat) : (fs.locked i).disk = fs.disk := by
  unfold locked
  split <;> rfl

theorem locked_dev_inum (fs : Fs) (i j : Nat) :
    ((fs.locked i).itable j).dev = (fs.itable j).dev ∧ ((fs.locked i).itable j).inum = (fs.itable j).inum := by
  unfold locked
  split
  · exact ⟨rfl, rfl⟩
  · by_cases hj : j = i
    · subst hj
      simp [setInode]
    · simp [setInode, hj]

theorem locked_dinode (fs : Fs) (i j : Nat) : (fs.locked i).dinode j = fs.dinode j := by
  obtain ⟨hd, hn⟩ := fs.locked_dev_inum i j
  rw [dinode, dinode, locked_disk, hd, hn]

theorem wrote_isize (fs : Fs) (i : Nat) (h : (fs.itable i).valid = true) (data : Nat → UInt8) (size : Nat) :
    (fs.wrote i data size).isize i = size := by
  have hv : ((fs.wrote i data size).itable i).valid = true := by simpa [wrote, setDinode, setInode] using h
  rw [isize, if_pos hv]
  simp [wrote, setDinode, setInode]

end Fs

theorem ilock_some {fs : Fs} {i : Nat} (h : fs.Lockable i) : ilock fs (some i) = .ok (fs.locked i) := by
  obtain ⟨href, hv⟩ := h
  unfold ilock Fs.locked
  dsimp only
  rw [if_neg (by omega)]
  by_cases hval : (fs.itable i).valid = true
  · rw [if_pos hval, if_pos hval]
    rfl
  · rw [if_neg hval, if_neg hval, if_neg (hv.resolve_left hval)]
    rfl

/-- `writei` refuses: the range starts beyond the end of the file, wraps, or passes the largest file. -/
def writeRefused (size off n : Nat) : Bool := decide (size < off ∨ (off + n) % 2 ^ 32 < off ∨ maxFileBytes < off + n)

theorem writei_refused {io : Bool} {fs : Fs} {i off n : Nat} {get : Nat → (Nat → UInt8) → Nat → Bool × (Nat → UInt8)}
    (h : writeRefused (fs.itable i).info.size off n = true) : writei io fs i get off n = .ok (-1, fs) := by
  have h' : (fs.itable i).info.size < off ∨ (off + n) % 2 ^ 32 < off ∨ maxFileBytes < off + n := by
    simpa [writeRefused] using h
  unfold writei
  by_cases h1 : (fs.itable i).info.size < off ∨ (off + n) % 2 ^ 32 < off
  · exact if_pos h1
  · rw [if_neg h1, if_pos (by tauto)]
    rfl

theorem writei_accepted {io : Bool} {fs : Fs} {i off n : Nat} {get : Nat → (Nat → UInt8) → Nat → Bool × (Nat → UInt8)}
    (h : writeRefused (fs.itable i).info.size off n = false) : writei io fs i get off n = if io then
        .ok (((writeiLoop get n n (fs.data i) 0 off).1 : Nat), fs.wrote i (writeiLoop get n n (fs.data i) 0 off).2.2
            (max (fs.itable i).info.size (writeiLoop get n n (fs.data i) 0 off).2.1)) else .error .blockLayer := by
  have h' : ¬((fs.itable i).info.size < off ∨ (off + n) % 2 ^ 32 < off ∨ maxFileBytes < off + n) := by
    simpa [writeRefused] using h
  have hmax : ∀ a b : Nat, (if a < b then b else a) = max a b := by
    intro a b
    split <;> omega
  unfold writei
  dsimp only
  rw [if_neg (by tauto), if_neg (by tauto), hmax]
  cases io with
  | false => rfl
  | true =>
    refine congrArg (fun fs' : Fs => Except.ok (((writeiLoop get n n (fs.data i) 0 off).1 : Int), fs')) ?_
    simp [Fs.wrote, Fs.setDinode, Fs.setInode, Fs.dinode]

/-! ## One page -/

/-- The offset in the file at which `munmap` writes a page back, a `uint`. -/
def Vma.backOffset (v : Vma) (page : Nat) : Nat := (page + 2 ^ 64 - v.addrinit) % 2 ^ 32

/-- What `writei` makes of the content of the file when `len` bytes of a page go to `off`: how many it took, where it stopped, and
the content. -/
def pageWritten (pt : PageTable) (ram : Nat → Nat → UInt8) (page : Nat) (data : Nat → UInt8) (off len : Nat) :
    Nat × Nat × (Nat → UInt8) :=
  writeiLoop (userGet pt ram page) len len data 0 off

/-- Up to a page is taken whole; a page that is not the user's gives nothing. -/
theorem pageWritten_end {pt : PageTable} {ram : Nat → Nat → UInt8} {page len : Nat} (hp : page % pgSize = 0) (hlt : page < maxVa)
    (h0 : 0 < len) (hlen : len ≤ pgSize) (data : Nat → UInt8) (off : Nat) :
    (pageWritten pt ram page data off len).2.1 = off + if walkaddr pt page = 0 then 0 else len := by
  unfold pageWritten
  by_cases hpa : walkaddr pt page = 0
  · rw [if_pos hpa, writeiLoop_stuck hp hlt hpa h0, add_zero]
  · rw [if_neg hpa, writeiLoop_page hp hlt hpa hlen _ _ 0 _ (by omega) (by omega), Nat.sub_zero]

section Round

variable {io : Bool} {F : Nat → File} {v : Vma} {pt : PageTable} {fs : Fs} {ram : Nat → Nat → UInt8}
  {j page : Nat}

theorem writeBack_writei {f ip : Nat} (hf : v.ofile = some f) (hip : (F f).ip = some ip) (hl : fs.Lockable ip) :
    writeBack io F v pt ram fs j page =
      (writei io (fs.locked ip) ip (userGet pt ram page) (v.backOffset page) (writeLen j (fs.isize ip)) >>= fun r =>
        pure (decide (r.1 ≠ -1), decide (0 < sizeWritten j (fs.isize ip)), r.2)) := by
  rw [writeBack, hf]
  simp only [hip, ilock_some hl]
  rw [ok_bind]
  rw [(fs.locked_entry ip).2, Vma.backOffset]

theorem writeBack_eq {f ip : Nat} (hf : v.ofile = some f) (hip : (F f).ip = some ip) (hl : fs.Lockable ip) :
    writeBack io F v pt ram fs j page = if writeRefused (fs.isize ip) (v.backOffset page) (writeLen j (fs.isize ip)) then
        .ok (false, decide (0 < sizeWritten j (fs.isize ip)), fs.locked ip) else if io then
        let w := pageWritten pt ram page (fs.data ip) (v.backOffset page) (writeLen j (fs.isize ip))
        .ok (true, decide (0 < sizeWritten j (fs.isize ip)), (fs.locked ip).wrote ip w.2.2 (max (fs.isize ip) w.2.1))
      else .error .blockLayer := by
  have hsize := (fs.locked_entry ip).2
  have hdata : (fs.locked ip).data ip = fs.data ip := by rw [Fs.data, Fs.data, Fs.locked_dinode]
  rw [writeBack_writei hf hip hl]
  -- the arithmetic of the offset and of the length plays no part in the rest
  generalize v.backOffset page = off
  generalize writeLen j (fs.isize ip) = len
  by_cases hr : writeRefused (fs.isize ip) off len = true
  · rw [if_pos hr, writei_refused (by rw [hsize]; exact hr), ok_bind]
    rfl
  rw [if_neg hr, writei_accepted (by rw [hsize]; simpa using hr), hdata, hsize]
  cases io with
  | false =>
    rfl
  | true =>
    rfl

end Round

end Xv6Mmap

import Xv6Mmap.Lemmas.MkfsFiles
import Xv6Mmap.Lemmas.BlockReads
import Xv6Mmap.BlockBoot

/-!
# The kernel reads what `mkfs` wrote

The kernel finds each file that was given to `mkfs` in the root directory of the image, and reads its bytes. The last block of the
root directory may be missing; the search ends before it.
-/

namespace Xv6Mmap.Blk

open Function List HostFile

variable {st st' : Mkfs} {files : List HostFile} {t k : Nat}

/-! ## The entries of the root directory -/

/-- The inode number and the name in slot `t` of the root directory. -/
def rootNum : Nat → Nat
  | 0 => rootIno
  | 1 => rootIno
  | i + 2 => i + 2

def rootName (files : List HostFile) : Nat → List UInt8
  | 0 => [46]
  | 1 => [46, 46]
  | i + 2 => (files[i]?.map HostFile.name).getD []

theorem rootName_snoc {f : HostFile} (ht : t < files.length + 2) : rootName (files ++ [f]) t = rootName files t := by
  match t with
  | 0 => rfl
  | 1 => rfl
  | i + 2 =>
    show ((files ++ [f])[i]?.map name).getD [] = (files[i]?.map name).getD []
    rw [List.getElem?_append_left (by omega)]

theorem rootBytes_entry (ht : t < files.length + 2) (hk : k < 16) :
    (rootBytes files).getD (16 * t + k) 0 = (Mkfs.dirent (rootNum t) (rootName files t)).getD k 0 := by
  induction files using List.reverseRecOn with
  | nil =>
    have hdot := dirent_length rootIno [46]
    have hroot : rootBytes [] = Mkfs.dirent rootIno [46] ++ Mkfs.dirent rootIno [46, 46] := rfl
    rw [hroot]
    match t with
    | 0 => rw [mul_zero, zero_add, getD_append _ _ _ _ (by omega)]; rfl
    | 1 => rw [getD_append_right _ _ _ _ (by omega), hdot, Nat.add_sub_cancel_left]; rfl
  | append_singleton files f ih =>
    have hlen := rootBytes_length files
    rw [rootBytes_snoc]
    by_cases hlast : t = files.length + 2
    · subst hlast
      rw [getD_append_right _ _ _ _ (by omega), hlen, Nat.add_sub_cancel_left]
      congr 1
      show Mkfs.dirent (files.length + 2) f.name = Mkfs.dirent (files.length + 2) _
      simp [rootName]
    · have ht : t < files.length + 2 := by
        rw [length_append, length_singleton] at ht
        omega
      rw [getD_append _ _ _ _ (by omega), rootName_snoc ht]
      exact ih ht

theorem dirent_bytes {x : Nat} {name : List UInt8} (hlen : name.length ≤ dirsiz) :
    (Mkfs.dirent x name).getD 0 0 = UInt8.ofNat x ∧ (Mkfs.dirent x name).getD 1 0 = UInt8.ofNat (x / 256) ∧
    ∀ k < dirsiz, (Mkfs.dirent x name).getD (2 + k) 0 = nameBuf name k := by
  refine ⟨rfl, rfl, fun k hk => ?_⟩
  unfold Mkfs.dirent
  rw [getD_append_right _ _ _ _ (by simp), take_of_length_le hlen]
  simp only [length_cons, length_nil, zero_add]
  rw [show 2 + k - (1 + 1) = k by omega]
  unfold nameBuf
  by_cases hin : k < name.length
  · rw [getD_append _ _ _ _ hin]
  · have hin := Nat.not_lt.mp hin
    rw [getD_append_right _ _ _ _ hin, getD_eq_default _ _ hin]
    rw [getD_eq_getElem?_getD, List.getElem?_replicate]
    split <;> rfl

theorem direntAt_root {data : Nat → UInt8} (hdata : ∀ o < 16 * (files.length + 2), data o = (rootBytes files).getD o 0)
    (hfew : files.length + 1 < mkNinodes) (hname : ∀ t < files.length + 2, (rootName files t).length ≤ dirsiz)
    (ht : t < files.length + 2) : direntAt data t = some (dirKey (rootName files t), rootNum t) := by
  obtain ⟨h0, h1, hrest⟩ := dirent_bytes (x := rootNum t) (hname t ht)
  have hbyte : ∀ k < 16, slotBytes data t k = (Mkfs.dirent (rootNum t) (rootName files t)).getD k 0 := fun k hk =>
    (hdata _ (by omega)).trans (rootBytes_entry ht hk)
  have hbounds : 0 < rootNum t ∧ rootNum t < 200 := by
    simp only [mkNinodes] at hfew
    match t with
    | 0 => exact ⟨by decide, by decide⟩
    | 1 => exact ⟨by decide, by decide⟩
    | i + 2 => exact ⟨Nat.succ_pos _, by show i + 2 < 200; omega⟩
  have hnum : direntInum (slotBytes data t) = rootNum t := by
    unfold direntInum
    rw [hbyte 0 (by omega), hbyte 1 (by omega), h0, h1, UInt8.toNat_ofNat', UInt8.toNat_ofNat']
    omega
  have hkey : cstr (fun k => slotBytes data t (2 + k)) dirsiz 0 = dirKey (rootName files t) := by
    refine cstr_congr fun k hk => ?_
    rw [zero_add, hbyte _ (by simp only [dirsiz] at hk; omega)]
    exact hrest k hk
  unfold direntAt
  rw [hnum, hkey, if_neg (Nat.ne_of_gt hbounds.1)]

/-! ## The state of the kernel -/

/-- The fields of the superblock that the kernel reads from block 1. -/
def superblockOf (d : Bytes) : Superblock := ⟨leField d 4 4, leField d 12 4, leField d 20 4, leField d 24 4, leField d 28 4⟩

theorem superblockOf_sbBytes : superblockOf sbBytes = mkSb := by
  congr 1

/-- The kernel between calls, with the blocks of the image on its disk and in its buffers, and two unused entries in the inode
table. -/
structure OnImage (st : Mkfs) (s : Sys) : Prop where
  calm : Calm none s
  ilock : ∀ j, s.ilock j = none
  block : s.block = st.image
  table : Table mkSb s
  unused : ∃ j < ninode, ∃ j' < ninode, j ≠ j' ∧ (s.inode j).ref = 0 ∧ (s.inode j').ref = 0

/-- The code of the kernel that looks a name up in the root directory and reads from the inode: the size and what `readi` returns. -/
def readFile (sb : Superblock) (name : List UInt8) (off n : Nat) : Code (Option (Nat × Int × Bytes)) := do
  let dp ← iget rootDev rootIno
  ilock sb (some dp)
  match ← dirlookup sb dp name with
  | none => pure none
  | some (ip, _) => do
    ilock sb (some ip)
    let x ← inode ip
    let (r, buf) ← readi sb ip none off n
    pure (some (x.info.size, r, buf))

/-- The names that a file can have. -/
structure NameOk (name : List UInt8) : Prop where
  nonempty : name ≠ []
  short : name.length ≤ dirsiz
  dot : name ≠ [46]
  dots : name ≠ [46, 46]
  bytes : 0 ∉ name

section

variable {Λ : Layout} {i j x : Nat} {s s' : Sys} {sb : Superblock} {E : Stop → Prop}

/-- Entry `j` is inode `x`, locked and read. -/
structure Opened (sb : Superblock) (s : Sys) (x j : Nat) : Prop where
  lt : j < ninode
  ref : 0 < (s.inode j).ref
  dev : (s.inode j).dev = rootDev
  inum : (s.inode j).inum = x
  info : (s.inode j).info = diskInfo sb s.block x
  vol : s.volAt sb j = s.vol sb

/-- The state with inode `j` locked and read. -/
structure Locks (sb : Superblock) (i j : Nat) (s s' : Sys) : Prop where
  calm : Calm none s'
  table : Table sb s'
  block : s'.block = s.block
  ilock : s'.ilock = update s.ilock j (some i)
  ref : ∀ j', (s'.inode j').ref = (s.inode j').ref
  opened : ∀ x, (s.inode j).inum = x → x < sb.ninodes → Opened sb s' x j

theorem solo_open (hc : Calm none s) (ht : Table sb s) (hj : j < ninode) (href : 0 < (s.inode j).ref)
    (hdev : (s.inode j).dev = rootDev) (hlock : s.ilock j = none) (htype : (diskInfo sb s.block (s.inode j).inum).type ≠ 0) :
    Solo Λ i (ilock sb (some j)) s (fun _ s' => Locks sb i j s s') E := by
  refine runs_imp (solo_ilock hc href hlock htype) fun _ s' hr => ?_
  obtain ⟨hr', hd', hx', hv'⟩ := loaded_same s sb j
  have hinode : s'.inode = update s.inode j (s.loaded sb j) := hr.inode
  have hself : s'.inode j = s.loaded sb j := by rw [hinode, update_self]
  have hblock : s'.block = s.block := hr.block
  have ht' : Table sb s' := hr.table (ht.lockInode hj href i)
  refine ⟨hr.calm ⟨hc.plock, hc.holder⟩, ht', hblock, hr.ilock, fun j' => ?_, ?_⟩
  · by_cases h : j' = j
    · rw [h, hself, hr']
    · rw [hinode, update_of_ne h]
  · rintro x rfl hlt
    refine ⟨hj, by rw [hself, hr']; exact href, by rw [hself, hd']; exact hdev, by rw [hself, hx'], ?_, ?_⟩
    · rw [hself, hblock]
      exact (ht.loaded_agrees hj href).1
    · exact ht'.volAt hj (by rw [hself, hr']; exact href) (by rw [hself]; exact hv') (by rw [hself, hx']; exact hlt)

end

/-! ## The files of the image -/

theorem volOf_size {m : Nat → Bytes} {x : Nat} (hx : x < mkNinodes) : (volOf mkSb m).size x = (diskInfo mkSb m x).size := if_pos hx

section

variable (h : MkFiles st (files.length + 1) mkTypes (mkContents files)) (hf : Finished st st')
include h hf

theorem Finished.root :
    (diskInfo mkSb st'.image rootIno).type = tDir ∧ 16 * (files.length + 2) ≤ (diskInfo mkSb st'.image rootIno).size ∧
    (volOf mkSb st'.image).Backed mkSb rootIno (16 * (files.length + 2)) ∧
    ∀ o < 16 * (files.length + 2), (volOf mkSb st'.image).content rootIno o = (rootBytes files).getD o 0 := by
  have hin : 1 ≤ files.length + 1 := Nat.le_add_left ..
  have hlen := rootBytes_length files
  have hsize : st.vol.size rootIno = 16 * (files.length + 2) := (h.size _ le_rfl hin).trans hlen
  have hlive : st.vol.live rootIno := (h.live _).mpr ⟨le_rfl, hin⟩
  have hdisk : (volOf mkSb st'.image).size rootIno = (diskInfo mkSb st'.image rootIno).size := volOf_size (by decide)
  refine ⟨?_, ?_, ?_, fun o ho => ?_⟩
  · rw [hf.type rootIno (by decide), (h.type _ le_rfl hin).1]
    rfl
  · rw [← hdisk, hf.vol, Vol.setSize_size]
    simp only [roundedSize, bsize]
    omega
  · have hb := h.inv.sound.backed hlive
    rw [hsize] at hb
    rw [hf.vol]
    exact ⟨hb.inside, hb.block, hb.table⟩
  · have hc := h.content rootIno le_rfl hin o (Nat.lt_of_lt_of_eq ho hlen.symm)
    rw [hf.vol]
    exact hc

theorem Finished.file {k : Nat} {f : HostFile} (hk : files[k]? = some f) :
    (diskInfo mkSb st'.image (k + 2)).type = tFile ∧ (diskInfo mkSb st'.image (k + 2)).size = f.bytes.length ∧
    (volOf mkSb st'.image).Backed mkSb (k + 2) f.bytes.length ∧
    ∀ o < f.bytes.length, (volOf mkSb st'.image).content (k + 2) o = f.bytes.getD o 0 := by
  have hlt := (List.getElem?_eq_some_iff.mp hk).1
  have hin : k + 2 ≤ files.length + 1 := by omega
  have hpos : 1 ≤ k + 2 := Nat.le_add_left ..
  have hfew := h.few
  have hbytes : mkContents files (k + 2) = f.bytes := by
    show (files[k]?.map bytes).getD [] = _
    rw [hk]
    rfl
  have hsize := h.size _ hpos hin
  have hcontent := h.content _ hpos hin
  rw [hbytes] at hsize hcontent
  have hlive : st.vol.live (k + 2) := (h.live _).mpr ⟨hpos, hin⟩
  have hdisk : (volOf mkSb st'.image).size (k + 2) = (diskInfo mkSb st'.image (k + 2)).size :=
    volOf_size (lt_of_le_of_lt hin hfew)
  refine ⟨?_, ?_, ?_, fun o ho => ?_⟩
  · rw [hf.type _ (lt_of_le_of_lt hin hfew), (h.type _ hpos hin).1]
    exact if_neg (by simp only [rootIno]; omega)
  · rw [← hdisk, hf.vol, ← hsize]
    exact Vol.setSize_size_of_ne (show k + 2 ≠ 1 by omega)
  · have hb := h.inv.sound.backed hlive
    rw [hsize] at hb
    rw [hf.vol]
    exact ⟨hb.inside, hb.block, hb.table⟩
  · rw [hf.vol]
    exact hcontent o ho

end

/-! ## Reading a file -/

section

variable {Λ : Layout} {i off n : Nat} {s : Sys}

theorem rootName_ok (hok : ∀ f ∈ files, NameOk f.name) (ht : t < files.length + 2) :
    (rootName files t).length ≤ dirsiz ∧ 0 ∉ rootName files t := by
  match t with
  | 0 => exact (show ([46] : List UInt8).length ≤ dirsiz ∧ 0 ∉ [46] by decide)
  | 1 => exact (show ([46, 46] : List UInt8).length ≤ dirsiz ∧ 0 ∉ [46, 46] by decide)
  | k + 2 =>
    have hk : k < files.length := by omega
    show ((files[k]?.map name).getD []).length ≤ dirsiz ∧ 0 ∉ (files[k]?.map name).getD []
    rw [List.getElem?_eq_getElem hk]
    exact ⟨(hok _ (getElem_mem hk)).short, (hok _ (getElem_mem hk)).bytes⟩

theorem rootName_first {k : Nat} {f : HostFile} (hok : ∀ f ∈ files, NameOk f.name) (hdist : (files.map name).Nodup)
    (hk : files[k]? = some f) (ht : t < k + 2) : rootName files t ≠ f.name := by
  have hf := hok f (mem_of_getElem? hk)
  match t with
  | 0 => exact fun h => hf.dot h.symm
  | 1 => exact fun h => hf.dots h.symm
  | m + 2 =>
    obtain ⟨hlt, rfl⟩ := List.getElem?_eq_some_iff.mp hk
    have hm : m < files.length := by omega
    show (files[m]?.map name).getD [] ≠ _
    rw [List.getElem?_eq_getElem hm]
    have hne := pairwise_iff_getElem.mp hdist m k (by rw [length_map]; exact hm)
      (by rw [length_map]; exact hlt) (by omega)
    rw [getElem_map, getElem_map] at hne
    exact hne

theorem solo_readFile (h : MkFiles st (files.length + 1) mkTypes (mkContents files)) (hf : Finished st st') (hs : OnImage st' s)
    (hok : ∀ f ∈ files, NameOk f.name) (hdist : (files.map name).Nodup) {k : Nat} {f : HostFile} (hk : files[k]? = some f)
    {E : Stop → Prop} : Solo Λ i (readFile mkSb f.name off n) s (fun r _ => ∃ buf,
      r = some (f.bytes.length, (readLength f.bytes.length off n : Int), buf) ∧
      ∀ o < readLength f.bytes.length off n, buf o = f.bytes.getD (off + o) 0) E := by
  obtain ⟨hrtype, hrsize, hrback, hrcont⟩ := hf.root h
  obtain ⟨hftype, hfsize, hfback, hfcont⟩ := hf.file h hk
  have hfew := h.few
  have hlt := (List.getElem?_eq_some_iff.mp hk).1
  have hname : rootName files (k + 2) = f.name := by
    show (files[k]?.map name).getD [] = _
    rw [hk]
    rfl
  have hkey : ∀ t < files.length + 2, dirKey (rootName files t) = rootName files t := fun t ht => by
    rw [dirKey_eq_take (rootName_ok hok ht).2, take_of_length_le (rootName_ok hok ht).1]
  have hentry : ∀ t < files.length + 2, direntAt ((volOf mkSb st'.image).content rootIno) t = some (rootName files t, rootNum t) :=
    fun t ht => by rw [direntAt_root hrcont hfew (fun t ht => (rootName_ok hok ht).1) ht, hkey t ht]
  have hkeyf : dirKey f.name = f.name := by
    have := hkey (k + 2) (by omega)
    rwa [hname] at this
  obtain ⟨j1, hj1, j2, hj2, hne, hz1, hz2⟩ := hs.unused
  refine runs_bind (solo_iget ⟨j1, hj1, hz1⟩) ?_
  rintro dp s1 ⟨e, hgot, rfl⟩
  have hself : (s.setInode dp e).inode dp = e := update_self ..
  have hopen : Solo Λ i (ilock mkSb (some dp)) (s.setInode dp e) _ E :=
    solo_open ⟨hs.calm.plock, hs.calm.holder⟩ (hgot.table hs.table) hgot.lt (by rw [hself]; exact hgot.ref)
      (by rw [hself]; exact hgot.dev) (hs.ilock dp) (by
        rw [hself, hgot.inum]
        show (diskInfo mkSb s.block rootIno).type ≠ 0
        rw [hs.block, hrtype]
        decide)
  refine runs_bind hopen ?_
  rintro - s2 hL
  have hop := hL.opened rootIno (by rw [hself]; exact hgot.inum) (by decide)
  have hblock2 : s2.block = st'.image := hL.block.trans hs.block
  have hvol2 : s2.volAt mkSb dp = volOf mkSb st'.image := by
    rw [hop.vol]
    unfold Sys.vol
    rw [hblock2]
  -- one of the two entries is still unused
  have hfree2 : ∃ j < ninode, (s2.inode j).ref = 0 := by
    by_cases hd : j1 = dp
    · refine ⟨j2, hj2, ?_⟩
      rw [hL.ref]
      exact (congrArg Minode.ref (update_of_ne (fun e => hne (hd.trans e.symm)) ..)).trans hz2
    · refine ⟨j1, hj1, ?_⟩
      rw [hL.ref]
      exact (congrArg Minode.ref (update_of_ne hd ..)).trans hz1
  have hlookup : Solo Λ i (dirlookup mkSb dp f.name) s2 (fun r s' => ∃ ip s3 e', r = some (ip, 16 * (k + 2)) ∧ ReadsOnly s2 s3 ∧
      Got s3 rootDev (k + 2) ip e' ∧ s' = s3.setInode ip e') E := by
    refine solo_dirlookup hL.calm (by rw [hvol2, hop.inum]; exact hrback) (by rw [hop.info, hblock2]; exact hrsize)
      (by rw [hop.info, hblock2]; exact hrtype) (t := k + 2) (x := k + 2) (by omega) ?_ (fun t ht y => ?_) fun s3 hr => ?_
    · rw [hvol2, hop.inum, hentry _ (by omega), hname, hkeyf]
      rfl
    · rw [hvol2, hop.inum, hentry _ (by omega), hkeyf]
      intro heq
      exact rootName_first hok hdist hk ht (congrArg Prod.fst (Option.some.inj heq))
    · rw [hop.dev]
      refine runs_imp (solo_iget (by rw [hr.inode]; exact hfree2)) ?_
      rintro ip s' ⟨e', hg, rfl⟩
      exact ⟨ip, s3, e', rfl, hr, hg, rfl⟩
  refine runs_bind hlookup ?_
  rintro _ s4 ⟨ip, s3, e', rfl, hr, hg, rfl⟩
  have hself' : (s3.setInode ip e').inode ip = e' := update_self ..
  have hblock3 : s3.block = st'.image := hr.block.trans hblock2
  -- the inode of the file has an entry of its own
  have hip : ip ≠ dp := by
    rintro rfl
    have hdp : (s2.inode ip).inum = 1 := hop.inum
    have href := hop.ref
    rw [← hr.inode] at hdp href
    rcases hg.old with ⟨-, rfl⟩ | ⟨hz, -, -⟩
    · have := hg.inum
      dsimp only at this
      omega
    · omega
  have hopen' : Solo Λ i (ilock mkSb (some ip)) (s3.setInode ip e') _ E :=
    solo_open ⟨(hr.calm hL.calm).plock, (hr.calm hL.calm).holder⟩ (hg.table (hr.table hL.table)) hg.lt (by rw [hself']; exact hg.ref)
      (by rw [hself']; exact hg.dev)
      (by
        show s3.ilock ip = none
        rw [hr.ilock, hL.ilock, update_of_ne hip]
        exact hs.ilock ip)
      (by
        rw [hself', hg.inum]
        show (diskInfo mkSb s3.block (k + 2)).type ≠ 0
        rw [hblock3, hftype]
        decide)
  refine runs_bind hopen' ?_
  rintro - s5 hL'
  have hop' := hL'.opened (k + 2) (by rw [hself']; exact hg.inum) (by simp only [mkNinodes] at hfew; show k + 2 < 200; omega)
  have hblock5 : s5.block = st'.image := hL'.block.trans hblock3
  have hvol5 : s5.volAt mkSb ip = volOf mkSb st'.image := by
    rw [hop'.vol]
    unfold Sys.vol
    rw [hblock5]
  have hsize5 : (s5.inode ip).info.size = f.bytes.length := by rw [hop'.info, hblock5]; exact hfsize
  have hread : Solo Λ i (readi mkSb ip none off n) s5 _ E :=
    solo_readi hL'.calm (by rw [hvol5, hop'.inum]; exact hfback) off n (by
      unfold readLength
      split <;> omega)
  refine runs_act rfl (runs_bind hread ?_)
  rintro ⟨r, buf⟩ s6 ⟨hr6, hbuf, -⟩
  rw [hsize5] at hr6 hbuf ⊢
  refine runs_pure ⟨buf, by rw [← hr6], fun o ho => ?_⟩
  have hb := hbuf o ho
  rw [hvol5, hop'.inum] at hb
  refine hb.trans (hfcont _ ?_)
  unfold readLength at ho
  split at ho <;> omega

/-- For files with proper, distinct names that fit the image, `mkfs` writes an image in whose root directory the kernel finds each
file, and reads its size and its bytes, from any offset on. The kernel takes the superblock from the image. -/
theorem mkfs_read_back {files : List HostFile} (husable : ∀ f ∈ files, f.Usable) (hok : ∀ f ∈ files, NameOk f.name)
    (hdist : (files.map HostFile.name).Nodup) (hinodes : files.length + 1 < mkNinodes)
    (hblocks : Fits (files.length + 1) (mkContents files)) :
    ∃ st, mkfs files = .ok st ∧ ∀ s, OnImage st s → ∀ (Λ : Layout) (i : Nat), ∀ f ∈ files, ∀ off n, ∃ buf s',
      (readFile (superblockOf (s.block 1)) f.name off n).run (fun s a => perform Λ s i a) s =
        .ok (some (f.bytes.length, (readLength f.bytes.length off n : Int), buf), s') ∧
      ∀ o < readLength f.bytes.length off n, buf o = f.bytes.getD (off + o) 0 := by
  obtain ⟨-, -, st0, st, he, h, hf⟩ := (mkfs_cases files hinodes).resolve_right fun hno => hno.1 ⟨husable, hblocks⟩
  refine ⟨st, he, fun s hs Λ i f hmem off n => ?_⟩
  obtain ⟨k, hk⟩ := mem_iff_getElem?.mp hmem
  have hsuper : superblockOf (s.block 1) = mkSb := by
    rw [hs.block, hf.super, h.super]
    exact superblockOf_sbBytes
  rw [hsuper]
  have hrun : Solo Λ i (readFile mkSb f.name off n) s _ fun _ => False := solo_readFile h hf hs hok hdist hk
  obtain ⟨r, s', hrun, buf, rfl, hbuf⟩ := hrun.returns fun _ h => h
  exact ⟨buf, s', hrun, hbuf⟩

end

/-- A kernel that has just been started with the image as its disk. -/
def startSys (Λ : Layout) (st : Mkfs) : Sys :=
  idleSys (bootKernel Λ (fun _ _ => ⟨⟨0, 0, 0, 0, 0⟩, fun _ => 0⟩) mkNinodes) (fun _ _ => 0) st.image fun _ => false

theorem onImage_startSys (Λ : Layout) (st : Mkfs) : OnImage st (startSys Λ st) where
  calm := ⟨fun _ => rfl, fun _ _ => rfl⟩
  ilock := fun _ => rfl
  block := rfl
  table := ⟨fun _ _ => Int.le_refl _, fun _ _ _ _ h => absurd h (Int.lt_irrefl _), fun _ _ h => absurd h (Int.lt_irrefl _)⟩
  unused := ⟨0, by decide, 1, by decide, by decide, rfl, rfl⟩

/-- The files `a`, of three bytes, and `user/_b`, which is empty. -/
def demoFiles : List HostFile := [⟨[97], some [⟨[1, 2, 3], by decide⟩]⟩, ⟨Mkfs.userDir ++ [95, 98], some []⟩]

theorem mkfs_read_back_demo : ∃ st, mkfs demoFiles = .ok st ∧ ∃ buf s',
    (readFile (superblockOf ((startSys demoLayout st).block 1)) [97] 1 10).run (fun s a => perform demoLayout s 0 a)
      (startSys demoLayout st) = .ok (some (3, 2, buf), s') ∧ buf 0 = 2 ∧ buf 1 = 3 := by
  have hfits : Fits (demoFiles.length + 1) (mkContents demoFiles) := by
    have hsizes : ∀ x ≤ 3, (mkContents demoFiles x).length ≤ maxFileBytes := by decide
    exact ⟨by decide, fun x _ hx => hsizes x hx⟩
  have husable : ∀ f ∈ demoFiles, f.Usable :=
    forall_mem_cons.mpr ⟨⟨by decide, rfl⟩, forall_mem_singleton.mpr ⟨by decide, rfl⟩⟩
  have hok : ∀ f ∈ demoFiles, NameOk f.name :=
    forall_mem_cons.mpr ⟨⟨by decide, by decide, by decide, by decide, by decide⟩,
      forall_mem_singleton.mpr ⟨by decide, by decide, by decide, by decide, by decide⟩⟩
  obtain ⟨st, he, hread⟩ := mkfs_read_back husable hok (by decide) (by decide) hfits
  obtain ⟨buf, s', hrun, hbuf⟩ :=
    hread (startSys demoLayout st) (onImage_startSys demoLayout st) demoLayout 0 _ (mem_cons_self ..) 1 10
  exact ⟨st, he, buf, s', hrun, hbuf 0 (by decide), hbuf 1 (by decide)⟩

end Xv6Mmap.Blk

import Xv6Mmap.Mkfs
import Xv6Mmap.Lemmas.VolumeOps

/-!
# What `mkfs` does to its image

The image as a volume with the blocks below `freeblock` as the used ones, as the bitmap is written last. While `iappend` runs, the
volume is taken with its inode, which is in memory. A round of its loop allocates the next block of the file if it has to, and writes
to it; the blocks of a file are those below its size.
-/

namespace Xv6Mmap.Blk

open Function Mkfs Vol

variable {st st' : Mkfs} {x y b o k n : Nat} {d din : Bytes}

/-! ## Sectors -/

theorem sector_eq (h : b < 2 ^ 22) : sector b = b := by
  unfold sector
  simp only [bsize]
  omega

theorem rsect_inside (hs : st.sectors = fsSize) (hb : b < fsSize) : st.rsect b = .ok (st.image b) := by
  simp only [fsSize] at hs hb
  unfold rsect
  rw [sector_eq (by omega), if_pos (by omega)]
  rfl

theorem rsect_outside (hs : st.sectors = fsSize) (hb : fsSize ≤ b) (hsmall : b < 2 ^ 22) : st.rsect b = .error (.die "read") := by
  unfold rsect
  rw [sector_eq hsmall, if_neg (by omega)]
  rfl

theorem wsect_inside (hs : st.sectors = fsSize) (hb : b < fsSize) : st.wsect b d = { st with image := update st.image b d } := by
  simp only [fsSize] at hs hb
  unfold wsect
  rw [sector_eq (by omega)]
  have : max st.sectors (b + 1) = st.sectors := by omega
  rw [this]

theorem leField_shift (d : Bytes) (o k n : Nat) : leField (fun y => d (o + y)) k n = leField d (o + k) n := by
  induction n generalizing k with
  | zero => rfl
  | succ n ih => rw [leField, leField, ih, add_assoc]

/-! ## The volume of the image -/

/-- The files of the image so far. -/
def Mkfs.vol (st : Mkfs) : Vol := { volOf mkSb st.image with used := fun b => decide (b < st.freeblock) }

/-- The block addresses of an inode in memory. -/
def dinAddrs (din : Bytes) : Nat → Nat := slotAddrs fun k => leField din (12 + 4 * k) 4

/-- The files of the image, with inode `x` as it is in memory. -/
def Mkfs.volAt (st : Mkfs) (x : Nat) (din : Bytes) (size : Nat) : Vol := st.vol.setFile x (dinAddrs din) size

theorem dinAddrs_put (hk : k ≤ ndirect) (hb : b < 2 ^ 32) : dinAddrs (putLe din (12 + 4 * k) 4 b) = update (dinAddrs din) k b := by
  funext j
  by_cases hjk : j = k
  · subst hjk
    rw [update_self]
    exact (if_pos hk).trans (leField_putLe hb)
  · rw [update_of_ne hjk]
    unfold dinAddrs slotAddrs
    dsimp only
    have : leField (putLe din (12 + 4 * k) 4 b) (12 + 4 * j) 4 = leField din (12 + 4 * j) 4 := leField_putLe_apart (by omega)
    rw [this]

/-- The state with the next block taken. -/
abbrev Mkfs.taken (st : Mkfs) : Mkfs := { st with freeblock := st.freeblock + 1 }

theorem fill_zero {d : Bytes} {o : Nat} (h : leField d o 4 = 0) : st.fill d o = (putLe d o 4 st.freeblock, st.taken) := if_pos h

theorem fill_same {d : Bytes} {o : Nat} (h : leField d o 4 ≠ 0) : st.fill d o = (d, st) := if_neg h

theorem volAt_alloc {size : Nat} (hblank : st.image st.freeblock = fun _ => 0) :
    volAt st.taken x din size = (st.volAt x din size).alloc st.freeblock := by
  refine Vol.ext ?_ rfl rfl rfl ?_
  · funext b
    show decide (b < st.freeblock + 1) = update (fun b => decide (b < st.freeblock)) st.freeblock true b
    by_cases hbe : b = st.freeblock
    · rw [hbe, update_self]
      exact decide_eq_true (Nat.lt_succ_self _)
    · rw [update_of_ne hbe]
      exact decide_eq_decide.mpr (by omega)
  · show (volOf mkSb st.image).bytes = update (volOf mkSb st.image).bytes st.freeblock fun _ => 0
    funext b
    by_cases hbe : b = st.freeblock
    · subst hbe
      rw [update_self]
      unfold volOf
      dsimp only
      rw [hblank]
      split
      · funext y
        exact ite_self 0
      · rfl
    · rw [update_of_ne hbe]

theorem volAt_setAddr {size : Nat} (hk : k ≤ ndirect) (hb : b < 2 ^ 32) :
    st.volAt x (putLe din (12 + 4 * k) 4 b) size = (st.volAt x din size).setAddr x k b := by
  unfold volAt Vol.setFile Vol.setAddr
  dsimp only
  rw [update_self, update_idem, dinAddrs_put hk hb]

/-- The blocks of the inodes and the bitmap are those before the data. -/
theorem iblock_lt (hx : x < mkNinodes) : mkSb.iblock x < mkSb.datastart := by
  simp only [Superblock.iblock, Superblock.datastart, mkSb, mkNinodes, ipb, bpb, bsize, fsSize, ninodeblocks, mkfsNlog, logSize,
    maxOpBlocks] at hx ⊢
  omega

theorem bblock_lt (hb : b < fsSize) : mkSb.bblock b < mkSb.datastart := by
  simp only [Superblock.bblock, Superblock.datastart, mkSb, mkNinodes, ipb, bpb, bsize, fsSize, ninodeblocks, mkfsNlog, logSize,
    maxOpBlocks] at hb ⊢
  omega

theorem volOf_inodes {m m' : Nat → Bytes} (h : ∀ y < mkNinodes, m' (mkSb.iblock y) = m (mkSb.iblock y)) :
    (volOf mkSb m').live = (volOf mkSb m).live ∧ (volOf mkSb m').addrs = (volOf mkSb m).addrs ∧
    (volOf mkSb m').size = (volOf mkSb m).size := by
  refine ⟨funext fun y => propext (and_congr_right fun hy => ?_), funext fun y => ?_, funext fun y => ?_⟩
  · unfold diskInfo
    rw [h y hy]
  · unfold volOf
    dsimp only
    split
    next hy =>
      unfold diskAddrs
      rw [h y hy]
    next => rfl
  · unfold volOf
    dsimp only
    split
    next hy =>
      unfold diskInfo
      rw [h y hy]
    next => rfl

theorem volOf_put {m : Nat → Bytes} (hb : mkSb.datastart ≤ b) : volOf mkSb (update m b d) = (volOf mkSb m).put b (blockBytes d) := by
  have hinode : ∀ y < mkNinodes, update m b d (mkSb.iblock y) = m (mkSb.iblock y) := fun y hy =>
    update_of_ne (by have := iblock_lt hy; omega) ..
  obtain ⟨hlive, haddrs, hsize⟩ := volOf_inodes hinode
  refine Vol.ext ?_ hlive haddrs hsize ?_
  · funext y
    unfold volOf
    dsimp only
    by_cases hy : y < fsSize
    · rw [update_of_ne (by have := bblock_lt hy; omega)]
      rfl
    · have : ¬ y < mkSb.size := hy
      rw [decide_eq_false this]
      exact (Bool.false_and _).trans (by unfold put; dsimp only; rw [decide_eq_false this, Bool.false_and])
  · funext y
    unfold volOf put
    dsimp only
    by_cases hy : y = b
    · subst hy
      rw [update_self, update_self, if_pos hb]
    · rw [update_of_ne hy, update_of_ne hy]

theorem volAt_put {size : Nat} (hb : mkSb.datastart ≤ b) :
    volAt { st with image := update st.image b d } x din size = (st.volAt x din size).put b (blockBytes d) := by
  have h := volOf_put (m := st.image) (d := d) hb
  unfold volAt vol
  rw [h]
  rfl

theorem volAt_setEntry (st : Mkfs) {size a : Nat} (ha : mkSb.datastart ≤ a) (hk : k < nindirect) :
    volAt { st with image := update st.image a (putLe (st.image a) (4 * k) 4 b) } x din size =
      (st.volAt x din size).setEntry a k b := by
  have hblock : blockBytes (putLe (st.image a) (4 * k) 4 b) = putLe (blockBytes (st.image a)) (4 * k) 4 b := by
    funext y
    simp only [nindirect, bsize] at hk
    unfold blockBytes putLe
    simp only [bsize]
    split <;> split <;> first | rfl | omega
  have hbytes : (st.volAt x din size).bytes a = blockBytes (st.image a) := if_pos ha
  rw [volAt_put ha, hblock]
  unfold setEntry
  rw [hbytes]

/-! ## The invariant -/

/-- The blocks of a file of this size, its indirect block included. -/
def blocksFor (size : Nat) : Nat := (size + (bsize - 1)) / bsize + if (size + (bsize - 1)) / bsize ≤ ndirect then 0 else 1

/-- The image with volume `v` at any time: no block is used twice, none beyond `freeblock` written. -/
structure MkCore (st : Mkfs) (v : Vol) : Prop where
  sectors : st.sectors = fsSize
  blank : ∀ b, st.freeblock ≤ b → st.image b = fun _ => 0
  used : v.used = fun b => decide (b < st.freeblock)
  sound : v.Sound mkSb

/-- Between the rounds of `iappend` no file has blocks beyond its size. -/
structure MkInv (st : Mkfs) (v : Vol) : Prop extends MkCore st v where
  tight : ∀ x, v.live x → ∀ bn < maxfile, v.size x ≤ bn * bsize → v.block x bn = 0
  table : ∀ x, v.live x → v.size x ≤ ndirect * bsize → v.addrs x ndirect = 0

theorem mkSb_datastart : mkSb.datastart = nmeta := by decide

namespace MkCore

variable {v : Vol}

theorem freeblock_le (hi : MkCore st v) : st.freeblock ≤ fsSize := by
  by_contra hlt
  have hu : v.used fsSize = true := by
    rw [hi.used]
    exact decide_eq_true (by omega)
  exact lt_irrefl _ (hi.sound.inside fsSize hu)

theorem fresh (hi : MkCore st v) (hlt : st.freeblock < fsSize) : Vol.Fresh mkSb v st.freeblock :=
  ⟨hlt, by rw [hi.used]; exact decide_eq_false (lt_irrefl _)⟩

theorem block_lt (hi : MkCore st v) {o : Slot} (ho : v.Holds o b) : mkSb.datastart ≤ b ∧ b < st.freeblock := by
  refine ⟨hi.sound.datastart_le ho, ?_⟩
  have hu := hi.sound.used_of_holds ho
  rw [hi.used] at hu
  exact of_decide_eq_true hu

end MkCore

/-! ## A block for the file -/

theorem volAt_size (st : Mkfs) (x : Nat) (din : Bytes) (size : Nat) : (st.volAt x din size).size x = size := update_self ..

theorem volAt_addr (st : Mkfs) (x : Nat) (din : Bytes) (size : Nat) (hk : k ≤ ndirect) :
    (st.volAt x din size).addrs x k = leField din (12 + 4 * k) 4 := by
  have : (st.volAt x din size).addrs x = dinAddrs din := update_self ..
  rw [this]
  exact if_pos hk

theorem volAt_entry (st : Mkfs) (x : Nat) (din : Bytes) (size : Nat) {a : Nat} (ha : mkSb.datastart ≤ a) (hk : k < nindirect) :
    (st.volAt x din size).entry a k = leField (st.image a) (4 * k) 4 := by
  refine leField_congr fun y _ hy => ?_
  have hbytes : (st.volAt x din size).bytes a = blockBytes (st.image a) := if_pos ha
  rw [hbytes]
  refine if_pos ?_
  simp only [nindirect, bsize] at hk hy ⊢
  omega

/-- The inode in memory and the state once block `bn` of file `x` has block `b`; the earlier fields stay. -/
structure Claimed (st : Mkfs) (x off : Nat) (din : Bytes) (bn b : Nat) (din' : Bytes) (st' : Mkfs) : Prop where
  core : MkCore st' (st'.volAt x din' off)
  keeps : Vol.Keeps Set.univ (st.volAt x din off) (st'.volAt x din' off)
  block : ∀ y m, (st.volAt x din off).live y →
    (st'.volAt x din' off).block y m = if y = x ∧ m = bn then b else (st.volAt x din off).block y m
  table : ∀ y, (st.volAt x din off).live y → ¬ (y = x ∧ ndirect ≤ bn) →
    (st'.volAt x din' off).addrs y ndirect = (st.volAt x din off).addrs y ndirect
  inodes : ∀ y < nmeta, st'.image y = st.image y
  freeinode : st'.freeinode = st.freeinode
  fields : ∀ y < 12, din' y = din y
  ne : b ≠ 0

section

variable {bn off : Nat} (hc : MkCore st (st.volAt x din off)) (hx : (st.volAt x din off).live x) (hbn : bn < maxfile)
include hc hx hbn

/-- With an indirect block, `iappend` reads and perhaps writes it. -/
theorem fileBlock_table {a : Nat} {r : Bytes × Mkfs} (hd : ndirect ≤ bn) (ha : (st.volAt x din off).addrs x ndirect = a) (hne : a ≠ 0)
    (hr : st.fill (st.image a) (4 * (bn - ndirect)) = r) : st.fileBlock din bn = .ok (leField r.1 (4 * (bn - ndirect)) 4, din,
      if (st.volAt x din off).block x bn = 0 then r.2.wsect a r.1 else r.2) := by
  have hlt := hc.block_lt (o := .table x) ⟨hx, ha, hne⟩
  have hfb := hc.freeblock_le
  have hentry := volAt_entry st x din off (k := bn - ndirect) hlt.1 (by simp only [maxfile] at hbn; omega)
  rw [← ha, ← block_entry hd (by rw [ha]; exact hne), ha] at hentry
  have haddr := volAt_addr st x din off (le_refl ndirect)
  rw [ha] at haddr
  unfold fileBlock
  rw [if_neg (Nat.not_lt.mpr hd), fill_same (by rw [← haddr]; exact hne), hentry, ← hr]
  dsimp only
  rw [← haddr, rsect_inside hc.sectors (by omega)]
  rfl

theorem fileBlock_same (hb : (st.volAt x din off).block x bn = b) (hne : b ≠ 0) :
    st.fileBlock din bn = .ok (b, din, st) ∧ Claimed st x off din bn b din st := by
  have hself : ∀ y m, (st.volAt x din off).live y →
      (st.volAt x din off).block y m = if y = x ∧ m = bn then b else (st.volAt x din off).block y m := by
    intro y m _
    split
    next e =>
      obtain ⟨rfl, rfl⟩ := e
      exact hb
    next => rfl
  refine ⟨?_, hc, Vol.Keeps.refl _ _, hself, fun _ _ _ => rfl, fun _ _ => rfl, rfl, fun _ _ => rfl, hne⟩
  by_cases hd : bn < ndirect
  · have haddr : leField din (12 + 4 * bn) 4 = b := by
      rw [← volAt_addr st x din off (le_of_lt hd), ← block_direct hd, hb]
    unfold fileBlock
    rw [if_pos hd, fill_same (by rw [haddr]; exact hne)]
    dsimp only
    rw [haddr]
    rfl
  · have hd := Nat.not_lt.mp hd
    have ha : (st.volAt x din off).addrs x ndirect ≠ 0 := by
      intro ha
      rw [block_none hd ha] at hb
      exact hne hb.symm
    have hlt := hc.block_lt (o := .table x) ⟨hx, rfl, ha⟩
    have hentry := volAt_entry st x din off (k := bn - ndirect) hlt.1 (by simp only [maxfile] at hbn; omega)
    rw [← block_entry hd ha, hb] at hentry
    rw [fileBlock_table hc hx hbn hd rfl ha (fill_same (by rw [← hentry]; exact hne)), if_neg (by rw [hb]; exact hne), ← hentry]

omit hbn in
theorem fileBlock_direct (hd : bn < ndirect) (hb : (st.volAt x din off).block x bn = 0) :
    st.fileBlock din bn = .ok (st.freeblock, putLe din (12 + 4 * bn) 4 st.freeblock, st.taken) ∧
    (st.freeblock < fsSize → Claimed st x off din bn st.freeblock (putLe din (12 + 4 * bn) 4 st.freeblock) st.taken) := by
  have hle := hc.freeblock_le
  have hsmall : st.freeblock < 2 ^ 32 := by simp only [fsSize] at hle; omega
  have hzero : (st.volAt x din off).addrs x bn = 0 := by rw [← block_direct hd]; exact hb
  constructor
  · unfold fileBlock
    rw [if_pos hd, fill_zero (by rw [← volAt_addr st x din off (le_of_lt hd)]; exact hzero)]
    dsimp only
    rw [leField_putLe hsmall]
    rfl
  · intro hlt
    have hv : volAt st.taken x (putLe din (12 + 4 * bn) 4 st.freeblock) off =
        ((st.volAt x din off).alloc st.freeblock).setAddr x bn st.freeblock := by
      rw [volAt_setAddr (le_of_lt hd) hsmall, volAt_alloc (hc.blank _ le_rfl)]
    obtain ⟨hsound, hkeeps, hblock⟩ := hc.sound.setDirect (hc.fresh hlt) hx hd hzero
    rw [← hv] at hsound hkeeps hblock
    refine ⟨⟨hc.sectors, fun b hb => hc.blank b (Nat.le_of_succ_le hb), rfl, hsound⟩, hkeeps, hblock, fun y hy hne => ?_,
      fun _ _ => rfl, rfl, fun y hy => putLe_apart (by omega), hc.sound.fresh_ne_zero (hc.fresh hlt)⟩
    rw [hv]
    by_cases e : y = x
    · subst e
      rw [setAddr_addrs_self, update_of_ne (by omega)]
      rfl
    · rw [setAddr_addrs_of_ne e]
      rfl

theorem fileBlock_entry {a : Nat} (hd : ndirect ≤ bn) (hb : (st.volAt x din off).block x bn = 0)
    (ha : (st.volAt x din off).addrs x ndirect = a) (hne : a ≠ 0) :
    ∃ st', st.fileBlock din bn = .ok (st.freeblock, din, st') ∧ st'.freeblock = st.freeblock + 1 ∧ st'.sectors = fsSize ∧
    (st.freeblock < fsSize → Claimed st x off din bn st.freeblock din st') := by
  have hle := hc.freeblock_le
  have hsmall : st.freeblock < 2 ^ 32 := by simp only [fsSize] at hle; omega
  have hlt := hc.block_lt (o := .table x) ⟨hx, ha, hne⟩
  have hk : bn - ndirect < nindirect := by simp only [maxfile] at hbn; omega
  have hentry := volAt_entry st x din off hlt.1 hk
  rw [← ha, ← block_entry hd (by rw [ha]; exact hne), hb, ha] at hentry
  refine ⟨{ st.taken with image := update st.image a (putLe (st.image a) (4 * (bn - ndirect)) 4 st.freeblock) }, ?_, rfl, hc.sectors, ?_⟩
  · rw [fileBlock_table hc hx hbn hd ha hne (fill_zero hentry.symm), if_pos hb, leField_putLe hsmall]
    rw [wsect_inside (show sectors st.taken = fsSize from hc.sectors) (lt_of_lt_of_le hlt.2 hle)]
  intro hfresh
  have hv : volAt { st.taken with image := update st.image a (putLe (st.image a) (4 * (bn - ndirect)) 4 st.freeblock) } x din off =
      ((st.volAt x din off).alloc st.freeblock).setEntry a (bn - ndirect) st.freeblock := by
    rw [← volAt_alloc (hc.blank _ le_rfl)]
    exact volAt_setEntry st.taken hlt.1 hk
  obtain ⟨hsound, hkeeps, hblock⟩ := hc.sound.setEntry (hc.fresh hfresh) hx (by rw [ha]; exact hne) hd hbn hb hsmall
  rw [ha, ← hv] at hsound hkeeps hblock
  refine ⟨⟨hc.sectors, fun b hb => ?_, rfl, hsound⟩, hkeeps, hblock, fun y _ _ => by rw [hv]; rfl, fun y hy => ?_, rfl,
      fun _ _ => rfl, hc.sound.fresh_ne_zero (hc.fresh hfresh)⟩
  · dsimp only at hb ⊢
    rw [update_of_ne (by omega)]
    exact hc.blank b (Nat.le_of_succ_le hb)
  · dsimp only
    rw [update_of_ne (by rw [mkSb_datastart] at hlt; omega)]

theorem fileBlock_both (hd : ndirect ≤ bn) (ha : (st.volAt x din off).addrs x ndirect = 0) :
    (fsSize ≤ st.freeblock → st.fileBlock din bn = .error (.die "read")) ∧
    (st.freeblock < fsSize → ∃ b din' st', st.fileBlock din bn = .ok (b, din', st') ∧ b = st.freeblock + 1 ∧
      st'.freeblock = st.freeblock + 2 ∧ st'.sectors = fsSize ∧ (b < fsSize → Claimed st x off din bn b din' st')) := by
  have hle := hc.freeblock_le
  have hsmall : st.freeblock < 2 ^ 22 := by simp only [fsSize] at hle; omega
  have hfill : st.fill din _ = (_, st.taken) := fill_zero (by rw [← volAt_addr st x din off le_rfl]; exact ha)
  constructor
  · intro hout
    unfold fileBlock
    rw [if_neg (Nat.not_lt.mpr hd), hfill]
    dsimp only
    rw [leField_putLe (by omega), rsect_outside (show sectors st.taken = fsSize from hc.sectors)
      hout hsmall]
    rfl
  · intro hlt
    have hpos := hc.sound.fresh_ne_zero (hc.fresh hlt)
    obtain ⟨hsound, hkeeps, hblock⟩ := hc.sound.setTable (hc.fresh hlt) hx ha
    have hv : volAt st.taken x (putLe din (12 + 4 * ndirect) 4 st.freeblock) off =
        ((st.volAt x din off).alloc st.freeblock).setAddr x ndirect st.freeblock := by
      rw [volAt_setAddr le_rfl (by omega), volAt_alloc (hc.blank _ le_rfl)]
    rw [← hv] at hsound hkeeps hblock
    -- with the indirect block in the inode, the rest is as for an inode that had one
    have hsame : st.fileBlock din bn = fileBlock st.taken (putLe din (12 + 4 * ndirect) 4 st.freeblock) bn := by
      unfold fileBlock
      rw [if_neg (Nat.not_lt.mpr hd), if_neg (Nat.not_lt.mpr hd), hfill, fill_same (by rw [leField_putLe (by omega)]; exact hpos)]
    have hfields : ∀ y < 12, putLe din (12 + 4 * ndirect) 4 st.freeblock y = din y := fun y hy => putLe_apart (by omega)
    have haddrs : ∀ y, (volAt st.taken x (putLe din (12 + 4 * ndirect) 4 st.freeblock) off).addrs y ndirect =
        if y = x then st.freeblock else (st.volAt x din off).addrs y ndirect := by
      intro y
      rw [hv]
      by_cases e : y = x
      · rw [e, setAddr_addrs_self, update_self, if_pos rfl]
      · rw [setAddr_addrs_of_ne e, if_neg e]
        rfl
    generalize putLe din (12 + 4 * ndirect) 4 st.freeblock = din1 at *
    have hc1 : MkCore st.taken (volAt st.taken x din1 off) :=
      ⟨hc.sectors, fun b hb => hc.blank b (Nat.le_of_succ_le hb), rfl, hsound⟩
    have hx1 := (hkeeps.live x trivial).mpr hx
    have hb1 := (hblock x bn hx).trans (block_none hd ha)
    obtain ⟨st', he, hfb, hsec, hclaim⟩ := fileBlock_entry hc1 hx1 hbn hd hb1 ((haddrs x).trans (if_pos rfl)) hpos
    refine ⟨st.freeblock + 1, din1, st', hsame.trans he, rfl, hfb, hsec, fun hlt' => ?_⟩
    have h := hclaim hlt'
    refine ⟨h.core, (hkeeps.trans h.keeps).mono fun _ _ => ⟨trivial, trivial⟩, fun y m hy => ?_, fun y hy hne => ?_, h.inodes,
      h.freeinode, fun y hy => (h.fields y hy).trans (hfields y hy), h.ne⟩
    · rw [h.block y m ((hkeeps.live y trivial).mpr hy), hblock y m hy]
    · rw [h.table y ((hkeeps.live y trivial).mpr hy) hne, haddrs, if_neg fun e => hne ⟨e, hd⟩]

end

/-! ## A round of `iappend` -/

theorem blocksFor_same {off : Nat} (h : off % bsize ≠ 0) (hk : k ≠ 0) (hend : off + k ≤ (off / bsize + 1) * bsize) :
    blocksFor (off + k) = blocksFor off := by
  have : (off + k + (bsize - 1)) / bsize = (off + (bsize - 1)) / bsize := by
    simp only [bsize] at h hend ⊢
    omega
  rw [blocksFor, blocksFor, this]

theorem blocksFor_next {off : Nat} (h : off % bsize = 0) (hk : k ≠ 0) (hend : off + k ≤ (off / bsize + 1) * bsize) :
    blocksFor (off + k) = blocksFor off + if off / bsize = ndirect then 2 else 1 := by
  have hnext : (off + k + (bsize - 1)) / bsize = off / bsize + 1 := by
    simp only [bsize] at h hend ⊢
    omega
  have hsame : (off + (bsize - 1)) / bsize = off / bsize := by
    simp only [bsize] at h ⊢
    omega
  rw [blocksFor, blocksFor, hsame]
  split <;> split <;> split <;> omega

/-- Bytes `p` appended to file `x`, whose inode is in memory. -/
structure Appended (st : Mkfs) (x off : Nat) (din : Bytes) (p : List UInt8) (din' : Bytes) (st' : Mkfs) : Prop where
  inv : MkInv st' (st'.volAt x din' (off + p.length))
  live : ∀ y, (st'.volAt x din' (off + p.length)).live y ↔ (st.volAt x din off).live y
  keeps : Vol.Keeps {x}ᶜ (st.volAt x din off) (st'.volAt x din' (off + p.length))
  old : ∀ o < off, (st'.volAt x din' (off + p.length)).content x o = (st.volAt x din off).content x o
  new : ∀ k < p.length, (st'.volAt x din' (off + p.length)).content x (off + k) = p.getD k 0
  inodes : ∀ y < nmeta, st'.image y = st.image y
  freeinode : st'.freeinode = st.freeinode
  fields : ∀ y < 12, din' y = din y
  blocks : st'.freeblock + blocksFor off = st.freeblock + blocksFor (off + p.length)

namespace Appended

variable {off : Nat} {p q : List UInt8} {din' : Bytes}

theorem refl (hi : MkInv st (st.volAt x din off)) : Appended st x off din [] din st :=
  ⟨hi, fun _ => Iff.rfl, Vol.Keeps.refl _ _, fun _ _ => rfl, fun _ hk => absurd hk (Nat.not_lt_zero _),
    fun _ _ => rfl, rfl, fun _ _ => rfl, rfl⟩

theorem trans {st2 : Mkfs} {din2 : Bytes} (h : Appended st x off din p din' st')
    (h' : Appended st' x (off + p.length) din' q din2 st2) : Appended st x off din (p ++ q) din2 st2 := by
  have hlen : off + (p ++ q).length = off + p.length + q.length := by rw [List.length_append, add_assoc]
  constructor <;> try rw [hlen]
  case inv => exact h'.inv
  case live => exact fun y => (h'.live y).trans (h.live y)
  case keeps => exact (h.keeps.trans h'.keeps).mono fun y hy => ⟨hy, hy⟩
  case old => exact fun o ho => (h'.old o (Nat.lt_add_right _ ho)).trans (h.old o ho)
  case new =>
    intro k hk
    by_cases hkp : k < p.length
    · rw [h'.old _ (Nat.add_lt_add_left hkp off), h.new k hkp, List.getD_append _ _ _ _ hkp]
    · have hkp := Nat.not_lt.mp hkp
      have hn := h'.new (k - p.length) (by omega)
      rw [show off + p.length + (k - p.length) = off + k by omega] at hn
      rw [hn, List.getD_append_right _ _ _ _ hkp]
  case inodes => exact fun y hy => (h'.inodes y hy).trans (h.inodes y hy)
  case freeinode => exact h'.freeinode.trans h.freeinode
  case fields => exact fun y hy => (h'.fields y hy).trans (h.fields y hy)
  case blocks =>
    have h1 := h.blocks
    have h2 := h'.blocks
    omega

end Appended

section

variable {off : Nat} {p : List UInt8} {din' : Bytes}

/-- `v₁` is `v` with block `b` for the end of file `x`; then `p` goes there and the file grows. -/
structure Grows (v v₁ : Vol) (x off b : Nat) (p : List UInt8) : Prop where
  live : v.live x
  size : v.size x = off
  inside : off / bsize < maxfile
  keeps : Vol.Keeps Set.univ v v₁
  block : ∀ y m, v.live y → v₁.block y m = if y = x ∧ m = off / bsize then b else v.block y m
  ne : b ≠ 0
  some : 0 < p.length
  fits : off + p.length ≤ (off / bsize + 1) * bsize

namespace Grows

variable {sb : Superblock} {v v₁ : Vol}

section

variable (h : Grows v v₁ x off b p)

include h

theorem holds : v₁.Holds (.data x (off / bsize)) b :=
  ⟨(h.keeps.live x trivial).mpr h.live, h.inside, (h.block x _ h.live).trans (if_pos ⟨rfl, rfl⟩), h.ne⟩

theorem block_grown (hs : v₁.Sound sb) (hy : v.live y) :
    ((v₁.put b d).setSize x n).block y k = if y = x ∧ k = off / bsize then b else v.block y k := by
  obtain ⟨-, -, hblock, -⟩ := hs.write h.holds d
  exact (hblock y k ((h.keeps.live y trivial).mpr hy)).trans (h.block y k hy)

theorem covered (hs : v.Sound sb) (hk : k * bsize < off + p.length) (hne : k ≠ off / bsize) : v.block x k ≠ 0 := by
  have hfits := h.fits
  refine hs.covered x h.live k ?_
  rw [h.size]
  simp only [bsize] at *
  omega

theorem sound (hs : v.Sound sb) (hs1 : v₁.Sound sb) : ((v₁.put b d).setSize x (off + p.length)).Sound sb := by
  refine (hs1.write h.holds d).1.setSize ?_ fun _ m hm => ?_
  · have hfits := h.fits
    have hlast : (off / bsize + 1) * bsize ≤ maxfile * bsize := Nat.mul_le_mul_right _ h.inside
    exact hfits.trans hlast
  · have hb : (v₁.put b d).block x m = _ := h.block_grown (n := off) hs1 h.live
    rw [hb]
    by_cases e : m = off / bsize
    · rw [if_pos ⟨rfl, e⟩]
      exact h.ne
    · rw [if_neg fun he => e he.2]
      exact h.covered hs hm e

theorem keeps_others (hs1 : v₁.Sound sb) : Vol.Keeps {x}ᶜ v ((v₁.put b d).setSize x (off + p.length)) := by
  have hk := h.keeps.trans (hs1.write h.holds d).2.1
  rw [Set.univ_inter] at hk
  exact ⟨hk.live, fun y hy => (update_of_ne hy ..).trans (hk.size y hy), hk.block, hk.bytes⟩

theorem old (hs : v.Sound sb) (hs1 : v₁.Sound sb) (hd : ∀ y < off % bsize, d y = v₁.bytes b y) (ho : o < off) :
    ((v₁.put b d).setSize x (off + p.length)).content x o = v.content x o := by
  have hm : o / bsize ≤ off / bsize := Nat.div_le_div_right (le_of_lt ho)
  have hbn := h.inside
  have hne : v.block x (o / bsize) ≠ 0 := hs.covered x h.live _ (by rw [h.size]; have := Nat.div_mul_le_self o bsize; omega)
  have h1 := h.keeps.block x trivial h.live _ (lt_of_le_of_lt hm hbn) hne
  have h2 := h.keeps.bytes x trivial h.live _ (lt_of_le_of_lt hm hbn) hne
  unfold content
  rw [h.block_grown hs1 h.live]
  by_cases e : o / bsize = off / bsize
  · rw [if_pos ⟨rfl, e⟩]
    have hb : v.block x (o / bsize) = b := by
      rw [← h1, e]
      exact h.holds.2.2.1
    rw [hb] at h2 ⊢
    rw [← h2, ← hd _ (by simp only [bsize] at *; omega)]
    exact congrFun (update_self ..) _
  · rw [if_neg fun he => e he.2]
    have h3 := (hs1.write h.holds d).2.2.2 _ (lt_of_le_of_lt hm hbn) (by rw [h1]; exact hne) e
    rw [h1, h2] at h3
    exact congrFun h3 _

theorem new (hs1 : v₁.Sound sb) (hd : ∀ k < p.length, d (off % bsize + k) = p.getD k 0) (hk : k < p.length) :
    ((v₁.put b d).setSize x (off + p.length)).content x (off + k) = p.getD k 0 := by
  have hfits := h.fits
  have hdiv : (off + k) / bsize = off / bsize := by simp only [bsize] at *; omega
  have hmod : (off + k) % bsize = off % bsize + k := by simp only [bsize] at *; omega
  unfold content
  rw [hdiv, h.block_grown hs1 h.live, if_pos ⟨rfl, rfl⟩, hmod, ← hd k hk]
  exact congrFun (update_self ..) _

end

end Grows

theorem Claimed.holds (hx : (st.volAt x din off).live x) (hbn : off / bsize < maxfile)
    (hc : Claimed st x off din (off / bsize) b din' st') : (st'.volAt x din' off).Holds (.data x (off / bsize)) b :=
  ⟨(hc.keeps.live x trivial).mpr hx, hbn, (hc.block x _ hx).trans (if_pos ⟨rfl, rfl⟩), hc.ne⟩

theorem Claimed.write (hi : MkInv st (st.volAt x din off)) (hx : (st.volAt x din off).live x) (hbn : off / bsize < maxfile)
    (hc : Claimed st x off din (off / bsize) b din' st') (hp : p ≠ []) (hend : off + p.length ≤ (off / bsize + 1) * bsize)
    (hblocks : st'.freeblock + blocksFor off = st.freeblock + blocksFor (off + p.length)) :
    Appended st x off din p din' (st'.wsect b (patched (st'.image b) (off % bsize) p.length fun z => p.getD z 0)) := by
  have hg : Grows (st.volAt x din off) (st'.volAt x din' off) x off b p :=
    ⟨hx, volAt_size .., hbn, hc.keeps, hc.block, hc.ne, List.length_pos_iff.mpr hp, hend⟩
  have hlt := hc.core.block_lt hg.holds
  have hle := hc.core.freeblock_le
  rw [wsect_inside hc.core.sectors (by omega)]
  generalize hd : patched (st'.image b) (off % bsize) p.length (fun z => p.getD z 0) = d
  have hv : volAt { st' with image := update st'.image b d } x din' (off + p.length) =
      ((st'.volAt x din' off).put b (blockBytes d)).setSize x (off + p.length) := by
    rw [← volAt_put hlt.1]
    unfold volAt setFile setSize
    rw [update_idem]
  have hold : ∀ y < off % bsize, blockBytes d y = (st'.volAt x din' off).bytes b y := by
    intro y hy
    have hbytes : (st'.volAt x din' off).bytes b = blockBytes (st'.image b) := if_pos hlt.1
    rw [hbytes, ← hd]
    unfold blockBytes patched
    rw [if_neg (show ¬ (off % bsize ≤ y ∧ y < off % bsize + p.length) by omega)]
  have hnew : ∀ k < p.length, blockBytes d (off % bsize + k) = p.getD k 0 := by
    intro k hk
    rw [← hd]
    unfold blockBytes patched
    rw [if_pos (by simp only [bsize] at *; omega), if_pos (by omega), Nat.add_sub_cancel_left]
  have hsize : ∀ y, y ≠ x → (((st'.volAt x din' off).put b (blockBytes d)).setSize x (off + p.length)).size y =
      (st.volAt x din off).size y := fun y hy => (hg.keeps_others hc.core.sound).size y hy
  have hsize' : (((st'.volAt x din' off).put b (blockBytes d)).setSize x (off + p.length)).size x = off + p.length :=
    update_self ..
  have hlen := hg.some
  constructor <;> try rw [hv]
  case inv =>
    refine ⟨⟨hc.core.sectors, fun y hy => ?_, rfl, hg.sound hi.sound hc.core.sound⟩, fun y hy m hm hsz => ?_, fun y hy hsz => ?_⟩
    · exact (update_of_ne (Nat.ne_of_gt (lt_of_lt_of_le hlt.2 hy)) ..).trans (hc.core.blank y hy)
    · have hy := (hc.keeps.live y trivial).mp hy
      rw [hg.block_grown hc.core.sound hy]
      by_cases e : y = x
      · subst e
        rw [if_neg (by simp only [bsize] at *; omega)]
        exact hi.tight y hy m hm (by rw [volAt_size]; omega)
      · rw [hsize y e] at hsz
        rw [if_neg fun h => e h.1]
        exact hi.tight y hy m hm hsz
    · have hy := (hc.keeps.live y trivial).mp hy
      by_cases e : y = x
      · subst e
        refine (hc.table y hy ?_).trans (hi.table y hy (by rw [volAt_size]; omega))
        simp only [bsize, ndirect] at *
        omega
      · rw [hsize y e] at hsz
        exact (hc.table y hy fun h => e h.1).trans (hi.table y hy hsz)
  case live => exact fun y => hc.keeps.live y trivial
  case keeps => exact hg.keeps_others hc.core.sound
  case old => exact fun o ho => hg.old hi.sound hc.core.sound hold ho
  case new => exact fun k hk => hg.new hc.core.sound hnew hk
  case inodes =>
    intro y hy
    exact (update_of_ne (by rw [mkSb_datastart] at hlt; omega) ..).trans (hc.inodes y hy)
  case freeinode => exact hc.freeinode
  case fields => exact hc.fields
  case blocks => exact hblocks

/-- The image has room for file `x` up to the end of `p`. -/
def Mkfs.Room (st : Mkfs) (off n : Nat) : Prop := st.freeblock + blocksFor (off + n) ≤ fsSize + blocksFor off

/-- A round finds its block, or ends the program for want of room. -/
theorem fileBlock_cases (hi : MkInv st (st.volAt x din off)) (hx : (st.volAt x din off).live x) (hbn : off / bsize < maxfile)
    (hp : p ≠ []) (hend : off + p.length ≤ (off / bsize + 1) * bsize) :
    (st.Room off p.length ∧ ∃ b din' st', st.fileBlock din (off / bsize) = .ok (b, din', st') ∧
      Claimed st x off din (off / bsize) b din' st' ∧ st'.freeblock + blocksFor off = st.freeblock + blocksFor (off + p.length)) ∨
    (¬ st.Room off p.length ∧ ((∃ e, st.fileBlock din (off / bsize) = .error e) ∨
      ∃ b din' st' e, st.fileBlock din (off / bsize) = .ok (b, din', st') ∧ st'.rsect b = .error e)) := by
  have hlen : p.length ≠ 0 := fun h => hp (List.length_eq_zero_iff.mp h)
  have hle := hi.freeblock_le
  unfold Mkfs.Room
  by_cases hmod : off % bsize = 0
  · have hnext := blocksFor_next hmod hlen hend
    have hzero : (st.volAt x din off).block x (off / bsize) = 0 :=
      hi.tight x hx _ hbn (by rw [volAt_size, Nat.div_mul_cancel (Nat.dvd_of_mod_eq_zero hmod)])
    by_cases hd : off / bsize < ndirect
    · rw [if_neg (ne_of_lt hd)] at hnext
      obtain ⟨he, hclaim⟩ := fileBlock_direct hi.toMkCore hx hd hzero
      by_cases hfb : st.freeblock < fsSize
      · exact Or.inl ⟨by omega, _, _, _, he, hclaim hfb, by dsimp only; omega⟩
      · refine Or.inr ⟨by omega, Or.inr ⟨_, _, _, _, he, rsect_outside hi.sectors (Nat.not_lt.mp hfb) ?_⟩⟩
        exact lt_of_le_of_lt hle (by decide)
    · have hd := Nat.not_lt.mp hd
      by_cases htable : off / bsize = ndirect
      · rw [if_pos htable] at hnext
        have ha : (st.volAt x din off).addrs x ndirect = 0 :=
          hi.table x hx (by rw [volAt_size, ← htable, Nat.div_mul_cancel (Nat.dvd_of_mod_eq_zero hmod)])
        obtain ⟨hfull, hroom⟩ := fileBlock_both hi.toMkCore hx hbn hd ha
        by_cases hfb : st.freeblock < fsSize
        · obtain ⟨b, din', st', he, rfl, hfb', hsec, hclaim⟩ := hroom hfb
          by_cases hfb2 : st.freeblock + 1 < fsSize
          · exact Or.inl ⟨by omega, _, _, _, he, hclaim hfb2, by omega⟩
          · refine Or.inr ⟨by omega, Or.inr ⟨_, _, _, _, he, rsect_outside hsec (Nat.not_lt.mp hfb2) ?_⟩⟩
            simp only [fsSize] at hle
            omega
        · exact Or.inr ⟨by omega, Or.inl ⟨_, hfull (Nat.not_lt.mp hfb)⟩⟩
      · rw [if_neg htable] at hnext
        have ha : (st.volAt x din off).addrs x ndirect ≠ 0 := by
          intro ha
          have hcov := hi.sound.covered x hx ndirect (by rw [volAt_size]; simp only [bsize, ndirect] at *; omega)
          exact hcov (block_none le_rfl ha)
        obtain ⟨st', he, hfb', hsec, hclaim⟩ := fileBlock_entry hi.toMkCore hx hbn hd hzero rfl ha
        by_cases hfb : st.freeblock < fsSize
        · exact Or.inl ⟨by omega, _, _, _, he, hclaim hfb, by omega⟩
        · refine Or.inr ⟨by omega, Or.inr ⟨_, _, _, _, he, rsect_outside hsec (Nat.not_lt.mp hfb) ?_⟩⟩
          exact lt_of_le_of_lt hle (by decide)
  · have hsame := blocksFor_same hmod hlen hend
    have hne := hi.sound.covered x hx (off / bsize) (by rw [volAt_size]; simp only [bsize] at *; omega)
    obtain ⟨he, hclaim⟩ := fileBlock_same hi.toMkCore hx hbn rfl hne
    exact Or.inl ⟨by omega, _, _, _, he, hclaim, by rw [hsame]⟩

end

/-! ## `iappend` -/

theorem blocksFor_mono {m : Nat} (h : m ≤ n) : blocksFor m ≤ blocksFor n := by
  have : (m + (bsize - 1)) / bsize ≤ (n + (bsize - 1)) / bsize := Nat.div_le_div_right (by omega)
  unfold blocksFor
  split <;> split <;> omega

section

variable {off fuel : Nat} {p : List UInt8} {din' : Bytes}

theorem iappendLoop_round {buf : Bytes} (hp : p ≠ []) (hbn : off / bsize < maxfile)
    (he : st.fileBlock din (off / bsize) = .ok (b, din', st')) (hr : st'.rsect b = .ok buf)
    (hn : min p.length ((off / bsize + 1) * bsize - off) = n) : iappendLoop (fuel + 1) st din off p =
      iappendLoop fuel (st'.wsect b (patched buf (off % bsize) (p.take n).length fun z => (p.take n).getD z 0)) din' (off + n)
        (p.drop n) := by
  have hbytes : (fun y => if off - off / bsize * bsize ≤ y ∧ y < off - off / bsize * bsize + n then
        p.getD (y - (off - off / bsize * bsize)) 0 else buf y) =
      patched buf (off % bsize) (p.take n).length fun z => (p.take n).getD z 0 := by
    have hmod : off - off / bsize * bsize = off % bsize := by simp only [bsize]; omega
    have htake : (p.take n).length = n := by rw [List.length_take]; omega
    funext y
    unfold patched
    rw [hmod, htake]
    split
    next hy =>
      dsimp only
      rw [List.getD_eq_getElem?_getD, List.getD_eq_getElem?_getD, List.getElem?_take_of_lt (by omega)]
    next => rfl
  rw [iappendLoop, if_neg hp, if_pos hbn, he, hn]
  dsimp only [bind, Except.bind]
  rw [hr]
  dsimp only
  rw [hbytes]

theorem iappendLoop_full {e : MkfsError} (hp : p ≠ []) (hbn : off / bsize < maxfile) (he : st.fileBlock din (off / bsize) = .error e ∨
      ∃ b din' st', st.fileBlock din (off / bsize) = .ok (b, din', st') ∧ st'.rsect b = .error e) :
    iappendLoop (fuel + 1) st din off p = .error e := by
  rw [iappendLoop, if_neg hp, if_pos hbn]
  rcases he with he | ⟨b, din', st', he, hr⟩
  · rw [he]
    rfl
  · rw [he]
    dsimp only [bind, Except.bind]
    rw [hr]

end

/-- The loop appends all bytes, or ends the program for want of room in the file or the image. -/
theorem iappendLoop_cases (fuel : Nat) (p : List UInt8) (hfuel : p.length ≤ fuel) :
    ∀ (st : Mkfs) (din : Bytes) (off : Nat), MkInv st (st.volAt x din off) → (st.volAt x din off).live x →
    (st.Room off p.length ∧ off + p.length ≤ maxFileBytes ∧ ∃ din' st',
      iappendLoop fuel st din off p = .ok (st', din', off + p.length) ∧ Appended st x off din p din' st') ∨
    (¬ (st.Room off p.length ∧ off + p.length ≤ maxFileBytes) ∧ ∃ e, iappendLoop fuel st din off p = .error e) := by
  induction fuel generalizing p with
  | zero =>
    intro st din off hi hx
    obtain rfl : p = [] := List.length_eq_zero_iff.mp (Nat.le_zero.mp hfuel)
    have hsz := hi.sound.sized x hx
    rw [volAt_size] at hsz
    exact Or.inl ⟨Nat.add_le_add_right hi.freeblock_le _, hsz, din, st, rfl, Appended.refl hi⟩
  | succ fuel ih =>
    intro st din off hi hx
    by_cases hp : p = []
    · subst hp
      have hsz := hi.sound.sized x hx
      rw [volAt_size] at hsz
      refine Or.inl ⟨Nat.add_le_add_right hi.freeblock_le _, hsz, din, st, ?_, Appended.refl hi⟩
      rfl
    have hpos := List.length_pos_iff.mpr hp
    by_cases hbn : off / bsize < maxfile
    · generalize hn1 : min p.length ((off / bsize + 1) * bsize - off) = n1
      have hlt : off < (off / bsize + 1) * bsize := by simp only [bsize]; omega
      have htake : (p.take n1).length = n1 := by rw [List.length_take]; omega
      have hp1 : p.take n1 ≠ [] := by
        intro h
        rw [h] at htake
        simp only [List.length_nil] at htake
        omega
      have hend : off + (p.take n1).length ≤ (off / bsize + 1) * bsize := by omega
      have hmono : blocksFor (off + n1) ≤ blocksFor (off + p.length) := blocksFor_mono (by omega)
      rcases fileBlock_cases hi hx hbn hp1 hend with ⟨hroom, b, din', st', he, hc, hblocks⟩ | ⟨hroom, herr⟩
      · have happ := hc.write hi hx hbn hp1 hend hblocks
        have hr := rsect_inside hc.core.sectors (lt_of_lt_of_le (hc.core.block_lt (hc.holds hx hbn)).2 hc.core.freeblock_le)
        rw [iappendLoop_round hp hbn he hr hn1]
        generalize st'.wsect b _ = st2 at happ ⊢
        have hi2 := happ.inv
        have hx2 := (happ.live x).mpr hx
        have hfb2 := happ.blocks
        have hlen : off + p.length = off + n1 + (p.drop n1).length := by rw [List.length_drop]; omega
        rw [htake] at hi2 hx2 hfb2
        have hroom2 : st2.Room (off + n1) (p.drop n1).length ↔ st.Room off p.length := by
          unfold Mkfs.Room
          rw [hlen]
          omega
        rw [hlen, ← hroom2]
        refine (ih (p.drop n1) (by omega) st2 din' (off + n1) hi2 hx2).imp_left ?_
        rintro ⟨h1, h2, din2, st3, hok, happ2⟩
        rw [← htake] at happ2
        have htrans := happ.trans happ2
        rw [htake, List.take_append_drop] at htrans
        exact ⟨h1, h2, din2, st3, hok, htrans⟩
      · refine Or.inr ⟨fun h => hroom ?_, ?_⟩
        · have := h.1
          unfold Mkfs.Room at this ⊢
          rw [htake]
          omega
        · rcases herr with ⟨e, he⟩ | ⟨b, din', st', e, he⟩
          · exact ⟨e, iappendLoop_full hp hbn (Or.inl he)⟩
          · exact ⟨e, iappendLoop_full hp hbn (Or.inr ⟨b, din', st', he⟩)⟩
    · refine Or.inr ⟨fun h => ?_, .assert, ?_⟩
      · have hmax := h.2
        have hfull : maxfile * bsize ≤ off / bsize * bsize := Nat.mul_le_mul_right _ (Nat.not_lt.mp hbn)
        have hdiv := Nat.div_mul_le_self off bsize
        change off + p.length ≤ maxfile * bsize at hmax
        omega
      · rw [iappendLoop, if_neg hp, if_neg hbn]
        rfl

end Xv6Mmap.Blk

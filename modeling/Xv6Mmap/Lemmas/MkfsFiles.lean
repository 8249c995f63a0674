import Xv6Mmap.Lemmas.MkfsImage
import Mathlib.Algebra.BigOperators.Intervals
import Mathlib.Algebra.Order.BigOperators.Group.Finset

/-!
# The files that `mkfs` makes

Between the calls of `iappend` and `ialloc` the image holds the types and the contents of all files so far. `iappend` succeeds exactly
when there is room, and then adds to one of the contents.
-/

namespace Xv6Mmap.Blk

open Function List Mkfs Vol

variable {st st' : Mkfs} {x y b o k n : Nat} {d e din : Bytes}

/-! ## Inodes in the image -/

/-- The state with inode `x` written. -/
def Mkfs.putInode (st : Mkfs) (x : Nat) (e : Bytes) : Mkfs :=
  { st with image := update st.image (mkSb.iblock x) fun y =>
      if inodeOff x ≤ y ∧ y < inodeOff x + 64 then e (y - inodeOff x) else st.image (mkSb.iblock x) y }

/-- The inode as it is in the image. -/
def Mkfs.getInode (st : Mkfs) (x : Nat) : Bytes := fun y => st.image (mkSb.iblock x) (inodeOff x + y)

theorem iblock_bounds (hx : x < mkNinodes) : mkSb.iblock x < mkSb.bmapstart := by
  simp only [Superblock.iblock, mkSb, mkNinodes, ipb, bsize, ninodeblocks, mkfsNlog, logSize, maxOpBlocks] at hx ⊢
  omega

theorem winode_eq (hs : st.sectors = fsSize) (hx : x < mkNinodes) : st.winode x e = .ok (st.putInode x e) := by
  have hlt : mkSb.iblock x < fsSize := lt_trans (iblock_bounds hx) (by decide)
  unfold winode
  rw [rsect_inside hs hlt]
  change Except.ok (st.wsect _ _) = _
  rw [wsect_inside hs hlt]
  rfl

theorem rinode_eq (hs : st.sectors = fsSize) (hx : x < mkNinodes) : st.rinode x = .ok (st.getInode x) := by
  have hlt : mkSb.iblock x < fsSize := lt_trans (iblock_bounds hx) (by decide)
  unfold rinode
  rw [rsect_inside hs hlt]
  rfl

theorem dinodeInfo_shift (d : Bytes) (o : Nat) : dinodeInfo (fun y => d (o + y)) 0 = dinodeInfo d o := by
  unfold dinodeInfo shortAt
  simp only [leField_shift, zero_add, add_zero]

theorem getInode_info (st : Mkfs) (x : Nat) : dinodeInfo (st.getInode x) 0 = diskInfo mkSb st.image x := dinodeInfo_shift ..

theorem getInode_addrs (st : Mkfs) (x : Nat) : dinAddrs (st.getInode x) = diskAddrs mkSb st.image x := by
  unfold dinAddrs diskAddrs
  congr 1
  funext k
  exact (leField_shift ..).trans (by rw [← add_assoc]; rfl)

theorem putInode_get (y : Nat) (hy : o < 64) : (st.putInode x e).getInode y o = if y = x then e o else st.getInode y o := by
  unfold getInode putInode
  dsimp only
  by_cases hyx : y = x
  · subst hyx
    rw [update_self, if_pos rfl, if_pos (by omega), Nat.add_sub_cancel_left]
  rw [if_neg hyx]
  by_cases hblock : mkSb.iblock y = mkSb.iblock x
  · have hdiv : y / ipb = x / ipb := by
      unfold Superblock.iblock at hblock
      omega
    have hapart := inodeOff_apart hdiv hyx
    rw [hblock, update_self, if_neg (by omega)]
  · rw [update_of_ne hblock]

theorem dinode_get_congr {d e : Bytes} (h : ∀ y < 64, d y = e y) : dinodeInfo d 0 = dinodeInfo e 0 ∧ dinAddrs d = dinAddrs e := by
  obtain ⟨h1, h2⟩ := dinode_congr (o := 0) (d := d) (e := e) fun y _ hy => h y (by omega)
  refine ⟨h1, funext fun k => ?_⟩
  unfold dinAddrs slotAddrs
  split
  next hk => simpa only [dinodeAddrs, zero_add] using h2 k hk
  next => rfl

theorem putInode_info (st : Mkfs) (x y : Nat) (e : Bytes) :
    diskInfo mkSb (st.putInode x e).image y = if y = x then dinodeInfo e 0 else diskInfo mkSb st.image y := by
  split
  next h => exact (dinode_get_congr fun o ho => (putInode_get y ho).trans (if_pos h)).1
  next h => exact (dinode_get_congr fun o ho => (putInode_get y ho).trans (if_neg h)).1

theorem putInode_addrs (st : Mkfs) (x y : Nat) (e : Bytes) :
    diskAddrs mkSb (st.putInode x e).image y = if y = x then dinAddrs e else diskAddrs mkSb st.image y := by
  rw [← getInode_addrs, ← getInode_addrs]
  split
  next h => exact (dinode_get_congr fun o ho => (putInode_get y ho).trans (if_pos h)).2
  next h => exact (dinode_get_congr fun o ho => (putInode_get y ho).trans (if_neg h)).2

theorem putInode_image (hx : x < mkNinodes) (hb : mkSb.bmapstart ≤ b) : (st.putInode x e).image b = st.image b :=
  update_of_ne (Nat.ne_of_gt (lt_of_lt_of_le (iblock_bounds hx) hb)) ..

theorem one_lt_iblock (x : Nat) : 1 < mkSb.iblock x := lt_of_lt_of_le (by decide) (Nat.le_add_left mkSb.inodestart _)

theorem putInode_super : (st.putInode x e).image 1 = st.image 1 := by
  unfold putInode
  dsimp only
  rw [update_of_ne (ne_of_lt (one_lt_iblock x))]

theorem putInode_vol (hx : x < mkNinodes) : (st.putInode x e).vol =
    { st.vol.setFile x (dinAddrs e) (leField e 8 4) with live := fun y => if y = x then leField e 0 2 ≠ 0 else st.vol.live y } := by
  refine Vol.ext rfl (funext fun y => propext ?_) (funext fun y => ?_) (funext fun y => ?_) (funext fun b => ?_)
  · show y < mkNinodes ∧ (diskInfo mkSb (st.putInode x e).image y).type ≠ 0 ↔ if y = x then _ else _
    rw [putInode_info]
    split
    next h => exact ⟨fun h => h.2, fun h' => ⟨by rw [h]; exact hx, h'⟩⟩
    next => exact Iff.rfl
  · show (if y < mkNinodes then diskAddrs mkSb (st.putInode x e).image y else fun _ => 0) =
      update st.vol.addrs x (dinAddrs e) y
    rw [putInode_addrs]
    by_cases h : y = x
    · rw [h, if_pos hx, if_pos rfl, update_self]
    · rw [if_neg h, update_of_ne h]
      rfl
  · show (if y < mkNinodes then (diskInfo mkSb (st.putInode x e).image y).size else 0) =
      update st.vol.size x (leField e 8 4) y
    rw [putInode_info]
    by_cases h : y = x
    · rw [h, if_pos hx, if_pos rfl, update_self]
      rfl
    · rw [if_neg h, update_of_ne h]
      rfl
  · show (if mkSb.datastart ≤ b then blockBytes ((st.putInode x e).image b) else fun _ => 0) =
      if mkSb.datastart ≤ b then blockBytes (st.image b) else fun _ => 0
    by_cases h : mkSb.datastart ≤ b
    · rw [putInode_image hx (le_trans (by decide) h)]
    · rw [if_neg h, if_neg h]

theorem volAt_getInode (st : Mkfs) (hx : x < mkNinodes) : st.volAt x (st.getInode x) (leField (st.getInode x) 8 4) = st.vol := by
  refine Vol.ext rfl rfl ?_ ?_ rfl
  · show update _ _ _ = _
    rw [getInode_addrs]
    have : st.vol.addrs x = diskAddrs mkSb st.image x := if_pos hx
    rw [← this, update_eq_self]
  · show update _ _ _ = _
    have h1 : st.vol.size x = (diskInfo mkSb st.image x).size := if_pos hx
    have h2 : leField (st.getInode x) 8 4 = (diskInfo mkSb st.image x).size := congrArg InodeInfo.size (getInode_info st x)
    rw [h2, ← h1, update_eq_self]

/-! ## The files so far -/

/-- The image holds `n` inodes of types `t` and contents `c`, and only their blocks are used. -/
structure MkFiles (st : Mkfs) (n : Nat) (t : Nat → Nat) (c : Nat → List UInt8) : Prop where
  inv : MkInv st st.vol
  freeinode : st.freeinode = n + 1
  few : n < mkNinodes
  live : ∀ x, st.vol.live x ↔ 1 ≤ x ∧ x ≤ n
  type : ∀ x, 1 ≤ x → x ≤ n → (diskInfo mkSb st.image x).type = t x ∧ t x ≠ 0
  size : ∀ x, 1 ≤ x → x ≤ n → st.vol.size x = (c x).length
  content : ∀ x, 1 ≤ x → x ≤ n → ∀ o < (c x).length, st.vol.content x o = (c x).getD o 0
  blocks : st.freeblock = nmeta + ∑ x ∈ Finset.Icc 1 n, blocksFor (c x).length
  super : st.image 1 = sbBytes

variable {t : Nat → Nat} {c : Nat → List UInt8} {p : List UInt8}

theorem MkInv.putInode {v : Vol} (hi : MkInv st v) (hx : x < mkNinodes) (hfree : nmeta ≤ st.freeblock) : MkInv (st.putInode x e) v :=
  { hi with
    blank := fun b hb => (putInode_image hx (le_trans (by decide) (le_trans hfree hb))).trans (hi.blank b hb) }

theorem iappend_ok {off : Nat} {st1 : Mkfs} (hs : st.sectors = fsSize) (hs1 : st1.sectors = fsSize) (hx : x < mkNinodes)
    (hloop : iappendLoop p.length st (st.getInode x) (leField (st.getInode x) 8 4) p = .ok (st1, din, off)) :
    st.iappend x p = .ok (st1.putInode x (putLe din 8 4 off)) := by
  unfold iappend
  rw [rinode_eq hs hx]
  dsimp only [bind, Except.bind]
  rw [hloop]
  exact winode_eq hs1 hx

theorem iappend_error {err : MkfsError} (hs : st.sectors = fsSize) (hx : x < mkNinodes)
    (hloop : iappendLoop p.length st (st.getInode x) (leField (st.getInode x) 8 4) p = .error err) : st.iappend x p = .error err := by
  unfold iappend
  rw [rinode_eq hs hx]
  dsimp only [bind, Except.bind]
  rw [hloop]

theorem volAt_putInode {size : Nat} (hx : x < mkNinodes) (hlive : leField din 0 2 ≠ 0 ↔ st.vol.live x) (hsize : size < 2 ^ 32) :
    (st.putInode x (putLe din 8 4 size)).vol = st.volAt x din size := by
  have haddrs : dinAddrs (putLe din 8 4 size) = dinAddrs din := by
    unfold dinAddrs
    congr 1
    funext k
    exact leField_putLe_apart (by omega)
  rw [putInode_vol hx, haddrs, leField_putLe hsize]
  refine Vol.ext rfl (funext fun y => ?_) rfl rfl rfl
  dsimp only
  split
  next h => rw [h]; exact propext hlive
  next => rfl

theorem sum_blocks_update (hx : 1 ≤ x) (hxn : x ≤ n) (c : Nat → List UInt8) (p : List UInt8) :
    ∑ y ∈ Finset.Icc 1 n, blocksFor (update c x p y).length + blocksFor (c x).length =
      ∑ y ∈ Finset.Icc 1 n, blocksFor (c y).length + blocksFor p.length := by
  have hmem : x ∈ Finset.Icc 1 n := Finset.mem_Icc.mpr ⟨hx, hxn⟩
  rw [← Finset.add_sum_erase _ _ hmem, ← Finset.add_sum_erase (Finset.Icc 1 n) (fun y => blocksFor (c y).length) hmem,
    update_self]
  have hrest : ∑ y ∈ (Finset.Icc 1 n).erase x, blocksFor (update c x p y).length =
      ∑ y ∈ (Finset.Icc 1 n).erase x, blocksFor (c y).length :=
    Finset.sum_congr rfl fun y hy => by rw [update_of_ne (Finset.ne_of_mem_erase hy)]
  omega

theorem MkFiles.getInode_size (h : MkFiles st n t c) (hx : 1 ≤ x) (hxn : x ≤ n) : leField (st.getInode x) 8 4 = (c x).length := by
  rw [← h.size x hx hxn]
  exact (congrArg InodeInfo.size (getInode_info st x)).trans (if_pos (lt_of_le_of_lt hxn h.few)).symm

/-- The files after the loop of `iappend`, with the inode written back. -/
theorem MkFiles.appended {din' : Bytes} {st1 : Mkfs} (h : MkFiles st n t c) (hx : 1 ≤ x) (hxn : x ≤ n)
    (hmax : (c x).length + p.length ≤ maxFileBytes) (happ : Appended st x (c x).length (st.getInode x) p din' st1) :
    MkFiles (st1.putInode x (putLe din' 8 4 ((c x).length + p.length))) n t (update c x (c x ++ p)) := by
  have hlt : x < mkNinodes := lt_of_le_of_lt hxn h.few
  have hsize := h.getInode_size hx hxn
  have hvol := volAt_getInode st hlt
  rw [hsize] at hvol
  have htype : leField din' 0 2 = t x := by
    rw [← (h.type x hx hxn).1]
    exact leField_congr fun y _ hy => happ.fields y (by omega)
  have hlive : ∀ y, st1.vol.live y ↔ 1 ≤ y ∧ y ≤ n := by
    intro y
    rw [← h.live y]
    exact happ.live y
  have hvol1 : (st1.putInode x (putLe din' 8 4 ((c x).length + p.length))).vol = st1.volAt x din' ((c x).length + p.length) := by
    refine volAt_putInode hlt (iff_of_true ?_ ((hlive x).mpr ⟨hx, hxn⟩)) (lt_of_le_of_lt hmax (by decide))
    rw [htype]
    exact (h.type x hx hxn).2
  have hkeeps := happ.keeps
  rw [hvol] at hkeeps
  constructor
  case inv =>
    rw [hvol1]
    refine happ.inv.putInode hlt ?_
    have hb := happ.blocks
    have hbefore := h.blocks
    have hmono : blocksFor (c x).length ≤ blocksFor ((c x).length + p.length) := blocksFor_mono (Nat.le_add_right ..)
    omega
  case freeinode => exact happ.freeinode.trans h.freeinode
  case few => exact h.few
  case live =>
    rw [hvol1]
    exact hlive
  case type =>
    intro y hy hyn
    refine ⟨?_, (h.type y hy hyn).2⟩
    rw [putInode_info]
    split
    next e =>
      rw [e, ← htype]
      exact leField_putLe_apart (by omega)
    next =>
      rw [← (h.type y hy hyn).1]
      unfold diskInfo
      rw [happ.inodes _ (lt_trans (iblock_bounds (lt_of_le_of_lt hyn h.few)) (by decide))]
  case size =>
    intro y hy hyn
    rw [hvol1]
    by_cases e : y = x
    · rw [e, volAt_size, update_self, length_append]
    · rw [update_of_ne e, hkeeps.size y e, h.size y hy hyn]
  case content =>
    intro y hy hyn o ho
    rw [hvol1]
    by_cases e : y = x
    · subst e
      rw [update_self] at ho ⊢
      by_cases hold : o < (c y).length
      · rw [happ.old o hold, hvol, h.content y hy hyn o hold, getD_append _ _ _ _ hold]
      · have hold := Nat.not_lt.mp hold
        have hnew := happ.new (o - (c y).length) (by rw [length_append] at ho; omega)
        rw [Nat.add_sub_cancel' hold] at hnew
        rw [hnew, getD_append_right _ _ _ _ hold]
    · rw [update_of_ne e] at ho ⊢
      have hl := (h.live y).mpr ⟨hy, hyn⟩
      have hsz := h.inv.sound.sized y hl
      rw [h.size y hy hyn] at hsz
      have hdiv := Nat.div_mul_le_self o bsize
      rw [← h.content y hy hyn o ho]
      refine hkeeps.content e hl ?_ (h.inv.sound.covered y hl _ (by rw [h.size y hy hyn]; omega))
      exact Nat.div_lt_of_lt_mul (lt_of_lt_of_le ho (by exact hsz))
  case blocks =>
    have hsum := sum_blocks_update hx hxn c (c x ++ p)
    have hb := happ.blocks
    have hbefore := h.blocks
    rw [length_append] at hsum
    show st1.freeblock = _
    omega
  case super => exact putInode_super.trans ((happ.inodes 1 (by decide)).trans h.super)

/-- The image has the blocks for `n` files with contents `c`, each small enough. -/
structure Fits (n : Nat) (c : Nat → List UInt8) : Prop where
  blocks : nmeta + ∑ x ∈ Finset.Icc 1 n, blocksFor (c x).length ≤ fsSize
  sizes : ∀ x, 1 ≤ x → x ≤ n → (c x).length ≤ maxFileBytes

theorem Fits.mono {m : Nat} {c' : Nat → List UInt8} (h : Fits n c) (hm : m ≤ n)
    (hc : ∀ x, 1 ≤ x → x ≤ m → (c' x).length ≤ (c x).length) : Fits m c' := by
  refine ⟨le_trans (Nat.add_le_add_left ?_ _) h.blocks, fun x hx hxm => (hc x hx hxm).trans (h.sizes x hx (hxm.trans hm))⟩
  calc ∑ x ∈ Finset.Icc 1 m, blocksFor (c' x).length
      ≤ ∑ x ∈ Finset.Icc 1 m, blocksFor (c x).length :=
        Finset.sum_le_sum fun x hx => blocksFor_mono (hc x (Finset.mem_Icc.mp hx).1 (Finset.mem_Icc.mp hx).2)
    _ ≤ ∑ x ∈ Finset.Icc 1 n, blocksFor (c x).length :=
        Finset.sum_le_sum_of_subset (Finset.Icc_subset_Icc_right hm)

theorem MkFiles.fits (h : MkFiles st n t c) : Fits n c := by
  refine ⟨h.blocks ▸ h.inv.freeblock_le, fun x hx hxn => ?_⟩
  rw [← h.size x hx hxn]
  exact h.inv.sound.sized x ((h.live x).mpr ⟨hx, hxn⟩)

/-- There is room for `p` when the files with it fit. -/
theorem MkFiles.room_iff (h : MkFiles st n t c) (hx : 1 ≤ x) (hxn : x ≤ n) (p : List UInt8) :
    st.Room (c x).length p.length ∧ (c x).length + p.length ≤ maxFileBytes ↔ Fits n (update c x (c x ++ p)) := by
  have hsum := sum_blocks_update hx hxn c (c x ++ p)
  have hb := h.blocks
  rw [length_append] at hsum
  unfold Mkfs.Room
  constructor
  · rintro ⟨hroom, hmax⟩
    refine ⟨by omega, fun y hy hyn => ?_⟩
    by_cases e : y = x
    · rw [e, update_self, length_append]
      exact hmax
    · rw [update_of_ne e]
      exact h.fits.sizes y hy hyn
  · intro hf
    have hblocks := hf.blocks
    have hsize := hf.sizes x hx hxn
    rw [update_self, length_append] at hsize
    exact ⟨by omega, hsize⟩

/-- `iappend` adds to a file if that fits, and ends the program if not. -/
theorem MkFiles.iappend (h : MkFiles st n t c) (hx : 1 ≤ x) (hxn : x ≤ n) (p : List UInt8) :
    (Fits n (update c x (c x ++ p)) ∧ ∃ st', st.iappend x p = .ok st' ∧ MkFiles st' n t (update c x (c x ++ p))) ∨
    (¬ Fits n (update c x (c x ++ p)) ∧ ∃ e, st.iappend x p = .error e) := by
  have hlt : x < mkNinodes := lt_of_le_of_lt hxn h.few
  have hsize := h.getInode_size hx hxn
  have hvol := volAt_getInode st hlt
  have hlive : st.vol.live x := (h.live x).mpr ⟨hx, hxn⟩
  have hcases := iappendLoop_cases p.length p le_rfl st (st.getInode x) (leField (st.getInode x) 8 4)
    (x := x) (by rw [hvol]; exact h.inv) (by exact hlive)
  rw [← h.room_iff hx hxn, ← hsize]
  refine hcases.imp ?_ ?_
  · rintro ⟨hroom, hmax, din', st1, hloop, happ⟩
    refine ⟨⟨hroom, hmax⟩, _, iappend_ok h.inv.sectors happ.inv.sectors hlt hloop, ?_⟩
    rw [hsize] at happ hmax ⊢
    exact h.appended hx hxn hmax happ
  · rintro ⟨hno, e, he⟩
    exact ⟨hno, e, iappend_error h.inv.sectors hlt he⟩

/-! ## `ialloc` -/

/-- What `ialloc` writes. -/
def newInode (type : Nat) : Bytes := putLe (putLe (putLe (fun _ => 0) 0 2 type) 6 2 1) 8 4 0

theorem newInode_type {type : Nat} (h : type < 2 ^ 16) : leField (newInode type) 0 2 = type := by
  unfold newInode
  rw [leField_putLe_apart (by omega), leField_putLe_apart (by omega), leField_putLe h]

theorem newInode_size (type : Nat) : leField (newInode type) 8 4 = 0 := leField_putLe (by decide)

theorem newInode_addrs (type : Nat) : dinAddrs (newInode type) = fun _ => 0 := by
  funext k
  unfold dinAddrs slotAddrs
  split
  next hk =>
    refine leField_zero fun y hy _ => ?_
    unfold newInode
    rw [putLe_apart (by omega), putLe_apart (by omega), putLe_apart (by omega)]
  next => rfl

/-- An inode without blocks added to a volume. -/
def Vol.create (v : Vol) (x : Nat) : Vol := { v.setFile x (fun _ => 0) 0 with live := fun y => if y = x then True else v.live y }

section

variable {v : Vol}

theorem Vol.create_live : (v.create x).live y ↔ y = x ∨ v.live y := by
  show (if y = x then True else v.live y) ↔ _
  split <;> simp [*]

theorem Vol.create_block_self : (v.create x).block x k = 0 := by
  have haddrs : (v.create x).addrs x = fun _ => 0 := update_self ..
  unfold block
  rw [haddrs]
  simp

theorem Vol.create_block (h : y ≠ x) : (v.create x).block y k = v.block y k :=
  block_congr (update_of_ne h ..) fun _ => rfl

theorem Vol.create_holds (hx : ¬ v.live x) {s : Slot} : (v.create x).Holds s b ↔ v.Holds s b := by
  cases s with
  | data y m =>
    unfold Vol.Holds
    dsimp only
    rw [create_live]
    by_cases e : y = x
    · rw [e, create_block_self]
      constructor
      · rintro ⟨-, -, h0, hne⟩
        exact absurd h0.symm hne
      · rintro ⟨hl, -⟩
        exact absurd hl hx
    · rw [create_block e, or_iff_right e]
  | table y =>
    unfold Vol.Holds
    dsimp only
    rw [create_live]
    by_cases e : y = x
    · have haddrs : (v.create x).addrs x = fun _ => 0 := update_self ..
      rw [e, haddrs]
      constructor
      · rintro ⟨-, h0, hne⟩
        exact absurd h0.symm hne
      · rintro ⟨hl, -⟩
        exact absurd hl hx
    · have haddrs : (v.create x).addrs y = v.addrs y := update_of_ne e ..
      rw [haddrs, or_iff_right e]

theorem Vol.create_size_self : (v.create x).size x = 0 := update_self ..

theorem Vol.create_size (h : y ≠ x) : (v.create x).size y = v.size y := update_of_ne h ..

theorem Vol.Sound.create {sb : Superblock} (h : v.Sound sb) (hx : ¬ v.live x) : (v.create x).Sound sb := by
  refine ⟨h.full.congr (fun s z => create_holds hx) fun _ => Iff.rfl, h.inside, fun y hy m hm => ?_, fun y hy => ?_⟩
  · by_cases e : y = x
    · rw [e, create_size_self] at hm
      exact absurd hm (Nat.not_lt_zero _)
    · rw [create_size e] at hm
      rw [create_block e]
      exact h.covered y ((create_live.mp hy).resolve_left e) m hm
  · by_cases e : y = x
    · rw [e, create_size_self]
      exact Nat.zero_le _
    · rw [create_size e]
      exact h.sized y ((create_live.mp hy).resolve_left e)

theorem MkInv.create (hi : MkInv st v) (hx : ¬ v.live x) : MkInv st (v.create x) := by
  refine ⟨⟨hi.sectors, hi.blank, hi.used, hi.sound.create hx⟩, fun y hy m hm hsz => ?_, fun y hy hsz => ?_⟩
  · by_cases e : y = x
    · rw [e, create_block_self]
    · rw [create_size e] at hsz
      rw [create_block e]
      exact hi.tight y ((create_live.mp hy).resolve_left e) m hm hsz
  · by_cases e : y = x
    · have haddrs : (v.create x).addrs x = fun _ => 0 := update_self ..
      rw [e, haddrs]
    · rw [create_size e] at hsz
      exact (congrFun (update_of_ne e ..) _).trans (hi.table y ((create_live.mp hy).resolve_left e) hsz)

end

theorem MkFiles.ialloc (h : MkFiles st n t c) (type : Nat) (hn : n + 1 < mkNinodes) (ht : type ≠ 0) (hsmall : type < 2 ^ 16) :
    ∃ st', st.ialloc type = .ok (n + 1, st') ∧ MkFiles st' (n + 1) (update t (n + 1) type) (update c (n + 1) []) := by
  have hnot : ¬ st.vol.live (n + 1) := fun hl => absurd ((h.live _).mp hl).2 (Nat.not_succ_le_self n)
  refine ⟨putInode { st with freeinode := st.freeinode + 1 } (n + 1) (newInode type), ?_, ?_⟩
  · unfold Mkfs.ialloc
    have hw : Mkfs.winode { st with freeinode := st.freeinode + 1 } (n + 1) (newInode type) = _ := winode_eq h.inv.sectors hn
    rw [h.freeinode] at hw ⊢
    change (winode _ _ (newInode type) >>= _) = _
    rw [hw]
    rfl
  have hvol : (putInode { st with freeinode := st.freeinode + 1 } (n + 1) (newInode type)).vol = st.vol.create (n + 1) := by
    rw [putInode_vol hn, newInode_addrs, newInode_type hsmall]
    refine Vol.ext rfl (funext fun y => ?_) rfl rfl rfl
    show (if y = n + 1 then type ≠ 0 else st.vol.live y) = if y = n + 1 then True else st.vol.live y
    rw [eq_true ht]
  have hne : ∀ {y}, y ≤ n → y ≠ n + 1 := by omega
  have hcases : ∀ {y}, y ≤ n + 1 → y ≠ n + 1 → y ≤ n := by omega
  constructor
  case inv =>
    rw [hvol]
    have hi : MkInv { st with freeinode := st.freeinode + 1 } st.vol := { h.inv with }
    exact (hi.create hnot).putInode hn (by have := h.blocks; dsimp only; omega)
  case freeinode => exact congrArg (· + 1) h.freeinode
  case few => exact hn
  case live =>
    intro y
    rw [hvol, create_live, h.live y]
    omega
  case type =>
    intro y hy hyn
    rw [putInode_info]
    by_cases e : y = n + 1
    · rw [if_pos e, e, update_self]
      exact ⟨newInode_type hsmall, ht⟩
    · rw [if_neg e, update_of_ne e]
      exact h.type y hy (hcases hyn e)
  case size =>
    intro y hy hyn
    rw [hvol]
    by_cases e : y = n + 1
    · rw [e, update_self, create_size_self]
      rfl
    · rw [update_of_ne e, create_size e]
      exact h.size y hy (hcases hyn e)
  case content =>
    intro y hy hyn o ho
    by_cases e : y = n + 1
    · rw [e, update_self] at ho
      exact absurd ho (Nat.not_lt_zero _)
    rw [update_of_ne e] at ho ⊢
    rw [hvol, ← h.content y hy (hcases hyn e) o ho]
    unfold Vol.content
    rw [Vol.create_block e]
    rfl
  case blocks =>
    rw [h.blocks, Finset.sum_Icc_succ_top (Nat.le_add_left 1 n), update_self]
    have hrest : ∑ y ∈ Finset.Icc 1 n, blocksFor (update c (n + 1) [] y).length =
        ∑ y ∈ Finset.Icc 1 n, blocksFor (c y).length :=
      Finset.sum_congr rfl fun y hy => by rw [update_of_ne (hne (Finset.mem_Icc.mp hy).2)]
    rw [hrest]
    rfl
  case super => exact putInode_super.trans h.super

/-! ## The loop over the arguments -/

/-- The bytes of the pieces of a file. -/
def joined (ps : List { l : List UInt8 // 0 < l.length ∧ l.length ≤ bsize }) : List UInt8 := (ps.map (·.1)).flatten

/-- The bytes of a file of the host. -/
def HostFile.bytes (f : HostFile) : List UInt8 := joined (f.pieces.getD [])

/-- The name that a file gets. -/
def HostFile.name (f : HostFile) : List UInt8 := Mkfs.linkname (Mkfs.shortname f.path)

theorem MkFiles.appendAll (hx : 1 ≤ x) (hxn : x ≤ n) (ps : List { l : List UInt8 // 0 < l.length ∧ l.length ≤ bsize }) :
    ∀ (st : Mkfs) (c : Nat → List UInt8), MkFiles st n t c → (Fits n (update c x (c x ++ joined ps)) ∧
      ∃ st', appendAll x ps st = .ok st' ∧ MkFiles st' n t (update c x (c x ++ joined ps))) ∨
    (¬ Fits n (update c x (c x ++ joined ps)) ∧ ∃ e, appendAll x ps st = .error e) := by
  induction ps with
  | nil =>
    intro st c h
    have hsame : update c x (c x ++ joined []) = c := by
      show update c x (c x ++ []) = c
      rw [append_nil, update_eq_self]
    rw [hsame]
    exact Or.inl ⟨h.fits, st, rfl, h⟩
  | cons p ps ih =>
    intro st c h
    have hfinal : update c x (c x ++ joined (p :: ps)) =
        update (update c x (c x ++ p.1)) x (update c x (c x ++ p.1) x ++ joined ps) := by
      rw [update_idem, update_self, append_assoc]
      rfl
    rw [hfinal]
    unfold Mkfs.appendAll
    rcases h.iappend hx hxn p.1 with ⟨-, st1, he, h1⟩ | ⟨hno, e, he⟩
    · rw [he]
      exact ih st1 _ h1
    rw [he]
    refine Or.inr ⟨fun hf => hno (hf.mono le_rfl fun y _ _ => ?_), e, rfl⟩
    by_cases hyx : y = x
    · rw [hyx, update_self, update_self]
      exact (sublist_append_left _ _).length_le
    · rw [update_of_ne hyx, update_of_ne hyx, update_of_ne hyx]

/-- The types of the inodes: the root directory, and files. -/
def mkTypes (x : Nat) : Nat := if x = rootIno then tDir else tFile

/-- The bytes of the root directory. -/
def rootBytes (files : List HostFile) : List UInt8 :=
  Mkfs.dirent rootIno [46] ++ Mkfs.dirent rootIno [46, 46] ++ (files.mapIdx fun i f => Mkfs.dirent (i + 2) f.name).flatten

/-- The contents of the inodes with these files. -/
def mkContents (files : List HostFile) : Nat → List UInt8
  | 0 => []
  | 1 => rootBytes files
  | i + 2 => (files[i]?.map HostFile.bytes).getD []

theorem update_mkTypes (hn : 1 ≤ n) : update mkTypes (n + 1) tFile = mkTypes := by
  have : mkTypes (n + 1) = tFile := if_neg (by simp only [rootIno]; omega)
  rw [← this, update_eq_self]

theorem rootBytes_snoc (files : List HostFile) (f : HostFile) :
    rootBytes (files ++ [f]) = rootBytes files ++ dirent (files.length + 2) f.name := by
  unfold rootBytes
  simp

theorem dirent_length (x : Nat) (name : List UInt8) : (dirent x name).length = 16 := by
  unfold dirent
  simp only [length_append, length_cons, length_nil, length_take, length_replicate, dirsiz]
  omega

theorem rootBytes_length (files : List HostFile) : (rootBytes files).length = 16 * (files.length + 2) := by
  induction files using List.reverseRecOn with
  | nil => decide
  | append_singleton files f ih =>
    rw [rootBytes_snoc, length_append, dirent_length, length_append, length_singleton]
    omega

theorem mkContents_next (files : List HostFile) : mkContents files (files.length + 2) = [] := by
  show (files[files.length]?.map HostFile.bytes).getD [] = []
  rw [List.getElem?_eq_none le_rfl]
  rfl

theorem mkContents_snoc (files : List HostFile) (f : HostFile) : mkContents (files ++ [f]) =
      update (update (mkContents files) rootIno (rootBytes files ++ dirent (files.length + 2) f.name))
        (files.length + 2) f.bytes := by
  funext y
  match y with
  | 0 => rfl
  | 1 => exact rootBytes_snoc files f
  | i + 2 =>
    by_cases hi : i = files.length
    · subst hi
      simp [mkContents]
    rw [update_of_ne (by omega)]
    show ((files ++ [f])[i]?.map HostFile.bytes).getD [] = (files[i]?.map HostFile.bytes).getD []
    by_cases hlt : i < files.length
    · rw [List.getElem?_append_left hlt]
    · rw [List.getElem?_eq_none (by rw [length_append, length_singleton]; omega), List.getElem?_eq_none (by omega)]

/-- The files that `mkfs` accepts. -/
def HostFile.Usable (f : HostFile) : Prop := slash ∉ Mkfs.shortname f.path ∧ f.pieces.isSome

section

variable {files : List HostFile} {f : HostFile}

theorem addFile_cases (h : MkFiles st (files.length + 1) mkTypes (mkContents files)) (hn : files.length + 2 < mkNinodes) :
    (f.Usable ∧ Fits (files.length + 2) (mkContents (files ++ [f])) ∧
      ∃ st', st.addFile f = .ok st' ∧ MkFiles st' (files.length + 2) mkTypes (mkContents (files ++ [f]))) ∨
    (¬ (f.Usable ∧ Fits (files.length + 2) (mkContents (files ++ [f]))) ∧ ∃ e, st.addFile f = .error e) := by
  unfold addFile
  by_cases hslash : slash ∈ shortname f.path
  · rw [if_pos hslash]
    exact Or.inr ⟨fun hu => hu.1.1 hslash, _, rfl⟩
  rw [if_neg hslash]
  rcases hps : f.pieces with _ | ps
  · refine Or.inr ⟨fun hu => ?_, _, rfl⟩
    have := hu.1.2
    rw [hps] at this
    cases this
  have husable : f.Usable := ⟨hslash, by rw [hps]; rfl⟩
  have hbytes : f.bytes = joined ps := by
    unfold HostFile.bytes
    rw [hps]
    rfl
  obtain ⟨st1, he1, h1⟩ := h.ialloc tFile hn (by decide) (by decide)
  rw [update_mkTypes (Nat.le_add_left ..)] at h1
  rw [← mkContents_next files, update_eq_self] at h1
  rw [he1]
  dsimp only [bind, Except.bind]
  have hroot : mkContents files rootIno = rootBytes files := rfl
  rcases h1.iappend (x := rootIno) le_rfl (Nat.le_add_left ..) (dirent (files.length + 2) f.name) with
    ⟨-, st2, he2, h2⟩ | ⟨hno, e, he2⟩
  · have he2' : st1.iappend rootIno (dirent (files.length + 1 + 1) (linkname (shortname f.path))) = .ok st2 := he2
    rw [he2']
    have hcases := MkFiles.appendAll (x := files.length + 2) (Nat.le_add_left ..) le_rfl ps st2 _ h2
    have hfinal : mkContents (files ++ [f]) = _ := mkContents_snoc files f
    rw [hroot, update_of_ne (by simp only [rootIno]; omega), mkContents_next, nil_append, ← hbytes, ← hfinal] at hcases
    refine hcases.imp ?_ ?_
    · rintro ⟨hf, st', he, h'⟩
      exact ⟨husable, hf, st', he, h'⟩
    · rintro ⟨hno, e, he⟩
      exact ⟨fun hu => hno hu.2, e, he⟩
  · have he2' : st1.iappend rootIno (dirent (files.length + 1 + 1) (linkname (shortname f.path))) = .error e := he2
    rw [he2']
    refine Or.inr ⟨fun hu => hno (hu.2.mono le_rfl fun y _ _ => ?_), e, rfl⟩
    rw [mkContents_snoc, hroot]
    by_cases hy : y = files.length + 2
    · rw [hy, update_of_ne (by simp only [rootIno]; omega), mkContents_next]
      exact Nat.zero_le _
    · rw [update_of_ne hy]

theorem mkContents_le (files rest : List HostFile) (y : Nat) :
    (mkContents files y).length ≤ (mkContents (files ++ rest) y).length := by
  induction rest generalizing files with
  | nil => rw [append_nil]
  | cons f rest ih =>
    have h := ih (files ++ [f])
    rw [append_assoc] at h
    refine le_trans ?_ h
    rw [mkContents_snoc]
    by_cases hlast : y = files.length + 2
    · rw [hlast, mkContents_next]
      exact Nat.zero_le _
    rw [update_of_ne hlast]
    by_cases hroot : y = rootIno
    · rw [hroot]
      exact (sublist_append_left _ _).length_le
    · rw [update_of_ne hroot]

theorem addFiles_cases (rest : List HostFile) :
    ∀ (st : Mkfs) (files : List HostFile), MkFiles st (files.length + 1) mkTypes (mkContents files) →
    (files ++ rest).length + 1 < mkNinodes →
    ((∀ f ∈ rest, f.Usable) ∧ Fits ((files ++ rest).length + 1) (mkContents (files ++ rest)) ∧
      ∃ st', addFiles rest st = .ok st' ∧ MkFiles st' ((files ++ rest).length + 1) mkTypes (mkContents (files ++ rest))) ∨
    (¬ ((∀ f ∈ rest, f.Usable) ∧ Fits ((files ++ rest).length + 1) (mkContents (files ++ rest))) ∧
      ∃ e, addFiles rest st = .error e) := by
  induction rest with
  | nil =>
    intro st files h _
    rw [append_nil]
    exact Or.inl ⟨fun _ hf => absurd hf not_mem_nil, h.fits, st, rfl, h⟩
  | cons f rest ih =>
    intro st files h hn
    have happend : files ++ f :: rest = files ++ [f] ++ rest := by rw [append_assoc, singleton_append]
    have hlen : files.length + 2 ≤ (files ++ f :: rest).length + 1 := by
      rw [length_append, length_cons]
      omega
    unfold addFiles
    rcases addFile_cases (f := f) h (by omega) with ⟨hu, -, st1, he, h1⟩ | ⟨hno, e, he⟩
    · rw [he, happend]
      rw [happend] at hn
      have hlen1 : (files ++ [f]).length + 1 = files.length + 2 := by rw [length_append, length_singleton]
      refine (ih st1 (files ++ [f]) (by rw [hlen1]; exact h1) hn).imp ?_ ?_
      · rintro ⟨hus, hf, st', he', h'⟩
        exact ⟨forall_mem_cons.mpr ⟨hu, hus⟩, hf, st', he', h'⟩
      · rintro ⟨hno, e, he'⟩
        exact ⟨fun hall => hno ⟨(forall_mem_cons.mp hall.1).2, hall.2⟩, e, he'⟩
    · rw [he]
      refine Or.inr ⟨fun hall => hno ⟨(forall_mem_cons.mp hall.1).1, ?_⟩, e, rfl⟩
      refine hall.2.mono hlen fun y _ _ => ?_
      rw [happend]
      exact mkContents_le (files ++ [f]) rest y

end

/-! ## The beginning and the end of `main` -/

theorem blankImage_inode (x : Nat) : (diskInfo mkSb blankImage.image x).type = 0 := by
  have hblock : mkSb.iblock x ≠ 1 := Nat.ne_of_gt (one_lt_iblock x)
  exact leField_zero fun _ _ _ => rfl

theorem blankImage_live (x : Nat) : ¬ blankImage.vol.live x := fun h => h.2 (blankImage_inode x)

theorem mkFiles_blank : MkFiles blankImage 0 mkTypes (fun _ => []) := by
  have hlive := blankImage_live
  constructor
  case inv =>
    refine ⟨⟨rfl, fun b hb => if_neg ?_, rfl, ?_⟩, fun x hx => absurd hx (hlive x), fun x hx => absurd hx (hlive x)⟩
    · have : nmeta ≤ b := hb
      simp only [nmeta] at this
      omega
    · refine ⟨⟨⟨fun o b ho => ?_, fun o _ b ho => ?_, fun b hb => ?_⟩, fun b hb => ?_⟩, fun b hb => ?_,
        fun x hx => absurd hx (hlive x), fun x hx => absurd hx (hlive x)⟩
      · cases o <;> exact absurd ho.1 (hlive _)
      · cases o <;> exact absurd ho.1 (hlive _)
      · exact decide_eq_true hb
      · exact Or.inl (of_decide_eq_true hb)
      · exact lt_trans (of_decide_eq_true hb) (by decide)
  case freeinode => rfl
  case few => decide
  case live => exact fun x => iff_of_false (hlive x) (by omega)
  case type => exact fun x hx hxn => absurd hx (by omega)
  case size => exact fun x hx hxn => absurd hx (by omega)
  case content => exact fun x hx hxn => absurd hx (by omega)
  case blocks => rfl
  case super => rfl

theorem bitFree_bitmapBytes (used j : Nat) : bitFree (bitmapBytes used) j = !decide (j < used) := by
  induction used with
  | zero =>
    rw [bitFree_eq]
    show (!Nat.testBit 0 _) = _
    rw [Nat.zero_testBit]
    rfl
  | succ used ih =>
    rw [bitmapBytes, bitFree_bitSet, ih]
    by_cases h : j = used
    · simp [h]
    · have : j < used + 1 ↔ j < used := by omega
      simp [h, this]

/-- With the bitmap written, the disk has the volume of the state. -/
theorem volOf_bitmap (hfb : st.freeblock ≤ fsSize) :
    volOf mkSb (update st.image mkSb.bmapstart (bitmapBytes st.freeblock)) = st.vol := by
  have hinode : ∀ y < mkNinodes, update st.image mkSb.bmapstart (bitmapBytes st.freeblock) (mkSb.iblock y) =
      st.image (mkSb.iblock y) := fun y hy => update_of_ne (ne_of_lt (iblock_bounds hy)) ..
  obtain ⟨hlive, haddrs, hsize⟩ := volOf_inodes hinode
  refine Vol.ext (funext fun b => ?_) hlive haddrs hsize (funext fun b => ?_)
  · show (decide (b < fsSize) && !bitFree _ (b % bpb)) = decide (b < st.freeblock)
    by_cases hb : b < fsSize
    · have hblock : mkSb.bblock b = mkSb.bmapstart := by
        simp only [Superblock.bblock, bpb, bsize, fsSize] at hb ⊢
        omega
      have hmod : b % bpb = b := Nat.mod_eq_of_lt (lt_trans hb (by decide))
      rw [hblock, update_self, hmod, bitFree_bitmapBytes, decide_eq_true hb, Bool.true_and, Bool.not_not]
    · rw [decide_eq_false hb]
      exact (decide_eq_false (by omega)).symm
  · show (if mkSb.datastart ≤ b then blockBytes _ else fun _ => 0) =
      if mkSb.datastart ≤ b then blockBytes (st.image b) else fun _ => 0
    split
    next hb => rw [update_of_ne (Nat.ne_of_gt (lt_of_lt_of_le (by decide) hb))]
    next => rfl

/-- The size of the root directory at the end. -/
def roundedSize (size : Nat) : Nat := (size / bsize + 1) * bsize

/-- At the end the inodes are those of `st`, and the volume is its own with a larger root directory. -/
structure Finished (st st' : Mkfs) : Prop where
  vol : volOf mkSb st'.image = st.vol.setSize rootIno (roundedSize (st.vol.size rootIno))
  type : ∀ x < mkNinodes, (diskInfo mkSb st'.image x).type = (diskInfo mkSb st.image x).type
  freeinode : st'.freeinode = st.freeinode
  super : st'.image 1 = st.image 1

theorem MkFiles.finish (h : MkFiles st n t c) (hn : 1 ≤ n) :
    ∃ st1 st', st.fixRoot = .ok st1 ∧ st1.balloc st1.freeblock = .ok st' ∧ Finished st st' := by
  have hroot : rootIno < mkNinodes := by decide
  have hlive : st.vol.live rootIno := (h.live _).mpr ⟨le_rfl, hn⟩
  have hsize : leField (st.getInode rootIno) 8 4 = st.vol.size rootIno := by
    rw [h.size _ le_rfl hn]
    exact h.getInode_size le_rfl hn
  have hsmall : roundedSize (st.vol.size rootIno) < 2 ^ 32 := by
    have hmax : st.vol.size rootIno ≤ 274432 := h.inv.sound.sized _ hlive
    simp only [roundedSize, bsize]
    omega
  have hfb := h.inv.freeblock_le
  have htype : leField (st.getInode rootIno) 0 2 ≠ 0 := by
    have := hlive.2
    exact this
  have hvol := volAt_putInode hroot (iff_of_true htype hlive) hsmall
  have hfix : st.fixRoot = .ok (st.putInode rootIno (putLe (st.getInode rootIno) 8 4 (roundedSize (st.vol.size rootIno)))) := by
    unfold fixRoot
    rw [rinode_eq h.inv.sectors hroot]
    dsimp only [bind, Except.bind]
    exact winode_eq h.inv.sectors hroot
  have hinfo := putInode_info st rootIno (e := putLe (st.getInode rootIno) 8 4 (roundedSize (st.vol.size rootIno)))
  have hresize : st.volAt rootIno (st.getInode rootIno) (roundedSize (st.vol.size rootIno)) =
      st.vol.setSize rootIno (roundedSize (st.vol.size rootIno)) := by
    rw [← volAt_getInode st hroot]
    unfold volAt setFile setSize
    dsimp only
    rw [update_idem]
  generalize hst1 : st.putInode rootIno (putLe (st.getInode rootIno) 8 4 (roundedSize (st.vol.size rootIno))) = st1 at *
  have hfb1 : st1.freeblock = st.freeblock := by rw [← hst1]; rfl
  have hsec1 : st1.sectors = fsSize := by rw [← hst1]; exact h.inv.sectors
  have hballoc : st1.balloc st1.freeblock =
      .ok { st1 with image := update st1.image mkSb.bmapstart (bitmapBytes st1.freeblock) } := by
    unfold Mkfs.balloc
    rw [if_pos (by rw [hfb1]; exact lt_of_le_of_lt hfb (by decide)), wsect_inside hsec1 (by decide)]
    rfl
  refine ⟨_, _, hfix, hballoc, ?_, fun x hx => ?_, ?_, ?_⟩
  · rw [← hresize, ← hvol]
    exact volOf_bitmap (by rw [hfb1]; exact hfb)
  · have hblock : update st1.image mkSb.bmapstart (bitmapBytes st1.freeblock) (mkSb.iblock x) =
        st1.image (mkSb.iblock x) :=
      update_of_ne (ne_of_lt (iblock_bounds hx)) ..
    have hsame : diskInfo mkSb (update st1.image mkSb.bmapstart (bitmapBytes st1.freeblock)) x =
        diskInfo mkSb st1.image x := by
      unfold diskInfo
      rw [hblock]
    rw [hsame, hinfo x]
    split
    next e =>
      rw [e]
      exact leField_putLe_apart (by omega)
    next => rfl
  · rw [← hst1]
    rfl
  · have hsuper : st1.image 1 = st.image 1 := by
      rw [← hst1]
      exact putInode_super
    dsimp only
    rw [update_of_ne (by decide), hsuper]

/-! ## `main` -/

/-- `mkfs` succeeds exactly when its files are there and fit, and then it has made them. -/
theorem mkfs_cases (files : List HostFile) (hn : files.length + 1 < mkNinodes) :
    ((∀ f ∈ files, f.Usable) ∧ Fits (files.length + 1) (mkContents files) ∧
      ∃ st st', mkfs files = .ok st' ∧ MkFiles st (files.length + 1) mkTypes (mkContents files) ∧ Finished st st') ∨
    (¬ ((∀ f ∈ files, f.Usable) ∧ Fits (files.length + 1) (mkContents files)) ∧ ∃ e, mkfs files = .error e) := by
  obtain ⟨st1, he1, h1⟩ := mkFiles_blank.ialloc tDir (by decide) (by decide) (by decide)
  have htypes : update mkTypes (0 + 1) tDir = mkTypes := update_eq_self ..
  have hc1 : update (fun _ => []) (0 + 1) [] = fun _ : Nat => ([] : List UInt8) := update_eq_self ..
  rw [htypes, hc1] at h1
  have hfits : ∀ p : List UInt8, p.length ≤ 32 → Fits 1 (update (fun _ => []) 1 p) := by
    intro p hp
    have hb : blocksFor p.length ≤ 1 := blocksFor_mono (m := p.length) (n := 1024) (le_trans hp (by decide))
    refine ⟨?_, fun x hx hx1 => ?_⟩
    · exact le_trans (Nat.add_le_add_left hb _) (by decide)
    · obtain rfl : x = 1 := le_antisymm hx1 hx
      exact le_trans hp (by decide)
  obtain ⟨-, st2, he2, h2⟩ := (h1.iappend (x := 1) le_rfl le_rfl (dirent rootIno [46])).resolve_right
    fun hno => hno.1 (hfits _ (by decide))
  obtain ⟨-, st3, he3, h3⟩ := (h2.iappend (x := 1) le_rfl le_rfl (dirent rootIno [46, 46])).resolve_right
    fun hno => hno.1 (by
      rw [update_idem]
      exact hfits _ (by decide))
  have hc3 : update (update (fun _ => []) 1 ([] ++ dirent rootIno [46])) 1
      (update (fun _ => []) 1 ([] ++ dirent rootIno [46]) 1 ++ dirent rootIno [46, 46]) = mkContents [] := by
    funext y
    match y with
    | 0 => rfl
    | 1 => exact (append_nil _).symm
    | i + 2 => rfl
  rw [hc3] at h3
  have hrun : mkfs files = (addFiles files st3 >>= fun st => st.fixRoot >>= fun st => st.balloc st.freeblock) := by
    unfold mkfs
    rw [he1]
    dsimp only [bind, Except.bind]
    rw [if_pos rfl, he2]
    dsimp only
    rw [he3]
  rw [hrun]
  refine (addFiles_cases files st3 [] h3 hn).imp ?_ ?_
  · rintro ⟨hu, hf, st, he, h⟩
    obtain ⟨st1, st', hfix, hballoc, hfin⟩ := h.finish (Nat.le_add_left ..)
    refine ⟨hu, hf, st, st', ?_, h, hfin⟩
    rw [he]
    dsimp only [bind, Except.bind]
    rw [hfix]
    exact hballoc
  · rintro ⟨hno, e, he⟩
    exact ⟨hno, e, by rw [he]; rfl⟩

end Xv6Mmap.Blk

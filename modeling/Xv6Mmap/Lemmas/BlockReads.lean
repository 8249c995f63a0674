import Xv6Mmap.Lib.Alone
import Xv6Mmap.Lemmas.VolumeOps
import Xv6Mmap.Lemmas.Dirs

/-!
# Reading files by blocks

A process runs file-system code by itself, while nobody else holds a buffer or a `p->lock`. Code that only reads changes nothing but
which blocks are cached (`ReadsOnly`), so what `readi` and `dirlookup` return is a matter of the volume.
-/

namespace Xv6Mmap.Blk

open Function Sys

/-- A program that process `i` runs alone. -/
abbrev Solo {α : Type} (Λ : Layout) (i : Nat) (p : Code α) (s : Sys) (Q : α → Sys → Prop) (E : Stop → Prop) : Prop :=
  Runs (fun s a => perform Λ s i a) p s Q E

/-- No process holds its `p->lock`, and no buffer but `H` is locked. -/
structure Calm (H : Option Nat) (s : Sys) : Prop where
  plock : ∀ j, s.plock j = false
  holder : ∀ b, H ≠ some b → s.holder b = none

/-- State `s'` is `s` with other blocks in the cache. -/
structure ReadsOnly (s s' : Sys) : Prop where
  rest : s' = { s with cache := s'.cache }
  block : s'.block = s.block

variable {Λ : Layout} {i b j : Nat} {s s' s₂ : Sys} {H : Option Nat} {E : Stop → Prop}

theorem Calm.othersFree (h : Calm H s) : s.othersFree i = true := by
  unfold Sys.othersFree
  simp [h.plock]

namespace ReadsOnly

theorem refl (s : Sys) : ReadsOnly s s := ⟨rfl, rfl⟩

section

variable (h : ReadsOnly s s')

include h

theorem trans (h' : ReadsOnly s' s₂) : ReadsOnly s s₂ := by
  refine ⟨?_, h'.block.trans h.block⟩
  rw [h'.rest, h.rest]

theorem inode : s'.inode = s.inode := by rw [h.rest]

theorem holder : s'.holder = s.holder := by rw [h.rest]

theorem plock : s'.plock = s.plock := by rw [h.rest]

theorem ilock : s'.ilock = s.ilock := by rw [h.rest]

theorem calm (hc : Calm H s) : Calm H s' := ⟨by rw [h.plock]; exact hc.plock, by rw [h.holder]; exact hc.holder⟩

theorem vol (sb : Superblock) : s'.vol sb = s.vol sb := by
  unfold Sys.vol
  rw [h.block]

theorem volAt (sb : Superblock) (j : Nat) : s'.volAt sb j = s.volAt sb j := by
  unfold Sys.volAt
  rw [h.vol, h.inode]

end

end ReadsOnly

/-! ## A block -/

/-- The state with the buffer of block `b` locked by process `i`. -/
def Sys.take (s : Sys) (i b : Nat) : Sys :=
  { s with cache := update s.cache b (some (s.block b)), holder := update s.holder b (some i) }

/-- The state with block `b` in the cache. -/
def Sys.touch (s : Sys) (b : Nat) : Sys := { s with cache := update s.cache b (some (s.block b)) }

theorem block_update (s : Sys) (b : Nat) (d : Bytes) : block { s with cache := update s.cache b (some d) } = update s.block b d := by
  funext c
  unfold block
  dsimp only
  by_cases h : c = b
  · rw [h, update_self, update_self]
    rfl
  · rw [update_of_ne h, update_of_ne h]

theorem take_block (s : Sys) (i b : Nat) : (s.take i b).block = s.block :=
  (block_update s b (s.block b)).trans (update_eq_self ..)

theorem touch_reads (s : Sys) (b : Nat) : ReadsOnly s (s.touch b) :=
  ⟨rfl, (block_update s b (s.block b)).trans (update_eq_self ..)⟩

section

variable {β : Type} {R : β → Sys → Prop}

theorem solo_bread {f : Bytes → Code β} (hc : Calm H s) (hb : H ≠ some b) (h : Solo Λ i (f (s.block b)) (s.take i b) R E) :
    Solo Λ i (bread b >>= f) s R E := by
  have he : perform Λ s i (.bread b) = .ok (s.block b, s.take i b) := ?_
  · exact runs_act he h
  show s.bread i b = _
  unfold Sys.bread
  rw [if_neg (by rw [hc.holder b hb]; exact Bool.false_ne_true)]
  unfold take block
  rcases hd : s.cache b with _ | d
  · rw [if_neg (by rw [hc.plock]; exact Bool.false_ne_true)]
    rfl
  · have hsame : update s.cache b (some ((some d).getD (s.disk b))) = s.cache := by
      rw [Option.getD_some, ← hd, update_eq_self]
    rw [hsame]
    rfl

theorem solo_brelse {f : Unit → Code β} (hc : Calm H s) (hb : H ≠ some b) (h : Solo Λ i (f ()) (s.touch b) R E) :
    Solo Λ i (brelse b >>= f) (s.take i b) R E := by
  have he : perform Λ (s.take i b) i (.brelse b) = .ok ((), s.touch b) := ?_
  · exact runs_act he h
  show (do let s ← (s.take i b).brelse i b; pure ((), s)) = _
  unfold Sys.brelse
  have hfree : (s.take i b).othersFree i = true := hc.othersFree
  have hself : (s.take i b).holder b = some i := update_self ..
  have hrest : update (s.take i b).holder b none = s.holder := by
    show update (update s.holder b (some i)) b none = s.holder
    rw [update_idem, ← hc.holder b hb, update_eq_self]
  rw [if_pos hself, if_pos hfree, hrest]
  rfl

end

/-! ## Blocks of a file -/

section

variable {sb : Superblock} {bn x size t : Nat}

theorem Sys.volAt_addr (s : Sys) (sb : Superblock) (j : Nat) (hk : bn ≤ ndirect) :
    (s.volAt sb j).addrs (s.inode j).inum bn = (s.inode j).addrs bn := by
  have : (s.volAt sb j).addrs (s.inode j).inum = slotAddrs (s.inode j).addrs := update_self ..
  rw [this]
  exact if_pos hk

theorem Sys.volAt_bytes (s : Sys) (sb : Superblock) (j : Nat) (hb : sb.datastart ≤ b) :
    (s.volAt sb j).bytes b = blockBytes (s.block b) :=
  if_pos hb

/-- The first `size` bytes of file `x` are in blocks of the data area. -/
structure Vol.Backed (sb : Superblock) (v : Vol) (x size : Nat) : Prop where
  inside : size ≤ maxFileBytes
  block : ∀ bn, bn * bsize < size → sb.datastart ≤ v.block x bn
  table : ndirect * bsize < size → sb.datastart ≤ v.addrs x ndirect

theorem Vol.Backed.lt_maxfile {v : Vol} (h : v.Backed sb x size) (hbn : bn * bsize < size) : bn < maxfile :=
  Nat.lt_of_mul_lt_mul_right (lt_of_lt_of_le hbn h.inside)

theorem Vol.Sound.backed {v : Vol} (h : v.Sound sb) (hx : v.live x) : v.Backed sb x (v.size x) := by
  have hlt : ∀ bn, bn * bsize < v.size x → bn < maxfile := fun bn hbn =>
    Nat.lt_of_mul_lt_mul_right (lt_of_lt_of_le hbn (h.sized x hx))
  refine ⟨h.sized x hx, fun bn hbn => ?_, fun hsize => ?_⟩
  · exact h.datastart_le (o := .data x bn) ⟨hx, hlt bn hbn, rfl, h.covered x hx bn hbn⟩
  · refine h.datastart_le (o := .table x) ⟨hx, rfl, fun ha => ?_⟩
    exact h.covered x hx ndirect hsize (Vol.block_none le_rfl ha)

theorem ReadsOnly.backed (h : ReadsOnly s s') (hs : (s.volAt sb j).Backed sb (s.inode j).inum size) :
    (s'.volAt sb j).Backed sb (s'.inode j).inum size := by
  rw [h.volAt, h.inode]
  exact hs

theorem datastart_pos (sb : Superblock) : 0 < sb.datastart := Nat.succ_pos _

theorem solo_bmap (hc : Calm none s) (hs : (s.volAt sb j).Backed sb (s.inode j).inum size) (hsize : bn * bsize < size) :
    Solo Λ i (bmap sb j bn) s (fun a s' => a = (s.volAt sb j).block (s.inode j).inum bn ∧ ReadsOnly s s') E := by
  have hpos := datastart_pos sb
  have hbn := hs.lt_maxfile hsize
  have hne : (s.volAt sb j).block (s.inode j).inum bn ≠ 0 := Nat.ne_of_gt (lt_of_lt_of_le hpos (hs.block bn hsize))
  unfold bmap
  by_cases hd : bn < ndirect
  · have haddr : (s.volAt sb j).block (s.inode j).inum bn = (s.inode j).addrs bn := by
      rw [Vol.block_direct hd, s.volAt_addr sb j (le_of_lt hd)]
    rw [if_pos hd]
    refine runs_act rfl ?_
    rw [haddr] at hne ⊢
    rw [if_neg hne]
    exact runs_pure ⟨rfl, ReadsOnly.refl s⟩
  · have hd := Nat.not_lt.mp hd
    have hlow := hs.table (lt_of_le_of_lt (Nat.mul_le_mul_right _ hd) hsize)
    have ha : (s.volAt sb j).addrs (s.inode j).inum ndirect ≠ 0 := Nat.ne_of_gt (lt_of_lt_of_le hpos hlow)
    have hentry : (s.volAt sb j).block (s.inode j).inum bn =
        leField (s.block ((s.inode j).addrs ndirect)) (4 * (bn - ndirect)) 4 := by
      rw [Vol.block_entry hd ha, Vol.entry, s.volAt_bytes sb j hlow, s.volAt_addr sb j le_rfl]
      refine leField_congr fun y _ hy => if_pos ?_
      simp only [maxfile, ndirect, nindirect, bsize] at hbn hy ⊢
      omega
    rw [s.volAt_addr sb j le_rfl] at ha
    rw [hentry] at hne ⊢
    rw [if_neg (Nat.not_lt.mpr hd), if_pos (by simp only [maxfile] at hbn; omega)]
    refine runs_act rfl ?_
    rw [if_neg ha]
    refine solo_bread hc (by simp) ?_
    have he : perform Λ (s.take i ((s.inode j).addrs ndirect)) i (.entry ((s.inode j).addrs ndirect) (bn - ndirect)) =
        .ok (leField (s.block ((s.inode j).addrs ndirect)) (4 * (bn - ndirect)) 4, s.take i ((s.inode j).addrs ndirect)) := by
      show Except.ok (leField ((s.take i ((s.inode j).addrs ndirect)).block _) _ 4, _) = _
      rw [take_block]
      rfl
    refine runs_act he ?_
    rw [if_neg hne]
    exact solo_brelse hc (by simp) (runs_pure ⟨rfl, touch_reads s _⟩)

/-! ## `readi` -/

/-- How many bytes `readi` returns. -/
def readLength (size off n : Nat) : Nat := if size < off ∨ (off + n) % 2 ^ 32 < off then 0 else min n (size - off)

/-- The buffer has the first `tot` bytes of file `x` from `off` on. -/
def HasBytes (v : Vol) (x off tot : Nat) (buf : Bytes) : Prop := ∀ k < tot, buf k = v.content x (off + k)

section

variable (hc : Calm none s) (hs : (s.volAt sb j).Backed sb (s.inode j).inum size)

include hc hs

theorem solo_readiLoop {off n : Nat} (hle : 0 < n → off + n ≤ size) (fuel tot : Nat) (buf : Bytes) (htot : tot ≤ n)
    (hfuel : n ≤ tot + fuel) (hbuf : HasBytes (s.volAt sb j) (s.inode j).inum off tot buf) (hr : ReadsOnly s s') :
    Solo Λ i (readiLoop sb j none n fuel buf tot (off + tot)) s'
      (fun r s' => r.1 = n ∧ HasBytes (s.volAt sb j) (s.inode j).inum off n r.2 ∧ ReadsOnly s s') E := by
  induction fuel generalizing tot buf s' with
  | zero =>
    obtain rfl : n = tot := by omega
    exact runs_pure ⟨rfl, hbuf, hr⟩
  | succ fuel ih =>
    refine runs_ite (fun hend => ?_) fun hend => ?_
    · obtain rfl : n = tot := by omega
      exact runs_pure ⟨rfl, hbuf, hr⟩
    have hdiv := Nat.div_mul_le_self (off + tot) bsize
    have hlow := hs.block ((off + tot) / bsize) (by omega)
    have hbmap : Solo Λ i (bmap sb j ((off + tot) / bsize)) s' _ E :=
      solo_bmap (hr.calm hc) (hr.backed hs) (by omega)
    refine runs_bind hbmap ?_
    rintro b s1 ⟨rfl, hr1⟩
    rw [hr.volAt, hr.inode]
    have hr1 := hr.trans hr1
    refine solo_bread (hr1.calm hc) (by simp) ?_
    rw [hr1.block, eitherCopyout]
    refine solo_brelse (hr1.calm hc) (by simp) ?_
    generalize hm : min (n - tot) (bsize - (off + tot) % bsize) = m
    have hmod := Nat.mod_lt (off + tot) (show 0 < bsize by decide)
    rw [add_assoc]
    refine ih (tot + m) _ (by omega) (by omega) (fun k hk => ?_) (hr1.trans (touch_reads s1 _))
    by_cases hkt : k < tot
    · rw [if_neg (by omega)]
      exact hbuf k hkt
    -- a byte of this round is in the block that was read
    have hq : (off + k) / bsize = (off + tot) / bsize := by simp only [bsize] at *; omega
    have hrem : (off + k) % bsize = (off + tot) % bsize + (k - tot) := by simp only [bsize] at *; omega
    rw [if_pos (by omega), Vol.content, hq, hrem, s.volAt_bytes sb j hlow]
    exact (if_pos (by omega)).symm

/-- `readi` to a kernel buffer, at any offset and for any number of bytes. -/
theorem solo_readi (off n : Nat)
    (hle : 0 < readLength (s.inode j).info.size off n → off + readLength (s.inode j).info.size off n ≤ size) :
    Solo Λ i (readi sb j none off n) s (fun r s' => r.1 = readLength (s.inode j).info.size off n ∧
      HasBytes (s.volAt sb j) (s.inode j).inum off (readLength (s.inode j).info.size off n) r.2 ∧ ReadsOnly s s') E := by
  unfold readLength at hle
  unfold readi readLength
  refine runs_act rfl (runs_ite (fun hout => ?_) fun hin => ?_)
  · rw [if_pos hout]
    exact runs_pure ⟨rfl, fun k hk => absurd hk (Nat.not_lt_zero _), ReadsOnly.refl s⟩
  have hlen : (if (s.inode j).info.size < off + n then (s.inode j).info.size - off else n) =
      min n ((s.inode j).info.size - off) := by
    split <;> omega
  rw [if_neg hin] at hle
  rw [if_neg hin, hlen]
  generalize hm : min n ((s.inode j).info.size - off) = m at hle
  exact solo_readiLoop hc hs hle m 0 _ (Nat.zero_le _) (by omega) (fun k hk => absurd hk (Nat.not_lt_zero _))
    (ReadsOnly.refl s)

/-! ## Directories -/

theorem solo_readDirent (hsize : size ≤ (s.inode j).info.size) (ht : 16 * t + 16 ≤ size) :
    Solo Λ i (readDirent sb j (16 * t)) s (fun r s' => ∃ de, r = some de ∧
      (∀ x < 16, de x = (s.volAt sb j).content (s.inode j).inum (16 * t + x)) ∧ ReadsOnly s s') E := by
  have hmax : size ≤ 274432 := hs.inside
  have hlen : readLength (s.inode j).info.size (16 * t) 16 = 16 := by
    unfold readLength
    rw [if_neg (by omega)]
    omega
  have hread : Solo Λ i (readi sb j none (16 * t) 16) s _ E := solo_readi hc hs (16 * t) 16 (by omega)
  rw [hlen] at hread
  refine runs_bind hread ?_
  rintro ⟨r, de⟩ s' ⟨hr, hde, hreads⟩
  refine runs_pure ⟨de, if_pos hr, hde, hreads⟩

/-- The loop of `dirlookup` goes to the first entry of the name, at slot `t`. -/
theorem solo_dirScan {dev : Nat} {name : List UInt8} (hsize : size ≤ (s.inode j).info.size) (hlt : 16 * t + 16 ≤ size)
    (hfound : direntAt ((s.volAt sb j).content (s.inode j).inum) t = some (dirKey name, x))
    (hfirst : ∀ k < t, ∀ y, direntAt ((s.volAt sb j).content (s.inode j).inum) k ≠ some (dirKey name, y))
    {Q : Option (Nat × Nat) → Sys → Prop}
    (higet : ∀ s', ReadsOnly s s' → Solo Λ i (iget dev x) s' (fun ip s' => Q (some (ip, 16 * t)) s') E)
    (n k : Nat) (hk : k ≤ t) (hn : t < k + n) (hr : ReadsOnly s s') : Solo Λ i (dirScan sb j dev name n (16 * k)) s' Q E := by
  induction n generalizing k s' with
  | zero => omega
  | succ n ih =>
    have hread : Solo Λ i (readDirent sb j (16 * k)) s' _ E :=
      solo_readDirent (hr.calm hc) (hr.backed hs) (by rw [hr.inode]; exact hsize) (by omega)
    refine runs_bind hread ?_
    rintro _ s1 ⟨de, rfl, hde, hr1⟩
    rw [hr.volAt, hr.inode] at hde
    have hr1 := hr.trans hr1
    have hentry : direntAt ((s.volAt sb j).content (s.inode j).inum) k =
        if direntInum de = 0 then none else some (cstr (fun x => de (2 + x)) dirsiz 0, direntInum de) := by
      have hname : cstr (fun x => de (2 + x)) dirsiz 0 =
          cstr (fun x => slotBytes ((s.volAt sb j).content (s.inode j).inum) k (2 + x)) dirsiz 0 :=
        cstr_congr fun x hx => hde _ (by simp only [dirsiz] at hx; omega)
      have hnum : direntInum de = direntInum (slotBytes ((s.volAt sb j).content (s.inode j).inum) k) := by
        unfold direntInum
        rw [hde 0 (by omega), hde 1 (by omega)]
        rfl
      rw [hname, hnum]
      rfl
    dsimp only
    by_cases hkt : k = t
    · subst hkt
      rw [hfound] at hentry
      have hnum : direntInum de ≠ 0 := by
        intro h0
        rw [if_pos h0] at hentry
        cases hentry
      rw [if_neg hnum] at hentry
      have hkey : cstr (fun x => de (2 + x)) dirsiz 0 = dirKey name := (congrArg Prod.fst (Option.some.inj hentry)).symm
      have hx' : direntInum de = x := (congrArg Prod.snd (Option.some.inj hentry)).symm
      rw [if_neg hnum, if_pos ((strncmpEq_iff _ _ _ _).mpr hkey.symm), hx']
      exact runs_bind (higet s1 hr1) fun ip s₂ hq => runs_pure hq
    · refine runs_ite (fun _ => ih (k + 1) (by omega) (by omega) hr1) fun hnum => ?_
      have hne : ¬ strncmpEq (nameBuf name) (fun x => de (2 + x)) dirsiz 0 = true := by
        intro heq
        rw [if_neg hnum, ← (strncmpEq_iff _ _ _ _).mp heq] at hentry
        exact hfirst k (by omega) _ hentry
      rw [if_neg hne]
      exact ih (k + 1) (by omega) (by omega) hr1

theorem solo_dirlookup {name : List UInt8} (hsize : size ≤ (s.inode j).info.size)
    (htype : (s.inode j).info.type = tDir) (hlt : 16 * t + 16 ≤ size)
    (hfound : direntAt ((s.volAt sb j).content (s.inode j).inum) t = some (dirKey name, x))
    (hfirst : ∀ k < t, ∀ y, direntAt ((s.volAt sb j).content (s.inode j).inum) k ≠ some (dirKey name, y))
    {Q : Option (Nat × Nat) → Sys → Prop}
    (higet : ∀ s', ReadsOnly s s' → Solo Λ i (iget (s.inode j).dev x) s' (fun ip s' => Q (some (ip, 16 * t)) s') E) :
    Solo Λ i (dirlookup sb j name) s Q E := by
  refine runs_act rfl ?_
  rw [if_neg (fun h => h htype)]
  exact solo_dirScan hc hs hsize hlt hfound hfirst higet _ 0 (Nat.zero_le _) (by omega) (ReadsOnly.refl s)

end

/-! ## The inode table -/

/-- An entry of the inode table as `ilock` leaves it. -/
def Sys.loaded (s : Sys) (sb : Superblock) (j : Nat) : Minode :=
  if (s.inode j).valid then s.inode j
  else
    { s.inode j with
      valid := true, info := diskInfo sb s.block (s.inode j).inum
      addrs := dinodeAddrs (s.block (sb.iblock (s.inode j).inum)) (inodeOff (s.inode j).inum) }

/-- The state with inode `j` locked and read. -/
def Sys.lockInode (s : Sys) (sb : Superblock) (i j : Nat) : Sys :=
  { s with ilock := update s.ilock j (some i), inode := update s.inode j (s.loaded sb j) }

theorem solo_ilock (hc : Calm none s) (href : 0 < (s.inode j).ref) (hlock : s.ilock j = none)
    (htype : (diskInfo sb s.block (s.inode j).inum).type ≠ 0) :
    Solo Λ i (ilock sb (some j)) s (fun _ s' => ReadsOnly (s.lockInode sb i j) s') E := by
  have hlocked : perform Λ s i (.acquiresleep j) = .ok ((), { s with ilock := update s.ilock j (some i) }) := by
    show (do let s ← s.acquiresleep i j; pure ((), s)) = _
    unfold acquiresleep
    rw [hlock]
    rfl
  refine runs_act rfl ?_
  rw [if_neg (by omega)]
  refine runs_act hlocked (runs_act rfl (runs_ite (fun hv => ?_) fun hv => ?_))
  · have hsame : s.lockInode sb i j = { s with ilock := update s.ilock j (some i) } := by
      unfold lockInode loaded
      rw [if_pos hv, update_eq_self]
    rw [hsame]
    exact runs_pure (ReadsOnly.refl _)
  · have hc1 : Calm none { s with ilock := update s.ilock j (some i) } := ⟨hc.plock, hc.holder⟩
    refine solo_bread hc1 (by simp) (runs_act rfl (runs_act rfl ?_))
    -- the entries of the table are apart from the buffers
    change Solo Λ i _ (take (setInode (setInode { s with ilock := update s.ilock j (some i) } j _) j _) i _) _ _
    refine solo_brelse (H := none) ⟨hc.plock, hc.holder⟩ (by simp) (runs_act rfl ?_)
    refine runs_ite (fun h => absurd h htype) fun _ => runs_pure ⟨?_, ?_⟩
    · unfold lockInode loaded setInode touch take
      rw [if_neg hv]
      simp only [update_idem, update_self]
      rfl
    · exact (touch_reads { s with ilock := update s.ilock j (some i) } _).block

/-- The entries of the inode table in use: one for each inode, as on the disk once read. -/
structure Table (sb : Superblock) (s : Sys) : Prop where
  ref : ∀ j < ninode, 0 ≤ (s.inode j).ref
  once : ∀ j < ninode, ∀ j' < ninode, 0 < (s.inode j).ref → 0 < (s.inode j').ref → (s.inode j).dev = (s.inode j').dev →
    (s.inode j).inum = (s.inode j').inum → j = j'
  agrees : ∀ j < ninode, 0 < (s.inode j).ref → (s.inode j).valid = true →
    (s.inode j).info = diskInfo sb s.block (s.inode j).inum ∧ slotAddrs (s.inode j).addrs = diskAddrs sb s.block (s.inode j).inum

theorem ReadsOnly.table (h : ReadsOnly s s') (ht : Table sb s) : Table sb s' := by
  constructor <;> rw [h.inode]
  · exact ht.ref
  · exact ht.once
  · rw [h.block]
    exact ht.agrees

theorem Table.volAt (ht : Table sb s) (hj : j < ninode) (href : 0 < (s.inode j).ref) (hv : (s.inode j).valid = true)
    (hx : (s.inode j).inum < sb.ninodes) : s.volAt sb j = s.vol sb := by
  obtain ⟨hinfo, haddrs⟩ := ht.agrees j hj href hv
  refine Vol.ext rfl rfl ?_ ?_ rfl
  · show update _ _ _ = _
    have h : (s.vol sb).addrs (s.inode j).inum = diskAddrs sb s.block (s.inode j).inum := if_pos hx
    rw [haddrs, ← h, update_eq_self]
  · show update _ _ _ = _
    have h : (s.vol sb).size (s.inode j).inum = (diskInfo sb s.block (s.inode j).inum).size := if_pos hx
    rw [hinfo, ← h, update_eq_self]

theorem loaded_same (s : Sys) (sb : Superblock) (j : Nat) :
    (s.loaded sb j).ref = (s.inode j).ref ∧ (s.loaded sb j).dev = (s.inode j).dev ∧ (s.loaded sb j).inum = (s.inode j).inum ∧
    (s.loaded sb j).valid = true := by
  unfold loaded
  split
  next hv => exact ⟨rfl, rfl, rfl, hv⟩
  next => exact ⟨rfl, rfl, rfl, rfl⟩

theorem Table.loaded_agrees (ht : Table sb s) (hj : j < ninode) (href : 0 < (s.inode j).ref) :
    (s.loaded sb j).info = diskInfo sb s.block (s.inode j).inum ∧
    slotAddrs (s.loaded sb j).addrs = diskAddrs sb s.block (s.inode j).inum := by
  unfold loaded
  split
  next hv => exact ht.agrees j hj href hv
  next => exact ⟨rfl, rfl⟩

theorem Table.setInode {e : Minode} (ht : Table sb s) (href : 0 ≤ e.ref)
    (honce : ∀ j' < ninode, 0 < (s.inode j').ref → (s.inode j').dev = e.dev → (s.inode j').inum = e.inum → j' = j)
    (hagrees : 0 < e.ref → e.valid = true → e.info = diskInfo sb s.block e.inum ∧ slotAddrs e.addrs = diskAddrs sb s.block e.inum) :
    Table sb (s.setInode j e) := by
  have hself : (s.setInode j e).inode j = e := update_self ..
  have hother : ∀ {j'}, j' ≠ j → (s.setInode j e).inode j' = s.inode j' := fun h => update_of_ne h ..
  have hblock : (s.setInode j e).block = s.block := rfl
  constructor
  case ref =>
    intro j' hj'
    by_cases h : j' = j
    · rw [h, hself]
      exact href
    · rw [hother h]
      exact ht.ref j' hj'
  case once =>
    intro j1 h1 j2 h2 hr1 hr2 hdev hinum
    by_cases e1 : j1 = j <;> by_cases e2 : j2 = j
    · rw [e1, e2]
    · rw [e1, hself, hother e2] at hdev hinum
      rw [hother e2] at hr2
      exact absurd (honce j2 h2 hr2 hdev.symm hinum.symm) e2
    · rw [e2, hself, hother e1] at hdev hinum
      rw [hother e1] at hr1
      exact absurd (honce j1 h1 hr1 hdev hinum) e1
    · rw [hother e1, hother e2] at hdev hinum
      rw [hother e1] at hr1
      rw [hother e2] at hr2
      exact ht.once j1 h1 j2 h2 hr1 hr2 hdev hinum
  case agrees =>
    intro j' hj'
    by_cases h : j' = j
    · rw [h, hself]
      exact hagrees
    · rw [hother h]
      exact ht.agrees j' hj'

theorem Table.lockInode (ht : Table sb s) (hj : j < ninode) (href : 0 < (s.inode j).ref) (i : Nat) :
    Table sb (s.lockInode sb i j) := by
  obtain ⟨hr, hd, hx, -⟩ := loaded_same s sb j
  have h : Table sb (s.setInode j (s.loaded sb j)) := by
    refine ht.setInode (by omega) (fun j' hj' hr' hd' hx' => ?_) fun _ _ => ?_
    · exact ht.once j' hj' j hj hr' href (hd'.trans hd) (hx'.trans hx)
    · rw [hx]
      exact ht.loaded_agrees hj href
  exact ⟨h.ref, h.once, h.agrees⟩

/-- What `iget` leaves in entry `j`: a new reference, and an inode to be read if the entry was free. -/
structure Got (s : Sys) (d x j : Nat) (e : Minode) : Prop where
  lt : j < ninode
  dev : e.dev = d
  inum : e.inum = x
  ref : 0 < e.ref
  old : (0 < (s.inode j).ref ∧ e = { s.inode j with ref := (s.inode j).ref + 1 }) ∨
    ((s.inode j).ref = 0 ∧ e.valid = false ∧ ∀ j' < ninode, 0 < (s.inode j').ref → (s.inode j').dev = d → (s.inode j').inum ≠ x)

theorem solo_iget {d : Nat} (hfree : ∃ j < ninode, (s.inode j).ref = 0) :
    Solo Λ i (iget d x) s (fun j s' => ∃ e, Got s d x j e ∧ s' = s.setInode j e) E := by
  rcases hfound : firstSlot ninode (fun j => decide (0 < (s.inode j).ref) && (s.inode j).dev == d && (s.inode j).inum == x) with _ | j
  · rcases hempty : firstSlot ninode (fun j => (s.inode j).ref == 0) with _ | j
    · obtain ⟨j, hj, hz⟩ := hfree
      have := firstSlot_none hempty hj
      rw [hz] at this
      cases this
    · obtain ⟨hj, hz⟩ := firstSlot_some hempty
      have he : perform Λ s i (.iget d x) =
          .ok (j, s.setInode j { s.inode j with dev := d, inum := x, ref := 1, valid := false }) := by
        show s.iget d x = _
        unfold Sys.iget
        rw [hfound, hempty]
        rfl
      refine runs_call he ⟨_, ⟨hj, rfl, rfl, Int.one_pos, Or.inr ⟨of_decide_eq_true hz, rfl, fun j' hj' hr hd hx => ?_⟩⟩, rfl⟩
      have := firstSlot_none hfound hj'
      rw [hd, hx, decide_eq_true hr] at this
      simp at this
  · obtain ⟨hj, hm⟩ := firstSlot_some hfound
    simp only [Bool.and_eq_true, decide_eq_true_eq, beq_iff_eq] at hm
    obtain ⟨⟨hr, hd⟩, hx⟩ := hm
    have he : perform Λ s i (.iget d x) = .ok (j, s.setInode j { s.inode j with ref := (s.inode j).ref + 1 }) := by
      show s.iget d x = _
      unfold Sys.iget
      rw [hfound]
      rfl
    exact runs_call he ⟨{ s.inode j with ref := (s.inode j).ref + 1 },
      ⟨hj, hd, hx, Int.lt_add_one_of_le (Int.le_of_lt hr), Or.inl ⟨hr, rfl⟩⟩, rfl⟩

theorem Got.table {d : Nat} {e : Minode} (h : Got s d x j e) (ht : Table sb s) : Table sb (s.setInode j e) := by
  refine ht.setInode (Int.le_of_lt h.ref) (fun j' hj' hr hd hx => ?_) fun _ hv => ?_
  · rw [h.dev] at hd
    rw [h.inum] at hx
    rcases h.old with ⟨hr', rfl⟩ | ⟨-, -, hnone⟩
    · exact ht.once j' hj' j h.lt hr hr' (hd.trans h.dev.symm) (hx.trans h.inum.symm)
    · exact absurd hx (hnone j' hj' hr hd)
  · rcases h.old with ⟨hr', rfl⟩ | ⟨-, hv', -⟩
    · exact ht.agrees j h.lt hr' hv
    · rw [hv'] at hv
      cases hv

end

end Xv6Mmap.Blk

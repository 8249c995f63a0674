import Xv6Mmap.Volume
import Xv6Mmap.Lemmas.BlockCodec

/-!
# Changes to a volume

A fresh block goes into an empty slot, the bytes of a block of a file change, a file loses all its blocks: each keeps the volume
sound, and `Keeps` says which files still have the blocks and bytes they had.
-/

namespace Xv6Mmap.Blk

open Function

namespace Vol

variable {sb : Superblock} {v v' w : Vol} {x y bn m b a k : Nat} {o o' : Slot}

theorem block_direct (h : bn < ndirect) : v.block x bn = v.addrs x bn := if_pos h

theorem block_none (h : ndirect ≤ bn) (ha : v.addrs x ndirect = 0) : v.block x bn = 0 := by
  rw [block, if_neg (Nat.not_lt.mpr h), if_pos ha]

theorem block_entry (h : ndirect ≤ bn) (ha : v.addrs x ndirect ≠ 0) : v.block x bn = v.entry (v.addrs x ndirect) (bn - ndirect) := by
  rw [block, if_neg (Nat.not_lt.mpr h), if_neg ha]

/-- Volumes with the same addresses of `x` and the same indirect block have the same blocks of `x`. -/
theorem block_congr (haddrs : v'.addrs x = v.addrs x)
    (hbytes : v.addrs x ndirect ≠ 0 → v'.bytes (v.addrs x ndirect) = v.bytes (v.addrs x ndirect)) : v'.block x bn = v.block x bn := by
  by_cases hbn : bn < ndirect
  · rw [block_direct hbn, block_direct hbn, haddrs]
  · have hbn := Nat.not_lt.mp hbn
    by_cases ha : v.addrs x ndirect = 0
    · rw [block_none hbn (by rw [haddrs]; exact ha), block_none hbn ha]
    · rw [block_entry hbn (by rw [haddrs]; exact ha), block_entry hbn ha, haddrs, entry, entry, hbytes ha]

/-- The number that is kept in a slot, and the slots that a file has. -/
def number (v : Vol) : Slot → Nat
  | .data x bn => v.block x bn
  | .table x => v.addrs x ndirect

def Has (v : Vol) (o : Slot) : Prop := v.live o.inode ∧ ∀ x bn, o = .data x bn → bn < maxfile

theorem holds_iff : v.Holds o b ↔ v.Has o ∧ v.number o = b ∧ b ≠ 0 := by
  cases o with
  | data x bn => simp [Holds, Has, number, Slot.inode, and_assoc]
  | table x => simp [Holds, Has, number, Slot.inode]

section Sound

section

variable (h : Sound sb v)

include h

theorem Sound.used_of_holds (ho : v.Holds o b) : v.used b = true := (h.full.held o b ho).1

theorem Sound.datastart_le (ho : v.Holds o b) : sb.datastart ≤ b := Nat.not_lt.mp (h.full.held o b ho).2

theorem Sound.lt_size (ho : v.Holds o b) : b < sb.size := h.inside b (h.used_of_holds ho)

theorem Sound.fresh_datastart_le (hb : Fresh sb v b) : sb.datastart ≤ b := by
  refine Nat.not_lt.mp fun hlt => ?_
  have := h.full.rest b hlt
  rw [hb.unused] at this
  cases this

theorem Sound.fresh_ne_zero (hb : Fresh sb v b) : b ≠ 0 := by
  have := h.fresh_datastart_le hb
  exact Nat.ne_of_gt (lt_of_lt_of_le (Nat.succ_pos _) this)

theorem Sound.ne_fresh (hb : Fresh sb v b) (ho : v.Holds o a) : a ≠ b := by
  rintro rfl
  have := h.used_of_holds ho
  rw [hb.unused] at this
  cases this

theorem Sound.table_ne (ht : v.Holds (.table y) a) (hd : v.Holds (.data x bn) b) : a ≠ b := by
  rintro rfl
  cases h.full.inj _ _ _ ht hd

/-! ## Blocks that are added -/

/-- A fresh block goes into an empty slot of a file. -/
theorem Sound.claim (hb : Fresh sb v b) (ho : v.Has o) (hzero : v.number o = 0) (hused : v'.used = update v.used b true)
    (hlive : v'.live = v.live) (hsize : v'.size = v.size)
    (hnumber : ∀ o', v.live o'.inode → v'.number o' = if o' = o then b else v.number o') : Sound sb v' := by
  have hpos := h.fresh_ne_zero hb
  have hmark : ∀ y, v'.used y = true ↔ v.used y = true ∨ y = b := by
    intro y
    rw [hused, update_apply]
    split <;> simp [*]
  have hhas : ∀ o', v'.Has o' ↔ v.Has o' := by
    intro o'
    rw [Has, Has, hlive]
  constructor
  case full =>
    refine h.full.gain (a := o) (x := b) (by rw [hb.unused]; exact Bool.false_ne_true) (fun o' y => ?_) hmark
    rw [holds_iff, holds_iff, hhas]
    constructor
    · rintro ⟨hz, hy, hne⟩
      rw [hnumber o' hz.1] at hy
      split at hy
      · exact Or.inr ⟨‹_›, hy.symm⟩
      · exact Or.inl ⟨hz, hy, hne⟩
    · rintro (⟨hz, hy, hne⟩ | ⟨rfl, rfl⟩)
      · refine ⟨hz, ?_, hne⟩
        rw [hnumber o' hz.1, if_neg]
        · exact hy
        · rintro rfl
          exact hne (hy.symm.trans hzero)
      · exact ⟨ho, by rw [hnumber o' ho.1, if_pos rfl], hpos⟩
  case inside =>
    intro y hy
    rcases (hmark y).mp hy with hy | rfl
    · exact h.inside y hy
    · exact hb.lt
  case covered =>
    intro y hy m hm
    rw [hlive] at hy
    rw [hsize] at hm
    have hn : v'.block y m = _ := hnumber (.data y m) hy
    rw [hn]
    split
    · exact hpos
    · exact h.covered y hy m hm
  case sized =>
    rw [hlive, hsize]
    exact h.sized

end

/-! ## What a change leaves as it was -/

/-- The files of `S` have the blocks and the bytes they had. -/
structure Keeps (S : Set Nat) (v v' : Vol) : Prop where
  live : ∀ y ∈ S, v'.live y ↔ v.live y
  size : ∀ y ∈ S, v'.size y = v.size y
  block : ∀ y ∈ S, v.live y → ∀ m < maxfile, v.block y m ≠ 0 → v'.block y m = v.block y m
  bytes : ∀ y ∈ S, v.live y → ∀ m < maxfile, v.block y m ≠ 0 → v'.bytes (v.block y m) = v.bytes (v.block y m)

theorem Keeps.refl (S : Set Nat) (v : Vol) : Keeps S v v :=
  ⟨fun _ _ => Iff.rfl, fun _ _ => rfl, fun _ _ _ _ _ _ => rfl, fun _ _ _ _ _ _ => rfl⟩

theorem Keeps.trans {S T : Set Nat} (h : Keeps S v v') (h' : Keeps T v' w) : Keeps (S ∩ T) v w where
  live := fun y hy => (h'.live y hy.2).trans (h.live y hy.1)
  size := fun y hy => (h'.size y hy.2).trans (h.size y hy.1)
  block := fun y hy hlive m hm hne => by
    have he := h.block y hy.1 hlive m hm hne
    rw [h'.block y hy.2 ((h.live y hy.1).mpr hlive) m hm (by rw [he]; exact hne), he]
  bytes := fun y hy hlive m hm hne => by
    have he := h.block y hy.1 hlive m hm hne
    have hb := h'.bytes y hy.2 ((h.live y hy.1).mpr hlive) m hm (by rw [he]; exact hne)
    rw [he] at hb
    rw [hb, h.bytes y hy.1 hlive m hm hne]

theorem Keeps.mono {S T : Set Nat} (h : Keeps S v v') (hT : T ⊆ S) : Keeps T v v' :=
  ⟨fun y hy => h.live y (hT hy), fun y hy => h.size y (hT hy), fun y hy => h.block y (hT hy), fun y hy => h.bytes y (hT hy)⟩

theorem Keeps.content {S : Set Nat} (h : Keeps S v v') (hy : y ∈ S) (hlive : v.live y) (hm : m / bsize < maxfile)
    (hne : v.block y (m / bsize) ≠ 0) : v'.content y m = v.content y m := by
  rw [Vol.content, Vol.content, h.block y hy hlive _ hm hne, h.bytes y hy hlive _ hm hne]

end Sound

/-! ## The changes of the code -/

section Changes

/-- The blocks of the files do not depend on the bytes of a block that is no indirect block. -/
theorem block_put (h : ∀ y, v.live y → v.addrs y ndirect ≠ 0 → v.addrs y ndirect ≠ b) (d : Bytes) (hy : v.live y) :
    (v.put b d).block y m = v.block y m :=
  block_congr rfl fun ha => update_of_ne (h y hy ha) ..

theorem Sound.alloc_block (h : Sound sb v) (hb : Fresh sb v b) (hy : v.live y) : (v.alloc b).block y m = v.block y m :=
  block_congr rfl fun ha => update_of_ne (h.ne_fresh hb (o := .table y) ⟨hy, rfl, ha⟩) ..

theorem Sound.alloc_keeps (h : Sound sb v) (hb : Fresh sb v b) : Keeps Set.univ v (v.alloc b) where
  live := fun _ _ => Iff.rfl
  size := fun _ _ => rfl
  block := fun _ _ hy _ _ _ => h.alloc_block hb hy
  bytes := fun y _ hy m hm hne => update_of_ne (h.ne_fresh hb (o := .data y m) ⟨hy, hm, rfl, hne⟩) ..

theorem setAddr_addrs_self : (v.setAddr x k a).addrs x = update (v.addrs x) k a := update_self ..

theorem setAddr_addrs_of_ne (h : y ≠ x) : (v.setAddr x k a).addrs y = v.addrs y := update_of_ne h ..

/-- `balloc` into a direct slot. -/
theorem Sound.setDirect (h : Sound sb v) (hb : Fresh sb v b) (hx : v.live x) (hk : bn < ndirect) (hzero : v.addrs x bn = 0) :
    Sound sb ((v.alloc b).setAddr x bn b) ∧ Keeps Set.univ v ((v.alloc b).setAddr x bn b) ∧
    ∀ y m, v.live y → ((v.alloc b).setAddr x bn b).block y m = if y = x ∧ m = bn then b else v.block y m := by
  have htable : ∀ y, v.live y → ((v.alloc b).setAddr x bn b).addrs y ndirect = v.addrs y ndirect := by
    intro y _
    by_cases e : y = x
    · subst e
      rw [setAddr_addrs_self, update_of_ne (by omega)]
      rfl
    · rw [setAddr_addrs_of_ne e]
      rfl
  have hblock : ∀ y m, v.live y → ((v.alloc b).setAddr x bn b).block y m = if y = x ∧ m = bn then b else v.block y m := by
    intro y m hy
    rw [← h.alloc_block hb hy]
    by_cases e : y = x
    · subst e
      by_cases hm : m < ndirect
      · rw [block_direct hm, block_direct hm, setAddr_addrs_self, update_apply]
        by_cases e : m = bn
        · rw [if_pos e, if_pos ⟨rfl, e⟩]
        · rw [if_neg e, if_neg fun h => e h.2]
      · have hm := Nat.not_lt.mp hm
        rw [if_neg (by omega)]
        by_cases ha : (v.alloc b).addrs y ndirect = 0
        · rw [block_none hm ((htable y hy).trans ha), block_none hm ha]
        · rw [block_entry hm (by rw [htable y hy]; exact ha), block_entry hm ha, htable y hy]
          rfl
    · rw [if_neg fun h => e h.1]
      exact block_congr (setAddr_addrs_of_ne e) fun _ => rfl
  have hz : v.block x bn = 0 := (block_direct hk).trans hzero
  refine ⟨h.claim (o := .data x bn) hb ⟨hx, by rintro _ _ ⟨⟩; exact Nat.lt_add_right _ hk⟩ hz rfl rfl rfl fun o ho => ?_,
    ⟨fun _ _ => Iff.rfl, fun _ _ => rfl, ?_, ?_⟩, hblock⟩
  · cases o with
    | data y m => simpa [number] using hblock y m ho
    | table y => exact htable y ho
  · intro y _ hy m _ hne
    rw [hblock y m hy, if_neg]
    rintro ⟨rfl, rfl⟩
    exact hne hz
  · exact (h.alloc_keeps hb).bytes

/-- `balloc` of an indirect block. -/
theorem Sound.setTable (h : Sound sb v) (ha : Fresh sb v a) (hx : v.live x) (hzero : v.addrs x ndirect = 0) :
    Sound sb ((v.alloc a).setAddr x ndirect a) ∧ Keeps Set.univ v ((v.alloc a).setAddr x ndirect a) ∧
    ∀ y m, v.live y → ((v.alloc a).setAddr x ndirect a).block y m = v.block y m := by
  have hne := h.fresh_ne_zero ha
  have htable : ∀ y, v.live y → ((v.alloc a).setAddr x ndirect a).addrs y ndirect = if y = x then a else v.addrs y ndirect := by
    intro y _
    by_cases e : y = x
    · subst e
      rw [setAddr_addrs_self, update_self, if_pos rfl]
    · rw [setAddr_addrs_of_ne e, if_neg e]
      rfl
  have hblock : ∀ y m, v.live y → ((v.alloc a).setAddr x ndirect a).block y m = v.block y m := by
    intro y m hy
    by_cases e : y = x
    · subst e
      by_cases hm : m < ndirect
      · rw [block_direct hm, block_direct hm, setAddr_addrs_self, update_of_ne (ne_of_lt hm)]
        rfl
      have hm := Nat.not_lt.mp hm
      have hself := htable y hy
      rw [if_pos rfl] at hself
      rw [block_entry hm (by rw [hself]; exact hne), block_none hm hzero, hself]
      refine leField_zero fun z _ _ => ?_
      show update v.bytes a (fun _ => 0) a z = 0
      rw [update_self]
    · rw [block_congr (v := v.alloc a) (setAddr_addrs_of_ne e) fun _ => rfl]
      exact h.alloc_block ha hy
  refine ⟨h.claim (o := .table x) ha ⟨hx, nofun⟩ hzero rfl rfl rfl fun o ho => ?_, ⟨fun _ _ => Iff.rfl, fun _ _ => rfl, ?_, ?_⟩, hblock⟩
  · cases o with
    | data y m => exact hblock y m ho
    | table y => simpa [number] using htable y ho
  · exact fun y _ hy m _ _ => hblock y m hy
  · exact (h.alloc_keeps ha).bytes

/-- `balloc` into an entry of an indirect block. -/
theorem Sound.setEntry (h : Sound sb v) (hb : Fresh sb v b) (hx : v.live x) (ha : v.addrs x ndirect ≠ 0) (hk : ndirect ≤ bn)
    (hbn : bn < maxfile) (hzero : v.block x bn = 0) (hsmall : b < 2 ^ 32) :
    Sound sb ((v.alloc b).setEntry (v.addrs x ndirect) (bn - ndirect) b) ∧
    Keeps Set.univ v ((v.alloc b).setEntry (v.addrs x ndirect) (bn - ndirect) b) ∧
    ∀ y m, v.live y → ((v.alloc b).setEntry (v.addrs x ndirect) (bn - ndirect) b).block y m =
      if y = x ∧ m = bn then b else v.block y m := by
  have htab : v.Holds (.table x) (v.addrs x ndirect) := ⟨hx, rfl, ha⟩
  have hab := h.ne_fresh hb htab
  generalize ha' : v.addrs x ndirect = a at *
  have hbytes : ((v.alloc b).setEntry a (bn - ndirect) b).bytes a = putLe (v.bytes a) (4 * (bn - ndirect)) 4 b := by
    show update (v.alloc b).bytes a _ a = _
    rw [update_self]
    show putLe (update v.bytes b _ a) _ _ _ = _
    rw [update_of_ne hab]
  have hbytes' : ∀ z, z ≠ a → z ≠ b → ((v.alloc b).setEntry a (bn - ndirect) b).bytes z = v.bytes z := by
    intro z h1 h2
    show update (v.alloc b).bytes a _ z = _
    rw [update_of_ne h1]
    exact update_of_ne h2 ..
  have hblock : ∀ y m, v.live y →
      ((v.alloc b).setEntry a (bn - ndirect) b).block y m = if y = x ∧ m = bn then b else v.block y m := by
    intro y m hy
    by_cases e : y = x
    · subst e
      by_cases hm : m < ndirect
      · rw [if_neg (by omega), block_direct hm, block_direct hm]
        rfl
      have hm := Nat.not_lt.mp hm
      rw [block_entry hm (by show v.addrs y ndirect ≠ 0; rw [ha']; exact ha), block_entry hm (by rw [ha']; exact ha)]
      show leField (((v.alloc b).setEntry a (bn - ndirect) b).bytes (v.addrs y ndirect)) _ 4 = _
      rw [ha', hbytes]
      by_cases e : m = bn
      · rw [if_pos ⟨rfl, e⟩, e]
        exact leField_putLe hsmall
      · rw [if_neg fun h => e h.2]
        exact leField_putLe_apart (by omega)
    · rw [if_neg fun h => e h.1]
      refine block_congr rfl fun hne => ?_
      have hy' : v.Holds (.table y) (v.addrs y ndirect) := ⟨hy, rfl, hne⟩
      refine hbytes' _ (fun he => ?_) (h.ne_fresh hb hy')
      rw [he] at hy'
      exact e (Slot.table.inj (h.full.inj _ _ _ hy' htab))
  refine ⟨h.claim (o := .data x bn) hb ⟨hx, by rintro _ _ ⟨⟩; exact hbn⟩ hzero rfl rfl rfl fun o ho => ?_,
    ⟨fun _ _ => Iff.rfl, fun _ _ => rfl, ?_, ?_⟩, hblock⟩
  · cases o with
    | data y m => simpa [number] using hblock y m ho
    | table y => rfl
  · intro y _ hy m _ hne
    rw [hblock y m hy, if_neg]
    rintro ⟨rfl, rfl⟩
    exact hne hzero
  · intro y _ hy m hm hne
    have hd : v.Holds (.data y m) (v.block y m) := ⟨hy, hm, rfl, hne⟩
    exact hbytes' _ (h.table_ne htab hd).symm (h.ne_fresh hb hd)

theorem Sound.write (h : Sound sb v) (hb : v.Holds (.data x bn) b) (d : Bytes) :
    Sound sb (v.put b d) ∧ Keeps {x}ᶜ v (v.put b d) ∧ (∀ y m, v.live y → (v.put b d).block y m = v.block y m) ∧
    ∀ m < maxfile, v.block x m ≠ 0 → m ≠ bn → (v.put b d).bytes (v.block x m) = v.bytes (v.block x m) := by
  have hblock : ∀ y m, v.live y → (v.put b d).block y m = v.block y m := by
    intro y m hy
    exact block_put (fun z hz ha => h.table_ne ⟨hz, rfl, ha⟩ hb) d hy
  have hother : ∀ y m, v.live y → m < maxfile → v.block y m ≠ 0 → (y, m) ≠ (x, bn) →
      (v.put b d).bytes (v.block y m) = v.bytes (v.block y m) := by
    intro y m hy hm hne he
    refine update_of_ne (fun e => he ?_) ..
    have hd : v.Holds (.data y m) (v.block y m) := ⟨hy, hm, rfl, hne⟩
    rw [e] at hd
    cases h.full.inj _ _ _ hd hb
    rfl
  refine ⟨⟨h.full.congr (fun o z => ?_) fun _ => Iff.rfl, h.inside, ?_, h.sized⟩, ⟨fun _ _ => Iff.rfl, fun _ _ => rfl, ?_, ?_⟩,
    hblock, ?_⟩
  · cases o with
    | table y => exact Iff.rfl
    | data y m => exact and_congr_right fun hy => by rw [hblock y m hy]
  · intro y hy m hm
    rw [hblock y m hy]
    exact h.covered y hy m hm
  · exact fun y _ hy m _ _ => hblock y m hy
  · exact fun y hyx hy m hm hne => hother y m hy hm hne fun e => hyx (congrArg Prod.fst e)
  · exact fun m hm hne hmn => hother x m hb.1 hm hne fun e => hmn (congrArg Prod.snd e)

theorem setSize_size {size : Nat} : (v.setSize x size).size x = size := update_self ..

theorem setSize_size_of_ne {size : Nat} (h : y ≠ x) : (v.setSize x size).size y = v.size y := update_of_ne h ..

theorem Sound.setSize {size : Nat} (h : Sound sb v) (hmax : size ≤ maxFileBytes)
    (hcov : v.live x → ∀ m, m * bsize < size → v.block x m ≠ 0) : Sound sb (v.setSize x size) := by
  refine ⟨h.full.congr (fun o z => ?_) fun _ => Iff.rfl, h.inside, fun y hy m hm => ?_, fun y hy => ?_⟩
  · cases o <;> exact Iff.rfl
  · by_cases e : y = x
    · subst e
      exact hcov hy m (Nat.lt_of_lt_of_eq hm setSize_size)
    · exact h.covered y hy m (Nat.lt_of_lt_of_eq hm (setSize_size_of_ne e))
  · by_cases e : y = x
    · subst e
      exact le_of_eq_of_le setSize_size hmax
    · exact le_of_eq_of_le (setSize_size_of_ne e) (h.sized y hy)

end Changes

end Vol

end Xv6Mmap.Blk

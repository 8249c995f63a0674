import Xv6Mmap.Umalloc

/-!
# Blocks of the user heap

The blocks of the free list and the live blocks tile what `sbrk` has returned, and the free list is circular, in the order of
addresses from `base` on, with a gap after each block. `free` finds the place of its block and joins it with its neighbours; `malloc`
takes a block or cuts one. A block from `sbrk` is a live one that `morecore` frees. Sizes are `uint`, so joining is right while all
memory has less than `2 ^ 32` units.
-/

namespace Xv6Mmap

open Function List

/-- A byte that `sbrk` has returned. -/
def UserHeap.Got (h : UserHeap) (x : Nat) : Prop := ∃ e ∈ h.pieces, e.Has x

/-- The bytes of a block, its header included. -/
def UserHeap.extent (h : UserHeap) (b : Nat) : Extent := (b, 16 * h.size b)

/-- The heap with memory from `sbrk` in `morecore`, its size written to it. -/
def UserHeap.grown (h : UserHeap) (skip nu : Nat) : UserHeap where
  ptr := h.ptr
  size := update h.size (h.brk + skip) nu
  freep := h.freep
  brk := h.brk + skip + nu * 16
  pieces := (h.brk + skip, nu * 16) :: h.pieces
  calls := h.calls + 1

theorem UserHeap.grown_total (h : UserHeap) (skip nu : Nat) : (h.grown skip nu).total = nu * 16 + h.total := sum_cons

/-- The heap after the first step of `free`, as if `p` passed over the block already; the second step writes its link in any case. -/
def UserHeap.passed (h : UserHeap) (bp p : Nat) : UserHeap :=
  { h.joinUpper bp p with ptr := update (h.joinUpper bp p).ptr p ((h.joinUpper bp p).ptr bp), freep := p }

/-- The invariant of a heap whose free list is `base` and the blocks of `l`. -/
structure HeapInv (base : Nat) (h : UserHeap) (l live : List Nat) : Prop where
  base_pos : 0 < base
  circ : Circ h.ptr base (base :: l)
  order : (base :: l).Pairwise fun a b => a + 16 * h.size a < b
  base_size : h.size base = 0
  tiles : Tiles h.Got ((l ++ live).map h.extent)
  brk : base + 16 ≤ h.brk
  bounds : ∀ e ∈ h.pieces, base + 16 ≤ e.1 ∧ e.1 + e.2 ≤ h.brk
  sum : 16 * ((l ++ live).map h.size).sum = h.total
  freep : h.freep ∈ base :: l

section

variable {base b u p bp : Nat} {h : UserHeap} {l live pre as bs : List Nat}

theorem perm_mid : (as ++ b :: bs ++ live).Perm (b :: (as ++ bs ++ live)) := perm_middle.append_right live

namespace HeapInv

section

variable (hi : HeapInv base h l live)

include hi

theorem size_pos (hb : b ∈ l ++ live) : 0 < h.size b := by
  have hpos : 0 < 16 * h.size b := hi.tiles.pos (h.extent b) (mem_map_of_mem hb)
  exact Nat.pos_of_mul_pos_left hpos

theorem place (hb : b ∈ l ++ live) : base + 16 ≤ b ∧ b + 16 * h.size b ≤ h.brk := by
  have hpos := hi.size_pos hb
  have hgot : ∀ x, b ≤ x → x < b + 16 * h.size b → h.Got x := fun x h1 h2 =>
    (hi.tiles.cover x).mpr ⟨h.extent b, mem_map_of_mem hb, h1, h2⟩
  obtain ⟨e, he, hx⟩ := hgot b le_rfl (by omega)
  obtain ⟨e', he', hx'⟩ := hgot (b + 16 * h.size b - 1) (by omega) (by omega)
  have h1 := (hi.bounds e he).1
  have h2 := (hi.bounds e' he').2
  unfold Extent.Has at hx hx'
  omega

theorem apart {rest : List Nat} (hp : (l ++ live).Perm (b :: rest)) (hu : u ∈ rest) : (h.extent b).Apart (h.extent u) := by
  have ht := hi.tiles.perm (hp.map h.extent)
  exact ht.apart_cons (mem_map_of_mem hu)

theorem nodup : (l ++ live).Nodup := by
  have ha := pairwise_map.mp hi.tiles.apart
  refine ha.imp_of_mem fun {a b} ha hb hab e => ?_
  subst e
  exact (hab.ne (hi.tiles.pos _ (mem_map_of_mem ha)) (hi.tiles.pos _ (mem_map_of_mem ha))) rfl

theorem not_listed (hb : b ∈ live) : b ∉ base :: l := by
  intro hm
  rcases mem_cons.mp hm with rfl | hm
  · have := (hi.place (mem_append_right l hb)).1
    omega
  · exact (nodup_append.mp hi.nodup).2.2 b hm b hb rfl

theorem apart_live (hu : u ∈ l) (hb : b ∈ live) : u + 16 * h.size u ≤ b ∨ b + 16 * h.size b ≤ u :=
  (pairwise_append.mp (pairwise_map.mp hi.tiles.apart)).2.2 u hu b hb

/-- All blocks have the units that `sbrk` has returned, so two sizes can be added. -/
theorem uintAdd_eq (ht : h.total < 2 ^ 36) {rest : List Nat} (hp : (l ++ live).Perm (b :: u :: rest)) :
    uintAdd (h.size b) (h.size u) = h.size b + h.size u := by
  have hsum := hi.sum
  rw [(hp.map h.size).sum_eq] at hsum
  simp only [map_cons, sum_cons] at hsum
  exact Nat.mod_eq_of_lt (by omega)

theorem permLive {live' : List Nat} (hp : live.Perm live') : HeapInv base h l live' := by
  have hp' := hp.append_left l
  refine ⟨hi.base_pos, hi.circ, hi.order, hi.base_size, hi.tiles.perm (hp'.map _), hi.brk, hi.bounds, ?_, hi.freep⟩
  rw [← (hp'.map _).sum_eq]
  exact hi.sum

end

/-! ## The place of a block -/

theorem split_at (he : base :: l = as ++ p :: bs) : ∃ pre, base :: pre = as ++ [p] ∧ l = pre ++ bs := by
  cases as with
  | nil =>
    obtain ⟨rfl, rfl⟩ := List.cons.inj he
    exact ⟨[], rfl, rfl⟩
  | cons a as =>
    obtain ⟨rfl, rfl⟩ := List.cons.inj he
    exact ⟨as ++ [p], rfl, by rw [append_assoc]; rfl⟩

theorem nodes_of (hf : base :: pre = as ++ [p]) (bs : List Nat) : base :: (pre ++ bs) = as ++ p :: bs := by
  rw [← cons_append, hf, append_assoc]
  rfl

/-- Where the block belongs: after `p`, before the blocks of `bs`. -/
structure Place (base : Nat) (l : List Nat) (bp p : Nat) (as pre bs : List Nat) : Prop where
  front : base :: pre = as ++ [p]
  list : l = pre ++ bs
  below : ∀ a ∈ base :: pre, a < bp
  above : ∀ b ∈ bs, bp < b

theorem Place.nodes (hpl : Place base l bp p as pre bs) : base :: l = as ++ p :: bs := by
  rw [hpl.list, nodes_of hpl.front]

theorem Place.mem (hpl : Place base l bp p as pre bs) : p ∈ base :: pre := by
  rw [hpl.front]
  exact mem_append_right _ mem_cons_self

theorem sorted (hi : HeapInv base h l live) : (base :: l).Pairwise (· < ·) := hi.order.imp fun hab => by omega

/-- The search of `free` stops only at the place of the block. -/
theorem place_of_stops (hi : HeapInv base h l live) (hb : bp ∈ live) (hp : p ∈ base :: l) (hs : h.freeStops bp p = true) :
    ∃ as pre bs, Place base l bp p as pre bs := by
  obtain ⟨as, bs, hnodes⟩ := append_of_mem hp
  obtain ⟨pre, hfront, rfl⟩ := split_at hnodes
  have hsorted := hi.sorted
  have hcirc := hi.circ
  rw [hnodes] at hsorted hcirc
  have hlow : ∀ a ∈ as, a < p := fun a ha => (pairwise_append.mp hsorted).2.2 a ha p mem_cons_self
  have hhigh : ∀ b ∈ bs, p < b := (pairwise_cons.mp (pairwise_append.mp hsorted).2.1).1
  have hbase : base < bp := by
    have := (hi.place (mem_append_right _ hb)).1
    omega
  simp only [UserHeap.freeStops, Bool.or_eq_true, decide_eq_true_eq] at hs
  have hpb : p < bp ∧ ∀ b ∈ bs, bp < b := by
    cases bs with
    | nil =>
      rw [hcirc.next_last] at hs
      exact ⟨by omega, nofun⟩
    | cons u bs =>
      rw [hcirc.next_mid] at hs
      have hpu := hhigh u mem_cons_self
      refine ⟨by omega, fun b hbm => ?_⟩
      rcases mem_cons.mp hbm with rfl | hbm
      · omega
      · have := (pairwise_cons.mp (pairwise_cons.mp (pairwise_append.mp hsorted).2.1).2).1 b hbm
        omega
  refine ⟨as, pre, bs, hfront, rfl, fun a ha => ?_, hpb.2⟩
  rw [hfront] at ha
  rcases mem_append.mp ha with ha | ha
  · exact (hlow a ha).trans hpb.1
  · rw [mem_singleton.mp ha]
    exact hpb.1

theorem exists_last_below {c : List Nat} (hc : c.Pairwise (· < ·)) (hx : ∃ a ∈ c, a < bp) (hb : bp ∉ c) :
    ∃ as q bs, c = as ++ q :: bs ∧ q < bp ∧ ∀ b ∈ bs, bp < b := by
  induction c with
  | nil =>
    obtain ⟨a, ha, -⟩ := hx
    cases ha
  | cons a c ih =>
    obtain ⟨hac, hc'⟩ := pairwise_cons.mp hc
    have hb' : bp ∉ c := fun hm => hb (mem_cons_of_mem a hm)
    by_cases hx' : ∃ x ∈ c, x < bp
    · obtain ⟨as, q, bs, rfl, hq⟩ := ih hc' hx' hb'
      exact ⟨a :: as, q, bs, rfl, hq⟩
    have hall : ∀ x ∈ c, bp < x := by
      intro x hxc
      have h1 : ¬ x < bp := fun hlt => hx' ⟨x, hxc, hlt⟩
      have h2 : x ≠ bp := by
        rintro rfl
        exact hb' hxc
      omega
    refine ⟨[], a, c, rfl, ?_, hall⟩
    obtain ⟨x, hxm, hxlt⟩ := hx
    rcases mem_cons.mp hxm with rfl | hxm
    · exact hxlt
    · exact absurd ⟨x, hxm, hxlt⟩ hx'

theorem search_ends (hi : HeapInv base h l live) (hb : bp ∈ live) {n : Nat} (hn : l.length + 1 ≤ n) :
    ∃ p as pre bs, seek (h.freeStops bp) h.ptr n h.freep = some p ∧ Place base l bp p as pre bs := by
  have hbase : base < bp := by
    have := (hi.place (mem_append_right _ hb)).1
    omega
  obtain ⟨as, q, bs, hsplit, hq, hbs⟩ := exists_last_below hi.sorted ⟨base, mem_cons_self, hbase⟩ (hi.not_listed hb)
  have hqm : q ∈ base :: l := by
    rw [hsplit]
    exact mem_append_right _ mem_cons_self
  have hstop : h.freeStops bp q = true := by
    have hcirc := hi.circ
    rw [hsplit] at hcirc
    simp only [UserHeap.freeStops, Bool.or_eq_true, decide_eq_true_eq]
    cases bs with
    | nil =>
      rw [hcirc.next_last]
      have : base ≤ q := by
        rcases mem_cons.mp hqm with e | hm
        · omega
        · exact le_of_lt ((pairwise_cons.mp hi.sorted).1 q hm)
      omega
    | cons u bs =>
      rw [hcirc.next_mid]
      have := hbs u mem_cons_self
      omega
  obtain ⟨p, hp, hps, e⟩ := hi.circ.seek_stops hi.freep hqm hstop hn
  obtain ⟨as, pre, bs, hpl⟩ := hi.place_of_stops hb hp hps
  exact ⟨p, as, pre, bs, e, hpl⟩

/-! ## Blocks that change -/

/-- The blocks together: a tiling of as many bytes as `sbrk` has returned. -/
def Blocks (h : UserHeap) (size : Nat → Nat) (bs : List Nat) : Prop :=
  Tiles h.Got (bs.map fun b => (b, 16 * size b)) ∧ 16 * (bs.map size).sum = h.total

theorem blocks (hi : HeapInv base h l live) : Blocks h h.size (l ++ live) := ⟨hi.tiles, hi.sum⟩

section Blocks

variable {size size' : Nat → Nat} {cs cs' rest : List Nat}

theorem map_size_congr (hs : ∀ x ∈ cs, size' x = size x) :
    cs.map (fun x => ((x, 16 * size' x) : Extent)) = cs.map (fun x => (x, 16 * size x)) ∧ (cs.map size').sum = (cs.map size).sum :=
  ⟨map_congr_left fun x hx => by rw [hs x hx], congrArg List.sum (map_congr_left hs)⟩

theorem Blocks.perm (hb : Blocks h size cs) (hp : cs.Perm cs') (hs : ∀ x ∈ cs, size' x = size x) : Blocks h size' cs' := by
  obtain ⟨h1, h2⟩ := map_size_congr hs
  refine ⟨?_, ?_⟩
  · refine Tiles.perm ?_ (hp.map _)
    rw [h1]
    exact hb.1
  · rw [← (hp.map size').sum_eq, h2]
    exact hb.2

theorem Blocks.join (hb : Blocks h size cs) (hp : cs.Perm (b :: u :: rest)) (hu : b + 16 * size b = u) (hp' : cs'.Perm (b :: rest))
    (hnew : size' b = size b + size u) (hs : ∀ x ∈ rest, size' x = size x) : Blocks h size' cs' := by
  obtain ⟨ht, hsum⟩ := hb.perm hp fun _ _ => rfl
  obtain ⟨h1, h2⟩ := map_size_congr hs
  refine ⟨Tiles.perm ?_ (hp'.map _).symm, ?_⟩
  · subst hu
    simp only [map_cons] at ht ⊢
    rw [h1, hnew, Nat.mul_add]
    exact ht.join
  · rw [(hp'.map size').sum_eq]
    simp only [map_cons, sum_cons] at hsum ⊢
    omega

theorem Blocks.cut (hb : Blocks h size cs) (hp : cs.Perm (b :: rest)) (hu : b + 16 * size' b = u) (hp' : cs'.Perm (b :: u :: rest))
    (hnew : size b = size' b + size' u) (hpos : 0 < size' b ∧ 0 < size' u) (hs : ∀ x ∈ rest, size' x = size x) :
    Blocks h size' cs' := by
  obtain ⟨ht, hsum⟩ := hb.perm hp fun _ _ => rfl
  obtain ⟨h1, h2⟩ := map_size_congr hs
  refine ⟨Tiles.perm ?_ (hp'.map _).symm, ?_⟩
  · subst hu
    simp only [map_cons] at ht ⊢
    rw [hnew, Nat.mul_add] at ht
    rw [h1]
    exact ht.cut (by omega) (by omega)
  · rw [(hp'.map size').sum_eq]
    simp only [map_cons, sum_cons] at hsum ⊢
    omega

end Blocks

section

variable (hi : HeapInv base h l live)

include hi

theorem change {h' : UserHeap} {l' live' : List Nat} (hpieces : h'.pieces = h.pieces)
    (hbrk : h'.brk = h.brk) (hblocks : Blocks h h'.size (l' ++ live')) (hbase : h'.size base = 0)
    (hcirc : Circ h'.ptr base (base :: l')) (horder : (base :: l').Pairwise fun a b => a + 16 * h'.size a < b)
    (hfreep : h'.freep ∈ base :: l') : HeapInv base h' l' live' := by
  have hgot : h'.Got = h.Got := by
    unfold UserHeap.Got
    rw [hpieces]
  refine ⟨hi.base_pos, hcirc, horder, hbase, ?_, ?_, ?_, ?_, hfreep⟩
  · rw [hgot]
    exact hblocks.1
  · rw [hbrk]
    exact hi.brk
  · rw [hpieces, hbrk]
    exact hi.bounds
  · unfold UserHeap.total
    rw [hpieces]
    exact hblocks.2

theorem order_of {size : Nat → Nat} {l' : List Nat} (hsub : l'.Sublist l)
    (hs : ∀ x ∈ base :: l', size x ≤ h.size x) : (base :: l').Pairwise fun a b => a + 16 * size a < b := by
  refine (hi.order.sublist (hsub.cons_cons base)).imp_of_mem fun {a b} ha _ hab => ?_
  have := hs a ha
  omega

theorem order_from {size : Nat → Nat} {cs : List Nat} (hnodes : base :: l = as ++ p :: bs) (hs : ∀ a ∈ as, size a = h.size a)
    (hp : ∀ x ∈ cs, p + 16 * size p < x) (hcs : cs.Pairwise fun a b => a + 16 * size a < b) :
    (as ++ p :: cs).Pairwise fun a b => a + 16 * size a < b := by
  have horder := hi.order
  rw [hnodes] at horder
  obtain ⟨has, -, hap⟩ := pairwise_append.mp horder
  refine pairwise_append.mpr ⟨has.imp_of_mem fun {a b} ha _ hab => ?_, pairwise_cons.mpr ⟨hp, hcs⟩, fun a ha x hx => ?_⟩
  · rw [hs a ha]
    exact hab
  have := hap a ha p mem_cons_self
  rw [hs a ha]
  rcases mem_cons.mp hx with rfl | hx
  · exact this
  · have := hp x hx
    omega

theorem joined (ht : h.total < 2 ^ 36) {rest cs : List Nat} (hp : (l ++ live).Perm (b :: u :: rest)) (hu : b + 16 * h.size b = u)
    (hp' : cs.Perm (b :: rest)) : uintAdd (h.size b) (h.size u) = h.size b + h.size u ∧ (∀ x ∈ rest, x ≠ b) ∧
      Blocks h (update h.size b (uintAdd (h.size b) (h.size u))) cs := by
  have hsum := hi.uintAdd_eq ht hp
  have hrest : ∀ x ∈ rest, x ≠ b := by
    rintro x hx rfl
    exact (nodup_cons.mp (hp.nodup_iff.mp hi.nodup)).1 (mem_cons_of_mem _ hx)
  refine ⟨hsum, hrest, hi.blocks.join hp hu hp' ?_ fun x hx => update_of_ne (hrest x hx) ..⟩
  rw [update_self, hsum]

/-! ## Freeing -/

theorem ne_base (hb : b ∈ l ++ live) : b ≠ base := by
  have := (hi.place hb).1
  omega

theorem update_listed {v : Nat} (hb : bp ∈ live) (f : Nat → Nat) : ∀ x ∈ base :: l, update f bp v x = f x := by
  intro x hx
  refine update_of_ne ?_ ..
  rintro rfl
  exact hi.not_listed hb hx

/-- The first step of `free` joins the block with the one above it if they meet, and links it. -/
theorem joinUpper (ht : h.total < 2 ^ 36) (hb : bp ∈ live) (hpl : Place base l bp p as pre bs) :
    ∃ bs', HeapInv base (h.passed bp p) (pre ++ bs') live ∧ Place base (pre ++ bs') bp p as pre bs' ∧
        (∀ x ∈ bs', bp + 16 * (h.joinUpper bp p).size bp < x) ∧
        h.size bp ≤ (h.joinUpper bp p).size bp ∧ ∀ x, x ≠ bp → (h.joinUpper bp p).size x = h.size x := by
  have hcirc := hi.circ
  have horder := hi.order
  rw [hpl.nodes] at hcirc horder
  have hbs := (pairwise_cons.mp (pairwise_append.mp horder).2.1).2
  have hne : bp ≠ p := Nat.ne_of_gt (hpl.below p hpl.mem)
  have hnot : ∀ bs', bs'.Sublist bs → bp ∉ as ++ p :: bs' := by
    intro bs' hsub hm
    refine hi.not_listed hb ?_
    rw [hpl.nodes]
    exact ((hsub.cons_cons p).append_left as).subset hm
  unfold UserHeap.passed UserHeap.joinUpper
  split
  next hmeet =>
    cases bs with
    | nil =>
      -- the block after the last is `base`, below
      rw [hcirc.next_last] at hmeet
      have := hpl.below base mem_cons_self
      omega
    | cons u bs =>
      rw [hcirc.next_mid] at hmeet ⊢
      have hlive : live.Perm (bp :: live.erase bp) := perm_cons_erase hb
      have hperm : (l ++ live).Perm (bp :: u :: (pre ++ bs ++ live.erase bp)) := by
        rw [hpl.list]
        exact (hlive.append_left _).trans (perm_middle.trans (perm_mid.cons bp))
      obtain ⟨hsum, -, hblocks⟩ := hi.joined ht hperm hmeet ((hlive.append_left _).trans perm_middle)
      have hsub : (pre ++ bs).Sublist l := by
        rw [hpl.list]
        exact (sublist_cons_self u bs).append_left pre
      refine ⟨bs, hi.change rfl rfl hblocks ?_ ?_ ?_ (mem_append_left bs hpl.mem),
        ⟨hpl.front, rfl, hpl.below, fun x hx => hpl.above x (mem_cons_of_mem _ hx)⟩, ?_, ?_,
        fun x hx => update_of_ne hx ..⟩
      · exact (hi.update_listed hb _ base mem_cons_self).trans hi.base_size
      · dsimp only
        rw [update_self, update_comm hne, nodes_of hpl.front]
        exact hcirc.remove.update_of_not_mem (hnot bs (sublist_cons_self u bs)) _
      · exact hi.order_of hsub fun x hx => (hi.update_listed hb _ x ((hsub.cons_cons base).subset hx)).le
      · intro x hx
        dsimp only
        rw [update_self]
        have := (pairwise_cons.mp hbs).1 x hx
        omega
      · dsimp only
        rw [update_self, hsum]
        exact Nat.le_add_right _ _
  next hmeet =>
    have hgap : ∀ x ∈ bs, bp + 16 * h.size bp < x := by
      cases bs with
      | nil => exact nofun
      | cons u bs =>
        rw [hcirc.next_mid] at hmeet
        have hul : u ∈ l := by
          rw [hpl.list]
          exact mem_append_right _ mem_cons_self
        have hap := hi.apart_live hul hb
        have habove := hpl.above u mem_cons_self
        refine forall_mem_cons.mpr ⟨by omega, fun x hx => ?_⟩
        have := (pairwise_cons.mp hbs).1 x hx
        omega
    have hnot' := hnot bs (List.Sublist.refl bs)
    rw [hpl.list] at hi
    refine ⟨bs, hi.change rfl rfl (hi.blocks.perm (List.Perm.refl _) fun _ _ => rfl) hi.base_size ?_ hi.order
      (mem_append_left bs hpl.mem), ⟨hpl.front, rfl, hpl.below, hpl.above⟩, hgap, le_rfl, fun _ _ => rfl⟩
    dsimp only
    rw [update_self, update_comm hne, update_eq_self, nodes_of hpl.front]
    exact hcirc.update_of_not_mem hnot' _

omit hi in
/-- The second step of `free`: the block is joined with `p` or put in after it. -/
theorem joinLower {rest : List Nat} (hi : HeapInv base h l (bp :: rest)) (ht : h.total < 2 ^ 36) (hpl : Place base l bp p as pre bs)
    (hgap : ∀ x ∈ bs, bp + 16 * h.size bp < x) (hptr : h.ptr bp = h.ptr p) (hfp : h.freep = p) :
    ∃ h' l', h' = (if p + 16 * h.size p = bp then { h with size := update h.size p (uintAdd (h.size p) (h.size bp)) }
        else { h with ptr := update h.ptr p bp }) ∧
      HeapInv base h' l' rest ∧ (∃ x ∈ l', h.size bp ≤ h'.size x) ∧ ∀ x ∈ rest, h'.size x = h.size x := by
  have hb : bp ∈ bp :: rest := mem_cons_self
  have hcirc := hi.circ
  have horder := hi.order
  rw [hpl.nodes] at hcirc horder
  have hpm : p ∈ base :: l := by
    rw [hpl.list]
    exact mem_append_left bs hpl.mem
  obtain ⟨hpbs, hbs⟩ := pairwise_cons.mp (pairwise_append.mp horder).2.1
  split
  next hmeet =>
    -- the block is joined with `p`, which is a block of the heap
    have hpl' : p ∈ l := by
      rcases mem_cons.mp hpm with rfl | hpl'
      · rw [hi.base_size] at hmeet
        have := (hi.place (mem_append_right l hb)).1
        omega
      · exact hpl'
    have hpne : p ≠ base := hi.ne_base (mem_append_left _ hpl')
    obtain ⟨l1, l2, rfl⟩ := append_of_mem hpl'
    have hperm : (l1 ++ p :: l2 ++ bp :: rest).Perm (p :: bp :: (l1 ++ l2 ++ rest)) :=
      perm_mid.trans (perm_middle.cons p)
    obtain ⟨hsum, hrest, hblocks⟩ := hi.joined ht hperm hmeet perm_mid
    refine ⟨_, l1 ++ p :: l2, rfl, hi.change rfl rfl hblocks ?_ hi.circ ?_ hi.freep, ⟨p, hpl', ?_⟩, fun x hx => ?_⟩
    · dsimp only
      rw [update_of_ne hpne.symm]
      exact hi.base_size
    · rw [hpl.nodes]
      refine hi.order_from hpl.nodes (fun a ha => update_of_ne ?_ ..) (fun x hx => ?_) (hbs.imp_of_mem fun {a b} ha _ hab => ?_)
      · rintro rfl
        exact hcirc.not_mem_left ha
      · -- the blocks above `p` are above what is joined to it
        have := hgap x hx
        dsimp only
        rw [update_self, hsum]
        omega
      · dsimp only
        rw [update_of_ne]
        · exact hab
        · rintro rfl
          exact hcirc.not_mem_right ha
    · dsimp only
      rw [update_self, hsum]
      exact Nat.le_add_left _ _
    · exact update_of_ne (hrest x (mem_append_right _ hx)) ..
  next hmeet =>
    -- the block is put in after `p`
    have hplt : p + 16 * h.size p < bp := by
      have hlt := hpl.below p hpl.mem
      rcases mem_cons.mp hpm with rfl | hpl'
      · rw [hi.base_size] at hmeet ⊢
        omega
      · have hap := hi.apart_live hpl' hb
        have hbpos := hi.size_pos (mem_append_right l hb)
        omega
    have hnot : bp ∉ as ++ p :: bs := by
      rw [← hpl.nodes]
      exact hi.not_listed hb
    have hperm : (l ++ bp :: rest).Perm (pre ++ bp :: bs ++ rest) := by
      rw [hpl.list]
      exact perm_middle.trans perm_mid.symm
    refine ⟨_, pre ++ bp :: bs, rfl, hi.change rfl rfl (hi.blocks.perm hperm fun _ _ => rfl) hi.base_size ?_ ?_ ?_,
      ⟨bp, mem_append_right _ mem_cons_self, le_rfl⟩, fun _ _ => rfl⟩
    · dsimp only
      rw [nodes_of hpl.front]
      have hins := hcirc.insert hnot
      rw [← hptr, update_eq_self] at hins
      exact hins
    · rw [nodes_of hpl.front]
      exact hi.order_from hpl.nodes (fun _ _ => rfl) (forall_mem_cons.mpr ⟨hplt, hpbs⟩) (pairwise_cons.mpr ⟨hgap, hbs⟩)
    · rw [nodes_of hpl.front, hfp]
      exact mem_append_right _ mem_cons_self

/-- `free` of a live block ends, with a block at least as large in the list; other live blocks keep their sizes. -/
theorem free (ht : h.total < 2 ^ 36) (hb : bp ∈ live) {n : Nat} (hn : l.length + 1 ≤ n) :
    ∃ h' l', h.free n (bp + 16) = some h' ∧ HeapInv base h' l' (live.erase bp) ∧ (∃ x ∈ l', h.size bp ≤ h'.size x) ∧
      ∀ x ∈ live.erase bp, h'.size x = h.size x := by
  obtain ⟨p, as, pre, bs, hseek, hpl⟩ := hi.search_ends hb hn
  obtain ⟨bs', hi1, hpl1, hgap, hle, hother⟩ := hi.joinUpper ht hb hpl
  have hne : bp ≠ p := Nat.ne_of_gt (hpl.below p hpl.mem)
  have htotal : (h.joinUpper bp p).total < 2 ^ 36 := by
    unfold UserHeap.joinUpper
    split <;> exact ht
  have hptr : (h.passed bp p).ptr bp = (h.passed bp p).ptr p := by
    unfold UserHeap.passed
    dsimp only
    rw [update_self, update_of_ne hne]
  obtain ⟨h2, l', he, hi2, ⟨x, hx, hxs⟩, hkeep⟩ :=
    (hi1.permLive (perm_cons_erase hb)).joinLower htotal hpl1 hgap hptr rfl
  refine ⟨h2, l', ?_, hi2, ⟨x, hx, hle.trans hxs⟩, fun y hy => (hkeep y hy).trans (hother y ?_)⟩
  · unfold UserHeap.free
    rw [Nat.add_sub_cancel]
    dsimp only
    rw [hseek]
    refine congrArg some (Eq.trans ?_ he.symm)
    -- both steps write the link of `p`, whatever it was between them
    unfold UserHeap.joinLower UserHeap.passed
    split
    · rfl
    · rw [update_idem]
  · rintro rfl
    have hnd := (nodup_append.mp hi.nodup).2.1
    exact (List.Nodup.not_mem_erase hnd) hy

/-! ## Allocating -/

/-- A number inside a block is the start of no other. -/
theorem not_inside (hq : b ∈ l) (hx : b < u ∧ u < b + 16 * h.size b) : u ∉ base :: (l ++ live) := by
  intro hm
  have hbase := (hi.place (mem_append_left live hq)).1
  rcases mem_cons.mp hm with rfl | hm
  · omega
  obtain ⟨l1, l2, rfl⟩ := append_of_mem hq
  have hperm : (l1 ++ b :: l2 ++ live).Perm (b :: (l1 ++ l2 ++ live)) := perm_mid
  have hne : u ≠ b := by omega
  have hu : u ∈ l1 ++ l2 ++ live := by
    rcases mem_cons.mp (hperm.mem_iff.mp hm) with e | hu
    · exact absurd e hne
    · exact hu
  have hap := hi.apart hperm hu
  unfold UserHeap.extent Extent.Apart at hap
  omega

/-- `malloc` takes a large enough block out, or cuts off its tail: a new live block of the units asked for. -/
theorem take {r q nunits : Nat} (hn : 0 < nunits) (hr : r ∈ base :: l) (hq : h.ptr r = q) (hfit : nunits ≤ h.size q) :
    ∃ b h' l', h.take nunits r q = (b + 16, h') ∧ HeapInv base h' l' (b :: live) ∧ h'.size b = nunits ∧
      ∀ x ∈ live, h'.size x = h.size x := by
  have hqb : q ≠ base := by
    rintro rfl
    rw [hi.base_size] at hfit
    omega
  obtain ⟨as, bs, hnodes⟩ := hi.circ.before hr hq hqb
  obtain ⟨pre, hfront, rfl⟩ := split_at hnodes
  have hql : q ∈ pre ++ q :: bs := mem_append_right _ mem_cons_self
  have hcirc := hi.circ
  rw [hnodes] at hcirc
  unfold UserHeap.take
  split
  next hexact =>
    -- the block is taken whole
    have hperm : (pre ++ q :: bs ++ live).Perm (pre ++ bs ++ q :: live) := perm_mid.trans perm_middle.symm
    refine ⟨q, _, pre ++ bs, rfl, hi.change rfl rfl (hi.blocks.perm hperm fun _ _ => rfl) hi.base_size ?_ ?_ ?_, hexact,
      fun _ _ => rfl⟩
    · rw [nodes_of hfront]
      exact hcirc.remove
    · exact hi.order_of ((sublist_cons_self q bs).append_left pre) fun _ _ => le_refl _
    · rw [nodes_of hfront]
      exact mem_append_right _ mem_cons_self
  next hexact =>
    -- its tail is cut off
    dsimp only
    rw [update_self]
    have hrem : 0 < h.size q - nunits := by omega
    have hnot := hi.not_inside hql (u := q + 16 * (h.size q - nunits)) (by omega)
    have hne : q ≠ q + 16 * (h.size q - nunits) := by omega
    have hsame : ∀ x ∈ base :: (pre ++ q :: bs ++ live), x ≠ q →
        update (update h.size q (h.size q - nunits)) (q + 16 * (h.size q - nunits)) nunits x = h.size x := by
      intro x hx hxq
      rw [update_of_ne, update_of_ne hxq]
      rintro rfl
      exact hnot hx
    have hperm : (pre ++ q :: bs ++ live).Perm (q :: (pre ++ bs ++ live)) := perm_mid
    have hperm' : (pre ++ q :: bs ++ (q + 16 * (h.size q - nunits)) :: live).Perm
        (q :: (q + 16 * (h.size q - nunits)) :: (pre ++ bs ++ live)) := by
      refine perm_middle.trans ((List.Perm.cons _ hperm).trans (List.Perm.swap _ _ _))
    have hqnot : q ∉ pre ++ bs ++ live := (nodup_cons.mp (hperm.nodup_iff.mp hi.nodup)).1
    have hrest : ∀ x ∈ pre ++ bs ++ live, x ∈ base :: (pre ++ q :: bs ++ live) ∧ x ≠ q := by
      intro x hx
      refine ⟨mem_cons_of_mem _ (hperm.mem_iff.mpr (mem_cons_of_mem _ hx)), ?_⟩
      rintro rfl
      exact hqnot hx
    refine ⟨q + 16 * (h.size q - nunits), _, pre ++ q :: bs, rfl, hi.change rfl rfl ?_ ?_ hi.circ ?_ hr, ?_, fun x hx => ?_⟩
    · refine hi.blocks.cut hperm ?_ hperm' ?_ ?_ fun x hx => hsame x (hrest x hx).1 (hrest x hx).2
      · dsimp only
        rw [update_of_ne hne, update_self]
      · dsimp only
        rw [update_of_ne hne, update_self, update_self]
        omega
      · dsimp only
        rw [update_of_ne hne, update_self, update_self]
        exact ⟨hrem, hn⟩
    · exact (hsame base mem_cons_self hqb.symm).trans hi.base_size
    · -- the block that stays is smaller than it was
      refine hi.order_of (List.Sublist.refl _) fun a ha => ?_
      by_cases haq : a = q
      · subst haq
        dsimp only
        rw [update_of_ne hne, update_self]
        exact Nat.sub_le _ _
      · exact (hsame a (mem_append_left live ha) haq).le
    · exact update_self ..
    · have hx' := hrest x (mem_append_right _ hx)
      exact hsame x hx'.1 hx'.2

end

/-- What `sbrk` has returned counts as a live block. -/
theorem grown {nu : Nat} (skip : Nat) (hi : HeapInv base h l live) (hn : 0 < nu) :
    HeapInv base (h.grown skip nu) l ((h.brk + skip) :: live) := by
  have hfresh : ∀ x ∈ base :: (l ++ live), x ≠ h.brk + skip := by
    intro x hx e
    rcases mem_cons.mp hx with rfl | hx
    · have := hi.brk
      omega
    · have h1 := (hi.place hx).2
      have h2 := hi.size_pos hx
      omega
  have hsame : ∀ x ∈ base :: (l ++ live), update h.size (h.brk + skip) nu x = h.size x := fun x hx =>
    update_of_ne (hfresh x hx) ..
  have hmap : ∀ {β : Type} (f : Nat → Nat → β), (l ++ live).map (fun x => f x (update h.size (h.brk + skip) nu x)) =
      (l ++ live).map fun x => f x (h.size x) := fun f =>
    map_congr_left fun x hx => by rw [hsame x (mem_cons_of_mem _ hx)]
  have hperm : (l ++ (h.brk + skip) :: live).Perm ((h.brk + skip) :: (l ++ live)) := perm_middle
  refine ⟨hi.base_pos, hi.circ, ?_, ?_, ?_, ?_, ?_, ?_, hi.freep⟩
  · exact hi.order_of (List.Sublist.refl l) fun x hx => (hsame x (mem_append_left live hx)).le
  · exact (hsame base mem_cons_self).trans hi.base_size
  · refine Tiles.perm ?_ (hperm.map _).symm
    have hadd := hi.tiles.add (e := (h.brk + skip, nu * 16)) (by omega) (by
      intro f hf
      obtain ⟨x, hx, rfl⟩ := mem_map.mp hf
      have := (hi.place hx).2
      dsimp only [UserHeap.extent]
      omega)
    have hgot : (fun x => Extent.Has (h.brk + skip, nu * 16) x ∨ h.Got x) = (h.grown skip nu).Got := by
      unfold UserHeap.Got UserHeap.grown
      simp only [exists_mem_cons_iff]
    rw [← hgot, map_cons]
    have hhead : (h.grown skip nu).extent (h.brk + skip) = (h.brk + skip, nu * 16) := by
      unfold UserHeap.extent UserHeap.grown
      dsimp only
      rw [update_self, mul_comm]
    have htail : (l ++ live).map (h.grown skip nu).extent = (l ++ live).map h.extent := hmap fun x n => ((x, 16 * n) : Extent)
    rw [hhead, htail]
    exact hadd
  · have := hi.brk
    dsimp only [UserHeap.grown]
    omega
  · intro e he
    have hbrk := hi.brk
    rcases mem_cons.mp he with rfl | he
    · dsimp only [UserHeap.grown]
      omega
    · have := hi.bounds e he
      dsimp only [UserHeap.grown]
      omega
  · rw [(hperm.map _).sum_eq, map_cons, sum_cons]
    have htail : ((l ++ live).map (h.grown skip nu).size).sum = ((l ++ live).map h.size).sum :=
      congrArg List.sum (hmap fun _ n => n)
    have hhead : (h.grown skip nu).size (h.brk + skip) = nu := update_self ..
    rw [h.grown_total, ← hi.sum]
    omega

end HeapInv

end

end Xv6Mmap

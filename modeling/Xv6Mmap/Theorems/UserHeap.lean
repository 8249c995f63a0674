import Xv6Mmap.Lemmas.HeapBlocks

/-!
# The heap of a user program

The loop of `malloc` goes around the free list once. If no block is large enough it asks `sbrk` for memory, frees it, and then finds
a block on a second way around. So every call ends, and what one call keeps of the heap holds along every run.

When the blocks of a run have `2 ^ 32` units or more, joining them loses the carry of the sum and with it the memory.
-/

namespace Xv6Mmap

open Function List UserHeap

variable {base n : Nat} {W : BrkWorld} {s s' : HeapRun}

section

variable {base b p : Nat} {h : UserHeap} {l live : List Nat}

/-! ## The loop of `malloc` -/

namespace UserHeap

/-- Where the loop of `malloc` stops to look: at a block that is large enough, and where it started. -/
def mallocStops (h : UserHeap) (nunits p : Nat) : Bool := decide (h.size p ≥ nunits) || decide (p = h.freep)

variable {W : BrkWorld} {nunits n : Nat} {h' : UserHeap}

/-- The loop goes to the first node where it stops, and remembers the node before it. -/
theorem mallocLoop_seek (hc : Circ h.ptr base (base :: l)) {r0 p0 q : Nat} (hr : r0 ∈ base :: l) (hp : h.ptr r0 = p0)
    (hw : seek (h.mallocStops nunits) h.ptr n p0 = some q) :
    ∃ m r, r ∈ base :: l ∧ h.ptr r = q ∧ ∀ k, mallocLoop W nunits (n + k) h r0 p0 = mallocLoop W nunits (m + k + 1) h r q := by
  induction n generalizing r0 p0 with
  | zero => cases hw
  | succ n ih =>
    by_cases hs : h.mallocStops nunits p0 = true
    · rw [seek, if_pos hs] at hw
      obtain rfl : p0 = q := Option.some.inj hw
      exact ⟨n, r0, hr, hp, fun k => by rw [add_right_comm]⟩
    · rw [seek, if_neg hs] at hw
      have hpm : p0 ∈ base :: l := by
        rw [← hp]
        exact hc.next_mem hr
      obtain ⟨m, r, hrm, hrq, hloop⟩ := ih hpm rfl hw
      refine ⟨m, r, hrm, hrq, fun k => ?_⟩
      simp only [mallocStops, Bool.or_eq_true, decide_eq_true_eq, not_or] at hs
      rw [add_right_comm, mallocLoop, if_neg hs.1, if_neg hs.2]
      exact hloop k

theorem free_mono {m ap : Nat} (hf : h.free n ap = some h') (hm : n ≤ m) : h.free m ap = some h' := by
  unfold free at hf ⊢
  obtain ⟨p, hw, e⟩ := Option.bind_eq_some_iff.mp hf
  dsimp only
  rw [seek_mono hw hm]
  exact e

theorem mallocLoop_mono {m prevp : Nat} {res : Nat × UserHeap} (hf : mallocLoop W nunits n h prevp p = some res) (hm : n ≤ m) :
    mallocLoop W nunits m h prevp p = some res := by
  induction n generalizing h prevp p m with
  | zero => cases hf
  | succ n ih =>
    obtain ⟨m, rfl⟩ : ∃ k, m = k + 1 := ⟨m - 1, by omega⟩
    rw [mallocLoop] at hf ⊢
    split
    next hfit =>
      rw [if_pos hfit] at hf
      exact hf
    next hfit =>
      rw [if_neg hfit] at hf
      split
      next hround =>
        rw [if_pos hround] at hf
        obtain ⟨⟨q, h1⟩, hmore, e⟩ := Option.bind_eq_some_iff.mp hf
        have hmore' : h.morecore W m nunits = some (q, h1) := by
          unfold morecore at hmore ⊢
          dsimp only at hmore ⊢
          cases hsb : h.sbrk W (moreUnits nunits * 16) with
          | mk r h2 =>
            rw [hsb] at hmore
            cases r with
            | none => exact hmore
            | some a =>
              obtain ⟨h3, hfree, e3⟩ := Option.bind_eq_some_iff.mp hmore
              exact Option.bind_eq_some_iff.mpr ⟨h3, free_mono hfree (by omega), e3⟩
        refine Option.bind_eq_some_iff.mpr ⟨(q, h1), hmore', ?_⟩
        dsimp only at e ⊢
        split
        next hz =>
          rw [if_pos hz] at e
          exact e
        next hz =>
          rw [if_neg hz] at e
          exact ih e (by omega)
      next hround =>
        rw [if_neg hround] at hf
        exact ih hf (by omega)

theorem free_pieces {ap : Nat} (hf : h.free n ap = some h') : h'.pieces = h.pieces := by
  obtain ⟨p, -, e⟩ := Option.bind_eq_some_iff.mp hf
  cases e
  unfold joinLower joinUpper
  split <;> split <;> rfl

/-- `morecore` gets no memory, or frees what it gets. -/
theorem morecore_none (hW : W h.calls = none) : h.morecore W n nunits = some (0, { h with calls := h.calls + 1 }) := by
  unfold morecore sbrk
  rw [hW]

theorem morecore_some {skip : Nat} (hW : W h.calls = some skip) :
    h.morecore W n nunits = ((h.grown skip (moreUnits nunits)).free n (h.brk + skip + 16)).map fun h' => (h'.freep, h') := by
  unfold morecore sbrk
  rw [hW]
  rw [Option.map_eq_bind]
  rfl

/-- No call gives memory back. -/
theorem mallocLoop_total {prevp r : Nat} (hf : mallocLoop W nunits n h prevp p = some (r, h')) : h.total ≤ h'.total := by
  induction n generalizing h prevp p with
  | zero => cases hf
  | succ n ih =>
    rw [mallocLoop] at hf
    split at hf
    next hfit =>
      have : h'.pieces = h.pieces := by
        have he : (h.take nunits prevp p).2 = h' := congrArg Prod.snd (Option.some.inj hf)
        rw [← he]
        unfold take
        split <;> rfl
      unfold total
      rw [this]
    next hfit =>
      split at hf
      next hround =>
        obtain ⟨⟨q, h1⟩, hmore, e⟩ := Option.bind_eq_some_iff.mp hf
        have hle : h.total ≤ h1.total := by
          cases hW : W h.calls with
          | none =>
            rw [morecore_none hW] at hmore
            cases hmore
            exact le_rfl
          | some skip =>
            rw [morecore_some hW] at hmore
            obtain ⟨h2, hfree, e2⟩ := Option.map_eq_some_iff.mp hmore
            cases e2
            have : h1.total = (h.grown skip (moreUnits nunits)).total := by
              unfold total
              rw [free_pieces hfree]
            rw [this, h.grown_total]
            omega
        dsimp only at e
        split at e
        · cases e
          exact hle
        · exact hle.trans (ih e)
      next hround => exact ih hf

end UserHeap

/-- What a call of `malloc` returns that does not fail: a new live block of the units asked for, with the others as they were. -/
def NewBlock (base : Nat) (live : List Nat) (size : Nat → Nat) (nunits : Nat) (res : Nat × UserHeap) : Prop :=
  ∃ b l', res.1 = b + 16 ∧ HeapInv base res.2 l' (b :: live) ∧ res.2.size b = nunits ∧ ∀ x ∈ live, res.2.size x = size x

namespace HeapInv

variable {W : BrkWorld} {nunits : Nat}

/-- The first round of the loop, around the list. -/
theorem round (W : BrkWorld) (nunits : Nat) (hi : HeapInv base h l live) : ∃ n m r q, r ∈ base :: l ∧ h.ptr r = q ∧
    (h.size q < nunits → q = h.freep ∧ ∀ x ∈ base :: l, h.size x < nunits) ∧
    ∀ k, mallocLoop W nunits (n + k) h h.freep (h.ptr h.freep) = mallocLoop W nunits (m + k + 1) h r q := by
  have hstop : h.mallocStops nunits h.freep = true := by
    simp only [mallocStops, decide_true, Bool.or_true]
  obtain ⟨q, -, hqs, hw, hround⟩ := hi.circ.seek_round hi.freep hstop le_rfl
  obtain ⟨m, r, hr, hrq, hloop⟩ := mallocLoop_seek (W := W) hi.circ hi.freep rfl hw
  refine ⟨_, m, r, q, hr, hrq, fun hlt => ?_, hloop⟩
  simp only [mallocStops, Bool.or_eq_true, decide_eq_true_eq] at hqs hround
  have hq : q = h.freep := by
    rcases hqs with hge | e
    · omega
    · exact e
  refine ⟨hq, fun x hx => ?_⟩
  by_contra hge
  rw [← hround hq x hx (Or.inl (by omega))] at hq
  rw [← hq] at hge
  exact hge hlt

theorem malloc_fits (hi : HeapInv base h l live) (hn : 0 < nunits) (hfit : ∃ x ∈ base :: l, nunits ≤ h.size x) :
    ∃ n res, mallocLoop W nunits n h h.freep (h.ptr h.freep) = some res ∧ NewBlock base live h.size nunits res := by
  obtain ⟨n, m, r, q, hr, hrq, hround, hloop⟩ := hi.round W nunits
  have hq : nunits ≤ h.size q := by
    by_contra hlt
    obtain ⟨x, hx, hxs⟩ := hfit
    have := (hround (by omega)).2 x hx
    omega
  obtain ⟨b, h', l', htake, hi', hb, hkeep⟩ := hi.take hn hr hrq hq
  refine ⟨n, (b + 16, h'), ?_, b, l', rfl, hi', hb, hkeep⟩
  have := hloop 0
  rw [add_zero] at this
  rw [this, mallocLoop, if_pos hq, htake]

theorem malloc_more (hi : HeapInv base h l live) (hno : ∀ x ∈ base :: l, h.size x < nunits) :
    ∃ n m, ∀ k, mallocLoop W nunits (n + k) h h.freep (h.ptr h.freep) = (h.morecore W (m + k) nunits).bind fun (p, h') =>
      if p = 0 then some (0, h') else mallocLoop W nunits (m + k) h' p (h'.ptr p) := by
  obtain ⟨n, m, r, q, hr, hrq, hround, hloop⟩ := hi.round W nunits
  have hqm : q ∈ base :: l := by
    rw [← hrq]
    exact hi.circ.next_mem hr
  have hlt := hno q hqm
  refine ⟨n, m, fun k => ?_⟩
  rw [hloop k, mallocLoop, if_neg (by omega), if_pos (hround hlt).1]
  rfl

theorem moreUnits_ge (nu : Nat) : nu ≤ moreUnits nu ∧ 0 < moreUnits nu := by
  unfold moreUnits
  split <;> omega

/-- With memory from `sbrk`, `malloc` returns a block. -/
theorem malloc_grows {skip : Nat} (hi : HeapInv base h l live) (hn : 0 < nunits) (hno : ∀ x ∈ base :: l, h.size x < nunits)
    (hW : W h.calls = some skip) (ht : moreUnits nunits * 16 + h.total < 2 ^ 36) :
    ∃ n res, mallocLoop W nunits n h h.freep (h.ptr h.freep) = some res ∧ NewBlock base live h.size nunits res := by
  obtain ⟨hge, hpos⟩ := moreUnits_ge nunits
  obtain ⟨n, m, hloop⟩ := hi.malloc_more (W := W) hno
  have hi1 := hi.grown skip hpos
  have hgt : (h.grown skip (moreUnits nunits)).total < 2 ^ 36 := by
    exact ht
  obtain ⟨h₂, l2, hfree, hi2, ⟨x, hx, hxs⟩, hkeep⟩ := hi1.free hgt mem_cons_self le_rfl
  rw [erase_cons_head] at hi2 hkeep
  have hsize : (h.grown skip (moreUnits nunits)).size (h.brk + skip) = moreUnits nunits := update_self ..
  rw [hsize] at hxs
  obtain ⟨n2, res, hres, b, l', hb, hi', hbs, hkeep'⟩ :=
    hi2.malloc_fits (W := W) hn ⟨x, mem_cons_of_mem _ hx, hge.trans hxs⟩
  have hp : h₂.freep ≠ 0 := by
    have hmem := hi2.freep
    have hbase := hi2.base_pos
    rcases mem_cons.mp hmem with e | hm
    · omega
    · have := (hi2.place (mem_append_left live hm)).1
      omega
  refine ⟨n + (l.length + 1 + n2), res, ?_, b, l', hb, hi', hbs, fun x hx => (hkeep' x hx).trans ((hkeep x hx).trans ?_)⟩
  · have hmore : h.morecore W (m + (l.length + 1 + n2)) nunits = some (h₂.freep, h₂) := by
      rw [morecore_some hW, free_mono hfree (by omega)]
      rfl
    rw [hloop, hmore]
    change (if h₂.freep = 0 then _ else _) = _
    rw [if_neg hp]
    exact mallocLoop_mono hres (by omega)
  · refine update_of_ne ?_ ..
    have h1 := (hi.place (mem_append_right l hx)).2
    have h2 := hi.size_pos (mem_append_right l hx)
    omega

theorem malloc_total {skip n r : Nat} {h' : UserHeap} (hi : HeapInv base h l live) (hno : ∀ x ∈ base :: l, h.size x < nunits)
    (hW : W h.calls = some skip) (hf : mallocLoop W nunits n h h.freep (h.ptr h.freep) = some (r, h')) :
    moreUnits nunits * 16 + h.total ≤ h'.total := by
  obtain ⟨n0, m, hloop⟩ := hi.malloc_more (W := W) hno
  have hf' := mallocLoop_mono hf (by omega : n ≤ n0 + n)
  rw [hloop] at hf'
  obtain ⟨⟨p, h1⟩, hmore, e⟩ := Option.bind_eq_some_iff.mp hf'
  rw [morecore_some hW] at hmore
  obtain ⟨h2, hfree, e2⟩ := Option.map_eq_some_iff.mp hmore
  cases e2
  have htotal : h1.total = moreUnits nunits * 16 + h.total := by
    rw [← h.grown_total skip]
    unfold total
    rw [free_pieces hfree]
  dsimp only at e
  split at e
  · cases e
    exact htotal.ge
  · exact htotal.ge.trans (mallocLoop_total e)

end HeapInv

/-! ## Runs -/

/-- Before the first call there is no list and no memory. -/
def HeapRun.Inv (base : Nat) (s : HeapRun) : Prop :=
  (s.heap.freep = 0 ∧ s.heap.pieces = [] ∧ s.live = [] ∧ 0 < base ∧ base + 16 ≤ s.heap.brk) ∨ ∃ l, HeapInv base s.heap l s.live

theorem HeapInv.freep_ne (hi : HeapInv base h l live) : h.freep ≠ 0 := by
  have hbase := hi.base_pos
  rcases mem_cons.mp hi.freep with e | hm
  · omega
  · have := (hi.place (mem_append_left live hm)).1
    omega

theorem HeapInv.first (hbase : 0 < base) (hf : h.freep = 0) (hp : h.pieces = []) (hbrk : base + 16 ≤ h.brk) :
    HeapInv base (h.start base) [] [] := by
  unfold start
  rw [if_pos hf]
  have hlinks : ([base] ++ [base]).IsChain fun a b => update h.ptr base base a = b :=
    isChain_pair.mpr (update_self ..)
  refine ⟨hbase, ⟨rfl, hlinks, pairwise_singleton _ base⟩, pairwise_singleton _ base, update_self .., ?_, hbrk,
    ?_, ?_, mem_cons_self⟩
  · refine ⟨nofun, List.Pairwise.nil, fun x => ?_⟩
    rw [hp]
    rfl
  · rw [hp]
    exact nofun
  · rw [hp]
    rfl

theorem UserHeap.start_same (base : Nat) (h : UserHeap) :
    (h.start base).pieces = h.pieces ∧ (h.start base).calls = h.calls ∧ (h.start base).total = h.total := by
  unfold start total
  split <;> exact ⟨rfl, rfl, rfl⟩

theorem HeapRun.Inv.started {s : HeapRun} (hs : s.Inv base) :
    ∃ l, HeapInv base (s.heap.start base) l s.live ∧ ∀ x ∈ s.live, (s.heap.start base).size x = s.heap.size x := by
  rcases hs with ⟨hf, hp, hl, hbase, hbrk⟩ | ⟨l, hi⟩
  · rw [hl]
    exact ⟨[], .first hbase hf hp hbrk, nofun⟩
  · have : s.heap.start base = s.heap := if_neg hi.freep_ne
    rw [this]
    exact ⟨l, hi, fun _ _ => rfl⟩

theorem units_legal {nbytes : Nat} (hn : LegalRequest nbytes) : 0 < units nbytes ∧ nbytes + 16 ≤ 16 * units nbytes := by
  obtain ⟨hlt, -⟩ := hn
  unfold units
  omega

/-- A list does not depend on how often `sbrk` was called. -/
theorem HeapInv.called (hi : HeapInv base h l live) : HeapInv base { h with calls := h.calls + 1 } l live :=
  hi.change rfl rfl hi.blocks hi.base_size hi.circ hi.order hi.freep

section

variable {W : BrkWorld} {nunits : Nat}

/-- What `malloc` does when it has a list: it fails, or gives a new block, unless `sbrk` gives it more than the sizes can count. -/
theorem HeapInv.malloc_cases (W : BrkWorld) (hi : HeapInv base h l live) (hn : 0 < nunits) :
    (∃ n res, mallocLoop W nunits n h h.freep (h.ptr h.freep) = some res ∧
      (NewBlock base live h.size nunits res ∨ res = (0, { h with calls := h.calls + 1 }))) ∨
    ((∀ x ∈ base :: l, h.size x < nunits) ∧ (∃ skip, W h.calls = some skip) ∧
      2 ^ 36 ≤ moreUnits nunits * 16 + h.total) := by
  by_cases hfit : ∃ x ∈ base :: l, nunits ≤ h.size x
  · obtain ⟨n, res, hres, hnew⟩ := hi.malloc_fits (W := W) hn hfit
    exact Or.inl ⟨n, res, hres, Or.inl hnew⟩
  have hno : ∀ x ∈ base :: l, h.size x < nunits := by
    intro x hx
    by_contra hge
    exact hfit ⟨x, hx, by omega⟩
  cases hW : W h.calls with
  | none =>
    obtain ⟨n, m, hloop⟩ := hi.malloc_more (W := W) hno
    refine Or.inl ⟨n + 0, (0, _), ?_, Or.inr rfl⟩
    rw [hloop 0, morecore_none hW]
    rfl
  | some skip =>
    by_cases ht : moreUnits nunits * 16 + h.total < 2 ^ 36
    · obtain ⟨n, res, hres, hnew⟩ := hi.malloc_grows hn hno hW ht
      exact Or.inl ⟨n, res, hres, Or.inl hnew⟩
    · exact Or.inr ⟨hno, ⟨skip, rfl⟩, by omega⟩

theorem HeapInv.malloc_ends {n : Nat} {res : Nat × UserHeap} (hi : HeapInv base h l live) (hn : 0 < nunits)
    (hf : mallocLoop W nunits n h h.freep (h.ptr h.freep) = some res) (ht : res.2.total < 2 ^ 36) :
    NewBlock base live h.size nunits res ∨ res = (0, { h with calls := h.calls + 1 }) := by
  rcases hi.malloc_cases W hn with ⟨m, res', hm, hres⟩ | ⟨hno, ⟨skip, hW⟩, hge⟩
  · have h1 := mallocLoop_mono hf (by omega : n ≤ n + m)
    have h2 := mallocLoop_mono hm (by omega : m ≤ n + m)
    rw [h1] at h2
    rw [Option.some.inj h2]
    exact hres
  · have := hi.malloc_total hno hW hf
    omega

end

theorem HeapInv.kept (hi : HeapInv base h l live) {x : Nat} (hx : x ∈ base :: (l ++ live)) : HeapRun.Kept ⟨h, live⟩ x := by
  intro b hb
  have hbm : b ∈ l ++ live := mem_append_right l hb
  have hplace := hi.place hbm
  dsimp only
  rcases mem_cons.mp hx with rfl | hx
  · omega
  by_cases hxb : x = b
  · omega
  obtain ⟨rest, hperm⟩ : ∃ rest, (l ++ live).Perm (b :: rest) := ⟨_, perm_cons_erase hbm⟩
  have hxr : x ∈ rest := by
    rcases mem_cons.mp (hperm.mem_iff.mp hx) with e | hxr
    · exact absurd e hxb
    · exact hxr
  have hap := hi.apart hperm hxr
  unfold extent Extent.Apart at hap
  omega

/-- The program's stores leave the heap alone. -/
theorem HeapInv.store {ptr size : Nat → Nat} (hi : HeapInv base h l live)
    (hk : ∀ x, HeapRun.Kept ⟨h, live⟩ x → ptr x = h.ptr x ∧ size x = h.size x) :
    HeapInv base { h with ptr := ptr, size := size } l live := by
  have hlist : ∀ x ∈ base :: l, x ∈ base :: (l ++ live) := fun x hx => mem_append_left live hx
  have hblocks := hi.blocks.perm (List.Perm.refl _) fun x hx => (hk x (hi.kept (mem_cons_of_mem _ hx))).2
  refine hi.change rfl rfl hblocks ?_ ?_ ?_ hi.freep
  · exact (hk base (hi.kept mem_cons_self)).2.trans hi.base_size
  · exact hi.circ.congr fun x hx => (hk x (hi.kept (hlist x hx))).1
  · exact hi.order_of (List.Sublist.refl l) fun x hx => (hk x (hi.kept (hlist x hx))).2.le

end

/-- What a call of `malloc` is in a run. -/
theorem HeapRun.call_malloc {nbytes : Nat} (h : s.call base W n (.malloc nbytes) = some s') :
    LegalRequest nbytes ∧ ∃ r h', s.heap.malloc base W n nbytes = some (r, h') ∧
      s' = ⟨h', if r = 0 then s.live else (r - 16) :: s.live⟩ := by
  unfold HeapRun.call at h
  dsimp only at h
  split at h
  next hn =>
    obtain ⟨⟨r, h'⟩, hm, e⟩ := Option.bind_eq_some_iff.mp h
    exact ⟨hn, r, h', hm, (Option.some.inj e).symm⟩
  next => cases h

theorem HeapRun.call_free {ap : Nat} (h : s.call base W n (.free ap) = some s') :
    ∃ b ∈ s.live, ap = b + 16 ∧ ∃ h', s.heap.free n (b + 16) = some h' ∧ s' = ⟨h', s.live.erase b⟩ := by
  unfold HeapRun.call at h
  dsimp only at h
  split at h
  next hn =>
    obtain ⟨h', hm, e⟩ := Option.bind_eq_some_iff.mp h
    have hap : ap = ap - 16 + 16 := by omega
    exact ⟨ap - 16, hn.1, hap, h', by exact hm, (Option.some.inj e).symm⟩
  next => cases h

theorem HeapRun.call_total {c : HeapCall} (h : s.call base W n c = some s') : s.heap.total ≤ s'.heap.total := by
  cases c with
  | malloc nbytes =>
    obtain ⟨-, r, h', hm, rfl⟩ := HeapRun.call_malloc h
    have := mallocLoop_total hm
    rw [(start_same base s.heap).2.2] at this
    exact this
  | free ap =>
    obtain ⟨b, -, -, h', hm, rfl⟩ := HeapRun.call_free h
    unfold total
    rw [free_pieces hm]

/-- Every state of a run with less than `2 ^ 36` bytes keeps the invariant. -/
theorem HeapReach.inv (hr : HeapReach base W s) : s.heap.total < 2 ^ 36 → s.Inv base := by
  induction hr with
  | start hbase hfreep hbrk hpieces => exact fun _ => Or.inl ⟨hfreep, hpieces, rfl, hbase, hbrk⟩
  | @call s s' n c hr h ih =>
    intro ht
    have hs := ih (lt_of_le_of_lt (HeapRun.call_total h) ht)
    cases c with
    | malloc nbytes =>
      obtain ⟨hn, r, h', hm, rfl⟩ := HeapRun.call_malloc h
      obtain ⟨l, hi, -⟩ := hs.started
      rcases hi.malloc_ends (units_legal hn).1 hm ht with ⟨b, l', hb, hi', -, -⟩ | e
      · dsimp only at hb
        rw [hb, Nat.add_sub_cancel]
        exact Or.inr ⟨l', hi'⟩
      · obtain ⟨rfl, rfl⟩ := Prod.mk.inj e
        exact Or.inr ⟨l, hi.called⟩
    | free ap =>
      obtain ⟨b, hb, -, h', hm, rfl⟩ := HeapRun.call_free h
      rcases hs with ⟨-, -, hl, -⟩ | ⟨l, hi⟩
      · rw [hl] at hb
        cases hb
      have ht' : s.heap.total < 2 ^ 36 := lt_of_le_of_lt (HeapRun.call_total h) ht
      obtain ⟨h₂, l', hm2, hi', -, -⟩ := hi.free ht' hb le_rfl
      have h1 := free_mono hm (Nat.le_add_right n (l.length + 1))
      have h2 := free_mono hm2 (Nat.le_add_left (l.length + 1) n)
      rw [h1] at h2
      rw [Option.some.inj h2]
      exact Or.inr ⟨l', hi'⟩
  | @store s ptr size hr h ih =>
    intro ht
    rcases ih ht with hs | ⟨l, hi⟩
    · exact Or.inl hs
    · exact Or.inr ⟨l, hi.store h⟩

/-! ## The heap as a whole -/

/-- A byte of a block, its header included. -/
def UserHeap.InBlock (h : UserHeap) (b x : Nat) : Prop := b ≤ x ∧ x < b + 16 * h.size b

/-- The free list is `base` and the blocks of `l`. -/
structure FreeListOk (base : Nat) (s : HeapRun) (l : List Nat) : Prop where
  /-- One circular list. -/
  circular : (base :: l ++ [base]).IsChain fun a b => s.heap.ptr a = b
  roving : s.heap.freep ∈ base :: l
  /-- In the order of addresses but for the link back to `base`, with something between any two blocks. -/
  ordered : (base :: l).Pairwise (· < ·)
  coalesced : (base :: l).Pairwise fun a b => a + 16 * s.heap.size a < b
  /-- Free and live blocks are disjoint from each other. -/
  disjoint : (l ++ s.live).Pairwise fun a b => ∀ x, ¬ (s.heap.InBlock a x ∧ s.heap.InBlock b x)
  /-- What they hold is what `sbrk` has returned. -/
  covered : ∀ x, s.heap.Got x ↔ ∃ b ∈ l ++ s.live, s.heap.InBlock b x

/-- Before the first `malloc` there is nothing; then there is the free list. -/
def HeapOk (base : Nat) (s : HeapRun) : Prop :=
  (s.heap.freep = 0 ∧ s.heap.pieces = [] ∧ s.live = []) ∨ ∃ l, FreeListOk base s l

/-- The request keeps the memory from `sbrk` below `2 ^ 36` bytes: a block on the free list is large enough, or `sbrk` fails, or there
is room for what `morecore` asks for. -/
def HeapRun.RoomFor (W : BrkWorld) (s : HeapRun) (nbytes : Nat) : Prop :=
  (s.heap.freep ≠ 0 ∧ ∃ k, UserHeap.units nbytes ≤ s.heap.size (s.heap.ptr^[k] s.heap.freep)) ∨ W s.heap.calls = none ∨
    UserHeap.moreUnits (UserHeap.units nbytes) * 16 + s.heap.total < 2 ^ 36

theorem HeapInv.freeListOk {l : List Nat} (hi : HeapInv base s.heap l s.live) : FreeListOk base s l := by
  refine ⟨hi.circ.links, hi.freep, hi.sorted, hi.order, ?_, fun x => (hi.tiles.cover x).trans ?_⟩
  · refine (pairwise_map.mp hi.tiles.apart).imp fun {a b} hab x hx => ?_
    exact hab.not_has hx.1 hx.2
  constructor
  · rintro ⟨e, he, hx⟩
    obtain ⟨b, hb, rfl⟩ := mem_map.mp he
    exact ⟨b, hb, hx⟩
  · rintro ⟨b, hb, hx⟩
    exact ⟨_, mem_map_of_mem hb, hx⟩

theorem HeapInv.iterate_mem {h : UserHeap} {l live : List Nat} (hi : HeapInv base h l live) (k : Nat) :
    h.ptr^[k] h.freep ∈ base :: l := by
  induction k with
  | zero => exact hi.freep
  | succ k ih =>
    rw [Function.iterate_succ_apply']
    exact hi.circ.next_mem ih

/-- A new block, seen from outside. -/
theorem NewBlock.ok {nbytes : Nat} {live : List Nat} {size : Nat → Nat} {res : Nat × UserHeap} (hn : LegalRequest nbytes)
    (h : NewBlock base live size (units nbytes) res) : 16 ≤ res.1 ∧ nbytes + 16 ≤ 16 * res.2.size (res.1 - 16) ∧
      ∀ b ∈ live, ∀ x, ¬ (res.2.InBlock (res.1 - 16) x ∧ res.2.InBlock b x) := by
  obtain ⟨b, l', hb, hi', hbs, -⟩ := h
  rw [hb, Nat.add_sub_cancel, hbs]
  refine ⟨by omega, (units_legal hn).2, fun b' hb' x hx => ?_⟩
  have hperm : (l' ++ b :: live).Perm (b :: (l' ++ live)) := perm_middle
  exact (hi'.apart hperm (mem_append_right l' hb')).not_has hx.1 hx.2

/-- In every state that calls of `malloc` and `free` reach with less than `2 ^ 36` bytes from `sbrk`, whatever the program stores in
its live blocks: the heap is in order, `free` of every live block ends, and every `malloc` that keeps the memory below `2 ^ 36` bytes
ends, and fails or returns a block that is large enough and disjoint from the live ones. The other live blocks keep their sizes. -/
theorem user_heap_ok {base : Nat} {W : BrkWorld} {s : HeapRun} (hr : HeapReach base W s) (ht : s.heap.total < 2 ^ 36) :
    HeapOk base s ∧
    (∀ b ∈ s.live, ∃ n h', s.heap.free n (b + 16) = some h' ∧ ∀ x ∈ s.live.erase b, h'.size x = s.heap.size x) ∧
    ∀ nbytes, LegalRequest nbytes → s.RoomFor W nbytes →
      ∃ n r h', s.heap.malloc base W n nbytes = some (r, h') ∧ (∀ x ∈ s.live, h'.size x = s.heap.size x) ∧
        (r ≠ 0 → 16 ≤ r ∧ nbytes + 16 ≤ 16 * h'.size (r - 16) ∧
          ∀ b ∈ s.live, ∀ x, ¬ (h'.InBlock (r - 16) x ∧ h'.InBlock b x)) := by
  have hs := hr.inv ht
  refine ⟨?_, fun b hb => ?_, fun nbytes hn hroom => ?_⟩
  · rcases hs with ⟨hf, hp, hl, -⟩ | ⟨l, hi⟩
    · exact Or.inl ⟨hf, hp, hl⟩
    · exact Or.inr ⟨l, hi.freeListOk⟩
  · rcases hs with ⟨-, -, hl, -⟩ | ⟨l, hi⟩
    · rw [hl] at hb
      cases hb
    · obtain ⟨h', l', hm, -, -, hkeep⟩ := hi.free ht hb le_rfl
      exact ⟨_, h', hm, hkeep⟩
  · obtain ⟨l, hi, hsize⟩ := hs.started
    obtain ⟨-, hcalls, htotal⟩ := start_same base s.heap
    rcases hi.malloc_cases W (units_legal hn).1 with ⟨n, res, hm, hres⟩ | ⟨hno, ⟨skip, hW⟩, hge⟩
    · rcases hres with hnew | rfl
      · obtain ⟨b, l', hb, hi', hbs, hkeep⟩ := id hnew
        exact ⟨n, res.1, res.2, hm, fun x hx => (hkeep x hx).trans (hsize x hx), fun _ => hnew.ok hn⟩
      · exact ⟨n, 0, _, hm, hsize, fun h0 => absurd rfl h0⟩
    · -- neither a block that is large enough, nor room for more
      rw [hcalls] at hW
      rcases hroom with ⟨hf, k, hk⟩ | hW' | hlt
      · have hstart : s.heap.start base = s.heap := if_neg hf
        rw [hstart] at hi hno
        have := hno _ (hi.iterate_mem k)
        omega
      · rw [hW] at hW'
        cases hW'
      · omega

/-- A heap before the first call, with `base` at 4096 and nothing above it yet. -/
def emptyHeap : HeapRun := ⟨⟨fun _ => 0, fun _ => 0, 0, 8192, [], 0⟩, []⟩

theorem reach_emptyHeap (W : BrkWorld) : HeapReach 4096 W emptyHeap := .start (by decide) rfl (by decide) rfl

/-- `malloc(100)`, `malloc(40000)`, `free` of the first block and `malloc(50)`. -/
def heapDemo : List HeapCall := [.malloc 100, .malloc 40000, .free 73616, .malloc 50]

theorem heapDemo_ends : (emptyHeap.run 4096 (fun _ => some 0) 8 heapDemo).map (fun s => (s.live, s.heap.total)) =
    some ([73648, 33584], 65536) := by decide +kernel

theorem user_heap_ok_demo : ∃ s, emptyHeap.run 4096 (fun _ => some 0) 8 heapDemo = some s ∧ s.heap.total < 2 ^ 36 ∧ HeapOk 4096 s ∧
    ∃ n h', s.heap.free n (33584 + 16) = some h' := by
  obtain ⟨s, hs, e⟩ := Option.map_eq_some_iff.mp heapDemo_ends
  obtain ⟨hlive, htotal⟩ := Prod.mk.inj e
  have hlt : s.heap.total < 2 ^ 36 := by
    rw [htotal]
    decide
  obtain ⟨hok, hfree, -⟩ := user_heap_ok (HeapReach.of_run (reach_emptyHeap _) hs) hlt
  obtain ⟨n, h', hm, -⟩ := hfree 33584 (by rw [hlive]; decide)
  exact ⟨s, hs, hlt, hok, n, h', hm⟩

/-- In every such state, a `malloc` that keeps the memory below `2 ^ 36` bytes ends, and it succeeds exactly when a block on the free
list, which the first call makes, is large enough or `sbrk` gives memory. -/
theorem malloc_succeeds_iff {base : Nat} {W : BrkWorld} {s : HeapRun} (hr : HeapReach base W s) (ht : s.heap.total < 2 ^ 36)
    (nbytes : Nat) (hn : LegalRequest nbytes) (hroom : s.RoomFor W nbytes) : let h := s.heap.start base
    ∃ n r h', s.heap.malloc base W n nbytes = some (r, h') ∧
      (r ≠ 0 ↔ (∃ k, units nbytes ≤ h.size (h.ptr^[k] h.freep)) ∨ W s.heap.calls ≠ none) := by
  intro h
  obtain ⟨l, hi, -⟩ := (hr.inv ht).started
  obtain ⟨hunits, -⟩ := units_legal hn
  obtain ⟨-, hcalls, htotal⟩ := start_same base s.heap
  by_cases hfit : ∃ x ∈ base :: l, units nbytes ≤ h.size x
  · obtain ⟨n, res, hm, b, l', hb, -⟩ := hi.malloc_fits (W := W) hunits hfit
    obtain ⟨x, hx, hxs⟩ := hfit
    -- the free list has the block, so a search from `freep` meets one
    let stop : Nat → Bool := fun y => decide (units nbytes ≤ h.size y)
    have hstop : stop x = true := decide_eq_true hxs
    obtain ⟨r, -, hrs, hseek⟩ := hi.circ.seek_stops hi.freep hx hstop le_rfl
    obtain ⟨k, rfl⟩ := seek_iterate hseek
    exact ⟨n, res.1, res.2, hm, iff_of_true (by omega) (Or.inl ⟨k, of_decide_eq_true hrs⟩)⟩
  · have hno : ∀ x ∈ base :: l, h.size x < units nbytes := fun x hx => Nat.lt_of_not_le fun hle => hfit ⟨x, hx, hle⟩
    have hnone : ¬∃ k, units nbytes ≤ h.size (h.ptr^[k] h.freep) := by
      rintro ⟨k, hk⟩
      exact hfit ⟨_, hi.iterate_mem k, hk⟩
    cases hW : W s.heap.calls with
    | none =>
      rw [← hcalls] at hW
      obtain ⟨n, m, hloop⟩ := hi.malloc_more (W := W) hno
      refine ⟨n + 0, 0, { h with calls := h.calls + 1 }, ?_, by simp [hnone]⟩
      rw [UserHeap.malloc, hloop 0, morecore_none hW]
      rfl
    | some skip =>
      have hlt : moreUnits (units nbytes) * 16 + h.total < 2 ^ 36 := by
        rcases hroom with ⟨hf, hk⟩ | hW' | hlt
        · have hstart : h = s.heap := if_neg hf
          rw [hstart] at hnone
          exact absurd hk hnone
        · rw [hW] at hW'
          cases hW'
        · rw [htotal]
          exact hlt
      obtain ⟨n, res, hm, b, l', hb, -⟩ := hi.malloc_grows (W := W) hunits hno (by rw [hcalls]; exact hW) hlt
      exact ⟨n, res.1, res.2, hm, iff_of_true (by omega) (Or.inr (by simp))⟩

/-- An `sbrk` that gives memory once. -/
def brkOnce : BrkWorld := fun n => if n = 0 then some 0 else none

theorem heapDemo_once : (emptyHeap.run 4096 brkOnce 8 heapDemo).map (fun s => [s.heap.freep, s.heap.ptr 8192, s.heap.ptr 73600,
      s.heap.ptr 4096, s.heap.size 8192, s.heap.size 73600, s.heap.size 4096, s.heap.calls, s.heap.total]) =
    some [8192, 73600, 4096, 8192, 1587, 3, 0, 1, 65536] := by decide +kernel

/-- The first call fails when `sbrk` does. After the calls of `heapDemo` a request of 100 bytes is met from the free list and one of
30000 bytes is not. -/
theorem malloc_succeeds_iff_demo : (∃ n h', emptyHeap.heap.malloc 4096 (fun _ => none) n 100 = some (0, h')) ∧
    ∃ s, emptyHeap.run 4096 brkOnce 8 heapDemo = some s ∧ (∃ n r h', s.heap.malloc 4096 brkOnce n 100 = some (r, h') ∧ r ≠ 0) ∧
      ∃ n h', s.heap.malloc 4096 brkOnce n 30000 = some (0, h') := by
  constructor
  · obtain ⟨n, r, h', hm, hr⟩ := malloc_succeeds_iff (reach_emptyHeap fun _ => none) (by decide) 100 (by decide) (Or.inr (Or.inl rfl))
    have h0 : r = 0 := by
      by_contra hne
      rcases hr.mp hne with ⟨k, hk⟩ | hW
      · simp [UserHeap.start, emptyHeap, units] at hk
      · exact hW rfl
    exact ⟨n, h', h0 ▸ hm⟩
  · obtain ⟨s, hs, e⟩ := Option.map_eq_some_iff.mp heapDemo_once
    simp only [cons.injEq, and_true] at e
    obtain ⟨hfreep, hp1, hp2, hp3, hs1, hs2, hs3, hcalls, htotal⟩ := e
    have hstart : s.heap.start 4096 = s.heap := if_neg (by omega)
    have hnone : brkOnce s.heap.calls = none := by rw [hcalls]; rfl
    have hiff := malloc_succeeds_iff (HeapReach.of_run (reach_emptyHeap _) hs) (by omega)
    refine ⟨s, hs, ?_, ?_⟩
    · obtain ⟨n, r, h', hm, hr⟩ := hiff 100 (by decide) (Or.inr (Or.inl hnone))
      refine ⟨n, r, h', hm, hr.mpr (Or.inl ⟨0, ?_⟩)⟩
      rw [hstart, Function.iterate_zero_apply, hfreep, hs1]
      decide
    · obtain ⟨n, r, h', hm, hr⟩ := hiff 30000 (by decide) (Or.inr (Or.inl hnone))
      have hmem : ∀ k, s.heap.ptr^[k] 8192 = 8192 ∨ s.heap.ptr^[k] 8192 = 73600 ∨ s.heap.ptr^[k] 8192 = 4096 := by
        intro k
        induction k with
        | zero => exact Or.inl rfl
        | succ k ih =>
          rw [Function.iterate_succ_apply']
          rcases ih with ih | ih | ih <;> rw [ih] <;> omega
      have h0 : r = 0 := by
        by_contra hne
        rcases hr.mp hne with ⟨k, hk⟩ | hW
        · rw [hstart, hfreep] at hk
          have hu : units 30000 = 1876 := by decide
          rcases hmem k with e | e | e <;> rw [e] at hk <;> omega
        · exact hW hnone
      exact ⟨n, h', h0 ▸ hm⟩

/-- `malloc` of 33 blocks of nearly 2 GiB, and then `free` of all of them in their order. -/
def heapOverflow : List HeapCall :=
  List.replicate 33 (.malloc (2 ^ 31 - 32)) ++ (List.range 33).map fun i => .free (8192 + i * (2 ^ 31 - 16) + 16)

/-- The one free block is left with the sizes of all modulo `2 ^ 32`. -/
theorem heapOverflow_ends :
    (emptyHeap.run 4096 (fun _ => some 0) 8 heapOverflow).map (fun s => (s.live, s.heap.freep, s.heap.ptr 4096, s.heap.ptr 8192,
      s.heap.size 8192, decide ((8192 + 32 * (2 ^ 31 - 16), 2 ^ 31 - 16) ∈ s.heap.pieces))) =
    some ([], 8192, 8192, 4096, 2 ^ 27 - 33, true) := by decide +kernel

theorem overflow_loses_memory : ∃ s, HeapReach 4096 (fun _ => some 0) s ∧ ¬ HeapOk 4096 s := by
  obtain ⟨s, hs, e⟩ := Option.map_eq_some_iff.mp heapOverflow_ends
  simp only [Prod.mk.injEq, decide_eq_true_eq] at e
  obtain ⟨hlive, hfreep, hbase, hblock, hsize, hpiece⟩ := e
  refine ⟨s, HeapReach.of_run (reach_emptyHeap _) hs, ?_⟩
  rintro (⟨h0, -⟩ | ⟨l, hok⟩)
  · rw [hfreep] at h0
    cases h0
  -- the list is `base` and one block
  have hl : l = [8192] := by
    have hc := hok.circular
    have ho := hok.ordered
    match l, hc, ho with
    | [], hc, _ =>
      have := isChain_pair.mp hc
      omega
    | a :: l, hc, ho =>
      obtain ⟨ha, hc⟩ := isChain_cons_cons.mp hc
      obtain rfl : a = 8192 := ha.symm.trans hbase
      match l, hc, ho with
      | [], _, _ => rfl
      | b :: l, hc, ho =>
        obtain ⟨hb, -⟩ := isChain_cons_cons.mp hc
        have hlt := (pairwise_cons.mp (pairwise_cons.mp ho).2).1 b mem_cons_self
        omega
  -- the last byte is in no block
  obtain ⟨b, hb, hx⟩ := (hok.covered (8192 + 33 * (2 ^ 31 - 16) - 1)).mp ⟨_, hpiece, by unfold Extent.Has; omega⟩
  rw [hl, hlive] at hb
  obtain rfl := mem_singleton.mp hb
  unfold UserHeap.InBlock at hx
  omega

end Xv6Mmap

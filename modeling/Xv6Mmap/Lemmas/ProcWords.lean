import Xv6Mmap.ProcWords
import Xv6Mmap.Lemmas.PageWords
import Mathlib.Order.BooleanAlgebra.Set

/-!
# What growing, shrinking and copying does to a page table

The functions of `ProcWords`, for a page table whose user part is the pages below a bound (`UserMap`). The allocator gives each page
of a finite set `S` to one place, so the bound is at most the size of `S`, and every loop stays below `MAXVA`, however large the size
asked for.
-/

namespace Xv6Mmap

open Phys

/-! ## Flags -/

section Flags

theorem hasFlag_iff {x m : Nat} : hasFlag x m = true ↔ ∃ i, x.testBit i = true ∧ m.testBit i = true := by
  rw [hasFlag, bne_iff_ne]
  constructor
  · intro h
    obtain ⟨i, hi⟩ := Nat.exists_testBit_of_ne_zero h
    rw [Nat.testBit_and, Bool.and_eq_true] at hi
    exact ⟨i, hi⟩
  · intro h e
    obtain ⟨i, h1, h2⟩ := h
    have := congrArg (fun y => y.testBit i) e
    simp [h1, h2] at this

/-- Some of R, W and X: the PTE of a page, not of a table. -/
abbrev pteRWX : Nat := pteR ||| pteW ||| pteX

theorem pteFlags_ne_of_rwx {pte : Nat} (h : hasFlag pte pteRWX = true) : pteFlags pte ≠ pteV := by
  intro e
  have he : pte &&& pteRWX = pteFlags pte &&& pteRWX := by
    rw [pteFlags, Nat.and_assoc]
    rfl
  rw [hasFlag, he, e] at h
  cases h

theorem rwx_pteFlags (pte : Nat) : hasFlag (pteFlags pte) pteRWX = hasFlag pte pteRWX := by
  rw [hasFlag, pteFlags, Nat.and_assoc]
  rfl

theorem rwx_mkPte {pa perm : Nat} (h : hasFlag perm pteRWX = true) : hasFlag (mkPte pa perm) pteRWX = true := by
  obtain ⟨i, h1, h2⟩ := hasFlag_iff.mp h
  refine hasFlag_iff.mpr ⟨i, ?_, h2⟩
  rw [mkPte, Nat.testBit_or, Nat.testBit_or, h1, Bool.or_true, Bool.true_or]

end Flags

/-! ## The user part of a page table -/

/-- The virtual pages below the area of the mappings. -/
def userPages : Set Nat := {v | v < startAddress}

/-- The pages of user memory are those below `bound`, and the physical pages behind them are of `S`. -/
structure UserMap (S : Finset Nat) (pt : PageTable) (bound : Nat) : Prop where
  aligned : bound % pgSize = 0
  le : bound ≤ startAddress
  mapped : ∀ v, PageAddr v → v < startAddress → (pt.mapped v = true ↔ v < bound)
  phys : ∀ v, PageAddr v → v < bound → ptePage (pt.pte v) ∈ S
  leaf : ∀ v, PageAddr v → v < bound → hasFlag (pt.pte v) pteRWX = true

/-- A change of the user part from `lo` on, to the bound `bound`; what is below `lo`, the pages above user memory and the rest `R`
of the kernel are as they were. -/
structure UserChange (S : Finset Nat) (R : Set Nat) (lo bound : Nat) (w : Phys) (pt : PageTable) (w' : Phys) (pt' : PageTable) :
    Prop where
  spelled : Spelled userPages R w' pt'
  page : pt'.page = pt.page
  user : UserMap S pt' bound
  pte : ∀ v, PageAddr v → v < lo ∨ startAddress ≤ v → pt'.pte v = pt.pte v
  word : ∀ x ∈ R, w'.word x = w.word x

section User

variable {S : Finset Nat} {own R : Set Nat} {A : Allocator} {w w' : Phys} {pt pt' : PageTable} {bound lo : Nat}
  {pg a oldsz : Nat}

theorem pageAddr_of_lt {v : Nat} (hal : v % pgSize = 0) (h : v < maxVa) : PageAddr v :=
  ⟨hal, by simp only [maxVa] at h; omega⟩

theorem lt_maxVa_of_user {v : Nat} (h : v < startAddress) : v < maxVa := by
  simp only [startAddress, maxVa] at *
  omega

theorem UserChange.refl (h : Spelled userPages R w pt) (hu : UserMap S pt bound) (lo : Nat) : UserChange S R lo bound w pt w pt :=
  ⟨h, rfl, hu, fun _ _ _ => rfl, fun _ _ => rfl⟩

/-- The pages of user memory, their number bounded by `S`; a page of `S` in hand is one more. -/
theorem UserMap.card_le (hu : UserMap S pt bound) (h : Spelled userPages R w pt) : bound / pgSize ≤ S.card := by
  have hsub : ∀ i ∈ Finset.range (bound / pgSize), PageAddr (i * pgSize) ∧ i * pgSize < bound := by
    intro i hi
    have hlt := Finset.mem_range.mp hi
    have hle := hu.le
    simp only [PageAddr, pgSize, startAddress] at *
    omega
  rw [← Finset.card_range (bound / pgSize)]
  refine Finset.card_le_card_of_injOn (fun i => ptePage (pt.pte (i * pgSize))) (fun i hi => ?_) fun i hi j hj e => ?_
  · obtain ⟨h1, h2⟩ := hsub i hi
    exact hu.phys _ h1 h2
  have hleaf : ∀ k ∈ Finset.range (bound / pgSize),
      pt.Holds userPages (.leaf (k * pgSize)) (ptePage (pt.pte (k * pgSize))) := by
    intro k hk
    obtain ⟨h1, h2⟩ := hsub k hk
    have hlt : k * pgSize < startAddress := lt_of_lt_of_le h2 hu.le
    exact ⟨hlt, h1, (hu.mapped _ h1 hlt).mpr h2, rfl⟩
  have hi' := hleaf i hi
  have e' : ptePage (pt.pte (i * pgSize)) = ptePage (pt.pte (j * pgSize)) := e
  rw [e'] at hi'
  have := h.owned.inj _ _ _ hi' (hleaf j hj)
  have := Place.leaf.inj this
  simp only [pgSize] at this
  omega

/-- With a page of `S` in hand there is room for one more. -/
theorem UserMap.card_lt (hu : UserMap S pt bound) (h : Spelled userPages (insert pg R) w pt) (hpg : pg ∈ S) :
    bound / pgSize < S.card := by
  -- the page in hand is behind no PTE, so the others are of `S` without it
  have hu' : UserMap (S.erase pg) pt bound := by
    refine ⟨hu.aligned, hu.le, hu.mapped, fun v hv hlt => Finset.mem_erase.mpr ⟨fun e => ?_, hu.phys v hv hlt⟩, hu.leaf⟩
    have hlt' := lt_of_lt_of_le hlt hu.le
    have hold : pt.Holds userPages (.leaf v) (ptePage (pt.pte v)) := ⟨hlt', hv, (hu.mapped v hv hlt').mpr hlt, rfl⟩
    exact h.owned.not_mem hold (e ▸ Set.mem_insert ..)
  have := hu'.card_le h
  rw [Finset.card_erase_of_mem hpg] at this
  have hpos : 0 < S.card := Finset.card_pos.mpr ⟨pg, hpg⟩
  omega

/-! ## Unmapping -/

theorem unmapLoop_own (A : Allocator) (n : Nat) (h : Spelled own R w pt) (ha : a % pgSize = 0)
    (hmapped : ∀ v ∈ pagesFrom a n, v ∈ own ∧ v < maxVa ∧ pt.mapped v = true ∧ hasFlag (pt.pte v) pteRWX = true) :
    ∃ w' pt', Phys.unmapLoop A pt.page true n w a = .ok w' ∧ Spelled own R w' pt' ∧ pt'.page = pt.page ∧
      (∀ v, PageAddr v → pt'.pte v = if a ≤ v ∧ v < a + n * pgSize then 0 else pt.pte v) ∧ ∀ x ∈ R, w'.word x = w.word x := by
  induction n generalizing a w pt with
  | zero => exact ⟨w, pt, rfl, h, rfl, fun v _ => by rw [if_neg (by omega)], fun _ _ => rfl⟩
  | succ n ih =>
    rw [pagesFrom_succ] at hmapped
    obtain ⟨hown, hlt, hm, hrwx⟩ := hmapped a (Or.inl rfl)
    have hpa := pageAddr_of_lt ha hlt
    obtain ⟨pg, hl⟩ := Spelled.low_of_mapped hm
    obtain ⟨htake, hnot⟩ := h.take hpa hown hm
    obtain ⟨w1, e1, hs1, hword1⟩ := htake.kfree_hand hnot
    have hs2 := hs1.write_taken hpa hl
    have hpte : ∀ v, PageAddr v → (pt.setPte a 0).pte v = if v = a then 0 else pt.pte v :=
      fun v hpv => pt.pte_setPte (Spelled.hasTable_of_low hl) hpa hpv 0
    have hnext : ∀ v ∈ pagesFrom (a + pgSize) n, (pt.setPte a 0).pte v = pt.pte v := by
      intro v hv
      obtain ⟨-, hlt', -⟩ := hmapped v (Or.inr hv)
      obtain ⟨hal, hge, -⟩ := (mem_pagesFrom (by simp only [pgSize] at *; omega)).mp hv
      rw [hpte v (pageAddr_of_lt hal hlt'), if_neg (by simp only [pgSize] at *; omega)]
    obtain ⟨w', pt', e', hs', hpage, hpte', hword'⟩ := ih (a := a + pgSize) hs2 (by simp only [pgSize] at *; omega) (by
      intro v hv
      rw [PageTable.mapped, hnext v hv]
      exact hmapped v (Or.inr hv))
    refine ⟨w', pt', ?_, hs', hpage, fun v hpv => ?_, fun x hx => ?_⟩
    · rw [h.unmapLoop_round A true n hlt hm (pteFlags_ne_of_rwx hrwx) hl, if_pos rfl, pte2pa_eq, e1]
      exact e'
    · rw [hpte' v hpv, hpte v hpv]
      exact ite_pages_succ ha hpv.1 (fun _ => rfl) fun _ => rfl
    · rw [hword' x hx, (hs1.set_rest 0 hl).word x hx]
      exact hword1 x fun e => hnot (e ▸ hx)

theorem unmapLoop_user (A : Allocator) (n : Nat) (h : Spelled userPages R w pt) (hu : UserMap S pt (a + n * pgSize))
    (ha : a % pgSize = 0) : ∃ w' pt', Phys.unmapLoop A pt.page true n w a = .ok w' ∧ UserChange S R a a w pt w' pt' := by
  have hle := hu.le
  obtain ⟨w', pt', e, hs, hpage, hpte, hword⟩ := unmapLoop_own A n h ha (by
    intro v hv
    obtain ⟨hal, hge, hlt⟩ := (mem_pagesFrom ha).mp hv
    have hlt' : v < startAddress := lt_of_lt_of_le hlt hle
    have hpv := pageAddr_of_lt hal (lt_maxVa_of_user hlt')
    exact ⟨hlt', lt_maxVa_of_user hlt', (hu.mapped v hpv hlt').mpr hlt, hu.leaf v hpv hlt⟩)
  have hbelow : ∀ v, PageAddr v → v < a → pt'.pte v = pt.pte v := by
    intro v hpv hlt
    rw [hpte v hpv, if_neg (by omega)]
  refine ⟨w', pt', e, hs, hpage, ⟨ha, by omega, fun v hpv hlt => ?_, fun v hpv hlt => ?_, fun v hpv hlt => ?_⟩, fun v hpv hor => ?_, hword⟩
  · rw [PageTable.mapped, hpte v hpv]
    by_cases hin : a ≤ v ∧ v < a + n * pgSize
    · rw [if_pos hin]
      simp only [hasFlag, Nat.zero_and, bne_self_eq_false, Bool.false_eq_true, false_iff]
      omega
    · rw [if_neg hin]
      have hiff := hu.mapped v hpv hlt
      rw [PageTable.mapped] at hiff
      rw [hiff]
      omega
  · rw [hbelow v hpv hlt]
    exact hu.phys v hpv (by omega)
  · rw [hbelow v hpv hlt]
    exact hu.leaf v hpv (by omega)
  · rcases hor with hlt | hge
    · exact hbelow v hpv hlt
    · rw [hpte v hpv, if_neg (by omega)]

theorem uvmdealloc_words (A : Allocator) (oldsz newsz : Nat) (h : Spelled userPages R w pt) (hu : UserMap S pt (pgRoundUp oldsz))
    (hold : oldsz < 2 ^ 64 - pgSize) : ∃ w' pt', w.uvmdealloc A pt.page oldsz newsz = .ok (min oldsz newsz, w') ∧
      UserChange S R (pgRoundUp (min oldsz newsz)) (pgRoundUp (min oldsz newsz)) w pt w' pt' := by
  unfold Phys.uvmdealloc
  by_cases hle : oldsz ≤ newsz
  · rw [if_pos hle, min_eq_left hle]
    exact ⟨w, pt, rfl, UserChange.refl h hu _⟩
  have hlt : newsz < oldsz := Nat.lt_of_not_le hle
  rw [if_neg hle, min_eq_right hlt.le]
  by_cases hpages : pgRoundUp newsz < pgRoundUp oldsz
  · rw [if_pos hpages]
    have h1 := pgRoundUp_mod newsz
    have h2 := pgRoundUp_mod oldsz
    have hcount : pgRoundUp newsz + (pgRoundUp oldsz - pgRoundUp newsz) / pgSize * pgSize = pgRoundUp oldsz := by
      simp only [pgSize] at *
      omega
    rw [← hcount] at hu
    obtain ⟨w', pt', e, hr⟩ := unmapLoop_user A _ h hu h1
    refine ⟨w', pt', ?_, hr⟩
    rw [Phys.uvmunmap, if_neg (not_not.mpr h1), e]
    rfl
  · have hsame : pgRoundUp newsz = pgRoundUp oldsz := by
      have : pgRoundUp newsz ≤ pgRoundUp oldsz := pgRoundUp_le (pgRoundUp_mod oldsz)
        (hlt.le.trans (le_pgRoundUp (by simp only [pgSize] at hold; omega)))
      omega
    rw [if_neg hpages, hsame]
    exact ⟨w, pt, rfl, UserChange.refl h hu _⟩

/-! ## Mapping -/

theorem UserMap.put (hu : UserMap S pt bound) {t perm : Nat} (hg : Grown pt pt') (hpg : pg ∈ S) (hlt : bound < startAddress)
    (hl : pt'.low (px 2 bound) (px 1 bound) = some t) (hperm : perm < 1024) (hrwx : hasFlag perm pteRWX = true) :
    UserMap S (pt'.setPte bound (mkPte (pg * pgSize) perm)) (bound + pgSize) ∧
      ∀ v, PageAddr v → v ≠ bound → (pt'.setPte bound (mkPte (pg * pgSize) perm)).pte v = pt.pte v := by
  have hal := hu.aligned
  have hpb := pageAddr_of_lt hal (lt_maxVa_of_user hlt)
  have hpte : ∀ v, PageAddr v → (pt'.setPte bound (mkPte (pg * pgSize) perm)).pte v =
      if v = bound then mkPte (pg * pgSize) perm else pt.pte v := by
    intro v hpv
    rw [pt'.pte_setPte (Spelled.hasTable_of_low hl) hpb hpv, hg.pte]
  have hcase : ∀ v, PageAddr v → v < bound + pgSize → v ≠ bound → v < bound := by
    intro v hpv hv hne
    have := hpv.1
    simp only [pgSize] at *
    omega
  refine ⟨⟨?_, ?_, fun v hpv hv => ?_, fun v hpv hv => ?_, fun v hpv hv => ?_⟩, fun v hpv hne => by rw [hpte v hpv, if_neg hne]⟩
  · simp only [pgSize] at *
    omega
  · simp only [pgSize, startAddress] at *
    omega
  · rw [PageTable.mapped, hpte v hpv]
    by_cases e : v = bound
    · rw [if_pos e, hasFlag_mkPte_V, e]
      simp [pgSize]
    rw [if_neg e]
    have hiff := hu.mapped v hpv hv
    rw [PageTable.mapped] at hiff
    rw [hiff]
    exact ⟨fun hlt' => by omega, fun hlt' => hcase v hpv hlt' e⟩
  · rw [hpte v hpv]
    by_cases e : v = bound
    · rw [if_pos e, ptePage_mkPte hperm, Nat.mul_div_cancel _ (by decide)]
      exact hpg
    · rw [if_neg e]
      exact hu.phys v hpv (hcase v hpv hv e)
  · rw [hpte v hpv]
    by_cases e : v = bound
    · rw [if_pos e]
      exact rwx_mkPte hrwx
    · rw [if_neg e]
      exact hu.leaf v hpv (hcase v hpv hv e)

theorem Grown.userMap (hg : Grown pt pt') (hu : UserMap S pt bound) : UserMap S pt' bound := by
  refine ⟨hu.aligned, hu.le, fun v hpv hlt => ?_, fun v hpv hlt => ?_, fun v hpv hlt => ?_⟩
  · rw [hg.mapped]
    exact hu.mapped v hpv hlt
  · rw [hg.pte]
    exact hu.phys v hpv hlt
  · rw [hg.pte]
    exact hu.leaf v hpv hlt

/-- One page more of user memory: the page is in place, or `mappages` failed and it is still in hand. -/
theorem mappages_user (A : Allocator) (hS : S.card * pgSize < startAddress) {perm : Nat} (h : Spelled userPages (insert pg R) w pt)
    (hpg : pg ∉ R) (hpS : pg ∈ S) (hu : UserMap S pt bound) (hperm : perm < 1024) (hrwx : hasFlag perm pteRWX = true) :
    ∃ w1 pt1, (w.mappages A pt.page bound pgSize (pg * pgSize) perm = .ok (false, w1) ∧
        UserChange S (insert pg R) bound bound w pt w1 pt1) ∨ (w.mappages A pt.page bound pgSize (pg * pgSize) perm = .ok (true, w1) ∧
        UserChange S R bound (bound + pgSize) w pt w1 pt1) := by
  have hlt : bound < startAddress := by
    have := hu.card_lt h hpS
    simp only [pgSize, startAddress] at *
    omega
  have hpb := pageAddr_of_lt hu.aligned (lt_maxVa_of_user hlt)
  have hfree : pt.mapped bound = false := by
    rw [← Bool.not_eq_true, hu.mapped bound hpb hlt]
    exact lt_irrefl _
  obtain ⟨w1, pt1, hg, hres⟩ := h.mappages_one A hu.aligned (lt_maxVa_of_user hlt) hfree (pg * pgSize) perm
  rcases hres with e | ⟨t, hl, e⟩
  · exact ⟨w1, pt1, Or.inl ⟨e, hg.spelled, hg.grown.page, hg.grown.userMap hu, fun v _ _ => hg.grown.pte v, hg.grows.word⟩⟩
  have hx : ptePage (mkPte (pg * pgSize) perm) = pg := by
    rw [ptePage_mkPte hperm, Nat.mul_div_cancel _ (by decide)]
  obtain ⟨hu', hpte⟩ := hu.put hg.grown hpS hlt hl hperm hrwx
  refine ⟨_, _, Or.inr ⟨e, hg.spelled.write_put hpg hpb hl hx, hg.grown.page, hu', fun v hpv hor => hpte v hpv ?_, fun x hx => ?_⟩⟩
  · rcases hor with hor | hor <;> omega
  · rw [(hg.spelled.set_rest _ hl).word x (Set.mem_insert_of_mem _ hx)]
    exact hg.grows.word x (Set.mem_insert_of_mem _ hx)

/-! ## Growing -/

/-- What the lemmas below assume of the allocator: its pages are of `S`, and `S` fits below the area of the mappings. -/
structure PicksFrom (A : Allocator) (S : Finset Nat) : Prop where
  pick : ∀ w pg, A.pick w = some pg → pg ∈ S
  card : S.card ≤ 32768

theorem PicksFrom.room (hA : PicksFrom A S) : S.card * pgSize < startAddress := by
  have := hA.card
  simp only [pgSize, startAddress]
  omega

theorem uvmdealloc_back (A : Allocator) (h : Spelled userPages R w pt) (hu : UserMap S pt a)
    (hold : oldsz % pgSize = 0) (hle : oldsz ≤ a) :
    ∃ w' pt', w.uvmdealloc A pt.page a oldsz = .ok (oldsz, w') ∧ UserChange S R oldsz oldsz w pt w' pt' := by
  have hle' := hu.le
  have hup : pgRoundUp a = a := pgRoundUp_of_aligned hu.aligned (by simp only [startAddress] at hle'; omega)
  have hup' : pgRoundUp oldsz = oldsz := pgRoundUp_of_aligned hold (by simp only [startAddress] at hle'; omega)
  obtain ⟨w', pt', e, hr⟩ := uvmdealloc_words A a oldsz h (by rw [hup]; exact hu)
    (by simp only [startAddress, pgSize] at *; omega)
  rw [min_eq_right hle, hup'] at hr
  rw [min_eq_right hle] at e
  exact ⟨w', pt', e, hr⟩

section

variable (hA : PicksFrom A S) (h : Spelled userPages R w pt)

include hA h

theorem kalloc_user :
    (∃ w1, w.kalloc A = (0, w1) ∧ Spelled userPages R w1 pt ∧ w1.word = w.word) ∨
    ∃ pg w1, w.kalloc A = (pg * pgSize, w1) ∧ pg * pgSize ≠ 0 ∧ pg ∈ S ∧ pg ∉ R ∧ Spelled userPages (insert pg R) w1 pt ∧
      ∀ y, y ≠ pg → w1.word y = w.word y := by
  rcases kalloc_cases A w with ⟨w1, e, hw, ho⟩ | ⟨pg, w1, e, hpick, hout, hne, ho, hw⟩
  · exact Or.inl ⟨w1, e, (h.walkGrows_same hw ho).spelled, hw⟩
  · obtain ⟨hs, hpg⟩ := h.alloc_hand hout ho hw
    exact Or.inr ⟨pg, w1, e, hne, hA.pick w pg hpick, hpg, hs, hw⟩

theorem allocLoop_words (n : Nat) (hu : UserMap S pt a)
    (hold : oldsz % pgSize = 0) (hle : oldsz ≤ a) : ∃ ok w' pt', Phys.allocLoop A pt.page oldsz n w a = .ok (ok, w') ∧
      UserChange S R oldsz (if ok = true then a + n * pgSize else oldsz) w pt w' pt' := by
  induction n generalizing a w pt with
  | zero => exact ⟨true, w, pt, rfl, by simpa using UserChange.refl h hu oldsz⟩
  | succ n ih =>
    unfold Phys.allocLoop
    rcases kalloc_user hA h with ⟨w1, e, hs, hw⟩ | ⟨pg, w1, e, hne, hpS, hpg, hs, hw⟩
    · rw [e]
      obtain ⟨w', pt', e', hr⟩ := uvmdealloc_back A hs hu hold hle
      refine ⟨false, w', pt', ?_, hr.spelled, hr.page, hr.user, hr.pte, fun x hx => ?_⟩
      · simp only [if_true, e', ok_bind]
        rfl
      · rw [hr.word x hx, hw]
    · rw [e]
      simp only [if_neg hne, Nat.mul_div_cancel pg (show 0 < pgSize by decide)]
      -- the page is cleared and mapped
      have hclear : Spelled userPages (insert pg R) (w1.fill pg 0) pt :=
        hs.write_hand (Set.mem_insert ..) (fun y hy => fill_page _ _ _ hy) rfl
      have hword : ∀ x ∈ R, (w1.fill pg 0).word x = w.word x := by
        intro x hx
        have hxp : x ≠ pg := fun e' => hpg (e' ▸ hx)
        rw [fill_page _ _ _ hxp, hw x hxp]
      obtain ⟨w2, pt2, hmap⟩ := mappages_user A hA.room hclear hpg hpS hu
        (show pteW ||| pteX ||| pteR ||| pteU < 1024 by decide) (by decide)
      rcases hmap with ⟨e2, hr⟩ | ⟨e2, hr⟩
      · obtain ⟨w3, e3, hs3, hw3⟩ := hr.spelled.kfree_hand hpg
        obtain ⟨w', pt', e', hr'⟩ := uvmdealloc_back A hs3 hr.user hold hle
        rw [hr.page] at e'
        refine ⟨false, w', pt', ?_, hr'.spelled, hr'.page.trans hr.page, hr'.user, fun v hpv hor => ?_, fun x hx => ?_⟩
        · rw [e2]
          simp only [Bool.false_eq_true, if_false, e3, ok_bind, e']
          rfl
        · rw [hr'.pte v hpv hor]
          exact hr.pte v hpv (hor.imp_left fun hlt => by omega)
        · rw [hr'.word x hx, hw3 x fun e' => hpg (e' ▸ hx), hr.word x (Set.mem_insert_of_mem _ hx), hword x hx]
      · obtain ⟨ok, w', pt', e', hr'⟩ := ih hr.spelled hr.user (by omega)
        rw [hr.page] at e'
        refine ⟨ok, w', pt', ?_, hr'.spelled, hr'.page.trans hr.page, ?_, fun v hpv hor => ?_, fun x hx => ?_⟩
        · rw [e2]
          exact e'
        · have hsum : a + (n + 1) * pgSize = a + pgSize + n * pgSize := by
            simp only [pgSize]
            omega
          rw [hsum]
          exact hr'.user
        · rw [hr'.pte v hpv hor]
          exact hr.pte v hpv (hor.imp_left fun hlt => by omega)
        · rw [hr'.word x hx, hr.word x hx, hword x hx]

/-- `uvmalloc`: the memory grows to the new size, or it is as it was and the result is `0`. -/
theorem uvmalloc_words (newsz : Nat) (hu : UserMap S pt (pgRoundUp oldsz)) (hold : oldsz ≤ pgRoundUp oldsz) :
    ∃ ok w' pt', w.uvmalloc A pt.page oldsz newsz = .ok (if ok = true then max oldsz newsz else 0, w') ∧
      UserChange S R (pgRoundUp oldsz) (pgRoundUp (if ok = true then max oldsz newsz else oldsz)) w pt w' pt' ∧
      (ok = true → max oldsz newsz ≤ pgRoundUp (max oldsz newsz)) := by
  unfold Phys.uvmalloc
  by_cases hlt : newsz < oldsz
  · refine ⟨true, w, pt, ?_, ?_, fun _ => ?_⟩
    · rw [if_pos hlt, max_eq_left hlt.le]
      rfl
    · rw [max_eq_left hlt.le]
      exact UserChange.refl h hu _
    · rw [max_eq_left hlt.le]
      exact hold
  · rw [if_neg hlt]
    have hmax : max oldsz newsz = newsz := max_eq_right (Nat.le_of_not_lt hlt)
    obtain ⟨ok, w', pt', e, hr⟩ := allocLoop_words hA h ((newsz - pgRoundUp oldsz + (pgSize - 1)) / pgSize) hu
      (pgRoundUp_mod oldsz) (le_refl _)
    refine ⟨ok, w', pt', by rw [e, hmax]; rfl, ?_⟩
    cases ok with
    | false => exact ⟨hr, fun hf => absurd hf Bool.false_ne_true⟩
    | true =>
      rw [if_pos rfl] at hr ⊢
      rw [hmax]
      -- the pages of the loop end at the new size, rounded up
      have hend : pgRoundUp oldsz + (newsz - pgRoundUp oldsz + (pgSize - 1)) / pgSize * pgSize = pgRoundUp newsz ∧
          newsz ≤ pgRoundUp newsz := by
        have hle := hr.user.le
        have hmod := pgRoundUp_mod oldsz
        have hup : pgRoundUp oldsz ≤ oldsz + 4095 := by
          simp only [pgRoundUp, pgSize]
          omega
        simp only [pgSize, startAddress] at hle hmod
        rw [pgRoundUp_eq (show newsz + 4095 < 2 ^ 64 by omega)]
        simp only [pgSize]
        omega
      rw [hend.1] at hr
      exact ⟨hr, fun _ => hend.2⟩

theorem UserMap.size_le {sz : Nat} (hu : UserMap S pt (pgRoundUp sz))
    (hsz : sz < 2 ^ 64 - pgSize) : sz ≤ 32768 * pgSize ∧ sz ≤ pgRoundUp sz := by
  have hcard := hu.card_le h
  have hS := hA.card
  have hle : sz ≤ pgRoundUp sz := le_pgRoundUp (by simp only [pgSize] at hsz; omega)
  have hmod := hu.aligned
  simp only [pgSize] at *
  omega

/-- `growproc`: on failure nothing changes; else the size is as asked for, or as it was when less than nothing is asked for. -/
theorem growproc_words {sz : Nat} {n : Int} (hu : UserMap S pt (pgRoundUp sz))
    (hsz : sz < 2 ^ 64 - pgSize) (hn : -2 ^ 31 ≤ n ∧ n < 2 ^ 31) : ∃ ok sz' w' pt', w.growproc A pt.page sz n = .ok (ok, sz', w') ∧
      UserChange S R (min (pgRoundUp sz) (pgRoundUp sz')) (pgRoundUp sz') w pt w' pt' ∧ (ok = false → sz' = sz) ∧
      (ok = true → (sz' : Int) = if 0 < n ∨ -(sz : Int) ≤ n then sz + n else sz) := by
  obtain ⟨hle, hup⟩ := hu.size_le hA h hsz
  have hmod : sz % 2 ^ 32 = sz := Nat.mod_eq_of_lt (by simp only [pgSize] at hle; omega)
  simp only [Phys.growproc, hmod]
  by_cases hpos : 0 < n
  · -- the sum does not wrap
    have hnext : (((sz : Int) + n) % 2 ^ 32).toNat = sz + n.toNat := by
      simp only [pgSize] at hle
      omega
    rw [hnext]
    simp only [if_pos hpos]
    obtain ⟨ok, w', pt', e, hr, -⟩ := uvmalloc_words hA h (sz + n.toNat) hu hup
    rw [e, ok_bind]
    cases ok with
    | false =>
      refine ⟨false, sz, w', pt', rfl, ?_, fun _ => rfl, fun hf => absurd hf Bool.false_ne_true⟩
      rw [min_self]
      exact hr
    | true =>
      have hmax : max sz (sz + n.toNat) = sz + n.toNat := max_eq_right (Nat.le_add_right ..)
      have hlt : (sz + n.toNat) % 2 ^ 32 = sz + n.toNat := by
        omega
      simp only [if_true, hmax, hlt] at hr ⊢
      have hge : pgRoundUp sz ≤ pgRoundUp (sz + n.toNat) :=
        pgRoundUp_le (pgRoundUp_mod _) (le_trans (Nat.le_add_right ..) (le_pgRoundUp (by omega)))
      refine ⟨true, sz + n.toNat, w', pt', ?_, ?_, fun hf => absurd hf.symm Bool.false_ne_true, fun _ => ?_⟩
      · rw [if_neg (by omega)]
        rfl
      · rw [min_eq_left hge]
        exact hr
      · omega
  · by_cases hneg : n < 0
    · simp only [if_neg hpos, if_pos hneg]
      obtain ⟨w', pt', e, hr⟩ := uvmdealloc_words A sz (((sz : Int) + n) % 2 ^ 32).toNat h hu hsz
      rw [e, ok_bind]
      have hmin : min sz (((sz : Int) + n) % 2 ^ 32).toNat % 2 ^ 32 = min sz (((sz : Int) + n) % 2 ^ 32).toNat := by
        omega
      refine ⟨true, min sz (((sz : Int) + n) % 2 ^ 32).toNat, w', pt', by rw [hmin]; rfl, ?_, fun hf => absurd hf.symm Bool.false_ne_true,
        fun _ => ?_⟩
      · have hge : pgRoundUp (min sz (((sz : Int) + n) % 2 ^ 32).toNat) ≤ pgRoundUp sz :=
          pgRoundUp_le (pgRoundUp_mod _) ((min_le_left ..).trans hup)
        rw [min_eq_right hge]
        exact hr
      · split <;> omega
    · have hzero : n = 0 := by omega
      simp only [if_neg hpos, if_neg hneg]
      refine ⟨true, sz, w, pt, rfl, ?_, fun hf => absurd hf.symm Bool.false_ne_true, fun _ => ?_⟩
      · exact UserChange.refl h hu _
      · rw [if_pos (by omega), hzero, add_zero]

end

end User

/-! ## Freeing the tables -/

section Freewalk

variable {w w' : Phys} {pt : PageTable} {own R : Set Nat}

/-- Nothing changed outside of the pages of `X`. -/
structure ChangesOnly (X : Set Nat) (w w' : Phys) : Prop where
  out : ∀ y, y ∉ X → w'.out y = w.out y
  word : ∀ y, y ∉ X → w'.word y = w.word y

/-- The entry of a table is not taken for a leaf. -/
theorem EntryFor.not_rwx {e x : Nat} (h : EntryFor e (some x)) : hasFlag e pteRWX = false := by
  have he : e = mkPte (x * pgSize) 0 := h
  rw [← Bool.not_eq_true, he, hasFlag_iff]
  intro hb
  obtain ⟨i, h1, h2⟩ := hb
  have hi : i < 4 := by
    by_contra hge
    rw [Nat.testBit_lt_two_pow (lt_of_lt_of_le (show pteRWX < 2 ^ 4 by decide) (Nat.pow_le_pow_right (by decide) (by omega)))] at h2
    cases h2
  rw [testBit_mkPte (by omega), Nat.zero_testBit] at h1
  have hzero : i = 0 := by
    by_contra hne
    rw [show pteV = 2 ^ 0 from rfl, Nat.testBit_two_pow, decide_eq_false (Ne.symm hne)] at h1
    cases h1
  subst hzero
  cases h2

/-- The loop of `freewalk` over entries whose tables are freed each by itself: `X j` are the pages below entry `j`. -/
theorem freeEntries_spec {free : Phys → Nat → Except Panic Phys} {pg : Nat} {child : Nat → Option Nat} {X : Nat → Set Nat} (n : Nat)
    (hentry : ∀ j < n, EntryFor (w.word pg j) (child j)) (hpg : ∀ j < n, pg ∉ X j)
    (hdisj : ∀ i < n, ∀ j < n, i ≠ j → ∀ y ∈ X i, y ∉ X j)
    (hfree : ∀ j < n, ∀ x, child j = some x → ∀ w1 : Phys, (∀ y ∈ X j, w1.out y = w.out y ∧ w1.word y = w.word y) →
      ∃ w2, free w1 x = .ok w2 ∧ ChangesOnly (X j) w1 w2) : ∃ w', freeEntries free pg n w = .ok w' ∧
      (∀ y, (∀ j < n, y ∉ X j) → w'.out y = w.out y ∧ (y ≠ pg → w'.word y = w.word y)) ∧ ∀ k, n ≤ k → w'.word pg k = w.word pg k := by
  induction n with
  | zero => exact ⟨w, rfl, fun y _ => ⟨rfl, fun _ => rfl⟩, fun k _ => rfl⟩
  | succ n ih =>
    obtain ⟨w1, e1, hrest, hlater⟩ := ih (fun j hj => hentry j (by omega)) (fun j hj => hpg j (by omega))
      (fun i hi j hj => hdisj i (by omega) j (by omega)) (fun j hj => hfree j (by omega))
    have hen := hentry n (by omega)
    rw [← hlater n (le_refl n)] at hen
    unfold freeEntries
    rw [e1, ok_bind]
    cases hc : child n with
    | none =>
      rw [hc] at hen
      have hv : hasFlag (w1.word pg n) pteV = false := hen
      simp only [hv, Bool.false_and, Bool.false_eq_true, if_false]
      exact ⟨w1, rfl, fun y hy => hrest y fun j hj => hy j (by omega), fun k hk => hlater k (by omega)⟩
    | some x =>
      rw [hc] at hen
      obtain ⟨hv, hp⟩ := hen.valid
      have hleaf : hasFlag (w1.word pg n) (pteR ||| pteW ||| pteX) = false := hen.not_rwx
      obtain ⟨w2, e2, hch⟩ := hfree n (by omega) x hc w1 fun y hy => by
        obtain ⟨h1, h2⟩ := hrest y fun j hj => hdisj n (by omega) j (by omega) (by omega) y hy
        exact ⟨h1, h2 fun e => hpg n (by omega) (e ▸ hy)⟩
      simp only [hv, hleaf, Bool.not_false, Bool.and_self, if_true, hp]
      rw [e2]
      refine ⟨_, rfl, fun y hy => ?_, fun k hk => ?_⟩
      · obtain ⟨h1, h2⟩ := hrest y fun j hj => hy j (by omega)
        have hyn := hy n (by omega)
        refine ⟨(hch.out y hyn).trans h1, fun hne => ?_⟩
        rw [set_page _ _ _ _ hne, hch.word y hyn]
        exact h2 hne
      · rw [set_index _ _ _ _ (by omega), hch.word pg (hpg n (by omega))]
        exact hlater k (by omega)

theorem freewalk_level {pg : Nat} (child : Nat → Option Nat) (X : Nat → Set Nat) (depth : Nat) (hout : w.out pg = true)
    (hentry : ∀ j < 512, EntryFor (w.word pg j) (child j)) (hpg : ∀ j < 512, pg ∉ X j)
    (hdisj : ∀ i < 512, ∀ j < 512, i ≠ j → ∀ y ∈ X i, y ∉ X j)
    (hfree : ∀ j < 512, ∀ x, child j = some x → ∀ w1 : Phys, (∀ y ∈ X j, w1.out y = w.out y ∧ w1.word y = w.word y) →
      ∃ w2, Phys.freewalk depth w1 x = .ok w2 ∧ ChangesOnly (X j) w1 w2) :
    ∃ w', Phys.freewalk (depth + 1) w pg = .ok w' ∧ ChangesOnly {y | y = pg ∨ ∃ j < 512, y ∈ X j} w w' := by
  obtain ⟨w1, e1, hrest, -⟩ := freeEntries_spec 512 hentry hpg hdisj hfree
  obtain ⟨w2, e2, hout2, hword2⟩ := kfree_ok (show w1.out pg = true by rw [(hrest pg hpg).1, hout])
  refine ⟨w2, by rw [Phys.freewalk, e1, ok_bind, e2], fun y hy => ?_, fun y hy => ?_⟩
  · rw [hout2, Function.update_of_ne fun e => hy (Or.inl e)]
    exact (hrest y fun j hj hm => hy (Or.inr ⟨j, hj, hm⟩)).1
  · rw [hword2 y fun e => hy (Or.inl e)]
    exact (hrest y fun j hj hm => hy (Or.inr ⟨j, hj, hm⟩)).2 fun e => hy (Or.inl e)

/-- `freewalk` on a page table without leaves frees its tables and nothing else. -/
theorem freewalk_words (h : Spelled own R w pt) (hn : pt.NoLeaf) :
    ∃ w', Phys.freewalk 3 w pt.page = .ok w' ∧ ChangesOnly {x | pt.isTable x} w w' := by
  have hinj : ∀ {b c : Place} {x : Nat}, pt.Holds ∅ b x → pt.Holds ∅ c x → b = c :=
    fun hb hc => h.owned.inj _ _ _ (holds_of_table hb) (holds_of_table hc)
  -- the pages below entry `j` of the table in place `i` of the root, and below entry `i` of the root
  let Low (i j : Nat) : Set Nat := {y | pt.low i j = some y}
  let Mid (i : Nat) : Set Nat := {y | pt.mid i = some y ∨ ∃ j < 512, y ∈ Low i j}
  have hmid : ∀ i < 512, ∀ y ∈ Mid i, pt.Holds ∅ (.mid i) y ∨ ∃ j, pt.Holds ∅ (.low i j) y := by
    intro i hi y hy
    rcases hy with hy | ⟨j, hj, hy⟩
    · exact Or.inl ⟨hi, hy⟩
    · exact Or.inr ⟨j, hi, hj, hy⟩
  have hlive : ∀ {b : Place} {y : Nat}, pt.Holds ∅ b y → w.out y = true := fun hb => h.live ⟨_, hb⟩
  obtain ⟨w', e, hch⟩ := freewalk_level pt.mid Mid 2 (hlive (show pt.Holds ∅ .root pt.page from rfl)) h.mid
    (fun i hi hm => by
      rcases hmid i hi _ hm with hb | ⟨j, hb⟩
      · cases hinj hb (show pt.Holds ∅ .root pt.page from rfl)
      · cases hinj hb (show pt.Holds ∅ .root pt.page from rfl))
    (fun i hi i' hi' hne y hy hy' => by
      rcases hmid i hi y hy with hb | ⟨j, hb⟩ <;> rcases hmid i' hi' y hy' with hb' | ⟨j', hb'⟩ <;> cases hinj hb hb' <;> exact hne rfl)
    (fun i hi t ht w1 hw1 => by
      have htab : pt.Holds ∅ (.mid i) t := ⟨hi, ht⟩
      have htm : t ∈ Mid i := Or.inl ht
      obtain ⟨w2, e2, hch2⟩ := freewalk_level (w := w1) (pt.low i) (Low i) 1
        (by rw [(hw1 t htm).1]; exact hlive htab)
        (fun j hj => by rw [(hw1 t htm).2]; exact h.low i hi t ht j hj)
        (fun j hj hm => by cases hinj (show pt.Holds ∅ (.low i j) t from ⟨hi, hj, hm⟩) htab)
        (fun j hj j' hj' hne y hy hy' => by
          cases hinj (show pt.Holds ∅ (.low i j) y from ⟨hi, hj, hy⟩) (show pt.Holds ∅ (.low i j') y from ⟨hi, hj', hy'⟩)
          exact hne rfl)
        (fun j hj x hx w3 hw3 => by
          -- a table of level 0 has no valid entry
          have hxl : pt.Holds ∅ (.low i j) x := ⟨hi, hj, hx⟩
          have hxm : x ∈ Mid i := Or.inr ⟨j, hj, hx⟩
          obtain ⟨w4, e4, hch4⟩ := freewalk_level (w := w3) (fun _ => none) (fun _ => ∅) 0
            (by rw [(hw3 x hx).1, (hw1 x hxm).1]; exact hlive hxl)
            (fun k hk => by
              rw [(hw3 x hx).2, (hw1 x hxm).2, h.leaf i hi j hj x hx k hk]
              by_contra hv
              exact not_noLeaf_of_leaf hi hj hk (Bool.eq_true_of_not_eq_false hv) hn)
            (fun _ _ => Set.notMem_empty x) (fun _ _ _ _ _ y hy => absurd hy (Set.notMem_empty y)) (fun _ _ _ hx' => nomatch hx')
          refine ⟨w4, e4, fun y hy => hch4.out y fun hm => ?_, fun y hy => hch4.word y fun hm => ?_⟩
          all_goals
            rcases hm with rfl | ⟨_, _, hm⟩
            · exact hy hx
            · exact hm)
      refine ⟨w2, e2, fun y hy => hch2.out y fun hm => ?_, fun y hy => hch2.word y fun hm => ?_⟩
      all_goals
        rcases hm with rfl | ⟨j, hj, hm⟩
        · exact hy htm
        · exact hy (Or.inr ⟨j, hj, hm⟩))
  have htab : ∀ y, y ∈ {y | y = pt.page ∨ ∃ i < 512, y ∈ Mid i} → pt.isTable y := by
    intro y hy
    rcases hy with rfl | ⟨i, hi, hy⟩
    · exact ⟨.root, rfl⟩
    · rcases hmid i hi y hy with hb | ⟨j, hb⟩
      · exact ⟨_, hb⟩
      · exact ⟨_, hb⟩
  exact ⟨w', e, fun y hy => hch.out y fun hm => hy (htab y hm), fun y hy => hch.word y fun hm => hy (htab y hm)⟩

end Freewalk

end Xv6Mmap

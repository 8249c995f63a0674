import Xv6Mmap.PageWords
import Xv6Mmap.Lemmas.Pages

/-!
# The tree that the words of a page table spell

`Spelled own R w pt`: the words `w` spell the tree `pt` of `Vm`, whose pages are its own, none of them in `R`. What the functions of
`vm.c` do to the words is one of the three changes of a tree, so the laws of `Tables` are laws of the words; what the rest of the
kernel has in `R` is not written to.
-/

namespace Xv6Mmap

open Function

namespace Phys

/-- The pages handed out. -/
def Live (w : Phys) (x : Nat) : Prop := w.out x = true

section Writes

variable (w : Phys) (pg i x : Nat)

theorem set_self : (w.set pg i x).word pg i = x := by simp [set]

theorem set_index {j : Nat} (h : j ≠ i) : (w.set pg i x).word pg j = w.word pg j := by simp [set, h]

theorem set_page {y : Nat} (h : y ≠ pg) : (w.set pg i x).word y = w.word y := by simp [set, h]

theorem fill_self (j : Nat) : (w.fill pg x).word pg j = x := by simp [fill]

theorem fill_page {y : Nat} (h : y ≠ pg) : (w.fill pg x).word y = w.word y := by simp [fill, h]

theorem fill_out : (w.fill pg x).out = w.out := rfl

end Writes

/-- What `kalloc` does: nothing but count the call, or hand out a page and fill it with junk. -/
theorem kalloc_cases (A : Allocator) (w : Phys) : (∃ w', kalloc A w = (0, w') ∧ w'.word = w.word ∧ w'.out = w.out) ∨
    ∃ pg w', kalloc A w = (pg * pgSize, w') ∧ A.pick w = some pg ∧ w.out pg = false ∧ pg * pgSize ≠ 0 ∧
      w'.out = update w.out pg true ∧ ∀ y, y ≠ pg → w'.word y = w.word y := by
  cases hp : A.pick w with
  | none =>
    have e : kalloc A w = (0, { w with calls := w.calls + 1 }) := by simp only [kalloc, hp]
    exact Or.inl ⟨_, e, rfl, rfl⟩
  | some pg =>
    obtain ⟨hout, hpos, -⟩ := A.fresh w pg hp
    have e : kalloc A w = (pg * pgSize,
        { w with out := update w.out pg true, calls := w.calls + 1 }.fill pg 0x0505050505050505) := by
      simp only [kalloc, hp]
    refine Or.inr ⟨pg, _, e, rfl, hout, ?_, rfl, fun y hy => fill_page _ _ _ hy⟩
    simp only [pgSize]
    omega

theorem kfree_ok {w : Phys} {pg : Nat} (h : w.out pg = true) :
    ∃ w', w.kfree (pg * pgSize) = .ok w' ∧ w'.out = update w.out pg false ∧ ∀ y, y ≠ pg → w'.word y = w.word y := by
  have hdiv : pg * pgSize / pgSize = pg := Nat.mul_div_cancel _ (by decide)
  refine ⟨{ w with out := update w.out pg false }.fill pg 0x0101010101010101, ?_, rfl, fun y hy => fill_page _ _ _ hy⟩
  rw [kfree, hdiv, if_pos ⟨Nat.mul_mod_left .., h⟩]
  rfl

/-- Pages were handed out, none was taken back, and the pages of `R` keep their words. -/
structure Grows (R : Set Nat) (w w' : Phys) : Prop where
  out : ∀ x, w.out x = true → w'.out x = true
  word : ∀ x ∈ R, w'.word x = w.word x

theorem Grows.trans {R : Set Nat} {w w' w'' : Phys} (h : Grows R w w') (h' : Grows R w' w'') : Grows R w w'' :=
  ⟨fun x hx => h'.out x (h.out x hx), fun x hx => (h'.word x hx).trans (h.word x hx)⟩

end Phys

open Phys

/-- The word of an entry of the upper two levels. -/
def EntryFor (e : Nat) : Option Nat → Prop
  | none => hasFlag e pteV = false
  | some x => e = mkPte (x * pgSize) 0

theorem entryFor_zero : EntryFor 0 none := by simp [EntryFor, hasFlag]

theorem EntryFor.valid {e x : Nat} (h : EntryFor e (some x)) : hasFlag e pteV = true ∧ ptePage e = x := by
  have he : e = mkPte (x * pgSize) 0 := h
  rw [he, hasFlag_mkPte_V, ptePage_mkPte (by decide)]
  exact ⟨rfl, Nat.mul_div_cancel _ (by decide)⟩

/-- The words of `w` spell `pt`, which owns its pages. -/
structure Spelled (own R : Set Nat) (w : Phys) (pt : PageTable) : Prop where
  mid : ∀ i < 512, EntryFor (w.word pt.page i) (pt.mid i)
  low : ∀ i < 512, ∀ x, pt.mid i = some x → ∀ j < 512, EntryFor (w.word x j) (pt.low i j)
  leaf : ∀ i < 512, ∀ j < 512, ∀ x, pt.low i j = some x → ∀ k < 512, w.word x k = pt.leaf i j k
  owned : Owned (pt.Holds own) R w.Live

/-- A page that holds a table of the page table. -/
def PageTable.isTable (pt : PageTable) (x : Nat) : Prop := ∃ b, pt.Holds ∅ b x

section Spelled

variable {own R : Set Nat} {w w' : Phys} {pt pt' : PageTable} {pa pg va : Nat}

theorem low_none_of_mid_none {i : Nat} (h : pt.mid i = none) (j : Nat) : pt.low i j = none := by
  rw [PageTable.low, pt.sub_of_mid_none h]
  rfl

theorem holds_of_table {b : Place} {x : Nat} (h : pt.Holds ∅ b x) : pt.Holds own b x := by
  cases b with
  | leaf va => exact absurd h.1 (Set.notMem_empty va)
  | root | mid i | low i j => exact h

namespace Spelled

variable {t i : Nat}

section

variable (h : Spelled own R w pt)

include h

theorem live {x : Nat} (hx : pt.isTable x) : w.out x = true := by
  obtain ⟨b, hb⟩ := hx
  exact (h.owned.held b x (holds_of_table hb)).1

theorem congr {own' R' : Set Nat} (hword : ∀ x, pt.isTable x → w'.word x = w.word x)
    (ho : Owned (pt.Holds own') R' w'.Live) : Spelled own' R' w' pt where
  mid := by
    intro i hi
    rw [hword pt.page ⟨.root, rfl⟩]
    exact h.mid i hi
  low := by
    intro i hi x hx j hj
    rw [hword x ⟨.mid i, hi, hx⟩]
    exact h.low i hi x hx j hj
  leaf := by
    intro i hi j hj x hx k hk
    rw [hword x ⟨.low i j, hi, hj, hx⟩]
    exact h.leaf i hi j hj x hx k hk
  owned := ho

theorem ne {b c : Place} {x y : Nat} (hb : pt.Holds ∅ b x) (hc : pt.Holds ∅ c y) (hbc : b ≠ c) : x ≠ y := by
  intro e
  subst e
  exact hbc (h.owned.inj b c x (holds_of_table hb) (holds_of_table hc))

/-! ### Looking up -/

/-- `walk` without `alloc` finds the PTE exactly when its tables are there. -/
theorem walkLoop_look (A : Allocator) (va : Nat) : walkLoop A va false 2 w pt.page = (pt.low (px 2 va) (px 1 va), w) := by
  have h2 := px_lt 2 va
  have h1 := px_lt 1 va
  have e2 := h.mid _ h2
  unfold walkLoop walkLevel
  cases hm : pt.mid (px 2 va) with
  | none =>
    rw [hm] at e2
    have e2' : hasFlag (w.word pt.page (px 2 va)) pteV = false := e2
    simp only [e2', Bool.false_eq_true, if_false]
    rw [low_none_of_mid_none hm]
  | some x =>
    rw [hm] at e2
    obtain ⟨hv, hp⟩ := e2.valid
    have e1 := h.low _ h2 x hm _ h1
    simp only [hv, if_true, hp]
    unfold walkLoop walkLevel
    cases hl : pt.low (px 2 va) (px 1 va) with
    | none =>
      rw [hl] at e1
      have e1' : hasFlag (w.word x (px 1 va)) pteV = false := e1
      simp only [e1', Bool.false_eq_true, if_false]
    | some y =>
      rw [hl] at e1
      obtain ⟨hv', hp'⟩ := e1.valid
      simp only [hv', if_true, hp']
      rfl

theorem walk_look (A : Allocator) (hva : va < maxVa) :
    w.walk A pt.page va false = .ok ((pt.low (px 2 va) (px 1 va)).map fun pg => (pg, px 0 va), w) := by
  rw [Phys.walk, if_neg (Nat.not_le.mpr hva), h.walkLoop_look A va]
  rfl

/-- The word behind the pointer that `walk` returns. -/
theorem word_pte (hl : pt.low (px 2 va) (px 1 va) = some pg) : w.word pg (px 0 va) = pt.pte va :=
  h.leaf _ (px_lt 2 va) _ (px_lt 1 va) pg hl _ (px_lt 0 va)

end

/-! ### New tables -/

/-- The words after `walk` made a table in page `pg` and entered it in place `i` of the table in page `t`. -/
structure NewTable (w : Phys) (t i pg : Nat) (w' : Phys) : Prop where
  fresh : w.out pg = false
  out : w'.out = update w.out pg true
  clear : ∀ j, w'.word pg j = 0
  entry : w'.word t i = mkPte (pg * pgSize) 0
  others : ∀ j, j ≠ i → w'.word t j = w.word t j
  pages : ∀ y, y ≠ pg → y ≠ t → w'.word y = w.word y

/-- A missing table: `kalloc` fails and nothing changes, or the table is made. -/
theorem walkLevel_new (A : Allocator) (ht : w.out t = true) (hv : hasFlag (w.word t i) pteV = false) :
    (∃ w', walkLevel A w t i true = (none, w') ∧ w'.word = w.word ∧ w'.out = w.out) ∨
    ∃ pg w', walkLevel A w t i true = (some pg, w') ∧ NewTable w t i pg w' := by
  unfold walkLevel
  simp only [hv, Bool.false_eq_true, if_false, if_true]
  rcases kalloc_cases A w with ⟨w1, e, hw, ho⟩ | ⟨pg, w1, e, -, hout, hne, ho, hw⟩
  · rw [e]
    exact Or.inl ⟨w1, rfl, hw, ho⟩
  rw [e]
  have htp : t ≠ pg := by
    intro e'
    rw [e', hout] at ht
    cases ht
  simp only [if_neg hne, Nat.mul_div_cancel pg (show 0 < pgSize by decide)]
  refine Or.inr ⟨pg, _, rfl, hout, ho, fun j => ?_, ?_, fun j hj => ?_, fun y hy hyt => ?_⟩
  · rw [set_page _ _ _ _ htp.symm, fill_self]
  · rw [set_self, mkPte, Nat.or_zero]
  · rw [set_index _ _ _ _ hj, fill_page _ _ _ htp, hw t htp]
  · rw [set_page _ _ _ _ hyt, fill_page _ _ _ hy, hw y hy]

theorem NewTable.live (h : NewTable w t i pg w') (y : Nat) : w'.Live y ↔ w.Live y ∨ y = pg := by
  rw [Live, Live, h.out]
  by_cases hy : y = pg
  · subst hy
    simp
  · simp [hy]

theorem NewTable.owned (h : NewTable w t i pg w') (ho : Owned (pt.Holds own) R w.Live) :
    Owned (pt.Holds own) (insert pg R) w'.Live ∧ pg ∉ R := by
  have hnot : ¬w.Live pg := by
    rw [Live, h.fresh]
    exact Bool.false_ne_true
  exact ⟨ho.alloc hnot h.live, fun hm => hnot (ho.rest pg hm)⟩

theorem NewTable.grows (h : NewTable w t i pg w') (hs : Spelled own R w pt) (ht : pt.isTable t) : Grows R w w' := by
  refine ⟨fun x hx => (h.live x).mpr (Or.inl hx), fun x hx => h.pages x ?_ ?_⟩
  · intro e
    exact (h.owned hs.owned).2 (e ▸ hx)
  · intro e
    obtain ⟨b, hb⟩ := ht
    exact hs.owned.not_mem (holds_of_table hb) (e ▸ hx)

theorem addTable1 (h : Spelled own R w pt) (hm : pt.mid i = none) (hn : NewTable w pt.page i pg w') :
    Spelled own R w' (pt.addTable1 i pg) := by
  -- a page of the old table is neither the new page nor, below the root, the page written to
  have hold : ∀ {b : Place} {x : Nat}, pt.Holds ∅ b x → b ≠ .root → w'.word x = w.word x := by
    intro b x hb hne
    refine hn.pages x (fun e => ?_) (h.ne hb (show pt.Holds ∅ .root pt.page from rfl) hne)
    have := h.live ⟨b, hb⟩
    rw [e, hn.fresh] at this
    cases this
  refine ⟨fun i' hi' => ?_, fun i' hi' x hx j hj => ?_, fun i' hi' j hj x hx k hk => ?_, ?_⟩
  · rw [pt.mid_addTable1]
    by_cases e : i' = i
    · rw [if_pos e, e]
      exact hn.entry
    · rw [if_neg e, show (pt.addTable1 i pg).page = pt.page from rfl, hn.others i' e]
      exact h.mid i' hi'
  · rw [pt.low_addTable1 hm]
    rw [pt.mid_addTable1] at hx
    by_cases e : i' = i
    · rw [if_pos e] at hx
      cases hx
      rw [e, low_none_of_mid_none hm, hn.clear]
      exact entryFor_zero
    · rw [if_neg e] at hx
      rw [hold (b := .mid i') ⟨hi', hx⟩ Place.noConfusion]
      exact h.low i' hi' x hx j hj
  · rw [pt.low_addTable1 hm] at hx
    rw [pt.leaf_addTable1 hm, hold (b := .low i' j) ⟨hi', hj, hx⟩ Place.noConfusion]
    exact h.leaf i' hi' j hj x hx k hk
  · obtain ⟨ho, hpg⟩ := hn.owned h.owned
    exact ho.put hpg (holds_addTable1 hm)

theorem addTable0 (h : Spelled own R w pt) {j : Nat} (hi : i < 512) (hj : j < 512) (hm : pt.mid i = some t)
    (hl : pt.low i j = none) (hn : NewTable w t j pg w') : Spelled own R w' (pt.addTable0 i j pg) := by
  have hms : (pt.mid i).isSome = true := by
    rw [hm]
    rfl
  have hold : ∀ {b : Place} {x : Nat}, pt.Holds ∅ b x → b ≠ .mid i → w'.word x = w.word x := by
    intro b x hb hne
    refine hn.pages x (fun e => ?_) (h.ne hb (show pt.Holds ∅ (.mid i) t from ⟨hi, hm⟩) hne)
    have := h.live ⟨b, hb⟩
    rw [e, hn.fresh] at this
    cases this
  refine ⟨fun i' hi' => ?_, fun i' hi' x hx j' hj' => ?_, fun i' hi' j' hj' x hx k hk => ?_, ?_⟩
  · rw [pt.mid_addTable0, show (pt.addTable0 i j pg).page = pt.page from rfl,
      hold (show pt.Holds ∅ .root pt.page from rfl) Place.noConfusion]
    exact h.mid i' hi'
  · rw [pt.mid_addTable0] at hx
    rw [pt.low_addTable0 hms]
    by_cases e : i' = i
    · subst e
      rw [hm] at hx
      cases hx
      by_cases e' : j' = j
      · rw [if_pos ⟨rfl, e'⟩, e']
        exact hn.entry
      · rw [if_neg fun c => e' c.2, hn.others j' e']
        exact h.low i' hi' t hm j' hj'
    · rw [if_neg fun c => e c.1, hold (b := .mid i') ⟨hi', hx⟩ (by simpa using e)]
      exact h.low i' hi' x hx j' hj'
  · rw [pt.low_addTable0 hms] at hx
    rw [pt.leaf_addTable0 hl]
    by_cases e : i' = i ∧ j' = j
    · rw [if_pos e] at hx
      cases hx
      obtain ⟨rfl, rfl⟩ := e
      have hz : pt.leaf i' j' k = 0 := by
        unfold PageTable.leaf
        cases hs : pt.sub i' with
        | none => rfl
        | some t1 =>
          have : t1.sub j' = none := by simpa [PageTable.low, hs] using hl
          simp [this]
      rw [hn.clear, hz]
    · rw [if_neg e] at hx
      rw [hold (b := .low i' j') ⟨hi', hj', hx⟩ Place.noConfusion]
      exact h.leaf i' hi' j' hj' x hx k hk
  · obtain ⟨ho, hpg⟩ := hn.owned h.owned
    exact ho.put hpg (holds_addTable0 hms hl)

end Spelled

/-- What `walk` with `alloc` does: tables were added, and the rest of the memory is as it was. -/
structure WalkGrows (own R : Set Nat) (w : Phys) (pt : PageTable) (w' : Phys) (pt' : PageTable) : Prop where
  spelled : Spelled own R w' pt'
  grown : Grown pt pt'
  grows : Grows R w w'

namespace Spelled

theorem hasTable_of_low (hl : pt.low (px 2 va) (px 1 va) = some pg) : pt.hasTable va = true := by
  rw [PageTable.hasTable, hl]
  rfl

section

variable (h : Spelled own R w pt)

include h

theorem walkGrows_same (hword : w'.word = w.word) (hout : w'.out = w.out) : WalkGrows own R w pt w' pt := by
  have hlive : w'.Live = w.Live := by
    funext x
    rw [Live, Live, hout]
  refine ⟨h.congr (fun x _ => by rw [hword]) (by rw [hlive]; exact h.owned), Grown.refl pt, fun x hx => ?_, fun x _ => by rw [hword]⟩
  rw [hout]
  exact hx

theorem walkLevel_mid (A : Allocator) {i : Nat} (hi : i < 512) :
    ∃ r w' pt', walkLevel A w pt.page i true = (r, w') ∧ WalkGrows own R w pt w' pt' ∧ (r ≠ none → pt'.mid i = r) := by
  have e := h.mid i hi
  cases hm : pt.mid i with
  | none =>
    rw [hm] at e
    rcases walkLevel_new A (h.live ⟨.root, rfl⟩) e with ⟨w', e', hw, ho⟩ | ⟨pg, w', e', hn⟩
    · exact ⟨none, w', pt, e', h.walkGrows_same hw ho, fun hne => absurd rfl hne⟩
    · refine ⟨some pg, w', pt.addTable1 i pg, e', ⟨h.addTable1 hm hn, grown_addTable1 hm pg, hn.grows h ⟨.root, rfl⟩⟩, fun _ => ?_⟩
      rw [pt.mid_addTable1, if_pos rfl]
  | some x =>
    rw [hm] at e
    obtain ⟨hv, hp⟩ := e.valid
    refine ⟨some x, w, pt, ?_, h.walkGrows_same rfl rfl, fun _ => hm⟩
    simp only [walkLevel, hv, if_true, hp]

theorem walkLevel_low (A : Allocator) {i j t : Nat} (hi : i < 512) (hj : j < 512) (hm : pt.mid i = some t) :
    ∃ r w' pt', walkLevel A w t j true = (r, w') ∧ WalkGrows own R w pt w' pt' ∧ (r ≠ none → pt'.low i j = r) := by
  have e := h.low i hi t hm j hj
  have ht : pt.isTable t := ⟨.mid i, hi, hm⟩
  cases hl : pt.low i j with
  | none =>
    rw [hl] at e
    rcases walkLevel_new A (h.live ht) e with ⟨w', e', hw, ho⟩ | ⟨pg, w', e', hn⟩
    · exact ⟨none, w', pt, e', h.walkGrows_same hw ho, fun hne => absurd rfl hne⟩
    have hms : (pt.mid i).isSome = true := by
      rw [hm]
      rfl
    refine ⟨some pg, w', pt.addTable0 i j pg, e', ⟨h.addTable0 hi hj hm hl hn, grown_addTable0 hms hl pg, hn.grows h ht⟩, fun _ => ?_⟩
    rw [pt.low_addTable0 hms, if_pos ⟨rfl, rfl⟩]
  | some x =>
    rw [hl] at e
    obtain ⟨hv, hp⟩ := e.valid
    refine ⟨some x, w, pt, ?_, h.walkGrows_same rfl rfl, fun _ => hl⟩
    simp only [walkLevel, hv, if_true, hp]

/-- `walk` with `alloc`: the tables on the way are there afterwards, or `kalloc` failed. -/
theorem walk_alloc (A : Allocator) (hva : va < maxVa) :
    ∃ r w' pt', w.walk A pt.page va true = .ok (r.map fun pg => (pg, px 0 va), w') ∧ WalkGrows own R w pt w' pt' ∧
      (r ≠ none → pt'.low (px 2 va) (px 1 va) = r) := by
  rw [Phys.walk, if_neg (Nat.not_le.mpr hva)]
  obtain ⟨r1, w1, pt1, e1, hg1, hm⟩ := h.walkLevel_mid A (px_lt 2 va)
  simp only [walkLoop, e1]
  cases r1 with
  | none => exact ⟨none, w1, pt1, rfl, hg1, fun hne => absurd rfl hne⟩
  | some t =>
    have hmid : pt1.mid (px 2 va) = some t := hm (Option.some_ne_none t)
    obtain ⟨r2, w2, pt2, e2, hg2, hl⟩ := hg1.spelled.walkLevel_low A (px_lt 2 va) (px_lt 1 va) hmid
    simp only [e2]
    have hg : WalkGrows own R w pt w2 pt2 := ⟨hg2.spelled, hg1.grown.trans hg2.grown, hg1.grows.trans hg2.grows⟩
    cases r2 with
    | none => exact ⟨none, w2, pt2, rfl, hg, fun hne => absurd rfl hne⟩
    | some pg => exact ⟨some pg, w2, pt2, rfl, hg, hl⟩

/-! ### Writing a PTE -/

/-- A PTE written through the pointer that `walk` returned, with the ownership that comes of it. -/
theorem write {own' R' : Set Nat} (x : Nat) (hl : pt.low (px 2 va) (px 1 va) = some pg)
    (ho : Owned ((pt.setPte va x).Holds own') R' w.Live) : Spelled own' R' (w.set pg (px 0 va) x) (pt.setPte va x) := by
  have h2 := px_lt 2 va
  have h1 := px_lt 1 va
  have hpg : pt.Holds ∅ (.low (px 2 va) (px 1 va)) pg := ⟨h2, h1, hl⟩
  have hls : (pt.low (px 2 va) (px 1 va)).isSome = true := hasTable_of_low hl
  have hold : ∀ {b : Place} {y : Nat}, pt.Holds ∅ b y → b ≠ .low (px 2 va) (px 1 va) →
      (w.set pg (px 0 va) x).word y = w.word y :=
    fun hb hne => set_page _ _ _ _ (h.ne hb hpg hne)
  refine ⟨fun i hi => ?_, fun i hi y hy j hj => ?_, fun i hi j hj y hy k hk => ?_, ho⟩
  · rw [pt.mid_setPte, pt.page_setPte, hold (show pt.Holds ∅ .root pt.page from rfl) Place.noConfusion]
    exact h.mid i hi
  · rw [pt.mid_setPte] at hy
    rw [pt.low_setPte, hold (b := .mid i) ⟨hi, hy⟩ Place.noConfusion]
    exact h.low i hi y hy j hj
  · rw [pt.low_setPte] at hy
    rw [PageTable.setPte, pt.leaf_setLeaf hls]
    by_cases e : i = px 2 va ∧ j = px 1 va
    · obtain ⟨rfl, rfl⟩ := e
      rw [hl] at hy
      cases hy
      by_cases e' : k = px 0 va
      · rw [if_pos ⟨rfl, rfl, e'⟩, e', set_self]
      · rw [if_neg fun c => e' c.2.2, set_index _ _ _ _ e']
        exact h.leaf _ h2 _ h1 pg hl k hk
    · rw [if_neg fun c => e ⟨c.1, c.2.1⟩]
      rw [hold (b := .low i j) ⟨hi, hj, hy⟩ (by simpa using fun c c' => e ⟨c, c'⟩)]
      exact h.leaf i hi j hj y hy k hk

theorem write_other (x : Nat) (hva : PageAddr va) (hown : va ∉ own)
    (hl : pt.low (px 2 va) (px 1 va) = some pg) : Spelled own R (w.set pg (px 0 va) x) (pt.setPte va x) := by
  refine h.write x hl (h.owned.mono fun b y hb => ?_)
  rcases holds_setPte (hasTable_of_low hl) hva b y hb with ⟨hb', -⟩ | ⟨-, -, ho, -⟩
  · exact hb'
  · exact absurd ho hown

theorem set_rest (x : Nat) (hl : pt.low (px 2 va) (px 1 va) = some pg) :
    Grows R w (w.set pg (px 0 va) x) := by
  refine ⟨fun _ hx => hx, fun y hy => set_page _ _ _ _ ?_⟩
  intro e
  have hpg : pt.Holds own (.low (px 2 va) (px 1 va)) pg := ⟨px_lt 2 va, px_lt 1 va, hl⟩
  exact h.owned.not_mem hpg (e ▸ hy)

theorem write_flags {x : Nat} (hva : PageAddr va) (hm : pt.mapped va = true)
    (hl : pt.low (px 2 va) (px 1 va) = some pg) (hx : ptePage x = ptePage (pt.pte va)) :
    Spelled own R (w.set pg (px 0 va) x) (pt.setPte va x) := by
  refine h.write x hl (h.owned.mono fun b y hb => ?_)
  rcases holds_setPte (hasTable_of_low hl) hva b y hb with ⟨hb', -⟩ | ⟨rfl, rfl, ho, -⟩
  · exact hb'
  · exact ⟨ho, hva, hm, hx⟩

/-- The page behind a PTE counts as in hand: the PTE is about to be cleared. -/
theorem take (hva : PageAddr va) (hown : va ∈ own) (hm : pt.mapped va = true) :
    Spelled (own \ {va}) (insert (ptePage (pt.pte va)) R) w pt ∧ ptePage (pt.pte va) ∉ R := by
  have hold : pt.Holds own (.leaf va) (ptePage (pt.pte va)) := ⟨hown, hva, hm, rfl⟩
  refine ⟨h.congr (fun _ _ => rfl) (h.owned.take hold fun b y hb => ?_), h.owned.not_mem hold⟩
  cases b with
  | root | mid i | low i j => exact ⟨hb, Place.noConfusion⟩
  | leaf v => exact ⟨⟨hb.1.1, hb.2⟩, fun e => hb.1.2 (Place.leaf.inj e)⟩

/-! ### The allocator -/

theorem alloc_hand (hout : w.out pg = false)
    (ho : w'.out = update w.out pg true) (hword : ∀ y, y ≠ pg → w'.word y = w.word y) : Spelled own (insert pg R) w' pt ∧ pg ∉ R := by
  have hnot : ¬w.Live pg := by
    rw [Live, hout]
    exact Bool.false_ne_true
  have hlive : ∀ y, w'.Live y ↔ w.Live y ∨ y = pg := by
    intro y
    rw [Live, Live, ho]
    by_cases hy : y = pg
    · subst hy
      simp
    · simp [hy]
  refine ⟨h.congr (fun x hx => hword x fun e => ?_) (h.owned.alloc hnot hlive), fun hm => hnot (h.owned.rest pg hm)⟩
  have := h.live hx
  rw [e, hout] at this
  cases this

theorem write_hand (hpg : pg ∈ R) (hword : ∀ y, y ≠ pg → w'.word y = w.word y)
    (hout : w'.out = w.out) : Spelled own R w' pt := by
  have hlive : w'.Live = w.Live := by
    funext x
    rw [Live, Live, hout]
  refine h.congr (fun x hx => hword x fun e => ?_) (by rw [hlive]; exact h.owned)
  obtain ⟨b, hb⟩ := hx
  exact h.owned.not_mem (holds_of_table hb) (e ▸ hpg)

/-! ### One page -/

theorem mapLoop_round (A : Allocator) (hlt : va < maxVa) (hfree : pt.mapped va = false)
    (pa perm last n : Nat) :
    ∃ w1 pt1, WalkGrows own R w pt w1 pt1 ∧ (Phys.mapLoop A pt.page perm last (n + 1) w va pa = .ok (false, w1) ∨
      ∃ pg, pt1.low (px 2 va) (px 1 va) = some pg ∧ Phys.mapLoop A pt.page perm last (n + 1) w va pa =
        if va = last then .ok (true, w1.set pg (px 0 va) (mkPte pa perm))
        else Phys.mapLoop A pt.page perm last n (w1.set pg (px 0 va) (mkPte pa perm)) (va + pgSize) (pa + pgSize)) := by
  obtain ⟨r, w1, pt1, e, hg, hl⟩ := h.walk_alloc A hlt
  refine ⟨w1, pt1, hg, ?_⟩
  rw [Phys.mapLoop, e, ok_bind]
  cases r with
  | none => exact Or.inl rfl
  | some pg =>
    have hlow := hl (Option.some_ne_none pg)
    have hv : hasFlag (w1.word pg (px 0 va)) pteV = false := by
      rw [hg.spelled.word_pte hlow, hg.grown.pte]
      exact hfree
    refine Or.inr ⟨pg, hlow, ?_⟩
    simp only [Option.map_some, hv, Bool.false_eq_true, if_false]
    rfl

/-- `mappages` of one page that is not mapped: tables are made on the way, and then `kalloc` has failed or the PTE is written. -/
theorem mappages_one (A : Allocator) (hal : va % pgSize = 0) (hlt : va < maxVa)
    (hfree : pt.mapped va = false) (pa perm : Nat) :
    ∃ w1 pt1, WalkGrows own R w pt w1 pt1 ∧ (w.mappages A pt.page va pgSize pa perm = .ok (false, w1) ∨
      ∃ pg, pt1.low (px 2 va) (px 1 va) = some pg ∧
        w.mappages A pt.page va pgSize pa perm = .ok (true, w1.set pg (px 0 va) (mkPte pa perm))) := by
  have hlast : pgRoundDown ((va + pgSize - 1) % 2 ^ 64) = va := by
    simp only [pgRoundDown, pgSize, maxVa] at *
    omega
  have hround := h.mapLoop_round A hlt hfree pa perm va (maxVa / pgSize)
  simp only [if_true] at hround
  rw [Phys.mappages, hlast, pgRoundDown_of_aligned hal]
  exact hround

theorem unmapLoop_round (A : Allocator) (doFree : Bool) (n : Nat) {a : Nat} (hlt : a < maxVa)
    (hm : pt.mapped a = true) (hleaf : pteFlags (pt.pte a) ≠ pteV) (hl : pt.low (px 2 a) (px 1 a) = some pg) :
    Phys.unmapLoop A pt.page doFree (n + 1) w a = ((if doFree = true then w.kfree (pte2pa (pt.pte a)) else pure w) >>= fun w' =>
        Phys.unmapLoop A pt.page doFree n (w'.set pg (px 0 a) 0) (a + pgSize)) := by
  have hv : hasFlag (pt.pte a) pteV = true := hm
  rw [Phys.unmapLoop, h.walk_look A hlt, hl, ok_bind]
  simp only [Option.map_some, h.word_pte hl, hv, Bool.not_true, Bool.false_eq_true, if_false, if_neg hleaf]

end

/-! ### Pages in hand -/

theorem write_put (h : Spelled own (insert pa R) w pt) {x : Nat} (hpa : pa ∉ R) (hva : PageAddr va)
    (hl : pt.low (px 2 va) (px 1 va) = some pg) (hx : ptePage x = pa) : Spelled own R (w.set pg (px 0 va) x) (pt.setPte va x) := by
  refine h.write x hl (h.owned.put (a := .leaf va) hpa fun b y hb => ?_)
  rcases holds_setPte (hasTable_of_low hl) hva b y hb with ⟨hb', -⟩ | ⟨rfl, rfl, -, -⟩
  · exact Or.inl hb'
  · exact Or.inr ⟨rfl, hx⟩

theorem write_taken (h : Spelled (own \ {va}) R w pt) (hva : PageAddr va) (hl : pt.low (px 2 va) (px 1 va) = some pg) :
    Spelled own R (w.set pg (px 0 va) 0) (pt.setPte va 0) := by
  refine h.write 0 hl (h.owned.mono fun b y hb => ?_)
  rcases holds_setPte (hasTable_of_low hl) hva b y hb with ⟨hb', hne⟩ | ⟨-, -, -, hv⟩
  · cases b with
    | root | mid i | low i j => exact hb'
    | leaf v => exact ⟨⟨hb'.1, fun e => hne (by rw [e])⟩, hb'.2⟩
  · simp [hasFlag] at hv

theorem kfree_hand (h : Spelled own (insert pg R) w pt) (hpg : pg ∉ R) :
    ∃ w', w.kfree (pg * pgSize) = .ok w' ∧ Spelled own R w' pt ∧ ∀ x, x ≠ pg → w'.word x = w.word x := by
  obtain ⟨w', e, hout, hword⟩ := kfree_ok (h.owned.rest pg (Set.mem_insert ..))
  refine ⟨w', e, h.congr (fun x hx => hword x fun e' => ?_) (h.owned.free hpg fun y => ?_), hword⟩
  · obtain ⟨b, hb⟩ := hx
    exact h.owned.not_mem (holds_of_table hb) (e' ▸ Set.mem_insert ..)
  rw [Live, Live, hout]
  by_cases hy : y = pg
  · subst hy
    simp
  · simp [hy]

theorem low_of_mapped (hm : pt.mapped va = true) : ∃ pg, pt.low (px 2 va) (px 1 va) = some pg := by
  have ht := pt.hasTable_of_mapped hm
  exact Option.isSome_iff_exists.mp ht

end Spelled

/-! ### A new page table -/

theorem holds_new {root : Nat} {b : Place} {x : Nat} (h : (⟨root, fun _ => none⟩ : PageTable).Holds own b x) : b = .root ∧ x = root := by
  cases b with
  | root => exact ⟨rfl, h⟩
  | mid i => cases h.2
  | low i j => cases h.2.2
  | leaf va =>
    have hm : hasFlag 0 pteV = true := h.2.2.1
    simp [hasFlag] at hm

/-- `uvmcreate` makes an empty page table in a page that was not handed out. -/
theorem uvmcreate_spec {A : Allocator} {w0 : Phys} {root : Nat} (hR : ∀ x ∈ R, w0.out x = true)
    (h : w0.uvmcreate A = (some root, w)) : Spelled own R w ⟨root, fun _ => none⟩ ∧ Grows R w0 w ∧ A.pick w0 = some root := by
  rw [Phys.uvmcreate] at h
  rcases kalloc_cases A w0 with ⟨w1, e, -, -⟩ | ⟨pg, w1, e, hpick, hfresh, hne, hout, hword⟩
  · rw [e] at h
    cases h
  rw [e] at h
  simp only [if_neg hne, Nat.mul_div_cancel pg (show 0 < pgSize by decide)] at h
  cases h
  have hnot : ∀ x ∈ R, x ≠ root := by
    intro x hx e'
    have := hR x hx
    rw [e', hfresh] at this
    cases this
  have hlive : ∀ x, w0.out x = true → w1.out x = true := by
    intro x hx
    rw [hout]
    by_cases e' : x = root
    · rw [e', update_self]
    · rw [update_of_ne e']
      exact hx
  refine ⟨⟨fun i _ => ?_, fun _ _ _ hx => ?_, fun _ _ _ _ _ hx => ?_, fun b x hx => ?_, fun b c x hb hc => ?_, fun x hx => ?_⟩,
    ⟨hlive, fun x hx => ?_⟩, hpick⟩
  · rw [fill_self]
    exact entryFor_zero
  · cases hx
  · cases hx
  · obtain ⟨-, rfl⟩ := holds_new hx
    refine ⟨?_, fun hm => hnot x hm rfl⟩
    rw [Live, fill_out, hout, update_self]
  · rw [(holds_new hb).1, (holds_new hc).1]
  · exact hlive x (hR x hx)
  · rw [fill_page _ _ _ (hnot x hx), hword x (hnot x hx)]

end Spelled

end Xv6Mmap

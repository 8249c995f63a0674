import Xv6Mmap.Lib.Owned
import Xv6Mmap.Lemmas.Tables

/-!
# Which pages a page table holds

A page table holds its own page, its table pages of the two lower levels, and the pages its valid PTEs name. `own` is the set of virtual
pages whose PTE names a page of the table's own; the trampoline, which every process shares, is not in it.
-/

namespace Xv6Mmap

/-- The places of a page table that hold a physical page. -/
inductive Place where
  | root
  | mid (i : Nat)
  | low (i j : Nat)
  | leaf (va : Nat)
  deriving DecidableEq

/-- The page a place of a page table holds. -/
def PageTable.Holds (own : Set Nat) (pt : PageTable) : Place → Nat → Prop
  | .root, x => x = pt.page
  | .mid i, x => i < 512 ∧ pt.mid i = some x
  | .low i j, x => i < 512 ∧ j < 512 ∧ pt.low i j = some x
  | .leaf va, x => va ∈ own ∧ PageAddr va ∧ pt.mapped va = true ∧ x = ptePage (pt.pte va)

/-! ## What a change does to the places -/

section Changes

variable {own : Set Nat} {pt : PageTable}

theorem holds_addTable1 {i pg : Nat} (h : pt.mid i = none) (b : Place) (y : Nat)
    (hb : (pt.addTable1 i pg).Holds own b y) : pt.Holds own b y ∨ b = .mid i ∧ y = pg := by
  have hg := grown_addTable1 h pg
  cases b with
  | root => exact Or.inl hb
  | mid i' =>
    simp only [PageTable.Holds, pt.mid_addTable1] at hb ⊢
    by_cases hi : i' = i
    · subst hi
      rw [if_pos rfl] at hb
      exact Or.inr ⟨rfl, (Option.some.inj hb.2).symm⟩
    · rw [if_neg hi] at hb
      exact Or.inl hb
  | low i' j => exact Or.inl (by simpa only [PageTable.Holds, pt.low_addTable1 h] using hb)
  | leaf va => exact Or.inl (by simpa only [PageTable.Holds, hg.mapped, hg.pte] using hb)

theorem holds_addTable0 {i j pg : Nat} (hm : (pt.mid i).isSome = true) (h : pt.low i j = none) (b : Place) (y : Nat)
    (hb : (pt.addTable0 i j pg).Holds own b y) : pt.Holds own b y ∨ b = .low i j ∧ y = pg := by
  have hg := grown_addTable0 hm h pg
  cases b with
  | root => exact Or.inl hb
  | mid i' => exact Or.inl (by simpa only [PageTable.Holds, pt.mid_addTable0] using hb)
  | low i' j' =>
    simp only [PageTable.Holds, pt.low_addTable0 hm] at hb ⊢
    by_cases hi : i' = i ∧ j' = j
    · rw [if_pos hi] at hb
      exact Or.inr ⟨by rw [hi.1, hi.2], (Option.some.inj hb.2.2).symm⟩
    · rw [if_neg hi] at hb
      exact Or.inl hb
  | leaf va => exact Or.inl (by simpa only [PageTable.Holds, hg.mapped, hg.pte] using hb)

/-- A PTE written: the other places hold what they held, and the place of the PTE holds the page the new PTE names. -/
theorem holds_setPte {a x : Nat} (ht : pt.hasTable a = true) (ha : PageAddr a) (b : Place) (y : Nat)
    (hb : (pt.setPte a x).Holds own b y) :
    pt.Holds own b y ∧ b ≠ .leaf a ∨ b = .leaf a ∧ y = ptePage x ∧ a ∈ own ∧ hasFlag x pteV = true := by
  cases b with
  | root => exact Or.inl ⟨hb, by simp⟩
  | mid i => exact Or.inl ⟨by simpa only [PageTable.Holds, pt.mid_setPte] using hb, by simp⟩
  | low i j => exact Or.inl ⟨by simpa only [PageTable.Holds, pt.low_setPte] using hb, by simp⟩
  | leaf va =>
    obtain ⟨ho, hv, hm, rfl⟩ := hb
    rw [PageTable.mapped, pt.pte_setPte ht ha hv] at hm
    rw [pt.pte_setPte ht ha hv]
    by_cases hva : va = a
    · subst hva
      rw [if_pos rfl] at hm ⊢
      exact Or.inr ⟨rfl, rfl, ho, hm⟩
    · rw [if_neg hva] at hm ⊢
      exact Or.inl ⟨⟨ho, hv, hm, rfl⟩, by simpa using hva⟩

end Changes

/-! ## `walk` -/

section Walk

variable {Λ : Layout} {pt : PageTable} {m : Mem}

theorem walk_look (Λ : Layout) (pt : PageTable) (m : Mem) {va : Nat} (hva : va < maxVa) :
    walk Λ pt m va false = .ok (pt.hasTable va, pt, m) := by
  unfold walk walkLevel2 walkLevel1
  rw [if_neg (Nat.not_le.mpr hva)]
  cases hm : pt.mid (px 2 va) with
  | none =>
    have hl : pt.low (px 2 va) (px 1 va) = none := by
      rw [PageTable.low, pt.sub_of_mid_none hm]
      rfl
    simp [PageTable.hasTable, hl]
    rfl
  | some pg =>
    cases hl : pt.low (px 2 va) (px 1 va) <;> simp [PageTable.hasTable, hl] <;> rfl

theorem walk_panic (Λ : Layout) (pt : PageTable) (m : Mem) {va : Nat} (hva : maxVa ≤ va) (alloc : Bool) :
    walk Λ pt m va alloc = .error .walk := by
  rw [walk, if_pos hva]
  rfl

end Walk

/-! ## Ranges of pages -/

/-- The `n` pages from `a` on. -/
def pagesFrom (a n : Nat) : Set Nat := {w | ∃ i < n, w = a + i * pgSize}

theorem pagesFrom_zero (a : Nat) : pagesFrom a 0 = ∅ := by
  simp [pagesFrom]

theorem pagesFrom_succ (a n : Nat) : pagesFrom a (n + 1) = {a} ∪ pagesFrom (a + pgSize) n := by
  ext w
  simp only [pagesFrom, Set.mem_ofPred_eq, Set.mem_union, Set.mem_singleton_iff, pgSize]
  constructor
  · rintro ⟨i, hi, rfl⟩
    cases i with
    | zero => exact Or.inl (by omega)
    | succ i => exact Or.inr ⟨i, by omega, by omega⟩
  · rintro (rfl | ⟨i, hi, rfl⟩)
    · exact ⟨0, by omega, by omega⟩
    · exact ⟨i + 1, by omega, by omega⟩

theorem ite_pages_succ {β : Type} {a n v : Nat} {x f g y : β} (ha : a % pgSize = 0) (hv : v % pgSize = 0)
    (hx : a + pgSize ≤ v → x = g) (hf : v = a → f = g) :
    (if a + pgSize ≤ v ∧ v < a + pgSize + n * pgSize then x else if v = a then f else y) =
      if a ≤ v ∧ v < a + (n + 1) * pgSize then g else y := by
  by_cases e : v = a
  · rw [if_neg (by simp only [pgSize]; omega), if_pos e, hf e, if_pos (by simp only [pgSize]; omega)]
  · rw [if_neg e]
    by_cases hin : a + pgSize ≤ v ∧ v < a + pgSize + n * pgSize
    · rw [if_pos hin, hx hin.1, if_pos (by simp only [pgSize] at *; omega)]
    · rw [if_neg hin, if_neg (by simp only [pgSize] at *; omega)]

theorem mem_pagesFrom {a n w : Nat} (ha : a % pgSize = 0) : w ∈ pagesFrom a n ↔ w % pgSize = 0 ∧ a ≤ w ∧ w < a + n * pgSize := by
  simp only [pagesFrom, Set.mem_ofPred_eq, pgSize] at *
  constructor
  · omega
  · rintro ⟨h1, h2, h3⟩
    exact ⟨(w - a) / 4096, by omega, by omega⟩

theorem pagesFrom_one (a : Nat) : pagesFrom a 1 = {a} := by
  rw [pagesFrom_succ, pagesFrom_zero, Set.union_empty]

theorem hasFlag_mkPte_V (pa perm : Nat) : hasFlag (mkPte pa perm) pteV = true := by
  rw [show pteV = 2 ^ 0 from rfl, hasFlag_two_pow, testBit_mkPte (by decide)]
  simp

theorem pteFlags_lt (pte : Nat) : pteFlags pte < 1024 := by
  rw [pteFlags, show (0x3FF : Nat) = 2 ^ 10 - 1 from rfl, Nat.and_two_pow_sub_one_eq_mod]
  exact Nat.mod_lt _ (by decide)

/-- The loop of `freewalk` over a level-0 table passes when no entry is valid. -/
theorem freeLeaves_spec (pte : Nat → Nat) (n : Nat) : Ends (freeLeaves pte n) (fun _ => ∀ k < n, hasFlag (pte k) pteV = false)
      (fun _ => ∃ k < n, hasFlag (pte k) pteV = true) := by
  induction n with
  | zero => exact ends_pure fun k hk => absurd hk (Nat.not_lt_zero k)
  | succ n ih =>
    refine ends_bind (ends_mono ih (fun _ h => h) ?_) ?_
    · rintro _ ⟨k, hk, hv⟩
      exact ⟨k, by omega, hv⟩
    intro _ hall
    refine ends_ite (fun hv => ends_pure fun k hk => ?_) fun hv => ?_
    · by_cases hkn : k = n
      · subst hkn
        simpa using hv
      · exact hall k (by omega)
    · have hvn : ∃ k < n + 1, hasFlag (pte k) pteV = true := ⟨n, by omega, by simpa using hv⟩
      exact ends_ite (fun _ => ends_throw hvn) fun _ => ends_throw hvn

/-- The page table has no valid PTE. -/
def PageTable.NoLeaf (pt : PageTable) : Prop := ∀ w, PageAddr w → pt.mapped w = false

theorem not_noLeaf_of_leaf {pt : PageTable} {i j k : Nat} (hi : i < 512) (hj : j < 512) (hk : k < 512)
    (h : hasFlag (pt.leaf i j k) pteV = true) : ¬pt.NoLeaf := by
  intro hn
  have := hn (vaOf i j k) (pageAddr_vaOf hi hj hk)
  obtain ⟨e2, e1, e0⟩ := px_vaOf hi hj hk
  rw [PageTable.mapped, PageTable.pte, e2, e1, e0, h] at this
  cases this

end Xv6Mmap

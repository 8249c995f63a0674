import Xv6Mmap.Lemmas.PageWords
import Mathlib.Order.BooleanAlgebra.Set

/-!
# A page table is a finite map

Runs of `mappages` and `uvmunmap` on one page table from `uvmcreate` on, over the words of memory and an allocator that may fail. The
map from virtual page numbers to physical address and flags, updated by the same calls, gives what `walk` and `walkaddr` find at every
address; a `mappages` that fails has entered the pages before the one it failed at.
-/

namespace Xv6Mmap

open Phys

/-! ## Calls on a page table -/

/-- The calls. -/
inductive TableCall where
  | mappages (va size pa perm : Nat)
  | uvmunmap (va npages : Nat) (doFree : Bool)

namespace TableCall

/-- The first virtual page of a call. -/
def first : TableCall → Nat
  | .mappages va _ _ _ => va / pgSize
  | .uvmunmap va _ _ => va / pgSize

/-- How many virtual pages a call is about. -/
def count : TableCall → Nat
  | .mappages va size _ _ => (va + size - 1) / pgSize - va / pgSize + 1
  | .uvmunmap _ npages _ => npages

/-- The virtual pages of a call. -/
def touches (c : TableCall) (v : Nat) : Prop := c.first ≤ v ∧ v < c.first + c.count

/-- The call made, with its return value; `uvmunmap` returns none. -/
def run (A : Allocator) (w : Phys) (root : Nat) : TableCall → Except Panic (Bool × Phys)
  | .mappages va size pa perm => w.mappages A root va size pa perm
  | .uvmunmap va npages doFree => do
    let w ← w.uvmunmap A root va npages doFree
    pure (true, w)

end TableCall

/-- The valid PTE that `walk` finds without `alloc`. -/
def Phys.lookup (A : Allocator) (w : Phys) (root va : Nat) : Option Nat :=
  match w.walk A root va false with
  | .ok (some (pg, i), _) => if hasFlag (w.word pg i) pteV then some (w.word pg i) else none
  | _ => none

/-- The page of the table in each place of the tree, read off the words. -/
def Phys.tableAt (w : Phys) (root : Nat) : Place → Option Nat
  | .root => some root
  | .mid i => if i < 512 ∧ hasFlag (w.word root i) pteV = true then some (ptePage (w.word root i)) else none
  | .low i j =>
    if i < 512 ∧ hasFlag (w.word root i) pteV = true ∧ j < 512 ∧ hasFlag (w.word (ptePage (w.word root i)) j) pteV = true then
      some (ptePage (w.word (ptePage (w.word root i)) j))
    else none
  | .leaf _ => none

/-- The calls that may be made: `mappages` of pages that are not mapped, to physical pages below `2 ^ 56` and with some of R, W and
X, and `uvmunmap` of mapped pages. With `do_free` the pages behind them are the caller's to free: handed out, none of them twice, and
not the tables' own. -/
def TableCall.Allowed (A : Allocator) (w : Phys) (root : Nat) (c : TableCall) : Prop :=
  match c with
  | .mappages va size pa perm =>
    0 < size ∧ va + size ≤ maxVa ∧ pa % pgSize = 0 ∧ pa + (c.count - 1) * pgSize < 2 ^ 56 ∧ perm < 1024 ∧
      hasFlag perm (pteR ||| pteW ||| pteX) = true ∧ ∀ v, c.touches v → w.lookup A root (v * pgSize) = none
  | .uvmunmap va _ doFree =>
    va % pgSize = 0 ∧ (∀ v, c.touches v → w.lookup A root (v * pgSize) ≠ none) ∧
      (doFree = true → ∀ v pte, c.touches v → w.lookup A root (v * pgSize) = some pte → w.out (ptePage pte) = true ∧
        (∀ b, w.tableAt root b ≠ some (ptePage pte)) ∧
        ∀ v' pte', c.touches v' → w.lookup A root (v' * pgSize) = some pte' → ptePage pte' = ptePage pte → v' = v)

/-- The words reached from `uvmcreate` by calls that may be made, with these calls and what they returned, oldest first. Between
the calls other pages are handed out. -/
inductive TableRun (A : Allocator) (root : Nat) : Phys → List (TableCall × Bool) → Prop where
  | uvmcreate {w₀ w : Phys} : w₀.uvmcreate A = (some root, w) → TableRun A root w []
  | call {w w' : Phys} {h : List (TableCall × Bool)} {c : TableCall} {r : Bool} : TableRun A root w h → c.Allowed A w root →
      c.run A w root = .ok (r, w') → TableRun A root w' (h ++ [(c, r)])
  | kalloc {w w' : Phys} {h : List (TableCall × Bool)} {pa : Nat} : TableRun A root w h → w.kalloc A = (pa, w') →
      TableRun A root w' h

/-! ## The map -/

/-- A finite map from virtual page numbers to physical address and flags. -/
abbrev PageMap : Type := Nat → Option (Nat × Nat)

/-- The `n` pages from `v` on mapped to the pages from `pa` on. -/
def PageMap.put (f : PageMap) (v n pa perm : Nat) : PageMap :=
  fun x => if v ≤ x ∧ x < v + n then some (pa + (x - v) * pgSize, perm) else f x

/-- The `n` pages from `v` on removed. -/
def PageMap.remove (f : PageMap) (v n : Nat) : PageMap := fun x => if v ≤ x ∧ x < v + n then none else f x

/-- What a call with its return value does to the map. -/
inductive MapStep (f : PageMap) : TableCall → Bool → PageMap → Prop where
  | mapped (va size pa perm : Nat) :
      MapStep f (.mappages va size pa perm) true (f.put (va / pgSize) (TableCall.mappages va size pa perm).count pa perm)
  | failed (va size pa perm : Nat) {k : Nat} : k < (TableCall.mappages va size pa perm).count →
      MapStep f (.mappages va size pa perm) false (f.put (va / pgSize) k pa perm)
  | unmapped (va npages : Nat) (doFree : Bool) :
      MapStep f (.uvmunmap va npages doFree) true (f.remove (va / pgSize) npages)

/-- The maps that a list of calls leads to from the empty one. -/
inductive MapRun : List (TableCall × Bool) → PageMap → Prop where
  | nil : MapRun [] fun _ => none
  | snoc {h : List (TableCall × Bool)} {f f' : PageMap} {c : TableCall} {r : Bool} : MapRun h f → MapStep f c r f' →
      MapRun (h ++ [(c, r)]) f'

/-! ## The words, the tree and the map -/

/-- A PTE of the tree is what the map has for its page. -/
def MapsTo (pte : Nat) : Option (Nat × Nat) → Prop
  | none => hasFlag pte pteV = false
  | some (pa, perm) => pte = mkPte pa perm ∧ pa % pgSize = 0 ∧ perm < 1024 ∧ hasFlag perm (pteR ||| pteW ||| pteX) = true

/-- The words spell a tree with the PTEs of the map. -/
def Represents (w : Phys) (root : Nat) (f : PageMap) : Prop :=
  ∃ pt : PageTable, pt.page = root ∧ Spelled ∅ ∅ w pt ∧ ∀ v, v * pgSize < maxVa → MapsTo (pt.pte (v * pgSize)) (f v)

section Flags

theorem pteFlags_mkPte {pa perm : Nat} (hperm : perm < 1024) : pteFlags (mkPte pa perm) = perm ||| pteV := by
  have hlt : perm ||| pteV < 2 ^ 10 := Nat.or_lt_two_pow (by omega) (by decide)
  rw [mkPte_eq hperm, pteFlags, show (0x3FF : Nat) = 2 ^ 10 - 1 from rfl, Nat.and_two_pow_sub_one_eq_mod]
  omega

/-- A PTE with some of R, W and X does not look like one that leads to a table. -/
theorem pteFlags_mkPte_ne {pa perm : Nat} (hperm : perm < 1024) (hrwx : hasFlag perm (pteR ||| pteW ||| pteX) = true) :
    pteFlags (mkPte pa perm) ≠ pteV := by
  rw [pteFlags_mkPte hperm]
  intro e
  have hbit : ∀ i, 0 < i → perm.testBit i = false := by
    intro i hi
    have hV : pteV.testBit i = false := by
      rw [show pteV = 2 ^ 0 from rfl, Nat.testBit_two_pow]
      exact decide_eq_false hi.ne
    have hor := congrArg (fun x => x.testBit i) e
    simp only [Nat.testBit_or, hV, Bool.or_false] at hor
    exact hor
  have hzero : perm &&& (pteR ||| pteW ||| pteX) = 0 := by
    refine Nat.eq_of_testBit_eq fun i => ?_
    rw [Nat.testBit_and, Nat.zero_testBit]
    cases i with
    | zero => rw [show (pteR ||| pteW ||| pteX).testBit 0 = false from rfl, Bool.and_false]
    | succ i => rw [hbit _ i.succ_pos, Bool.false_and]
  rw [hasFlag, hzero] at hrwx
  cases hrwx

end Flags

section Lookups

variable {own R : Set Nat} {A : Allocator} {w : Phys} {pt : PageTable}

theorem pte_page (pt : PageTable) (va : Nat) : pt.pte va = pt.pte (va / pgSize * pgSize) := by
  rw [PageTable.pte, ← px_pgRoundDown 2 va, ← px_pgRoundDown 1 va, ← px_pgRoundDown 0 va]
  rfl

theorem page_lt {va : Nat} (h : va < maxVa) : va / pgSize * pgSize < maxVa := lt_of_le_of_lt (Nat.div_mul_le_self ..) h

theorem pageAddr_page {v : Nat} (h : v * pgSize < maxVa) : PageAddr (v * pgSize) :=
  ⟨Nat.mul_mod_left .., by simp only [maxVa] at h; omega⟩

/-- A valid PTE is found where the tree has one. -/
theorem Spelled.lookup_eq (h : Spelled own R w pt) (A : Allocator) {va : Nat} (hva : va < maxVa) :
    w.lookup A pt.page va = if hasFlag (pt.pte va) pteV = true then some (pt.pte va) else none := by
  rw [Phys.lookup, h.walk_look A hva]
  cases hl : pt.low (px 2 va) (px 1 va) with
  | none =>
    have hno : pt.hasTable va = false := by
      rw [PageTable.hasTable, hl]
      rfl
    rw [pt.pte_of_not_hasTable hno]
    rfl
  | some pg =>
    simp only [Option.map_some]
    rw [h.word_pte hl]

theorem lookup_ge {root va : Nat} (hva : maxVa ≤ va) : w.lookup A root va = none := by
  rw [Phys.lookup, Phys.walk, if_pos hva]
  rfl

theorem Spelled.walkaddr_eq (h : Spelled own R w pt) (A : Allocator) {va : Nat} (hva : va < maxVa) :
    w.walkaddr A pt.page va =
      .ok (if hasFlag (pt.pte va) pteV = true ∧ hasFlag (pt.pte va) pteU = true then pte2pa (pt.pte va) else 0) := by
  rw [Phys.walkaddr, if_neg (Nat.not_le.mpr hva), h.walk_look A hva, ok_bind]
  cases hl : pt.low (px 2 va) (px 1 va) with
  | none =>
    have hno : pt.hasTable va = false := by
      rw [PageTable.hasTable, hl]
      rfl
    rw [pt.pte_of_not_hasTable hno]
    rfl
  | some pg =>
    simp only [Option.map_some]
    rw [h.word_pte hl]
    cases hasFlag (pt.pte va) pteV <;> cases hasFlag (pt.pte va) pteU <;> rfl

theorem Spelled.tableAt_iff (h : Spelled own R w pt) (b : Place) (x : Nat) : w.tableAt pt.page b = some x ↔ pt.Holds ∅ b x := by
  -- an entry of the upper levels is valid exactly when the tree has a table there
  have hentry : ∀ {e : Nat} {o : Option Nat}, EntryFor e o → (hasFlag e pteV = true ∧ ptePage e = x ↔ o = some x) := by
    intro e o he
    cases o with
    | none =>
      have he' : hasFlag e pteV = false := he
      simp [he']
    | some y =>
      obtain ⟨hv, hp⟩ := he.valid
      simp [hv, hp]
  cases b with
  | root => exact ⟨fun e => (Option.some.inj e).symm, fun e => by rw [Phys.tableAt, e]⟩
  | mid i =>
    simp only [Phys.tableAt, PageTable.Holds]
    by_cases hi : i < 512
    · rw [← hentry (h.mid i hi)]
      simp [hi]
    · simp [hi]
  | low i j =>
    simp only [Phys.tableAt, PageTable.Holds]
    by_cases hi : i < 512
    swap
    · simp [hi]
    cases hm : pt.mid i with
    | none =>
      have he := h.mid i hi
      rw [hm] at he
      have he' : hasFlag (w.word pt.page i) pteV = false := he
      simp [he', low_none_of_mid_none hm]
    | some t =>
      have he := h.mid i hi
      rw [hm] at he
      obtain ⟨hv, hp⟩ := he.valid
      rw [hp]
      by_cases hj : j < 512
      · rw [← hentry (h.low i hi t hm j hj)]
        simp [hi, hj, hv]
      · simp [hj]
  | leaf va => exact ⟨fun e => (by cases e), fun hx => absurd hx.1 (Set.notMem_empty va)⟩

end Lookups

/-! ## The calls on trees -/

section Calls

variable {R : Set Nat} {w : Phys} {pt : PageTable}

/-- The loop of `mappages` over the pages from `a` to `a + k * pgSize`: it maps the first `m` of them, and all of them when it
succeeds. -/
theorem mapLoop_spec (A : Allocator) (perm k : Nat) {n a pa : Nat} (h : Spelled ∅ R w pt) (ha : a % pgSize = 0)
    (hlt : a + k * pgSize < maxVa) (hn : k < n)
    (hfree : ∀ v, PageAddr v → a ≤ v → v ≤ a + k * pgSize → pt.mapped v = false) :
    ∃ m ≤ k + 1, ∃ w' pt', Phys.mapLoop A pt.page perm (a + k * pgSize) n w a pa = .ok (decide (m = k + 1), w') ∧
      Spelled ∅ R w' pt' ∧ pt'.page = pt.page ∧
      ∀ v, PageAddr v → pt'.pte v = if a ≤ v ∧ v < a + m * pgSize then mkPte (pa + (v - a)) perm else pt.pte v := by
  induction n generalizing k a pa w pt with
  | zero => exact absurd hn (Nat.not_lt_zero k)
  | succ n ih =>
    have hlt' : a < maxVa := by omega
    have hpa : PageAddr a := ⟨ha, by simp only [maxVa] at hlt'; omega⟩
    obtain ⟨w1, pt1, hg, e | ⟨pg, hlow, e⟩⟩ :=
      h.mapLoop_round A hlt' (hfree a hpa (le_refl a) (by omega)) pa perm (a + k * pgSize) n
    · refine ⟨0, by omega, w1, pt1, ?_, hg.spelled, hg.grown.page, fun v _ => ?_⟩
      · rw [e, decide_eq_false (by omega)]
      · rw [hg.grown.pte, if_neg (by omega)]
    · have hw := hg.spelled.write_other (mkPte pa perm) hpa (Set.notMem_empty a) hlow
      have hp1 : (pt1.setPte a (mkPte pa perm)).page = pt.page := hg.grown.page
      have hpte : ∀ v, PageAddr v → (pt1.setPte a (mkPte pa perm)).pte v = if v = a then mkPte pa perm else pt.pte v := by
        intro v hpv
        rw [pt1.pte_setPte (Spelled.hasTable_of_low hlow) hpa hpv, hg.grown.pte]
      -- the first page, and those that are mapped after it
      have hjoin : ∀ {m} {pt' : PageTable}, (∀ v, PageAddr v → pt'.pte v = if a + pgSize ≤ v ∧ v < a + pgSize + m * pgSize then
          mkPte (pa + pgSize + (v - (a + pgSize))) perm else (pt1.setPte a (mkPte pa perm)).pte v) →
          ∀ v, PageAddr v → pt'.pte v = if a ≤ v ∧ v < a + (m + 1) * pgSize then mkPte (pa + (v - a)) perm else pt.pte v := by
        intro m pt' hrest v hpv
        rw [hrest v hpv, hpte v hpv]
        refine ite_pages_succ ha hpv.1 (fun hge => ?_) fun e => ?_
        · rw [show pa + pgSize + (v - (a + pgSize)) = pa + (v - a) by omega]
        · rw [e, Nat.sub_self, add_zero]
      cases k with
      | zero => exact ⟨1, le_refl 1, _, _, e.trans (if_pos (by omega)), hw, hp1, hjoin fun v _ => by rw [if_neg (by omega)]⟩
      | succ k =>
        have hsum : a + (k + 1) * pgSize = a + pgSize + k * pgSize := by
          simp only [pgSize]
          omega
        rw [if_neg (by simp only [pgSize]; omega), hsum] at e
        rw [hsum] at hlt hfree ⊢
        obtain ⟨m, hm, w', pt', e', hs', hpage, hpte'⟩ := ih k hw (by simp only [pgSize] at *; omega) hlt (by omega) (by
          intro v hpv h1 h2
          rw [PageTable.mapped, hpte v hpv, if_neg (by simp only [pgSize] at *; omega)]
          exact hfree v hpv (by omega) h2)
        rw [hp1] at e' hpage
        refine ⟨m + 1, by omega, w', pt', ?_, hs', hpage, hjoin hpte'⟩
        rw [e, e']
        simp

theorem Spelled.kfree_rest (h : Spelled ∅ R w pt) {pg : Nat} (hpg : pg ∈ R) :
    ∃ w', w.kfree (pg * pgSize) = .ok w' ∧ Spelled ∅ (R \ {pg}) w' pt := by
  have hin : Spelled ∅ (insert pg (R \ {pg})) w pt := by
    rw [Set.insert_sdiff_singleton, Set.insert_eq_of_mem hpg]
    exact h
  obtain ⟨w', e, hs, -⟩ := hin.kfree_hand fun hm => hm.2 rfl
  exact ⟨w', e, hs⟩

/-- The loop of `uvmunmap` over `n` mapped pages from `a` on; the pages it frees are in `R`, each once. -/
theorem unmapLoop_rest (A : Allocator) (doFree : Bool) (n : Nat) {a : Nat} (h : Spelled ∅ R w pt) (ha : a % pgSize = 0)
    (hmapped : ∀ v ∈ pagesFrom a n, v < maxVa ∧ pt.mapped v = true ∧ pteFlags (pt.pte v) ≠ pteV)
    (hfree : doFree = true → ∀ v ∈ pagesFrom a n, ptePage (pt.pte v) ∈ R)
    (honce : doFree = true → ∀ v ∈ pagesFrom a n, ∀ v' ∈ pagesFrom a n, ptePage (pt.pte v) = ptePage (pt.pte v') → v = v') :
    ∃ w' pt' R', Phys.unmapLoop A pt.page doFree n w a = .ok w' ∧ Spelled ∅ R' w' pt' ∧ pt'.page = pt.page ∧
      ∀ v, PageAddr v → pt'.pte v = if a ≤ v ∧ v < a + n * pgSize then 0 else pt.pte v := by
  induction n generalizing a w pt R with
  | zero => exact ⟨w, pt, R, rfl, h, rfl, fun v _ => by rw [if_neg (by omega)]⟩
  | succ n ih =>
    rw [pagesFrom_succ] at hmapped hfree honce
    obtain ⟨hlt, hm, hleaf⟩ := hmapped a (Or.inl rfl)
    have hpa : PageAddr a := ⟨ha, by simp only [maxVa] at hlt; omega⟩
    obtain ⟨pg, hl⟩ := Spelled.low_of_mapped hm
    have hnext : ∀ v ∈ pagesFrom (a + pgSize) n, v ≠ a := by
      intro v hv e
      obtain ⟨i, -, hi⟩ := hv
      simp only [pgSize] at hi
      omega
    have hpte : ∀ v, PageAddr v → (pt.setPte a 0).pte v = if v = a then 0 else pt.pte v :=
      fun v hpv => pt.pte_setPte (Spelled.hasTable_of_low hl) hpa hpv 0
    have hkeep : ∀ v ∈ pagesFrom (a + pgSize) n, (pt.setPte a 0).pte v = pt.pte v := by
      intro v hv
      have hlt' := (hmapped v (Or.inr hv)).1
      have hal := (mem_pagesFrom (by simp only [pgSize] at *; omega)).mp hv
      rw [hpte v ⟨hal.1, by simp only [maxVa] at hlt'; omega⟩, if_neg (hnext v hv)]
    -- the page behind the first PTE goes back to the allocator, or stays
    obtain ⟨w1, R1, e1, hs1, hR1⟩ : ∃ w1 R1, (if doFree = true then w.kfree (pte2pa (pt.pte a)) else pure w) = .ok w1 ∧
        Spelled ∅ R1 w1 pt ∧ (doFree = true → ∀ v ∈ pagesFrom (a + pgSize) n, ptePage (pt.pte v) ∈ R1) := by
      cases doFree with
      | false => exact ⟨w, R, rfl, h, fun hf => absurd hf Bool.false_ne_true⟩
      | true =>
        obtain ⟨w1, e, hs⟩ := h.kfree_rest (hfree rfl a (Or.inl rfl))
        refine ⟨w1, _, by rw [if_pos rfl, pte2pa_eq, e], hs, fun _ v hv => ⟨hfree rfl v (Or.inr hv), fun hx => ?_⟩⟩
        exact hnext v hv (honce rfl v (Or.inr hv) a (Or.inl rfl) hx)
    have hw := hs1.write_other 0 hpa (Set.notMem_empty a) hl
    obtain ⟨w', pt', R', e', hs', hpage, hpte'⟩ := ih (a := a + pgSize) hw (by simp only [pgSize] at *; omega)
      (by
        intro v hv
        have := hmapped v (Or.inr hv)
        rw [PageTable.mapped, hkeep v hv]
        exact this)
      (by
        intro hf v hv
        rw [hkeep v hv]
        exact hR1 hf v hv)
      (by
        intro hf v hv v' hv'
        rw [hkeep v hv, hkeep v' hv']
        exact honce hf v (Or.inr hv) v' (Or.inr hv'))
    refine ⟨w', pt', R', ?_, hs', hpage, fun v hpv => ?_⟩
    · rw [h.unmapLoop_round A doFree n hlt hm hleaf hl, e1]
      exact e'
    · rw [hpte' v hpv, hpte v hpv]
      exact ite_pages_succ ha hpv.1 (fun _ => rfl) fun _ => rfl

end Calls

/-! ## Steps of a run -/

section Runs

variable {A : Allocator} {w : Phys} {root : Nat} {f : PageMap}

/-- The pages of which the map has nothing are those at which `walk` finds nothing valid. -/
theorem MapsTo.lookup {pte : Nat} {e : Option (Nat × Nat)} (h : MapsTo pte e) :
    (if hasFlag pte pteV = true then some pte else none) = e.map fun x => mkPte x.1 x.2 := by
  cases e with
  | none =>
    have h' : hasFlag pte pteV = false := h
    rw [h']
    rfl
  | some x =>
    obtain ⟨rfl, -⟩ := h
    rw [hasFlag_mkPte_V]
    rfl

theorem Represents.lookup_eq (h : Represents w root f) (A : Allocator) {va : Nat} (hva : va < maxVa) :
    w.lookup A root va = (f (va / pgSize)).map fun e => mkPte e.1 e.2 := by
  obtain ⟨pt, rfl, hs, hf⟩ := h
  rw [hs.lookup_eq A hva, pte_page]
  exact (hf _ (page_lt hva)).lookup

theorem Represents.walkaddr_eq (h : Represents w root f) (A : Allocator) {va : Nat} (hva : va < maxVa) :
    w.walkaddr A root va = .ok (match f (va / pgSize) with
      | some (pa, perm) => if hasFlag perm pteU = true then pa else 0
      | none => 0) := by
  obtain ⟨pt, rfl, hs, hf⟩ := h
  have hm := hf _ (page_lt hva)
  rw [hs.walkaddr_eq A hva, pte_page]
  cases hv : f (va / pgSize) with
  | none =>
    rw [hv] at hm
    have hm' : hasFlag (pt.pte (va / pgSize * pgSize)) pteV = false := hm
    rw [if_neg (by rw [hm']; exact fun c => Bool.false_ne_true c.1)]
  | some e =>
    obtain ⟨pa, perm⟩ := e
    rw [hv] at hm
    obtain ⟨e, hal, hperm, -⟩ := hm
    have hu : hasFlag (mkPte pa perm) pteU = hasFlag perm pteU := by
      rw [show pteU = 2 ^ 4 from rfl, hasFlag_two_pow, hasFlag_two_pow, testBit_mkPte (by decide),
        show pteV.testBit 4 = false from rfl, Bool.or_false]
    have hpa : pte2pa (mkPte pa perm) = pa := by
      rw [pte2pa_eq, ptePage_mkPte hperm, Nat.div_mul_cancel (Nat.dvd_of_mod_eq_zero hal)]
    simp only [e, hasFlag_mkPte_V, hu, hpa, true_and]

/-- Nothing is found exactly where the tree has no valid PTE. -/
theorem Spelled.lookup_none {own R : Set Nat} {pt : PageTable} (h : Spelled own R w pt) (A : Allocator) {va : Nat} (hva : va < maxVa) :
    w.lookup A pt.page va = none ↔ pt.mapped va = false := by
  rw [h.lookup_eq A hva, PageTable.mapped]
  cases hasFlag (pt.pte va) pteV <;> simp

theorem page_number {v : Nat} (h : v % pgSize = 0) : v / pgSize * pgSize = v := Nat.div_mul_cancel (Nat.dvd_of_mod_eq_zero h)

/-- A call of `mappages` that may be made returns. It maps all of its pages, or runs out of memory after some of them. -/
theorem Represents.mappages (h : Represents w root f) {va size pa perm : Nat}
    (hc : (TableCall.mappages va size pa perm).Allowed A w root) :
    ∃ r w' f', (TableCall.mappages va size pa perm).run A w root = .ok (r, w') ∧ MapStep f (.mappages va size pa perm) r f' ∧
      Represents w' root f' := by
  obtain ⟨pt, rfl, hs, hf⟩ := h
  obtain ⟨hsize, hend, hpa, -, hperm, hrwx, hnone⟩ := hc
  -- the pages of the call are those from `a` to `a + k * pgSize`
  let k := (va + size - 1) / pgSize - va / pgSize
  have hk : va / pgSize + k = (va + size - 1) / pgSize := by
    simp only [k, pgSize]
    omega
  have hdown : pgRoundDown va = va / pgSize * pgSize := rfl
  have hlast : pgRoundDown ((va + size - 1) % 2 ^ 64) = va / pgSize * pgSize + k * pgSize := by
    rw [Nat.mod_eq_of_lt (by simp only [maxVa] at hend; omega), pgRoundDown, ← Nat.add_mul, hk]
  have hlt : va / pgSize * pgSize + k * pgSize < maxVa := by
    simp only [pgSize, maxVa] at *
    omega
  have hfuel : k < maxVa / pgSize + 1 := by
    simp only [pgSize, maxVa] at *
    omega
  have hfree : ∀ v, PageAddr v → va / pgSize * pgSize ≤ v → v ≤ va / pgSize * pgSize + k * pgSize → pt.mapped v = false := by
    intro v hpv h1 h2
    have ht : (TableCall.mappages va size pa perm).touches (v / pgSize) := by
      simp only [TableCall.touches, TableCall.first, TableCall.count, k, pgSize] at *
      omega
    rw [← hs.lookup_none A (lt_of_le_of_lt h2 hlt), ← page_number hpv.1]
    exact hnone _ ht
  obtain ⟨m, hm, w', pt', e, hs', hpage, hpte⟩ :=
    @mapLoop_spec ∅ w pt A perm k (maxVa / pgSize + 1) (va / pgSize * pgSize) pa hs (Nat.mul_mod_left ..) hlt hfuel hfree
  have hrun : (TableCall.mappages va size pa perm).run A w pt.page = .ok (decide (m = k + 1), w') := by
    rw [TableCall.run, Phys.mappages, if_neg (by omega), hlast]
    exact e
  have hrep : Represents w' pt.page (PageMap.put f (va / pgSize) m pa perm) := by
    refine ⟨pt', hpage, hs', fun v hv => ?_⟩
    rw [hpte _ (pageAddr_page hv)]
    by_cases hin : va / pgSize ≤ v ∧ v < va / pgSize + m
    · have hin' : va / pgSize * pgSize ≤ v * pgSize ∧ v * pgSize < va / pgSize * pgSize + m * pgSize := by
        simp only [pgSize] at *
        omega
      rw [PageMap.put, if_pos hin, if_pos hin', ← Nat.sub_mul]
      refine ⟨rfl, ?_, hperm, hrwx⟩
      rw [Nat.add_mul_mod_self_right]
      exact hpa
    · have hin' : ¬(va / pgSize * pgSize ≤ v * pgSize ∧ v * pgSize < va / pgSize * pgSize + m * pgSize) := by
        simp only [pgSize] at *
        omega
      rw [PageMap.put, if_neg hin, if_neg hin']
      exact hf v hv
  by_cases hall : m = k + 1
  · refine ⟨true, w', _, ?_, .mapped va size pa perm, ?_⟩
    · rw [hrun, decide_eq_true hall]
    · rw [hall] at hrep
      exact hrep
  · refine ⟨false, w', _, ?_, .failed va size pa perm (k := m) ?_, hrep⟩
    · rw [hrun, decide_eq_false hall]
    · have : (TableCall.mappages va size pa perm).count = k + 1 := rfl
      omega

/-- A call of `uvmunmap` that may be made returns, and removes its pages. -/
theorem Represents.uvmunmap (h : Represents w root f) {va npages : Nat} {doFree : Bool}
    (hc : (TableCall.uvmunmap va npages doFree).Allowed A w root) :
    ∃ w', (TableCall.uvmunmap va npages doFree).run A w root = .ok (true, w') ∧ Represents w' root (f.remove (va / pgSize) npages) := by
  obtain ⟨pt, rfl, hs, hf⟩ := h
  obtain ⟨hal, hsome, hfree⟩ := hc
  -- a page of the call, by its number
  have hpages : ∀ v ∈ pagesFrom va npages, ∃ n, (TableCall.uvmunmap va npages doFree).touches n ∧ v = n * pgSize ∧ v < maxVa ∧
      pt.mapped v = true := by
    intro v hv
    obtain ⟨h1, h2, h3⟩ := (mem_pagesFrom hal).mp hv
    have ht : (TableCall.uvmunmap va npages doFree).touches (v / pgSize) := by
      simp only [TableCall.touches, TableCall.first, TableCall.count, pgSize] at *
      omega
    have hne := hsome _ ht
    rw [page_number h1] at hne
    have hlt : v < maxVa := by
      by_contra hge
      exact hne (lookup_ge (Nat.le_of_not_lt hge))
    rw [ne_eq, hs.lookup_none A hlt, Bool.not_eq_false] at hne
    exact ⟨v / pgSize, ht, (page_number h1).symm, hlt, hne⟩
  have hentry : ∀ v ∈ pagesFrom va npages, pteFlags (pt.pte v) ≠ pteV := by
    intro v hv
    obtain ⟨n, -, rfl, hlt, hm⟩ := hpages v hv
    have he := hf n hlt
    cases hn : f n with
    | none =>
      rw [hn] at he
      exact absurd hm (by rw [PageTable.mapped, show hasFlag (pt.pte (n * pgSize)) pteV = false from he]; decide)
    | some e =>
      rw [hn] at he
      obtain ⟨e, -, hperm, hrwx⟩ := he
      rw [e]
      exact pteFlags_mkPte_ne hperm hrwx
  have hfound : ∀ n, n * pgSize < maxVa → pt.mapped (n * pgSize) = true →
      w.lookup A pt.page (n * pgSize) = some (pt.pte (n * pgSize)) := by
    intro n hlt hm
    rw [hs.lookup_eq A hlt]
    exact if_pos hm
  have hown : doFree = true → ∀ v ∈ pagesFrom va npages, ptePage (pt.pte v) ∈ {x | w.out x = true ∧ ¬pt.isTable x} := by
    intro hd v hv
    obtain ⟨n, ht, rfl, hlt, hm⟩ := hpages v hv
    obtain ⟨hout, htab, -⟩ := hfree hd n _ ht (hfound n hlt hm)
    refine ⟨hout, fun hx => ?_⟩
    obtain ⟨b, hb⟩ := hx
    exact htab b ((hs.tableAt_iff b _).mpr hb)
  have honce : doFree = true → ∀ v ∈ pagesFrom va npages, ∀ v' ∈ pagesFrom va npages,
      ptePage (pt.pte v) = ptePage (pt.pte v') → v = v' := by
    intro hd v hv v' hv' he
    obtain ⟨n, ht, rfl, hlt, hm⟩ := hpages v hv
    obtain ⟨n', ht', rfl, hlt', hm'⟩ := hpages v' hv'
    rw [(hfree hd n' _ ht' (hfound n' hlt' hm')).2.2 n _ ht (hfound n hlt hm) he]
  have hrest : Spelled ∅ {x | w.out x = true ∧ ¬pt.isTable x} w pt :=
    ⟨hs.mid, hs.low, hs.leaf, fun b x hx => ⟨(hs.owned.held b x hx).1, fun hr => hr.2 ⟨b, hx⟩⟩, hs.owned.inj, fun x hx => hx.1⟩
  obtain ⟨w', pt', R', e, hs', hpage, hpte⟩ := unmapLoop_rest A doFree npages hrest hal
    (fun v hv => by
      obtain ⟨-, -, -, hlt, hm⟩ := hpages v hv
      exact ⟨hlt, hm, hentry v hv⟩) hown honce
  refine ⟨w', ?_, pt', hpage, ?_, fun v hv => ?_⟩
  · rw [TableCall.run, Phys.uvmunmap, if_neg (not_not.mpr hal), e]
    rfl
  · exact hs'.congr (fun _ _ => rfl) (hs'.owned.shrink (Set.empty_subset R'))
  · rw [hpte _ (pageAddr_page hv)]
    by_cases hin : va / pgSize ≤ v ∧ v < va / pgSize + npages
    · rw [PageMap.remove, if_pos hin, if_pos (by simp only [pgSize] at *; omega)]
      exact entryFor_zero
    · rw [PageMap.remove, if_neg hin, if_neg (by simp only [pgSize] at *; omega)]
      exact hf v hv

/-- A call that may be made returns, and what it does to the words it does to the map. -/
theorem Represents.step (h : Represents w root f) {c : TableCall} (hc : c.Allowed A w root) :
    ∃ r w' f', c.run A w root = .ok (r, w') ∧ MapStep f c r f' ∧ Represents w' root f' := by
  cases c with
  | mappages va size pa perm => exact h.mappages hc
  | uvmunmap va npages doFree =>
    obtain ⟨w', e, hrep⟩ := h.uvmunmap hc
    exact ⟨true, w', _, e, .unmapped va npages doFree, hrep⟩

theorem represents_uvmcreate {w0 : Phys} (h : w0.uvmcreate A = (some root, w)) : Represents w root fun _ => none := by
  have hs : Spelled ∅ ∅ w ⟨root, fun _ => none⟩ := (uvmcreate_spec (fun x hx => absurd hx (Set.notMem_empty x)) h).1
  exact ⟨⟨root, fun _ => none⟩, rfl, hs, fun v _ => entryFor_zero⟩

theorem Represents.kalloc {w' : Phys} {pa : Nat} (h : Represents w root f) (e : w.kalloc A = (pa, w')) : Represents w' root f := by
  obtain ⟨pt, rfl, hs, hf⟩ := h
  refine ⟨pt, rfl, ?_, hf⟩
  rcases kalloc_cases A w with ⟨w1, e1, hw, ho⟩ | ⟨pg, w1, e1, -, hout, -, ho, hw⟩
  · rw [e1] at e
    cases e
    exact (hs.walkGrows_same hw ho).spelled
  · rw [e1] at e
    cases e
    refine hs.congr (fun x hx => hw x ?_) ⟨fun b x hx => ⟨?_, Set.notMem_empty x⟩, hs.owned.inj, fun _ hx => absurd hx (Set.notMem_empty _)⟩
    · intro e'
      have := hs.live hx
      rw [e', hout] at this
      cases this
    · rw [Live, ho]
      by_cases e' : x = pg
      · rw [e', Function.update_self]
      · rw [Function.update_of_ne e']
        exact (hs.owned.held b x hx).1

theorem TableRun.represents {h : List (TableCall × Bool)} (hr : TableRun A root w h) : ∃ f, MapRun h f ∧ Represents w root f := by
  induction hr with
  | uvmcreate e => exact ⟨_, .nil, represents_uvmcreate e⟩
  | call _ hc e ih =>
    obtain ⟨f, hm, hrep⟩ := ih
    obtain ⟨r, w', f', e', hstep, hrep'⟩ := hrep.step hc
    rw [e'] at e
    cases e
    exact ⟨f', hm.snoc hstep, hrep'⟩
  | kalloc _ e ih =>
    obtain ⟨f, hm, hrep⟩ := ih
    exact ⟨f, hm, hrep.kalloc e⟩

/-- A call leaves the map of the pages it is not about. -/
theorem MapStep.frame {f' : PageMap} {c : TableCall} {r : Bool} (h : MapStep f c r f') {v : Nat} (hv : ¬c.touches v) : f' v = f v := by
  cases h with
  | mapped va size pa perm =>
    rw [PageMap.put, if_neg]
    exact hv
  | failed va size pa perm hk =>
    rw [PageMap.put, if_neg]
    intro hin
    exact hv ⟨hin.1, lt_of_lt_of_le hin.2 (Nat.add_le_add_left hk.le _)⟩
  | unmapped va npages doFree =>
    rw [PageMap.remove, if_neg]
    exact hv

/-- In every run of calls on a page table there is a map, reached by the same calls from the empty one, that says what `walk`
finds at every address below `MAXVA`, how it is packed, and what `walkaddr` returns; the pages of the tables are in one place each;
and every call that may be made next returns and changes the lookup of no page that it is not about. -/
theorem page_table_is_map {h : List (TableCall × Bool)} (hr : TableRun A root w h) :
    ∃ f, MapRun h f ∧
      (∀ va < maxVa, w.lookup A root va = (f (va / pgSize)).map fun e => mkPte e.1 e.2) ∧
      (∀ va < maxVa, ∀ pa perm, f (va / pgSize) = some (pa, perm) →
        pte2pa (mkPte pa perm) = pa ∧ pteFlags (mkPte pa perm) = perm ||| pteV) ∧
      (∀ va < maxVa, w.walkaddr A root va = .ok (match f (va / pgSize) with
        | some (pa, perm) => if hasFlag perm pteU = true then pa else 0
        | none => 0)) ∧
      (∀ b b' x, w.tableAt root b = some x → w.tableAt root b' = some x → b = b') ∧
      ∀ c : TableCall, c.Allowed A w root → ∃ r w', c.run A w root = .ok (r, w') ∧
        ∀ va < maxVa, ¬c.touches (va / pgSize) → w'.lookup A root va = w.lookup A root va := by
  obtain ⟨f, hm, hrep⟩ := hr.represents
  refine ⟨f, hm, fun va hva => hrep.lookup_eq A hva, fun va hva pa perm e => ?_, fun va hva => hrep.walkaddr_eq A hva,
    fun b b' x hb hb' => ?_, fun c hc => ?_⟩
  · obtain ⟨pt, -, -, hf⟩ := hrep
    have he := hf _ (page_lt hva)
    rw [e] at he
    obtain ⟨-, hal, hperm, -⟩ := he
    exact ⟨by rw [pte2pa_eq, ptePage_mkPte hperm, Nat.div_mul_cancel (Nat.dvd_of_mod_eq_zero hal)], pteFlags_mkPte hperm⟩
  · obtain ⟨pt, rfl, hs, -⟩ := hrep
    exact hs.owned.inj b b' x ((hs.tableAt_iff b x).mp hb) ((hs.tableAt_iff b' x).mp hb')
  · obtain ⟨r, w', f', e, hstep, hrep'⟩ := hrep.step hc
    refine ⟨r, w', e, fun va hva ht => ?_⟩
    rw [hrep'.lookup_eq A hva, hrep.lookup_eq A hva, hstep.frame ht]

end Runs

/-- An allocator that hands out the pages in their order. -/
def risingAllocator : Allocator where
  pick w := if w.out (w.calls + 1) = false ∧ w.calls < 2 ^ 40 then some (w.calls + 1) else none
  fresh := by
    intro w pg h
    split at h
    · rename_i hc
      cases h
      exact ⟨hc.1, by omega, by omega⟩
    · cases h

/-- A page table with a `mappages` of two pages made on it. -/
theorem page_table_is_map_two : ∃ w h, TableRun risingAllocator 1 w h ∧ h.length = 1 ∧ ∃ f, MapRun h f ∧
    ∀ va < maxVa, w.lookup risingAllocator 1 va = (f (va / pgSize)).map fun e => mkPte e.1 e.2 := by
  obtain ⟨w1, hnew⟩ : ∃ w1, (⟨fun _ _ => 0, fun _ => false, 0⟩ : Phys).uvmcreate risingAllocator = (some 1, w1) := ⟨_, rfl⟩
  have h0 := TableRun.uvmcreate hnew
  have hc : (TableCall.mappages 8192 8192 409600 (pteR ||| pteW ||| pteU)).Allowed risingAllocator w1 1 := by
    refine ⟨by decide, by decide, by decide, by decide, by decide, by decide, fun v hv => ?_⟩
    rw [(represents_uvmcreate hnew).lookup_eq _ ?_]
    · rfl
    · simp only [TableCall.touches, TableCall.first, TableCall.count, pgSize, maxVa] at *
      omega
  obtain ⟨-, -, -, -, -, -, hnext⟩ := page_table_is_map h0
  obtain ⟨r, w, e, -⟩ := hnext _ hc
  obtain ⟨f, hm, hl, -⟩ := page_table_is_map (h0.call hc e)
  exact ⟨w, _, h0.call hc e, rfl, f, hm, hl⟩

end Xv6Mmap

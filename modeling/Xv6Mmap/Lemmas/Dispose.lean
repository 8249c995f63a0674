import Xv6Mmap.Proc
import Xv6Mmap.Lemmas.Pages

/-!
# When a page table can be freed

`proc_freepagetable` returns exactly when the table is `Disposable`: the trampoline and the trapframe, a page at every address below
the size and no other leaf. Whether `kfree` takes a page depends on its address and its count, which no `kfree` changes, so the
condition is about the memory before the call; a page in it may be held twice, or free already.
-/

namespace Xv6Mmap

open PageTable

/-- `kfree` takes the page at `pa`. -/
structure KfreeOk (Λ : Layout) (m : Mem) (pa : Nat) : Prop where
  aligned : pa % pgSize = 0
  low : Λ.endAddr ≤ pa
  high : pa < physTop
  ref : (m.runs (pa / pgSize)).ref = 1

/-- The counts of the pages are the same. -/
def SameCounts (m m' : Mem) : Prop := ∀ r, (m'.runs r).ref = (m.runs r).ref

/-- The PTE of `va` is a leaf that `uvmunmap` takes, with its page for `doFree`. -/
structure LeafOk (Λ : Layout) (doFree : Bool) (pt : PageTable) (m : Mem) (va : Nat) : Prop where
  lt : va < maxVa
  mapped : pt.mapped va = true
  leaf : pteFlags (pt.pte va) ≠ pteV
  free : doFree = true → KfreeOk Λ m (pte2pa (pt.pte va))

/-- The page table with the PTEs of a set of pages cleared. -/
structure Cleared (pt : PageTable) (S : Set Nat) (pt' : PageTable) : Prop where
  page : pt'.page = pt.page
  mid : ∀ i, pt'.mid i = pt.mid i
  low : ∀ i j, pt'.low i j = pt.low i j
  inside : ∀ w, PageAddr w → w ∈ S → pt'.pte w = 0
  outside : ∀ w, PageAddr w → w ∉ S → pt'.pte w = pt.pte w

/-- Every page of the table itself can be freed. -/
structure TablesOk (Λ : Layout) (m : Mem) (pt : PageTable) : Prop where
  root : KfreeOk Λ m (pt.page * pgSize)
  mid : ∀ i < 512, ∀ pg, pt.mid i = some pg → KfreeOk Λ m (pg * pgSize)
  low : ∀ i < 512, ∀ j < 512, ∀ pg, pt.low i j = some pg → KfreeOk Λ m (pg * pgSize)

/-- A table of size `sz` holds what `proc_freepagetable` expects. -/
structure Disposable (Λ : Layout) (m : Mem) (pt : PageTable) (sz : Nat) : Prop where
  tramp : LeafOk Λ false pt m trampoline
  frame : LeafOk Λ false pt m trapframe
  below : pgRoundUp sz ≤ trapframe
  user : ∀ w, w % pgSize = 0 → w < pgRoundUp sz → LeafOk Λ true pt m w
  rest : ∀ w, PageAddr w → pt.mapped w = true → w < pgRoundUp sz ∨ w = trampoline ∨ w = trapframe
  tables : TablesOk Λ m pt

section Counts

variable {Λ : Layout} {m m' m'' : Mem} {pt pt' : PageTable}

theorem SameCounts.refl (m : Mem) : SameCounts m m := fun _ => rfl

theorem SameCounts.trans (h : SameCounts m m') (h' : SameCounts m' m'') : SameCounts m m'' :=
  fun r => (h' r).trans (h r)

theorem kfreeOk_congr (h : SameCounts m m') (pa : Nat) : KfreeOk Λ m' pa ↔ KfreeOk Λ m pa := by
  constructor
  · intro hk
    exact ⟨hk.aligned, hk.low, hk.high, (h _).symm.trans hk.ref⟩
  · intro hk
    exact ⟨hk.aligned, hk.low, hk.high, (h _).trans hk.ref⟩

theorem tablesOk_congr (h : SameCounts m m') : TablesOk Λ m' pt ↔ TablesOk Λ m pt := by
  constructor
  · intro ht
    exact ⟨(kfreeOk_congr h _).mp ht.root, fun i hi pg e => (kfreeOk_congr h _).mp (ht.mid i hi pg e),
      fun i hi j hj pg e => (kfreeOk_congr h _).mp (ht.low i hi j hj pg e)⟩
  · intro ht
    exact ⟨(kfreeOk_congr h _).mpr ht.root, fun i hi pg e => (kfreeOk_congr h _).mpr (ht.mid i hi pg e),
      fun i hi j hj pg e => (kfreeOk_congr h _).mpr (ht.low i hi j hj pg e)⟩

theorem kfree_exact (pa : Nat) : Ends (kfree Λ m pa) (fun m' => KfreeOk Λ m pa ∧ SameCounts m m') (fun _ => ¬KfreeOk Λ m pa) := by
  refine ends_ite (fun hbad => ends_throw fun hk => ?_) fun hgood => ends_ite (fun href => ends_throw fun hk => href hk.ref)
    fun href => ends_pure ⟨?_, fun r => ?_⟩
  · obtain ⟨h1, h2, h3, -⟩ := hk
    omega
  · exact ⟨by omega, by omega, by omega, not_not.mp href⟩
  · by_cases hr : r = pa / pgSize
    · subst hr
      simp
    · simp [hr]

/-! ## Clearing PTEs -/

theorem Cleared.refl (pt : PageTable) : Cleared pt ∅ pt :=
  ⟨rfl, fun _ => rfl, fun _ _ => rfl, fun _ _ h => absurd h (Set.notMem_empty _), fun _ _ _ => rfl⟩

theorem Cleared.trans {pt'' : PageTable} {S S' : Set Nat} (h : Cleared pt S pt') (h' : Cleared pt' S' pt'') :
    Cleared pt (S ∪ S') pt'' := by
  refine ⟨h'.page.trans h.page, fun i => (h'.mid i).trans (h.mid i), fun i j => (h'.low i j).trans (h.low i j),
    fun w hw hmem => ?_, fun w hw hmem => ?_⟩
  · by_cases hs : w ∈ S'
    · exact h'.inside w hw hs
    · rw [h'.outside w hw hs]
      exact h.inside w hw (hmem.resolve_right hs)
  · have hn := not_or.mp hmem
    rw [h'.outside w hw hn.2, h.outside w hw hn.1]

theorem cleared_setPte {a : Nat} (ha : PageAddr a) (ht : pt.hasTable a = true) : Cleared pt {a} (pt.setPte a 0) := by
  refine ⟨rfl, pt.mid_setPte a 0, pt.low_setPte a 0, fun w hw hmem => ?_, fun w hw hmem => ?_⟩
  · rw [pt.pte_setPte ht ha hw, if_pos (Set.mem_singleton_iff.mp hmem)]
  · rw [pt.pte_setPte ht ha hw, if_neg fun e => hmem (Set.mem_singleton_iff.mpr e)]

theorem Cleared.tablesOk {S : Set Nat} (h : Cleared pt S pt') : TablesOk Λ m pt' ↔ TablesOk Λ m pt := by
  have e1 := h.page
  have e2 := h.mid
  have e3 := h.low
  constructor
  · intro ht
    exact ⟨e1 ▸ ht.root, fun i hi pg e => ht.mid i hi pg ((e2 i).trans e), fun i hi j hj pg e => ht.low i hi j hj pg ((e3 i j).trans e)⟩
  · intro ht
    exact ⟨e1.symm ▸ ht.root, fun i hi pg e => ht.mid i hi pg ((e2 i).symm.trans e),
      fun i hi j hj pg e => ht.low i hi j hj pg ((e3 i j).symm.trans e)⟩

theorem Cleared.leafOk {S : Set Nat} (h : Cleared pt S pt') (hc : SameCounts m m') {b : Bool} {w : Nat} (hw : w % pgSize = 0) :
    LeafOk Λ b pt' m' w ↔ w ∉ S ∧ LeafOk Λ b pt m w := by
  have hpage : w < maxVa → PageAddr w := fun hlt => ⟨hw, by simp only [maxVa] at hlt; omega⟩
  constructor
  · intro hl
    have hp := hpage hl.lt
    by_cases hs : w ∈ S
    · have hm := hl.mapped
      rw [mapped, h.inside w hp hs] at hm
      cases hm
    · have e := h.outside w hp hs
      refine ⟨hs, hl.lt, ?_, by rw [← e]; exact hl.leaf, fun hb => ?_⟩
      · rw [mapped, ← e]
        exact hl.mapped
      · rw [← e]
        exact (kfreeOk_congr hc _).mp (hl.free hb)
  · rintro ⟨hs, hl⟩
    have e := h.outside w (hpage hl.lt) hs
    refine ⟨hl.lt, ?_, by rw [e]; exact hl.leaf, fun hb => ?_⟩
    · rw [mapped, e]
      exact hl.mapped
    · rw [e]
      exact (kfreeOk_congr hc _).mpr (hl.free hb)

/-- `uvmunmap` returns exactly when every page is a leaf that it takes. -/
theorem unmapLoop_exact (doFree : Bool) (n : Nat) {a : Nat} (ha : a % pgSize = 0) : Ends (unmapLoop Λ doFree n pt m a)
      (fun r => (∀ w ∈ pagesFrom a n, LeafOk Λ doFree pt m w) ∧ SameCounts m r.2 ∧ Cleared pt (pagesFrom a n) r.1)
      (fun _ => ¬∀ w ∈ pagesFrom a n, LeafOk Λ doFree pt m w) := by
  induction n generalizing pt m a with
  | zero =>
    rw [pagesFrom_zero]
    exact ends_pure ⟨fun w hw => absurd hw (Set.notMem_empty w), SameCounts.refl m, Cleared.refl pt⟩
  | succ n ih =>
    have hself : a ∈ pagesFrom a (n + 1) := ⟨0, by omega, by omega⟩
    unfold unmapLoop
    by_cases hlt : a < maxVa
    swap
    · rw [walk_panic Λ pt m (Nat.not_lt.mp hlt)]
      exact ends_error fun hall => hlt (hall a hself).lt
    rw [walk_look Λ pt m hlt]
    refine ends_bind (ends_ok rfl) ?_
    rintro _ rfl
    refine ends_ite (fun hf => ends_throw fun hall => ?_) fun _ => ?_
    · rw [pt.hasTable_of_mapped (hall a hself).mapped] at hf
      cases hf
    refine ends_ite (fun hf => ends_throw fun hall => ?_) fun hv => ?_
    · have := (hall a hself).mapped
      rw [mapped] at this
      rw [this] at hf
      cases hf
    refine ends_ite (fun hf => ends_throw fun hall => (hall a hself).leaf hf) fun hleaf => ?_
    have hm : pt.mapped a = true := by simpa [mapped] using hv
    have hfree : Ends (if doFree then kfree Λ m (pte2pa (pt.pte a)) else pure m)
        (fun m' => LeafOk Λ doFree pt m a ∧ SameCounts m m') (fun _ => ¬∀ w ∈ pagesFrom a (n + 1), LeafOk Λ doFree pt m w) := by
      refine ends_ite (fun hd => ?_) fun hd => ends_pure ⟨⟨hlt, hm, hleaf, fun e => absurd e hd⟩, SameCounts.refl m⟩
      refine ends_mono (kfree_exact _) (fun m' hk => ⟨⟨hlt, hm, hleaf, fun _ => hk.1⟩, hk.2⟩) fun _ hk hall => ?_
      exact hk ((hall a hself).free hd)
    refine ends_bind hfree ?_
    rintro m1 ⟨hok, hc⟩
    have hal : (a + pgSize) % pgSize = 0 := by
      rw [Nat.add_mod_right]
      exact ha
    have hpage : PageAddr a := ⟨ha, by simp only [maxVa] at hlt; omega⟩
    have hcl := cleared_setPte hpage (pt.hasTable_of_mapped hm)
    -- the other pages of the range, in the table with this one cleared
    have hiff : (∀ w ∈ pagesFrom (a + pgSize) n, LeafOk Λ doFree (pt.setPte a 0) m1 w) ↔
        ∀ w ∈ pagesFrom a (n + 1), LeafOk Λ doFree pt m w := by
      have hwal : ∀ w ∈ pagesFrom (a + pgSize) n, w % pgSize = 0 ∧ w ≠ a := by
        rintro w ⟨i, -, rfl⟩
        simp only [pgSize] at *
        omega
      rw [pagesFrom_succ]
      constructor
      · intro hall w hw
        rcases hw with rfl | hw
        · exact hok
        · exact ((hcl.leafOk hc (hwal w hw).1).mp (hall w hw)).2
      · intro hall w hw
        exact (hcl.leafOk hc (hwal w hw).1).mpr ⟨(hwal w hw).2, hall w (Or.inr hw)⟩
    refine ends_mono (ih hal) ?_ fun _ hno hall => hno (hiff.mpr hall)
    rintro ⟨pt', m'⟩ ⟨hall, hc', hcl'⟩
    refine ⟨hiff.mp hall, hc.trans hc', ?_⟩
    rw [pagesFrom_succ]
    exact hcl.trans hcl'

theorem uvmunmap_exact (doFree : Bool) (n : Nat) {a : Nat} (ha : a % pgSize = 0) : Ends (uvmunmap Λ pt m a n doFree)
      (fun r => (∀ w ∈ pagesFrom a n, LeafOk Λ doFree pt m w) ∧ SameCounts m r.2 ∧ Cleared pt (pagesFrom a n) r.1)
      (fun _ => ¬∀ w ∈ pagesFrom a n, LeafOk Λ doFree pt m w) := by
  rw [uvmunmap, if_neg (not_not.mpr ha)]
  exact unmapLoop_exact doFree n ha

end Counts

/-! ## `freewalk` -/

section Freewalk

variable {Λ : Layout}

/-- The loop of `freewalk` returns exactly when each table below can be freed, for a test `G` that only looks at counts. -/
theorem freeSubs_exact {τ : Type} {free : τ → Mem → Except Panic Mem} {G : τ → Mem → Prop}
    (hG : ∀ t m m', SameCounts m m' → (G t m' ↔ G t m))
    (hfree : ∀ t m, Ends (free t m) (fun m' => G t m ∧ SameCounts m m') (fun _ => ¬G t m)) (sub : Nat → Option τ) (n : Nat)
    (m : Mem) : Ends (freeSubs free sub n m) (fun m' => (∀ j < n, ∀ t, sub j = some t → G t m) ∧ SameCounts m m')
      (fun _ => ¬∀ j < n, ∀ t, sub j = some t → G t m) := by
  induction n with
  | zero => exact ends_pure ⟨fun j hj => absurd hj (Nat.not_lt_zero j), SameCounts.refl m⟩
  | succ n ih =>
    refine ends_bind (ends_mono ih (fun _ h => h) fun _ hno hall => hno fun j hj => hall j (by omega)) ?_
    rintro m1 ⟨hall, hc⟩
    have hlast : ∀ j < n + 1, j < n ∨ j = n := fun j hj => by omega
    cases hs : sub n with
    | none =>
      refine ends_pure ⟨fun j hj t e => ?_, hc⟩
      rcases hlast j hj with hj | rfl
      · exact hall j hj t e
      · rw [hs] at e
        cases e
    | some t =>
      refine ends_mono (hfree t m1) (fun m' hm' => ⟨fun j hj t' e => ?_, hc.trans hm'.2⟩) fun _ hno hall' => ?_
      · rcases hlast j hj with hj | rfl
        · exact hall j hj t' e
        · rw [hs] at e
          cases e
          exact (hG _ _ _ hc).mp hm'.1
      · exact hno ((hG _ _ _ hc).mpr (hall' n (by omega) t hs))

/-- What `freewalk` expects of a level-0 table. -/
def Table0.Empty (Λ : Layout) (t : Table0) (m : Mem) : Prop :=
  (∀ k < 512, hasFlag (t.pte k) pteV = false) ∧ KfreeOk Λ m (t.page * pgSize)

/-- What `freewalk` expects of a level-1 table. -/
def Table1.Empty (Λ : Layout) (t : Table1) (m : Mem) : Prop :=
  (∀ j < 512, ∀ t0, t.sub j = some t0 → t0.Empty Λ m) ∧ KfreeOk Λ m (t.page * pgSize)

theorem Table0.empty_congr (t : Table0) (m m' : Mem) (h : SameCounts m m') : t.Empty Λ m' ↔ t.Empty Λ m :=
  and_congr_right fun _ => kfreeOk_congr h _

theorem Table1.empty_congr (t : Table1) (m m' : Mem) (h : SameCounts m m') : t.Empty Λ m' ↔ t.Empty Λ m := by
  refine and_congr ?_ (kfreeOk_congr h _)
  exact forall_congr' fun j => imp_congr_right fun _ => forall_congr' fun t0 => imp_congr_right fun _ =>
    t0.empty_congr m m' h

theorem freewalk0_exact (t : Table0) (m : Mem) :
    Ends (freewalk0 Λ t m) (fun m' => t.Empty Λ m ∧ SameCounts m m') (fun _ => ¬t.Empty Λ m) := by
  refine ends_bind (ends_mono (freeLeaves_spec t.pte 512) (fun _ h => h) ?_) fun _ hall => ?_
  · rintro _ ⟨k, hk, hv⟩ he
    rw [he.1 k hk] at hv
    cases hv
  · exact ends_mono (kfree_exact _) (fun m' hk => ⟨⟨hall, hk.1⟩, hk.2⟩) fun _ hk he => hk he.2

theorem freewalk1_exact (t : Table1) (m : Mem) :
    Ends (freewalk1 Λ t m) (fun m' => t.Empty Λ m ∧ SameCounts m m') (fun _ => ¬t.Empty Λ m) := by
  refine ends_bind (ends_mono (freeSubs_exact Table0.empty_congr freewalk0_exact t.sub 512 m) (fun _ h => h)
    fun _ hno he => hno he.1) ?_
  rintro m1 ⟨hall, hc⟩
  refine ends_mono (kfree_exact _) (fun m' hk => ⟨⟨hall, (kfreeOk_congr hc _).mp hk.1⟩, hc.trans hk.2⟩) fun _ hk he => ?_
  exact hk ((kfreeOk_congr hc _).mpr he.2)

/-- The tables below the root, as `freewalk` expects them, by address. -/
theorem subsEmpty_iff (pt : PageTable) (m : Mem) :
    (∀ i < 512, ∀ t, pt.sub i = some t → t.Empty Λ m) ∧ KfreeOk Λ m (pt.page * pgSize) ↔ pt.NoLeaf ∧ TablesOk Λ m pt := by
  constructor
  · rintro ⟨hall, hroot⟩
    refine ⟨fun w hw => ?_, hroot, fun i hi pg e => ?_, fun i hi j hj pg e => ?_⟩
    · unfold mapped pte leaf
      cases hs : pt.sub (px 2 w) with
      | none => simp [hasFlag]
      | some t =>
        cases ht : t.sub (px 1 w) with
        | none => simp [ht, hasFlag]
        | some t0 =>
          simp only [Option.bind_some, ht]
          exact ((hall _ (px_lt 2 w) t hs).1 _ (px_lt 1 w) t0 ht).1 _ (px_lt 0 w)
    · obtain ⟨t, hs, rfl⟩ := Option.map_eq_some_iff.mp e
      exact (hall i hi t hs).2
    · obtain ⟨t, hs, e⟩ := Option.bind_eq_some_iff.mp e
      obtain ⟨t0, ht, rfl⟩ := Option.map_eq_some_iff.mp e
      exact ((hall i hi t hs).1 j hj t0 ht).2
  · rintro ⟨hno, ht⟩
    refine ⟨fun i hi t hs => ⟨fun j hj t0 ht0 => ⟨fun k hk => ?_, ?_⟩, ?_⟩, ht.root⟩
    · obtain ⟨e2, e1, e0⟩ := px_vaOf hi hj hk
      have hm := hno (vaOf i j k) (pageAddr_vaOf hi hj hk)
      rw [mapped, pte, e2, e1, e0, leaf] at hm
      simpa [hs, ht0] using hm
    · exact ht.low i hi j hj t0.page (by simp [low, hs, ht0])
    · exact ht.mid i hi t.page (by simp [mid, hs])

theorem freewalk_exact (pt : PageTable) (m : Mem) :
    Ends (freewalk Λ pt m) (fun _ => pt.NoLeaf ∧ TablesOk Λ m pt) (fun _ => ¬(pt.NoLeaf ∧ TablesOk Λ m pt)) := by
  rw [← subsEmpty_iff]
  refine ends_bind (ends_mono (freeSubs_exact Table1.empty_congr freewalk1_exact pt.sub 512 m) (fun _ h => h)
    fun _ hno he => hno he.1) ?_
  rintro m1 ⟨hall, hc⟩
  refine ends_mono (kfree_exact _) (fun m' hk => ⟨hall, (kfreeOk_congr hc _).mp hk.1⟩) fun _ hk he => ?_
  exact hk ((kfreeOk_congr hc _).mpr he.2)

end Freewalk

/-! ## `proc_freepagetable` -/

section Whole

variable {Λ : Layout} {m : Mem} {pt : PageTable}

theorem procFreepagetable_exact (sz : Nat) :
    Ends (procFreepagetable Λ pt m sz) (fun _ => Disposable Λ m pt sz) (fun _ => ¬Disposable Λ m pt sz) := by
  have hone : ∀ (a : Nat) (P : Nat → Prop), (∀ w ∈ pagesFrom a 1, P w) ↔ P a := fun a P => by
    rw [pagesFrom_one]
    exact ⟨fun h => h a rfl, fun h w hw => hw ▸ h⟩
  have htr : trampoline % pgSize = 0 := by decide
  have hfr : trapframe % pgSize = 0 := by decide
  have hne : trapframe ∉ pagesFrom trampoline 1 := by
    rw [pagesFrom_one]
    decide
  refine ends_bind (ends_mono (uvmunmap_exact false 1 htr) (fun _ h => h) fun _ hno hd => hno ((hone _ _).mpr hd.tramp)) ?_
  rintro ⟨pt1, m1⟩ ⟨hl1, hc1, hcl1⟩
  refine ends_bind (ends_mono (uvmunmap_exact false 1 hfr) (fun _ h => h) fun _ hno hd => hno ((hone _ _).mpr ?_)) ?_
  · exact (hcl1.leafOk hc1 hfr).mpr ⟨hne, hd.frame⟩
  rintro ⟨pt2, m2⟩ ⟨hl2, hc2, hcl2⟩
  have htramp : LeafOk Λ false pt m trampoline := (hone _ _).mp hl1
  have hframe : LeafOk Λ false pt m trapframe := ((hcl1.leafOk hc1 hfr).mp ((hone _ _).mp hl2)).2
  -- both pages of the kernel are gone from the table
  have hcl : Cleared pt (pagesFrom trampoline 1 ∪ pagesFrom trapframe 1) pt2 := hcl1.trans hcl2
  have hc : SameCounts m m2 := hc1.trans hc2
  have hmem : ∀ w, w ∈ pagesFrom trampoline 1 ∪ pagesFrom trapframe 1 ↔ w = trampoline ∨ w = trapframe := by
    intro w
    rw [pagesFrom_one, pagesFrom_one]
    rfl
  have hup : pgRoundUp sz % pgSize = 0 := pgRoundUp_mod sz
  have huser : ∀ w, w ∈ pagesFrom 0 (pgRoundUp sz / pgSize) ↔ w % pgSize = 0 ∧ w < pgRoundUp sz := by
    intro w
    constructor
    · rintro ⟨i, hi, rfl⟩
      simp only [pgSize] at *
      omega
    · rintro ⟨h1, h2⟩
      refine ⟨w / pgSize, ?_, ?_⟩ <;>
      · simp only [pgSize] at *
        omega
  have hleaves : (∀ w ∈ pagesFrom 0 (pgRoundUp sz / pgSize), LeafOk Λ true pt2 m2 w) ↔
      pgRoundUp sz ≤ trapframe ∧ ∀ w, w % pgSize = 0 → w < pgRoundUp sz → LeafOk Λ true pt m w := by
    constructor
    · intro hall
      refine ⟨?_, fun w h1 h2 => ((hcl.leafOk hc h1).mp (hall w ((huser w).mpr ⟨h1, h2⟩))).2⟩
      by_contra hgt
      have := hall trapframe ((huser _).mpr ⟨hfr, Nat.lt_of_not_le hgt⟩)
      exact ((hcl.leafOk hc hfr).mp this).1 ((hmem _).mpr (Or.inr rfl))
    · rintro ⟨hle, hall⟩ w hw
      obtain ⟨h1, h2⟩ := (huser w).mp hw
      refine (hcl.leafOk hc h1).mpr ⟨fun hs => ?_, hall w h1 h2⟩
      rcases (hmem w).mp hs with rfl | rfl
      · simp only [trampoline, trapframe] at *
        omega
      · omega
  have hunmap : Ends (if 0 < sz then uvmunmap Λ pt2 m2 0 (pgRoundUp sz / pgSize) true else pure (pt2, m2))
      (fun r => (∀ w ∈ pagesFrom 0 (pgRoundUp sz / pgSize), LeafOk Λ true pt2 m2 w) ∧ SameCounts m2 r.2 ∧
        Cleared pt2 (pagesFrom 0 (pgRoundUp sz / pgSize)) r.1) (fun _ => ¬Disposable Λ m pt sz) := by
    refine ends_ite (fun _ => ?_) fun hz => ends_pure ?_
    · exact ends_mono (uvmunmap_exact true _ (by decide)) (fun _ h => h)
        fun _ hno hd => hno (hleaves.mpr ⟨hd.below, hd.user⟩)
    have hz' : sz = 0 := by omega
    subst hz'
    have e : pgRoundUp 0 / pgSize = 0 := by decide
    rw [e, pagesFrom_zero]
    exact ⟨fun w hw => absurd hw (Set.notMem_empty w), SameCounts.refl _, Cleared.refl _⟩
  refine ends_bind hunmap ?_
  rintro ⟨pt3, m3⟩ ⟨hl3, hc3, hcl3⟩
  have hcl' := hcl.trans hcl3
  have htab : TablesOk Λ m3 pt3 ↔ TablesOk Λ m pt := (tablesOk_congr (hc.trans hc3)).trans hcl'.tablesOk
  have hrest : pt3.NoLeaf ↔ ∀ w, PageAddr w → pt.mapped w = true → w < pgRoundUp sz ∨ w = trampoline ∨ w = trapframe := by
    have hset : ∀ w, PageAddr w → (w ∈ pagesFrom trampoline 1 ∪ pagesFrom trapframe 1 ∪ pagesFrom 0 (pgRoundUp sz / pgSize) ↔
        w < pgRoundUp sz ∨ w = trampoline ∨ w = trapframe) := by
      intro w hw
      rw [Set.mem_union, hmem, huser, Or.comm]
      simp [hw.1]
    constructor
    · intro hno w hw hm
      by_contra hout
      have e := hcl'.outside w hw fun h => hout ((hset w hw).mp h)
      have := hno w hw
      rw [mapped, e] at this
      rw [mapped, this] at hm
      cases hm
    · intro hall w hw
      by_cases hs : w ∈ pagesFrom trampoline 1 ∪ pagesFrom trapframe 1 ∪ pagesFrom 0 (pgRoundUp sz / pgSize)
      · rw [mapped, hcl'.inside w hw hs]
        rfl
      · rw [mapped, hcl'.outside w hw hs]
        by_contra hm
        exact hs ((hset w hw).mpr (hall w hw (by simpa [mapped] using hm)))
  obtain ⟨hbelow, huser'⟩ := hleaves.mp hl3
  refine ends_mono (freewalk_exact pt3 m3) (fun _ h => ?_) fun _ hno hd => hno ⟨hrest.mpr hd.rest, htab.mpr hd.tables⟩
  exact ⟨htramp, hframe, hbelow, huser', hrest.mp h.1, htab.mp h.2⟩

end Whole

end Xv6Mmap

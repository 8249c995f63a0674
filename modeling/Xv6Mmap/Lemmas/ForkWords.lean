import Xv6Mmap.Lemmas.ProcWords

/-!
# What `fork` does to the memory of processes

The page table of a new process, with the trampoline and the trapframe above user memory (`KernelMap`), and the copy of user memory.
The parent's page table is among the pages `R` of the rest of the kernel, so its words are as they were however far the copy comes.
-/

namespace Xv6Mmap

open Function

open Phys

/-- The pages of `R` are still handed out, with the words they had. -/
structure KeepsPages (R : Set Nat) (w w' : Phys) : Prop where
  out : ∀ x ∈ R, w'.out x = true
  word : ∀ x ∈ R, w'.word x = w.word x

/-- Above user memory there are the trampoline and the trapframe only. -/
structure KernelMap (pt : PageTable) : Prop where
  mapped : ∀ v, PageAddr v → startAddress ≤ v → (pt.mapped v = true ↔ v = trampoline ∨ v = trapframe)
  leaf : ∀ v, v = trampoline ∨ v = trapframe → hasFlag (pt.pte v) pteRWX = true

/-- The PTE of `va` above user memory is now `x`; all others and the rest `R` are as they were. -/
structure KernelChange (R : Set Nat) (va x : Nat) (w : Phys) (pt : PageTable) (w' : Phys) (pt' : PageTable) : Prop where
  spelled : Spelled userPages R w' pt'
  page : pt'.page = pt.page
  pte : ∀ v, PageAddr v → pt'.pte v = if v = va then x else pt.pte v
  word : ∀ x ∈ R, w'.word x = w.word x

section Words

variable {S : Finset Nat} {own R : Set Nat} {A : Allocator} {w w' w'' : Phys} {pt pt' : PageTable} {bound va : Nat}

theorem KeepsPages.refl (h : ∀ x ∈ R, w.out x = true) : KeepsPages R w w := ⟨h, fun _ _ => rfl⟩

theorem KeepsPages.trans (h : KeepsPages R w w') (h' : KeepsPages R w' w'') : KeepsPages R w w'' :=
  ⟨h'.out, fun x hx => (h'.word x hx).trans (h.word x hx)⟩

theorem KeepsPages.mono {R' : Set Nat} (h : KeepsPages R w w') (hR : R' ⊆ R) : KeepsPages R' w w' :=
  ⟨fun x hx => h.out x (hR hx), fun x hx => h.word x (hR hx)⟩

theorem UserChange.keeps {lo : Nat} (h : UserChange S R lo bound w pt w' pt') : KeepsPages R w w' :=
  ⟨h.spelled.owned.rest, h.word⟩

theorem KernelChange.keeps {x : Nat} (h : KernelChange R va x w pt w' pt') : KeepsPages R w w' :=
  ⟨h.spelled.owned.rest, h.word⟩

theorem KeepsPages.spelled {R' : Set Nat} (hk : KeepsPages R w w') (h : Spelled own R' w pt) (hin : ∀ b x, pt.Holds own b x → x ∈ R) :
    Spelled own ∅ w' pt := by
  refine h.congr (fun x hx => ?_) ⟨fun b x hb => ⟨hk.out x (hin b x hb), Set.notMem_empty x⟩, h.owned.inj, fun x hx => ?_⟩
  · obtain ⟨b, hb⟩ := hx
    exact hk.word x (hin b x (holds_of_table hb))
  · exact absurd hx (Set.notMem_empty x)

/-! ## The pages above user memory -/

theorem pageAddr_trampoline : PageAddr trampoline := ⟨by decide, by decide⟩

theorem pageAddr_trapframe : PageAddr trapframe := ⟨by decide, by decide⟩

theorem notMem_userPages {v : Nat} (h : startAddress ≤ v) : v ∉ userPages := Nat.not_lt.mpr h

theorem mappages_kernel (A : Allocator) (va : Nat) (h : Spelled userPages R w pt) (hal : va % pgSize = 0) (hge : startAddress ≤ va)
    (hlt : va < maxVa) (hfree : pt.mapped va = false) (pa perm : Nat) :
    ∃ ok w' pt', w.mappages A pt.page va pgSize pa perm = .ok (ok, w') ∧
      KernelChange R va (if ok = true then mkPte pa perm else pt.pte va) w pt w' pt' := by
  have hva := pageAddr_of_lt hal hlt
  obtain ⟨w1, pt1, hg, hres⟩ := h.mappages_one A hal hlt hfree pa perm
  rcases hres with e | ⟨t, hl, e⟩
  · refine ⟨false, w1, pt1, e, hg.spelled, hg.grown.page, fun v _ => ?_, hg.grows.word⟩
    rw [hg.grown.pte]
    by_cases ev : v = va
    · rw [if_pos ev, ev, if_neg Bool.false_ne_true]
    · rw [if_neg ev]
  · refine ⟨true, _, pt1.setPte va (mkPte pa perm), e, hg.spelled.write_other _ hva (notMem_userPages hge) hl, hg.grown.page,
      fun v hv => ?_, fun x hx => ?_⟩
    · rw [pt1.pte_setPte (Spelled.hasTable_of_low hl) hva hv, hg.grown.pte, if_pos rfl]
    · rw [(hg.spelled.set_rest _ hl).word x hx]
      exact hg.grows.word x hx

theorem uvmunmap_kernel (A : Allocator) (va : Nat) (h : Spelled userPages R w pt) (hal : va % pgSize = 0) (hge : startAddress ≤ va)
    (hlt : va < maxVa) (hm : pt.mapped va = true) (hrwx : hasFlag (pt.pte va) pteRWX = true) :
    ∃ w' pt', w.uvmunmap A pt.page va 1 false = .ok w' ∧ KernelChange R va 0 w pt w' pt' := by
  have hva := pageAddr_of_lt hal hlt
  obtain ⟨pg, hl⟩ := Spelled.low_of_mapped hm
  refine ⟨w.set pg (px 0 va) 0, pt.setPte va 0, ?_, h.write_other 0 hva (notMem_userPages hge) hl, rfl, fun v hv => ?_,
    (h.set_rest 0 hl).word⟩
  · rw [Phys.uvmunmap, if_neg (not_not.mpr hal), h.unmapLoop_round A false 0 hlt hm (pteFlags_ne_of_rwx hrwx) hl]
    rfl
  · exact pt.pte_setPte (Spelled.hasTable_of_low hl) hva hv 0

theorem uvmfree_words (A : Allocator) (h : Spelled own R w pt) (hn : pt.NoLeaf) :
    ∃ w', w.uvmfree A pt.page 0 = .ok w' ∧ KeepsPages R w w' := by
  obtain ⟨w', e, hch⟩ := freewalk_words h hn
  have hnot : ∀ x ∈ R, x ∉ {x | pt.isTable x} := by
    intro x hx htab
    obtain ⟨b, hb⟩ := htab
    exact h.owned.not_mem (holds_of_table hb) hx
  refine ⟨w', ?_, fun x hx => ?_, fun x hx => hch.word x (hnot x hx)⟩
  · simp only [Phys.uvmfree, if_neg (lt_irrefl 0), pure_bind]
    rw [e]
  · rw [hch.out x (hnot x hx)]
    exact h.owned.rest x hx

theorem noLeaf_of_pte (h : ∀ v, PageAddr v → pt.pte v = 0) : pt.NoLeaf := by
  intro v hv
  rw [PageTable.mapped, h v hv]
  rfl

/-! ## A new process -/

theorem uvmcreate_none (h : w.uvmcreate A = (none, w')) : w'.word = w.word ∧ w'.out = w.out := by
  rw [Phys.uvmcreate] at h
  rcases kalloc_cases A w with ⟨w1, e, hw, ho⟩ | ⟨pg, w1, e, -, -, hne, -, -⟩
  · rw [e] at h
    cases h
    exact ⟨hw, ho⟩
  · rw [e] at h
    simp only [if_neg hne] at h
    cases h

theorem kernelMap_of_pte {x y : Nat} (hx : hasFlag x pteV = true) (hx' : hasFlag x pteRWX = true) (hy : hasFlag y pteV = true)
    (hy' : hasFlag y pteRWX = true)
    (h : ∀ v, PageAddr v → pt.pte v = if v = trapframe then y else if v = trampoline then x else 0) (S : Finset Nat) :
    UserMap S pt 0 ∧ KernelMap pt := by
  have hzero : hasFlag 0 pteV = false := rfl
  refine ⟨⟨rfl, Nat.zero_le _, fun v hv hlt => ?_, fun v _ hlt => absurd hlt (Nat.not_lt_zero v),
    fun v _ hlt => absurd hlt (Nat.not_lt_zero v)⟩, fun v hv hge => ?_, fun v hv => ?_⟩
  · rw [PageTable.mapped, h v hv, if_neg, if_neg, hzero]
    · simp
    · intro e
      subst e
      exact absurd hlt (by decide)
    · intro e
      subst e
      exact absurd hlt (by decide)
  · rw [PageTable.mapped, h v hv]
    by_cases e : v = trapframe
    · rw [if_pos e, hy]
      exact ⟨fun _ => Or.inr e, fun _ => rfl⟩
    rw [if_neg e]
    by_cases e' : v = trampoline
    · rw [if_pos e', hx]
      exact ⟨fun _ => Or.inl e', fun _ => rfl⟩
    · rw [if_neg e', hzero]
      simp [e, e']
  · rcases hv with rfl | rfl
    · rw [h trampoline pageAddr_trampoline, if_pos rfl]
      exact hx'
    · rw [h trapframe pageAddr_trapframe]
      exact hy'

/-- `proc_pagetable`: no user part below trampoline and trapframe, or all is given back. -/
theorem procPagetable_words (A : Allocator) (tramp tf : Nat) (hR : ∀ x ∈ R, w.out x = true) (S : Finset Nat) :
    ∃ r w', w.procPagetable A tramp tf = .ok (r, w') ∧ KeepsPages R w w' ∧
      ∀ root, r = some root → ∃ pt, pt.page = root ∧ Spelled userPages R w' pt ∧ UserMap S pt 0 ∧ KernelMap pt := by
  unfold Phys.procPagetable
  cases hc : w.uvmcreate A with
  | mk r w1 =>
  cases r with
  | none =>
    obtain ⟨hw, ho⟩ := uvmcreate_none hc
    exact ⟨none, w1, rfl, ⟨fun x hx => by rw [ho]; exact hR x hx, fun x _ => by rw [hw]⟩, fun _ e => nomatch e⟩
  | some root =>
    obtain ⟨hs, hg, -⟩ : Spelled userPages R w1 ⟨root, fun _ => none⟩ ∧ Grows R w w1 ∧ _ := uvmcreate_spec hR hc
    have hk1 : KeepsPages R w w1 := ⟨hs.owned.rest, hg.word⟩
    have hnew : ∀ v, (⟨root, fun _ => none⟩ : PageTable).pte v = 0 := fun _ => rfl
    obtain ⟨ok, w2, pt2, e2, hc2⟩ := mappages_kernel A trampoline hs (by decide) (by decide) (by decide)
      (by rw [PageTable.mapped, hnew]; rfl)
      (tramp * pgSize) (pteR ||| pteX)
    have hk2 := hk1.trans hc2.keeps
    simp only [e2, ok_bind]
    cases ok with
    | false =>
      obtain ⟨w3, e3, hk3⟩ := uvmfree_words A hc2.spelled (noLeaf_of_pte fun v hv => by
        rw [hc2.pte v hv, if_neg Bool.false_ne_true, hnew, hnew, ite_self])
      rw [hc2.page] at e3
      refine ⟨none, w3, ?_, hk2.trans hk3, fun _ e => nomatch e⟩
      simp only [Bool.not_false, if_true, e3, ok_bind]
      rfl
    | true =>
      have hfree : pt2.mapped trapframe = false := by
        rw [PageTable.mapped, hc2.pte _ pageAddr_trapframe, if_neg (by decide), hnew]
        rfl
      obtain ⟨ok, w3, pt3, e3, hc3⟩ := mappages_kernel A trapframe hc2.spelled (by decide) (by decide) (by decide) hfree
        (tf * pgSize) (pteR ||| pteW)
      rw [hc2.page] at e3
      have hk3 := hk2.trans hc3.keeps
      simp only [Bool.not_true, Bool.false_eq_true, if_false, e3, ok_bind]
      cases ok with
      | false =>
        have hpte : ∀ v, PageAddr v → pt3.pte v = pt2.pte v := by
          intro v hv
          rw [hc3.pte v hv, if_neg Bool.false_ne_true]
          by_cases e : v = trapframe
          · rw [if_pos e, e]
          · rw [if_neg e]
        have htr : pt3.pte trampoline = mkPte (tramp * pgSize) (pteR ||| pteX) := by
          rw [hpte _ pageAddr_trampoline, hc2.pte _ pageAddr_trampoline, if_pos rfl, if_pos rfl]
        obtain ⟨w4, pt4, e4, hc4⟩ := uvmunmap_kernel A trampoline hc3.spelled (by decide) (by decide) (by decide)
          (by rw [PageTable.mapped, htr, hasFlag_mkPte_V]) (by rw [htr]; exact rwx_mkPte (by decide))
        obtain ⟨w5, e5, hk5⟩ := uvmfree_words A hc4.spelled (noLeaf_of_pte fun v hv => by
          rw [hc4.pte v hv, hpte v hv, hc2.pte v hv]
          by_cases e : v = trampoline
          · rw [if_pos e]
          · rw [if_neg e, if_neg e, hnew])
        rw [hc3.page, hc2.page] at e4
        rw [hc4.page, hc3.page, hc2.page] at e5
        refine ⟨none, w5, ?_, (hk3.trans hc4.keeps).trans hk5, fun _ e => nomatch e⟩
        simp only [Bool.not_false, if_true, e4, e5, ok_bind]
        rfl
      | true =>
        refine ⟨some root, w3, rfl, hk3, fun r e => ⟨pt3, ?_, hc3.spelled, ?_⟩⟩
        · rw [hc3.page, hc2.page]
          exact Option.some.inj e
        · refine kernelMap_of_pte (hasFlag_mkPte_V (tramp * pgSize) (pteR ||| pteX)) (rwx_mkPte (by decide))
            (hasFlag_mkPte_V (tf * pgSize) (pteR ||| pteW)) (rwx_mkPte (by decide)) (fun v hv => ?_) S
          rw [hc3.pte v hv, if_pos rfl, hc2.pte v hv, if_pos rfl, hnew]

theorem procFreepagetable_words (A : Allocator) (h : Spelled userPages R w pt) (hu : UserMap S pt 0) (hk : KernelMap pt) :
    ∃ w', w.procFreepagetable A pt.page 0 = .ok w' ∧ KeepsPages R w w' := by
  obtain ⟨w1, pt1, e1, hc1⟩ := uvmunmap_kernel A trampoline h (by decide) (by decide) (by decide)
    ((hk.mapped _ pageAddr_trampoline (by decide)).mpr (Or.inl rfl)) (hk.leaf _ (Or.inl rfl))
  have htf : pt1.pte trapframe = pt.pte trapframe := by rw [hc1.pte _ pageAddr_trapframe, if_neg (by decide)]
  obtain ⟨w2, pt2, e2, hc2⟩ := uvmunmap_kernel A trapframe hc1.spelled (by decide) (by decide) (by decide)
    (by rw [PageTable.mapped, htf]; exact (hk.mapped _ pageAddr_trapframe (by decide)).mpr (Or.inr rfl))
    (by rw [htf]; exact hk.leaf _ (Or.inr rfl))
  have hnone : pt2.NoLeaf := by
    intro v hv
    rw [PageTable.mapped, hc2.pte v hv]
    by_cases e2 : v = trapframe
    · rw [if_pos e2]
      rfl
    rw [if_neg e2, hc1.pte v hv]
    by_cases e1 : v = trampoline
    · rw [if_pos e1]
      rfl
    rw [if_neg e1, ← Bool.not_eq_true]
    intro hm
    by_cases hlt : v < startAddress
    · exact absurd ((hu.mapped v hv hlt).mp hm) (Nat.not_lt_zero v)
    · exact ((hk.mapped v hv (Nat.le_of_not_lt hlt)).mp hm).elim e1 e2
  obtain ⟨w3, e3, hk3⟩ := uvmfree_words A hc2.spelled hnone
  rw [hc1.page] at e2
  rw [hc2.page, hc1.page] at e3
  refine ⟨w3, ?_, (hc1.keeps.trans hc2.keeps).trans hk3⟩
  rw [Phys.procFreepagetable, e1, ok_bind, e2, ok_bind, e3]

/-- `allocproc`: a trapframe and a page table, or all is given back. -/
theorem allocproc_words (A : Allocator) (tramp : Nat) (hR : ∀ x ∈ R, w.out x = true) (S : Finset Nat) :
    ∃ r w', ImageSys.allocproc A tramp w = .ok (r, w') ∧ KeepsPages R w w' ∧ ∀ tf root, r = some (tf, root) → tf ∉ R ∧
        ∃ pt, pt.page = root ∧ Spelled userPages (insert tf R) w' pt ∧ UserMap S pt 0 ∧ KernelMap pt := by
  unfold ImageSys.allocproc
  rcases kalloc_cases A w with ⟨w1, e, hw, ho⟩ | ⟨tf, w1, e, -, hout, hne, ho, hw⟩
  · rw [e]
    exact ⟨none, w1, rfl, ⟨fun x hx => by rw [ho]; exact hR x hx, fun x _ => by rw [hw]⟩, fun _ _ e => nomatch e⟩
  rw [e]
  have hnot : tf ∉ R := by
    intro hm
    have := hR tf hm
    rw [hout] at this
    cases this
  have hne' : ∀ x ∈ R, x ≠ tf := fun x hx e' => hnot (e' ▸ hx)
  have hk1 : KeepsPages R w w1 := by
    refine ⟨fun x hx => ?_, fun x hx => hw x (hne' x hx)⟩
    rw [ho, update_of_ne (hne' x hx)]
    exact hR x hx
  have hR1 : ∀ x ∈ insert tf R, w1.out x = true := by
    intro x hx
    rcases hx with rfl | hx
    · rw [ho, update_self]
    · exact hk1.out x hx
  simp only [if_neg hne, Nat.mul_div_cancel tf (show 0 < pgSize by decide)]
  obtain ⟨r, w2, e2, hk2, hr⟩ := procPagetable_words A tramp tf hR1 S
  have hk := hk1.trans (hk2.mono (Set.subset_insert tf R))
  rw [e2]
  cases r with
  | none =>
    obtain ⟨w3, e3, ho3, hw3⟩ := kfree_ok (hk2.out tf (Set.mem_insert ..))
    refine ⟨none, w3, ?_, hk.trans ⟨fun x hx => ?_, fun x hx => hw3 x (hne' x hx)⟩, fun _ _ e => nomatch e⟩
    · simp only [e3, ok_bind]
      rfl
    · rw [ho3, update_of_ne (hne' x hx)]
      exact hk.out x hx
  | some root =>
    refine ⟨some (tf, root), w2, rfl, hk, fun tf' root' e' => ?_⟩
    cases e'
    exact ⟨hnot, hr root rfl⟩

/-! ## Copying -/

theorem uvmcopy_back (A : Allocator) (h : Spelled userPages R w pt) (hu : UserMap S pt bound) :
    ∃ w' pt', w.uvmunmap A pt.page 0 (bound / pgSize) true = .ok w' ∧ UserChange S R 0 0 w pt w' pt' := by
  have hb : 0 + bound / pgSize * pgSize = bound := by
    have := hu.aligned
    simp only [pgSize] at *
    omega
  rw [← hb] at hu
  obtain ⟨w', pt', e, hc⟩ := unmapLoop_user A _ h hu rfl
  exact ⟨w', pt', e, hc⟩

theorem uvmcopyLoop_words (hA : PicksFrom A S) {old : PageTable} {top : Nat} (n : Nat) {i : Nat} (h : Spelled userPages R w pt)
    (hu : UserMap S pt i) (ho : Spelled userPages ∅ w old) (hin : ∀ b x, old.Holds userPages b x → x ∈ R) (hold : UserMap S old top)
    (hle : i + n * pgSize ≤ top) : ∃ ok w' pt', Phys.uvmcopyLoop A old.page pt.page n w i = .ok (ok, w') ∧
      UserChange S R 0 (if ok = true then i + n * pgSize else 0) w pt w' pt' := by
  induction n generalizing i w pt with
  | zero => exact ⟨true, w, pt, rfl, by simpa using UserChange.refl h hu 0⟩
  | succ n ih =>
    have hstep : i + pgSize + n * pgSize = i + (n + 1) * pgSize := by
      simp only [pgSize]
      omega
    have hlt : i < top := by
      simp only [pgSize] at hle
      omega
    have hlt' : i < startAddress := lt_of_lt_of_le hlt hold.le
    have hi := pageAddr_of_lt hu.aligned (lt_maxVa_of_user hlt')
    have hm : old.mapped i = true := (hold.mapped i hi hlt').mpr hlt
    obtain ⟨t, hl⟩ := Spelled.low_of_mapped hm
    have hv : hasFlag (old.pte i) pteV = true := hm
    unfold Phys.uvmcopyLoop
    rw [ho.walk_look A (lt_maxVa_of_user hlt'), hl, ok_bind]
    simp only [Option.map_some, ho.word_pte hl, hv, Bool.not_true, Bool.false_eq_true, if_false]
    rcases kalloc_user hA h with ⟨w1, e, hs, hw⟩ | ⟨pg, w1, e, hne, hpS, hpg, hs, hw⟩
    · rw [e]
      obtain ⟨w', pt', e', hc⟩ := uvmcopy_back A hs hu
      refine ⟨false, w', pt', ?_, hc.spelled, hc.page, hc.user, hc.pte, fun x hx => ?_⟩
      · simp only [if_true, e', ok_bind]
        rfl
      · rw [hc.word x hx, hw]
    · rw [e]
      simp only [if_neg hne, Nat.mul_div_cancel pg (show 0 < pgSize by decide)]
      -- the page is filled and mapped
      have hword : ∀ y, y ≠ pg → (w1.copyPage pg (ptePage (old.pte i))).word y = w1.word y :=
        fun y hy => update_of_ne hy _ _
      have hfill : Spelled userPages (insert pg R) (w1.copyPage pg (ptePage (old.pte i))) pt :=
        hs.write_hand (Set.mem_insert ..) hword rfl
      have hkeep : ∀ x ∈ R, (w1.copyPage pg (ptePage (old.pte i))).word x = w.word x := by
        intro x hx
        have hxp : x ≠ pg := fun e' => hpg (e' ▸ hx)
        rw [hword x hxp, hw x hxp]
      obtain ⟨w2, pt2, hmap⟩ := mappages_user A hA.room hfill hpg hpS hu (pteFlags_lt (old.pte i))
        (by rw [rwx_pteFlags]; exact hold.leaf i hi hlt)
      rcases hmap with ⟨e2, hc2⟩ | ⟨e2, hc2⟩
      · obtain ⟨w3, e3, hs3, hw3⟩ := hc2.spelled.kfree_hand hpg
        obtain ⟨w', pt', e', hc⟩ := uvmcopy_back A hs3 hc2.user
        rw [hc2.page] at e'
        refine ⟨false, w', pt', ?_, hc.spelled, hc.page.trans hc2.page, hc.user, fun v hv hor => ?_, fun x hx => ?_⟩
        · rw [e2]
          simp only [Bool.false_eq_true, if_false, e3, ok_bind, e']
          rfl
        · rw [hc.pte v hv hor]
          exact hc2.pte v hv (hor.imp_left fun h0 => by omega)
        · rw [hc.word x hx, hw3 x fun e' => hpg (e' ▸ hx), hc2.word x (Set.mem_insert_of_mem _ hx), hkeep x hx]
      · -- the old page table is as it was, so the next round finds its page
        have hk : KeepsPages R w w2 := ⟨hc2.spelled.owned.rest, fun x hx => (hc2.word x hx).trans (hkeep x hx)⟩
        obtain ⟨ok, w', pt', e', hc⟩ := ih hc2.spelled hc2.user (hk.spelled ho hin) (by rw [hstep]; exact hle)
        rw [hc2.page] at e'
        refine ⟨ok, w', pt', ?_, hc.spelled, hc.page.trans hc2.page, ?_, fun v hv hor => ?_, fun x hx => ?_⟩
        · rw [e2]
          exact e'
        · rw [← hstep]
          exact hc.user
        · rw [hc.pte v hv hor]
          exact hc2.pte v hv (hor.imp_left fun h0 => by omega)
        · rw [hc.word x hx, hk.word x hx]

/-- `uvmcopy`: user memory of the same size, or none. -/
theorem uvmcopy_words (hA : PicksFrom A S) {old : PageTable} {sz : Nat} (h : Spelled userPages R w pt) (hu : UserMap S pt 0)
    (ho : Spelled userPages ∅ w old) (hin : ∀ b x, old.Holds userPages b x → x ∈ R) (hold : UserMap S old (pgRoundUp sz))
    (hsz : sz < 2 ^ 64 - pgSize) : ∃ ok w' pt', w.uvmcopy A old.page pt.page sz = .ok (ok, w') ∧
      UserChange S R 0 (if ok = true then pgRoundUp sz else 0) w pt w' pt' := by
  have hpages : 0 + (sz + (pgSize - 1)) / pgSize * pgSize = pgRoundUp sz := by
    rw [pgRoundUp_eq (by simp only [pgSize] at hsz; omega)]
    simp only [pgSize]
    omega
  obtain ⟨ok, w', pt', e, hc⟩ := uvmcopyLoop_words hA ((sz + (pgSize - 1)) / pgSize) h hu ho hin hold (le_of_eq hpages)
  rw [hpages] at hc
  exact ⟨ok, w', pt', e, hc⟩

/-! ## The guard page of the stack -/

theorem ptePage_eq (pte : Nat) : ptePage pte = pte / 1024 := by
  rw [ptePage, pte2pa, Nat.shiftLeft_eq, Nat.shiftRight_eq_div_pow, Nat.mul_div_cancel _ (by decide)]

theorem testBit_notU : ∀ i < 64, (2 ^ 64 - 1 - pteU).testBit i = !decide (i = 4) := by decide

/-- Without `PTE_U` a PTE has the same page and the other flags. -/
theorem clearU_spec {pte : Nat} (h : ptePage pte < 2 ^ 44) : ptePage (pte &&& (2 ^ 64 - 1 - pteU)) = ptePage pte ∧
      ∀ m, m < 16 → hasFlag (pte &&& (2 ^ 64 - 1 - pteU)) m = hasFlag pte m := by
  have hlt : pte < 2 ^ 64 := by
    rw [ptePage_eq] at h
    omega
  have hbit : ∀ i, i ≠ 4 → (pte &&& (2 ^ 64 - 1 - pteU)).testBit i = pte.testBit i := by
    intro i hi
    rw [Nat.testBit_and]
    by_cases h64 : i < 64
    · rw [testBit_notU i h64, decide_eq_false hi, Bool.not_false, Bool.and_true]
    · rw [Nat.testBit_lt_two_pow (lt_of_lt_of_le hlt (Nat.pow_le_pow_right (by decide) (Nat.le_of_not_lt h64))), Bool.false_and]
  constructor
  · rw [ptePage_eq, ptePage_eq]
    refine Nat.eq_of_testBit_eq fun i => ?_
    rw [show (1024 : Nat) = 2 ^ 10 from rfl, Nat.testBit_div_two_pow, Nat.testBit_div_two_pow]
    exact hbit _ (by omega)
  · intro m hm
    rw [Bool.eq_iff_iff, hasFlag_iff, hasFlag_iff]
    have hm4 : ∀ i, m.testBit i = true → i ≠ 4 := by
      intro i hi e
      rw [e, Nat.testBit_lt_two_pow hm] at hi
      cases hi
    constructor
    · intro hx
      obtain ⟨i, h1, h2⟩ := hx
      rw [hbit i (hm4 i h2)] at h1
      exact ⟨i, h1, h2⟩
    · intro hx
      obtain ⟨i, h1, h2⟩ := hx
      rw [← hbit i (hm4 i h2)] at h1
      exact ⟨i, h1, h2⟩

theorem uvmclear_words (A : Allocator) (hS : ∀ x ∈ S, x < 2 ^ 44) (h : Spelled userPages R w pt) (hu : UserMap S pt bound)
    (hal : va % pgSize = 0) (hlt : va < bound) :
    ∃ w' pt', w.uvmclear A pt.page va = .ok w' ∧ UserChange S R va bound w pt w' pt' := by
  have hlt' : va < startAddress := lt_of_lt_of_le hlt hu.le
  have hva := pageAddr_of_lt hal (lt_maxVa_of_user hlt')
  have hm : pt.mapped va = true := (hu.mapped va hva hlt').mpr hlt
  obtain ⟨pg, hl⟩ := Spelled.low_of_mapped hm
  obtain ⟨hpage, hflag⟩ := clearU_spec (hS _ (hu.phys va hva hlt))
  have hpte : ∀ v, PageAddr v → (pt.setPte va (pt.pte va &&& (2 ^ 64 - 1 - pteU))).pte v =
      if v = va then pt.pte va &&& (2 ^ 64 - 1 - pteU) else pt.pte v :=
    fun v hv => pt.pte_setPte (Spelled.hasTable_of_low hl) hva hv _
  refine ⟨_, _, ?_, h.write_flags hva hm hl hpage, rfl, ⟨hu.aligned, hu.le, fun v hv hvlt => ?_, fun v hv hvlt => ?_,
    fun v hv hvlt => ?_⟩, fun v hv hor => ?_, (h.set_rest _ hl).word⟩
  · rw [Phys.uvmclear, h.walk_look A (lt_maxVa_of_user hlt'), hl, ok_bind]
    simp only [Option.map_some, h.word_pte hl]
    rfl
  · rw [← hu.mapped v hv hvlt, PageTable.mapped, PageTable.mapped, hpte v hv]
    by_cases e : v = va
    · rw [if_pos e, hflag pteV (by decide), e]
    · rw [if_neg e]
  · rw [hpte v hv]
    by_cases e : v = va
    · rw [if_pos e, hpage]
      exact hu.phys va hva hlt
    · rw [if_neg e]
      exact hu.phys v hv hvlt
  · rw [hpte v hv]
    by_cases e : v = va
    · rw [if_pos e, hflag pteRWX (by decide)]
      exact hu.leaf va hva hlt
    · rw [if_neg e]
      exact hu.leaf v hv hvlt
  · rw [hpte v hv, if_neg (by omega)]

end Words

end Xv6Mmap

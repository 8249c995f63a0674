import Xv6Mmap.Boot
import Xv6Mmap.Lemmas.Pages
import Mathlib.Data.Finset.Basic

/-!
# The page allocator over runs

Runs of `kalloc` and `kfree` from `kinit` on, by any callers: the addresses in their hands are those that calls returned, other than
`0`, and that were not freed since. The free list and these addresses share out the managed pages as long as `kalloc` is called with a
page free. With none free it does not return `0`, so its caller takes the wild address for a page.

The last sections allow `kfree` on any address (`CallRun`): what its look at the count catches, and what callers do with no page free.
-/

namespace Xv6Mmap

open Function

variable {Λ : Layout} {r : Nat} {m : Mem} {A : Finset Nat}

/-- The states and the addresses in the callers' hands, reached from `kinit` by calls of `kalloc`, in states that meet `P`, and of
`kfree` on these. -/
inductive AllocRun (Λ : Layout) (P : Mem → Prop) : Mem → Finset Nat → Prop where
  | kinit {m : Mem} : kinit Λ Mem.zero = .ok m → AllocRun Λ P m ∅
  | kalloc {m m' : Mem} {A : Finset Nat} {pa : Nat} : AllocRun Λ P m A → P m → kalloc Λ m = (pa, m') →
      AllocRun Λ P m' (if pa = 0 then A else insert pa A)
  | kfree {m m' : Mem} {A : Finset Nat} {pa : Nat} : AllocRun Λ P m A → pa ∈ A → kfree Λ m pa = .ok m' →
      AllocRun Λ P m' (A.erase pa)

/-- The address of a page of `[PGROUNDUP(end), PHYSTOP)`. -/
def Layout.inRange (Λ : Layout) (pa : Nat) : Prop := pa % pgSize = 0 ∧ pgRoundUp Λ.endAddr ≤ pa ∧ pa < physTop

instance (Λ : Layout) (pa : Nat) : Decidable (Λ.inRange pa) := inferInstanceAs (Decidable (_ ∧ _ ∧ _))

/-- The free list and the addresses in the callers' hands share out the pages of the range, and `kfree` returns on each of these
addresses. -/
structure SharedOut (Λ : Layout) (m : Mem) (A : Finset Nat) : Prop where
  freelist : ∃ fl, Chain (fun r => (m.runs r).next) m.freelist fl ∧ fl.Nodup ∧ (∀ r ∈ fl, r * pgSize ∉ A) ∧
    ∀ pa, (pa ∈ A ∨ ∃ r ∈ fl, r * pgSize = pa) ↔ Λ.inRange pa
  ref : ∀ pa ∈ A, (m.runs (pa / pgSize)).ref = 1
  freed : ∀ pa ∈ A, ∃ m', kfree Λ m pa = .ok m'

/-- What the callers expect of `kalloc`: a result other than `0` is the address of a page of the range that nobody has. -/
def Hands (Λ : Layout) (m : Mem) (A : Finset Nat) : Prop :=
  (kalloc Λ m).1 ≠ 0 → Λ.inRange (kalloc Λ m).1 ∧ (kalloc Λ m).1 ∉ A

/-! ## The invariant -/

theorem inRange_iff {pa : Nat} : Λ.inRange pa ↔ ∃ r, Λ.managed r ∧ r * pgSize = pa := by
  have h1 := Λ.end_le
  have h2 : Λ.endAddr ≤ pgRoundUp Λ.endAddr := le_pgRoundUp (by simp only [physTop, kernBase] at h1; omega)
  constructor
  · intro h
    have e : pa / pgSize * pgSize = pa := Nat.div_mul_cancel (Nat.dvd_of_mod_eq_zero h.1)
    refine ⟨pa / pgSize, ⟨?_, ?_⟩, e⟩
    · rw [e]
      exact h2.trans h.2.1
    · rw [e]
      exact h.2.2
  · intro h
    obtain ⟨r, hr, rfl⟩ := h
    have hmod : r * pgSize % pgSize = 0 := Nat.mul_mod_left _ _
    exact ⟨hmod, pgRoundUp_le hmod hr.1, hr.2⟩

/-- The callers have exactly the pages that the allocator has out. -/
def HeldPages (m : Mem) (A : Finset Nat) : Prop := ∀ pa, pa ∈ A ↔ ∃ r, m.out r = true ∧ r * pgSize = pa

theorem page_mul_inj {r' : Nat} (h : r * pgSize = r' * pgSize) : r = r' :=
  Nat.eq_of_mul_eq_mul_right (by decide) h

theorem HeldPages.mul_mem (h : HeldPages m A) : r * pgSize ∈ A ↔ m.out r = true := by
  rw [h]
  constructor
  · intro hx
    obtain ⟨r', hr', e⟩ := hx
    rwa [← page_mul_inj e]
  · intro hr
    exact ⟨r, hr, rfl⟩

theorem HeldPages.insert {m' : Mem} (h : HeldPages m A)
    (hout : m'.out = update m.out r true) : HeldPages m' (insert (r * pgSize) A) := by
  intro pa
  rw [Finset.mem_insert, h pa, hout]
  constructor
  · intro hpa
    rcases hpa with rfl | ⟨r', hr', rfl⟩
    · exact ⟨r, update_self .., rfl⟩
    · refine ⟨r', ?_, rfl⟩
      by_cases e : r' = r
      · rw [e, update_self]
      · rwa [update_of_ne e]
  · intro hpa
    obtain ⟨r', hr', rfl⟩ := hpa
    by_cases e : r' = r
    · exact Or.inl (by rw [e])
    · rw [update_of_ne e] at hr'
      exact Or.inr ⟨r', hr', rfl⟩

theorem HeldPages.erase {m' : Mem} (h : HeldPages m A)
    (hout : m'.out = update m.out r false) : HeldPages m' (A.erase (r * pgSize)) := by
  intro pa
  rw [Finset.mem_erase, h pa, hout]
  constructor
  · intro hpa
    obtain ⟨hne, r', hr', rfl⟩ := hpa
    refine ⟨r', ?_, rfl⟩
    rwa [update_of_ne fun e => hne (by rw [e])]
  · intro hpa
    obtain ⟨r', hr', rfl⟩ := hpa
    by_cases e : r' = r
    · rw [e, update_self] at hr'
      cases hr'
    · rw [update_of_ne e] at hr'
      exact ⟨fun e' => e (page_mul_inj e'), r', hr', rfl⟩

/-- Runs in which a page is free at every `kalloc`. -/
theorem AllocRun.kmemInv (h : AllocRun Λ (fun m => m.freelist ≠ none) m A) : KmemInv Λ m ∧ HeldPages m A := by
  induction h with
  | kinit hm =>
    rw [kinit_eq] at hm
    cases hm
    refine ⟨kmemInv_boot Λ, fun pa => ⟨fun h => absurd h (Finset.notMem_empty pa), fun h => ?_⟩⟩
    obtain ⟨r, hr, -⟩ := h
    cases hr
  | kalloc _ hfree e ih =>
    obtain ⟨hinv, hheld⟩ := ih
    rcases kalloc_spec hinv with ⟨hnone, -⟩ | ⟨r, m1, e1, -, hman, -, hinv', hout, -⟩
    · exact absurd hnone hfree
    rw [e1] at e
    cases e
    have hne : r * pgSize ≠ 0 := by
      have h2 := Λ.runs_lt
      have h3 := hman.1
      omega
    rw [if_neg hne]
    exact ⟨hinv', hheld.insert hout⟩
  | kfree _ hpa e ih =>
    obtain ⟨hinv, hheld⟩ := ih
    obtain ⟨r, hr, rfl⟩ := (hheld _).mp hpa
    obtain ⟨m1, e1, hinv', hout, -⟩ := kfree_spec hinv hr
    rw [e1] at e
    cases e
    exact ⟨hinv', hheld.erase hout⟩

theorem sharedOut_of_kmemInv (hinv : KmemInv Λ m) (hheld : HeldPages m A) : SharedOut Λ m A where
  freelist := by
    obtain ⟨fl, hc, hfl, hall⟩ := hinv.chain
    refine ⟨fl, hc, hc.nodup, fun r hr hA => ?_, fun pa => ?_⟩
    · rw [hheld.mul_mem, (hfl r hr).2] at hA
      cases hA
    rw [inRange_iff]
    constructor
    · intro h
      rcases h with h | ⟨r, hr, rfl⟩
      · obtain ⟨r, hr, rfl⟩ := (hheld pa).mp h
        exact ⟨r, (hinv.out r hr).1, rfl⟩
      · exact ⟨r, (hfl r hr).1, rfl⟩
    · intro h
      obtain ⟨r, hr, rfl⟩ := h
      cases ho : m.out r with
      | true => exact Or.inl (hheld.mul_mem.mpr ho)
      | false => exact Or.inr ⟨r, hall r hr ho, rfl⟩
  ref := by
    intro pa hpa
    obtain ⟨r, hr, rfl⟩ := (hheld pa).mp hpa
    rw [Nat.mul_div_cancel _ (by decide)]
    exact (hinv.out r hr).2
  freed := by
    intro pa hpa
    obtain ⟨r, hr, rfl⟩ := (hheld pa).mp hpa
    obtain ⟨m', e, -⟩ := kfree_spec hinv hr
    exact ⟨m', e⟩

theorem nullRun_not_inRange (Λ : Layout) : ¬Λ.inRange Λ.nullRun := by
  intro h
  obtain ⟨r, hr, e⟩ := inRange_iff.mp h
  have hram := managed_isRam hr
  rw [e, nullRun_not_isRam] at hram
  cases hram

/-- `kalloc` does what its callers expect exactly when a page is free. -/
theorem hands_iff (hinv : KmemInv Λ m) (hheld : HeldPages m A) : Hands Λ m A ↔ m.freelist ≠ none := by
  rcases kalloc_spec hinv with ⟨hnone, e⟩ | ⟨r, m1, e, hsome, hman, hout, -⟩
  · rw [Hands, e]
    exact ⟨fun h => absurd (h (nullRun_ne_zero Λ)).1 (nullRun_not_inRange Λ), fun h => absurd hnone h⟩
  · rw [Hands, e, hsome]
    refine ⟨fun _ => Option.some_ne_none r, fun _ _ => ⟨inRange_iff.mpr ⟨r, hman, rfl⟩, fun hA => ?_⟩⟩
    rw [hheld.mul_mem, hout] at hA
    cases hA

/-- In every run whose calls of `kalloc` find a page free, the free list and the pages in the callers' hands share out the range,
and `kalloc` gives a page that nobody has or `0` exactly when a page is free. -/
theorem page_allocator {Λ : Layout} {m : Mem} {A : Finset Nat} (h : AllocRun Λ (fun m => m.freelist ≠ none) m A) :
    SharedOut Λ m A ∧ (Hands Λ m A ↔ m.freelist ≠ none) := by
  obtain ⟨hinv, hheld⟩ := h.kmemInv
  exact ⟨sharedOut_of_kmemInv hinv hheld, hands_iff hinv hheld⟩

/-! ## Running out of pages -/

theorem AllocRun.exhausts (h : AllocRun Λ (fun m => m.freelist ≠ none) m A) :
    ∃ m' A', AllocRun Λ (fun m => m.freelist ≠ none) m' A' ∧ m'.freelist = none := by
  obtain ⟨fl, hc, -⟩ := h.kmemInv.1.chain
  induction fl generalizing m A with
  | nil => exact ⟨m, A, h, Chain.nil_iff.mp hc⟩
  | cons r l ih =>
    obtain ⟨hhead, hl⟩ := Chain.cons_iff.mp hc
    have hnext := h.kalloc (by rw [hhead]; exact Option.some_ne_none r) rfl
    refine ih hnext ?_
    -- the head is off the list, and no link of the rest has changed
    have hne : ∀ x ∈ l, x ≠ r := by
      intro x hx e
      exact (List.nodup_cons.mp hc.nodup).1 (e ▸ hx)
    simp only [hhead]
    refine hl.congr fun x hx => ?_
    rw [update_of_ne (hne x hx)]

theorem AllocRun.mono {P Q : Mem → Prop} (hPQ : ∀ m, P m → Q m) (h : AllocRun Λ P m A) : AllocRun Λ Q m A := by
  induction h with
  | kinit hm => exact .kinit hm
  | kalloc _ hp e ih => exact .kalloc ih (hPQ _ hp) e
  | kfree _ hpa e ih => exact .kfree ih hpa e

/-- With every page taken `kalloc` returns an address that is not `0` and of no page; it is then in its caller's hands, and
`kfree` panics on it. -/
theorem kalloc_returns_wild : ∃ m A, AllocRun demoLayout (fun _ => True) m A ∧ ¬Hands demoLayout m A ∧
    ∃ m' A', AllocRun demoLayout (fun _ => True) m' A' ∧ ∃ pa ∈ A', ¬demoLayout.inRange pa ∧ kfree demoLayout m' pa = .error .kfree := by
  obtain ⟨m, A, h, hnone⟩ := (AllocRun.kinit (kinit_eq demoLayout)).exhausts
  have hall : AllocRun demoLayout (fun _ => True) m A := h.mono fun _ _ => trivial
  have hwild : kalloc demoLayout m = (demoLayout.nullRun, m) := by simp only [kalloc, hnone]
  refine ⟨m, A, hall, fun hh => ?_, m, _, hall.kalloc trivial hwild, demoLayout.nullRun, ?_, nullRun_not_inRange _, ?_⟩
  · obtain ⟨hinv, hheld⟩ := h.kmemInv
    exact (hands_iff hinv hheld).mp hh hnone
  · rw [if_neg (nullRun_ne_zero _)]
    exact Finset.mem_insert_self ..
  · have hpanic : demoLayout.nullRun % pgSize ≠ 0 ∨ demoLayout.nullRun < demoLayout.endAddr ∨ physTop ≤ demoLayout.nullRun := by
      decide
    rw [kfree, if_pos hpanic]
    rfl

/-- A run that takes two pages and gives the first one back. -/
theorem page_allocator_two : ∃ m A, AllocRun demoLayout (fun m => m.freelist ≠ none) m A ∧ A.card = 1 ∧ SharedOut demoLayout m A ∧
    (Hands demoLayout m A ↔ m.freelist ≠ none) := by
  have h0 := AllocRun.kinit (P := fun m => m.freelist ≠ none) (kinit_eq demoLayout)
  have h1 := h0.kalloc (by decide) rfl
  have h2 := h1.kalloc (by decide) rfl
  obtain ⟨m', e⟩ := (page_allocator h2).1.freed ((kalloc demoLayout (Mem.boot demoLayout)).1) (by decide)
  have h3 := h2.kfree (by decide) e
  exact ⟨m', _, h3, by decide, page_allocator h3⟩

/-! ## Calls with any argument -/

/-- Runs of `kalloc`, and of `kfree` on any address: with the memory go the addresses that are allocated, and those that ever
were. -/
inductive CallRun (Λ : Layout) : Mem → Finset Nat → Finset Nat → Prop where
  | kinit {m : Mem} : kinit Λ Mem.zero = .ok m → CallRun Λ m ∅ ∅
  | kalloc {m m' : Mem} {A T : Finset Nat} {pa : Nat} : CallRun Λ m A T → kalloc Λ m = (pa, m') →
      CallRun Λ m' (insert pa A) (insert pa T)
  | kfree {m m' : Mem} {A T : Finset Nat} {pa : Nat} : CallRun Λ m A T → kfree Λ m pa = .ok m' → CallRun Λ m' (A.erase pa) T

/-- Page 0 is on no list, and the count of a page says whether it was ever handed out. -/
structure CallInv (Λ : Layout) (m : Mem) (T : Finset Nat) : Prop where
  head : m.freelist ≠ some 0
  next : ∀ x, (m.runs x).next ≠ some 0
  ref : ∀ pa, Λ.inRange pa → (m.runs (pa / pgSize)).ref = if pa ∈ T then 1 else 0

theorem callInv_freed (Λ : Layout) (n : Nat) : CallInv Λ (Mem.freed Λ n) ∅ := by
  have hpos : 0 < Λ.firstPage := by
    have h1 := Λ.firstPage_addr.1
    have h3 := Λ.runs_lt
    simp only [pgSize] at *
    omega
  refine ⟨?_, fun x => ?_, fun pa _ => rfl⟩
  · simp only [Mem.freed]
    split_ifs
    · rintro ⟨⟩
    · rw [ne_eq, Option.some.injEq]
      omega
  · simp only [Mem.freed]
    split_ifs
    · rw [ne_eq, Option.some.injEq]
      omega
    · rintro ⟨⟩

theorem CallInv.kalloc {T : Finset Nat} (h : CallInv Λ m T) : CallInv Λ (kalloc Λ m).2 (insert (kalloc Λ m).1 T) := by
  unfold Xv6Mmap.kalloc
  cases hh : m.freelist with
  | none =>
    refine ⟨h.head, h.next, fun pa hpa => ?_⟩
    have hne : pa ≠ Λ.nullRun := fun e => nullRun_not_inRange Λ (e ▸ hpa)
    simp only [Finset.mem_insert, hne, false_or]
    exact h.ref pa hpa
  | some r =>
    refine ⟨h.next r, ?_, fun pa hpa => ?_⟩
    · exact (forall_update_iff m.runs fun _ x => x.next ≠ some 0).mpr ⟨h.next r, fun x _ => h.next x⟩
    have hdiv : pa / pgSize * pgSize = pa := Nat.div_mul_cancel (Nat.dvd_of_mod_eq_zero hpa.1)
    by_cases e : pa / pgSize = r
    · have hin : pa ∈ insert (r * pgSize) T := Finset.mem_insert.mpr (Or.inl (by rw [← e, hdiv]))
      simp only [e, update_self, if_pos hin]
    · have hne : pa ≠ r * pgSize := fun e' => e (page_mul_inj (hdiv.trans e'))
      simp only [update_of_ne e, Finset.mem_insert, hne, false_or]
      exact h.ref pa hpa

theorem CallInv.kfree {T : Finset Nat} {m' : Mem} {pa : Nat} (h : CallInv Λ m T) (e : kfree Λ m pa = .ok m') : CallInv Λ m' T := by
  unfold Xv6Mmap.kfree at e
  split_ifs at e with h1 h2
  cases e
  refine ⟨?_, ?_, fun x hx => ?_⟩
  · have h4 := Λ.runs_lt
    rw [ne_eq, Option.some.injEq]
    simp only [pgSize] at *
    omega
  · exact (forall_update_iff m.runs fun _ x => x.next ≠ some 0).mpr ⟨h.head, fun x _ => h.next x⟩
  · rw [← h.ref x hx]
    refine (forall_update_iff m.runs fun y r => r.ref = (m.runs y).ref).mpr ⟨?_, fun _ _ => rfl⟩ _
    rfl

theorem CallRun.inv {T : Finset Nat} (h : CallRun Λ m A T) : CallInv Λ m T := by
  induction h with
  | kinit hm =>
    rw [kinit_eq] at hm
    cases hm
    exact callInv_freed Λ _
  | kalloc _ e ih =>
    have := ih.kalloc
    rwa [e] at this
  | kfree _ e ih => exact ih.kfree e

/-! ## Double frees -/

/-- A free of a page that is not allocated fails the look at its count. -/
def FreeCaught (Λ : Layout) (m : Mem) (A : Finset Nat) (pa : Nat) : Prop := pa ∉ A → kfree Λ m pa = .error .kfreeRef

/-- `kfree` leaves the count at the 1 that `kalloc` set, so it catches a free of a page that is not allocated exactly when the
page was never handed out. -/
theorem double_free {Λ : Layout} {m : Mem} {A T : Finset Nat} {pa : Nat} (h : CallRun Λ m A T) (hpa : Λ.inRange pa) :
    FreeCaught Λ m A pa ↔ (pa ∈ T → pa ∈ A) := by
  have hcond : ¬(pa % pgSize ≠ 0 ∨ pa < Λ.endAddr ∨ physTop ≤ pa) := by
    obtain ⟨r, ⟨h1, h2⟩, rfl⟩ := inRange_iff.mp hpa
    have h3 : r * pgSize % pgSize = 0 := Nat.mul_mod_left _ _
    omega
  have href := h.inv.ref pa hpa
  by_cases hT : pa ∈ T
  · rw [if_pos hT] at href
    have hok : kfree Λ m pa ≠ .error .kfreeRef := by
      rw [kfree, if_neg hcond, if_neg (not_not.mpr href)]
      rintro ⟨⟩
    exact ⟨fun hc _ => by_contra fun hA => hok (hc hA), fun hA hn => absurd (hA hT) hn⟩
  · rw [if_neg hT] at href
    have herr : kfree Λ m pa = .error .kfreeRef := by
      rw [kfree, if_neg hcond, if_pos (by rw [href]; decide)]
      rfl
    exact ⟨fun _ hT' => absurd hT' hT, fun _ _ => herr⟩

/-- A page taken, freed and freed again: the second free returns too, and the page is then its own successor on the free list. -/
theorem double_free_passes : ∃ m A T pa m', CallRun demoLayout m A T ∧ demoLayout.inRange pa ∧ pa ∉ A ∧
    kfree demoLayout m pa = .ok m' ∧ m'.freelist = some (pa / pgSize) ∧ (m'.runs (pa / pgSize)).next = some (pa / pgSize) := by
  have h1 := (CallRun.kinit (kinit_eq demoLayout)).kalloc rfl
  have h2 := @CallRun.kfree _ _ _ _ _ (kalloc demoLayout (Mem.boot demoLayout)).1 h1 rfl
  exact ⟨_, _, _, (kalloc demoLayout (Mem.boot demoLayout)).1, _, h2, by decide, by decide, rfl, rfl, rfl⟩

/-- The page at the end of the list, freed before it was ever taken. -/
theorem double_free_first : CallRun demoLayout (Mem.boot demoLayout) ∅ ∅ ∧ demoLayout.inRange (pgRoundUp demoLayout.endAddr) ∧
    FreeCaught demoLayout (Mem.boot demoLayout) ∅ (pgRoundUp demoLayout.endAddr) := by
  have h := CallRun.kinit (kinit_eq demoLayout)
  exact ⟨h, by decide, (double_free h (by decide)).mpr fun hT => absurd hT (Finset.notMem_empty _)⟩

/-! ## Running out of memory -/

/-- With no page free `kalloc` returns `0`, and its callers, where they need a page, take the exits they have for that. -/
structure Reported (Λ : Layout) (m : Mem) : Prop where
  kalloc : (kalloc Λ m).1 = 0 ↔ m.freelist = none
  walk : m.freelist = none → ∀ pt va, va < maxVa → pt.hasTable va = false → walk Λ pt m va true = .ok (false, pt, m)
  uvmcreate : m.freelist = none → uvmcreate Λ m = .ok (none, m)
  uvmalloc : m.freelist = none → ∀ pt oldsz newsz, oldsz ≤ newsz → pgRoundUp oldsz < newsz →
    uvmalloc Λ pt m oldsz newsz = .ok (0, pt, m)
  uvmcopy : m.freelist = none → ∀ old new sz, 0 < sz → old.mapped 0 = true → uvmcopy Λ old new m sz = .ok (false, new, m)
  pipealloc : m.freelist = none → ∀ io k f g, k.mem = m → f < nfile → g < nfile → f ≠ g → (k.ftable f).ref = 0 →
    (k.ftable g).ref = 0 → (∀ x, (k.ftable x).ref = 0 → (k.ftable x).type = .none) → ∃ k', pipealloc Λ io k = .ok (none, k')
  exec : m.freelist = none → ∀ tf size data argv, execImage Λ m tf size data argv = .ok (none, m)

/-- `kalloc` tells its callers whether a page is free exactly when one is. -/
theorem memory_reported {Λ : Layout} {m : Mem} {A T : Finset Nat} (h : CallRun Λ m A T) :
    Reported Λ m ↔ m.freelist ≠ none := by
  constructor
  · intro hr hnone
    have h0 := hr.kalloc.mpr hnone
    rw [kalloc, hnone] at h0
    exact nullRun_ne_zero Λ h0
  · intro hsome
    refine ⟨⟨fun h0 => ?_, fun hn => absurd hn hsome⟩, fun hn => absurd hn hsome, fun hn => absurd hn hsome,
      fun hn => absurd hn hsome, fun hn => absurd hn hsome, fun hn => absurd hn hsome, fun hn => absurd hn hsome⟩
    obtain ⟨r, hr⟩ := Option.ne_none_iff_exists'.mp hsome
    have hhead := h.inv.head
    rw [hr, ne_eq, Option.some.injEq] at hhead
    rw [kalloc, hr] at h0
    simp only [pgSize] at h0
    omega

/-- At the boot every page is free. -/
theorem memory_reported_boot : CallRun demoLayout (Mem.boot demoLayout) ∅ ∅ ∧ Reported demoLayout (Mem.boot demoLayout) := by
  have h := CallRun.kinit (kinit_eq demoLayout)
  exact ⟨h, (memory_reported h).mpr (by decide)⟩

theorem AllocRun.calls {P : Mem → Prop} (h : AllocRun Λ P m A) : ∃ A' T, CallRun Λ m A' T := by
  induction h with
  | kinit hm => exact ⟨_, _, .kinit hm⟩
  | kalloc _ _ e ih =>
    obtain ⟨A', T, h⟩ := ih
    exact ⟨_, _, h.kalloc e⟩
  | kfree _ _ e ih =>
    obtain ⟨A', T, h⟩ := ih
    exact ⟨_, _, h.kfree e⟩

theorem filealloc_free {k : Kernel} {f : Nat} (hf : f < nfile) (h0 : (k.ftable f).ref = 0) :
    ∃ f', filealloc k = some (f', k.setFile f' { k.ftable f' with ref := 1 }) := by
  cases h : firstSlot nfile fun f => (k.ftable f).ref == 0 with
  | none => exact absurd (firstSlot_none h hf) (by simp [h0])
  | some f' => exact ⟨f', by rw [filealloc, h]; rfl⟩

section Exhausted

variable (h : m.freelist = none)

include h

theorem kalloc_exhausted : kalloc Λ m = (Λ.nullRun, m) := by rw [kalloc, h]

theorem allocTable_exhausted : allocTable Λ m = .error .kerneltrap := by
  simp only [allocTable, kalloc_exhausted h, nullRun_ne_zero, if_false, memset, nullRun_not_isRam]
  rfl

theorem walk_exhausted {pt : PageTable} {va : Nat} (hva : va < maxVa) (ht : pt.hasTable va = false) :
    walk Λ pt m va true = .error .kerneltrap := by
  have hlow : (pt.low (px 2 va) (px 1 va)).isSome = false := ht
  rw [walk, if_neg (Nat.not_le.mpr hva), walkLevel2]
  cases hm : (pt.mid (px 2 va)).isSome with
  | true => simp [walkLevel1, hlow, allocTable_exhausted h, bind, Except.bind, pure, Except.pure]
  | false => simp [allocTable_exhausted h, bind, Except.bind]

theorem uvmcreate_exhausted : uvmcreate Λ m = .error .kerneltrap := by
  rw [uvmcreate, allocTable_exhausted h]
  rfl

theorem uvmalloc_exhausted {pt : PageTable} {oldsz newsz : Nat} (hle : oldsz ≤ newsz) (hlt : pgRoundUp oldsz < newsz) :
    uvmalloc Λ pt m oldsz newsz = .error .kerneltrap := by
  obtain ⟨n, hn⟩ : ∃ n, (newsz - pgRoundUp oldsz + (pgSize - 1)) / pgSize = n + 1 :=
    Nat.exists_eq_add_one.mpr (Nat.div_pos (by omega) (by decide))
  rw [uvmalloc, if_neg (Nat.not_lt.mpr hle), hn, allocLoop]
  simp only [kalloc_exhausted h, nullRun_ne_zero, if_false, memset, nullRun_not_isRam]
  rfl

theorem uvmcopy_exhausted {old new : PageTable} {sz : Nat} (hsz : 0 < sz) (hold : old.mapped 0 = true) :
    uvmcopy Λ old new m sz = .error .kerneltrap := by
  obtain ⟨n, hn⟩ : ∃ n, (sz + (pgSize - 1)) / pgSize = n + 1 :=
    Nat.exists_eq_add_one.mpr (Nat.div_pos (by omega) (by decide))
  have hV : hasFlag (old.pte 0) pteV = true := hold
  rw [uvmcopy, hn, uvmcopyLoop, walk_look Λ old m (by decide), old.hasTable_of_mapped hold]
  simp only [bind, Except.bind, Bool.not_true, hV, kalloc_exhausted h, nullRun_ne_zero, copyPage, nullRun_not_isRam]
  rfl

theorem pipealloc_exhausted {io : Bool} {k : Kernel} {f g : Nat} (hk : k.mem = m) (hf : f < nfile) (hg : g < nfile) (hne : f ≠ g)
    (hf0 : (k.ftable f).ref = 0) (hg0 : (k.ftable g).ref = 0) : pipealloc Λ io k = .error .kerneltrap := by
  obtain ⟨f0, e0⟩ := filealloc_free hf hf0
  -- of the two files one is left
  have hleft : ∃ x < nfile, ((k.setFile f0 { k.ftable f0 with ref := 1 }).ftable x).ref = 0 := by
    rcases eq_or_ne f f0 with rfl | hf'
    · exact ⟨g, hg, by simpa [Kernel.setFile, hne.symm] using hg0⟩
    · exact ⟨f, hf, by simpa [Kernel.setFile, hf'] using hf0⟩
  obtain ⟨x, hx, hx0⟩ := hleft
  obtain ⟨f1, e1⟩ := filealloc_free hx hx0
  rw [pipealloc, e0]
  dsimp only
  rw [e1]
  simp only [Kernel.setFile, hk, kalloc_exhausted h, nullRun_ne_zero, if_false, nullRun_not_isRam]
  rfl

theorem execImage_exhausted {tf size : Nat} {data : Nat → UInt8} {argv : List (List UInt8)} {elf : ElfHdr}
    (helf : readElf size data = some elf) (hmagic : elf.magic = elfMagic) : execImage Λ m tf size data argv = .error .kerneltrap := by
  rw [execImage, helf]
  simp only [hmagic, ne_eq, not_true_eq_false, if_false, procPagetable, uvmcreate_exhausted h]
  rfl

end Exhausted

/-- With every page taken `kalloc` returns the wild address, and each caller uses it: the kernel traps. -/
theorem exhausted_traps : ∃ m A T, CallRun demoLayout m A T ∧ m.freelist = none ∧ (kalloc demoLayout m).1 ≠ 0 ∧
    (∀ pt va, va < maxVa → pt.hasTable va = false → walk demoLayout pt m va true = .error .kerneltrap) ∧
    uvmcreate demoLayout m = .error .kerneltrap ∧
    (∀ pt oldsz newsz, oldsz ≤ newsz → pgRoundUp oldsz < newsz → uvmalloc demoLayout pt m oldsz newsz = .error .kerneltrap) ∧
    (∀ old new sz, 0 < sz → old.mapped 0 = true → uvmcopy demoLayout old new m sz = .error .kerneltrap) ∧
    (∀ io k f g, k.mem = m → f < nfile → g < nfile → f ≠ g → (k.ftable f).ref = 0 → (k.ftable g).ref = 0 →
      pipealloc demoLayout io k = .error .kerneltrap) ∧
    ∀ tf size data argv elf, readElf size data = some elf → elf.magic = elfMagic →
      execImage demoLayout m tf size data argv = .error .kerneltrap := by
  obtain ⟨m, A, h, hnone⟩ := (AllocRun.kinit (kinit_eq demoLayout)).exhausts
  obtain ⟨A', T, hrun⟩ := h.calls
  refine ⟨m, A', T, hrun, hnone, ?_, fun _ _ => walk_exhausted hnone, uvmcreate_exhausted hnone,
    fun _ _ _ => uvmalloc_exhausted hnone, fun _ _ _ => uvmcopy_exhausted hnone, fun _ _ _ _ => pipealloc_exhausted hnone,
    fun _ _ _ _ _ => execImage_exhausted hnone⟩
  rw [kalloc_exhausted hnone]
  exact nullRun_ne_zero demoLayout

end Xv6Mmap

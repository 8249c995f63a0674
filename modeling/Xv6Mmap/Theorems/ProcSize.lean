import Xv6Mmap.Lemmas.ForkWords
import Xv6Mmap.Theorems.PageMap

/-!
# The size of a process

Runs of `growproc` and `fork` from a memory image that `exec` built, over the words of memory and an allocator that may fail and has no
more pages than there are between `KERNBASE` and `PHYSTOP`. The user part of every page table is the pages below `p->sz`, so none of
the panics of `uvmcopy`, `uvmunmap` and `uvmdealloc` is reached.

Every page of an image has one place: a place of its page table, or the trapframe. A call of one process changes its own places; the
lemmas about page tables leave alone those of the others.
-/

namespace Xv6Mmap

open Function Set

open Phys

/-! ## Runs -/

/-- The kernel did something else: the pages of the image are still handed out, and the words of its tables are as they were. -/
structure Undisturbed (A : Allocator) (w : Phys) (I : Image) (w' : Phys) : Prop where
  tf : w'.out I.tf = true
  table : ∀ b x, w.tableAt I.root b = some x → w'.out x = true ∧ w'.word x = w.word x
  user : ∀ va < startAddress, ∀ pte, w.lookup A I.root va = some pte → w'.out (ptePage pte) = true

/-- A memory image while `exec` loads segments into it. `vaddr + memsz` of a segment is any number, and what else is done meanwhile is
anything that leaves the page table alone. -/
inductive ExecLoading (A : Allocator) (tramp : Nat) : Phys → Image → Prop where
  | procPagetable {w₀ w : Phys} {tf root : Nat} : w₀.out tf = true → w₀.procPagetable A tramp tf = .ok (some root, w) →
      ExecLoading A tramp w ⟨root, tf, 0⟩
  | segment {w w' : Phys} {I : Image} {newsz sz : Nat} : ExecLoading A tramp w I → w.uvmalloc A I.root I.sz newsz = .ok (sz, w') →
      sz ≠ 0 → ExecLoading A tramp w' { I with sz := sz }
  | other {w w' : Phys} {I : Image} : ExecLoading A tramp w I → Undisturbed A w I w' → ExecLoading A tramp w' I

/-- The image that `exec` commits to: the segments, a guard page and a stack page above them. -/
inductive ExecBuilt (A : Allocator) (tramp : Nat) : Phys → Image → Prop where
  | stack {w w₁ w' : Phys} {I : Image} {sz : Nat} : ExecLoading A tramp w I →
      w.uvmalloc A I.root (pgRoundUp I.sz) (pgRoundUp I.sz + 2 * pgSize) = .ok (sz, w₁) → sz ≠ 0 →
      w₁.uvmclear A I.root (sz - 2 * pgSize) = .ok w' → ExecBuilt A tramp w' { I with sz := sz }

/-- The states reached from a process that `exec` built by `growproc` of a 32-bit `n` and `fork`, by any processes. -/
inductive ImageRun (A : Allocator) (tramp : Nat) : ImageSys → Prop where
  | exec {w : Phys} {I : Image} (j : Nat) : ExecBuilt A tramp w I → ImageRun A tramp (ImageSys.setProc ⟨w, fun _ => none⟩ w j I)
  | growproc {s s' : ImageSys} {j : Nat} {n : Int} {ok : Bool} : ImageRun A tramp s → -2 ^ 31 ≤ n ∧ n < 2 ^ 31 →
      s.growproc A j n = .ok (ok, s') → ImageRun A tramp s'
  | fork {s s' : ImageSys} {j : Nat} {np : Option Nat} : ImageRun A tramp s → s.fork A tramp j = .ok (np, s') → ImageRun A tramp s'
  | other {s : ImageSys} {w' : Phys} : ImageRun A tramp s → (∀ j I, s.proc j = some I → Undisturbed A s.w I w') →
      ImageRun A tramp { s with w := w' }

/-! ## Every page has one place -/

/-- The pages of an image: those of its page table, and its trapframe. -/
def Image.Holds (I : Image) (pt : PageTable) : Option Place → Nat → Prop
  | some b, x => pt.Holds userPages b x
  | none, x => x = I.tf

/-- The pages of all images. -/
def ImageSys.Holds (s : ImageSys) (pts : Nat → PageTable) (c : Nat × Option Place) (x : Nat) : Prop :=
  ∃ I, s.proc c.1 = some I ∧ I.Holds (pts c.1) c.2 x

/-- An image and the page table that the words spell. -/
structure ImageOk (S : Finset Nat) (w : Phys) (I : Image) (pt : PageTable) : Prop where
  page : pt.page = I.root
  spelled : Spelled userPages ∅ w pt
  user : UserMap S pt (pgRoundUp I.sz)
  size : I.sz < 2 ^ 64 - pgSize

/-- Every image is in order, and every page has one place. -/
structure ImagesInv (S : Finset Nat) (s : ImageSys) (pts : Nat → PageTable) : Prop where
  image : ∀ j I, s.proc j = some I → ImageOk S s.w I (pts j)
  owned : Owned (s.Holds pts) ∅ s.w.Live

section Images

variable {S : Finset Nat} {A : Allocator} {tramp : Nat} {s s' : ImageSys} {pts : Nat → PageTable} {w w' : Phys} {pt pt' : PageTable}
  {I : Image} {j : Nat} {R : Set Nat}

theorem Spelled.release {own : Set Nat} (h : Spelled own R w pt) : Spelled own ∅ w pt :=
  h.congr (fun _ _ => rfl) (h.owned.shrink (empty_subset R))

/-- The pages that are not of the page table of process `j`. -/
def ImageSys.besides (s : ImageSys) (pts : Nat → PageTable) (j : Nat) : Set Nat :=
  ∅ ∪ {y | ∃ c, c ∉ Set.range (fun b : Place => (j, some b)) ∧ s.Holds pts c y}

theorem placeOf_injective (j : Nat) : Function.Injective (fun b : Place => (j, some b)) := by
  intro b c e
  cases e
  rfl

theorem notMem_placeOf {i : Nat} (b : Option Place) (h : i ≠ j) : (i, b) ∉ range (fun b : Place => (j, some b)) := by
  intro hm
  obtain ⟨c, e⟩ := hm
  cases e
  exact h rfl

/-- The page table of process `j` by itself. -/
theorem ImagesInv.focus (h : ImagesInv S s pts) (hj : s.proc j = some I) : Spelled userPages (s.besides pts j) s.w (pts j) :=
  (h.image j I hj).spelled.congr (fun _ _ => rfl) ((h.owned.focus (placeOf_injective j)).mono fun _ _ hb => ⟨I, hj, hb⟩)

theorem ImagesInv.others (h : ImagesInv S s pts) {i : Nat} {J : Image} (hi : s.proc i = some J) (hne : i ≠ j)
    (hk : KeepsPages (s.besides pts j) s.w w') : ImageOk S w' J (pts i) := by
  obtain ⟨hpage, hs, hu, hsz⟩ := h.image i J hi
  refine ⟨hpage, hk.spelled hs fun b x hb => ?_, hu, hsz⟩
  exact Or.inr ⟨(i, some b), notMem_placeOf _ hne, J, hi, hb⟩

theorem ImagesInv.change (h : ImagesInv S s pts) (hj : s.proc j = some I) {sz : Nat} (hs : Spelled userPages (s.besides pts j) w' pt')
    (hk : KeepsPages (s.besides pts j) s.w w') (hpage : pt'.page = I.root) (hu : UserMap S pt' (pgRoundUp sz))
    (hsz : sz < 2 ^ 64 - pgSize) : ImagesInv S (s.setProc w' j { I with sz := sz }) (update pts j pt') := by
  refine ⟨fun i J hi => ?_, h.owned.unfocus hs.owned fun c x hx => ?_⟩
  · simp only [ImageSys.setProc] at hi
    by_cases e : i = j
    · subst e
      rw [update_self] at hi ⊢
      cases hi
      exact ⟨hpage, hs.release, hu, hsz⟩
    · rw [update_of_ne e] at hi ⊢
      exact h.others hi e hk
  · obtain ⟨i, b⟩ := c
    obtain ⟨J, hi, hb⟩ := hx
    simp only [ImageSys.setProc] at hi hb
    by_cases e : i = j
    · subst e
      rw [update_self] at hi hb
      cases hi
      cases b with
      | some b => exact Or.inl ⟨b, rfl, hb⟩
      | none =>
        refine Or.inr ⟨?_, I, hj, hb⟩
        intro hm
        obtain ⟨c, e⟩ := hm
        cases e
    · rw [update_of_ne e] at hi hb
      exact Or.inr ⟨notMem_placeOf b e, J, hi, hb⟩

theorem ImagesInv.kept (h : ImagesInv S s pts) (hk : KeepsPages {y | ∃ c, s.Holds pts c y} s.w w') :
    ImagesInv S { s with w := w' } pts := by
  refine ⟨fun i J hi => ?_, fun c x hx => ⟨hk.out x ⟨c, hx⟩, notMem_empty x⟩, h.owned.inj, fun x hx => absurd hx (notMem_empty x)⟩
  obtain ⟨hpage, hs, hu, hsz⟩ := h.image i J hi
  exact ⟨hpage, hk.spelled hs fun b x hb => ⟨(i, some b), J, hi, hb⟩, hu, hsz⟩

theorem ImagesInv.added (h : ImagesInv S s pts) (hj : s.proc j = none)
    (hs : Spelled userPages (insert I.tf {y | ∃ c, s.Holds pts c y}) w' pt') (hk : KeepsPages {y | ∃ c, s.Holds pts c y} s.w w')
    (htf : I.tf ∉ {y | ∃ c, s.Holds pts c y}) (hpage : pt'.page = I.root) (hu : UserMap S pt' (pgRoundUp I.sz))
    (hsz : I.sz < 2 ^ 64 - pgSize) : ImagesInv S (s.setProc w' j I) (update pts j pt') := by
  have hk' := h.kept hk
  -- the trapframe goes into its place, the page table into the others
  have htfOwned : Owned (fun c x => s.Holds pts c x ∨ c = (j, none) ∧ x = I.tf) ∅ w'.Live := by
    have hhand : Owned (s.Holds pts) (insert I.tf ∅) w'.Live := by
      refine ⟨fun c x hx => ⟨(hk'.owned.held c x hx).1, fun hm => ?_⟩, h.owned.inj, fun x hx => ?_⟩
      · rcases hm with rfl | hm
        · exact htf ⟨c, hx⟩
        · exact hm
      · rcases hx with rfl | hx
        · exact hs.owned.rest _ (mem_insert ..)
        · exact absurd hx (notMem_empty x)
    exact hhand.put (notMem_empty _) fun c x hx => hx
  refine ⟨fun i J hi => ?_, htfOwned.unfocus (f := fun b : Place => (j, some b)) (hs.owned.shrink ?_) fun c x hx => ?_⟩
  · simp only [ImageSys.setProc] at hi
    by_cases e : i = j
    · subst e
      rw [update_self] at hi ⊢
      cases hi
      exact ⟨hpage, hs.release, hu, hsz⟩
    · rw [update_of_ne e] at hi ⊢
      exact hk'.image i J hi
  · intro x hx
    rcases hx with hx | ⟨c, -, hx⟩
    · exact absurd hx (notMem_empty x)
    · rcases hx with hx | ⟨-, rfl⟩
      · exact mem_insert_of_mem _ ⟨c, hx⟩
      · exact mem_insert ..
  · obtain ⟨i, b⟩ := c
    obtain ⟨J, hi, hb⟩ := hx
    simp only [ImageSys.setProc] at hi hb
    by_cases e : i = j
    · subst e
      rw [update_self] at hi hb
      cases hi
      cases b with
      | some b => exact Or.inl ⟨b, rfl, hb⟩
      | none =>
        refine Or.inr ⟨?_, Or.inr ⟨rfl, hb⟩⟩
        intro hm
        obtain ⟨c, e⟩ := hm
        cases e
    · rw [update_of_ne e] at hi hb
      exact Or.inr ⟨notMem_placeOf b e, Or.inl ⟨J, hi, hb⟩⟩

/-! ## Lookups in user memory -/

theorem ImageOk.lookup (h : ImageOk S w I pt) (A : Allocator) {va : Nat} (hva : va < startAddress) :
    w.lookup A I.root va = if va < pgRoundUp I.sz then some (pt.pte va) else none := by
  have hmod := pgRoundUp_mod I.sz
  have hpage : va / pgSize * pgSize < startAddress ∧ (va / pgSize * pgSize < pgRoundUp I.sz ↔ va < pgRoundUp I.sz) := by
    simp only [pgSize, startAddress] at *
    omega
  have hm := h.user.mapped _ (pageAddr_page (lt_maxVa_of_user hpage.1)) hpage.1
  rw [PageTable.mapped, ← pte_page, hpage.2] at hm
  rw [← h.page, h.spelled.lookup_eq A (lt_maxVa_of_user hva)]
  by_cases hlt : va < pgRoundUp I.sz
  · rw [if_pos hlt, if_pos (hm.mpr hlt)]
  · rw [if_neg hlt, if_neg (mt hm.mp hlt)]

theorem ImageOk.leaf (h : ImageOk S w I pt) {va : Nat} (hva : va < pgRoundUp I.sz) : hasFlag (pt.pte va) pteRWX = true := by
  have hle := h.user.le
  have hpage : va / pgSize * pgSize < pgRoundUp I.sz := lt_of_le_of_lt (Nat.div_mul_le_self ..) hva
  rw [pte_page]
  exact h.user.leaf _ (pageAddr_page (lt_maxVa_of_user (lt_of_lt_of_le hpage hle))) hpage

theorem ImageOk.undisturbed (h : ImageOk S w I pt) (hd : Undisturbed A w I w') :
    ∀ b x, I.Holds pt b x → w'.out x = true ∧ (pt.isTable x → w'.word x = w.word x) := by
  have htable : ∀ {x}, pt.isTable x → w'.out x = true ∧ w'.word x = w.word x := by
    intro x hx
    obtain ⟨b, hb⟩ := hx
    refine hd.table b x ?_
    rw [← h.page]
    exact (h.spelled.tableAt_iff b x).mpr hb
  intro b x hb
  refine ⟨?_, fun hx => (htable hx).2⟩
  cases b with
  | none =>
    have e : x = I.tf := hb
    rw [e]
    exact hd.tf
  | some b =>
    cases b with
    | root => exact (htable ⟨.root, hb⟩).1
    | mid i => exact (htable ⟨.mid i, hb⟩).1
    | low i k => exact (htable ⟨.low i k, hb⟩).1
    | leaf va =>
      obtain ⟨hva, hpa, hm, e⟩ : va ∈ userPages ∧ PageAddr va ∧ pt.mapped va = true ∧ x = ptePage (pt.pte va) := hb
      rw [e]
      refine hd.user va hva _ ?_
      rw [h.lookup A hva, if_pos ((h.user.mapped va hpa hva).mp hm)]

/-! ## `growproc` and `fork` -/

theorem ImagesInv.growproc (h : ImagesInv S s pts) (hA : PicksFrom A S) (j : Nat) {n : Int} (hn : -2 ^ 31 ≤ n ∧ n < 2 ^ 31) :
    ∃ ok s' pts', s.growproc A j n = .ok (ok, s') ∧ ImagesInv S s' pts' ∧
      ∀ I, s.proc j = some I → ∃ I', s'.proc j = some I' ∧ I'.root = I.root ∧
        (ok = false → I'.sz = I.sz ∧ ∀ va < startAddress, s'.w.lookup A I.root va = s.w.lookup A I.root va) ∧
        (ok = true → (I'.sz : Int) = if 0 < n ∨ -(I.sz : Int) ≤ n then I.sz + n else I.sz) := by
  unfold ImageSys.growproc
  cases hj : s.proc j with
  | none => exact ⟨false, s, pts, rfl, h, fun _ e => nomatch e⟩
  | some I =>
    have hI := h.image j I hj
    have hs := h.focus hj
    obtain ⟨ok, sz', w', pt', e, hc, hfail, hok⟩ := growproc_words hA hs hI.user hI.size hn
    rw [hI.page] at e
    have hsz : sz' < 2 ^ 64 - pgSize := by
      have hle := (hI.user.size_le hA hs hI.size).1
      simp only [pgSize] at *
      cases ok with
      | false =>
        rw [hfail rfl]
        omega
      | true =>
        have := hok rfl
        split at this <;> omega
    have hinv := h.change hj hc.spelled hc.keeps (hc.page.trans hI.page) hc.user hsz
    refine ⟨ok, _, _, by simp only [e, ok_bind]; rfl, hinv, fun J hJ => ?_⟩
    cases hJ
    have hself : (s.setProc w' j { I with sz := sz' }).proc j = some { I with sz := sz' } := update_self ..
    have hI' := hinv.image j _ hself
    rw [update_self] at hI'
    refine ⟨_, hself, rfl, fun hf => ⟨hfail hf, fun va hva => ?_⟩, hok⟩
    have e1 := hI'.lookup A hva
    rw [hI.lookup A hva, e1]
    simp only [hfail hf]
    by_cases hlt : va < pgRoundUp I.sz
    · have hpage : va / pgSize * pgSize < pgRoundUp I.sz := lt_of_le_of_lt (Nat.div_mul_le_self ..) hlt
      rw [if_pos hlt, if_pos hlt, pte_page pt', pte_page (pts j), hc.pte _ (pageAddr_page (lt_maxVa_of_user (hpage.trans_le hI.user.le)))]
      rw [hfail hf, min_self]
      exact Or.inl hpage
    · rw [if_neg hlt, if_neg hlt]

/-- The kernel part of a table whose user part changed. -/
theorem UserChange.kernelMap {lo bound : Nat} (h : UserChange S R lo bound w pt w' pt') (hk : KernelMap pt) : KernelMap pt' := by
  refine ⟨fun v hv hge => ?_, fun v hv => ?_⟩
  · rw [PageTable.mapped, h.pte v hv (Or.inr hge)]
    exact hk.mapped v hv hge
  have hva : PageAddr v ∧ startAddress ≤ v := by
    rcases hv with rfl | rfl
    · exact ⟨pageAddr_trampoline, by decide⟩
    · exact ⟨pageAddr_trapframe, by decide⟩
  rw [h.pte v hva.1 (Or.inr hva.2)]
  exact hk.leaf v hv

theorem ImagesInv.fork (h : ImagesInv S s pts) (hA : PicksFrom A S) (tramp j : Nat) :
    ∃ np s' pts', s.fork A tramp j = .ok (np, s') ∧ ImagesInv S s' pts' := by
  unfold ImageSys.fork
  cases hj : s.proc j with
  | none => exact ⟨none, s, pts, rfl, h⟩
  | some I =>
  cases hf : firstSlot nproc fun i => (s.proc i).isNone with
  | none => exact ⟨none, s, pts, rfl, h⟩
  | some np =>
    have hnp : s.proc np = none := by
      have := (firstSlot_some hf).2
      simpa using this
    have hI := h.image j I hj
    have hlive : ∀ x ∈ {y | ∃ c, s.Holds pts c y}, s.w.out x = true := by
      intro x hx
      obtain ⟨c, hc⟩ := hx
      exact (h.owned.held c x hc).1
    obtain ⟨r, w1, e1, hk1, hr⟩ := allocproc_words A tramp hlive S
    simp only [e1, ok_bind]
    cases r with
    | none => exact ⟨none, _, pts, rfl, h.kept hk1⟩
    | some new =>
      obtain ⟨tf, root⟩ := new
      obtain ⟨htf, pt, rfl, hs, hu, hkm⟩ := hr tf root rfl
      have hold := hk1.spelled hI.spelled fun b x hb => ⟨(j, some b), I, hj, hb⟩
      obtain ⟨ok, w2, pt2, e2, hc⟩ := uvmcopy_words hA hs hu hold
        (fun b x hb => mem_insert_of_mem _ ⟨(j, some b), I, hj, hb⟩) hI.user hI.size
      have hk2 := hk1.trans (hc.keeps.mono (subset_insert ..))
      rw [hI.page] at e2
      simp only [e2, ok_bind]
      cases ok with
      | true =>
        -- the trapframe is written last
        have hword : ∀ y, y ≠ tf → (w2.copyTrapframe tf I.tf).word y = w2.word y := fun y hy => update_of_ne hy _ _
        have hs3 := hc.spelled.write_hand (mem_insert ..) hword rfl
        have hk3 : KeepsPages {y | ∃ c, s.Holds pts c y} s.w (w2.copyTrapframe tf I.tf) := by
          refine ⟨hk2.out, fun x hx => ?_⟩
          rw [hword x fun e => htf (e ▸ hx)]
          exact hk2.word x hx
        exact ⟨some np, _, _, rfl, h.added (I := ⟨pt.page, tf, I.sz⟩) hnp hs3 hk3 htf hc.page hc.user hI.size⟩
      | false =>
        obtain ⟨w3, e3, hs3, hw3⟩ := hc.spelled.kfree_hand htf
        obtain ⟨w4, e4, hk4⟩ := procFreepagetable_words A hs3 hc.user (hc.kernelMap hkm)
        rw [hc.page] at e4
        have hk3 : KeepsPages {y | ∃ c, s.Holds pts c y} w2 w3 :=
          ⟨hs3.owned.rest, fun x hx => hw3 x fun e => htf (e ▸ hx)⟩
        refine ⟨none, _, pts, ?_, h.kept ((hk2.trans hk3).trans hk4)⟩
        simp only [Bool.false_eq_true, if_false, e3, e4, ok_bind]
        rfl

theorem ImagesInv.other (h : ImagesInv S s pts) (hd : ∀ j I, s.proc j = some I → Undisturbed A s.w I w') :
    ImagesInv S { s with w := w' } pts := by
  have hkeep : ∀ c x, s.Holds pts c x → w'.out x = true := by
    intro c x hx
    obtain ⟨I, hc, hb⟩ := hx
    exact ((h.image _ I hc).undisturbed (hd _ I hc) _ x hb).1
  refine ⟨fun j I hj => ?_, fun c x hx => ⟨hkeep c x hx, notMem_empty x⟩, h.owned.inj, fun x hx => absurd hx (notMem_empty x)⟩
  obtain ⟨hpage, hs, hu, hsz⟩ := h.image j I hj
  refine ⟨hpage, hs.congr (fun x hx => ?_) ⟨fun b x hb => ⟨hkeep (j, some b) x ⟨I, hj, hb⟩, notMem_empty x⟩, hs.owned.inj,
    fun x hx => absurd hx (notMem_empty x)⟩, hu, hsz⟩
  obtain ⟨b, hb⟩ := hx
  exact ((h.image j I hj).undisturbed (hd j I hj) (some b) x (holds_of_table hb)).2 ⟨b, hb⟩

/-! ## `exec` -/

/-- The image while it is loaded, its trapframe in hand. -/
structure LoadOk (S : Finset Nat) (w : Phys) (I : Image) (pt : PageTable) : Prop where
  page : pt.page = I.root
  spelled : Spelled userPages {I.tf} w pt
  user : UserMap S pt (pgRoundUp I.sz)
  size : I.sz ≤ pgRoundUp I.sz

theorem LoadOk.image (h : LoadOk S w I pt) : ImageOk S w I pt := by
  refine ⟨h.page, h.spelled.release, h.user, ?_⟩
  have h1 := h.size
  have h2 := h.user.le
  simp only [pgSize, startAddress] at *
  omega

theorem LoadOk.uvmalloc (h : LoadOk S w I pt) (hA : PicksFrom A S) {newsz sz : Nat}
    (e : w.uvmalloc A I.root I.sz newsz = .ok (sz, w')) (hsz : sz ≠ 0) :
    sz = max I.sz newsz ∧ ∃ pt', LoadOk S w' { I with sz := sz } pt' := by
  obtain ⟨ok, w1, pt1, e1, hc, hle⟩ := uvmalloc_words hA h.spelled newsz h.user h.size
  rw [h.page, e] at e1
  cases ok with
  | false =>
    cases e1
    exact absurd rfl hsz
  | true =>
    cases e1
    exact ⟨rfl, pt1, hc.page.trans h.page, hc.spelled, hc.user, hle rfl⟩

theorem ExecLoading.loadOk (hA : PicksFrom A S) (h : ExecLoading A tramp w I) : ∃ pt, LoadOk S w I pt := by
  induction h with
  | @procPagetable w0 w tf root hout e =>
    obtain ⟨r, w1, e1, -, hr⟩ := procPagetable_words A tramp tf (R := {tf}) (fun x hx => by rw [mem_singleton_iff.mp hx]; exact hout) S
    rw [e] at e1
    cases e1
    obtain ⟨pt, hpage, hs, hu, -⟩ := hr root rfl
    exact ⟨pt, hpage, hs, by rw [show pgRoundUp 0 = 0 from rfl]; exact hu, Nat.zero_le _⟩
  | segment _ e hne ih =>
    obtain ⟨pt, hl⟩ := ih
    exact (hl.uvmalloc hA e hne).2
  | @other w w' I _ hd ih =>
    obtain ⟨pt, hl⟩ := ih
    have hkeep := hl.image.undisturbed hd
    refine ⟨pt, hl.page, hl.spelled.congr (fun x hx => ?_) ⟨fun b x hb => ⟨(hkeep (some b) x hb).1, hl.spelled.owned.not_mem hb⟩,
      hl.spelled.owned.inj, fun x hx => ?_⟩, hl.user, hl.size⟩
    · obtain ⟨b, hb⟩ := hx
      exact (hkeep (some b) x (holds_of_table hb)).2 ⟨b, hb⟩
    · rw [mem_singleton_iff.mp hx]
      exact hd.tf

theorem ExecBuilt.loadOk (hA : PicksFrom A S) (hS : ∀ x ∈ S, x < 2 ^ 44) (h : ExecBuilt A tramp w I) : ∃ pt, LoadOk S w I pt := by
  cases h with
  | @stack w0 w1 _ I sz hload e hne eclear =>
    obtain ⟨pt, hl⟩ := hload.loadOk hA
    have hbound := hl.user.le
    have hup : pgRoundUp (pgRoundUp I.sz) = pgRoundUp I.sz :=
      pgRoundUp_of_aligned (pgRoundUp_mod _) (by simp only [startAddress] at hbound; omega)
    have hl' : LoadOk S w0 { I with sz := pgRoundUp I.sz } pt :=
      ⟨hl.page, hl.spelled, by rw [hup]; exact hl.user, by rw [hup]⟩
    obtain ⟨hsz, pt1, hl1⟩ := hl'.uvmalloc hA e hne
    have hsz' : sz - 2 * pgSize = pgRoundUp I.sz ∧ sz - 2 * pgSize < pgRoundUp sz := by
      have h1 : sz ≤ pgRoundUp sz := hl1.size
      simp only [pgSize] at *
      omega
    obtain ⟨w2, pt2, e2, hc⟩ := uvmclear_words A hS hl1.spelled hl1.user (by rw [hsz'.1]; exact pgRoundUp_mod _) hsz'.2
    rw [hl1.page, eclear] at e2
    cases e2
    exact ⟨pt2, hc.page.trans hl1.page, hc.spelled, hc.user, hl1.size⟩

theorem LoadOk.alone (h : LoadOk S w I pt) (j : Nat) :
    ImagesInv S (ImageSys.setProc ⟨w, fun _ => none⟩ w j I) (update (fun _ => pt) j pt) := by
  have hnone : ∀ c y, ¬(⟨w, fun _ => none⟩ : ImageSys).Holds (fun _ => pt) c y := by
    intro c y hx
    obtain ⟨J, hJ, -⟩ := hx
    cases hJ
  have hempty : {y | ∃ c, (⟨w, fun _ => none⟩ : ImageSys).Holds (fun _ => pt) c y} = ∅ :=
    eq_empty_of_forall_notMem fun y hy => hy.elim fun c hc => hnone c y hc
  have hstart : ImagesInv S ⟨w, fun _ => none⟩ fun _ => pt := by
    refine ⟨fun _ _ e => (nomatch e), fun c x hx => absurd hx (hnone c x), fun c _ x hx => absurd hx (hnone c x), fun x hx => ?_⟩
    exact absurd hx (notMem_empty x)
  refine hstart.added rfl ?_ ?_ ?_ h.page h.user h.image.size
  · rw [hempty, insert_empty_eq]
    exact h.spelled
  · rw [hempty]
    exact KeepsPages.refl fun x hx => absurd hx (notMem_empty x)
  · rw [hempty]
    exact notMem_empty _

/-! ## Reachable states -/

theorem ImageRun.inv (hA : PicksFrom A S) (hS : ∀ x ∈ S, x < 2 ^ 44) (h : ImageRun A tramp s) : ∃ pts, ImagesInv S s pts := by
  induction h with
  | @exec w I j hb =>
    obtain ⟨pt, hl⟩ := hb.loadOk hA hS
    exact ⟨_, hl.alone j⟩
  | growproc _ hn e ih =>
    obtain ⟨pts, hi⟩ := ih
    obtain ⟨ok, s', pts', e', hi', -⟩ := hi.growproc hA _ hn
    rw [e'] at e
    cases e
    exact ⟨pts', hi'⟩
  | fork _ e ih =>
    obtain ⟨pts, hi⟩ := ih
    obtain ⟨np, s', pts', e', hi'⟩ := hi.fork hA tramp _
    rw [e'] at e
    cases e
    exact ⟨pts', hi'⟩
  | other _ hd ih =>
    obtain ⟨pts, hi⟩ := ih
    exact ⟨pts, hi.other hd⟩

theorem PicksFrom.below (hA : PicksFrom A S) : PicksFrom A (S.filter (· < 2 ^ 44)) := by
  refine ⟨fun w pg e => ?_, (Finset.card_filter_le ..).trans hA.card⟩
  rw [Finset.mem_filter]
  exact ⟨hA.pick w pg e, (A.fresh w pg e).2.2⟩

/-- In every state reached from an image that `exec` built, for every process: its size is below the area of the mappings and below
`2 ^ 32`, and the valid PTEs below that area are leaves, on exactly the pages below the size. Every `growproc` returns, one that
fails changes neither the size nor a mapping, and one that does not changes the size by `n`, or not at all when there is less than
that to give back. Every `fork` returns. -/
theorem process_size (hA : PicksFrom A S) (hr : ImageRun A tramp s) :
    (∀ j I, s.proc j = some I → I.sz < startAddress ∧ I.sz < 2 ^ 32 ∧ ∀ va < startAddress,
      (s.w.lookup A I.root va ≠ none ↔ va < pgRoundUp I.sz) ∧
      ∀ pte, s.w.lookup A I.root va = some pte → hasFlag pte pteRWX = true) ∧
    (∀ j n, -2 ^ 31 ≤ n ∧ n < 2 ^ 31 → ∃ ok s', s.growproc A j n = .ok (ok, s') ∧
      ∀ I, s.proc j = some I → ∃ I', s'.proc j = some I' ∧ I'.root = I.root ∧
        (ok = false → I'.sz = I.sz ∧ ∀ va < startAddress, s'.w.lookup A I.root va = s.w.lookup A I.root va) ∧
        (ok = true → (I'.sz : Int) = if 0 < n ∨ -(I.sz : Int) ≤ n then I.sz + n else I.sz)) ∧
    ∀ j, ∃ np s', s.fork A tramp j = .ok (np, s') := by
  have hA' := hA.below
  obtain ⟨pts, hi⟩ := hr.inv hA' fun x hx => (Finset.mem_filter.mp hx).2
  refine ⟨fun j I hj => ?_, fun j n hn => ?_, fun j => ?_⟩
  · have hI := hi.image j I hj
    have hle := (hI.user.size_le hA' hI.spelled hI.size).1
    refine ⟨?_, ?_, fun va hva => ⟨?_, fun pte e => ?_⟩⟩
    · simp only [pgSize, startAddress] at *
      omega
    · simp only [pgSize] at hle
      omega
    · rw [hI.lookup A hva]
      by_cases hlt : va < pgRoundUp I.sz
      · rw [if_pos hlt]
        exact ⟨fun _ => hlt, fun _ => Option.some_ne_none _⟩
      · rw [if_neg hlt]
        exact ⟨fun hn => absurd rfl hn, fun hl => absurd hl hlt⟩
    · rw [hI.lookup A hva] at e
      split at e
      · rename_i hlt
        cases e
        exact hI.leaf hlt
      · cases e
  · obtain ⟨ok, s', pts', e, -, hspec⟩ := hi.growproc hA' j hn
    exact ⟨ok, s', e, hspec⟩
  · obtain ⟨np, s', pts', e, -⟩ := hi.fork hA' tramp j
    exact ⟨np, s', e⟩

end Images

/-- An allocator with 32767 pages, handed out in their order. -/
def smallAllocator : Allocator where
  pick w := if w.out (w.calls + 1) = false ∧ w.calls < 32767 then some (w.calls + 1) else none
  fresh := by
    intro w pg h
    split at h
    · rename_i hc
      cases h
      exact ⟨hc.1, by omega, by omega⟩
    · cases h

theorem picksFrom_small : PicksFrom smallAllocator (Finset.range 32768) := by
  refine ⟨fun w pg h => ?_, (Finset.card_range _).le⟩
  simp only [smallAllocator] at h
  split at h
  · cases h
    exact Finset.mem_range.mpr (by omega)
  · cases h

/-- Memory with one page handed out, a trapframe. -/
def oneTrapframe : Phys := ⟨fun _ _ => 0, fun x => x == 40000, 0⟩

/-- The image that `exec` builds of a program with one segment; none for a jump to `bad`. -/
def execSegment (A : Allocator) (tramp : Nat) (w : Phys) (tf newsz : Nat) : Except Panic (Option Image) := do
  let (root, w) ← w.procPagetable A tramp tf
  match root with
  | none => pure none
  | some root => do
    let (sz, w) ← w.uvmalloc A root 0 newsz
    if sz = 0 then pure none
    else do
      let (sz₁, w) ← w.uvmalloc A root (pgRoundUp sz) (pgRoundUp sz + 2 * pgSize)
      if sz₁ = 0 then pure none
      else do
        let _ ← w.uvmclear A root (sz₁ - 2 * pgSize)
        pure (some ⟨root, tf, sz₁⟩)

theorem execBuilt_of_segment {A : Allocator} {tramp tf newsz : Nat} {w : Phys} {I : Image} (hout : w.out tf = true)
    (h : execSegment A tramp w tf newsz = .ok (some I)) : ∃ w', ExecBuilt A tramp w' I := by
  obtain ⟨⟨root, w1⟩, e1, h⟩ := bind_eq_ok.mp h
  cases root with
  | none => cases h
  | some root =>
    obtain ⟨⟨sz, w2⟩, e2, h⟩ := bind_eq_ok.mp h
    by_cases hsz : sz = 0
    · simp only [if_pos hsz] at h
      cases h
    simp only [if_neg hsz] at h
    obtain ⟨⟨sz1, w3⟩, e3, h⟩ := bind_eq_ok.mp h
    by_cases hsz1 : sz1 = 0
    · simp only [if_pos hsz1] at h
      cases h
    · simp only [if_neg hsz1] at h
      obtain ⟨w4, e4, h⟩ := bind_eq_ok.mp h
      cases h
      exact ⟨w4, .stack ((ExecLoading.procPagetable hout e1).segment e2 hsz) e3 hsz1 e4⟩

/-- The image of a program of one page, after its process asked for one byte more: the four pages, or the three there were. -/
theorem process_size_onePage : ∃ s I, ImageRun smallAllocator 1 s ∧ s.proc 0 = some I ∧ (I.sz = 12289 ∨ I.sz = 12288) ∧
    ∀ va < startAddress, s.w.lookup smallAllocator I.root va ≠ none ↔ va < pgRoundUp I.sz := by
  obtain ⟨_, e0, I, rfl, hsz⟩ : ∃ o, execSegment smallAllocator 1 oneTrapframe 40000 4096 = .ok o ∧ ∃ I, o = some I ∧ I.sz = 12288 := by
    decide +kernel
  obtain ⟨w, hb⟩ := execBuilt_of_segment rfl e0
  have hr := ImageRun.exec 0 hb
  obtain ⟨-, hgrow, -⟩ := process_size picksFrom_small hr
  obtain ⟨ok, s, e, hspec⟩ := hgrow 0 1 (by decide)
  obtain ⟨I', hI', -, hfail, hok⟩ := hspec I (by simp [ImageSys.setProc])
  have hr' := hr.growproc (by decide) e
  obtain ⟨hsize, -, -⟩ := process_size picksFrom_small hr'
  refine ⟨s, I', hr', hI', ?_, fun va hva => ((hsize 0 I' hI').2.2 va hva).1⟩
  cases ok with
  | false =>
    rw [(hfail rfl).1]
    exact Or.inr hsz
  | true =>
    have := hok rfl
    exact Or.inl (by omega)

end Xv6Mmap

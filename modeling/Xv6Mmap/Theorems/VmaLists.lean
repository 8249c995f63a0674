import Xv6Mmap.Lemmas.Steps
import Xv6Mmap.Boot

/-!
# The VMA lists over runs

Two invariants over every run without `fork` from empty lists. The chains are exact: each has as many nodes as its process counts,
all in use, no slot is shared and none is lost. And when no `mmap` asks for more than the mapping area, the ranges in each chain
are ordered and disjoint, between `START_ADDRESS` and `TOP_ADDRESS`. `exit` is in these runs, as a sequence of `munmap`s.
-/

namespace Xv6Mmap

open Function List

variable {Λ : Layout} {io : Bool} {k k' : Kernel} {i : Nat} {ev : Event} {L : Nat → List Nat}
  {addr length a prot flag n : Nat} {prev : Option Nat} {l₁ l₂ : List Nat} {r : Nat × Kernel} {v : Vma}

/-- No process has a VMA and no slot is in use. -/
structure EmptyLists (k : Kernel) : Prop where
  head : ∀ i, (k.proc i).vmas = none
  nvma : ∀ i, (k.proc i).nvma = 0
  use : ∀ c, (k.vmas c).use = false

theorem EmptyLists.exact (h : EmptyLists k) : VmaExact k fun _ => [] where
  chains := ⟨fun i => by rw [Kernel.heads, h.head]; exact Chain.nil, fun _ _ _ ha => nomatch ha⟩
  used := fun _ _ ha => nomatch ha
  short := fun _ => Nat.zero_le _
  bound := fun i => by rw [h.nvma]; omega
  exact := fun i => by rw [h.nvma]; rfl
  all := fun c _ hu => by rw [h.use] at hu; cases hu

theorem Booted.emptyLists (h : Booted Λ k) : EmptyLists k := by
  obtain ⟨k0, hf, hk⟩ := h
  obtain ⟨j, tf, pt, pt', m1, m, m', cwd, fs, -, -, -, -, -, -, rfl⟩ := userinit_ok hk
  refine ⟨fun i => ?_, fun i => ?_, hf.vmas⟩
  · by_cases hi : i = j
    · subst hi
      simp
    · simp [hi, hf.proc i]
  · by_cases hi : i = j
    · subst hi
      simp [hf.proc i]
    · simp [hi, hf.proc i]

/-! ## One call -/

/-- How the list of a process changes when `munmap` resizes or frees one of its VMAs. -/
theorem VmaExact.resized (h : VmaExact k L)
    (hL : L i = l₁ ++ a :: l₂) (hprev : prev = prevOf l₁) (hres : Resized k i a prev addr length k') :
    ∃ L', VmaExact k' L' ∧ ∀ j, (L' j).Sublist (L j) := by
  cases hres with
  | freed hw hk =>
    refine ⟨_, h.freed hL hprev hk, fun j => ?_⟩
    by_cases hj : j = i
    · subst hj
      rw [update_self, hL]
      exact List.Sublist.append_left (sublist_cons_self a l₂) l₁
    · rw [update_of_ne hj]
  | front hw ha hk | back hw ha hk =>
    subst hk
    exact ⟨L, h.of_shape (sameShape_range k a rfl rfl), fun j => List.Sublist.refl _⟩

theorem VmaExact.munmap {r : Bool × Kernel} (h : VmaExact k L)
    (hm : munmap Λ io k i addr length = .ok r) : ∃ L', VmaExact r.2 L' := by
  cases munmap_ok hm with
  | notFound _ => exact ⟨L, h⟩
  | failed prev a pt pt' m fs _ _ _ => exact ⟨L, h.of_shape (sameLists_afterPages k i pt' m fs).toShape⟩
  | done prev a pt pt' m fs k' hfind _ _ hres =>
    obtain ⟨l₁, l₂, hL, hprev, -⟩ := h.toVmaLists.munmapFind hfind
    have h' := h.of_shape (sameLists_afterPages k i pt' m fs).toShape
    obtain ⟨L', hL', -⟩ := h'.resized hL hprev hres
    exact ⟨L', hL'⟩

theorem VmaExact.mmap {fd : Nat} (h : VmaExact k L) (hi : i < nproc)
    (hm : mmap k i length prot flag fd = .ok r) : ∃ L', VmaExact r.2 L' := by
  cases mmap_ok hm with
  | failed => exact ⟨L, h⟩
  | stuck => exact ⟨L, h.of_shape (sameLists_setProc k i { k.proc i with lock := true } rfl rfl).toShape⟩
  | mapped f n prev next hf hcount hspot hfree =>
    obtain ⟨L', hL', -⟩ := h.allocated hi hspot hfree hcount
    exact ⟨L', hL'⟩

/-! ## Runs -/

/-- Every step but a `fork` keeps the lists exact. -/
theorem VmaExact.step (h : VmaExact k L) (hi : i < nproc) (hev : ev ≠ .fork)
    (hs : step Λ io k i ev = .ok r) : ∃ L', VmaExact r.2 L' := by
  rcases step_lists hs with hl | ⟨k1, hl, ⟨a, l, ok, hm⟩ | ⟨l, p, f, d, -, hm⟩ | rfl⟩
  · exact ⟨L, h.of_shape hl.toShape⟩
  · exact (h.of_shape hl.toShape).munmap hm
  · exact (h.of_shape hl.toShape).mmap hi hm
  · exact absurd rfl hev

theorem reach_vmaExact {k0 : Kernel} (h0 : EmptyLists k0) (hrun : Reach Λ (fun _ _ ev => ev ≠ .fork) k0 k) : ∃ L, VmaExact k L := by
  refine hrun.invariant (I := fun k => ∃ L, VmaExact k L) ⟨_, h0.exact⟩ ?_
  rintro k io i ev r k' ⟨L, h⟩ hi hev hs
  exact h.step hi hev hs

/-- In every run without `fork` from empty lists, each chain is acyclic and has exactly `nvma` nodes, all of them in use, no slot
is in two chains and every slot in use is in one. So following `next` from the head reaches a node `nvma` times, and the searches
of `munmap` and of the page-fault branch never read through a null pointer. -/
theorem vmaLists_reach {Λ : Layout} {k₀ k : Kernel} (h0 : EmptyLists k₀)
    (hrun : Reach Λ (fun _ _ ev => ev ≠ .fork) k₀ k) :
    ∃ L : Nat → List Nat,
      (∀ i, Chain (fun a => (k.vmas a).next) (k.proc i).vmas (L i) ∧ (L i).Nodup ∧ (L i).length = (k.proc i).nvma ∧
        (k.proc i).nvma ≤ maxVmas ∧ ((k.proc i).nvma = 0 → (k.proc i).vmas = none)) ∧
      (∀ i, ∀ a ∈ L i, a < vmasStored ∧ (k.vmas a).use = true) ∧
      (∀ i j a, a ∈ L i → a ∈ L j → i = j) ∧
      (∀ c < vmasStored, (k.vmas c).use = true → ∃ i < nproc, c ∈ L i) ∧
      (∀ i n, n < (k.proc i).nvma → (Chain.follow (fun a => (k.vmas a).next) n (k.proc i).vmas).isSome = true) ∧
      (∀ i addr length, ∃ r, munmapFind k.vmas addr length (k.proc i).nvma none (k.proc i).vmas = .ok r) ∧
      (∀ i va, ∃ r, faultFind k.vmas va (k.proc i).nvma (k.proc i).vmas = .ok r) ∧
      ∀ n, findVma k.vmas = some n → ∀ i, n ∉ L i := by
  obtain ⟨L, h⟩ := reach_vmaExact h0 hrun
  refine ⟨L, fun i => ⟨h.chains.chain i, (h.chains.chain i).nodup, h.exact i, h.bound i, fun hz => ?_⟩, h.used,
    h.chains.disj, h.all, fun i n hn => ?_, fun i addr length => ?_, fun i va => ?_, fun n hn => ?_⟩
  · have hc := h.chains.chain i
    rw [length_eq_zero_iff.mp ((h.exact i).trans hz)] at hc
    exact Chain.nil_iff.mp hc
  · have hc : Chain (fun a => (k.vmas a).next) (k.proc i).vmas (L i) := h.chains.chain i
    rw [hc.follow_eq n, List.getElem?_eq_getElem (by rw [h.exact i]; exact hn)]
    rfl
  · obtain ⟨r, hr, -⟩ : ∃ r, munmapFind k.vmas addr length (k.proc i).nvma none (k.proc i).vmas = .ok r ∧ _ :=
      (munmapFind_spec (E := fun _ => False) (k.proc i).nvma (h.chains.chain i)
        fun hlt => absurd hlt (by rw [h.exact i]; exact lt_irrefl _)).returns fun _ he => he
    exact ⟨r, hr⟩
  · obtain ⟨r, hr, -⟩ : ∃ r, faultFind k.vmas va (k.proc i).nvma (k.proc i).vmas = .ok r ∧ _ :=
      (faultFind_spec (k.proc i).nvma (h.chains.chain i)).returns fun e he => by
        have := he.2.1
        rw [h.exact i] at this
        exact lt_irrefl _ this
    exact ⟨r, hr⟩
  · exact h.toVmaLists.not_mem_of_free (findVma_some hn).2

/-- Two mappings made, a page of the first touched and unmapped, by the first process of the small system. -/
def demoMaps : List (Nat × Event) :=
  [(0, .openPath demoPath oRdwr), (0, .mmap 8192 protReadWrite mapShared 0), (0, .mmap 100 protRead mapPrivate 0),
    (0, .fault startAddress .load), (0, .munmap startAddress 4096)]

theorem noFork_of_check (_ : Kernel) (_ : Nat) (ev : Event) (h : (!ev matches .fork) = true) : ev ≠ .fork := by
  rintro rfl
  cases h

theorem vmaLists_reach_demoMaps : ∃ k₀ k, EmptyLists k₀ ∧ Reach demoLayout (fun _ _ ev => ev ≠ .fork) k₀ k ∧
    ∃ L : Nat → List Nat, Chain (fun a => (k.vmas a).next) (k.proc 0).vmas (L 0) ∧ (L 0).length = 2 := by
  obtain ⟨k₀, k, h0, hrun, ht⟩ := reach_demoRun (T := fun k => (k.proc 0).nvma = 2) 5000 noFork_of_check demoMaps (by decide +kernel)
  obtain ⟨L, hL, -⟩ := vmaLists_reach h0.emptyLists hrun
  exact ⟨k₀, k, h0.emptyLists, hrun, L, (hL 0).1, (hL 0).2.2.1.trans ht⟩

/-! ## Ordered ranges -/

/-- The range of a VMA: page-aligned, inside the mapping area, and starting no lower than it first did. -/
structure Vma.Ranged (v : Vma) : Prop where
  addrinit : v.addrinit % pgSize = 0
  addri : v.addri % pgSize = 0
  addre : v.addre % pgSize = 0
  start : startAddress ≤ v.addrinit
  moved : v.addrinit ≤ v.addri
  le : v.addri ≤ v.addre
  top : v.addre ≤ topAddress

/-- The ranges of a list of VMAs: each one in order, and each below those after it. -/
structure RangesOk (V : Nat → Vma) (l : List Nat) : Prop where
  ranged : ∀ a ∈ l, (V a).Ranged
  sorted : l.Pairwise fun a b => (V a).addre ≤ (V b).addri

theorem RangesOk.nil (V : Nat → Vma) : RangesOk V [] := ⟨fun _ ha => (nomatch ha), List.Pairwise.nil⟩

/-- A part of the list, with ranges that only shrank. -/
theorem RangesOk.shrink {V V' : Nat → Vma} {l l' : List Nat} (h : RangesOk V l) (hl : l'.Sublist l)
    (hr : ∀ a ∈ l', (V' a).Ranged ∧ (V a).addri ≤ (V' a).addri ∧ (V' a).addre ≤ (V a).addre) : RangesOk V' l' := by
  refine ⟨fun a ha => (hr a ha).1, ?_⟩
  refine (h.sorted.sublist hl).imp_of_mem fun {a b} ha hb hab => ?_
  have h1 := (hr a ha).2.2
  have h2 := (hr b hb).2.1
  omega

/-- A new VMA after `b`, from the end of `b` to at most the start of what follows. -/
theorem RangesOk.insert {V V' : Nat → Vma} {b : Nat} (h : RangesOk V (l₁ ++ [b] ++ l₂))
    (hsame : ∀ a ∈ l₁ ++ [b] ++ l₂, (V' a).addri = (V a).addri ∧ (V' a).addre = (V a).addre ∧ (V' a).Ranged)
    (hn : (V' n).Ranged) (hstart : (V' n).addri = (V b).addre) (hfit : ∀ a, l₂.head? = some a → (V' n).addre ≤ (V a).addri) :
    RangesOk V' (l₁ ++ [b] ++ n :: l₂) := by
  have hs := h.sorted
  have hmem : ∀ x, x ∈ l₁ ++ [b] ++ n :: l₂ → x = n ∨ x ∈ l₁ ++ [b] ++ l₂ := by
    intro x hx
    simp only [mem_append, mem_cons] at hx ⊢
    tauto
  refine ⟨fun x hx => ?_, ?_⟩
  · rcases hmem x hx with rfl | hx
    · exact hn
    · exact (hsame x hx).2.2
  · have hold : (l₁ ++ [b] ++ l₂).Pairwise fun a b => (V' a).addre ≤ (V' b).addri := by
      refine hs.imp_of_mem fun {x y} hx hy hxy => ?_
      rw [(hsame x hx).2.1, (hsame y hy).1]
      exact hxy
    obtain ⟨h1, h2, h12⟩ := pairwise_append.mp hold
    refine pairwise_append.mpr ⟨h1, pairwise_cons.mpr ⟨fun y hy => ?_, h2⟩, fun x hx y hy => ?_⟩
    · -- the new VMA against those after it: the first of them bounds it, and the others are above the first
      cases l₂ with
      | nil => cases hy
      | cons a l₂ =>
        have ha := hfit a rfl
        have hma : a ∈ l₁ ++ [b] ++ a :: l₂ := by simp
        rcases mem_cons.mp hy with rfl | hy
        · rw [(hsame y hma).1]
          exact ha
        · have hay := (pairwise_cons.mp h2).1 y hy
          have hr := (hsame a hma).2.2.le
          have he := (hsame a hma).1
          omega
    · rcases mem_cons.mp hy with rfl | hy
      · rw [hstart]
        have hbm : b ∈ l₁ ++ [b] ++ l₂ := by simp
        rcases mem_append.mp hx with hx' | hx'
        · have hxb : (V' x).addre ≤ (V' b).addri :=
            (pairwise_append.mp h1).2.2 x hx' b (mem_singleton.mpr rfl)
          have hr := (hsame b hbm).2.2.le
          have he := (hsame b hbm).2.1
          omega
        · rw [mem_singleton.mp hx', (hsame b hbm).2.1]
      · exact h12 x hx y hy

/-- The length of a `mmap` that fits the mapping area. -/
def FitsArea (length : Nat) : Prop := 1 ≤ length ∧ length ≤ topAddress - startAddress - pgSize

theorem FitsArea.psize (h : FitsArea length) : pgRoundUp length % pgSize = 0 ∧ 0 < pgRoundUp length ∧ pgRoundUp length < 2 ^ 38 := by
  obtain ⟨h1, h2⟩ := h
  simp only [topAddress, startAddress, pgSize] at h2
  refine ⟨pgRoundUp_mod length, ?_, ?_⟩ <;>
  · simp only [pgRoundUp, pgSize]
    omega

/-- A new range from an aligned address in the area that passes the test of `mmap`. -/
theorem ranged_new {x : Nat} (hfits : FitsArea length) (hx : x % pgSize = 0) (hx1 : startAddress ≤ x)
    (hx2 : x ≤ topAddress) (hi : v.addri = x) (hinit : v.addrinit = x) (he : v.addre = (x + pgRoundUp length) % 2 ^ 64)
    (htop : v.addre ≤ topAddress) : v.Ranged := by
  obtain ⟨h1, h2, h3⟩ := hfits.psize
  have hsum : v.addre = x + pgRoundUp length := by
    simp only [topAddress] at hx2
    omega
  refine ⟨by rw [hinit]; exact hx, by rw [hi]; exact hx, ?_, by rw [hinit]; exact hx1, by rw [hinit, hi], ?_, htop⟩
  · simp only [pgSize] at *
    omega
  · omega

/-- The ranges of every process. -/
def AllRanges (k : Kernel) (L : Nat → List Nat) : Prop := ∀ i, RangesOk k.vmas (L i)

theorem Vma.Ranged.next {w : Vma} (h : v.Ranged) (hw : ∃ n, w = { v with next := n }) :
    w.Ranged ∧ w.addri = v.addri ∧ w.addre = v.addre := by
  obtain ⟨n, rfl⟩ := hw
  exact ⟨⟨h.addrinit, h.addri, h.addre, h.start, h.moved, h.le, h.top⟩, rfl, rfl⟩

theorem AllRanges.allocated {f : Nat} {next : Option Nat} {L' : Nat → List Nat}
    (hex : VmaExact k L) (h : AllRanges k L) (hfits : FitsArea length) (hfree : (k.vmas n).use = false)
    (hins : Inserted k i (pgRoundUp length) n prev next L L') : AllRanges (allocated k i length prot flag f n prev next) L' := by
  have hnew := hex.toVmaLists.not_mem_of_free hfree
  have hV : (Xv6Mmap.allocated k i length prot flag f n prev next).vmas = linkVma k.vmas n prev
      { use := true, size := length, ofile := some f, addrinit := spotStart k.vmas prev, addri := spotStart k.vmas prev,
        addre := (spotStart k.vmas prev + pgRoundUp length) % 2 ^ 64, offset := 0, next := next, prot := prot,
        flag := flag } := rfl
  have hold : ∀ j, ∀ a ∈ L j, ∃ n', (Xv6Mmap.allocated k i length prot flag f n prev next).vmas a =
      { k.vmas a with next := n' } := by
    refine fun j a ha => linkVma_old k.vmas prev _ ?_
    rintro rfl
    exact hnew j ha
  -- the lists of the other processes keep their ranges
  have hkeep : ∀ j, L' j = L j → RangesOk (Xv6Mmap.allocated k i length prot flag f n prev next).vmas (L' j) := by
    intro j hj
    rw [hj]
    refine (h j).shrink (List.Sublist.refl _) fun a ha => ?_
    obtain ⟨h1, h2, h3⟩ := ((h j).ranged a ha).next (hold j a ha)
    exact ⟨h1, h2.ge, h3.le⟩
  intro j
  cases hins with
  | first hL hp hn _ hfit hL' =>
    subst hL'
    by_cases hj : j = i
    · subst hj
      subst hp
      rw [update_self]
      refine ⟨fun a ha => ?_, pairwise_singleton _ _⟩
      rw [mem_singleton.mp ha, hV, linkVma_self]
      exact ranged_new hfits (by decide) le_rfl (by decide) rfl rfl rfl hfit
    · exact hkeep j (update_of_ne hj _ _)
  | lost _ _ _ _ _ hL' =>
    subst hL'
    exact hkeep j rfl
  | after l₁ b l₂ hL hp hn hfit hL' =>
    subst hL'
    by_cases hj : j = i
    · subst hj
      subst hp
      have hrj := h j
      rw [hL] at hrj
      have hb : (k.vmas b).Ranged := hrj.ranged b (by simp)
      rw [update_self]
      refine hrj.insert (fun a ha => ?_) ?_ ?_ ?_
      · rw [← hL] at ha
        obtain ⟨h1, h2, h3⟩ := ((h j).ranged a ha).next (hold j a ha)
        exact ⟨h2, h3, h1⟩
      · rw [hV, linkVma_self]
        refine ranged_new hfits hb.addre ?_ hb.top rfl rfl rfl ?_
        · have := hb.start
          have := hb.moved
          have := hb.le
          exact show startAddress ≤ (k.vmas b).addre by omega
        · -- a VMA that fits below the next one is below `TOP_ADDRESS`, as that one is
          cases hn' : next with
          | none =>
            rw [hn'] at hfit
            exact hfit
          | some a =>
            rw [hn'] at hfit hn
            have ha : a ∈ l₁ ++ [b] ++ l₂ := by
              have : a ∈ l₂ := mem_of_mem_head? (Option.mem_def.mpr hn.symm)
              simp [this]
            have h1 := (hrj.ranged a ha).le
            have h2 := (hrj.ranged a ha).top
            have h3 : ((k.vmas b).addre + pgRoundUp length) % 2 ^ 64 ≤ (k.vmas a).addri := hfit
            exact le_trans h3 (le_trans h1 h2)
      · rw [hV, linkVma_self]
        rfl
      · intro a ha
        rw [hV, linkVma_self]
        rw [hn, ha] at hfit
        exact hfit
    · exact hkeep j (update_of_ne hj _ _)

/-- A range that `munmap` takes off the front of a VMA ends inside it. -/
theorem Vma.Ranged.front (h : v.Ranged) (hc : v.covers addr length = true)
    (ha : v.addri = addr) : (v.addri + pgRoundUp length) % 2 ^ 64 ≤ v.addre ∧
      v.addri ≤ (v.addri + pgRoundUp length) % 2 ^ 64 ∧ (v.addri + pgRoundUp length) % 2 ^ 64 % pgSize = 0 := by
  obtain ⟨-, h2, h3, -, -, -, h7⟩ := h
  simp only [Vma.covers, decide_eq_true_eq, pgRoundUp, pgSize, topAddress] at *
  omega

/-- The ranges after the end of `munmap`: what it resized only shrank. -/
theorem AllRanges.resized (hex : VmaExact k L) (h : AllRanges k L) (hL : L i = l₁ ++ a :: l₂) (hprev : prev = prevOf l₁)
    (hcov : (k.vmas a).covers addr length = true) (hres : Resized k i a prev addr length k') :
    ∃ L', VmaExact k' L' ∧ AllRanges k' L' := by
  have hr : (k.vmas a).Ranged := (h i).ranged a (by simp [hL])
  -- a VMA whose range shrank, with the others as they were
  have hkeep : ∀ v : Vma, v.Ranged → (k.vmas a).addri ≤ v.addri → v.addre ≤ (k.vmas a).addre →
      AllRanges { k with vmas := update k.vmas a v } L := by
    intro v hv h1 h2 j
    refine (h j).shrink (List.Sublist.refl _) fun c hc => ?_
    by_cases hca : c = a
    · subst hca
      simpa using ⟨hv, h1, h2⟩
    · simpa [hca] using (h j).ranged c hc
  cases hres with
  | freed hw hk =>
    have hex' := hex.freed hL hprev hk
    refine ⟨_, hex', fun j => ?_⟩
    obtain ⟨f, V, -, -, hold, rfl⟩ := freeVma_ok hk
    have hsub : (update L i (l₁ ++ l₂) j).Sublist (L j) := by
      by_cases hj : j = i
      · subst hj
        rw [update_self, hL]
        exact List.Sublist.append_left (sublist_cons_self a l₂) l₁
      · rw [update_of_ne hj]
    refine (h j).shrink hsub fun c hc => ?_
    have hca : c ≠ a := by
      rintro rfl
      have := (hex'.used j c hc).2
      simp [Vma.clear] at this
    obtain ⟨h1, h2, h3⟩ := ((h j).ranged c (hsub.subset hc)).next (hold c)
    simp only [update_of_ne hca]
    exact ⟨h1, h2.ge, h3.le⟩
  | front hw ha hk =>
    subst hk
    obtain ⟨h1, h2, h3⟩ := hr.front hcov ha
    refine ⟨L, hex.of_shape (sameShape_range k a rfl rfl), hkeep _ ?_ h2 le_rfl⟩
    exact ⟨hr.addrinit, h3, hr.addre, hr.start, le_trans hr.moved h2, h1, hr.top⟩
  | back hw ha hk =>
    subst hk
    have hc : (k.vmas a).addri ≤ addr ∧ addr < (k.vmas a).addre := by
      simp only [Vma.covers, decide_eq_true_eq] at hcov
      exact ⟨hcov.2.2.1, hcov.2.2.2⟩
    have h1 : (k.vmas a).addri ≤ pgRoundDown addr := le_pgRoundDown hr.addri hc.1
    have h2 : pgRoundDown addr ≤ (k.vmas a).addre := by
      have := pgRoundDown_le addr
      omega
    refine ⟨L, hex.of_shape (sameShape_range k a rfl rfl), hkeep _ ?_ le_rfl h2⟩
    exact ⟨hr.addrinit, hr.addri, pgRoundDown_mod addr, hr.start, hr.moved, h1, le_trans h2 hr.top⟩

theorem AllRanges.of_same (h : AllRanges k L) (hs : SameLists k k') : AllRanges k' L := by
  intro j
  rw [hs.vmas]
  exact h j

theorem AllRanges.munmap {r : Bool × Kernel} (hex : VmaExact k L) (h : AllRanges k L)
    (hm : munmap Λ io k i addr length = .ok r) : ∃ L', VmaExact r.2 L' ∧ AllRanges r.2 L' := by
  cases munmap_ok hm with
  | notFound _ => exact ⟨L, hex, h⟩
  | failed prev a pt pt' m fs _ _ _ =>
    have hs := sameLists_afterPages k i pt' m fs
    exact ⟨L, hex.of_shape hs.toShape, h.of_same hs⟩
  | done prev a pt pt' m fs k' hfind _ _ hres =>
    obtain ⟨l₁, l₂, hL, hprev, hcov, -⟩ := hex.toVmaLists.munmapFind hfind
    have hs := sameLists_afterPages k i pt' m fs
    exact AllRanges.resized (hex.of_shape hs.toShape) (h.of_same hs) hL hprev hcov hres

theorem AllRanges.mmap {fd : Nat} (hex : VmaExact k L) (h : AllRanges k L)
    (hi : i < nproc) (hfits : FitsArea length) (hm : mmap k i length prot flag fd = .ok r) :
    ∃ L', VmaExact r.2 L' ∧ AllRanges r.2 L' := by
  cases mmap_ok hm with
  | failed => exact ⟨L, hex, h⟩
  | stuck =>
    have hs := sameLists_setProc k i { k.proc i with lock := true } rfl rfl
    exact ⟨L, hex.of_shape hs.toShape, h.of_same hs⟩
  | mapped f n prev next hf hcount hspot hfree =>
    obtain ⟨L', hL', hins⟩ := hex.allocated hi hspot hfree hcount
    exact ⟨L', hL', AllRanges.allocated hex h hfits (findVma_some hfree).2 hins⟩

/-- The steps of the runs in which the ranges stay in order: no `fork`, and no `mmap` of more than the mapping area. -/
def InArea (_ : Kernel) (_ : Nat) (ev : Event) : Prop :=
  ev ≠ .fork ∧ ∀ length prot flag fd, ev = .mmap length prot flag fd → FitsArea length

theorem AllRanges.step (hex : VmaExact k L) (h : AllRanges k L) (hi : i < nproc) (hev : InArea k i ev)
    (hs : Xv6Mmap.step Λ io k i ev = .ok r) : ∃ L', VmaExact r.2 L' ∧ AllRanges r.2 L' := by
  rcases step_lists hs with hl | ⟨k1, hl, ⟨a, l, ok, hm⟩ | ⟨l, p, f, d, e, hm⟩ | e⟩
  · exact ⟨L, hex.of_shape hl.toShape, h.of_same hl⟩
  · exact AllRanges.munmap (hex.of_shape hl.toShape) (h.of_same hl) hm
  · exact AllRanges.mmap (hex.of_shape hl.toShape) (h.of_same hl) hi (hev.2 l p f d e) hm
  · exact absurd e hev.1

/-- In every run from empty lists without `fork`, whose `mmap`s ask for at least a byte and at most the mapping area and whose
`munmap`s are arbitrary, each chain lists its VMAs in increasing order: `START_ADDRESS ≤ addrinit ≤ addri ≤ addre ≤ TOP_ADDRESS`, all
page-aligned, and each VMA ends no later than every later one starts. So an address is in at most one VMA of a process, and
none reaches the trapframe page. -/
theorem vmaRanges_reach {Λ : Layout} {k₀ k : Kernel} (h0 : EmptyLists k₀) (hrun : Reach Λ InArea k₀ k) :
    ∃ L : Nat → List Nat,
      (∀ i, Chain (fun a => (k.vmas a).next) (k.proc i).vmas (L i) ∧ (L i).length = (k.proc i).nvma) ∧
      (∀ i, ∀ a ∈ L i,
        (k.vmas a).addrinit % pgSize = 0 ∧ (k.vmas a).addri % pgSize = 0 ∧ (k.vmas a).addre % pgSize = 0 ∧
        startAddress ≤ (k.vmas a).addrinit ∧ (k.vmas a).addrinit ≤ (k.vmas a).addri ∧
        (k.vmas a).addri ≤ (k.vmas a).addre ∧ (k.vmas a).addre ≤ topAddress ∧ (k.vmas a).addre ≤ trapframe) ∧
      (∀ i, (L i).Pairwise fun a b => (k.vmas a).addre ≤ (k.vmas b).addri) ∧
      ∀ i va, ∀ a ∈ L i, ∀ b ∈ L i, (k.vmas a).addri ≤ va ∧ va < (k.vmas a).addre →
        (k.vmas b).addri ≤ va ∧ va < (k.vmas b).addre → a = b := by
  obtain ⟨L, hex, h⟩ : ∃ L, VmaExact k L ∧ AllRanges k L := by
    refine hrun.invariant (I := fun k => ∃ L, VmaExact k L ∧ AllRanges k L)
      ⟨_, h0.exact, fun i => RangesOk.nil _⟩ ?_
    rintro k io i ev r k' ⟨L, hex, h⟩ hi hev hs
    exact AllRanges.step hex h hi hev hs
  refine ⟨L, fun i => ⟨hex.chains.chain i, hex.exact i⟩, fun i a ha => ?_, fun i => (h i).sorted, ?_⟩
  · obtain ⟨h1, h2, h3, h4, h5, h6, h7⟩ := (h i).ranged a ha
    simp only [topAddress, trapframe, trampoline, maxVa, pgSize] at *
    omega
  · intro i va a ha b hb hva hvb
    by_contra hne
    rcases List.Pairwise.forall_of_forall_of_flip (R := fun a b => a = b ∨ (k.vmas a).addre ≤ (k.vmas b).addri ∨
      (k.vmas b).addre ≤ (k.vmas a).addri) (l := L i) (fun x _ => Or.inl rfl)
      ((h i).sorted.imp fun hab => Or.inr (Or.inl hab)) ((h i).sorted.imp fun hab => Or.inr (Or.inr hab)) ha hb
      with e | e | e
    · exact hne e
    · omega
    · omega

/-- `InArea`, as a test. -/
def inAreaCheck (_ : Kernel) (_ : Nat) : Event → Bool
  | .fork => false
  | .mmap length _ _ _ => decide (1 ≤ length ∧ length ≤ topAddress - startAddress - pgSize)
  | _ => true

theorem inArea_of_check (k : Kernel) (i : Nat) (ev : Event) (h : inAreaCheck k i ev = true) : InArea k i ev := by
  refine ⟨?_, ?_⟩
  · rintro rfl
    cases h
  · rintro length prot flag fd rfl
    simpa only [inAreaCheck, decide_eq_true_eq, FitsArea] using h

theorem vmaRanges_reach_demoMaps : ∃ k₀ k, EmptyLists k₀ ∧ Reach demoLayout InArea k₀ k ∧ ∃ a b : Nat,
    (k.proc 0).vmas = some a ∧ (k.vmas a).next = some b ∧ (k.vmas a).addre ≤ (k.vmas b).addri := by
  obtain ⟨k₀, k, h0, hrun, ht⟩ := reach_demoRun (T := fun k => (k.proc 0).vmas = some 0 ∧ (k.vmas 0).next = some 1) 5000
    inArea_of_check demoMaps (by decide +kernel)
  obtain ⟨L, hL, -, hsorted, -⟩ := vmaRanges_reach h0.emptyLists hrun
  refine ⟨k₀, k, h0.emptyLists, hrun, 0, 1, ht.1, ht.2, ?_⟩
  have hc := (hL 0).1
  have hs := hsorted 0
  rw [ht.1] at hc
  cases hl : L 0 with
  | nil =>
    rw [hl] at hc
    cases hc
  | cons a l =>
    rw [hl] at hc hs
    obtain ⟨h1, h2⟩ := Chain.cons_iff.mp hc
    cases h1
    rw [ht.2] at h2
    cases h2 with
    | cons _ => exact rel_of_pairwise_cons hs mem_cons_self

end Xv6Mmap

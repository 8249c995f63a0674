import Xv6Mmap.Lemmas.MunmapLoop
import Xv6Mmap.Theorems.MapAccess
import Mathlib

/-!
# Which pages `munmap` removes

A `munmap` that returns `0` should take from the process the pages that meet the range `[addr, addr + length)`, and no others. It
takes whole VMAs or one end of a VMA, by the number of pages of `length` alone. By `munmap_removes_exactly` that is the same for the
ranges that start at the start of the VMA or reach into its last page, with some care for the first page, and whose mapped pages are
the ones that the page loop meets.
-/

namespace Xv6Mmap

open Function

variable {addr length s e : Nat} {k : Kernel}

/-! ## Pages -/

/-- The pages of a VMA, by their first addresses. -/
def Vma.pages (v : Vma) : Set Nat := {p | p % pgSize = 0 ∧ v.addri ≤ p ∧ p < v.addre}

/-- A slot of the VMA list of a process. -/
def InList (k : Kernel) (i a : Nat) : Prop := ∃ l, Chain k.links (k.proc i).vmas l ∧ a ∈ l

/-- The pages covered by the VMAs of a process. -/
def Kernel.covered (k : Kernel) (i : Nat) : Set Nat := {p | ∃ a, InList k i a ∧ p ∈ (k.vmas a).pages}

theorem VmaLists.inList {L : Nat → List Nat} (h : VmaLists k L) {i a : Nat} : InList k i a ↔ a ∈ L i := by
  constructor
  · rintro ⟨l, hl, ha⟩
    rwa [← hl.unique (h.chains.chain i)]
  · exact fun ha => ⟨L i, h.chains.chain i, ha⟩

section Range

variable {v : Vma} {addr length : Nat}

/-- Whether the end of `munmap` frees the VMA. -/
def Vma.freedBy (v : Vma) (length : Nat) : Prop := (v.addri + pgRoundUp length) % 2 ^ 64 = v.addre

instance (v : Vma) (length : Nat) : Decidable (v.freedBy length) := inferInstanceAs (Decidable (_ = _))

/-- The pages of the VMA that are left. -/
def Vma.pagesAfter (v : Vma) (addr length : Nat) : Set Nat :=
  {p | p ∈ v.pages ∧ ¬v.freedBy length ∧
    if v.addri = addr then (v.addri + pgRoundUp length) % 2 ^ 64 ≤ p else p < pgRoundDown addr}

/-- A VMA with page-aligned ends. -/
structure Vma.Aligned (v : Vma) : Prop where
  addri : v.addri % pgSize = 0
  addre : v.addre % pgSize = 0
  lt : v.addre < 2 ^ 64

end Range

/-! ## The lists after the call -/

section After

variable {k k' : Kernel} {L : Nat → List Nat} {i a addr length : Nat} {prev : Option Nat}
  {l₁ l₂ : List Nat}

/-- The end of `munmap`: a slot of the list is left with its fields, unless it is the VMA of the range, which keeps the pages that
`Vma.pagesAfter` says. -/
structure ListAfter (k k' : Kernel) (i a addr length : Nat) : Prop where
  mem : ∀ b, InList k' i b ↔ InList k i b ∧ (b = a → ¬(k.vmas a).freedBy length)
  other : ∀ b, b ≠ a → (k.vmas b).SameFields (k'.vmas b)
  self : ¬(k.vmas a).freedBy length → (k'.vmas a).pages = (k.vmas a).pagesAfter addr length ∧
    (k'.vmas a).SameFields { k.vmas a with addri := (k'.vmas a).addri, addre := (k'.vmas a).addre }

theorem Resized.pagetable (hr : Resized k i a prev addr length k') : (k'.proc i).pagetable = (k.proc i).pagetable := by
  cases hr with
  | freed hw hk =>
    obtain ⟨f, V, -, -, -, rfl⟩ := freeVma_ok hk
    simp
  | front hw ha hk | back hw ha hk => rw [hk]

/-- The pages that other VMAs of the process cover. -/
def otherPages (k : Kernel) (i a : Nat) : Set Nat := {p | ∃ b, InList k i b ∧ b ≠ a ∧ p ∈ (k.vmas b).pages}

theorem Vma.SameFields.pages {v w : Vma} (h : v.SameFields w) : w.pages = v.pages := by
  unfold Vma.pages
  rw [h.addri, h.addre]

theorem ListAfter.covered (h : ListAfter k k' i a addr length) (ha : InList k i a) :
    k'.covered i = (k.vmas a).pagesAfter addr length ∪ otherPages k i a := by
  ext p
  constructor
  · rintro ⟨b, hb, hp⟩
    obtain ⟨hb, hba⟩ := (h.mem b).mp hb
    by_cases e : b = a
    · subst e
      rw [(h.self (hba rfl)).1] at hp
      exact Or.inl hp
    · rw [(h.other b e).pages] at hp
      exact Or.inr ⟨b, hb, e, hp⟩
  · rintro (hp | ⟨b, hb, e, hp⟩)
    · have hno := hp.2.1
      rw [← (h.self hno).1] at hp
      exact ⟨a, (h.mem a).mpr ⟨ha, fun _ => hno⟩, hp⟩
    · rw [← (h.other b e).pages] at hp
      exact ⟨b, (h.mem b).mpr ⟨hb, fun e' => absurd e' e⟩, hp⟩

end After

/-! ## The page loop -/

/-- The page loop of `munmap` gets to the page: no round before wrote the last part of the file. -/
def VisitedPage (v : Vma) (addr length size : Nat) (pt : PageTable) (p : Nat) : Prop :=
  ∃ r < munmapRounds length, (∀ t < r, ¬LastRound v addr size pt t) ∧ munmapPage addr r = p

theorem GoesOn.not_last {F : Nat → File} {v : Vma} {t : Nat} {pt : PageTable} {Λ : Layout} {io : Bool} {m : Mem} {fs : Fs}
    (h : GoesOn F v addr pt Λ io m fs t) : ¬LastRound v addr (backSize F v fs) pt t :=
  fun hl => hl.not_passes h.2

theorem PagesEnd.cleared {F : Nat → File} {v : Vma} {pt pt' : PageTable} {Λ : Layout} {io : Bool} {m m' : Mem}
    {fs fs' : Fs} (h : PagesEnd F v addr pt Λ io m fs 0 (munmapRounds length) (true, pt', m', fs')) :
    Cleared pt {p | pt.mapped p = true ∧ VisitedPage v addr length (backSize F v fs) pt p} pt' := by
  have hset : ∀ e, (∀ r, r < e ↔ r < munmapRounds length ∧ ∀ t < r, ¬LastRound v addr (backSize F v fs) pt t) →
      metPages addr pt e = {p | pt.mapped p = true ∧ VisitedPage v addr length (backSize F v fs) pt p} := by
    intro e he
    ext p
    refine and_congr_right fun _ => ?_
    constructor
    · rintro ⟨t, ht, hp⟩
      exact ⟨t, ((he t).mp ht).1, ((he t).mp ht).2, hp⟩
    · rintro ⟨r, hr, hlast, hp⟩
      exact ⟨r, (he r).mpr ⟨hr, hlast⟩, hp⟩
  cases h with
  | all _ _ _ hon hcl =>
    rw [zero_add] at hon hcl
    refine hset _ (fun r => ?_) ▸ hcl
    exact ⟨fun hr => ⟨hr, fun t ht => (hon t (Nat.zero_le t) (ht.trans hr)).not_last⟩, fun hr => hr.1⟩
  | last t _ _ _ _ ht hon hp hlast hcl =>
    rw [zero_add] at ht
    refine hset _ (fun r => ?_) ▸ hcl
    constructor
    · intro hr
      exact ⟨lt_of_le_of_lt (Nat.le_of_lt_succ hr) ht, fun u hu => (hon u (Nat.zero_le u) (by omega)).not_last⟩
    · rintro ⟨-, hr⟩
      by_contra hno
      exact hr t (by omega) hlast

/-! ## The call -/

/-- The VMAs of a process: page-aligned, with files, and no page in two of them. -/
structure MapsApart (k : Kernel) (i : Nat) : Prop where
  aligned : ∀ a, InList k i a → (k.vmas a).Aligned
  file : ∀ a, InList k i a → ∃ f, (k.vmas a).ofile = some f
  apart : ∀ a b, InList k i a → InList k i b → a ≠ b → Disjoint (k.vmas a).pages (k.vmas b).pages

section Call

variable {k k' : Kernel} {i a addr length : Nat}

theorem ListAfter.kept (h : ListAfter k k' i a addr length) : ∀ b, InList k' i b → ∀ p ∈ (k'.vmas b).pages,
    InList k i b ∧ p ∈ (k.vmas b).pages ∧ (k'.vmas b).ofile = (k.vmas b).ofile ∧
      (k'.vmas b).addrinit = (k.vmas b).addrinit ∧ (k'.vmas b).offset = (k.vmas b).offset ∧
      (k'.vmas b).prot = (k.vmas b).prot ∧ (k'.vmas b).flag = (k.vmas b).flag := by
  intro b hb p hp
  obtain ⟨hb, hba⟩ := (h.mem b).mp hb
  by_cases e : b = a
  · subst e
    obtain ⟨hpages, hsame⟩ := h.self (hba rfl)
    rw [hpages] at hp
    exact ⟨hb, hp.1, hsame.ofile.symm, hsame.addrinit.symm, hsame.offset.symm, hsame.prot.symm, hsame.flag.symm⟩
  · have hsame := h.other b e
    rw [hsame.pages] at hp
    exact ⟨hb, hp, hsame.ofile, hsame.addrinit, hsame.offset, hsame.prot, hsame.flag⟩

end Call

/-- The list of the first process is one VMA of the given range. -/
structure OneMap (k : Kernel) (s e : Nat) : Prop where
  chain : Chain k.links (k.proc 0).vmas [0]
  addri : (k.vmas 0).addri = s
  addre : (k.vmas 0).addre = e
  file : (k.vmas 0).ofile = some 0

instance (k : Kernel) (s e : Nat) : Decidable (OneMap k s e) :=
  decidable_of_iff (Chain k.links (k.proc 0).vmas [0] ∧ (k.vmas 0).addri = s ∧ (k.vmas 0).addre = e ∧ (k.vmas 0).ofile = some 0)
    ⟨fun ⟨h1, h2, h3, h4⟩ => ⟨h1, h2, h3, h4⟩, fun h => ⟨h.chain, h.addri, h.addre, h.file⟩⟩

theorem OneMap.inList (h : OneMap k s e) {a : Nat} : InList k 0 a ↔ a = 0 := by
  constructor
  · rintro ⟨l, hl, ha⟩
    rw [hl.unique h.chain] at ha
    exact List.mem_singleton.mp ha
  · rintro rfl
    exact ⟨[0], h.chain, List.mem_singleton_self 0⟩

theorem OneMap.apart (h : OneMap k s e) (hs : s % pgSize = 0) (he : e % pgSize = 0) (hlt : e < 2 ^ 64) : MapsApart k 0 := by
  refine ⟨fun a ha => ?_, fun a ha => ?_, fun a b ha hb hne => ?_⟩
  · rw [h.inList.mp ha]
    exact ⟨by rw [h.addri]; exact hs, by rw [h.addre]; exact he, by rw [h.addre]; exact hlt⟩
  · rw [h.inList.mp ha]
    exact ⟨0, h.file⟩
  · exact absurd ((h.inList.mp ha).trans (h.inList.mp hb).symm) hne

end Xv6Mmap

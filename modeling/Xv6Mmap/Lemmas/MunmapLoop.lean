import Xv6Mmap.Lemmas.Dispose
import Xv6Mmap.Lemmas.Writeback

/-!
# Which rounds the page loop of `munmap` makes

All that a round of the loop depends on can be read off the state before the call: the PTE of its page, unless an earlier round met
it, the counts of physical pages, and the size of the file, which earlier rounds may have raised (`sizeBefore`). A round goes on
(`GoesOn`) or ends the loop: its page has no table, it is aborted, its write-back is refused, or it wrote the last part of the file
(`munmapPages_ends`).
-/

namespace Xv6Mmap

/-! ## The rounds -/

section Rounds

variable (F : Nat → File) (v : Vma) (addr size : Nat) (pt : PageTable)

/-- `walk` returns the PTE of the page of round `s`. -/
def PageFound (s : Nat) : Prop := munmapPage addr s < maxVa ∧ pt.hasTable (munmapPage addr s) = true

/-- Round `s` finds its page mapped: no earlier round met it. -/
def MeetsPage (s : Nat) : Prop :=
  pt.mapped (munmapPage addr s) = true ∧ ∀ t < s, munmapPage addr t ≠ munmapPage addr s

/-- Round `s` writes its page back. -/
def WritesBack (s : Nat) : Prop :=
  MeetsPage addr pt s ∧ hasFlag (pt.pte (munmapPage addr s)) pteD = true ∧ v.flag = mapShared

instance (s : Nat) : Decidable (PageFound addr pt s) := inferInstanceAs (Decidable (_ ∧ _))

instance (s : Nat) : Decidable (MeetsPage addr pt s) := inferInstanceAs (Decidable (_ ∧ ∀ t < s, _))

instance (s : Nat) : Decidable (WritesBack v addr pt s) := inferInstanceAs (Decidable (_ ∧ _ ∧ _))

/-- The size of the file before round `s`: a page written back beyond the end raises it. -/
def sizeBefore : Nat → Nat
  | 0 => size
  | s + 1 =>
    if WritesBack v addr pt s then
      max (sizeBefore s)
        (v.backOffset (munmapPage addr s) + if walkaddr pt (munmapPage addr s) = 0 then 0 else pgSize)
    else sizeBefore s

/-- Round `s` writes back a page past the end of the file: the last round. -/
def LastRound (s : Nat) : Prop := WritesBack v addr pt s ∧ 0 < sizeWritten s (sizeBefore v addr size pt s)

/-- `writei` refuses the page of round `s`. -/
def RoundRefused (s : Nat) : Prop :=
  WritesBack v addr pt s ∧
    writeRefused (sizeBefore v addr size pt s) (v.backOffset (munmapPage addr s))
      (writeLen s (sizeBefore v addr size pt s)) = true

/-- The inode behind the VMA can be locked. -/
def Backable (fs : Fs) : Prop := ∃ f ip, v.ofile = some f ∧ (F f).ip = some ip ∧ fs.Lockable ip

/-- The size of the file behind the VMA. -/
def backSize (fs : Fs) : Nat :=
  match v.ofile with
  | none => 0
  | some f =>
    match (F f).ip with
    | none => 0
    | some ip => fs.isize ip

/-- Round `s` goes on once its page is found: not mapped, or a leaf that `kfree` takes, its write-back neither refused nor aborted nor
the last. -/
def RoundPasses (Λ : Layout) (io : Bool) (m : Mem) (fs : Fs) (s : Nat) : Prop :=
  MeetsPage addr pt s → LeafOk Λ true pt m (munmapPage addr s) ∧
    (WritesBack v addr pt s → io = true ∧ Backable F v fs ∧ ¬RoundRefused v addr (backSize F v fs) pt s ∧
      ¬LastRound v addr (backSize F v fs) pt s)

/-- Round `s` finds its page and goes on to the next. -/
def GoesOn (Λ : Layout) (io : Bool) (m : Mem) (fs : Fs) (s : Nat) : Prop :=
  PageFound addr pt s ∧ RoundPasses F v addr pt Λ io m fs s

/-- The pages the first `s` rounds unmap. -/
def metPages (s : Nat) : Set Nat := {p | pt.mapped p = true ∧ ∃ t < s, munmapPage addr t = p}

/-- The state of the loop before round `s`, when it went on so far. -/
structure LoopAt (m : Mem) (fs : Fs) (s : Nat) (pt' : PageTable) (m' : Mem) (fs' : Fs) : Prop where
  cleared : Cleared pt (metPages addr pt s) pt'
  counts : SameCounts m m'
  back : Backable F v fs' ↔ Backable F v fs
  size : backSize F v fs' = sizeBefore v addr (backSize F v fs) pt s

end Rounds

section Loop

variable {Λ : Layout} {io : Bool} {F : Nat → File} {v : Vma} {addr s : Nat} {pt pt' : PageTable} {m m' : Mem} {fs fs' : Fs}

theorem LoopAt.zero (F : Nat → File) (v : Vma) (addr : Nat) (pt : PageTable) (m : Mem) (fs : Fs) :
    LoopAt F v addr pt m fs 0 pt m fs := by
  have hnone : metPages addr pt 0 = ∅ := by
    simp [metPages]
  exact ⟨hnone ▸ Cleared.refl pt, SameCounts.refl m, Iff.rfl, rfl⟩

theorem munmapPage_aligned (addr s : Nat) : munmapPage addr s % pgSize = 0 := pgRoundDown_mod _

theorem PageFound.pageAddr (h : PageFound addr pt s) : PageAddr (munmapPage addr s) := by
  have h1 := h.1
  have h2 := munmapPage_aligned addr s
  simp only [PageAddr, maxVa] at *
  omega

section

variable (h : LoopAt F v addr pt m fs s pt' m' fs')

include h

theorem LoopAt.hasTable (p : Nat) : pt'.hasTable p = pt.hasTable p := by
  rw [PageTable.hasTable, h.cleared.low, PageTable.hasTable]

/-- The page of the round is as before the call, or was unmapped earlier. -/
theorem LoopAt.page (hp : PageFound addr pt s) :
    (MeetsPage addr pt s ∧ pt'.pte (munmapPage addr s) = pt.pte (munmapPage addr s) ∧ pt'.mapped (munmapPage addr s) = true) ∨
      (¬MeetsPage addr pt s ∧ pt'.mapped (munmapPage addr s) = false ∧
        (pt.mapped (munmapPage addr s) = true → ∃ t < s, munmapPage addr t = munmapPage addr s)) := by
  by_cases hmem : munmapPage addr s ∈ metPages addr pt s
  · obtain ⟨hmap, t, ht, e⟩ := hmem
    refine Or.inr ⟨fun hm => hm.2 t ht e, ?_, fun _ => ⟨t, ht, e⟩⟩
    rw [PageTable.mapped, h.cleared.inside _ hp.pageAddr ⟨hmap, t, ht, e⟩]
    simp [hasFlag]
  · have hpte := h.cleared.outside _ hp.pageAddr hmem
    have hmapped : pt'.mapped (munmapPage addr s) = pt.mapped (munmapPage addr s) := by
      rw [PageTable.mapped, hpte, PageTable.mapped]
    cases hm : pt.mapped (munmapPage addr s) with
    | true =>
      exact Or.inl ⟨⟨hm, fun t ht e => hmem ⟨hm, t, ht, e⟩⟩, hpte, hmapped.trans hm⟩
    | false =>
      refine Or.inr ⟨fun hmeets => ?_, hmapped.trans hm, fun hm' => ?_⟩
      · rw [hmeets.1] at hm
        cases hm
      · cases hm'

/-- A page that is not mapped is passed over. -/
theorem LoopAt.skip (hmeets : ¬MeetsPage addr pt s)
    (hold : pt.mapped (munmapPage addr s) = true → ∃ t < s, munmapPage addr t = munmapPage addr s) :
    LoopAt F v addr pt m fs (s + 1) pt' m' fs' := by
  have hset : metPages addr pt (s + 1) = metPages addr pt s := by
    ext p
    constructor
    · rintro ⟨hm, t, ht, rfl⟩
      rcases Nat.lt_succ_iff_lt_or_eq.mp ht with ht | rfl
      · exact ⟨hm, t, ht, rfl⟩
      · exact ⟨hm, hold hm⟩
    · rintro ⟨hm, t, ht, rfl⟩
      exact ⟨hm, t, Nat.lt_succ_of_lt ht, rfl⟩
  refine ⟨hset ▸ h.cleared, h.counts, h.back, ?_⟩
  rw [h.size, sizeBefore, if_neg fun hw => hmeets hw.1]

theorem LoopAt.cleared_next (hp : PageFound addr pt s)
    (hmeets : MeetsPage addr pt s) : Cleared pt (metPages addr pt (s + 1)) (pt'.setPte (munmapPage addr s) 0) := by
  have hset : metPages addr pt (s + 1) = metPages addr pt s ∪ {munmapPage addr s} := by
    ext p
    constructor
    · rintro ⟨hm, t, ht, rfl⟩
      rcases Nat.lt_succ_iff_lt_or_eq.mp ht with ht | rfl
      · exact Or.inl ⟨hm, t, ht, rfl⟩
      · exact Or.inr rfl
    · rintro (⟨hm, t, ht, rfl⟩ | rfl)
      · exact ⟨hm, t, Nat.lt_succ_of_lt ht, rfl⟩
      · exact ⟨hmeets.1, s, Nat.lt_succ_self s, rfl⟩
  rw [hset]
  refine h.cleared.trans (cleared_setPte hp.pageAddr ?_)
  rw [h.hasTable]
  exact hp.2

/-- A mapped page is cleared, and its write-back may have raised the size. -/
theorem LoopAt.unmap {m'' : Mem} {fs'' : Fs} (hp : PageFound addr pt s)
    (hmeets : MeetsPage addr pt s) (hm : SameCounts m' m'') (hback : Backable F v fs'' ↔ Backable F v fs')
    (hsize : backSize F v fs'' = sizeBefore v addr (backSize F v fs) pt (s + 1)) :
    LoopAt F v addr pt m fs (s + 1) (pt'.setPte (munmapPage addr s) 0) m'' fs'' :=
  ⟨h.cleared_next hp hmeets, h.counts.trans hm, hback.trans h.back, hsize⟩

end

/-! ## The write-back of a round -/

/-- `writeBack` on a file that cannot be locked aborts, not by a null pointer. -/
theorem writeBack_stuck {f i page : Nat} {ram : Nat → Nat → UInt8} (hf : v.ofile = some f) (hb : ¬Backable F v fs) :
    ∃ e, writeBack io F v pt ram fs i page = .error e ∧ e ≠ .walk ∧ e ≠ .kerneltrap := by
  unfold writeBack
  rw [hf]
  dsimp only
  cases hip : (F f).ip with
  | none => exact ⟨.ilock, rfl, by decide, by decide⟩
  | some ip =>
    have hl : ¬fs.Lockable ip := fun hl => hb ⟨f, ip, hf, hip, hl⟩
    unfold ilock
    dsimp only
    by_cases href : (fs.itable ip).ref < 1
    · rw [if_pos href]
      exact ⟨.ilock, rfl, by decide, by decide⟩
    rw [if_neg href]
    have hv : ¬(fs.itable ip).valid = true := fun hv => hl ⟨by omega, Or.inl hv⟩
    have ht : (fs.dinode ip).info.type = 0 := by
      by_contra ht
      exact hl ⟨by omega, Or.inr ht⟩
    rw [if_neg hv, if_pos ht]
    exact ⟨.ilockNoType, rfl, by decide, by decide⟩

theorem lockable_wrote {ip size : Nat} {data : Nat → UInt8} (h : fs.Lockable ip) :
    ((fs.locked ip).wrote ip data size).Lockable ip := by
  have hv := (fs.locked_entry ip).1
  have hr : ((fs.locked ip).itable ip).ref = (fs.itable ip).ref := by
    unfold Fs.locked
    split
    · rfl
    · simp [Fs.setInode]
  refine ⟨?_, Or.inl ?_⟩
  · have : (((fs.locked ip).wrote ip data size).itable ip).ref = ((fs.locked ip).itable ip).ref := by
      simp [Fs.wrote, Fs.setInode, Fs.setDinode]
    rw [this, hr]
    exact h.1
  · simpa [Fs.wrote, Fs.setInode, Fs.setDinode] using hv

theorem LoopAt.walkaddr (h : LoopAt F v addr pt m fs s pt' m' fs') (hpte : pt'.pte (munmapPage addr s) = pt.pte (munmapPage addr s)) :
    walkaddr pt' (munmapPage addr s) = walkaddr pt (munmapPage addr s) := by
  rw [Xv6Mmap.walkaddr, Xv6Mmap.walkaddr, h.hasTable, hpte]

/-- The abort of a round is not one of `walk` or of a null pointer. -/
def OtherAbort (e : Panic) : Prop := e ≠ .walk ∧ e ≠ .kerneltrap

/-- What the write-back of round `s` comes to. -/
theorem LoopAt.writeBack {f : Nat} (h : LoopAt F v addr pt m fs s pt' m' fs') (hp : PageFound addr pt s)
    (hw : WritesBack v addr pt s) (hpte : pt'.pte (munmapPage addr s) = pt.pte (munmapPage addr s)) (hf : v.ofile = some f) :
    Ends (writeBack io F v pt' m'.ram fs' s (munmapPage addr s))
      (fun r => io = true ∧ Backable F v fs ∧ r.1 = true ∧ ¬RoundRefused v addr (backSize F v fs) pt s ∧
          (r.2.1 = true ↔ LastRound v addr (backSize F v fs) pt s) ∧ (Backable F v r.2.2 ↔ Backable F v fs') ∧
          (r.2.1 = false → backSize F v r.2.2 = sizeBefore v addr (backSize F v fs) pt (s + 1)) ∨
        r.1 = false ∧ RoundRefused v addr (backSize F v fs) pt s)
      (fun e => OtherAbort e ∧ ¬(io = true ∧ Backable F v fs ∧ ¬RoundRefused v addr (backSize F v fs) pt s)) := by
  by_cases hb : Backable F v fs
  swap
  · have hstuck : ∃ e, Xv6Mmap.writeBack io F v pt' m'.ram fs' s (munmapPage addr s) = .error e ∧ e ≠ .walk ∧ e ≠ .kerneltrap :=
      writeBack_stuck hf (h.back.not.mpr hb)
    obtain ⟨e, he, h1, h2⟩ := hstuck
    rw [he]
    exact ends_error ⟨⟨h1, h2⟩, fun hno => hb hno.2.1⟩
  obtain ⟨f', ip, hf', hip, hl⟩ := h.back.mpr hb
  have hsz : fs'.isize ip = sizeBefore v addr (backSize F v fs) pt s := by
    rw [← h.size, backSize, hf']
    simp only [hip]
  rw [writeBack_eq hf' hip hl, hsz]
  generalize hS : sizeBefore v addr (backSize F v fs) pt s = S
  have hrefused : RoundRefused v addr (backSize F v fs) pt s ↔
      writeRefused S (v.backOffset (munmapPage addr s)) (writeLen s S) = true := by
    unfold RoundRefused
    rw [hS]
    exact and_iff_right hw
  have hlast : LastRound v addr (backSize F v fs) pt s ↔ 0 < sizeWritten s S := by
    unfold LastRound
    rw [hS]
    exact and_iff_right hw
  refine ends_ite (fun hr => ends_ok (Or.inr ⟨rfl, hrefused.mpr hr⟩)) fun hr => ?_
  refine ends_ite (fun hio => ends_ok (Or.inl ⟨hio, hb, rfl, hrefused.not.mpr hr, ?_, ?_, fun hout => ?_⟩)) fun hio => ?_
  · rw [hlast]
    simp
  · exact ⟨fun _ => ⟨f', ip, hf', hip, hl⟩, fun _ => ⟨f', ip, hf', hip, lockable_wrote hl⟩⟩
  · -- not the last round, so a whole page was written
    have hlen : writeLen s S = pgSize := by
      rw [writeLen, if_neg (by simpa using hout)]
    have hend : (pageWritten pt' m'.ram (munmapPage addr s) (fs'.data ip) (v.backOffset (munmapPage addr s)) pgSize).2.1 =
        v.backOffset (munmapPage addr s) + if Xv6Mmap.walkaddr pt' (munmapPage addr s) = 0 then 0 else pgSize :=
      pageWritten_end (munmapPage_aligned addr s) hp.1 (by decide) (le_refl pgSize) _ _
    rw [h.walkaddr hpte] at hend
    rw [backSize, hf']
    simp only [hip]
    rw [Fs.wrote_isize _ _ (fs'.locked_entry ip).1, hlen, hend, sizeBefore, if_pos hw, hS]
  · exact ends_error ⟨⟨by decide, by decide⟩, fun hno => hio hno.1⟩

theorem uvmunmap_page {page : Nat} (hal : page % pgSize = 0) (hlt : page < maxVa) (hmap : pt.mapped page = true) :
    Ends (uvmunmap Λ pt m page 1 true) (fun r => LeafOk Λ true pt m page ∧ r.1 = pt.setPte page 0 ∧ SameCounts m r.2)
      (fun e => OtherAbort e ∧ ¬LeafOk Λ true pt m page) := by
  unfold uvmunmap unmapLoop
  rw [if_neg (not_not.mpr hal), walk_look Λ pt m hlt]
  refine ends_bind (ends_ok rfl) ?_
  rintro _ rfl
  refine ends_ite (fun hno => ?_) fun _ => ends_ite (fun hno => ?_) fun _ => ends_ite (fun hno => ?_) fun hleaf => ?_
  · rw [pt.hasTable_of_mapped hmap] at hno
    cases hno
  · rw [PageTable.mapped] at hmap
    rw [hmap] at hno
    cases hno
  · exact ends_throw ⟨⟨by decide, by decide⟩, fun hok => hok.leaf hno⟩
  · have hfree : Ends (kfree Λ m (pte2pa (pt.pte page)))
        (fun m' => KfreeOk Λ m (pte2pa (pt.pte page)) ∧ SameCounts m m')
        (fun e => OtherAbort e ∧ ¬LeafOk Λ true pt m page) := by
      refine AbortsIn.ends (fun e he => ⟨?_, fun hok => (kfree_exact _).of_error he (hok.free rfl)⟩)
        fun m' hm => (kfree_exact _).of_ok hm
      unfold kfree at he
      split at he
      · cases he
        exact ⟨by decide, by decide⟩
      split at he
      · cases he
        exact ⟨by decide, by decide⟩
      · cases he
    refine ends_bind hfree fun m1 hk => ?_
    exact ends_pure ⟨⟨hlt, hmap, hleaf, fun _ => hk.1⟩, rfl, hk.2⟩

/-! ## The whole loop -/

/-- The rounds from `s` to `t` go on. -/
def GoesOnTo (F : Nat → File) (v : Vma) (addr : Nat) (pt : PageTable) (Λ : Layout) (io : Bool) (m : Mem) (fs : Fs) (s t : Nat) :
    Prop :=
  ∀ u, s ≤ u → u < t → GoesOn F v addr pt Λ io m fs u

theorem GoesOnTo.cons {t : Nat} (h : GoesOn F v addr pt Λ io m fs s) (h' : GoesOnTo F v addr pt Λ io m fs (s + 1) t) :
    GoesOnTo F v addr pt Λ io m fs s t := by
  intro u hu hut
  rcases Nat.eq_or_lt_of_le hu with rfl | hu
  · exact h
  · exact h' u hu hut

theorem goesOnTo_self (F : Nat → File) (v : Vma) (addr : Nat) (pt : PageTable) (Λ : Layout) (io : Bool) (m : Mem) (fs : Fs) (s : Nat) :
    GoesOnTo F v addr pt Λ io m fs s s :=
  fun _ hu hut => absurd hut (Nat.not_lt.mpr hu)

/-- How the loop ends from round `s` on: after `n` rounds, after the last part of the file, or refused. -/
inductive PagesEnd (F : Nat → File) (v : Vma) (addr : Nat) (pt : PageTable) (Λ : Layout) (io : Bool) (m : Mem) (fs : Fs)
    (s n : Nat) : Bool × PageTable × Mem × Fs → Prop where
  | all (pt' : PageTable) (m' : Mem) (fs' : Fs) (hon : GoesOnTo F v addr pt Λ io m fs s (s + n))
      (hcl : Cleared pt (metPages addr pt (s + n)) pt') : PagesEnd F v addr pt Λ io m fs s n (true, pt', m', fs')
  | last (t : Nat) (pt' : PageTable) (m' : Mem) (fs' : Fs) (hs : s ≤ t) (ht : t < s + n)
      (hon : GoesOnTo F v addr pt Λ io m fs s t) (hp : PageFound addr pt t) (hlast : LastRound v addr (backSize F v fs) pt t)
      (hcl : Cleared pt (metPages addr pt (t + 1)) pt') : PagesEnd F v addr pt Λ io m fs s n (true, pt', m', fs')
  | refused (t : Nat) (pt' : PageTable) (m' : Mem) (fs' : Fs) (hs : s ≤ t) (ht : t < s + n)
      (hon : GoesOnTo F v addr pt Λ io m fs s t) (hp : PageFound addr pt t)
      (hr : RoundRefused v addr (backSize F v fs) pt t) : PagesEnd F v addr pt Λ io m fs s n (false, pt', m', fs')

/-- How the loop aborts: at a page without a table, or in a round that fails otherwise. -/
def PagesAbort (F : Nat → File) (v : Vma) (addr : Nat) (pt : PageTable) (Λ : Layout) (io : Bool) (m : Mem) (fs : Fs) (s n : Nat)
    (e : Panic) : Prop :=
  ∃ t, s ≤ t ∧ t < s + n ∧ GoesOnTo F v addr pt Λ io m fs s t ∧
    (¬PageFound addr pt t ∧ ¬OtherAbort e ∨ PageFound addr pt t ∧ ¬RoundPasses F v addr pt Λ io m fs t ∧ OtherAbort e)

theorem LastRound.not_passes (h : LastRound v addr (backSize F v fs) pt s) : ¬RoundPasses F v addr pt Λ io m fs s :=
  fun hp => ((hp h.1.1).2 h.1).2.2.2 h

theorem RoundRefused.not_passes (h : RoundRefused v addr (backSize F v fs) pt s) : ¬RoundPasses F v addr pt Λ io m fs s :=
  fun hp => ((hp h.1.1).2 h.1).2.2.1 h

theorem PagesEnd.cons {n : Nat} {r : Bool × PageTable × Mem × Fs} (hon : GoesOn F v addr pt Λ io m fs s)
    (h : PagesEnd F v addr pt Λ io m fs (s + 1) n r) : PagesEnd F v addr pt Λ io m fs s (n + 1) r := by
  have hsum : s + 1 + n = s + (n + 1) := by omega
  cases h with
  | all pt' m' fs' hon' hcl => exact .all pt' m' fs' (.cons hon (hsum ▸ hon')) (hsum ▸ hcl)
  | last t pt' m' fs' hs ht hon' hp hlast hcl =>
    exact .last t pt' m' fs' (by omega) (by omega) (.cons hon hon') hp hlast hcl
  | refused t pt' m' fs' hs ht hon' hp hr => exact .refused t pt' m' fs' (by omega) (by omega) (.cons hon hon') hp hr

theorem PagesAbort.cons {n : Nat} {e : Panic} (hon : GoesOn F v addr pt Λ io m fs s)
    (h : PagesAbort F v addr pt Λ io m fs (s + 1) n e) : PagesAbort F v addr pt Λ io m fs s (n + 1) e := by
  obtain ⟨t, hs, ht, hon', hcase⟩ := h
  exact ⟨t, by omega, by omega, .cons hon hon', hcase⟩

theorem LoopAt.leafOk (h : LoopAt F v addr pt m fs s pt' m' fs') (hmeets : MeetsPage addr pt s) :
    LeafOk Λ true pt' m' (munmapPage addr s) ↔ LeafOk Λ true pt m (munmapPage addr s) := by
  rw [h.cleared.leafOk h.counts (munmapPage_aligned addr s)]
  refine and_iff_right ?_
  rintro ⟨-, t, ht, e⟩
  exact hmeets.2 t ht e

/-- The file part of a round with a mapped page: its write-back, if any. -/
theorem LoopAt.backPart {f : Nat} (h : LoopAt F v addr pt m fs s pt' m' fs') (hp : PageFound addr pt s)
    (hmeets : MeetsPage addr pt s) (hpte : pt'.pte (munmapPage addr s) = pt.pte (munmapPage addr s)) (hf : v.ofile = some f) :
    Ends (if hasFlag (pt'.pte (munmapPage addr s)) pteD = true ∧ v.flag = mapShared then
        Xv6Mmap.writeBack io F v pt' m'.ram fs' s (munmapPage addr s) else pure (true, false, fs')) (fun r => r.1 = true ∧
          (WritesBack v addr pt s → io = true ∧ Backable F v fs ∧ ¬RoundRefused v addr (backSize F v fs) pt s) ∧
          (r.2.1 = true ↔ LastRound v addr (backSize F v fs) pt s) ∧ (Backable F v r.2.2 ↔ Backable F v fs') ∧
          (r.2.1 = false → backSize F v r.2.2 = sizeBefore v addr (backSize F v fs) pt (s + 1)) ∨
        r.1 = false ∧ RoundRefused v addr (backSize F v fs) pt s) (fun e => OtherAbort e ∧ ¬RoundPasses F v addr pt Λ io m fs s) := by
  rw [hpte]
  refine ends_ite (fun hc => ?_) fun hc => ends_pure (Or.inl ⟨rfl, fun hw => absurd hw.2 hc, ?_, Iff.rfl, fun _ => ?_⟩)
  · have hw : WritesBack v addr pt s := ⟨hmeets, hc⟩
    refine ends_mono (h.writeBack hp hw hpte hf) (fun r hr => ?_) fun e he => ⟨he.1, fun hpass => he.2 ?_⟩
    · exact hr.imp_left fun ⟨h1, h2, h3, h4, h5, h6, h7⟩ => ⟨h3, fun _ => ⟨h1, h2, h4⟩, h5, h6, h7⟩
    · obtain ⟨h1, h2, h3, -⟩ := (hpass hmeets).2 hw
      exact ⟨h1, h2, h3⟩
  · exact iff_of_false Bool.false_ne_true fun hl => hc hl.1.2
  · rw [h.size, sizeBefore, if_neg fun hw => hc hw.2]

theorem munmapPages_ends {f : Nat} (n : Nat) (h : LoopAt F v addr pt m fs s pt' m' fs') (hf : v.ofile = some f) :
    Ends (munmapPages Λ io F v addr n s pt' m' fs') (PagesEnd F v addr pt Λ io m fs s n) (PagesAbort F v addr pt Λ io m fs s n) := by
  induction n generalizing s pt' m' fs' with
  | zero => exact ends_pure (.all pt' m' fs' (goesOnTo_self F v addr pt Λ io m fs s) h.cleared)
  | succ n ih =>
    have hself := goesOnTo_self F v addr pt Λ io m fs s
    unfold munmapPages
    dsimp only
    by_cases hlt : munmapPage addr s < maxVa
    swap
    · rw [walk_panic Λ pt' m' (Nat.not_lt.mp hlt)]
      exact ends_error ⟨s, le_rfl, by omega, hself, Or.inl ⟨fun hp => hlt hp.1, fun ho => ho.1 rfl⟩⟩
    rw [walk_look Λ pt' m' hlt]
    refine ends_bind (ends_ok rfl) ?_
    rintro _ rfl
    refine ends_ite (fun hno => ends_throw ⟨s, le_rfl, by omega, hself, Or.inl ⟨fun hp => ?_, fun ho => ho.2 rfl⟩⟩)
      fun hyes => ?_
    · rw [h.hasTable, hp.2] at hno
      cases hno
    have hp : PageFound addr pt s := ⟨hlt, by simpa [h.hasTable] using hyes⟩
    rcases h.page hp with ⟨hmeets, hpte, hmap⟩ | ⟨hmeets, hmap, hold⟩
    swap
    · -- the page is not mapped
      have hon : GoesOn F v addr pt Λ io m fs s := ⟨hp, fun hm => absurd hm hmeets⟩
      have hv : hasFlag (pt'.pte (munmapPage addr s)) pteV = false := hmap
      rw [hv]
      exact ends_mono (ih (h.skip hmeets hold)) (fun r hr => hr.cons hon) fun e he => he.cons hon
    have hv : hasFlag (pt'.pte (munmapPage addr s)) pteV = true := hmap
    rw [hv]
    refine ends_bind (ends_mono (h.backPart hp hmeets hpte hf) (fun _ hr => hr) fun e he =>
      ⟨s, le_rfl, by omega, hself, Or.inr ⟨hp, he.2, he.1⟩⟩) ?_
    rintro ⟨ok, out, fs1⟩ (⟨rfl, hpass, hout, hback, hsize⟩ | ⟨rfl, hr⟩)
    swap
    · exact ends_pure (.refused s pt' m' fs1 le_rfl (by omega) hself hp hr)
    have hunmap := uvmunmap_page (Λ := Λ) (m := m') (munmapPage_aligned addr s) hlt hmap
    rw [h.leafOk hmeets] at hunmap
    refine ends_bind (ends_mono hunmap (fun _ hr => hr) fun e he =>
      ⟨s, le_rfl, by omega, hself, Or.inr ⟨hp, fun hpass => he.2 (hpass hmeets).1, he.1⟩⟩) ?_
    rintro ⟨pt1, m1⟩ ⟨hleaf, rfl, hcounts⟩
    cases out with
    | true =>
      have hlast := hout.mp rfl
      have hcl : Cleared pt (metPages addr pt (s + 1)) (pt'.setPte (munmapPage addr s) 0) :=
        h.cleared_next hp hmeets
      exact ends_pure (.last s _ m1 fs1 le_rfl (by omega) hself hp hlast hcl)
    | false =>
      have hon : GoesOn F v addr pt Λ io m fs s := by
        refine ⟨hp, fun _ => ⟨hleaf, fun hw => ?_⟩⟩
        obtain ⟨h1, h2, h3⟩ := hpass hw
        exact ⟨h1, h2, h3, fun hl => Bool.false_ne_true (hout.mpr hl)⟩
      exact ends_mono (ih (h.unmap hp hmeets hcounts hback (hsize rfl))) (fun r hr => hr.cons hon) fun e he => he.cons hon

end Loop

end Xv6Mmap

import Xv6Mmap.Theorems.FileRefs

/-!
# The VMA list that `fork` gives the child

One index of `fork` walks the global table for all VMAs of the parent. The child's list is the parent's list copied (`ForkComplete`)
exactly when the free slots suffice, or the last slot of the table is in use: a search that reaches a last slot in use fails the call,
but one that has just filled the last slot leaves the index past the table, and the VMAs that remain are passed over.
-/

namespace Xv6Mmap

open Function List

section Copies

variable {np a s f x c : Nat} {k k' : Kernel} {last : Option Nat} {l : List Nat}

/-! ## One copy -/

theorem copyVma_slot (a s f : Nat) : (copyVma k np a s f last).vmas s = (k.vmas a).copy := by simp [copyVma]

theorem copyVma_use (hx : x ≠ s) : ((copyVma k np a s f last).vmas x).use = (k.vmas x).use :=
  (copyVma_other hx).use

theorem copyVma_sameFields (hx : x ≠ s) : (k.vmas x).SameFields ((copyVma k np a s f last).vmas x) := by
  obtain ⟨n', e⟩ := linkVma_old k.vmas last (k.vmas a).copy hx
  rw [copyVma_link, e]
  exact Vma.SameFields.of_links _ _ _

theorem copyVma_ref (a s f x : Nat) : ((copyVma k np a s f last).ftable x).ref = (k.ftable x).ref + if f = x then 1 else 0 := by
  by_cases hx : f = x
  · subst hx
    simp [copyVma]
  · simp [copyVma, hx, Ne.symm hx]

theorem Chain.copyVma {m : List Nat} (hc : Chain k.links (k.proc np).vmas m) (hlast : last = m.getLast?)
    (hs : s ∉ m) : Chain (copyVma k np a s f last).links ((copyVma k np a s f last).proc np).vmas (m ++ [s]) := by
  have hhead : ((Xv6Mmap.copyVma k np a s f last).proc np).vmas = if last.isNone then some s else (k.proc np).vmas := by
    simp [Xv6Mmap.copyVma]
  rw [hhead]
  rcases eq_nil_or_concat' m with rfl | ⟨l1, b, rfl⟩
  · have hl : last = none := hlast
    subst hl
    have hlinks : (Xv6Mmap.copyVma k np a s f none).links s = none := by
      show ((Xv6Mmap.copyVma k np a s f none).vmas s).next = none
      rw [copyVma_slot]
      rfl
    refine Chain.cons ?_
    rw [hlinks]
    exact Chain.nil
  · have hl : last = some b := by rw [hlast]; simp
    subst hl
    have hlinks : (Xv6Mmap.copyVma k np a s f (some b)).links =
        update (update k.links b (some s)) s (k.links b) := by
      rw [hc.next_last]
      exact linkVma_links_after
    have hc' : Chain k.links (k.proc np).vmas (l1 ++ [b] ++ []) := by rwa [append_nil]
    rw [hlinks]
    exact hc'.insert_after (by rwa [append_nil])

/-! ## The copies together -/

theorem Copied.chain {l : List (Nat × Nat)} {m : List Nat} (h : Copied np l k last k')
    (hc : Chain k.links (k.proc np).vmas m) (hlast : last = m.getLast?) (hu : ∀ x ∈ m, (k.vmas x).use = true) :
    Chain k'.links (k'.proc np).vmas (m ++ l.map Prod.snd) := by
  induction h generalizing m with
  | nil k last => simpa using hc
  | @cons k k' last a s f l hs hfree hf _ ih =>
    have hsm : s ∉ m := by
      intro hm
      rw [hu s hm] at hfree
      cases hfree
    have hnew := ih (hc.copyVma hlast hsm) (by simp) fun x hx => ?_
    · simpa using hnew
    rcases mem_append.mp hx with hx | hx
    · have hxs : x ≠ s := fun e => hsm (e ▸ hx)
      rw [copyVma_use hxs]
      exact hu x hx
    · rw [mem_singleton.mp hx, copyVma_slot]
      rfl

/-- What the copies of the VMAs `l` into the slots `ls` come to. -/
structure CopiedTo (k k' : Kernel) (last : Option Nat) (l ls : List Nat) : Prop where
  same : List.Forall₂ Vma.SameFields (l.map k.vmas) (ls.map k'.vmas)
  free : ∀ s ∈ ls, s < vmasStored ∧ (k.vmas s).use = false
  fields : ∀ x, x ∉ ls → (k.vmas x).SameFields (k'.vmas x)
  other : ∀ x, x ∉ ls → last ≠ some x → k'.vmas x = k.vmas x
  refs : ∀ f, (k'.ftable f).ref = (k.ftable f).ref + l.countP fun a => (k.vmas a).ofile == some f

theorem Copied.copiedTo {ls : List Nat} (h : Copied np (l.zip ls) k last k') (hlen : ls.length = l.length)
    (hu : ∀ a ∈ l, (k.vmas a).use = true) (hlast : ∀ q, last = some q → (k.vmas q).use = true ∧ q ∉ l) : CopiedTo k k' last l ls := by
  induction l generalizing ls k last with
  | nil =>
    rw [eq_nil_of_length_eq_zero hlen] at h ⊢
    cases h
    exact ⟨.nil, fun _ hs => (nomatch hs), fun x _ => Vma.SameFields.of_links _ _ _, fun _ _ _ => rfl, fun f => by simp⟩
  | cons a l ih =>
    obtain _ | ⟨s, ls⟩ := ls
    · cases hlen
    cases h with
    | @cons _ _ _ _ _ f _ hs hfree hf h =>
      have hne : ∀ x ∈ a :: l, x ≠ s := by
        intro x hx e
        rw [← e, hu x hx] at hfree
        cases hfree
      have hnq : ∀ x ∈ a :: l, last ≠ some x := fun x hx e => (hlast x e).2 hx
      have hkeep : ∀ x ∈ a :: l, (copyVma k np a s f last).vmas x = k.vmas x :=
        fun x hx => copyVma_vmas (hne x hx) (hnq x hx)
      have hrest := ih h (Nat.succ.inj hlen) (fun x hx => by
        rw [hkeep x (mem_cons_of_mem _ hx)]
        exact hu x (mem_cons_of_mem _ hx)) (by
        intro q hq
        cases hq
        exact ⟨by rw [copyVma_slot]; rfl, fun hm => hne s (mem_cons_of_mem _ hm) rfl⟩)
      -- a slot filled later was free after this copy, so it is not the slot of this copy
      have hsls : s ∉ ls := by
        intro hm
        have := (hrest.free s hm).2
        rw [copyVma_slot] at this
        cases this
      refine ⟨.cons ?_ ?_, fun x hx => ?_, fun x hx => ?_, fun x hx hq => ?_, fun x => ?_⟩
      · have hself := hrest.fields s hsls
        rw [copyVma_slot] at hself
        exact (Vma.SameFields.of_links (k.vmas a) true none).trans hself
      · have hmap : l.map (copyVma k np a s f last).vmas = l.map k.vmas :=
          map_congr_left fun x hx => hkeep x (mem_cons_of_mem _ hx)
        have hsame := hrest.same
        rwa [hmap] at hsame
      · rcases mem_cons.mp hx with rfl | hx
        · exact ⟨hs, hfree⟩
        · have hxs : x ≠ s := fun e => hsls (e ▸ hx)
          have := hrest.free x hx
          rwa [copyVma_use hxs] at this
      · obtain ⟨hxs, hx⟩ := not_or.mp (mem_cons.not.mp hx)
        exact (copyVma_sameFields hxs).trans (hrest.fields x hx)
      · obtain ⟨hxs, hx⟩ := not_or.mp (mem_cons.not.mp hx)
        rw [hrest.other x hx fun e => hxs (Option.some.inj e).symm, copyVma_vmas hxs hq]
      · have hcount : (l.countP fun a' => ((copyVma k np a s f last).vmas a').ofile == some x) =
            l.countP fun a' => (k.vmas a').ofile == some x :=
          countP_congr fun y hy => by rw [hkeep y (mem_cons_of_mem _ hy)]
        rw [hrest.refs, copyVma_ref, hcount, countP_cons, hf]
        by_cases hfx : f = x
        · simp only [hfx, if_true, beq_self_eq_true]
          omega
        · simp [hfx]

/-! ## How far the copies get -/

/-- The free slots of the table. -/
def freeSlots (k : Kernel) : Finset Nat := (Finset.range vmasStored).filter fun s => (k.vmas s).use = false

theorem mem_freeSlots : s ∈ freeSlots k ↔ s < vmasStored ∧ (k.vmas s).use = false := by
  simp [freeSlots]

/-- The free slots from `c` on are the first of them and those after it, which the copy into the first leaves free. -/
theorem freeSlots_from (hs : firstSlot vmasStored (fun s => decide (c ≤ s) && !(k.vmas s).use) = some s) :
    ((freeSlots k).filter (c ≤ ·)).card ≤ ((freeSlots (copyVma k np a s f last)).filter (s + 1 ≤ ·)).card + 1 := by
  have hsub : (freeSlots k).filter (c ≤ ·) ⊆ insert s ((freeSlots (copyVma k np a s f last)).filter (s + 1 ≤ ·)) := by
    intro x hx
    obtain ⟨hx, hcx⟩ := Finset.mem_filter.mp hx
    obtain ⟨hlt, hfree⟩ := mem_freeSlots.mp hx
    rw [Finset.mem_insert, Finset.mem_filter, mem_freeSlots]
    rcases Nat.lt_trichotomy x s with hxs | hxs | hxs
    · -- the search would have stopped at the earlier slot
      have := firstSlot_first hs hxs
      simp [hcx, hfree] at this
    · exact Or.inl hxs
    · rw [copyVma_use (Nat.ne_of_gt hxs)]
      exact Or.inr ⟨⟨hlt, hfree⟩, hxs⟩
  exact (Finset.card_le_card hsub).trans (Finset.card_insert_le _ _)

/-- A copy loop that does not fail reads through a VMA in every round. -/
theorem forkVmas_rounds {n : Nat} {act : Option Nat} (h : forkVmas np n k act c last = .ok (true, k'))
    (hc : Chain k.links act l) (hu : ∀ a ∈ l, (k.vmas a).use = true) (hlast : ∀ q, last = some q → q ∉ l) : n ≤ l.length := by
  induction n generalizing k act c last l with
  | zero => exact Nat.zero_le _
  | succ n ih =>
    unfold forkVmas at h
    split at h
    · cases hc with
      | nil => cases h
      | @cons a l hc =>
        refine Nat.succ_le_succ (ih h hc (fun x hx => hu x (mem_cons_of_mem _ hx)) fun q hq hm => ?_)
        exact hlast q hq (mem_cons_of_mem _ hm)
    · split at h
      · cases h
      rename_i s hs
      cases hc with
      | nil => cases h
      | @cons a l hc =>
        dsimp only at h
        split at h
        · cases h
        · obtain ⟨hchain, huse, hnew⟩ := hc.afterCopy (firstSlot_free hs) hu hlast
          exact Nat.succ_le_succ (ih h hchain huse hnew)

/-- A copy loop that does not fail copies every VMA, when there are slots for all or the last slot of the table is in use. -/
theorem forkVmas_all {n : Nat} {act : Option Nat} (h : forkVmas np n k act c last = .ok (true, k'))
    (hc : Chain k.links act l) (hlen : l.length = n) (hu : ∀ a ∈ l, (k.vmas a).use = true) (hlast : ∀ q, last = some q → q ∉ l)
    (hroom : n ≤ ((freeSlots k).filter (c ≤ ·)).card ∨ ((k.vmas (vmasStored - 1)).use = true ∧ c ≤ vmasStored - 1)) :
    ∃ ls, ls.length = l.length ∧ Copied np (l.zip ls) k last k' := by
  induction n generalizing k act c last l with
  | zero =>
    cases h
    rw [eq_nil_of_length_eq_zero hlen]
    exact ⟨[], rfl, .nil _ _⟩
  | succ n ih =>
    unfold forkVmas at h
    -- the index is still within the table
    have hin : ¬vmasStored ≤ c := by
      intro hout
      rcases hroom with hroom | ⟨-, hroom⟩
      · have hempty : (freeSlots k).filter (c ≤ ·) = ∅ := by
          refine Finset.filter_eq_empty_iff.mpr fun x hx hcx => ?_
          have := (mem_freeSlots.mp hx).1
          omega
        rw [hempty] at hroom
        exact absurd hroom (Nat.not_succ_le_zero n)
      · exact absurd (hout.trans hroom) (by decide)
    rw [if_neg hin] at h
    split at h
    · cases h
    rename_i s hs
    obtain ⟨hlt, hcs, hfree⟩ := firstSlot_free hs
    cases hc with
    | nil => cases hlen
    | @cons a l hc =>
      dsimp only at h
      split at h
      · cases h
      rename_i f hf
      obtain ⟨hchain, huse, hnew⟩ := hc.afterCopy (firstSlot_free hs) hu hlast
      have hroom' : n ≤ ((freeSlots (copyVma k np a s f last)).filter (s + 1 ≤ ·)).card ∨
          (((copyVma k np a s f last).vmas (vmasStored - 1)).use = true ∧ s + 1 ≤ vmasStored - 1) := by
        rcases hroom with hroom | ⟨hfull, -⟩
        · exact Or.inl (Nat.le_of_succ_le_succ (hroom.trans (freeSlots_from hs)))
        have hne : vmasStored - 1 ≠ s := by
          intro e
          rw [e, hfree] at hfull
          cases hfull
        refine Or.inr ⟨by rw [copyVma_use hne]; exact hfull, ?_⟩
        omega
      obtain ⟨ls, hls, hcop⟩ := ih h hchain (Nat.succ.inj hlen) huse hnew hroom'
      exact ⟨s :: ls, congrArg Nat.succ hls, .cons hlt hfree hf hcop⟩

end Copies

/-! ## The call -/

section Call

variable {Λ : Layout} {k k' : Kernel} {i : Nat}

theorem dupFiles_refs {ofile o o' : Nat → Option Nat} (h : dupFiles ofile nofile 0 k o = .ok (k', o')) (f : Nat) :
    (k'.ftable f).ref = (k.ftable f).ref + refsTo (Finset.range nofile) ofile f := by
  have hnew : ∀ fd, refsTo (Finset.range (fd + 1)) ofile f =
      refsTo (Finset.range fd) ofile f + if ofile fd = some f then 1 else 0 := by
    intro fd
    rw [refsTo_erase (Finset.self_mem_range_succ fd)]
    congr 2
    ext x
    simp only [Finset.mem_erase, Finset.mem_range]
    omega
  have hends : Ends (dupFiles ofile nofile 0 k o)
      (fun r => (r.1.ftable f).ref = (k.ftable f).ref + refsTo (Finset.range (0 + nofile)) ofile f) anyAbort := by
    refine dupFiles_ends (I := fun fd k1 _ => (k1.ftable f).ref = (k.ftable f).ref + refsTo (Finset.range fd) ofile f)
      (fun fd k1 o1 hI _ hnone => by rw [hnew, hnone, hI]; simp) (fun fd k1 o1 g hI _ hg => ?_)
      nofile 0 (le_of_eq (zero_add _)) (by simp [refsTo])
    refine ends_of_forall_ok fun k2 hdup => ?_
    obtain ⟨-, rfl⟩ := filedup_ok hdup
    rw [hnew, hg]
    by_cases hgf : g = f
    · subst hgf
      simp only [Kernel.setFile, update_self, hI, if_true]
      omega
    · have hfg : f ≠ g := Ne.symm hgf
      simp [Kernel.setFile, hfg, hgf, hI]
  exact hends.of_ok h

/-- The child `np` of process `i` has a copy `l'` of the VMA list `l` of its parent. -/
structure ForkComplete (k k' : Kernel) (i np : Nat) (l l' : List Nat) : Prop where
  nvma : (k'.proc np).nvma = (k.proc i).nvma
  chain : Chain k'.links (k'.proc np).vmas l'
  length : l'.length = (k'.proc np).nvma
  same : List.Forall₂ Vma.SameFields (l.map k.vmas) (l'.map k'.vmas)
  free : ∀ s ∈ l', s < vmasStored ∧ (k.vmas s).use = false
  parent : (k'.proc i).vmas = (k.proc i).vmas ∧ ∀ a ∈ l, k'.vmas a = k.vmas a
  refs : ∀ f, (k'.ftable f).ref = (k.ftable f).ref + (l.countP fun a => (k.vmas a).ofile == some f) +
    refsTo (Finset.range nofile) (k.proc i).ofile f

theorem ForkComplete.le_free {np : Nat} {l l' : List Nat} (h : ForkComplete k k' i np l l') :
    (k.proc i).nvma ≤ (freeSlots k).card := by
  rw [← h.nvma, ← h.length, ← toFinset_card_of_nodup h.chain.nodup]
  refine Finset.card_le_card fun s hs => mem_freeSlots.mpr (h.free s (mem_toFinset.mp hs))

/-- The list of a process: a chain of slots in use, no longer than its count says. -/
structure ListOf (k : Kernel) (i : Nat) (l : List Nat) : Prop where
  chain : Chain k.links (k.proc i).vmas l
  length : l.length ≤ (k.proc i).nvma
  used : ∀ a ∈ l, a < vmasStored ∧ (k.vmas a).use = true

instance (k : Kernel) (i : Nat) (l : List Nat) : Decidable (ListOf k i l) :=
  decidable_of_iff
    (Chain k.links (k.proc i).vmas l ∧ l.length ≤ (k.proc i).nvma ∧ ∀ a ∈ l, a < vmasStored ∧ (k.vmas a).use = true)
    ⟨fun ⟨h₁, h₂, h₃⟩ => ⟨h₁, h₂, h₃⟩, fun h => ⟨h.chain, h.length, h.used⟩⟩

/-- The unused entries of the process table have no VMAs. -/
def UnusedEmpty (k : Kernel) : Prop := ∀ j < nproc, (k.proc j).state = .unused → (k.proc j).vmas = none

instance (k : Kernel) : Decidable (UnusedEmpty k) := inferInstanceAs (Decidable (∀ j < nproc, _))

/-- In every state that is reached each process has such a list, and the unused entries have none. -/
theorem reach_listOf {P : Kernel → Nat → Event → Prop} {k₀ : Kernel} (h0 : Booted Λ k₀) (hrun : Reach Λ P k₀ k) :
    (∀ i, ∃ l, ListOf k i l) ∧ UnusedEmpty k := by
  obtain ⟨L, h⟩ := reach_counted h0 hrun
  exact ⟨fun i => ⟨L i, h.lists.chains.chain i, h.lists.short i, h.lists.used i⟩, fun _ _ hj => h.vmas_none (Or.inl hj)⟩

/-- A `fork` that returns a pid: the state `k₄` in which the copy loop starts, and its end. -/
theorem fork_returns {pid : Nat} (hlive : (k.proc i).state ≠ .unused) (hf : fork Λ k i = .ok (some pid, k')) :
    ∃ np k4 k5, np < nproc ∧ np ≠ i ∧ (k.proc np).state = .unused ∧ k4.vmas = k.vmas ∧ k4.proc i = k.proc i ∧
      (k4.proc np).vmas = (k.proc np).vmas ∧ (k4.proc np).nvma = (k.proc i).nvma ∧
      (∀ f, (k4.ftable f).ref = (k.ftable f).ref + refsTo (Finset.range nofile) (k.proc i).ofile f) ∧
      forkVmas np (k.proc i).nvma k4 (k.proc i).vmas 0 none = .ok (true, k5) ∧ pid = (k5.proc np).pid ∧
      k' = k5.setProc np { k5.proc np with parent := some i, state := .runnable } := by
  generalize hr : (some pid, k') = r at hf
  cases fork_ok hf with
  | noProc k1 hal | noMem np pt npt npt' m m' k1 c hal hpt hnpt hcopy hfree => cases hr
  | copied np pt npt npt' m fs ofile k1 k2 k3 k4 k5 b r hal hpt hnpt hcopy hk2 hdup hcwd hk4 hvmas hr' =>
    obtain ⟨hnp, hunused, hother, ⟨tf, pt0, hent⟩, hft, -, hv⟩ := hal.entry
    have hne : i ≠ np := fun e => hlive (e ▸ hunused)
    have hpi : k1.proc i = k.proc i := hother i hne
    obtain ⟨hfo, -⟩ := dupFiles_frame hdup
    rw [hpi] at hdup hk2 hk4 hvmas
    have hp3 : k3.proc np = { k1.proc np with pagetable := some npt', sz := (k.proc i).sz } := by
      rw [hfo.proc, hk2, upd_self]
    cases b with
    | false =>
      rw [hr'] at hr
      cases hr
    | true =>
      rw [hr'] at hr
      cases hr
      refine ⟨np, k4, k5, hnp, hne.symm, hunused, ?_, ?_, ?_, ?_, fun f => ?_, hvmas, rfl, rfl⟩
      · rw [hk4, upd_vmas, hfo.vmas, hk2, upd_vmas, hv]
      · rw [hk4, upd_of_ne _ _ _ _ _ hne, hfo.proc, hk2, upd_of_ne _ _ _ _ _ hne, hpi]
      · rw [hk4, upd_self]
        rw [hp3]
        rw [hent]
      · rw [hk4, upd_self]
      · rw [hk4]
        show (k3.ftable f).ref = _
        rw [dupFiles_refs hdup, hk2]
        show (k1.ftable f).ref + _ = _
        rw [hft]

/-- A `fork` that returns a pid gives the child a complete copy of the VMA list exactly when there are as many free slots as the
parent has VMAs, or the last slot of the table is in use. -/
theorem fork_copies_all {l : List Nat} {pid : Nat} (hl : ListOf k i l) (hlive : (k.proc i).state ≠ .unused)
    (hempty : UnusedEmpty k) (hf : fork Λ k i = .ok (some pid, k')) :
    (∃ np l', (k'.proc np).pid = pid ∧ (k'.proc np).parent = some i ∧ ForkComplete k k' i np l l') ↔
      (k.proc i).nvma ≤ (freeSlots k).card ∨ (k.vmas (vmasStored - 1)).use = true := by
  refine ⟨fun ⟨np, l', _, _, h⟩ => Or.inl h.le_free, fun hroom => ?_⟩
  obtain ⟨np, k4, k5, hnp, hne, hunused, hv, hpi, hnone, hnvma, hrefs, hloop, hpid, rfl⟩ := fork_returns hlive hf
  have hused : ∀ a ∈ l, (k4.vmas a).use = true := fun a ha => by rw [hv]; exact (hl.used a ha).2
  have hchain : Chain k4.links (k.proc i).vmas l := hl.chain.congr fun a _ => congrArg (fun V => (V a).next) hv
  have hroom' : (k.proc i).nvma ≤ ((freeSlots k4).filter (0 ≤ ·)).card ∨
      ((k4.vmas (vmasStored - 1)).use = true ∧ 0 ≤ vmasStored - 1) := by
    have hall : (freeSlots k4).filter (0 ≤ ·) = freeSlots k := by
      rw [Finset.filter_true_of_mem fun x _ => Nat.zero_le x]
      unfold freeSlots
      rw [hv]
    rw [hall, hv]
    exact hroom.imp_right fun h => ⟨h, Nat.zero_le _⟩
  have hlen : l.length = (k.proc i).nvma :=
    le_antisymm hl.length (forkVmas_rounds hloop hchain hused fun _ h => (nomatch h))
  obtain ⟨ls, hls, hcop⟩ := forkVmas_all hloop hchain hlen hused (fun _ h => (nomatch h)) hroom'
  have hto := hcop.copiedTo hls hused fun _ h => (nomatch h)
  have hframe := hcop.frame
  obtain ⟨head, hchild⟩ := hframe.child
  have hsnd : (l.zip ls).map Prod.snd = ls := map_snd_zip (le_of_eq hls)
  have hchild' : Chain k5.links (k5.proc np).vmas ([] ++ (l.zip ls).map Prod.snd) := by
    refine hcop.chain ?_ rfl fun _ h => (nomatch h)
    rw [hnone, hempty np hnp hunused]
    exact Chain.nil
  rw [hsnd] at hchild'
  have hcount : (k5.proc np).nvma = (k.proc i).nvma := by rw [hchild]; exact hnvma
  -- the slots of the parent are not among those filled
  have hkept : ∀ a ∈ l, k5.vmas a = k.vmas a := by
    intro a ha
    rw [hto.other a (fun hm => ?_) nofun, hv]
    have := (hto.free a hm).2
    rw [hused a ha] at this
    cases this
  have hproc : (k5.setProc np { k5.proc np with parent := some i, state := .runnable }).proc np =
      { k5.proc np with parent := some i, state := .runnable } := by simp [Kernel.setProc]
  have hproci : (k5.setProc np { k5.proc np with parent := some i, state := .runnable }).proc i = k.proc i := by
    simp only [Kernel.setProc, update_of_ne hne.symm]
    rw [hframe.other i hne.symm, hpi]
  refine ⟨np, ls, by rw [hproc, hpid], by rw [hproc], ?_, ?_, ?_, ?_, ?_, ⟨by rw [hproci], hkept⟩, fun f => ?_⟩
  · rw [hproc]
    exact hcount
  · rw [hproc]
    exact hchild'
  · rw [hproc, hls, hlen]
    exact hcount.symm
  · have := hto.same
    rwa [hv] at this
  · intro s hs
    have := hto.free s hs
    rwa [hv] at this
  · show (k5.ftable f).ref = _
    rw [hto.refs, hrefs, hv]
    omega

end Call

/-- The first process maps a file twice and forks. -/
theorem fork_copies_two : ∃ k k' pid, ListOf k 0 [0, 1] ∧ (k.proc 0).state ≠ .unused ∧ UnusedEmpty k ∧
    fork demoLayout k 0 = .ok (some pid, k') ∧
    ∃ np l', (k'.proc np).pid = pid ∧ (k'.proc np).parent = some 0 ∧ ForkComplete k k' 0 np [0, 1] l' := by
  obtain ⟨k0, k, -, -, ⟨_, k'⟩, hf, pid, rfl, hl, hlive, hempty, hroom⟩ := reach_demoRun
    (T := fun k => ∃ r, fork demoLayout k 0 = .ok r ∧ ∃ pid, r.1 = some pid ∧ ListOf k 0 [0, 1] ∧ (k.proc 0).state ≠ .unused ∧
      UnusedEmpty k ∧ (k.proc 0).nvma ≤ (freeSlots k).card) 5000 always_of_check
    [(0, .openPath demoPath oRdwr), (0, .mmap 8192 protReadWrite mapShared 0), (0, .mmap 100 protRead mapPrivate 0)]
    (by decide +kernel)
  exact ⟨k, k', pid, hl, hlive, hempty, hf, (fork_copies_all hl hlive hempty hf).mpr (Or.inl hroom)⟩

/-- Seven mappings, copied three times: two slots are free, the last two. -/
def demoForks : List (Nat × Event) :=
  (0, .openPath demoPath oRdwr) :: List.replicate 7 (0, .mmap 4096 protRead mapPrivate 0) ++ List.replicate 3 (0, .fork)

/-- The fourth `fork` returns a pid, but its child has two of the seven VMAs that it counts. -/
theorem fork_passes_over : ∃ k₀ k k' pid, Booted demoLayout k₀ ∧ Reach demoLayout (fun _ _ _ => True) k₀ k ∧
    ListOf k 0 [0, 1, 2, 3, 4, 5, 6] ∧ (k.proc 0).state ≠ .unused ∧ UnusedEmpty k ∧
    fork demoLayout k 0 = .ok (some pid, k') ∧ (k'.proc 4).pid = pid ∧ (k'.proc 4).nvma = 7 ∧
    Chain k'.links (k'.proc 4).vmas [28, 29] ∧
    ¬∃ np l', (k'.proc np).pid = pid ∧ (k'.proc np).parent = some 0 ∧ ForkComplete k k' 0 np [0, 1, 2, 3, 4, 5, 6] l' := by
  obtain ⟨k₀, k, h0, hrun, ⟨_, k'⟩, hf, pid, rfl, hl, hlive, hempty, hchain, hnvma, hpid, hfew⟩ := reach_demoRun
    (T := fun k => ∃ r, fork demoLayout k 0 = .ok r ∧ ∃ pid, r.1 = some pid ∧ ListOf k 0 [0, 1, 2, 3, 4, 5, 6] ∧
      (k.proc 0).state ≠ .unused ∧ UnusedEmpty k ∧ Chain r.2.links (r.2.proc 4).vmas [28, 29] ∧ (r.2.proc 4).nvma = 7 ∧
      (r.2.proc 4).pid = pid ∧ ¬(k.proc 0).nvma ≤ (freeSlots k).card) 5000 always_of_check demoForks (by decide +kernel)
  exact ⟨k₀, k, k', pid, h0, hrun, hl, hlive, hempty, hf, hpid, hnvma, hchain, fun ⟨np, l', _, _, h⟩ => hfew h.le_free⟩

end Xv6Mmap

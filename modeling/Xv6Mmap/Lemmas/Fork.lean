import Xv6Mmap.Lemmas.Steps

/-!
# What `fork` does to the VMA lists

The copy loop of `fork` fills free slots for the child, one after the other (`Copied`), and may stop before all VMAs of the parent
are copied. The lists survive this, with a child's chain shorter than its count.
-/

namespace Xv6Mmap

open Function List

/-! ## The copy loop -/

/-- The copies of the loop of `fork` for child `np` after slot `last`: pairs of a VMA and its new slot. -/
inductive Copied (np : Nat) : List (Nat × Nat) → Kernel → Option Nat → Kernel → Prop where
  | nil (k : Kernel) (last : Option Nat) : Copied np [] k last k
  | cons {k k' : Kernel} {last : Option Nat} {a s f : Nat} {l : List (Nat × Nat)} (hs : s < vmasStored)
      (hfree : (k.vmas s).use = false) (hf : (k.vmas a).ofile = some f)
      (h : Copied np l (copyVma k np a s f last) (some s) k') : Copied np ((a, s) :: l) k last k'

theorem forkVmas_ok {np n : Nat} {k : Kernel} {act : Option Nat} {c : Nat} {last : Option Nat} {r : Bool × Kernel}
    (h : forkVmas np n k act c last = .ok r) : ∃ l, Copied np l k last r.2 ∧ l.length ≤ n := by
  induction n generalizing k act c last with
  | zero =>
    cases h
    exact ⟨[], .nil k last, le_rfl⟩
  | succ n ih =>
    unfold forkVmas at h
    split at h
    · split at h
      · cases h
      · obtain ⟨l, hl, hn⟩ := ih h
        exact ⟨l, hl, Nat.le_succ_of_le hn⟩
    · split at h
      · cases h
        exact ⟨[], .nil k last, Nat.zero_le _⟩
      rename_i s hs
      obtain ⟨hlt, hfree⟩ := firstSlot_some hs
      simp only [Bool.and_eq_true, Bool.not_eq_true'] at hfree
      split at h
      · cases h
      rename_i a
      split at h
      · cases h
      · rename_i f hf
        obtain ⟨l, hl, hn⟩ := ih h
        exact ⟨(a, s) :: l, .cons hlt hfree.2 hf hl, Nat.succ_le_succ hn⟩

section Copied

variable {np : Nat} {l : List (Nat × Nat)} {k k' : Kernel} {last : Option Nat}

/-- What the copies leave alone. -/
structure CopyFrame (np : Nat) (k k' : Kernel) : Prop where
  other : ∀ j, j ≠ np → k'.proc j = k.proc j
  child : ∃ head, k'.proc np = { k.proc np with vmas := head }
  mem : k'.mem = k.mem
  fs : k'.fs = k.fs
  nextpid : k'.nextpid = k.nextpid
  file : ∀ f, k'.ftable f = { k.ftable f with ref := (k'.ftable f).ref }

theorem Copied.frame (h : Copied np l k last k') : CopyFrame np k k' := by
  induction h with
  | nil k last => exact ⟨fun _ _ => rfl, ⟨_, rfl⟩, rfl, rfl, rfl, fun _ => rfl⟩
  | @cons k k' last a s f l hs hfree hf _ ih =>
    obtain ⟨h1, ⟨head, h2⟩, h3, h4, h5, h6⟩ := ih
    refine ⟨fun j hj => (h1 j hj).trans (by simp [copyVma, hj]), ⟨head, h2.trans (by simp [copyVma])⟩, h3, h4, h5,
      fun x => (h6 x).trans ?_⟩
    exact congrArg (fun y : File => { y with ref := (k'.ftable x).ref }) (file_update k.ftable f _ x)

theorem copyVma_link (k : Kernel) (np a s f : Nat) (last : Option Nat) :
    (copyVma k np a s f last).vmas = linkVma k.vmas s last (k.vmas a).copy := by
  cases last <;> rfl

theorem VmaLists.copyVma {L : Nat → List Nat} {a s f : Nat} (h : VmaLists k L) (hlast : last = (L np).getLast?)
    (hs : s < vmasStored) (hfree : (k.vmas s).use = false) (hlen : (L np).length < (k.proc np).nvma) :
    VmaLists (copyVma k np a s f last) (update L np (L np ++ [s])) := by
  have hnew := h.not_mem_of_free hfree
  have hnv : ∀ j, ((Xv6Mmap.copyVma k np a s f last).proc j).nvma = (k.proc j).nvma := update_field Proc.nvma rfl
  have hheads : (Xv6Mmap.copyVma k np a s f last).heads =
      update k.heads np (if last.isNone then some s else (k.proc np).vmas) := map_update Proc.vmas k.proc np _
  refine ⟨?_, fun j c hc => ?_, fun j => ?_, fun j => by rw [hnv]; exact h.bound j⟩
  · rw [hheads]
    rcases eq_nil_or_concat' (L np) with hnil | ⟨l1, b, hl⟩
    · have hl : last = none := by rw [hlast, hnil]; rfl
      subst hl
      have hlinks : (Xv6Mmap.copyVma k np a s f none).links = update k.links s none := linkVma_links_first
      rw [hlinks, hnil]
      exact h.chains.insert_first hnil hnew
    · have hl' : last = some b := by rw [hlast, hl]; simp
      subst hl'
      have hlinks : (Xv6Mmap.copyVma k np a s f (some b)).links = update (update k.links b (some s)) s none :=
        linkVma_links_after
      have hlb : k.links b = none := by
        have hc := h.chains.chain np
        rw [hl] at hc
        exact hc.next_last
      have e : (if (some b).isNone = true then some s else (k.proc np).vmas) = k.heads np := rfl
      have hL : L np = l1 ++ [b] ++ [] := by rw [hl, append_nil]
      have hins := h.chains.insert_after hL hnew
      rw [hlb, ← hlinks] at hins
      rw [e, hl]
      simpa using hins
  · by_cases hcs : c = s
    · subst hcs
      exact ⟨hs, by rw [copyVma_link, linkVma_self]; rfl⟩
    have hcL : ∀ j, ∀ c ∈ update L np (L np ++ [s]) j, c ≠ s → c ∈ L j :=
      (forall_update_iff L fun j l => ∀ c ∈ l, c ≠ s → c ∈ L j).mpr
        ⟨fun c hc hcs => (mem_append.mp hc).resolve_right fun e => hcs (mem_singleton.mp e), fun j _ c hc _ => hc⟩
    rw [copyVma_link, linkVma_use k.vmas last _ hcs]
    exact h.used j c (hcL j c hc hcs)
  · rw [hnv]
    by_cases hj : j = np
    · subst hj
      simp only [update_self, length_append, length_cons, length_nil]
      omega
    · rw [update_of_ne hj]
      exact h.short j

/-- Two slots that map the same file in the same way. -/
structure SameMap (v w : Vma) : Prop where
  use : w.use = v.use
  ofile : w.ofile = v.ofile
  prot : w.prot = v.prot
  flag : w.flag = v.flag

theorem SameMap.refl (v : Vma) : SameMap v v := ⟨rfl, rfl, rfl, rfl⟩

theorem SameMap.trans {u v w : Vma} (h : SameMap u v) (h' : SameMap v w) : SameMap u w :=
  ⟨h'.use.trans h.use, h'.ofile.trans h.ofile, h'.prot.trans h.prot, h'.flag.trans h.flag⟩

theorem linkVma_sameMap (V : Nat → Vma) {n d : Nat} (prev : Option Nat) (v : Vma) (hd : d ≠ n) :
    SameMap (V d) (linkVma V n prev v d) := by
  obtain ⟨n', h⟩ := linkVma_old V prev v hd
  rw [h]
  exact ⟨rfl, rfl, rfl, rfl⟩

theorem copyVma_other {a s f d : Nat} (hd : d ≠ s) : SameMap (k.vmas d) ((copyVma k np a s f last).vmas d) := by
  rw [copyVma_link]
  exact linkVma_sameMap k.vmas last _ hd

theorem copyVma_self {a s f : Nat} (hu : (k.vmas a).use = true) : SameMap (k.vmas a) ((copyVma k np a s f last).vmas s) := by
  simpa [copyVma] using (⟨hu.symm, rfl, rfl, rfl⟩ : SameMap (k.vmas a) (k.vmas a).copy)

theorem copyVma_vmas {a s f x : Nat} (hx : x ≠ s) (hl : last ≠ some x) : (copyVma k np a s f last).vmas x = k.vmas x := by
  unfold copyVma
  cases last with
  | none => simp [hx]
  | some q =>
    have hq : x ≠ q := fun e => hl (e ▸ rfl)
    simp [hx, hq]

theorem firstSlot_free {c s : Nat} (hs : firstSlot vmasStored (fun s => decide (c ≤ s) && !(k.vmas s).use) = some s) :
    s < vmasStored ∧ c ≤ s ∧ (k.vmas s).use = false := by
  obtain ⟨hlt, hfree⟩ := firstSlot_some hs
  simp only [Bool.and_eq_true, decide_eq_true_eq, Bool.not_eq_true'] at hfree
  exact ⟨hlt, hfree⟩

/-- The rest of the list after a copy into a free slot. -/
theorem Chain.afterCopy {a s f c : Nat} {l : List Nat} (hc : Chain k.links (k.vmas a).next l)
    (hs : s < vmasStored ∧ c ≤ s ∧ (k.vmas s).use = false) (hu : ∀ x ∈ a :: l, (k.vmas x).use = true)
    (hlast : ∀ q, last = some q → q ∉ a :: l) :
    Chain (copyVma k np a s f last).links ((copyVma k np a s f last).vmas a).next l ∧
      (∀ x ∈ l, ((copyVma k np a s f last).vmas x).use = true) ∧ ∀ q, some s = some q → q ∉ l := by
  have hne : ∀ x ∈ a :: l, x ≠ s := by
    intro x hx e
    have := hs.2.2
    rw [← e, hu x hx] at this
    cases this
  have hkeep : ∀ x ∈ a :: l, (copyVma k np a s f last).vmas x = k.vmas x :=
    fun x hx => copyVma_vmas (hne x hx) fun e => hlast x e hx
  refine ⟨?_, fun x hx => ?_, fun q hq hm => ?_⟩
  · rw [hkeep a mem_cons_self]
    exact hc.congr fun x hx => congrArg Vma.next (hkeep x (mem_cons_of_mem _ hx))
  · rw [hkeep x (mem_cons_of_mem _ hx)]
    exact hu x (mem_cons_of_mem _ hx)
  · cases hq
    exact hne s (mem_cons_of_mem _ hm) rfl

/-- Each slot is as it was or a copy from the list `l`, and only its files are counted up. -/
theorem forkVmas_source {n c : Nat} {act : Option Nat} {r : Bool × Kernel} {l : List Nat}
    (h : forkVmas np n k act c last = .ok r) (hc : Chain k.links act l) (hu : ∀ a ∈ l, (k.vmas a).use = true)
    (hlast : ∀ q, last = some q → q ∉ l) : (∀ d, SameMap (k.vmas d) (r.2.vmas d) ∨ ∃ a ∈ l, SameMap (k.vmas a) (r.2.vmas d)) ∧
      (∀ f, (k.ftable f).ref ≤ (r.2.ftable f).ref) ∧
      ∀ f, (∀ a ∈ l, (k.vmas a).ofile ≠ some f) → (r.2.ftable f).ref = (k.ftable f).ref := by
  induction n generalizing k act c last l with
  | zero =>
    cases h
    exact ⟨fun d => Or.inl (SameMap.refl _), fun f => le_rfl, fun f _ => rfl⟩
  | succ n ih =>
    unfold forkVmas at h
    split at h
    · cases hc with
      | nil => cases h
      | @cons a l hc =>
        obtain ⟨h1, h2, h3⟩ := ih h hc (fun x hx => hu x (mem_cons_of_mem _ hx))
          fun q hq hm => hlast q hq (mem_cons_of_mem _ hm)
        refine ⟨fun d => ?_, h2, fun f hf => h3 f fun x hx => hf x (mem_cons_of_mem _ hx)⟩
        rcases h1 d with h1 | ⟨x, hx, h1⟩
        · exact Or.inl h1
        · exact Or.inr ⟨x, mem_cons_of_mem _ hx, h1⟩
    · split at h
      · cases h
        exact ⟨fun d => Or.inl (SameMap.refl _), fun f => le_rfl, fun f _ => rfl⟩
      rename_i s hs
      cases hc with
      | nil => cases h
      | @cons a l hc =>
        dsimp only at h
        split at h
        · cases h
        rename_i f hf
        obtain ⟨hchain, huse, hnew⟩ := hc.afterCopy (firstSlot_free hs) hu hlast
        obtain ⟨h1, h2, h3⟩ := ih h hchain huse hnew
        have hsame : ∀ x ∈ l, SameMap (k.vmas x) ((copyVma k np a s f last).vmas x) := fun x hx =>
          copyVma_other fun e => hnew s rfl (e ▸ hx)
        have href : ∀ x, ((copyVma k np a s f last).ftable x).ref = (k.ftable x).ref + if x = f then 1 else 0 :=
          ref_update k.ftable rfl
        refine ⟨fun d => ?_, fun x => ?_, fun x hx => ?_⟩
        · rcases h1 d with h1 | ⟨x, hx, h1⟩
          · by_cases hd : d = s
            · subst hd
              exact Or.inr ⟨a, mem_cons_self, (copyVma_self (hu a mem_cons_self)).trans h1⟩
            · exact Or.inl ((copyVma_other hd).trans h1)
          · exact Or.inr ⟨x, mem_cons_of_mem _ hx, (hsame x hx).trans h1⟩
        · have := h2 x
          rw [href] at this
          split_ifs at this <;> omega
        · have hxf : x ≠ f := fun e => hx a mem_cons_self (by rw [hf, e])
          have := h3 x fun y hy => by
            rw [(hsame y hy).ofile]
            exact hx y (mem_cons_of_mem _ hy)
          rw [this, href, if_neg hxf, add_zero]

end Copied

/-! ## The whole call -/

section Whole

variable {Λ : Layout} {k : Kernel}

/-- The rule of the loop over the descriptors: `I fd` holds once those below `fd` are duplicated. -/
theorem dupFiles_ends {ofile : Nat → Option Nat} {I : Nat → Kernel → (Nat → Option Nat) → Prop} {E : Panic → Prop}
    (hnone : ∀ fd k o, I fd k o → fd < nofile → ofile fd = none → I (fd + 1) k o)
    (hstep : ∀ fd k o f, I fd k o → fd < nofile → ofile fd = some f →
      Ends (filedup k f) (fun k' => I (fd + 1) k' (update o fd (some f))) E)
    (n fd : Nat) (hfd : fd + n ≤ nofile) {k : Kernel} {o : Nat → Option Nat} (h0 : I fd k o) :
    Ends (dupFiles ofile n fd k o) (fun r => I (fd + n) r.1 r.2) E := by
  induction n generalizing fd k o with
  | zero => exact ends_pure h0
  | succ n ih =>
    rw [show fd + (n + 1) = fd + 1 + n by omega]
    unfold dupFiles
    cases hf : ofile fd with
    | none => exact ih (fd + 1) (by omega) (hnone fd k o h0 (by omega) hf)
    | some f =>
      refine ends_bind (hstep fd k o f h0 (by omega) hf) fun k1 h1 => ?_
      exact ih (fd + 1) (by omega) h1

theorem dupFiles_frame {ofile : Nat → Option Nat} {n fd : Nat} {k k' : Kernel} {np np' : Nat → Option Nat}
    (h : dupFiles ofile n fd k np = .ok (k', np')) :
    FileOnly k k' ∧ k'.mem = k.mem ∧ k'.fs = k.fs ∧ ∀ f, k'.ftable f = { k.ftable f with ref := (k'.ftable f).ref } := by
  induction n generalizing fd k np with
  | zero =>
    cases h
    exact ⟨FileOnly.refl _, rfl, rfl, fun _ => rfl⟩
  | succ n ih =>
    unfold dupFiles at h
    split at h
    · exact ih h
    rename_i f hf
    obtain ⟨k1, hdup, h⟩ := bind_eq_ok.mp h
    obtain ⟨-, rfl⟩ := filedup_ok hdup
    obtain ⟨h1, h2, h3, h4⟩ := ih h
    refine ⟨⟨h1.proc, h1.vmas, h1.nextpid⟩, h2, h3, fun x => (h4 x).trans ?_⟩
    exact congrArg (fun y : File => { y with ref := (k'.ftable x).ref }) (file_update k.ftable f _ x)

theorem AllocDone.sameLists {r : Option Nat × Kernel} (h : AllocDone Λ k r) : SameLists k r.2 := by
  cases h with
  | full => exact SameLists.refl k
  | found j tf pt m1 m _ _ _ _ _ =>
    have := sameLists_upd k j
      { k.proc j with pid := k.nextpid, state := .used, trapframe := tf, pagetable := some pt } m k.fs rfl rfl
    exact ⟨this.vmas, this.head, this.nvma⟩
  | undone j p m _ _ hp =>
    have := sameLists_upd k j p m k.fs (by rw [hp]; rfl) (by rw [hp]; rfl)
    exact ⟨this.vmas, this.head, this.nvma⟩

theorem AllocDone.entry {np : Nat} {k1 : Kernel} (h : AllocDone Λ k (some np, k1)) :
    np < nproc ∧ (k.proc np).state = .unused ∧ (∀ j, j ≠ np → k1.proc j = k.proc j) ∧ (∃ tf pt, k1.proc np =
        { k.proc np with pid := k.nextpid, state := .used, trapframe := tf, pagetable := some pt }) ∧
      k1.ftable = k.ftable ∧ k1.fs = k.fs ∧ k1.vmas = k.vmas := by
  cases h with
  | found j tf pt m1 m hj hstate _ _ _ =>
    refine ⟨hj, hstate, fun j' hj' => ?_, ⟨tf, pt, ?_⟩, rfl, rfl, rfl⟩
    · simp [hj']
    · simp

theorem VmaLists.setCount {L : Nat → List Nat} {np n : Nat} {p : Proc} {m : Mem} {fs : Fs} (h : VmaLists k L) (hnp : L np = [])
    (hp : p.vmas = (k.proc np).vmas) (hn : p.nvma = n) (hle : n ≤ maxVmas) : VmaLists (k.upd np p m fs) L := by
  have hheads : (k.upd np p m fs).heads = k.heads := funext (upd_field k np p m fs Proc.vmas hp)
  refine ⟨by rw [hheads]; exact h.chains, h.used, ?_, ?_⟩
  · exact (forall_update_iff k.proc fun j p => (L j).length ≤ p.nvma).mpr ⟨by simp [hnp], fun j _ => h.short j⟩
  · exact (forall_update_iff k.proc fun _ p => p.nvma ≤ maxVmas).mpr ⟨hn ▸ hle, fun j _ => h.bound j⟩

end Whole

end Xv6Mmap

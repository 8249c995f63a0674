import Xv6Mmap.Trap

/-!
# The VMA lists

Every process has a chain of VMAs threaded through the global table. `VmaLists` always holds of the chains, also after a `fork` that
ran out of slots: their slots are in use, no slot is in two of them, and none is longer than the count of its process. In `VmaExact`
the count is the length and no slot in use is lost. The searches of `mmap`, `munmap` and the page fault are described by where they
stop.
-/

namespace Xv6Mmap

open Function List

variable {k k' : Kernel} {i length : Nat} {V : Nat → Vma} {act prev : Option Nat} {l : List Nat}

/-- The links of the VMA table. -/
def Kernel.links (k : Kernel) (a : Nat) : Option Nat := (k.vmas a).next

/-- The heads of the chains. -/
def Kernel.heads (k : Kernel) (i : Nat) : Option Nat := (k.proc i).vmas

/-- The VMAs of each process, as lists of slots. -/
structure VmaLists (k : Kernel) (L : Nat → List Nat) : Prop where
  chains : Chains k.links k.heads L
  used : ∀ i, ∀ a ∈ L i, a < vmasStored ∧ (k.vmas a).use = true
  short : ∀ i, (L i).length ≤ (k.proc i).nvma
  bound : ∀ i, (k.proc i).nvma ≤ maxVmas

/-- The lists, with exact counts and every slot in use in one of them. -/
structure VmaExact (k : Kernel) (L : Nat → List Nat) : Prop extends VmaLists k L where
  exact : ∀ i, (L i).length = (k.proc i).nvma
  all : ∀ c < vmasStored, (k.vmas c).use = true → ∃ i < nproc, c ∈ L i

/-- Nothing of the VMA lists changed. -/
structure SameLists (k k' : Kernel) : Prop where
  vmas : k'.vmas = k.vmas
  head : ∀ i, (k'.proc i).vmas = (k.proc i).vmas
  nvma : ∀ i, (k'.proc i).nvma = (k.proc i).nvma

theorem SameLists.refl (k : Kernel) : SameLists k k := ⟨rfl, fun _ => rfl, fun _ => rfl⟩

theorem SameLists.trans {k'' : Kernel} (h : SameLists k k') (h' : SameLists k' k'') : SameLists k k'' :=
  ⟨h'.vmas.trans h.vmas, fun i => (h'.head i).trans (h.head i), fun i => (h'.nvma i).trans (h.nvma i)⟩

theorem update_field {α β : Type} {F : Nat → α} {a : α} (g : α → β) (h : g a = g (F i)) (j : Nat) : g (update F i a j) = g (F j) :=
  (forall_update_iff F fun j x => g x = g (F j)).mpr ⟨h, fun _ _ => rfl⟩ j

theorem sameLists_setProc (k : Kernel) (i : Nat) (p : Proc) (hv : p.vmas = (k.proc i).vmas)
    (hn : p.nvma = (k.proc i).nvma) : SameLists k (k.setProc i p) :=
  ⟨rfl, update_field Proc.vmas hv, update_field Proc.nvma hn⟩

/-- The chains and the slots in use did not change, only the ranges of VMAs. -/
structure SameShape (k k' : Kernel) : Prop where
  link : ∀ a, (k'.vmas a).next = (k.vmas a).next
  use : ∀ a, (k'.vmas a).use = (k.vmas a).use
  head : ∀ i, (k'.proc i).vmas = (k.proc i).vmas
  nvma : ∀ i, (k'.proc i).nvma = (k.proc i).nvma

theorem SameLists.toShape (h : SameLists k k') : SameShape k k' :=
  ⟨fun a => by rw [h.vmas], fun a => by rw [h.vmas], h.head, h.nvma⟩

theorem VmaLists.of_shape {L : Nat → List Nat} (h : VmaLists k L) (hs : SameShape k k') : VmaLists k' L := by
  have hl : k'.links = k.links := funext hs.link
  have hh : k'.heads = k.heads := funext hs.head
  refine ⟨by rw [hl, hh]; exact h.chains, fun i a ha => ?_, fun i => ?_, fun i => ?_⟩
  · rw [hs.use]
    exact h.used i a ha
  · rw [hs.nvma]
    exact h.short i
  · rw [hs.nvma]
    exact h.bound i

theorem VmaExact.of_shape {L : Nat → List Nat} (h : VmaExact k L) (hs : SameShape k k') : VmaExact k' L := by
  refine ⟨h.toVmaLists.of_shape hs, fun i => ?_, fun c hc hu => ?_⟩
  · rw [hs.nvma]
    exact h.exact i
  · rw [hs.use] at hu
    exact h.all c hc hu

theorem map_update {α β : Type} (g : α → β) (f : Nat → α) (i : Nat) (v : α) :
    (fun j => g (update f i v j)) = update (fun j => g (f j)) i (g v) := by
  funext j
  by_cases hj : j = i
  · subst hj
    simp
  · simp [hj]

/-- Two VMAs that agree in what they map and how. -/
structure Vma.SameFields (v w : Vma) : Prop where
  addri : w.addri = v.addri
  addre : w.addre = v.addre
  addrinit : w.addrinit = v.addrinit
  size : w.size = v.size
  offset : w.offset = v.offset
  prot : w.prot = v.prot
  flag : w.flag = v.flag
  ofile : w.ofile = v.ofile

theorem Vma.SameFields.of_links (v : Vma) (u : Bool) (n : Option Nat) : v.SameFields { v with use := u, next := n } :=
  ⟨rfl, rfl, rfl, rfl, rfl, rfl, rfl, rfl⟩

theorem Vma.SameFields.trans {u v w : Vma} (h : u.SameFields v) (h' : v.SameFields w) : u.SameFields w :=
  ⟨h'.addri.trans h.addri, h'.addre.trans h.addre, h'.addrinit.trans h.addrinit, h'.size.trans h.size,
    h'.offset.trans h.offset, h'.prot.trans h.prot, h'.flag.trans h.flag, h'.ofile.trans h.ofile⟩

/-! ## Where the searches stop -/

/-- A new VMA after slot `q` and before `next` fits: below the next VMA, or below `TOP_ADDRESS` at the end. -/
def Fits (V : Nat → Vma) (psize q : Nat) : Option Nat → Prop
  | none => ((V q).addre + psize) % 2 ^ 64 ≤ topAddress
  | some a => ((V q).addre + psize) % 2 ^ 64 ≤ (V a).addri

/-- The search of `mmap` past slot `q` stops after some slot of the rest of the chain. -/
theorem findSpot_after {psize : Nat} (r : Nat) {q : Nat}
    (hc : Chain (fun a => (V a).next) act l) {next : Option Nat} (h : findSpot V psize r (some q) act = .found prev next) :
    ∃ l₁ b l₂, q :: l = l₁ ++ [b] ++ l₂ ∧ prev = some b ∧ next = l₂.head? ∧ Fits V psize b next := by
  induction r generalizing q act l with
  | zero => cases h
  | succ r ih =>
    cases hc with
    | nil =>
      rw [findSpot] at h
      split at h
      · cases h
      · rename_i hfit
        cases h
        exact ⟨[], q, [], rfl, rfl, rfl, Nat.not_lt.mp hfit⟩
    | @cons a l hc =>
      rw [findSpot] at h
      split at h
      · rename_i hfit
        cases h
        exact ⟨[], q, a :: l, rfl, rfl, rfl, hfit⟩
      · obtain ⟨l₁, b, l₂, e, hp, hn, hf⟩ := ih hc h
        refine ⟨q :: l₁, b, l₂, ?_, hp, hn, hf⟩
        rw [e]
        rfl

/-- Where `mmap` puts a VMA: at the start of an empty chain, or after a slot of the chain. -/
theorem findSpot_found {psize r : Nat}
    (hc : Chain (fun a => (V a).next) act l) {next : Option Nat} (h : findSpot V psize r none act = .found prev next) :
    (l = [] ∧ prev = none ∧ next = none ∧ (startAddress + psize) % 2 ^ 64 ≤ topAddress) ∨
    ∃ l₁ b l₂, l = l₁ ++ [b] ++ l₂ ∧ prev = some b ∧ next = l₂.head? ∧ Fits V psize b next := by
  cases r with
  | zero => cases h
  | succ r =>
    cases hc with
    | nil =>
      left
      rw [findSpot] at h
      split at h
      · cases h
      · rename_i hfit
        cases h
        exact ⟨rfl, rfl, rfl, Nat.not_lt.mp hfit⟩
    | cons hc =>
      right
      exact findSpot_after r hc h

/-- Where the search of `munmap` stops: at the first VMA of the chain that covers the range, or after all `n` of them. -/
theorem munmapFind_spec {addr : Nat} (n : Nat)
    (hc : Chain (fun a => (V a).next) act l) {E : Panic → Prop} (hE : l.length < n → E .kerneltrap) :
    Ends (munmapFind V addr length n prev act)
      (fun r => match r with
        | none => n ≤ l.length ∧ ∀ a ∈ l.take n, (V a).covers addr length = false
        | some (prev', a) => ∃ l₁ l₂, l = l₁ ++ a :: l₂ ∧ prev' = (match l₁.getLast? with | none => prev | some b => some b) ∧
            (V a).covers addr length = true ∧ (∀ b ∈ l₁, (V b).covers addr length = false) ∧ l₁.length < n) E := by
  induction n generalizing prev act l with
  | zero => exact ends_pure ⟨Nat.zero_le _, by simp⟩
  | succ n ih =>
    cases hc with
    | nil => exact ends_throw (hE (by simp))
    | @cons a l hc =>
      refine ends_ite (fun hcov => ends_pure ⟨[], l, rfl, rfl, hcov, by simp, by simp⟩) fun hcov => ?_
      have hcov' : (V a).covers addr length = false := by simpa using hcov
      refine ends_imp (ih hc fun hlt => hE (by simpa using hlt)) ?_
      rintro (_ | ⟨prev', b⟩) hr
      · obtain ⟨hle, hall⟩ := hr
        refine ⟨by simpa using hle, ?_⟩
        intro x hx
        rcases mem_cons.mp (by simpa using hx) with rfl | hx
        · exact hcov'
        · exact hall x hx
      · obtain ⟨l₁, l₂, rfl, hp, hb, hall, hlt⟩ := hr
        refine ⟨a :: l₁, l₂, rfl, ?_, hb, ?_, by simpa using hlt⟩
        · rw [hp]
          cases l₁ with
          | nil => rfl
          | cons c l₁ => cases h : (c :: l₁).getLast? <;> simp_all
        · intro x hx
          rcases mem_cons.mp hx with rfl | hx
          · exact hcov'
          · exact hall x hx

/-- The search of the page-fault branch stops at a VMA or after all `n` of them, if the chain is that long. -/
theorem faultFind_spec {va : Nat} (n : Nat) (hc : Chain (fun a => (V a).next) act l) :
    Ends (faultFind V va n act)
      (fun r => match r with
        | none => n ≤ l.length ∧ ∀ a ∈ l.take n, ¬((V a).addri ≤ va ∧ va < (V a).addre)
        | some a => ∃ l₁ l₂, l = l₁ ++ a :: l₂ ∧ l₁.length < n ∧ ((V a).addri ≤ va ∧ va < (V a).addre) ∧
            ∀ b ∈ l₁, ¬((V b).addri ≤ va ∧ va < (V b).addre))
      (fun e => e = .kerneltrap ∧ l.length < n ∧ ∀ a ∈ l, ¬((V a).addri ≤ va ∧ va < (V a).addre)) := by
  induction n generalizing act l with
  | zero => exact ends_pure ⟨Nat.zero_le _, by simp⟩
  | succ n ih =>
    cases hc with
    | nil => exact ends_throw ⟨rfl, by simp, by simp⟩
    | @cons a l hc =>
      refine ends_ite (fun hin => ends_pure ⟨[], l, rfl, by simp, hin, by simp⟩) fun hout => ?_
      refine ends_mono (ih hc) ?_ ?_
      · rintro (_ | b) hr
        · obtain ⟨hle, hall⟩ := hr
          refine ⟨by simpa using hle, ?_⟩
          intro x hx
          rcases mem_cons.mp (by simpa using hx) with rfl | hx
          · exact hout
          · exact hall x hx
        · obtain ⟨l₁, l₂, rfl, hlt, hb, hall⟩ := hr
          refine ⟨a :: l₁, l₂, rfl, by simpa using hlt, hb, ?_⟩
          intro x hx
          rcases mem_cons.mp hx with rfl | hx
          · exact hout
          · exact hall x hx
      · rintro e ⟨he, hlt, hall⟩
        refine ⟨he, by simpa using hlt, ?_⟩
        intro x hx
        rcases mem_cons.mp hx with rfl | hx
        · exact hout
        · exact hall x hx

/-! ## `mmap` on the lists -/

/-- How the list of a process grows by slot `n`: from empty, or after slot `b`. A process with an empty chain and a count that is
not `0` does not get the slot into its chain. -/
inductive Inserted (k : Kernel) (i psize n : Nat) (prev next : Option Nat) (L L' : Nat → List Nat) : Prop where
  | first (hL : L i = []) (hp : prev = none) (hn : next = none) (hc : (k.proc i).nvma = 0)
      (hfit : (startAddress + psize) % 2 ^ 64 ≤ topAddress) (hL' : L' = update L i [n])
  | lost (hL : L i = []) (hp : prev = none) (hn : next = none) (hc : (k.proc i).nvma ≠ 0)
      (hfit : (startAddress + psize) % 2 ^ 64 ≤ topAddress) (hL' : L' = L)
  | after (l₁ : List Nat) (b : Nat) (l₂ : List Nat) (hL : L i = l₁ ++ [b] ++ l₂) (hp : prev = some b)
      (hn : next = l₂.head?) (hfit : Fits k.vmas psize b next) (hL' : L' = update L i (l₁ ++ [b] ++ n :: l₂))

theorem Chain.next_eq_head {next : Nat → Option Nat} {h : Option Nat} {l₁ l₂ : List Nat} {b : Nat}
    (hc : Chain next h (l₁ ++ [b] ++ l₂)) : next b = l₂.head? := by
  rw [append_assoc] at hc
  have hc' := (Chain.cons_iff.mp hc.drop_to).2
  cases l₂ with
  | nil => exact Chain.nil_iff.mp hc'
  | cons a l₂ => exact hc'.head_eq

section Allocated

variable {k : Kernel} {L : Nat → List Nat} {i length prot flag f n : Nat} {prev next : Option Nat}

theorem VmaLists.not_mem_of_free (h : VmaLists k L) {n : Nat} (hn : (k.vmas n).use = false) (j : Nat) : n ∉ L j := by
  intro hm
  rw [(h.used j n hm).2] at hn
  cases hn

theorem findVma_some {V : Nat → Vma} {n : Nat} (h : findVma V = some n) : n < vmasStored ∧ (V n).use = false := by
  obtain ⟨h1, h2⟩ := firstSlot_some h
  exact ⟨h1, by simpa using h2⟩

theorem setNext_old (V : Nat → Vma) (q : Nat) (n : Option Nat) (c : Nat) :
    ∃ n', update V q { V q with next := n } c = { V c with next := n' } :=
  (forall_update_iff V fun c v => ∃ n', v = { V c with next := n' }).mpr ⟨⟨n, rfl⟩, fun c _ => ⟨(V c).next, rfl⟩⟩ c

theorem linkVma_old (V : Nat → Vma) {n a : Nat} (prev : Option Nat) (v : Vma) (ha : a ≠ n) :
    ∃ n', linkVma V n prev v a = { V a with next := n' } := by
  cases prev with
  | none => exact ⟨_, update_of_ne ha _ _⟩
  | some q =>
    obtain ⟨n', h⟩ := setNext_old V q (some n) a
    exact ⟨n', (update_of_ne ha _ _).trans h⟩

theorem linkVma_use (V : Nat → Vma) {n a : Nat} (prev : Option Nat) (v : Vma) (ha : a ≠ n) :
    (linkVma V n prev v a).use = (V a).use := by
  obtain ⟨n', h⟩ := linkVma_old V prev v ha
  rw [h]

theorem linkVma_self (V : Nat → Vma) (n : Nat) (prev : Option Nat) (v : Vma) : linkVma V n prev v n = v := by
  cases prev <;> simp [linkVma]

theorem linkVma_links_first {v : Vma} : (fun a => (linkVma V n none v a).next) = update (fun a => (V a).next) n v.next :=
  map_update Vma.next V n _

theorem linkVma_links_after {v : Vma} {b : Nat} :
    (fun a => (linkVma V n (some b) v a).next) = update (update (fun a => (V a).next) b (some n)) n v.next := by
  refine (map_update Vma.next _ n _).trans ?_
  congr 1
  exact map_update Vma.next V b _

theorem allocated_links_first : (allocated k i length prot flag f n none next).links = update k.links n next :=
  linkVma_links_first

theorem allocated_links_after {b : Nat} :
    (allocated k i length prot flag f n (some b) next).links = update (update k.links b (some n)) n next :=
  linkVma_links_after

theorem allocated_heads : (allocated k i length prot flag f n prev next).heads =
    update k.heads i (if (k.proc i).nvma = 0 then some n else (k.proc i).vmas) :=
  map_update Proc.vmas k.proc i _

theorem VmaLists.allocated (h : VmaLists k L) {psize r : Nat} (hspot : findSpot k.vmas psize r none (k.proc i).vmas = .found prev next)
    (hfree : findVma k.vmas = some n) (hcount : (k.proc i).nvma ≠ maxVmas) :
    ∃ L', VmaLists (allocated k i length prot flag f n prev next) L' ∧ Inserted k i psize n prev next L L' := by
  obtain ⟨hn, hnu⟩ := findVma_some hfree
  have hnew := h.not_mem_of_free hnu
  have hci : Chain (fun a => (k.vmas a).next) (k.proc i).vmas (L i) := h.chains.chain i
  -- what does not depend on the shape of the lists: the slots in use and the counts
  have hrest : ∀ L', (∀ j, ∀ a ∈ L' j, a = n ∨ a ∈ L j) → (∀ j, (L' j).length ≤ (L j).length + if j = i then 1 else 0) →
      Chains (Xv6Mmap.allocated k i length prot flag f n prev next).links
        (Xv6Mmap.allocated k i length prot flag f n prev next).heads L' →
      VmaLists (Xv6Mmap.allocated k i length prot flag f n prev next) L' := by
    intro L' hmem hlen hch
    have hnv : ∀ j, ((Xv6Mmap.allocated k i length prot flag f n prev next).proc j).nvma =
        (k.proc j).nvma + if j = i then 1 else 0 :=
      (forall_update_iff k.proc fun j p => p.nvma = (k.proc j).nvma + if j = i then 1 else 0).mpr
        ⟨by simp, fun j hj => by simp [hj]⟩
    refine ⟨hch, fun j a ha => ?_, fun j => ?_, fun j => ?_⟩
    · rcases hmem j a ha with rfl | ha
      · exact ⟨hn, by simp only [Xv6Mmap.allocated, linkVma_self]⟩
      have hne : a ≠ n := by
        rintro rfl
        exact hnew j ha
      refine ⟨(h.used j a ha).1, ?_⟩
      simp only [Xv6Mmap.allocated, linkVma_use k.vmas prev _ hne]
      exact (h.used j a ha).2
    · have := hlen j
      have := h.short j
      rw [hnv]
      omega
    · have := h.bound j
      rw [hnv]
      split_ifs with hj
      · subst hj
        omega
      · exact this
  rcases findSpot_found hci hspot with ⟨hnil, rfl, rfl, hfit⟩ | ⟨l₁, b, l₂, hl, rfl, hnext, hfit⟩
  · by_cases hz : (k.proc i).nvma = 0
    · refine ⟨update L i [n], hrest _ ?_ ?_ ?_, .first hnil rfl rfl hz hfit rfl⟩
      · exact (forall_update_iff L fun j l => ∀ a ∈ l, a = n ∨ a ∈ L j).mpr
          ⟨fun a ha => Or.inl (mem_singleton.mp ha), fun j _ a ha => Or.inr ha⟩
      · exact (forall_update_iff L fun j l => l.length ≤ (L j).length + if j = i then 1 else 0).mpr
          ⟨by simp, fun j _ => Nat.le_add_right _ _⟩
      · rw [allocated_links_first, allocated_heads, if_pos hz]
        exact h.chains.insert_first hnil hnew
    · refine ⟨L, hrest L (fun j a ha => Or.inr ha) (fun j => by omega) ?_, .lost hnil rfl rfl hz hfit rfl⟩
      rw [allocated_links_first, allocated_heads, if_neg hz, show (k.proc i).vmas = k.heads i from rfl,
        update_eq_self]
      refine h.chains.congr fun j a ha => update_of_ne ?_ _ _
      rintro rfl
      exact hnew j ha
  · have hz : (k.proc i).nvma ≠ 0 := by
      have := h.short i
      rw [hl] at this
      simp only [length_append, length_cons] at this
      omega
    refine ⟨update L i (l₁ ++ [b] ++ n :: l₂), hrest _ ?_ ?_ ?_, .after l₁ b l₂ hl rfl hnext hfit rfl⟩
    · refine (forall_update_iff L fun j l => ∀ a ∈ l, a = n ∨ a ∈ L j).mpr ⟨fun a ha => ?_, fun j _ a ha => Or.inr ha⟩
      rw [hl]
      simp only [mem_append, mem_cons] at ha ⊢
      tauto
    · refine (forall_update_iff L fun j l => l.length ≤ (L j).length + if j = i then 1 else 0).mpr
        ⟨?_, fun j _ => Nat.le_add_right _ _⟩
      simp [hl]
      omega
    · rw [hl] at hci
      rw [allocated_links_after, allocated_heads, if_neg hz, show (k.proc i).vmas = k.heads i from rfl,
        update_eq_self, hnext, ← hci.next_eq_head]
      exact h.chains.insert_after hl hnew

theorem VmaExact.allocated (h : VmaExact k L) (hi : i < nproc) {psize r : Nat}
    (hspot : findSpot k.vmas psize r none (k.proc i).vmas = .found prev next) (hfree : findVma k.vmas = some n)
    (hcount : (k.proc i).nvma ≠ maxVmas) :
    ∃ L', VmaExact (allocated k i length prot flag f n prev next) L' ∧ Inserted k i psize n prev next L L' := by
  obtain ⟨L', hl, hins⟩ : ∃ L', VmaLists (Xv6Mmap.allocated k i length prot flag f n prev next) L' ∧
      Inserted k i psize n prev next L L' := h.toVmaLists.allocated hspot hfree hcount
  -- the list of the process has the new slot and one more element; the others are as they were
  have hnew : n ∈ L' i ∧ (∀ c ∈ L i, c ∈ L' i) ∧ (L' i).length = (L i).length + 1 ∧ ∀ j ≠ i, L' j = L j := by
    cases hins with
    | first hL _ _ _ _ hL' =>
      subst hL'
      simp +contextual [hL]
    | lost hL _ _ hc _ _ =>
      have := h.exact i
      rw [hL] at this
      exact absurd this.symm hc
    | after l₁ b l₂ hL _ _ _ hL' =>
      subst hL'
      simp only [update_self, hL, mem_append, mem_cons, length_append, length_cons]
      exact ⟨by tauto, fun c hc => by tauto, by omega, fun j hj => update_of_ne hj _ _⟩
  obtain ⟨hn, hsub, hlen, hother⟩ := hnew
  refine ⟨L', ⟨hl, fun j => ?_, fun c hc hu => ?_⟩, hins⟩
  · have hj := h.exact j
    by_cases e : j = i
    · subst e
      simp [Xv6Mmap.allocated, hlen, hj]
    · simpa [Xv6Mmap.allocated, e, hother j e] using hj
  · by_cases hcn : c = n
    · exact ⟨i, hi, by rw [hcn]; exact hn⟩
    simp only [Xv6Mmap.allocated, linkVma_use k.vmas prev _ hcn] at hu
    obtain ⟨j, hj, hcj⟩ := h.all c hc hu
    by_cases e : j = i
    · exact ⟨i, hi, hsub c (e ▸ hcj)⟩
    · exact ⟨j, hj, (hother j e).symm ▸ hcj⟩

end Allocated

/-! ## `munmap` on the lists -/

section Freed

variable {k k' : Kernel} {L : Nat → List Nat} {i a : Nat} {prev : Option Nat} {l₁ l₂ : List Nat}

/-- The slot before a slot of a chain, as `munmap` keeps it. -/
def prevOf (l₁ : List Nat) : Option Nat := l₁.getLast?

theorem VmaLists.munmapFind (h : VmaLists k L) {addr length : Nat}
    (hfind : munmapFind k.vmas addr length (k.proc i).nvma none (k.proc i).vmas = .ok (some (prev, a))) :
    ∃ l₁ l₂, L i = l₁ ++ a :: l₂ ∧ prev = prevOf l₁ ∧ (k.vmas a).covers addr length = true ∧
      ∀ b ∈ l₁, (k.vmas b).covers addr length = false := by
  obtain ⟨l₁, l₂, e, hp, hc, hall, -⟩ :=
    (munmapFind_spec (E := anyAbort) (k.proc i).nvma (h.chains.chain i) fun _ => trivial).of_ok hfind
  refine ⟨l₁, l₂, e, ?_, hc, hall⟩
  rw [hp, prevOf]
  cases l₁.getLast? <;> rfl

/-- `freeVma` takes a slot out of the list of its process; the other slots get at most a new link. -/
theorem freeVma_ok : freeVma k i a prev = .ok k' →
    ∃ f V, (k.vmas a).ofile = some f ∧
      V = (match prev with
        | none => k.vmas
        | some q => update k.vmas q { k.vmas q with next := (k.vmas a).next }) ∧
      (∀ c, ∃ n, V c = { k.vmas c with next := n }) ∧
      k' = { k with
        proc := update k.proc i
          { k.proc i with
            vmas := if prev.isNone then (k.vmas a).next else (k.proc i).vmas
            nvma := (k.proc i).nvma - 1 }
        vmas := update V a (V a).clear
        ftable := update k.ftable f { k.ftable f with ref := (k.ftable f).ref - 1 } } := by
  intro hk
  unfold freeVma at hk
  cases hf : (k.vmas a).ofile with
  | none => simp [hf] at hk
  | some f =>
    rw [hf] at hk
    obtain rfl := Except.ok.inj hk
    refine ⟨f, _, rfl, rfl, fun c => ?_, rfl⟩
    cases prev with
    | none => exact ⟨_, rfl⟩
    | some q => exact setNext_old k.vmas q _ c

theorem VmaLists.freed (h : VmaLists k L) (hL : L i = l₁ ++ a :: l₂) (hprev : prev = prevOf l₁)
    (hk : freeVma k i a prev = .ok k') : VmaLists k' (update L i (l₁ ++ l₂)) := by
  obtain ⟨f, V, -, hV, hold, rfl⟩ := freeVma_ok hk
  have hci := h.chains.chain i
  rw [hL] at hci
  have hnd := nodup_cons.mp (nodup_middle.mp hci.nodup)
  -- what is left in the lists was there before, and is not the slot taken out
  have hsub : ∀ j, ∀ c ∈ update L i (l₁ ++ l₂) j, c ∈ L j ∧ c ≠ a := by
    refine (forall_update_iff L fun j l => ∀ c ∈ l, c ∈ L j ∧ c ≠ a).mpr ⟨fun c hc => ⟨?_, ?_⟩, fun j hj c hc => ⟨hc, ?_⟩⟩
    · rw [hL]
      simp only [mem_append, mem_cons] at hc ⊢
      tauto
    · rintro rfl
      exact hnd.1 hc
    · rintro rfl
      exact hj (h.chains.disj j i c hc (by simp [hL]))
  -- the chains with the slot unlinked; the cleared link of the slot itself is in no chain
  have hch : Chains (fun c => (V c).next)
      (update k.heads i (if prev.isNone then (k.vmas a).next else (k.proc i).vmas))
      (update L i (l₁ ++ l₂)) := by
    rcases eq_nil_or_concat' l₁ with rfl | ⟨l, b, rfl⟩
    · have hp : prev = none := hprev
      subst hp
      subst hV
      exact h.chains.remove_first hL
    · have hp : prev = some b := by
        rw [hprev]
        simp [prevOf]
      subst hp
      have hn : (fun c => (V c).next) = update k.links b (k.links a) := by
        rw [hV]
        exact map_update Vma.next k.vmas b _
      rw [hn, show (if (some b).isNone = true then (k.vmas a).next else (k.proc i).vmas) = k.heads i from rfl,
        update_eq_self]
      exact h.chains.remove_after hL
  refine ⟨?_, fun j c hc => ?_, fun j => ?_, fun j => ?_⟩
  · have hheads : Kernel.heads { k with
        proc := update k.proc i
          { k.proc i with
            vmas := if prev.isNone then (k.vmas a).next else (k.proc i).vmas
            nvma := (k.proc i).nvma - 1 } } =
        update k.heads i (if prev.isNone then (k.vmas a).next else (k.proc i).vmas) :=
      map_update Proc.vmas k.proc i _
    refine (hheads ▸ hch : Chains (fun c => (V c).next) _ _).congr fun j c hc => ?_
    simp [Kernel.links, (hsub j c hc).2]
  · obtain ⟨h1, h2⟩ := h.used j c (hsub j c hc).1
    obtain ⟨n, e⟩ := hold c
    refine ⟨h1, ?_⟩
    simp only [update_of_ne (hsub j c hc).2, e, h2]
  · have := h.short j
    by_cases hj : j = i
    · subst hj
      rw [hL] at this
      simp only [update_self, length_append, length_cons] at this ⊢
      omega
    · simpa [hj] using this
  · exact (forall_update_iff k.proc fun _ p => p.nvma ≤ maxVmas).mpr
      ⟨le_trans (Nat.sub_le _ _) (h.bound i), fun j _ => h.bound j⟩ j

theorem VmaExact.freed (h : VmaExact k L) (hL : L i = l₁ ++ a :: l₂) (hprev : prev = prevOf l₁)
    (hk : freeVma k i a prev = .ok k') : VmaExact k' (update L i (l₁ ++ l₂)) := by
  refine ⟨h.toVmaLists.freed hL hprev hk, ?_, ?_⟩
  all_goals obtain ⟨f, V, -, -, hold, rfl⟩ := freeVma_ok hk
  · intro j
    have := h.exact j
    by_cases hj : j = i
    · subst hj
      rw [hL] at this
      simp only [update_self, length_append, length_cons] at this ⊢
      omega
    · simpa [hj] using this
  · intro c hc hu
    by_cases hca : c = a
    · subst hca
      simp [Vma.clear] at hu
    obtain ⟨n, e⟩ := hold c
    simp only [update_of_ne hca, e] at hu
    obtain ⟨j, hj, hm⟩ := h.all c hc hu
    refine ⟨j, hj, ?_⟩
    by_cases hji : j = i
    · subst hji
      rw [hL] at hm
      rw [update_self]
      simp only [mem_append, mem_cons] at hm ⊢
      tauto
    · rwa [update_of_ne hji]

/-- What the end of `munmap` does: it frees the VMA, or moves its start, or moves its end. -/
inductive Resized (k : Kernel) (i a : Nat) (prev : Option Nat) (addr length : Nat) (k' : Kernel) : Prop where
  | freed (hw : ((k.vmas a).addri + pgRoundUp length) % 2 ^ 64 = (k.vmas a).addre) (hk : freeVma k i a prev = .ok k')
  | front (hw : ((k.vmas a).addri + pgRoundUp length) % 2 ^ 64 ≠ (k.vmas a).addre) (ha : (k.vmas a).addri = addr)
      (hk : k' = { k with
        vmas := update k.vmas a
          { k.vmas a with addri := ((k.vmas a).addri + pgRoundUp length) % 2 ^ 64 } })
  | back (hw : ((k.vmas a).addri + pgRoundUp length) % 2 ^ 64 ≠ (k.vmas a).addre) (ha : (k.vmas a).addri ≠ addr)
      (hk : k' = { k with vmas := update k.vmas a { k.vmas a with addre := pgRoundDown addr } })

theorem munmapResize_ok {addr length : Nat} (h : munmapResize k i a prev addr length = .ok k') :
    Resized k i a prev addr length k' := by
  unfold munmapResize at h
  by_cases hw : ((k.vmas a).addri + pgRoundUp length) % 2 ^ 64 = (k.vmas a).addre
  · rw [if_pos hw] at h
    exact .freed hw h
  rw [if_neg hw] at h
  by_cases ha : (k.vmas a).addri = addr
  · rw [if_pos ha] at h
    cases h
    exact .front hw ha rfl
  · rw [if_neg ha] at h
    cases h
    exact .back hw ha rfl

theorem sameShape_range (k : Kernel) (a : Nat) {v : Vma} (hu : v.use = (k.vmas a).use) (hn : v.next = (k.vmas a).next) :
    SameShape k { k with vmas := update k.vmas a v } :=
  ⟨update_field Vma.next hn, update_field Vma.use hu, fun _ => rfl, fun _ => rfl⟩

end Freed

/-! ## The calls -/

/-- What `mmap` comes to: a failure, a failure that leaves `p->lock` held, or a new VMA. -/
inductive MmapDone (k : Kernel) (i length prot flag fd : Nat) : Nat × Kernel → Prop where
  | failed : MmapDone k i length prot flag fd (minusOne, k)
  | stuck : MmapDone k i length prot flag fd (minusOne, k.setProc i { k.proc i with lock := true })
  | mapped (f n : Nat) (prev next : Option Nat) (hf : (k.proc i).ofile fd = some f)
      (hcount : (k.proc i).nvma ≠ maxVmas)
      (hspot : findSpot k.vmas (pgRoundUp length) (maxVmas + 1) none (k.proc i).vmas = .found prev next)
      (hfree : findVma k.vmas = some n) :
      MmapDone k i length prot flag fd (spotStart k.vmas prev, allocated k i length prot flag f n prev next)

theorem mmap_ok {prot flag fd : Nat} {r : Nat × Kernel} (h : mmap k i length prot flag fd = .ok r) :
    MmapDone k i length prot flag fd r := by
  obtain ⟨may, -, h⟩ := bind_eq_ok.mp h
  split at h
  · cases h
    exact .failed
  split at h
  · cases h
  split at h
  · cases h
    exact .failed
  rename_i hcount
  split at h
  · cases h
    exact .stuck
  rename_i prev next hspot
  split at h
  · cases h
    exact .failed
  · cases h
  · rename_i n f hfree hf
    cases h
    exact .mapped f n prev next hf hcount hspot hfree

/-- The kernel after the page loop of `munmap`. -/
def afterPages (k : Kernel) (i : Nat) (pt : PageTable) (m : Mem) (fs : Fs) : Kernel :=
  { k.setProc i { k.proc i with pagetable := some pt } with mem := m, fs := fs }

/-- What `munmap` comes to: no VMA covers the range, the page loop fails, or it ends and the VMA is resized. -/
inductive MunmapDone (Λ : Layout) (io : Bool) (k : Kernel) (i addr length : Nat) : Bool × Kernel → Prop where
  | notFound (hfind : munmapFind k.vmas addr length (k.proc i).nvma none (k.proc i).vmas = .ok none) :
      MunmapDone Λ io k i addr length (false, k)
  | failed (prev : Option Nat) (a : Nat) (pt pt' : PageTable) (m : Mem) (fs : Fs)
      (hfind : munmapFind k.vmas addr length (k.proc i).nvma none (k.proc i).vmas = .ok (some (prev, a)))
      (hpt : (k.proc i).pagetable = some pt)
      (hpages : munmapPages Λ io k.ftable (k.vmas a) addr (munmapRounds length) 0 pt k.mem k.fs = .ok (false, pt', m, fs)) :
      MunmapDone Λ io k i addr length (false, afterPages k i pt' m fs)
  | done (prev : Option Nat) (a : Nat) (pt pt' : PageTable) (m : Mem) (fs : Fs) (k' : Kernel)
      (hfind : munmapFind k.vmas addr length (k.proc i).nvma none (k.proc i).vmas = .ok (some (prev, a)))
      (hpt : (k.proc i).pagetable = some pt)
      (hpages : munmapPages Λ io k.ftable (k.vmas a) addr (munmapRounds length) 0 pt k.mem k.fs = .ok (true, pt', m, fs))
      (hres : Resized (afterPages k i pt' m fs) i a prev addr length k') :
      MunmapDone Λ io k i addr length (true, k')

theorem munmap_ok {Λ : Layout} {io : Bool} {addr : Nat} {r : Bool × Kernel}
    (h : munmap Λ io k i addr length = .ok r) : MunmapDone Λ io k i addr length r := by
  unfold munmap at h
  dsimp only at h
  split at h
  · cases h
  obtain ⟨found, hfind, h⟩ := bind_eq_ok.mp h
  rcases found with _ | ⟨prev, a⟩
  · cases h
    exact .notFound hfind
  dsimp only at h
  split at h
  · cases h
  rename_i pt hpt
  obtain ⟨⟨ok, pt', m, fs⟩, hpages, h⟩ := bind_eq_ok.mp h
  cases ok with
  | false =>
    cases h
    exact .failed prev a pt pt' m fs hfind hpt hpages
  | true =>
    obtain ⟨k', hres, h⟩ := bind_eq_ok.mp h
    cases h
    exact .done prev a pt pt' m fs k' hfind hpt hpages (munmapResize_ok hres)

theorem sameLists_afterPages (k : Kernel) (i : Nat) (pt : PageTable) (m : Mem) (fs : Fs) :
    SameLists k (afterPages k i pt m fs) := by
  have h := sameLists_setProc k i { k.proc i with pagetable := some pt } rfl rfl
  exact ⟨h.vmas, h.head, h.nvma⟩

end Xv6Mmap

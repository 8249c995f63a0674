import Xv6Mmap.Lemmas.Held
import Xv6Mmap.Theorems.VmaLists
import Xv6Mmap.Theorems.FileRefs

/-!
# What a mapping grants

`mmap` looks at the file behind its descriptor only when the mapping is shared, and then only at whether it can be read and written:
a private mapping is made over a file of any type, opened in any way, and a descriptor that is not open is read through. In a run of
calls that keep to their descriptor (`MmapCond`) every VMA is over an open, readable file with an inode in the inode table.
-/

namespace Xv6Mmap

/-! ## One call -/

/-- What a mapping asks of its file. -/
structure Backs (file : File) (prot flag : Nat) : Prop where
  type : file.type = .inode
  readable : file.readable = true
  writable : flag = mapShared → hasFlag prot protWrite = true → file.writable = true

/-- The call returns, and it fails or makes a VMA over the open file behind the descriptor, which backs it. -/
def MmapGrants (k : Kernel) (i length prot flag fd : Nat) : Prop :=
  ∃ r k', mmap k i length prot flag fd = .ok (r, k') ∧
    (r = minusOne ∧ k'.vmas = k.vmas ∨
      ∃ n f, (k.vmas n).use = false ∧ (k'.vmas n).use = true ∧ (k'.vmas n).addri = r ∧ (k'.vmas n).ofile = some f ∧
        (k.proc i).ofile fd = some f ∧ Backs (k.ftable f) (k'.vmas n).prot (k'.vmas n).flag)

/-- The address that a VMA after `q` must not pass: where the next one starts, or the end of the area. -/
def limitAfter (V : Nat → Vma) (q : Nat) : Nat :=
  match (V q).next with
  | none => topAddress
  | some a => (V a).addri

/-- `psize` bytes fit after `q`. -/
def FitsAfter (V : Nat → Vma) (psize q : Nat) : Prop := ((V q).addre + psize) % 2 ^ 64 ≤ limitAfter V q

/-- The process may have one VMA more, a slot for it is free, and so is a place in its list. -/
structure HasRoom (k : Kernel) (i length : Nat) : Prop where
  count : (k.proc i).nvma ≠ maxVmas
  slot : ∃ c < vmasStored, (k.vmas c).use = false
  place : (k.proc i).vmas = none ∧ (startAddress + pgRoundUp length) % 2 ^ 64 ≤ topAddress ∨
    ∃ j < maxVmas, ∃ q, Chain.follow (fun a => (k.vmas a).next) j (k.proc i).vmas = some q ∧
      FitsAfter k.vmas (pgRoundUp length) q

/-- The calls that keep to their descriptor. A shared mapping needs one that is open, and is refused when the file cannot be read and
written. Otherwise the lock of the process is free, and there is no room or the descriptor is a readable inode. -/
def MmapCond (k : Kernel) (i length flag fd : Nat) : Prop :=
  (flag = mapShared → (k.proc i).ofile fd ≠ none) ∧
    ((flag = mapShared ∧ ∃ f, (k.proc i).ofile fd = some f ∧ ¬((k.ftable f).readable = true ∧ (k.ftable f).writable = true)) ∨
      (k.proc i).lock = false ∧ (¬HasRoom k i length ∨
        ∃ f, (k.proc i).ofile fd = some f ∧ (k.ftable f).type = .inode ∧ (k.ftable f).readable = true))

theorem follow_none {α : Type} (next : α → Option α) (j : Nat) : Chain.follow next j none = none := by
  cases j <;> rfl

/-- The search behind a VMA finds a place when there is one behind it or behind one of those that follow. -/
theorem findSpot_behind (V : Nat → Vma) (psize r q : Nat) : (∃ prev next, findSpot V psize r (some q) (V q).next = .found prev next) ↔
      ∃ j < r, ∃ x, Chain.follow (fun a => (V a).next) j (some q) = some x ∧ FitsAfter V psize x := by
  induction r generalizing q with
  | zero => simp [findSpot]
  | succ r ih =>
    -- the place is behind `q` itself, or further on
    have hsplit : (∃ j < r + 1, ∃ x, Chain.follow (fun a => (V a).next) j (some q) = some x ∧ FitsAfter V psize x) ↔
        FitsAfter V psize q ∨
          ∃ j < r, ∃ x, Chain.follow (fun a => (V a).next) j (V q).next = some x ∧ FitsAfter V psize x := by
      constructor
      · rintro ⟨j, hj, x, hx, hfit⟩
        cases j with
        | zero =>
          cases hx
          exact Or.inl hfit
        | succ j => exact Or.inr ⟨j, by omega, x, hx, hfit⟩
      · rintro (hfit | ⟨j, hj, x, hx, hfit⟩)
        · exact ⟨0, by omega, q, rfl, hfit⟩
        · exact ⟨j + 1, by omega, x, hx, hfit⟩
    rw [hsplit]
    cases hn : (V q).next with
    | none =>
      simp only [findSpot, FitsAfter, limitAfter, hn, follow_none]
      split_ifs with hlt
      · simp only [exists_false, false_iff]
        rintro (hle | ⟨_, _, _, hx, _⟩)
        · omega
        · cases hx
      · simp only [Spot.found.injEq, exists_and_left, exists_eq', and_true, true_iff]
        exact Or.inl (by omega)
    | some a =>
      simp only [findSpot]
      split_ifs with hle
      · simp only [Spot.found.injEq, exists_and_left, exists_eq', and_true, true_iff]
        exact Or.inl (by simpa only [FitsAfter, limitAfter, hn] using hle)
      · rw [ih a]
        have hnot : ¬FitsAfter V psize q := by simpa only [FitsAfter, limitAfter, hn] using hle
        simp [hnot]

/-- The search of `mmap` finds a place when there is one. -/
theorem findSpot_place (V : Nat → Vma) (psize : Nat) (head : Option Nat) :
    (∃ prev next, findSpot V psize (maxVmas + 1) none head = .found prev next) ↔
      (head = none ∧ (startAddress + psize) % 2 ^ 64 ≤ topAddress ∨
        ∃ j < maxVmas, ∃ q, Chain.follow (fun a => (V a).next) j head = some q ∧ FitsAfter V psize q) := by
  cases head with
  | none =>
    simp only [findSpot, follow_none]
    split_ifs with hlt
    · simp only [exists_false, false_iff]
      rintro (⟨_, hle⟩ | ⟨_, _, _, hx, _⟩)
      · omega
      · cases hx
    · simp only [Spot.found.injEq, exists_and_left, exists_eq', and_true, true_iff]
      exact Or.inl ⟨trivial, by omega⟩
  | some a =>
    simp only [findSpot, reduceCtorEq, false_and, false_or]
    exact findSpot_behind V psize maxVmas a

theorem findVma_none_iff (V : Nat → Vma) : findVma V = none ↔ ¬∃ c < vmasStored, (V c).use = false := by
  constructor
  · rintro h ⟨c, hc, hu⟩
    have := firstSlot_none h hc
    rw [hu] at this
    cases this
  · intro h
    cases hv : findVma V with
    | none => rfl
    | some n => exact absurd ⟨n, (findVma_some hv).1, (findVma_some hv).2⟩ h

section Call

variable {k : Kernel} {i length prot flag fd : Nat}

/-- A call that returned `-1` and made no VMA. -/
theorem grants_of_failed {k' : Kernel} (h : mmap k i length prot flag fd = .ok (minusOne, k')) (hv : k'.vmas = k.vmas) :
    MmapGrants k i length prot flag fd := ⟨minusOne, k', h, Or.inl ⟨rfl, hv⟩⟩

theorem not_grants_of_error {e : Panic} (h : mmap k i length prot flag fd = .error e) : ¬MmapGrants k i length prot flag fd := by
  rintro ⟨r, k', h', -⟩
  rw [h] at h'
  cases h'

/-- A call that made a VMA grants no more than its descriptor when the file is a readable inode. -/
theorem grants_of_mapped {f n : Nat} {prev next : Option Nat} (hf : (k.proc i).ofile fd = some f)
    (hn : findVma k.vmas = some n) (hmay : flag = mapShared → (k.ftable f).writable = true)
    (h : mmap k i length prot flag fd = .ok (spotStart k.vmas prev, allocated k i length prot flag f n prev next)) :
    MmapGrants k i length prot flag fd ↔ (k.ftable f).type = .inode ∧ (k.ftable f).readable = true := by
  have hfree := (findVma_some hn).2
  have hnew : (allocated k i length prot flag f n prev next).vmas n =
      { use := true, size := length, ofile := some f, addrinit := spotStart k.vmas prev, addri := spotStart k.vmas prev,
        addre := (spotStart k.vmas prev + pgRoundUp length) % 2 ^ 64, offset := 0, next := next, prot := prot,
        flag := flag } := linkVma_self k.vmas n prev _
  constructor
  · rintro ⟨r, k', h', hcase⟩
    rw [h] at h'
    cases h'
    rcases hcase with ⟨-, hv⟩ | ⟨_, f', -, -, -, -, hf', hb⟩
    · rw [hv] at hnew
      rw [hnew] at hfree
      cases hfree
    · rw [hf] at hf'
      cases hf'
      exact ⟨hb.type, hb.readable⟩
  · rintro ⟨ht, hr⟩
    refine ⟨_, _, h, Or.inr ⟨n, f, hfree, ?_, ?_, ?_, hf, ⟨ht, hr, ?_⟩⟩⟩
    · rw [hnew]
    · rw [hnew]
    · rw [hnew]
    · rw [hnew]
      exact fun hs _ => hmay hs

/-- Past its check for shared mappings, `mmap` keeps to the descriptor exactly when the lock is free, and there is no room or the file
is a readable inode. -/
theorem grants_iff_of_may
    (hmay : flag = mapShared → ∃ f, (k.proc i).ofile fd = some f ∧ (k.ftable f).readable = true ∧ (k.ftable f).writable = true) :
    MmapGrants k i length prot flag fd ↔ (k.proc i).lock = false ∧ (¬HasRoom k i length ∨
      ∃ f, (k.proc i).ofile fd = some f ∧ (k.ftable f).type = .inode ∧ (k.ftable f).readable = true) := by
  have hcheck : (if flag = mapShared then mayShare k ((k.proc i).ofile fd) else pure true) = (.ok true : Except Panic Bool) := by
    split_ifs with hs
    · obtain ⟨f, hf, hr, hw⟩ := hmay hs
      rw [hf, mayShare, hr, hw]
      rfl
    · rfl
  have hm := mmap.eq_1 k i length prot flag fd
  rw [hcheck, ok_bind] at hm
  cases hlock : (k.proc i).lock with
  | true =>
    rw [hlock] at hm
    exact ⟨fun h => absurd h (not_grants_of_error hm), fun h => by cases h.1⟩
  | false =>
    rw [hlock] at hm
    simp only [true_and]
    by_cases hcount : (k.proc i).nvma = maxVmas
    · rw [if_pos hcount] at hm
      exact ⟨fun _ => Or.inl fun hroom => hroom.count hcount, fun _ => grants_of_failed hm rfl⟩
    rw [if_neg hcount] at hm
    have hplace := findSpot_place k.vmas (pgRoundUp length) (k.proc i).vmas
    cases hspot : findSpot k.vmas (pgRoundUp length) (maxVmas + 1) none (k.proc i).vmas with
    | refused =>
      rw [hspot] at hm hplace
      refine ⟨fun _ => Or.inl fun hroom => ?_, fun _ => grants_of_failed hm rfl⟩
      obtain ⟨_, _, e⟩ := hplace.mpr hroom.place
      cases e
    | found prev next =>
      rw [hspot] at hm hplace
      have hpl := hplace.mp ⟨prev, next, rfl⟩
      cases hn : findVma k.vmas with
      | none =>
        rw [hn] at hm
        exact ⟨fun _ => Or.inl fun hroom => (findVma_none_iff k.vmas).mp hn hroom.slot, fun _ => grants_of_failed hm rfl⟩
      | some n =>
        rw [hn] at hm
        have hroom : HasRoom k i length := ⟨hcount, ⟨n, findVma_some hn⟩, hpl⟩
        cases hf : (k.proc i).ofile fd with
        | none =>
          rw [hf] at hm
          refine ⟨fun h => absurd h (not_grants_of_error hm), ?_⟩
          rintro (h | ⟨f, e, -⟩)
          · exact absurd hroom h
          · cases e
        | some f =>
          rw [hf] at hm
          rw [grants_of_mapped hf hn (fun hs => ?_) hm]
          · simp [hroom]
          · obtain ⟨f', e, -, hw⟩ := hmay hs
            rw [hf] at e
            cases e
            exact hw

theorem grants_iff : MmapGrants k i length prot flag fd ↔ MmapCond k i length flag fd := by
  unfold MmapCond
  by_cases hs : flag = mapShared
  · cases hf : (k.proc i).ofile fd with
    | none =>
      have hm : mmap k i length prot flag fd = .error .kerneltrap := by
        simp only [mmap, hs, hf, if_pos, mayShare]
        rfl
      exact ⟨fun h => absurd h (not_grants_of_error hm), fun h => absurd rfl (h.1 hs)⟩
    | some f =>
      by_cases hrw : (k.ftable f).readable = true ∧ (k.ftable f).writable = true
      · rw [grants_iff_of_may fun _ => ⟨f, hf, hrw⟩]
        simp [hs, hf, hrw]
      have hm : mmap k i length prot flag fd = .ok (minusOne, k) := by
        have hno : ((k.ftable f).readable && (k.ftable f).writable) = false := by
          simpa using hrw
        simp only [mmap, hs, hf, if_pos, mayShare, hno]
        rfl
      refine ⟨fun _ => ⟨fun _ => by simp, Or.inl ⟨hs, f, rfl, hrw⟩⟩, fun _ => grants_of_failed hm rfl⟩
  · rw [grants_iff_of_may fun h => absurd h hs]
    simp [hs]

end Call

/-! ## Runs -/

/-- The VMA in a slot is over a file with an inode, which backs it. -/
def SlotBacked (k : Kernel) (c : Nat) : Prop :=
  ∃ f, (k.vmas c).ofile = some f ∧ (k.ftable f).ip.isSome = true ∧ Backs (k.ftable f) (k.vmas c).prot (k.vmas c).flag

/-- So are all VMAs. -/
def MapsBacked (k : Kernel) : Prop := ∀ c < vmasStored, (k.vmas c).use = true → SlotBacked k c

/-- A `mmap` of the run keeps to its descriptor. -/
def MmapsOk (k : Kernel) (i : Nat) (ev : Event) : Prop :=
  ∀ length prot flag fd, ev = .mmap length prot flag fd → MmapArgs prot flag fd → MmapCond k i length flag fd

section Runs

variable {Λ : Layout} {io : Bool} {k k' : Kernel} {L : Nat → List Nat} {i : Nat} {ev : Event}
  {length : Nat} {r : Nat × Kernel} {L' : Nat → List Nat}

/-- A slot in use after the call was in use before it, with the same file, or is a copy of one that was. -/
def MapsKept (k k' : Kernel) : Prop :=
  ∀ d < vmasStored, (k'.vmas d).use = true → ∃ a < vmasStored, (k.vmas a).use = true ∧ SameMap (k.vmas a) (k'.vmas d)

theorem mapsKept_of_eq (hv : k'.vmas = k.vmas) : MapsKept k k' := by
  intro d hd hu
  rw [hv] at hu ⊢
  exact ⟨d, hd, hu, SameMap.refl _⟩

theorem mapsKept_of_same (h : ∀ d, (k'.vmas d).use = true → SameMap (k.vmas d) (k'.vmas d)) : MapsKept k k' :=
  fun d hd hu => ⟨d, hd, (h d hu).use.symm.trans hu, h d hu⟩

theorem munmap_mapsKept {addr : Nat} {r : Bool × Kernel} (hm : munmap Λ io k i addr length = .ok r) : MapsKept k r.2 := by
  have hrange : ∀ (a d : Nat) (v : Vma), SameMap (k.vmas a) v → SameMap (k.vmas d) (Function.update k.vmas a v d) := by
    intro a d v hv
    by_cases hd : d = a
    · subst hd
      simpa using hv
    · simpa [hd] using SameMap.refl _
  cases munmap_ok hm with
  | notFound _ | failed prev a pt pt' m fs _ _ _ => exact mapsKept_of_eq rfl
  | done prev a pt pt' m fs k' _ _ _ hres =>
    cases hres with
    | front _ _ hk | back _ _ hk =>
      subst hk
      exact mapsKept_of_same fun d _ => hrange a d _ ⟨rfl, rfl, rfl, rfl⟩
    | freed _ hk =>
      obtain ⟨f, V, -, -, hold, rfl⟩ := freeVma_ok hk
      refine mapsKept_of_same fun d hu => ?_
      by_cases hd : d = a
      · subst hd
        simp [Vma.clear] at hu
      · obtain ⟨n, e⟩ := hold d
        simp only [Function.update_of_ne hd, e]
        exact ⟨rfl, rfl, rfl, rfl⟩

theorem fork_mapsKept {r : Option Nat × Kernel} (h : Counted k L) (hrun : (k.proc i).Running) (hf : fork Λ k i = .ok r) :
    MapsKept k r.2 := by
  cases fork_ok hf with
  | noProc k1 hal => exact mapsKept_of_eq hal.sameLists.vmas
  | noMem np pt npt npt' m m' k1 c hal _ _ _ _ => exact mapsKept_of_eq hal.entry.2.2.2.2.2.2
  | copied np pt npt npt' m fs ofile k1 k2 k3 k4 k5 b r hal _ _ _ hk2 hdup _ hk4 hvmas hr =>
    obtain ⟨-, hunused, hother, -, -, -, hv⟩ := hal.entry
    have hne : i ≠ np := fun e => hrun.state.1 (e ▸ hunused)
    have hvm : k4.vmas = k.vmas := by
      rw [hk4, upd_vmas, (dupFiles_frame hdup).1.vmas, hk2, upd_vmas, hv]
    have hchain : Chain k4.links (k1.proc i).vmas (L i) := by
      rw [hother i hne, show k4.links = k.links from by unfold Kernel.links; rw [hvm]]
      exact h.lists.chains.chain i
    obtain ⟨hslots, -, -⟩ := forkVmas_source hvmas hchain (fun a ha => by rw [hvm]; exact (h.lists.used i a ha).2)
      fun q hq => (nomatch hq)
    have hkept : MapsKept k k5 := by
      intro d hd hu
      rw [hvm] at hslots
      rcases hslots d with hs | ⟨a, ha, hs⟩
      · exact ⟨d, hd, hs.use.symm.trans hu, hs⟩
      · obtain ⟨h1, h2⟩ := h.lists.used i a ha
        exact ⟨a, h1, h2, hs⟩
    rw [hr]
    split
    · exact hkept
    · exact hkept

/-- A slot that maps what another did before: the file has a reference before and after, so it is the same. -/
theorem SlotBacked.of_same {a d : Nat} (h : SlotBacked k a) (hc : Counted k L) (hc' : Counted k' L')
    (hfs : FileStep k k') (ha : a < vmasStored) (hua : (k.vmas a).use = true) (hd : d < vmasStored)
    (hud : (k'.vmas d).use = true) (hs : SameMap (k.vmas a) (k'.vmas d)) : SlotBacked k' d := by
  obtain ⟨f, hf, hip, hb⟩ := h
  have hfd : (k'.vmas d).ofile = some f := hs.ofile.trans hf
  have hkind := hfs.kept f (fun e => (hc.refs.unreferenced e).2 a ha hua hf) fun e => (hc'.refs.unreferenced e).2 d hd hud hfd
  refine ⟨f, hfd, by rw [hkind.ip]; exact hip, ?_⟩
  rw [hs.prot, hs.flag]
  exact ⟨hkind.type.trans hb.type, hkind.readable.trans hb.readable, fun h1 h2 => hkind.writable.trans (hb.writable h1 h2)⟩

theorem MapsBacked.of_kept (h : MapsBacked k) (hc : Counted k L) (hc' : Counted k' L')
    (hfs : FileStep k k') (hv : MapsKept k k') : MapsBacked k' := by
  intro d hd hu
  obtain ⟨a, ha, hua, hs⟩ := hv d hd hu
  exact (h a ha hua).of_same hc hc' hfs ha hua hd hu hs

/-- The invariant of runs of calls that keep to their descriptors. -/
structure Access (k : Kernel) : Prop where
  counted : ∃ L, Counted k L
  within : FilesIn k
  lost : ∀ j, 0 ≤ lostRefs k j
  files : ∀ f, (k.ftable f).ref ≠ 0 → (k.ftable f).HasInode
  maps : MapsBacked k

/-- The VMA that a `mmap` of a run makes is backed. -/
theorem MapsBacked.mmap {prot flag fd : Nat} (h : MapsBacked k)
    (hc : Counted k L) (hc' : Counted r.2 L') (hi : i < nproc) (hargs : MmapArgs prot flag fd)
    (hfiles : ∀ f, (k.ftable f).ref ≠ 0 → (k.ftable f).HasInode) (hcond : MmapCond k i length flag fd)
    (hm : mmap k i length prot flag fd = .ok r) : MapsBacked r.2 := by
  have htidy := mmap_tidy hc hi hargs.fd hm
  have hgrants : MmapGrants k i length prot flag fd := grants_iff.mpr hcond
  cases mmap_ok hm with
  | failed => exact h
  | stuck => exact h.of_kept hc hc' htidy.toFileMove.step (mapsKept_of_eq rfl)
  | mapped f n prev next hf hcount hspot hfree =>
    have hother : ∀ d, d ≠ n → SameMap (k.vmas d) ((allocated k i length prot flag f n prev next).vmas d) :=
      fun d hd => linkVma_sameMap k.vmas prev _ hd
    intro d hd hu
    by_cases hdn : d = n
    · -- the new slot: the condition says what its file is
      subst hdn
      obtain ⟨hlt, hfree'⟩ := findVma_some hfree
      have hpos : (k.ftable f).ref ≠ 0 := by
        have := hc.refs.fd_pos hi hargs.fd hf
        omega
      have hself' : (allocated k i length prot flag f d prev next).ftable f = { k.ftable f with ref := (k.ftable f).ref + 1 } := by
        simp [allocated]
      obtain ⟨r', k1, h', hcase⟩ := hgrants
      rw [hm] at h'
      cases h'
      rcases hcase with ⟨-, hv⟩ | ⟨n', f', hn', hu', -, hof, hf', hb⟩
      · rw [hv, hfree'] at hu
        cases hu
      rw [hf] at hf'
      cases hf'
      have hnn : n' = d := by
        by_contra hne
        rw [(hother n' hne).use, hn'] at hu'
        cases hu'
      subst hnn
      refine ⟨f, hof, ?_, ?_⟩
      · rw [hself']
        exact hfiles f hpos hb.type
      · rw [hself']
        exact ⟨hb.type, hb.readable, hb.writable⟩
    · have hu' : (k.vmas d).use = true := (hother d hdn).use.symm.trans hu
      exact (h d hd hu').of_same hc hc' htidy.toFileMove.step hd hu' hd hu (hother d hdn)

theorem mmapCond_trapEntry {flag fd : Nat} (pt : PageTable) (h : MmapCond k i length flag fd) :
    MmapCond (trapEntry k i pt) i length flag fd := by
  have hp : (trapEntry k i pt).proc i =
      { k.proc i with pagetable := some (pt.setPte trapframe (pt.pte trapframe ||| pteD)) } := by
    rw [trapEntry_eq, upd_self]
  have hroom : HasRoom (trapEntry k i pt) i length → HasRoom k i length := by
    rintro ⟨h1, h2, h3⟩
    rw [hp] at h1 h3
    exact ⟨h1, h2, h3⟩
  unfold MmapCond at h ⊢
  rw [hp]
  exact ⟨h.1, h.2.imp id fun ⟨h1, h2⟩ => ⟨h1, h2.imp (fun hn hr => hn (hroom hr)) id⟩⟩

/-- The VMAs after a step were there before it, unless the step is a `mmap` that passes the checks of `sys_mmap`. -/
theorem step_mapsKept (hc : Counted k L) (hs : step Λ io k i ev = .ok r) :
    MapsKept k r.2 ∨ ∃ pt length prot flag fd, ev = .mmap length prot flag fd ∧ MmapArgs prot flag fd ∧
      Counted (trapEntry k i pt) L ∧ mmap (trapEntry k i pt) i length prot flag fd = .ok r := by
  cases step_ok hs with
  | idle => exact Or.inl (mapsKept_of_eq rfl)
  | unmap status k' _ _ _ hk =>
    obtain ⟨a, ok, -, hm⟩ := exitUnmap_ok hk
    exact Or.inl (munmap_mapsKept hm)
  | done status k' _ _ _ hk => exact Or.inl (mapsKept_of_eq (exitDone_sameLists hk).vmas)
  | store va b pt _ _ => exact Or.inl (mapsKept_of_eq (sameLists_userStore pt va b).vmas)
  | trap pt r hu hk =>
    have hrun := inUser_running hu
    have hct : Counted (trapEntry k i pt) L := hc.upd (hrun.procOk_of rfl rfl) rfl rfl rfl
    have hrun' : ((trapEntry k i pt).proc i).Running := by
      rw [trapEntry_eq, upd_self]
      exact hrun.congr rfl rfl
    rcases trap_lists hk with hl | ⟨l, p, f, d, rfl⟩ | ⟨a, l, ok, hm⟩ | rfl
    · exact Or.inl (mapsKept_of_eq hl.vmas)
    · rcases sysMmap_args hk with rfl | ⟨hargs, hm⟩
      · exact Or.inl (mapsKept_of_eq rfl)
      · exact Or.inr ⟨pt, l, p, f, d, rfl, hargs, hct, hm⟩
    · exact Or.inl (munmap_mapsKept (k := trapEntry k i pt) hm)
    · obtain ⟨⟨pid, k'⟩, hf, hk⟩ := bind_eq_ok.mp hk
      cases hk
      exact Or.inl (fork_mapsKept (k := trapEntry k i pt) hct hrun' hf)

/-- Which VMAs a step leaves, in a run of calls that keep to their descriptors. -/
theorem Access.step_maps (h : Access k) (hc : Counted k L) (hc' : Counted r.2 L')
    (hi : i < nproc) (hev : MmapsOk k i ev) (hs : step Λ io k i ev = .ok r) : MapsBacked r.2 := by
  rcases step_mapsKept hc hs with hkept | ⟨pt, l, p, f, d, rfl, hargs, hct, hm⟩
  · exact h.maps.of_kept hc hc' (step_fileStep hc h.within hi hs) hkept
  · exact MapsBacked.mmap (k := trapEntry k i pt) h.maps hct hc' hi hargs h.files
      (mmapCond_trapEntry pt (hev l p f d rfl hargs)) hm

/-- The VMAs have files. -/
def MapsFiled (k : Kernel) : Prop := ∀ c < vmasStored, (k.vmas c).use = true → ∃ f, (k.vmas c).ofile = some f

theorem MapsFiled.step (h : MapsFiled k) (hc : Counted k L) (hs : step Λ io k i ev = .ok r) : MapsFiled r.2 := by
  rcases step_mapsKept hc hs with hkept | ⟨pt, l, p, fl, d, rfl, hargs, hct, hm⟩
  · intro c hcc hu
    obtain ⟨a, ha, hua, hsame⟩ := hkept c hcc hu
    obtain ⟨f, hf⟩ := h a ha hua
    exact ⟨f, hsame.ofile.trans hf⟩
  · cases mmap_ok hm with
    | failed | stuck => exact h
    | mapped f n prev next hf hcount hspot hfree =>
      intro c hcc hu
      by_cases hcn : c = n
      · subst hcn
        refine ⟨f, ?_⟩
        show (linkVma _ c prev _ c).ofile = some f
        rw [linkVma_self]
      · have hsame : SameMap (k.vmas c) ((allocated (trapEntry k i pt) i l p fl f n prev next).vmas c) :=
          linkVma_sameMap k.vmas prev _ hcn
        obtain ⟨g, hg⟩ := h c hcc (hsame.use.symm.trans hu)
        exact ⟨g, hsame.ofile.trans hg⟩

theorem reach_mapsFiled {P : Kernel → Nat → Event → Prop} {k0 : Kernel} (h0 : Booted Λ k0) (hrun : Reach Λ P k0 k) : MapsFiled k := by
  refine hrun.invariant (I := fun k => (∃ L, Counted k L) ∧ MapsFiled k) ⟨⟨_, h0.counted⟩, fun c _ hu => ?_⟩ ?_ |>.2
  · rw [h0.emptyLists.use] at hu
    cases hu
  · rintro k io i ev r k' ⟨⟨L, hc⟩, hf⟩ hi - hs
    exact ⟨(hc.step hi).of_ok hs, hf.step hc hs⟩

theorem Access.step (h : Access k) (hi : i < nproc) (hev : MmapsOk k i ev) (hs : step Λ io k i ev = .ok r) : Access r.2 := by
  obtain ⟨L, hc⟩ := h.counted
  obtain ⟨L', hc'⟩ := (hc.step hi).of_ok hs
  have hfs := step_fileStep hc h.within hi hs
  refine ⟨⟨L', hc'⟩, hfs.within h.within, fun j => (h.lost j).trans (hfs.lost j), fun f hf => ?_,
    h.step_maps hc hc' hi hev hs⟩
  by_cases hf0 : (k.ftable f).ref = 0
  · exact hfs.fresh f hf0 hf
  · exact (hfs.kept f hf0 hf).hasInode (h.files f hf0)

/-- A booted kernel: no file is open, and the one reference to an inode is the directory of the first process. -/
theorem Booted.lost (h : Booted Λ k) : lostRefs k = 0 := by
  obtain ⟨k0, hf, hk⟩ := h
  obtain ⟨j, tf, pt, pt', m1, m, m', cwd, fs, hj, -, -, -, -, hcwd, rfl⟩ := userinit_ok hk
  have hrefs : fs.refs = k0.fs.refs + oneOf cwd := (namei_refs true k0.fs none [slash]).of_ok hcwd
  have h0 : lostRefs k0 = 0 := by
    funext x
    have h1 : refsTo (Finset.range nfile) (fun f => (k0.ftable f).inode) x = 0 :=
      refsTo_eq_zero fun f _ => by simp [File.inode, (hf.ftable f).2]
    have h2 : refsTo (Finset.range nproc) (fun i => (k0.proc i).cwd) x = 0 := refsTo_eq_zero fun i _ => by simp [hf.proc]
    simp [lostRefs, heldRefs, h1, h2, Fs.refs, hf.itable]
  have ht : Tidy k0 (k0.upd j
      { k0.proc j with
        pid := k0.nextpid, trapframe := tf, pagetable := some pt', sz := pgSize, cwd := cwd, vmas := none, state := .runnable }
      m' fs) := by
    refine Tidy.chdir hj ?_
    rw [hrefs, hf.proc]
    exact (sub_zero _).symm
  exact (ht.lost.trans h0 :)

theorem Booted.noFile (h : Booted Λ k) (f : Nat) : (k.ftable f).ref = 0 ∧ (k.ftable f).type = .none := by
  obtain ⟨k0, hf, hk⟩ := h
  obtain ⟨j, tf, pt, pt', m1, m, m', cwd, fs, -, -, -, -, -, -, rfl⟩ := userinit_ok hk
  exact hf.ftable f

theorem Booted.access (h : Booted Λ k) : Access k where
  counted := ⟨_, h.counted⟩
  within := fun f _ => (h.noFile f).1
  lost := fun j => by rw [h.lost]; rfl
  files := fun f hf => absurd (h.noFile f).1 hf
  maps := fun c _ hu => by
    rw [h.emptyLists.use] at hu
    cases hu

theorem reach_access {k0 : Kernel} (h0 : Booted Λ k0) (hrun : Reach Λ MmapsOk k0 k) : Access k := by
  refine hrun.invariant h0.access ?_
  rintro k io i ev r k' h hi hev hs
  exact h.step hi hev hs

end Runs

/-- For every state and all arguments that pass the checks of `sys_mmap`, `mmap` grants no more than its descriptor exactly under
`MmapCond`. In a run all of whose calls of `mmap` are such, every VMA is over an open file of type `FD_INODE` that was opened
readable, and writable too when the mapping is shared and may be written, and the inode that a page fault reads through is in the
inode table. -/
theorem mmap_grants (k : Kernel) :
    (∀ i length prot flag fd, MmapArgs prot flag fd →
      (MmapGrants k i length prot flag fd ↔ MmapCond k i length flag fd)) ∧
    ∀ Λ k₀, Booted Λ k₀ → Reach Λ MmapsOk k₀ k →
      (∀ c < vmasStored, (k.vmas c).use = true → ∃ f, (k.vmas c).ofile = some f ∧ 1 ≤ (k.ftable f).ref ∧
        Backs (k.ftable f) (k.vmas c).prot (k.vmas c).flag) ∧
      ∀ i va a, faultFind k.vmas va (k.proc i).nvma (k.proc i).vmas = .ok (some a) →
        ∃ f j, (k.vmas a).ofile = some f ∧ (k.ftable f).ip = some j ∧ 1 ≤ (k.fs.itable j).ref := by
  refine ⟨fun i length prot flag fd _ => grants_iff, fun Λ k₀ h0 hrun => ?_⟩
  have h := reach_access h0 hrun
  obtain ⟨L, hc⟩ := h.counted
  have hpos : ∀ c < vmasStored, (k.vmas c).use = true → ∀ f, (k.vmas c).ofile = some f → 1 ≤ (k.ftable f).ref := by
    intro c hlt hu f hf
    have : 0 < vmaRefs k f := refsTo_pos (Finset.mem_range.mpr hlt) (by rw [Vma.file, if_pos hu, hf])
    rw [hc.refs f]
    omega
  refine ⟨fun c hlt hu => ?_, fun i va a ha => ?_⟩
  · obtain ⟨f, hf, -, hb⟩ := h.maps c hlt hu
    exact ⟨f, hf, hpos c hlt hu f hf, hb⟩
  obtain ⟨l1, l2, hL, -⟩ := (faultFind_spec (k.proc i).nvma (hc.lists.chains.chain i)).of_ok ha
  obtain ⟨hlt, hu⟩ := hc.lists.used i a (by simp [hL])
  obtain ⟨f, hf, hip, hb⟩ := h.maps a hlt hu
  obtain ⟨j, hj⟩ := Option.isSome_iff_exists.mp hip
  have hin : f < nfile := by
    by_contra hge
    have h1 := h.within f (Nat.le_of_not_lt hge)
    have h2 := hpos a hlt hu f hf
    omega
  refine ⟨f, j, hf, hj, refs_pos_of_held h.lost hin ?_⟩
  unfold File.inode
  rw [hb.type, hj]

/-- A test that is enough for `MmapCond`: the descriptor is a readable inode, and the lock is free. -/
def mmapCheck (k : Kernel) (i : Nat) : Event → Bool
  | .mmap _ _ _ fd =>
    !(k.proc i).lock && match (k.proc i).ofile fd with
      | none => false
      | some f => (k.ftable f).type == .inode && (k.ftable f).readable
  | _ => true

theorem mmapsOk_of_check (k : Kernel) (i : Nat) (ev : Event) (h : mmapCheck k i ev = true) : MmapsOk k i ev := by
  rintro length prot flag fd rfl -
  simp only [mmapCheck, Bool.and_eq_true, Bool.not_eq_true'] at h
  obtain ⟨hlock, h⟩ := h
  cases hf : (k.proc i).ofile fd with
  | none => simp [hf] at h
  | some f =>
    simp only [hf, Bool.and_eq_true, beq_iff_eq] at h
    exact ⟨fun _ => by simp [hf], Or.inr ⟨hlock, Or.inr ⟨f, hf, h⟩⟩⟩

/-- A file opened for reading and writing, mapped shared, and a page of the mapping touched. -/
theorem mmap_grants_demo : ∃ k₀ k, Booted demoLayout k₀ ∧ Reach demoLayout MmapsOk k₀ k ∧ (k.vmas 0).use = true ∧
    (∃ f, (k.vmas 0).ofile = some f ∧ 1 ≤ (k.ftable f).ref ∧ Backs (k.ftable f) (k.vmas 0).prot (k.vmas 0).flag) ∧
    (MmapGrants k 0 4096 protRead mapPrivate 0 ↔ MmapCond k 0 4096 mapPrivate 0) := by
  obtain ⟨k₀, k, h0, hrun, ht⟩ := reach_demoRun (T := fun k => (k.vmas 0).use = true) 5000 mmapsOk_of_check
    [(0, .openPath demoPath oRdwr), (0, .mmap 8192 protReadWrite mapShared 0), (0, .fault startAddress .load)] (by decide +kernel)
  exact ⟨k₀, k, h0, hrun, ht, ((mmap_grants k).2 demoLayout k₀ h0 hrun).1 0 (by decide) ht,
    (mmap_grants k).1 0 4096 protRead mapPrivate 0 ⟨by decide, by decide, by decide⟩⟩

/-- A file opened for writing only is mapped for reading, and a descriptor that is not open is read through. -/
theorem mmap_writeOnly : ∃ k₀ k, Booted demoLayout k₀ ∧ Reach demoLayout (fun _ _ _ => True) k₀ k ∧
    (∃ f, (k.proc 0).ofile 0 = some f ∧ (k.ftable f).readable = false ∧ MmapArgs protRead mapPrivate 0 ∧
      ¬MmapGrants k 0 4096 protRead mapPrivate 0) ∧
    (k.proc 0).ofile 5 = none ∧ MmapArgs protRead mapPrivate 5 ∧ ¬MmapGrants k 0 4096 protRead mapPrivate 5 := by
  obtain ⟨k₀, k, h0, hrun, hfd, hread, hnone, hcount, hhead, hslot⟩ := reach_demoRun
    (T := fun k => (k.proc 0).ofile 0 = some 0 ∧ (k.ftable 0).readable = false ∧ (k.proc 0).ofile 5 = none ∧
      (k.proc 0).nvma = 0 ∧ (k.proc 0).vmas = none ∧ (k.vmas 0).use = false) 5000 always_of_check
    [(0, .openPath demoPath oWronly)] (by decide +kernel)
  have hroom : HasRoom k 0 4096 := ⟨by rw [hcount]; decide, ⟨0, by decide, hslot⟩, Or.inl ⟨hhead, by decide⟩⟩
  refine ⟨k₀, k, h0, hrun, ⟨0, hfd, hread, ⟨by decide, by decide, by decide⟩, fun hg => ?_⟩, hnone,
    ⟨by decide, by decide, by decide⟩, fun hg => ?_⟩
  · rcases (grants_iff.mp hg).2 with ⟨e, -⟩ | ⟨-, hno | ⟨f, hf, -, hr⟩⟩
    · cases e
    · exact hno hroom
    · rw [hfd] at hf
      cases hf
      rw [hread] at hr
      cases hr
  · rcases (grants_iff.mp hg).2 with ⟨e, -⟩ | ⟨-, hno | ⟨f, hf, -⟩⟩
    · cases e
    · exact hno hroom
    · rw [hnone] at hf
      cases hf

end Xv6Mmap

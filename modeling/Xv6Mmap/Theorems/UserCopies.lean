import Xv6Mmap.Lemmas.Copy
import Xv6Mmap.Boot

/-!
# `copyin` and `copyout` against the process's own accesses

The hardware faults a missing page in, looks at the permission bits and sets the dirty bit; `walkaddr` does none of this. So a copy
agrees with the loads or stores of the process exactly as long as the pages are resident, grant the access and, in a shared mapping
that is written, are dirty already; or up to an address that neither side can reach.
-/

namespace Xv6Mmap

/-! ## What the process may do -/

/-- The VMA of process `i` that a page fault at `a` finds. -/
def vmaAt (k : Kernel) (i a : Nat) : Option Nat :=
  match faultFind k.vmas a (k.proc i).nvma (k.proc i).vmas with
  | .ok v => v
  | .error _ => none

/-- Whether process `i` may make the access at `a`: by the PTE of a resident page, and by the VMA of a page still to be faulted in. -/
def mayAccess (k : Kernel) (i : Nat) (pt : PageTable) (a : Nat) (cause : Cause) : Bool :=
  if a < maxVa ∧ pt.mapped (pgRoundDown a) = true then permits pt a cause
  else
    match vmaAt k i a with
    | some v => cause.needs (k.vmas v).prot
    | none => false

/-- The address is in a shared VMA of process `i`. -/
def sharedAt (k : Kernel) (i a : Nat) : Bool :=
  match vmaAt k i a with
  | some v => decide ((k.vmas v).flag = mapShared)
  | none => false

/-- `copyin` of the range comes out like the loads of the process: each first part of the range is copied exactly when the process may
load it, and then with the bytes the process sees. -/
def LoadsAgree (k : Kernel) (i : Nat) (pt : PageTable) (dst : Nat → UInt8) (va len : Nat) : Prop :=
  ∀ n ≤ len,
    ((copyin pt k.mem.ram dst va n).1 = true ↔ ∀ x < n, mayAccess k i pt (va + x) .load = true) ∧
    ((copyin pt k.mem.ram dst va n).1 = true → ∀ x < n, (copyin pt k.mem.ram dst va n).2 x = userByte pt k.mem.ram (va + x))

/-- `copyout` to the range comes out like the stores of the process: each first part of the range is copied exactly when the process
may store there, with the same memory after it and, in a shared VMA, with the dirty bit that `munmap` looks for; and a copy that fails
leaves the memory as the stores up to an address the process may not store to. -/
def StoresAgree (k : Kernel) (i : Nat) (pt : PageTable) (src : Nat → UInt8) (va len : Nat) : Prop :=
  ∀ n ≤ len,
    ((copyout pt k.mem.ram va src n).1 = true ↔ ∀ x < n, mayAccess k i pt (va + x) .store = true) ∧
    ((copyout pt k.mem.ram va src n).1 = true → (copyout pt k.mem.ram va src n).2 = storeBytes pt k.mem.ram va src n ∧
      ∀ x < n, sharedAt k i (va + x) = true → hasFlag (pt.pte (pgRoundDown (va + x))) pteD = true) ∧
    ((copyout pt k.mem.ram va src n).1 = false →
      ∃ m < n, mayAccess k i pt (va + m) .store = false ∧ (copyout pt k.mem.ram va src n).2 = storeBytes pt k.mem.ram va src m)

/-! ## The condition -/

/-- The page of the address is the user's and grants a load. -/
def LoadSound (pt : PageTable) (a : Nat) : Prop := Walkable pt a ∧ permits pt a .load = true

/-- The page of the address is the user's, grants a store, and is dirty if it is shared. -/
def StoreSound (k : Kernel) (i : Nat) (pt : PageTable) (a : Nat) : Prop :=
  Walkable pt a ∧ permits pt a .store = true ∧ (sharedAt k i a = true → hasFlag (pt.pte (pgRoundDown a)) pteD = true)

/-- Neither the kernel nor the process gets at the address. -/
def Barred (k : Kernel) (i : Nat) (pt : PageTable) (cause : Cause) (a : Nat) : Prop :=
  ¬Walkable pt a ∧ mayAccess k i pt a cause = false

/-- The addresses of the range are sound, to its end or to a barred one. -/
def SoundUpTo (sound barred : Nat → Prop) (va len : Nat) : Prop :=
  ∀ m < len, (∀ x < m, sound (va + x)) → sound (va + m) ∨ barred (va + m)

/-- A first part of such a range: sound as a whole, or up to the first barred address. -/
theorem SoundUpTo.cases {sound barred : Nat → Prop} {va len n : Nat} (h : SoundUpTo sound barred va len) (hn : n ≤ len) :
    (∀ x < n, sound (va + x)) ∨ ∃ m < n, (∀ x < m, sound (va + x)) ∧ barred (va + m) := by
  induction n with
  | zero => exact Or.inl fun x hx => absurd hx (Nat.not_lt_zero x)
  | succ n ih =>
    rcases ih (by omega) with hall | ⟨m, hm, hall, hb⟩
    · rcases h n (by omega) hall with hs | hb
      · exact Or.inl (Nat.forall_lt_succ_right.mpr ⟨hall, hs⟩)
      · exact Or.inr ⟨n, by omega, hall, hb⟩
    · exact Or.inr ⟨m, by omega, hall, hb⟩

variable {k : Kernel} {i va len n : Nat} {pt : PageTable}

theorem walkable_resident {a : Nat} (h : Walkable pt a) : a < maxVa ∧ pt.mapped (pgRoundDown a) = true := by
  unfold Walkable walkaddr at h
  split_ifs at h with h1 h2 h3
  · exact absurd rfl h
  · exact absurd rfl h
  · exact absurd rfl h
  · exact absurd rfl h
  · refine ⟨?_, by simpa [PageTable.mapped] using h3⟩
    simp only [pgRoundDown, pgSize, maxVa] at *
    omega

/-- On a page the kernel finds, the process may do what the PTE grants. -/
theorem mayAccess_walkable {a : Nat} {cause : Cause} (h : Walkable pt a) : mayAccess k i pt a cause = permits pt a cause :=
  if_pos (walkable_resident h)

theorem copyin_ok (dst : Nat → UInt8) : (copyin pt k.mem.ram dst va n).1 = true ↔ ∀ x < n, Walkable pt (va + x) := by
  obtain ⟨m, hm, heq⟩ := copyin_reach dst va n
  rw [heq, decide_eq_true_eq]
  exact hm.eq_iff

theorem copyout_ok (src : Nat → UInt8) : (copyout pt k.mem.ram va src n).1 = true ↔ ∀ x < n, Walkable pt (va + x) := by
  obtain ⟨m, hm, heq⟩ := copyout_reach va src n
  rw [heq, decide_eq_true_eq]
  exact hm.eq_iff

/-- The step of both directions: agreement at the address after a walkable and granted range says that the page there is found exactly
when the access is granted. -/
theorem next_agrees {m : Nat} {cause : Cause} (hwalk : ∀ x < m, Walkable pt (va + x))
    (hmay : ∀ x < m, mayAccess k i pt (va + x) cause = true)
    (h : (∀ x < m + 1, Walkable pt (va + x)) ↔ ∀ x < m + 1, mayAccess k i pt (va + x) cause = true) :
    Walkable pt (va + m) ∧ permits pt (va + m) cause = true ∨ Barred k i pt cause (va + m) := by
  by_cases hw : Walkable pt (va + m)
  · have := h.mp (Nat.forall_lt_succ_right.mpr ⟨hwalk, hw⟩) m (by omega)
    rw [mayAccess_walkable hw] at this
    exact Or.inl ⟨hw, this⟩
  · refine Or.inr ⟨hw, ?_⟩
    by_contra hne
    have hgrant : mayAccess k i pt (va + m) cause = true := by simpa using hne
    exact hw (h.mpr (Nat.forall_lt_succ_right.mpr ⟨hmay, hgrant⟩) m (by omega))

/-- Up to a barred address the kernel and the process stop at the same place. -/
theorem stops_barred {m : Nat} {cause : Cause} (hm : m < n) (hb : Barred k i pt cause (va + m)) :
    (∀ x < n, Walkable pt (va + x)) ↔ ∀ x < n, mayAccess k i pt (va + x) cause = true := by
  refine ⟨fun h => absurd (h m hm) hb.1, fun h => ?_⟩
  have := h m hm
  rw [hb.2] at this
  cases this

theorem loadsAgree_iff (dst : Nat → UInt8) :
    LoadsAgree k i pt dst va len ↔ SoundUpTo (LoadSound pt) (Barred k i pt .load) va len := by
  constructor
  · intro h m hm hsound
    refine next_agrees (fun x hx => (hsound x hx).1) (fun x hx => ?_) ((copyin_ok dst).symm.trans (h (m + 1) hm).1)
    rw [mayAccess_walkable (hsound x hx).1]
    exact (hsound x hx).2
  · intro h n hn
    refine ⟨(copyin_ok dst).trans ?_, fun hok x hx => ?_⟩
    · rcases h.cases hn with hall | ⟨m, hm, -, hb⟩
      · refine ⟨fun _ x hx => ?_, fun _ x hx => (hall x hx).1⟩
        rw [mayAccess_walkable (hall x hx).1]
        exact (hall x hx).2
      · exact stops_barred hm hb
    · obtain ⟨m, hm, heq⟩ := copyin_reach dst va n
      rw [heq] at hok ⊢
      have hmn : m = n := of_decide_eq_true hok
      subst hmn
      exact if_pos hx

theorem storesAgree_iff (src : Nat → UInt8) :
    StoresAgree k i pt src va len ↔ SoundUpTo (StoreSound k i pt) (Barred k i pt .store) va len := by
  constructor
  · intro h m hm hsound
    obtain ⟨hok, hdirty, -⟩ := h (m + 1) hm
    have hnext := next_agrees (fun x hx => (hsound x hx).1)
      (fun x hx => (mayAccess_walkable (hsound x hx).1).trans (hsound x hx).2.1) ((copyout_ok src).symm.trans hok)
    rcases hnext with ⟨hw, hp⟩ | hb
    · have hall := (copyout_ok (k := k) src).mpr (Nat.forall_lt_succ_right.mpr ⟨fun x hx => (hsound x hx).1, hw⟩)
      exact Or.inl ⟨hw, hp, (hdirty hall).2 m (by omega)⟩
    · exact Or.inr hb
  · intro h n hn
    obtain ⟨m, hm, heq⟩ := copyout_reach va src n
    rcases h.cases hn with hall | ⟨b, hb, hbefore, hbar⟩
    · obtain rfl : m = n := hm.eq_iff.mpr fun x hx => (hall x hx).1
      have hok : (copyout pt k.mem.ram va src m).1 = true := by rw [heq, decide_eq_true rfl]
      refine ⟨⟨fun _ x hx => ?_, fun _ => hok⟩, fun _ => ⟨by rw [heq], fun x hx => (hall x hx).2.2⟩, fun hno => ?_⟩
      · rw [mayAccess_walkable (hall x hx).1]
        exact (hall x hx).2.1
      · rw [hok] at hno
        cases hno
    · -- the copy stops at the barred address
      have hmb : m = b := by
        rcases Nat.lt_trichotomy m b with hlt | he | hgt
        · exact absurd (hbefore m hlt).1 (hm.stop (by omega))
        · exact he
        · exact absurd (hm.all b hgt) hbar.1
      subst hmb
      have hno : (copyout pt k.mem.ram va src n).1 = false := by rw [heq, decide_eq_false (by omega)]
      refine ⟨(copyout_ok src).trans (stops_barred hb hbar), fun hok => ?_, fun _ => ⟨m, hb, hbar.2, by rw [heq]⟩⟩
      rw [hno] at hok
      cases hok

/-- For every state, process, page table and range: `copyin` agrees with the process's loads exactly when every address is on a page of
the user that grants a load, up to the end or to an address neither gets at; and `copyout` agrees with its stores exactly when every
address is on a page of the user that grants a store and that is dirty already if it is shared, in the same sense. -/
theorem user_copies_agree (k : Kernel) (i : Nat) (pt : PageTable) (va len : Nat) :
    (∀ dst, LoadsAgree k i pt dst va len ↔ SoundUpTo (LoadSound pt) (Barred k i pt .load) va len) ∧
    ∀ src, StoresAgree k i pt src va len ↔ SoundUpTo (StoreSound k i pt) (Barred k i pt .store) va len :=
  ⟨loadsAgree_iff, storesAgree_iff⟩

/-! ## Runs -/

/-- A run of the small system to a state in which the first process has a page table with the property. -/
theorem reach_demoTable {T : Kernel → PageTable → Prop} (evs : List (Nat × Event))
    (h : ∃ k, demoRun 4096 (fun _ _ _ => true) evs = some k ∧ ∃ pt, (k.proc 0).pagetable = some pt ∧ T k pt) :
    ∃ k₀ k pt, Booted demoLayout k₀ ∧ Reach demoLayout (fun _ _ _ => True) k₀ k ∧ (k.proc 0).pagetable = some pt ∧ T k pt := by
  obtain ⟨k₀, k, h0, hrun, pt, ht⟩ := reach_demoRun 4096 always_of_check evs h
  exact ⟨k₀, k, pt, h0, hrun, ht⟩

/-- A page of a shared mapping that the process has stored to: a copy to its first bytes agrees with the stores. -/
theorem user_copies_agree_dirty : ∃ k₀ k pt, Booted demoLayout k₀ ∧ Reach demoLayout (fun _ _ _ => True) k₀ k ∧
    (k.proc 0).pagetable = some pt ∧ StoresAgree k 0 pt (fun _ => 7) startAddress 1 := by
  obtain ⟨k₀, k, pt, h0, hrun, hpt, hwalk, hmay, hdirty⟩ := reach_demoTable
    (T := fun _ pt => Walkable pt startAddress ∧ permits pt startAddress .store = true ∧
      hasFlag (pt.pte (pgRoundDown startAddress)) pteD = true)
    [(0, .openPath demoPath oRdwr), (0, .mmap 4096 protReadWrite mapShared 0), (0, .fault startAddress .store),
      (0, .store startAddress 1)] (by decide +kernel)
  refine ⟨k₀, k, pt, h0, hrun, hpt, ((user_copies_agree k 0 pt startAddress 1).2 _).mpr fun m hm _ => ?_⟩
  obtain rfl : m = 0 := by omega
  exact Or.inl ⟨hwalk, hmay, fun _ => hdirty⟩

/-- A shared mapping that was not touched yet: both copies fail although the process may load and store. Touched by a load: `copyout`
succeeds and the page does not become dirty. A private mapping for reading, touched: `copyout` writes to it. -/
theorem user_copies_differ :
    (∃ k₀ k pt, Booted demoLayout k₀ ∧ Reach demoLayout (fun _ _ _ => True) k₀ k ∧ (k.proc 0).pagetable = some pt ∧
      mayAccess k 0 pt startAddress .load = true ∧ (copyin pt k.mem.ram (fun _ => 0) startAddress 1).1 = false ∧
      mayAccess k 0 pt startAddress .store = true ∧ (copyout pt k.mem.ram startAddress (fun _ => 7) 1).1 = false) ∧
    (∃ k₀ k pt, Booted demoLayout k₀ ∧ Reach demoLayout (fun _ _ _ => True) k₀ k ∧ (k.proc 0).pagetable = some pt ∧
      (copyout pt k.mem.ram startAddress (fun _ => 7) 1).1 = true ∧
      userByte pt (copyout pt k.mem.ram startAddress (fun _ => 7) 1).2 startAddress ≠ userByte pt k.mem.ram startAddress ∧
      sharedAt k 0 startAddress = true ∧ hasFlag (pt.pte startAddress) pteD = false) ∧
    ∃ k₀ k pt, Booted demoLayout k₀ ∧ Reach demoLayout (fun _ _ _ => True) k₀ k ∧ (k.proc 0).pagetable = some pt ∧
      mayAccess k 0 pt startAddress .store = false ∧ (copyout pt k.mem.ram startAddress (fun _ => 7) 1).1 = true ∧
      userByte pt (copyout pt k.mem.ram startAddress (fun _ => 7) 1).2 startAddress ≠ userByte pt k.mem.ram startAddress := by
  refine ⟨?_, ?_, ?_⟩
  · exact reach_demoTable [(0, .openPath demoPath oRdwr), (0, .mmap 4096 protReadWrite mapShared 0)] (by decide +kernel)
  · exact reach_demoTable [(0, .openPath demoPath oRdwr), (0, .mmap 4096 protReadWrite mapShared 0), (0, .fault startAddress .load)]
      (by decide +kernel)
  · exact reach_demoTable [(0, .openPath demoPath oRdwr), (0, .mmap 4096 protRead mapPrivate 0), (0, .fault startAddress .load)]
      (by decide +kernel)

end Xv6Mmap

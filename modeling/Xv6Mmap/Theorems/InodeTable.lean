import Xv6Mmap.Itable
import Xv6Mmap.Lemmas.Inodes

/-!
# One table entry for each inode

The counts of the table are the numbers of references held, over every interleaving of the critical sections. An entry with a
holder is never recycled, so two holders of one inode number hold the same entry.
-/

namespace Xv6Mmap

open Function Multiset

/-- How many references to entry `i` are held. -/
def ItableSys.holders (s : ItableSys) (i : Nat) : Nat := s.held.countP fun h => h.2 = i

/-- The table's counts are exact, its entries with references have different inodes, and a process that is freeing an inode
holds a reference to it. -/
structure ItableInv (s : ItableSys) : Prop where
  count : ∀ i, (s.fs.itable i).ref = s.holders i
  slot : ∀ h ∈ s.held, h.2 < ninode
  unique : ∀ i i', 0 < (s.fs.itable i).ref → 0 < (s.fs.itable i').ref → (s.fs.itable i).dev = (s.fs.itable i').dev →
    (s.fs.itable i).inum = (s.fs.itable i').inum → i = i'
  freeing : ∀ j i, s.freeing j = some i → (j, i) ∈ s.held

/-! ## What a critical section does -/

section Steps

variable {s : ItableSys} {j i : Nat}

theorem holders_cons (held : Multiset (Nat × Nat)) (h : Nat × Nat) (i : Nat) :
    ((h ::ₘ held).countP fun x => x.2 = i) = (held.countP fun x => x.2 = i) + if h.2 = i then 1 else 0 := by
  rw [countP_cons]

theorem holders_erase {held : Multiset (Nat × Nat)} {h : Nat × Nat} (hmem : h ∈ held) (i : Nat) :
    ((held.erase h).countP fun x => x.2 = i) + (if h.2 = i then 1 else 0) = held.countP fun x => x.2 = i := by
  rw [← holders_cons, cons_erase hmem]

theorem holders_pos (h : (j, i) ∈ s.held) : 0 < s.holders i :=
  countP_pos.mpr ⟨(j, i), h, rfl⟩

theorem ItableInv.ref_pos (hinv : ItableInv s) (h : (j, i) ∈ s.held) : 0 < (s.fs.itable i).ref := by
  have := holders_pos h
  rw [hinv.count i]
  omega

theorem mem_erase_of_freeing {j' i' : Nat} (hj : s.freeing j = none) (hj' : s.freeing j' = some i') (h : (j', i') ∈ s.held) :
    (j', i') ∈ s.held.erase (j, i) := by
  refine (mem_erase_of_ne fun e => ?_).mpr h
  cases e
  rw [hj] at hj'
  cases hj'

theorem ItableInv.more (hinv : ItableInv s) (j : Nat) (hi : i < ninode) (hpos : 0 < (s.fs.itable i).ref) :
    ItableInv { s with
      fs := s.fs.setInode i { s.fs.itable i with ref := (s.fs.itable i).ref + 1 }
      held := (j, i) ::ₘ s.held } where
  count := by
    intro i'
    have hc := hinv.count i'
    simp only [ItableSys.holders, holders_cons] at hc ⊢
    by_cases e : i' = i
    · subst e
      simp [Fs.setInode, hc]
    · simp [Fs.setInode, update_of_ne e, hc, Ne.symm e]
  slot := by
    intro h hh
    rcases mem_cons.mp hh with rfl | hh
    · exact hi
    · exact hinv.slot h hh
  unique := by
    -- counting up changes no identity and makes no entry used
    have hsame : ∀ i', ((update s.fs.itable i { s.fs.itable i with ref := (s.fs.itable i).ref + 1 }) i').dev =
        (s.fs.itable i').dev ∧ ((update s.fs.itable i { s.fs.itable i with ref := (s.fs.itable i).ref + 1 }) i').inum =
        (s.fs.itable i').inum ∧ (0 < ((update s.fs.itable i { s.fs.itable i with ref := (s.fs.itable i).ref + 1 }) i').ref →
        0 < (s.fs.itable i').ref) := by
      intro i'
      by_cases e : i' = i
      · subst e
        simpa using fun _ => hpos
      · simp [update_of_ne e]
    intro i1 i2 h1 h2 hd hn
    simp only [Fs.setInode] at h1 h2 hd hn
    rw [(hsame i1).1, (hsame i2).1] at hd
    rw [(hsame i1).2.1, (hsame i2).2.1] at hn
    exact hinv.unique i1 i2 ((hsame i1).2.2 h1) ((hsame i2).2.2 h2) hd hn
  freeing := fun j' i' h => mem_cons_of_mem (hinv.freeing j' i' h)

theorem ItableInv.recycle (hinv : ItableInv s) (j : Nat) {dev inum : Nat} (hi : i < ninode) (hfree : (s.fs.itable i).ref = 0)
    (hnone : ∀ i' < ninode, 0 < (s.fs.itable i').ref → ¬((s.fs.itable i').dev = dev ∧ (s.fs.itable i').inum = inum)) :
    ItableInv { s with
      fs := s.fs.setInode i { s.fs.itable i with dev := dev, inum := inum, ref := 1, valid := false }
      held := (j, i) ::ₘ s.held } where
  count := by
    intro i'
    have hc := hinv.count i'
    simp only [ItableSys.holders, holders_cons] at hc ⊢
    by_cases e : i' = i
    · subst e
      rw [hfree] at hc
      simp [Fs.setInode, ← hc]
    · simp [Fs.setInode, update_of_ne e, hc, Ne.symm e]
  slot := by
    intro h hh
    rcases mem_cons.mp hh with rfl | hh
    · exact hi
    · exact hinv.slot h hh
  unique := by
    -- an entry with references has a holder, so it is one of the table
    have hlt : ∀ i', 0 < (s.fs.itable i').ref → i' < ninode := by
      intro i' hpos
      rw [hinv.count i'] at hpos
      obtain ⟨h, hh, rfl⟩ := countP_pos.mp (Int.natCast_pos.mp hpos)
      exact hinv.slot h hh
    intro i1 i2 h1 h2 hd hn
    simp only [Fs.setInode] at h1 h2 hd hn
    by_cases e1 : i1 = i
    · by_cases e2 : i2 = i
      · rw [e1, e2]
      · subst e1
        rw [update_of_ne e2] at h2 hd hn
        rw [update_self] at hd hn
        exact absurd ⟨hd.symm, hn.symm⟩ (hnone i2 (hlt i2 h2) h2)
    · rw [update_of_ne e1] at h1 hd hn
      by_cases e2 : i2 = i
      · subst e2
        rw [update_self] at hd hn
        exact absurd ⟨hd, hn⟩ (hnone i1 (hlt i1 h1) h1)
      · rw [update_of_ne e2] at h2 hd hn
        exact hinv.unique i1 i2 h1 h2 hd hn
  freeing := fun j' i' h => mem_cons_of_mem (hinv.freeing j' i' h)

/-- A reference of `j` counted off, where every process that is freeing afterwards keeps its own. -/
theorem ItableInv.drop (hinv : ItableInv s) (hmem : (j, i) ∈ s.held) {freeing : Nat → Option Nat}
    (hfreeing : ∀ j' i', freeing j' = some i' → (j', i') ∈ s.held.erase (j, i)) :
    ItableInv ⟨iputDrop s.fs i, s.held.erase (j, i), freeing⟩ where
  count := by
    intro i'
    have hc := hinv.count i'
    have he := holders_erase hmem i'
    simp only [ItableSys.holders] at hc ⊢
    by_cases e : i' = i
    · subst e
      rw [if_pos rfl] at he
      simp only [iputDrop, Fs.setInode, update_self]
      omega
    · rw [if_neg (Ne.symm e)] at he
      simp only [iputDrop, Fs.setInode, update_of_ne e]
      omega
  slot := fun h hh => hinv.slot h (mem_of_mem_erase hh)
  unique := by
    have hsame : ∀ i', ((iputDrop s.fs i).itable i').dev = (s.fs.itable i').dev ∧
        ((iputDrop s.fs i).itable i').inum = (s.fs.itable i').inum ∧
        (0 < ((iputDrop s.fs i).itable i').ref → 0 < (s.fs.itable i').ref) := by
      intro i'
      by_cases e : i' = i
      · subst e
        refine ⟨by simp [iputDrop, Fs.setInode], by simp [iputDrop, Fs.setInode], fun h => ?_⟩
        simp only [iputDrop, Fs.setInode, update_self] at h
        omega
      · simp [iputDrop, Fs.setInode, update_of_ne e]
    intro i1 i2 h1 h2 hd hn
    rw [(hsame i1).1, (hsame i2).1] at hd
    rw [(hsame i1).2.1, (hsame i2).2.1] at hn
    exact hinv.unique i1 i2 ((hsame i1).2.2 h1) ((hsame i2).2.2 h2) hd hn
  freeing := hfreeing

theorem ItableInv.step {s' : ItableSys} (hinv : ItableInv s) (h : ItableStep s s') : ItableInv s' := by
  cases h with
  | @iget j _ _ _ _ _ hget =>
    obtain ⟨hi, ⟨hpos, -, -, rfl⟩ | ⟨hfree, hnone, rfl⟩⟩ := iget_cases hget
    · exact hinv.more j hi hpos
    · exact hinv.recycle j hi hfree hnone
  | @idup j i _ _ hmem hdup =>
    cases hdup
    exact hinv.more j (hinv.slot (j, i) hmem) (hinv.ref_pos hmem)
  | iput hj hmem _ => exact hinv.drop hmem fun j' i' h => mem_erase_of_freeing hj h (hinv.freeing j' i' h)
  | @iputBegin j i _ hmem _ =>
    refine ⟨hinv.count, hinv.slot, hinv.unique, fun j' i' h => ?_⟩
    dsimp only at h
    by_cases e : j' = j
    · subst e
      rw [update_self] at h
      cases h
      exact hmem
    · rw [update_of_ne e] at h
      exact hinv.freeing j' i' h
  | @iputEnd j i hfree =>
    refine hinv.drop (hinv.freeing j i hfree) fun j' i' h => ?_
    by_cases e : j' = j
    · subst e
      rw [update_self] at h
      cases h
    · rw [update_of_ne e] at h
      exact (mem_erase_of_ne fun e' => e (Prod.mk.inj e').1).mpr (hinv.freeing j' i' h)
  | @give j i j' hj hmem =>
    refine ⟨fun i' => ?_, fun h hh => ?_, hinv.unique, fun j1 i1 h => ?_⟩
    · rw [hinv.count i']
      have he := holders_erase hmem i'
      dsimp only at he
      simp only [ItableSys.holders, holders_cons]
      omega
    · rcases mem_cons.mp hh with rfl | hh
      · exact hinv.slot (j, i) hmem
      · exact hinv.slot h (mem_of_mem_erase hh)
    · exact mem_cons_of_mem (mem_erase_of_freeing hj h (hinv.freeing j1 i1 h))
  | @others fs hsame =>
    refine ⟨fun i => ?_, hinv.slot, fun i i' hi hi' hd hn => ?_, hinv.freeing⟩
    · rw [(hsame i).2.2]
      exact hinv.count i
    rw [(hsame i).2.2] at hi
    rw [(hsame i').2.2] at hi'
    rw [(hsame i).1, (hsame i').1] at hd
    rw [(hsame i).2.1, (hsame i').2.1] at hn
    exact hinv.unique i i' hi hi' hd hn

/-- A critical section gives an entry to another inode only when it has no references. -/
theorem ItableStep.recycled {s' : ItableSys} (h : ItableStep s s') (i : Nat)
    (hne : ((s'.fs.itable i).dev, (s'.fs.itable i).inum) ≠ ((s.fs.itable i).dev, (s.fs.itable i).inum)) :
    (s.fs.itable i).ref = 0 := by
  -- an entry that only its count changes in keeps its identity
  have hkeep : ∀ {i0 : Nat} (r : Int), ((s.fs.setInode i0 { s.fs.itable i0 with ref := r }).itable i).dev = (s.fs.itable i).dev ∧
      ((s.fs.setInode i0 { s.fs.itable i0 with ref := r }).itable i).inum = (s.fs.itable i).inum := by
    intro i0 r
    by_cases e : i = i0
    · subst e
      simp [Fs.setInode]
    · simp [Fs.setInode, update_of_ne e]
  cases h with
  | iget _ hget =>
    obtain ⟨-, ⟨-, -, -, rfl⟩ | ⟨hfree, -, rfl⟩⟩ := iget_cases hget
    · exact absurd (Prod.ext (hkeep _).1 (hkeep _).2) hne
    rename_i i0 _
    by_cases e : i = i0
    · rw [e]
      exact hfree
    · exact absurd (by simp [Fs.setInode, update_of_ne e]) hne
  | idup _ _ hdup =>
    cases hdup
    exact absurd (Prod.ext (hkeep _).1 (hkeep _).2) hne
  | iput _ _ _ | iputEnd _ => exact absurd (Prod.ext (hkeep _).1 (hkeep _).2) hne
  | iputBegin _ _ _ | give _ _ _ => exact absurd rfl hne
  | others hsame => exact absurd (Prod.ext (hsame i).1 (hsame i).2.1) hne

/-- The branch of `iput` is taken only for an entry whose one reference is the caller's. -/
theorem ItableInv.sole (hinv : ItableInv s) (hmem : (j, i) ∈ s.held) (hfrees : iputFrees s.fs i = true) :
    (s.held.filter fun h => h.2 = i) = {(j, i)} := by
  have href : (s.fs.itable i).ref = 1 := (of_decide_eq_true hfrees).1
  have hcount := hinv.count i
  rw [href, ItableSys.holders, countP_eq_card_filter] at hcount
  obtain ⟨h, hh⟩ := card_eq_one.mp (by exact_mod_cast hcount.symm)
  have hin : (j, i) ∈ s.held.filter fun h => h.2 = i := mem_filter.mpr ⟨hmem, rfl⟩
  rw [hh, mem_singleton] at hin
  rw [hh, hin]

end Steps

theorem ItableReach.inv {s : ItableSys} (h : ItableReach s) : ItableInv s := by
  induction h with
  | start h0 =>
    refine ⟨fun i => ?_, fun h hh => absurd hh (notMem_zero h), fun i _ hi => ?_, fun _ _ h => ?_⟩
    · simp [ItableSys.holders, h0 i]
    · simp [h0 i] at hi
    · cases h
  | step _ hs ih => exact ih.step hs

/-- Over any interleaving of the critical sections: entries with references have different inodes, every count is the number of
references held, an entry changes its inode only without references, the branch of `iput` is taken only by the holder of the sole
reference, and all holders of one inode share its entry. -/
theorem inode_table {s : ItableSys} (h : ItableReach s) :
    (∀ i i', 0 < (s.fs.itable i).ref → 0 < (s.fs.itable i').ref → (s.fs.itable i).dev = (s.fs.itable i').dev →
      (s.fs.itable i).inum = (s.fs.itable i').inum → i = i') ∧
    (∀ i, (s.fs.itable i).ref = s.holders i) ∧
    (∀ s', ItableStep s s' → ∀ i, ((s'.fs.itable i).dev, (s'.fs.itable i).inum) ≠ ((s.fs.itable i).dev, (s.fs.itable i).inum) →
      (s.fs.itable i).ref = 0) ∧
    (∀ j i, (j, i) ∈ s.held → iputFrees s.fs i = true → (s.held.filter fun h => h.2 = i) = {(j, i)}) ∧
    ∀ j i j' i', (j, i) ∈ s.held → (j', i') ∈ s.held → (s.fs.itable i).dev = (s.fs.itable i').dev →
      (s.fs.itable i).inum = (s.fs.itable i').inum → i = i' := by
  have hinv := h.inv
  refine ⟨hinv.unique, hinv.count, fun s' hs => hs.recycled, fun j i => hinv.sole, fun j i j' i' hi hi' => ?_⟩
  exact hinv.unique i i' (hinv.ref_pos hi) (hinv.ref_pos hi')

/-- While process 0 frees the inode of entry 0, process 1 looks the inode up: both hold the one entry. -/
theorem inode_table_window : ∃ s, ItableReach s ∧ s.freeing 0 = some 0 ∧ (0, 0) ∈ s.held ∧ (1, 0) ∈ s.held ∧
    (s.fs.itable 0).ref = s.holders 0 := by
  let fs (ref : Int) (valid : Bool) : Fs :=
    ⟨fun i => if i = 0 then ⟨1, 5, ref, valid, ⟨tFile, 0, 0, 0, 0⟩⟩ else ⟨0, 0, 0, false, ⟨0, 0, 0, 0, 0⟩⟩,
      fun _ _ => ⟨⟨tFile, 0, 0, 0, 0⟩, fun _ => 0⟩, 200⟩
  have h0 : ItableReach ⟨fs 0 false, 0, fun _ => none⟩ := .start fun i => by
    by_cases e : i = 0 <;> simp [fs, e]
  have h1 := h0.step (@ItableStep.iget _ 0 1 5 0 _ rfl rfl)
  have h2 := h1.step (@ItableStep.others _ (fs 1 true) fun i => by
    by_cases e : i = 0 <;> simp [fs, Fs.setInode, e])
  have hmem : (0, 0) ∈ (0, 0) ::ₘ (0 : Multiset (Nat × Nat)) := mem_cons_self ..
  have h3 := h2.step (.iputBegin (j := 0) (i := 0) rfl hmem (by decide))
  have h4 := h3.step (@ItableStep.iget _ 1 1 5 0 _ rfl rfl)
  have hmem' : (1, 0) ∈ (1, 0) ::ₘ (0, 0) ::ₘ (0 : Multiset (Nat × Nat)) := mem_cons_self ..
  exact ⟨_, h4, rfl, mem_cons_of_mem hmem, hmem', (inode_table h4).2.1 0⟩

end Xv6Mmap

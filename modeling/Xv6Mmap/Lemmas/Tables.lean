import Xv6Mmap.Vm

/-!
# What reading a page table sees after a change

The three changes a page table undergoes (a table page added at level 1 or level 0, a PTE written) against the three ways to read it
(`mid`, `low`, `leaf`), and from them the laws of `pte` and `setPte` by virtual address, which later proofs use.
-/

namespace Xv6Mmap

namespace PageTable

variable (pt : PageTable) {i va : Nat}

/-! ## Adding a table of level 1 -/

theorem sub_of_mid_none (h : pt.mid i = none) : pt.sub i = none := by
  simpa [mid] using h

theorem mid_addTable1 (i pg i' : Nat) : (pt.addTable1 i pg).mid i' = if i' = i then some pg else pt.mid i' := by
  by_cases hi : i' = i
  · subst hi
    simp [mid, addTable1]
  · simp [mid, addTable1, hi]

theorem low_addTable1 (h : pt.mid i = none) (pg i' j : Nat) : (pt.addTable1 i pg).low i' j = pt.low i' j := by
  by_cases hi : i' = i
  · subst hi
    simp [low, addTable1, pt.sub_of_mid_none h]
  · simp [low, addTable1, hi]

theorem leaf_addTable1 (h : pt.mid i = none) (pg i' j k : Nat) : (pt.addTable1 i pg).leaf i' j k = pt.leaf i' j k := by
  by_cases hi : i' = i
  · subst hi
    simp [leaf, addTable1, pt.sub_of_mid_none h]
  · simp [leaf, addTable1, hi]

/-! ## Adding a table of level 0 -/

theorem mid_addTable0 (i j pg i' : Nat) : (pt.addTable0 i j pg).mid i' = pt.mid i' := by
  by_cases hi : i' = i
  · subst hi
    cases hs : pt.sub i' <;> simp [mid, addTable0, hs]
  · simp [mid, addTable0, hi]

theorem low_addTable0 (h : (pt.mid i).isSome = true) (j pg i' j' : Nat) :
    (pt.addTable0 i j pg).low i' j' = if i' = i ∧ j' = j then some pg else pt.low i' j' := by
  by_cases hi : i' = i
  · subst hi
    cases hs : pt.sub i' with
    | none => simp [mid, hs] at h
    | some t =>
      by_cases hj : j' = j
      · subst hj
        simp [low, addTable0, hs]
      · simp [low, addTable0, hs, hj]
  · simp [low, addTable0, hi]

theorem leaf_addTable0 {j : Nat} (h : pt.low i j = none) (pg i' j' k : Nat) :
    (pt.addTable0 i j pg).leaf i' j' k = pt.leaf i' j' k := by
  by_cases hi : i' = i
  · subst hi
    cases hs : pt.sub i' with
    | none => simp [leaf, addTable0, hs]
    | some t =>
      have ht : t.sub j = none := by simpa [low, hs] using h
      by_cases hj : j' = j
      · subst hj
        simp [leaf, addTable0, hs, ht]
      · simp [leaf, addTable0, hs, hj]
  · simp [leaf, addTable0, hi]

/-! ## Writing a PTE -/

theorem mid_setLeaf (i j k x i' : Nat) : (pt.setLeaf i j k x).mid i' = pt.mid i' := by
  by_cases hi : i' = i
  · subst hi
    cases hs : pt.sub i' <;> simp [mid, setLeaf, hs]
  · simp [mid, setLeaf, hi]

theorem low_setLeaf (i j k x i' j' : Nat) : (pt.setLeaf i j k x).low i' j' = pt.low i' j' := by
  by_cases hi : i' = i
  · subst hi
    cases hs : pt.sub i' with
    | none => simp [low, setLeaf, hs]
    | some t =>
      by_cases hj : j' = j
      · subst hj
        cases ht : t.sub j' <;> simp [low, setLeaf, hs, ht]
      · simp [low, setLeaf, hs, hj]
  · simp [low, setLeaf, hi]

theorem leaf_setLeaf {j : Nat} (h : (pt.low i j).isSome = true) (k x i' j' k' : Nat) :
    (pt.setLeaf i j k x).leaf i' j' k' = if i' = i ∧ j' = j ∧ k' = k then x else pt.leaf i' j' k' := by
  by_cases hi : i' = i
  · subst hi
    cases hs : pt.sub i' with
    | none => simp [low, hs] at h
    | some t =>
      by_cases hj : j' = j
      · subst hj
        cases ht : t.sub j' with
        | none => simp [low, hs, ht] at h
        | some t0 =>
          by_cases hk : k' = k
          · subst hk
            simp [leaf, setLeaf, hs, ht]
          · simp [leaf, setLeaf, hs, ht, hk]
      · simp [leaf, setLeaf, hs, hj]
  · simp [leaf, setLeaf, hi]

@[simp] theorem page_setPte (va x : Nat) : (pt.setPte va x).page = pt.page := rfl

@[simp] theorem mid_setPte (va x i : Nat) : (pt.setPte va x).mid i = pt.mid i := pt.mid_setLeaf _ _ _ _ _

@[simp] theorem low_setPte (va x i j : Nat) : (pt.setPte va x).low i j = pt.low i j := pt.low_setLeaf _ _ _ _ _ _

theorem pte_setPte {a : Nat} (ht : pt.hasTable a = true) (ha : PageAddr a) (hv : PageAddr va) (x : Nat) :
    (pt.setPte a x).pte va = if va = a then x else pt.pte va := by
  rw [pte, setPte, pt.leaf_setLeaf ht]
  by_cases h : va = a
  · subst h
    simp
  · rw [if_neg h, if_neg]
    · rfl
    · rintro ⟨h2, h1, h0⟩
      exact h (px_inj hv ha h2 h1 h0)

theorem pte_of_not_hasTable (h : pt.hasTable va = false) : pt.pte va = 0 := by
  have hl : pt.low (px 2 va) (px 1 va) = none := by simpa [hasTable] using h
  unfold pte leaf
  cases hs : pt.sub (px 2 va) with
  | none => rfl
  | some t =>
    have ht : t.sub (px 1 va) = none := by simpa [low, hs] using hl
    simp [ht]

theorem hasTable_of_mapped (h : pt.mapped va = true) : pt.hasTable va = true := by
  cases ht : pt.hasTable va with
  | true => rfl
  | false =>
    rw [mapped, pt.pte_of_not_hasTable ht] at h
    simp [hasFlag] at h

end PageTable

/-! ## Tables that grew -/

/-- `pt'` is `pt` with table pages added: no PTE changed and no table went away. -/
structure Grown (pt pt' : PageTable) : Prop where
  page : pt'.page = pt.page
  pte : ∀ va, pt'.pte va = pt.pte va
  mid : ∀ i, (pt.mid i).isSome = true → pt'.mid i = pt.mid i
  low : ∀ i j, (pt.low i j).isSome = true → pt'.low i j = pt.low i j

theorem Grown.refl (pt : PageTable) : Grown pt pt :=
  ⟨rfl, fun _ => rfl, fun _ _ => rfl, fun _ _ _ => rfl⟩

theorem Grown.trans {pt pt' pt'' : PageTable} (h : Grown pt pt') (h' : Grown pt' pt'') : Grown pt pt'' := by
  refine ⟨h'.page.trans h.page, fun va => (h'.pte va).trans (h.pte va), fun i hi => ?_, fun i j hij => ?_⟩
  · rw [h'.mid i (by rw [h.mid i hi]; exact hi), h.mid i hi]
  · rw [h'.low i j (by rw [h.low i j hij]; exact hij), h.low i j hij]

theorem Grown.mapped {pt pt' : PageTable} (h : Grown pt pt') (va : Nat) : pt'.mapped va = pt.mapped va := by
  rw [PageTable.mapped, h.pte, PageTable.mapped]

theorem grown_addTable1 {pt : PageTable} {i : Nat} (h : pt.mid i = none) (pg : Nat) : Grown pt (pt.addTable1 i pg) := by
  refine ⟨rfl, fun va => pt.leaf_addTable1 h _ _ _ _, fun i' hi => ?_, fun i' j _ => pt.low_addTable1 h _ _ _⟩
  rw [pt.mid_addTable1, if_neg]
  rintro rfl
  rw [h] at hi
  cases hi

theorem grown_addTable0 {pt : PageTable} {i j : Nat} (hm : (pt.mid i).isSome = true) (h : pt.low i j = none) (pg : Nat) :
    Grown pt (pt.addTable0 i j pg) := by
  refine ⟨rfl, fun va => pt.leaf_addTable0 h _ _ _ _, fun i' _ => pt.mid_addTable0 _ _ _ _, fun i' j' hl => ?_⟩
  rw [pt.low_addTable0 hm, if_neg]
  rintro ⟨rfl, rfl⟩
  rw [h] at hl
  cases hl

end Xv6Mmap

import Xv6Mmap.VirtioDisk

/-!
# Descriptors

The allocation of three descriptors, the release of a chain, and the partition of the descriptors into the free ones and the chains.
-/

namespace Xv6Mmap

open Function List

namespace VirtDisk

variable {d₁ d₂ d : VirtDisk} {l : List Nat} {i : Nat}

/-- Only descriptors and the marks of the free ones differ. -/
structure SameRest (d d' : VirtDisk) : Prop where
  avail : d'.avail = d.avail
  used : d'.used = d.used
  info : d'.info = d.info

theorem SameRest.trans {d3 : VirtDisk} (h : SameRest d₁ d₂) (h' : SameRest d₂ d3) : SameRest d₁ d3 :=
  ⟨h'.avail.trans h.avail, h'.used.trans h.used, h'.info.trans h.info⟩

/-- The descriptors of the list, which were free, are taken. -/
structure Takes (d d' : VirtDisk) (l : List Nat) : Prop extends SameRest d d' where
  nodup : l.Nodup
  inside : ∀ i ∈ l, i < num ∧ d.free i = true
  free : ∀ i, d'.free i = if i ∈ l then false else d.free i
  desc : d'.desc = d.desc

/-- The descriptors of the list, which were taken, are given back. -/
structure Gives (d d' : VirtDisk) (l : List Nat) : Prop extends SameRest d d' where
  free : ∀ i, d'.free i = if i ∈ l then true else d.free i
  desc : ∀ i, i ∉ l → d'.desc i = d.desc i

theorem Takes.nil (d : VirtDisk) : Takes d d [] :=
  { avail := rfl, used := rfl, info := rfl, nodup := nodup_nil, inside := nofun, free := fun _ => rfl, desc := rfl }

theorem Gives.nil (d : VirtDisk) : Gives d d [] :=
  { avail := rfl, used := rfl, info := rfl, free := fun _ => rfl, desc := fun _ _ => rfl }

theorem Takes.alloc (h : Takes d d₁ l) (ha : d₁.allocDesc = some (d₂, i)) : Takes d d₂ (l ++ [i]) := by
  obtain ⟨i', hi, e⟩ := Option.map_eq_some_iff.mp ha
  cases e
  obtain ⟨hlt, hf⟩ := firstSlot_some hi
  rw [h.free] at hf
  split at hf
  · cases hf
  rename_i hnot
  refine { h.toSameRest.trans ⟨rfl, rfl, rfl⟩ with nodup := ?_, inside := ?_, free := fun k => ?_, desc := h.desc }
  · exact nodup_append.mpr ⟨h.nodup, nodup_singleton i, fun a ha b hb e => hnot (by simp_all)⟩
  · intro k hk
    rcases mem_append.mp hk with hk | hk
    · exact h.inside k hk
    · rw [mem_singleton.mp hk]
      exact ⟨hlt, hf⟩
  · show update d₁.free i false k = _
    by_cases e : k = i
    · rw [e, update_self, if_pos (mem_append_right _ (mem_singleton_self i))]
    · rw [update_of_ne e, h.free]
      simp [e]

theorem Gives.free_desc (h : Gives d d₁ l) (hi : i < num) (hf : d.free i = false)
    (hl : i ∉ l) : ∃ d₂, d₁.freeDesc i = .ok d₂ ∧ Gives d d₂ (l ++ [i]) := by
  have hf1 : d₁.free i = false := by rw [h.free, if_neg hl, hf]
  refine ⟨_, by simp only [freeDesc, if_neg (Nat.not_le.mpr hi), hf1, Bool.false_eq_true, if_false]; rfl, ?_⟩
  refine { h.toSameRest.trans ⟨rfl, rfl, rfl⟩ with free := fun k => ?_, desc := fun k hk => ?_ }
  · show update d₁.free i true k = _
    by_cases e : k = i
    · rw [e, update_self, if_pos (mem_append_right _ (mem_singleton_self i))]
    · rw [update_of_ne e, h.free]
      simp [e]
  · rw [mem_append, mem_singleton, not_or] at hk
    show update d₁.desc i _ k = _
    rw [update_of_ne hk.2, h.desc k hk.1]

/-- What was taken and given back is as before, free descriptors apart. -/
structure SameBusy (d d' : VirtDisk) : Prop extends SameRest d d' where
  free : d'.free = d.free
  desc : ∀ i, d.free i = false → d'.desc i = d.desc i

theorem Takes.gives (h : Takes d d₁ l) (h' : Gives d₁ d₂ l) : SameBusy d d₂ := by
  refine { h.toSameRest.trans h'.toSameRest with free := ?_, desc := fun i hi => ?_ }
  · funext i
    rw [h'.free, h.free]
    by_cases hm : i ∈ l
    · rw [if_pos hm, (h.inside i hm).2]
    · rw [if_neg hm, if_neg hm]
  · have hm : i ∉ l := by
      intro hm
      rw [(h.inside i hm).2] at hi
      cases hi
    rw [h'.desc i hm, h.desc]

theorem Takes.given (h : Takes d d₁ l) (hi : i ∈ l) : i < num ∧ d₁.free i = false :=
  ⟨(h.inside i hi).1, by rw [h.free, if_pos hi]⟩

theorem alloc3Desc_spec (d : VirtDisk) : (∃ d', d.alloc3Desc = .ok (d', none) ∧ SameBusy d d') ∨
      ∃ d' i0 i1 i2, d.alloc3Desc = .ok (d', some (i0, i1, i2)) ∧ Takes d d' [i0, i1, i2] := by
  unfold alloc3Desc
  have t0 := Takes.nil d
  cases h0 : d.allocDesc with
  | none => exact Or.inl ⟨d, rfl, t0.gives (.nil d)⟩
  | some p =>
    obtain ⟨d₁, i0⟩ := p
    have t1 := t0.alloc h0
    dsimp only
    cases h1 : d₁.allocDesc with
    | none =>
      obtain ⟨hi, hf⟩ := t1.given (mem_singleton_self i0)
      obtain ⟨e, he, g⟩ := (Gives.nil d₁).free_desc hi hf not_mem_nil
      rw [he]
      exact Or.inl ⟨e, rfl, t1.gives g⟩
    | some p =>
      obtain ⟨d₂, i1⟩ := p
      have t2 := t1.alloc h1
      dsimp only
      cases h2 : d₂.allocDesc with
      | none =>
        have hne : i1 ∉ [i0] := by
          have := t2.nodup
          simp only [nil_append, singleton_append, nodup_cons, mem_singleton] at this ⊢
          exact fun e => this.1 e.symm
        obtain ⟨hi0, hf0⟩ := t2.given (i := i0) (by simp)
        obtain ⟨hi1, hf1⟩ := t2.given (i := i1) (by simp)
        obtain ⟨e, he, g⟩ := (Gives.nil d₂).free_desc hi0 hf0 not_mem_nil
        obtain ⟨e', he', g'⟩ := g.free_desc hi1 hf1 hne
        rw [he]
        show (∃ d', (e.freeDesc i1 >>= fun d => pure (d, none)) = _ ∧ _) ∨ _
        rw [he']
        exact Or.inl ⟨e', rfl, t2.gives g'⟩
      | some p =>
        obtain ⟨d3, i2⟩ := p
        exact Or.inr ⟨d3, i0, i1, i2, rfl, t2.alloc h2⟩

/-- The three descriptors are linked into the chain of the request. -/
structure LinkedReq (d : VirtDisk) (r : DiskReq) : Prop where
  first : (d.desc r.i0).next = r.i1 ∧ (d.desc r.i0).flags &&& descNext ≠ 0
  second : (d.desc r.i1).next = r.i2 ∧ (d.desc r.i1).flags &&& descNext ≠ 0
  third : (d.desc r.i2).flags &&& descNext = 0
  data : (d.desc r.i1).addr = .data r.b
  status : (d.desc r.i2).addr = .status r.i0

theorem freeChainLoop_next {n : Nat} (h : d.freeDesc i = .ok d₁) (hf : (d.desc i).flags &&& descNext ≠ 0) :
    freeChainLoop (n + 1) d i = freeChainLoop n d₁ (d.desc i).next := by
  rw [freeChainLoop, h]
  exact if_pos hf

theorem freeChainLoop_last {n : Nat} (h : d.freeDesc i = .ok d₁) (hf : (d.desc i).flags &&& descNext = 0) :
    freeChainLoop (n + 1) d i = .ok d₁ := by
  rw [freeChainLoop, h]
  exact if_neg (not_not.mpr hf)

theorem freeChain_spec {r : DiskReq} (hl : d.LinkedReq r) (hn : r.idx.Nodup)
    (hin : ∀ i ∈ r.idx, i < num ∧ d.free i = false) : ∃ d', d.freeChain r.i0 = .ok d' ∧ Gives d d' r.idx := by
  have hne : r.i1 ∉ [r.i0] ∧ r.i2 ∉ [r.i0, r.i1] := by
    simp only [DiskReq.idx, nodup_cons, mem_cons, not_mem_nil, or_false, not_or] at hn ⊢
    exact ⟨fun e => hn.1.1 e.symm, fun e => hn.1.2 e.symm, fun e => hn.2.1 e.symm⟩
  obtain ⟨hi0, hf0⟩ := hin r.i0 (by simp [DiskReq.idx])
  obtain ⟨hi1, hf1⟩ := hin r.i1 (by simp [DiskReq.idx])
  obtain ⟨hi2, hf2⟩ := hin r.i2 (by simp [DiskReq.idx])
  obtain ⟨d₁, e1, g1⟩ := (Gives.nil d).free_desc hi0 hf0 not_mem_nil
  obtain ⟨d₂, e2, g2⟩ := g1.free_desc hi1 hf1 hne.1
  obtain ⟨d3, e3, g3⟩ := g2.free_desc hi2 hf2 hne.2
  -- each descriptor is read before it is given back
  have hd1 : d₁.desc r.i1 = d.desc r.i1 := g1.desc _ hne.1
  have hd2 : d₂.desc r.i2 = d.desc r.i2 := g2.desc _ hne.2
  refine ⟨d3, ?_, g3⟩
  rw [freeChain, freeChainLoop_next e1 hl.first.2, hl.first.1, freeChainLoop_next e2 (by rw [hd1]; exact hl.second.2), hd1,
    hl.second.1, freeChainLoop_last e3 (by rw [hd2]; exact hl.third)]

end VirtDisk

/-- Free descriptors and chains of requests make up all descriptors. -/
structure Partition (free : Nat → Bool) (req : Nat → Option DiskReq) : Prop where
  nodup : ∀ j r, req j = some r → r.idx.Nodup
  inside : ∀ j r, req j = some r → ∀ i ∈ r.idx, i < num ∧ free i = false
  apart : ∀ j j' r r', req j = some r → req j' = some r' → ∀ i ∈ r.idx, i ∈ r'.idx → j = j'
  taken : ∀ i, i < num → free i = false → ∃ j r, req j = some r ∧ i ∈ r.idx

namespace Partition

variable {free free' : Nat → Bool} {req : Nat → Option DiskReq} {j : Nat} {r : DiskReq}

theorem take (h : Partition free req) (hj : req j = none) (hn : r.idx.Nodup) (hin : ∀ i ∈ r.idx, i < num ∧ free i = true)
    (hfree : ∀ i, free' i = if i ∈ r.idx then false else free i) : Partition free' (update req j (some r)) := by
  have hold : ∀ k q, req k = some q → ∀ i ∈ q.idx, i ∉ r.idx := by
    intro k q hk i hi hr
    have := (h.inside k q hk i hi).2
    rw [(hin i hr).2] at this
    cases this
  have hcases : ∀ k q, update req j (some r) k = some q → k = j ∧ q = r ∨ k ≠ j ∧ req k = some q := by
    intro k q hk
    by_cases e : k = j
    · subst e
      rw [update_self] at hk
      exact Or.inl ⟨rfl, (Option.some.inj hk).symm⟩
    · rw [update_of_ne e] at hk
      exact Or.inr ⟨e, hk⟩
  refine ⟨fun k q hk => ?_, fun k q hk i hi => ?_, fun k k' q q' hk hk' i hi hi' => ?_, fun i hi hf => ?_⟩
  · obtain ⟨-, rfl⟩ | ⟨-, hk⟩ := hcases k q hk
    · exact hn
    · exact h.nodup k q hk
  · obtain ⟨-, rfl⟩ | ⟨-, hk⟩ := hcases k q hk
    · exact ⟨(hin i hi).1, by rw [hfree, if_pos hi]⟩
    · rw [hfree, if_neg (hold k q hk i hi)]
      exact h.inside k q hk i hi
  · obtain ⟨e1, e2⟩ | ⟨-, h1⟩ := hcases k q hk <;> obtain ⟨e3, e4⟩ | ⟨-, h2⟩ := hcases k' q' hk'
    · rw [e1, e3]
    · exact absurd (e2 ▸ hi) (hold k' q' h2 i hi')
    · exact absurd (e4 ▸ hi') (hold k q h1 i hi)
    · exact h.apart k k' q q' h1 h2 i hi hi'
  · rw [hfree] at hf
    split at hf
    · exact ⟨j, r, by rw [update_self], ‹_›⟩
    obtain ⟨k, q, hk, hm⟩ := h.taken i hi hf
    refine ⟨k, q, ?_, hm⟩
    rwa [update_of_ne]
    rintro rfl
    rw [hj] at hk
    cases hk

theorem give (h : Partition free req) (hj : req j = some r) (hfree : ∀ i, free' i = if i ∈ r.idx then true else free i) :
    Partition free' (update req j none) := by
  have hcases : ∀ k q, update req j none k = some q → k ≠ j ∧ req k = some q := by
    intro k q hk
    by_cases e : k = j
    · subst e
      rw [update_self] at hk
      cases hk
    · rw [update_of_ne e] at hk
      exact ⟨e, hk⟩
  refine ⟨fun k q hk => h.nodup k q (hcases k q hk).2, fun k q hk i hi => ?_, fun k k' q q' hk hk' i hi hi' => ?_, fun i hi hf => ?_⟩
  · obtain ⟨hne, hk⟩ := hcases k q hk
    have hr : i ∉ r.idx := fun hr => hne (h.apart k j q r hk hj i hi hr)
    rw [hfree, if_neg hr]
    exact h.inside k q hk i hi
  · exact h.apart k k' q q' (hcases k q hk).2 (hcases k' q' hk').2 i hi hi'
  · rw [hfree] at hf
    split at hf
    · cases hf
    rename_i hr
    obtain ⟨k, q, hk, hm⟩ := h.taken i hi hf
    refine ⟨k, q, ?_, hm⟩
    rwa [update_of_ne]
    rintro rfl
    rw [hj] at hk
    cases hk
    exact hr hm

end Partition

end Xv6Mmap

import Mathlib.Data.List.Nodup

/-!
# Doubly linked lists

A list with links in both directions that closes in a head node. `Linked next prev a l b` says that the nodes from `a` through `l` to
`b` are linked, each hop in both directions; a ring is such a list from its head back to it, with no node twice. A node is unlinked,
and a node is put in right after the head.
-/

namespace Xv6Mmap

open Function List

/-- From `a` through the nodes of `l` to `b`, every node points to the next and the next points back. -/
def Linked {α : Type} (next prev : α → α) : α → List α → α → Prop
  | a, [], b => next a = b ∧ prev b = a
  | a, c :: l, b => (next a = c ∧ prev c = a) ∧ Linked next prev c l b

/-- A list that starts and ends in its head and meets no node twice. -/
structure Ring {α : Type} (next prev : α → α) (head : α) (l : List α) : Prop where
  linked : Linked next prev head l head
  nodup : (head :: l).Nodup

section Linked

variable {α : Type} {next prev next' prev' : α → α} {a b c : α} {l l₁ l₂ : List α}

theorem linked_append : Linked next prev a (l₁ ++ c :: l₂) b ↔ Linked next prev a l₁ c ∧ Linked next prev c l₂ b := by
  induction l₁ generalizing a with
  | nil => exact Iff.rfl
  | cons d l₁ ih =>
    simp only [cons_append, Linked, ih]
    exact and_assoc.symm

/-- Read from the other end, the links change their roles. -/
theorem Linked.reverse (h : Linked next prev a l b) : Linked prev next b l.reverse a := by
  induction l generalizing a with
  | nil => exact ⟨h.2, h.1⟩
  | cons c l ih =>
    rw [reverse_cons]
    exact linked_append.mpr ⟨ih h.2, h.1.2, h.1.1⟩

/-- Only the links along the list matter. -/
theorem Linked.congr (h : Linked next prev a l b) (hn : ∀ x ∈ a :: l, next' x = next x)
    (hp : ∀ y ∈ l ++ [b], prev' y = prev y) : Linked next' prev' a l b := by
  induction l generalizing a with
  | nil =>
    obtain ⟨h1, h2⟩ := h
    exact ⟨(hn a mem_cons_self).trans h1, (hp b (by simp)).trans h2⟩
  | cons c l ih =>
    obtain ⟨⟨h1, h2⟩, h⟩ := h
    refine ⟨⟨(hn a mem_cons_self).trans h1, (hp c (by simp)).trans h2⟩, ?_⟩
    exact ih h (fun x hx => hn x (mem_cons_of_mem a hx)) fun y hy => hp y (mem_cons_of_mem c hy)

/-- The node before the end is the start or in the list. -/
theorem Linked.prev_mem (h : Linked next prev a l b) : prev b ∈ a :: l := by
  induction l generalizing a with
  | nil => simp [h.2]
  | cons c l ih => exact mem_cons_of_mem a (ih h.2)

/-- The node after the start is the end or in the list. -/
theorem Linked.next_mem (h : Linked next prev a l b) : next a ∈ l ++ [b] := by
  cases l with
  | nil => simp [h.1]
  | cons c l => simp [h.1.1]

section Edit

variable [DecidableEq α]

/-- The links around `b` joined past it, for the part of a list before `b` and the part after it. -/
theorem Linked.join {h : α} (h₁ : Linked next prev a l₁ b) (h₂ : Linked next prev b l₂ h)
    (hnd : (l₁ ++ l₂).Nodup) (ha : a ∉ l₁ ++ l₂) (hh : h ∉ l₁ ++ l₂) :
    Linked (update next (prev b) (next b)) (update prev (next b) (prev b)) a (l₁ ++ l₂) h := by
  induction l₁ generalizing a with
  | nil =>
    obtain ⟨-, hpb⟩ := h₁
    rw [hpb]
    cases l₂ with
    | nil =>
      obtain ⟨hnb, -⟩ := h₂
      rw [hnb]
      exact ⟨update_self .., update_self ..⟩
    | cons c v =>
      obtain ⟨⟨hnb, -⟩, hv⟩ := h₂
      rw [hnb]
      refine ⟨⟨update_self .., update_self ..⟩, hv.congr (fun x hx => ?_) fun y hy => ?_⟩
      · refine update_of_ne ?_ ..
        rintro rfl
        exact ha hx
      · refine update_of_ne ?_ ..
        rintro rfl
        rcases mem_append.mp hy with hy | hy
        · exact (nodup_cons.mp hnd).1 hy
        · rw [mem_singleton.mp hy] at hh
          exact hh mem_cons_self
  | cons c u ih =>
    obtain ⟨⟨h1, h2⟩, hu⟩ := h₁
    obtain ⟨hcnd, hnd'⟩ := nodup_cons.mp hnd
    have hrest := ih hu hnd' hcnd fun hm => hh (mem_cons_of_mem c hm)
    refine ⟨⟨?_, ?_⟩, hrest⟩
    · rw [update_of_ne]
      · exact h1
      · rintro rfl
        have hm := hu.prev_mem
        exact ha (mem_append_left l₂ hm)
    · rw [update_of_ne]
      · exact h2
      rintro rfl
      rcases mem_append.mp h₂.next_mem with hm | hm
      · exact hcnd (mem_append_right u hm)
      · rw [mem_singleton.mp hm] at hh
        exact hh mem_cons_self

variable {head : α}

theorem Ring.unlink (hr : Ring next prev head (l₁ ++ b :: l₂)) :
    Ring (update next (prev b) (next b)) (update prev (next b) (prev b)) head (l₁ ++ l₂) := by
  obtain ⟨hl, hnd⟩ := hr
  obtain ⟨h1, h2⟩ := linked_append.mp hl
  have hsub : (head :: (l₁ ++ l₂)).Nodup := by
    refine hnd.sublist (List.Sublist.cons_cons head ?_)
    exact (sublist_cons_self b l₂).append_left l₁
  obtain ⟨hhead, hnd'⟩ := nodup_cons.mp hsub
  exact ⟨h1.join h2 hnd' hhead hhead, hsub⟩

theorem Ring.push (hr : Ring next prev head l) (hb : b ∉ head :: l) : Ring (update (update next b (next head)) head b)
      (update (update prev b head) (next head) b) head (b :: l) := by
  obtain ⟨hl, hnd⟩ := hr
  have hbh : b ≠ head := by
    rintro rfl
    exact hb mem_cons_self
  have hbl : b ∉ l := fun hm => hb (mem_cons_of_mem head hm)
  have hbn : b ≠ next head := by
    rintro e
    rcases mem_append.mp (e ▸ hl.next_mem) with hm | hm
    · exact hbl hm
    · exact hbh (mem_singleton.mp hm)
  have hnd' : (head :: b :: l).Nodup := by
    obtain ⟨h1, h2⟩ := nodup_cons.mp hnd
    refine nodup_cons.mpr ⟨fun hm => ?_, nodup_cons.mpr ⟨hbl, h2⟩⟩
    rcases mem_cons.mp hm with e | hm
    · exact hbh e.symm
    · exact h1 hm
  refine ⟨⟨⟨update_self .., ?_⟩, ?_⟩, hnd'⟩
  · rw [update_of_ne hbn, update_self]
  cases l with
  | nil =>
    obtain ⟨h1, -⟩ := hl
    rw [h1]
    refine ⟨?_, update_self ..⟩
    rw [update_of_ne hbh, update_self]
  | cons c v =>
    obtain ⟨⟨h1, -⟩, hv⟩ := hl
    rw [h1]
    refine ⟨⟨?_, update_self ..⟩, hv.congr (fun x hx => ?_) fun y hy => ?_⟩
    · rw [update_of_ne hbh, update_self]
    · have hxh : x ≠ head := by
        rintro rfl
        exact (nodup_cons.mp hnd).1 hx
      have hxb : x ≠ b := by
        rintro rfl
        exact hbl hx
      rw [update_of_ne hxh, update_of_ne hxb]
    · have hyc : y ≠ c := by
        rintro rfl
        rcases mem_append.mp hy with hy | hy
        · exact (nodup_cons.mp (nodup_cons.mp hnd).2).1 hy
        · rw [mem_singleton.mp hy] at hnd
          exact (nodup_cons.mp hnd).1 mem_cons_self
      have hyb : y ≠ b := by
        rintro rfl
        rcases mem_append.mp hy with hy | hy
        · exact hbl (mem_cons_of_mem c hy)
        · exact hbh (mem_singleton.mp hy)
      rw [update_of_ne hyc, update_of_ne hyb]

end Edit

/-! ## Searching -/

/-- The first node from `b` on that passes the test, until the head is reached; `n` bounds the hops. -/
def findFrom [DecidableEq α] (next : α → α) (head : α) (p : α → Bool) : Nat → α → Option α
  | 0, _ => none
  | n + 1, b => if b = head then none else if p b then some b else findFrom next head p n (next b)

/-- A search from the node after `a` meets the nodes of the list in their order. -/
theorem Linked.findFrom_eq [DecidableEq α] {head : α} (h : Linked next prev a l head) (hh : head ∉ l) (p : α → Bool) {n : Nat}
    (hn : l.length < n) : findFrom next head p n (next a) = l.find? p := by
  induction l generalizing a n with
  | nil =>
    obtain ⟨n, rfl⟩ : ∃ m, n = m + 1 := ⟨n - 1, by omega⟩
    rw [h.1, findFrom, if_pos rfl]
    rfl
  | cons c l ih =>
    obtain ⟨n, rfl⟩ : ∃ m, n = m + 1 := ⟨n - 1, by omega⟩
    have hc : c ≠ head := by
      rintro rfl
      exact hh mem_cons_self
    rw [h.1.1, findFrom, if_neg hc]
    by_cases hp : p c = true
    · rw [if_pos hp, List.find?_cons_of_pos hp]
    · rw [if_neg hp, List.find?_cons_of_neg hp]
      exact ih h.2 (fun hm => hh (mem_cons_of_mem c hm)) (by simp only [length_cons] at hn; omega)

end Linked

end Xv6Mmap

import Mathlib.Data.List.Chain
import Mathlib.Data.List.Perm.Basic

/-!
# Circular lists

A list with one link in every node that closes in its head: in `Circ next head c` the nodes of `c`, of which the head is the first, are
linked in this order and the last points back to the head. A node is put in after another, and the node after one is taken out. A
search goes from any node around the list.
-/

namespace Xv6Mmap

open Function List

/-- The nodes of `c` from the head on, each pointing to the next and the last to the head, with no node twice. -/
structure Circ {α : Type} (next : α → α) (head : α) (c : List α) : Prop where
  first : c.head? = some head
  links : (c ++ [head]).IsChain fun a b => next a = b
  nodup : c.Nodup

/-- The first node from `p` on at which a search stops; `n` bounds the hops. -/
def seek {α : Type} (stop : α → Bool) (next : α → α) : Nat → α → Option α
  | 0, _ => none
  | n + 1, p => if stop p then some p else seek stop next n (next p)

section

variable {α : Type} {next next' : α → α} {head : α} {c : List α}

/-- Only the links of the nodes before the last matter. -/
theorem links_congr {l : List α} {b : α} (h : (l ++ [b]).IsChain fun a b => next a = b) (hn : ∀ a ∈ l, next' a = next a) :
    (l ++ [b]).IsChain fun a b => next' a = b := by
  induction l with
  | nil => exact isChain_singleton b
  | cons a l ih =>
    rw [cons_append, isChain_cons] at h ⊢
    refine ⟨fun y hy => ?_, ih h.2 fun x hx => hn x (mem_cons_of_mem a hx)⟩
    rw [hn a mem_cons_self]
    exact h.1 y hy

namespace Circ

variable {as bs : List α} {p u b : α}

theorem head_mem (h : Circ next head c) : head ∈ c := mem_of_mem_head? h.first

theorem congr (h : Circ next head c) (hn : ∀ a ∈ c, next' a = next a) : Circ next' head c :=
  ⟨h.first, links_congr h.links hn, h.nodup⟩

/-- The two parts of the list around a node. -/
theorem split (h : Circ next head (as ++ p :: bs)) :
    ((as ++ [p]).IsChain fun a b => next a = b) ∧ (p :: (bs ++ [head])).IsChain fun a b => next a = b := by
  have hl := h.links
  rw [append_assoc] at hl
  exact isChain_split.mp hl

theorem next_last (h : Circ next head (as ++ [p])) : next p = head := by
  have hl := h.split.2
  rw [nil_append, isChain_pair] at hl
  exact hl

theorem next_mid (h : Circ next head (as ++ p :: u :: bs)) : next p = u := by
  have hl := h.split.2
  rw [cons_append, isChain_cons_cons] at hl
  exact hl.1

theorem next_mem (h : Circ next head c) (hp : p ∈ c) : next p ∈ c := by
  obtain ⟨as, bs, rfl⟩ := append_of_mem hp
  cases bs with
  | nil =>
    rw [h.next_last]
    exact h.head_mem
  | cons u bs =>
    rw [h.next_mid]
    simp only [mem_append, mem_cons, true_or, or_true]

/-- A node that does not close the list stands right before the one it points to. -/
theorem before (h : Circ next head c) (hp : p ∈ c) (hu : next p = u) (hne : u ≠ head) : ∃ as bs, c = as ++ p :: u :: bs := by
  obtain ⟨as, bs, rfl⟩ := append_of_mem hp
  cases bs with
  | nil => exact absurd (hu.symm.trans h.next_last) hne
  | cons v bs =>
    obtain rfl : v = u := h.next_mid.symm.trans hu
    exact ⟨as, bs, rfl⟩

theorem first_of_split (h : Circ next head (as ++ p :: bs)) (bs' : List α) : (as ++ p :: bs').head? = some head := by
  have hf := h.first
  cases as with
  | nil | cons a as => exact hf

theorem not_mem_left (h : Circ next head (as ++ p :: bs)) : p ∉ as := fun hm =>
  (nodup_append.mp h.nodup).2.2 p hm p mem_cons_self rfl

theorem not_mem_right (h : Circ next head (as ++ p :: bs)) : p ∉ bs :=
  (nodup_cons.mp (nodup_append.mp h.nodup).2.1).1

section Edit

variable [DecidableEq α]

theorem update_of_not_mem (h : Circ next head c) (hb : b ∉ c) (v : α) : Circ (update next b v) head c := by
  refine h.congr fun a ha => update_of_ne ?_ ..
  rintro rfl
  exact hb ha

/-- `b` is put in after `p`: it points to what `p` pointed to. -/
theorem insert (h : Circ next head (as ++ p :: bs)) (hb : b ∉ as ++ p :: bs) :
    Circ (update (update next b (next p)) p b) head (as ++ p :: b :: bs) := by
  have hbp : b ≠ p := by
    rintro rfl
    exact hb (mem_append_right _ mem_cons_self)
  obtain ⟨hl, hr⟩ := h.split
  refine ⟨h.first_of_split _, ?_, ?_⟩
  · rw [append_assoc, cons_append]
    refine isChain_split.mpr ⟨links_congr hl fun a ha => ?_, ?_⟩
    · have hap : a ≠ p := by
        rintro rfl
        exact h.not_mem_left ha
      have hab : a ≠ b := by
        rintro rfl
        exact hb (mem_append_left _ ha)
      rw [update_of_ne hap, update_of_ne hab]
    · rw [isChain_cons] at hr
      refine isChain_cons_cons.mpr ⟨update_self .., isChain_cons.mpr ⟨fun y hy => ?_, ?_⟩⟩
      · rw [update_of_ne hbp, update_self]
        exact hr.1 y hy
      refine links_congr hr.2 fun a ha => ?_
      have hap : a ≠ p := by
        rintro rfl
        exact h.not_mem_right ha
      have hab : a ≠ b := by
        rintro rfl
        exact hb (mem_append_right _ (mem_cons_of_mem _ ha))
      rw [update_of_ne hap, update_of_ne hab]
  · have hperm : (as ++ p :: b :: bs).Perm (b :: (as ++ p :: bs)) :=
      (perm_append_left_iff as |>.mpr (List.Perm.swap b p bs)).trans perm_middle
    exact hperm.nodup_iff.mpr (nodup_cons.mpr ⟨hb, h.nodup⟩)

/-- The node after `p` is taken out. -/
theorem remove (h : Circ next head (as ++ p :: u :: bs)) : Circ (update next p (next u)) head (as ++ p :: bs) := by
  obtain ⟨hl, hr⟩ := h.split
  have hsub : (as ++ p :: bs).Sublist (as ++ p :: u :: bs) := ((sublist_cons_self u bs).cons_cons p).append_left as
  have hnd := h.nodup.sublist hsub
  refine ⟨h.first_of_split _, ?_, hnd⟩
  rw [append_assoc]
  have hpb : p ∉ bs := fun hm => h.not_mem_right (mem_cons_of_mem u hm)
  refine isChain_split.mpr ⟨links_congr hl fun a ha => ?_, ?_⟩
  · refine update_of_ne ?_ ..
    rintro rfl
    exact h.not_mem_left ha
  · rw [cons_append, isChain_cons_cons, isChain_cons] at hr
    refine isChain_cons.mpr ⟨fun y hy => ?_, links_congr hr.2.2 fun a ha => ?_⟩
    · rw [update_self]
      exact hr.2.1 y hy
    · refine update_of_ne ?_ ..
      rintro rfl
      exact hpb ha

end Edit

/-! ## Searching -/

theorem rotated_perm (as bs : List α) (p : α) : (p :: (bs ++ as)).Perm (as ++ p :: bs) := by
  rw [← cons_append]
  exact perm_append_comm

/-- Any node can be the head. -/
theorem rotate (h : Circ next head (as ++ p :: bs)) : Circ next p (p :: (bs ++ as)) := by
  obtain ⟨hl, hr⟩ := h.split
  have hnd : (p :: (bs ++ as)).Nodup := (rotated_perm as bs p).nodup_iff.mpr h.nodup
  refine ⟨rfl, ?_, hnd⟩
  have hf := h.first
  cases as with
  | nil =>
    obtain rfl : p = head := Option.some.inj hf
    rw [append_nil]
    exact hr
  | cons a as =>
    obtain rfl : a = head := Option.some.inj hf
    have he : p :: (bs ++ a :: as) ++ [p] = p :: bs ++ a :: (as ++ [p]) := by
      simp only [cons_append, append_assoc]
    rw [he]
    exact isChain_split.mpr ⟨hr, hl⟩

end Circ

/-- A search along linked nodes stops at the first that it can stop at. -/
theorem seek_eq_find {stop : α → Bool} {l : List α} {p : α} {n : Nat} (hl : l.IsChain fun a b => next a = b) (hp : l.head? = some p)
    (hs : ∃ q ∈ l, stop q = true) (hn : l.length ≤ n) : seek stop next n p = l.find? stop := by
  induction l generalizing p n with
  | nil => cases hp
  | cons a l ih =>
    obtain rfl : a = p := Option.some.inj hp
    obtain ⟨n, rfl⟩ : ∃ m, n = m + 1 := ⟨n - 1, by simp only [length_cons] at hn; omega⟩
    by_cases ha : stop a = true
    · rw [seek, if_pos ha, List.find?_cons_of_pos ha]
    rw [seek, if_neg ha, List.find?_cons_of_neg ha]
    rw [isChain_cons] at hl
    obtain ⟨q, hq, hqs⟩ := hs
    have hql : q ∈ l := by
      rcases mem_cons.mp hq with rfl | hql
      · exact absurd hqs ha
      · exact hql
    cases l with
    | nil => cases hql
    | cons b l =>
      rw [hl.1 b rfl]
      exact ih hl.2 rfl ⟨q, hql, hqs⟩ (Nat.le_of_succ_le_succ hn)

namespace Circ

/-- A search that can stop at a node of the list stops at one, wherever it starts. -/
theorem seek_stops (h : Circ next head c) {stop : α → Bool} {p q : α} {n : Nat} (hp : p ∈ c) (hq : q ∈ c) (hs : stop q = true)
    (hn : c.length ≤ n) : ∃ r ∈ c, stop r = true ∧ seek stop next n p = some r := by
  obtain ⟨as, bs, rfl⟩ := append_of_mem hp
  have hperm := rotated_perm as bs p
  have hlinks := (isChain_append.mp h.rotate.links).1
  have hq' := hperm.mem_iff.mpr hq
  rw [seek_eq_find hlinks rfl ⟨q, hq', hs⟩ (hperm.length_eq ▸ hn)]
  obtain ⟨r, hr⟩ := Option.isSome_iff_exists.mp (List.find?_isSome.mpr ⟨q, hq', hs⟩)
  exact ⟨r, hperm.mem_iff.mp (mem_of_find?_eq_some hr), List.find?_some hr, hr⟩

/-- A search from the node after `p` that can stop at `p` goes once around: if it stops at `p`, it could stop nowhere else. -/
theorem seek_round (h : Circ next head c) {stop : α → Bool} {p : α} {n : Nat} (hp : p ∈ c) (hs : stop p = true) (hn : c.length ≤ n) :
    ∃ r ∈ c, stop r = true ∧ seek stop next n (next p) = some r ∧ (r = p → ∀ x ∈ c, stop x = true → x = p) := by
  obtain ⟨as, bs, rfl⟩ := append_of_mem hp
  have hrot := h.rotate
  have hperm : (bs ++ as ++ [p]).Perm (as ++ p :: bs) :=
    (perm_append_singleton p _).trans (rotated_perm as bs p)
  have hlinks := hrot.links
  rw [cons_append, isChain_cons] at hlinks
  have hp' : p ∈ bs ++ as ++ [p] := mem_append_right _ mem_cons_self
  have hfirst : (bs ++ as ++ [p]).head? = some (next p) := by
    cases he : (bs ++ as ++ [p]).head? with
    | none =>
      rw [List.head?_eq_none_iff.mp he] at hp'
      cases hp'
    | some y => rw [hlinks.1 y he]
  rw [seek_eq_find hlinks.2 hfirst ⟨p, hp', hs⟩ (hperm.length_eq ▸ hn)]
  obtain ⟨r, hr⟩ := Option.isSome_iff_exists.mp (List.find?_isSome.mpr ⟨p, hp', hs⟩)
  refine ⟨r, hperm.mem_iff.mp (mem_of_find?_eq_some hr), List.find?_some hr, hr, ?_⟩
  rintro rfl x hx hxs
  -- all nodes but `p` come before it
  rw [List.find?_append] at hr
  cases hbefore : (bs ++ as).find? stop with
  | some y =>
    rw [hbefore] at hr
    obtain rfl : y = r := Option.some.inj hr
    exact absurd (mem_of_find?_eq_some hbefore) (nodup_cons.mp hrot.nodup).1
  | none =>
    rcases mem_append.mp (hperm.mem_iff.mpr hx) with hx | hx
    · exact absurd hxs (List.find?_eq_none.mp hbefore x hx)
    · exact mem_singleton.mp hx

end Circ

theorem seek_iterate {stop : α → Bool} {n : Nat} {p q : α} (h : seek stop next n p = some q) : ∃ k, next^[k] p = q := by
  induction n generalizing p with
  | zero => cases h
  | succ n ih =>
    rw [seek] at h
    split at h
    · exact ⟨0, Option.some.inj h⟩
    · obtain ⟨k, hk⟩ := ih h
      exact ⟨k + 1, hk⟩

/-- More hops do not change where a search stops. -/
theorem seek_mono {stop : α → Bool} {n m : Nat} {p q : α} (h : seek stop next n p = some q) (hm : n ≤ m) :
    seek stop next m p = some q := by
  induction n generalizing p m with
  | zero => cases h
  | succ n ih =>
    obtain ⟨m, rfl⟩ : ∃ k, m = k + 1 := ⟨m - 1, by omega⟩
    by_cases hs : stop p = true
    · rw [seek, if_pos hs] at h ⊢
      exact h
    · rw [seek, if_neg hs] at h ⊢
      exact ih h (by omega)

end

end Xv6Mmap

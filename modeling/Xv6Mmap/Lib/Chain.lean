import Mathlib.Logic.Function.Basic
import Mathlib.Data.List.Nodup

/-!
# Linked lists threaded through a table

A list of the C kind: a head and a `next` field in every node, the nodes being the slots of a table. `Chain next h l` says that
following `next` from `h` visits the slots `l`, in that order, and then stops. A finite chain never meets a slot twice
(`Chain.nodup`), so insertion and removal are updates of `next` at one or two slots.
-/

namespace Xv6Mmap

open Function List

/-- Following `next` from the head visits the slots of the list in order, and stops there. -/
inductive Chain {α : Type} (next : α → Option α) : Option α → List α → Prop where
  | nil : Chain next none []
  | cons {a : α} {l : List α} : Chain next (next a) l → Chain next (some a) (a :: l)

namespace Chain

variable {α : Type} {next next' : α → Option α} {h : Option α} {l l' : List α} {a b : α}

theorem nil_iff : Chain next h [] ↔ h = none := by
  constructor
  · intro hc
    cases hc
    rfl
  · rintro rfl
    exact Chain.nil

theorem cons_iff : Chain next h (a :: l) ↔ h = some a ∧ Chain next (next a) l := by
  constructor
  · intro hc
    cases hc with
    | cons hc => exact ⟨rfl, hc⟩
  · rintro ⟨rfl, hc⟩
    exact Chain.cons hc

/-- Whether a head starts a given chain can be tested. -/
instance decidable [DecidableEq α] : ∀ (h : Option α) (l : List α), Decidable (Chain next h l)
  | _, [] => decidable_of_iff _ nil_iff.symm
  | _, a :: l => @decidable_of_iff _ _ cons_iff.symm (@instDecidableAnd _ _ _ (decidable (next a) l))

/-- The head decides the list. -/
theorem unique (hc : Chain next h l) (hc' : Chain next h l') : l = l' := by
  induction hc generalizing l' with
  | nil => cases hc'; rfl
  | cons _ ih =>
    cases hc' with
    | cons hc' => rw [ih hc']

/-- The part of a chain that starts at one of its slots. -/
theorem drop_to {l₁ l₂ : List α} (hc : Chain next h (l₁ ++ a :: l₂)) : Chain next (some a) (a :: l₂) := by
  induction l₁ generalizing h with
  | nil =>
    obtain ⟨rfl, _⟩ := cons_iff.mp hc
    exact hc
  | cons b l₁ ih => exact ih (cons_iff.mp hc).2

/-- A chain meets no slot twice: a second visit would start the same, longer, chain. -/
theorem nodup (hc : Chain next h l) : l.Nodup := by
  induction hc with
  | nil => exact nodup_nil
  | @cons a l hc ih =>
    refine nodup_cons.mpr ⟨fun hm => ?_, ih⟩
    obtain ⟨l₁, l₂, rfl⟩ := append_of_mem hm
    have htail := (cons_iff.mp hc.drop_to).2
    have hlen := congrArg List.length (unique hc htail)
    simp only [length_append, length_cons] at hlen
    omega

/-- Only the links of the visited slots matter. -/
theorem congr (hc : Chain next h l) (hn : ∀ x ∈ l, next' x = next x) : Chain next' h l := by
  induction hc with
  | nil => exact Chain.nil
  | @cons a l _ ih =>
    refine Chain.cons ?_
    rw [hn a mem_cons_self]
    exact ih fun x hx => hn x (mem_cons_of_mem _ hx)

theorem head_eq (hc : Chain next h (a :: l)) : h = some a := (cons_iff.mp hc).1

theorem next_last {l₁ : List α} (hc : Chain next h (l₁ ++ [a])) : next a = none :=
  nil_iff.mp (cons_iff.mp hc.drop_to).2

/-- Following the links `i` times from the head. -/
def follow (next : α → Option α) : Nat → Option α → Option α
  | 0, h => h
  | i + 1, h => h.bind fun a => follow next i (next a)

/-- Following the links `i` times reaches the slot in place `i`. -/
theorem follow_eq (hc : Chain next h l) (i : Nat) : follow next i h = l[i]? := by
  induction hc generalizing i with
  | nil => cases i <;> rfl
  | @cons a l _ ih =>
    cases i with
    | zero => rfl
    | succ i => simpa [follow] using ih i

section Edit

variable [DecidableEq α] {l₁ l₂ : List α}

theorem update_of_not_mem (hc : Chain next h l) (ha : a ∉ l) (v : Option α) : Chain (update next a v) h l := by
  refine hc.congr fun x hx => ?_
  rw [update_of_ne]
  rintro rfl
  exact ha hx

theorem push (hc : Chain next h l) (ha : a ∉ l) : Chain (update next a h) (some a) (a :: l) := by
  refine Chain.cons ?_
  rw [update_self]
  exact hc.update_of_not_mem ha h

/-- A new link at the last slot before `l₂` sends the chain into the chain of the link. -/
theorem relink {v : Option α} (hc : Chain next h (l₁ ++ [b] ++ l')) (hb : b ∉ l₂)
    (hv : Chain next v l₂) : Chain (update next b v) h (l₁ ++ [b] ++ l₂) := by
  have hnd := hc.nodup
  induction l₁ generalizing h with
  | nil =>
    obtain ⟨rfl, _⟩ := cons_iff.mp hc
    refine Chain.cons ?_
    rw [update_self]
    exact hv.update_of_not_mem hb v
  | cons c l₁ ih =>
    obtain ⟨rfl, hc'⟩ := cons_iff.mp hc
    have hcb : c ≠ b := by
      rintro rfl
      simp at hnd
    refine Chain.cons ?_
    rw [update_of_ne hcb]
    exact ih hc' (nodup_cons.mp hnd).2

/-- A slot inserted after `b`: `b` points to it and it points to what `b` pointed to. -/
theorem insert_after (hc : Chain next h (l₁ ++ [b] ++ l₂)) (ha : a ∉ l₁ ++ [b] ++ l₂) :
    Chain (update (update next b (some a)) a (next b)) h (l₁ ++ [b] ++ a :: l₂) := by
  have hne : a ≠ b := by
    rintro rfl
    simp at ha
  have hba : b ∉ a :: l₂ := by
    have hnd := hc.nodup
    simp only [append_assoc, singleton_append] at hnd
    have := (nodup_append.mp hnd).2.1
    simp only [mem_cons, not_or]
    exact ⟨fun e => hne e.symm, (nodup_cons.mp this).1⟩
  have htail : Chain next (next b) l₂ := by
    rw [append_assoc] at hc
    exact (cons_iff.mp hc.drop_to).2
  have ha2 : a ∉ l₂ := fun hm => ha (by simp [hm])
  have hc' : Chain (update next a (next b)) h (l₁ ++ [b] ++ l₂) := hc.update_of_not_mem ha _
  rw [update_comm hne.symm]
  exact hc'.relink hba (htail.push ha2)

/-- A slot removed after `b`: `b` points to what the slot pointed to. -/
theorem remove_after (hc : Chain next h (l₁ ++ [b] ++ a :: l₂)) : Chain (update next b (next a)) h (l₁ ++ [b] ++ l₂) := by
  have htail : Chain next (next a) l₂ := (cons_iff.mp hc.drop_to).2
  refine hc.relink ?_ htail
  have hnd := hc.nodup
  simp only [append_assoc, singleton_append] at hnd
  have := (nodup_cons.mp (nodup_append.mp hnd).2.1).1
  exact fun hm => this (mem_cons_of_mem _ hm)

end Edit

end Chain

/-! ## Several chains in one table -/

/-- Chains that share a table of links, one for each index, with no slot in two of them. -/
structure Chains {ι α : Type} (next : α → Option α) (head : ι → Option α) (L : ι → List α) : Prop where
  chain : ∀ i, Chain next (head i) (L i)
  disj : ∀ i j a, a ∈ L i → a ∈ L j → i = j

namespace Chains

variable {ι α : Type} {next next' : α → Option α} {head : ι → Option α} {L : ι → List α} {i : ι} {a b : α} {l l₁ l₂ : List α}

/-- The chains depend only on the links of their slots. -/
theorem congr (h : Chains next head L) (hn : ∀ i, ∀ x ∈ L i, next' x = next x) : Chains next' head L :=
  ⟨fun i => (h.chain i).congr (hn i), h.disj⟩

variable [DecidableEq ι]

/-- Disjointness after one chain changed into a part of it and slots of no chain. -/
theorem disj_update (h : Chains next head L) (hl : ∀ x ∈ l, x ∈ L i ∨ ∀ j, x ∉ L j) :
    ∀ j k x, x ∈ update L i l j → x ∈ update L i l k → j = k := by
  intro j k x hj hk
  by_cases hji : j = i <;> by_cases hki : k = i
  · rw [hji, hki]
  · subst hji
    rw [update_self] at hj
    rw [update_of_ne hki] at hk
    rcases hl x hj with hx | hx
    · exact h.disj _ _ x hx hk
    · exact absurd hk (hx k)
  · subst hki
    rw [update_self] at hk
    rw [update_of_ne hji] at hj
    rcases hl x hk with hx | hx
    · exact h.disj _ _ x hj hx
    · exact absurd hj (hx j)
  · rw [update_of_ne hji] at hj
    rw [update_of_ne hki] at hk
    exact h.disj _ _ x hj hk

/-- The first slot of a chain is removed. -/
theorem remove_first (h : Chains next head L) (hL : L i = a :: l) : Chains next (update head i (next a)) (update L i l) := by
  refine ⟨fun j => ?_, h.disj_update fun x hx => Or.inl (by rw [hL]; exact mem_cons_of_mem _ hx)⟩
  by_cases hj : j = i
  · subst hj
    rw [update_self, update_self]
    have hc := h.chain j
    rw [hL] at hc
    exact (Chain.cons_iff.mp hc).2
  · rw [update_of_ne hj, update_of_ne hj]
    exact h.chain j

variable [DecidableEq α]

/-- A slot of no chain becomes the only one of an empty chain. -/
theorem insert_first (h : Chains next head L) (hL : L i = []) (ha : ∀ j, a ∉ L j) :
    Chains (update next a none) (update head i (some a)) (update L i [a]) := by
  refine ⟨fun j => ?_, h.disj_update fun x hx => Or.inr ?_⟩
  · by_cases hj : j = i
    · subst hj
      rw [update_self, update_self]
      exact Chain.nil.push (by simp)
    · rw [update_of_ne hj, update_of_ne hj]
      exact (h.chain j).update_of_not_mem (ha j) none
  · rw [mem_singleton.mp hx]
    exact ha

/-- A slot of no chain is inserted after a slot of a chain. -/
theorem insert_after (h : Chains next head L) (hL : L i = l₁ ++ [b] ++ l₂) (ha : ∀ j, a ∉ L j) :
    Chains (update (update next b (some a)) a (next b)) head (update L i (l₁ ++ [b] ++ a :: l₂)) := by
  have hb : b ∈ L i := by simp [hL]
  refine ⟨fun j => ?_, h.disj_update fun x hx => ?_⟩
  · by_cases hj : j = i
    · subst hj
      rw [update_self]
      refine Chain.insert_after ?_ ?_
      · rw [← hL]
        exact h.chain j
      · rw [← hL]
        exact ha j
    · rw [update_of_ne hj]
      refine ((h.chain j).update_of_not_mem ?_ _).update_of_not_mem (ha j) _
      exact fun hm => hj (h.disj j i b hm hb)
  · rcases mem_append.mp hx with hx | hx
    · exact Or.inl (by rw [hL]; exact mem_append_left _ hx)
    · rcases mem_cons.mp hx with rfl | hx
      · exact Or.inr ha
      · exact Or.inl (by rw [hL]; exact mem_append_right _ hx)

/-- The slot after a slot of a chain is removed. -/
theorem remove_after (h : Chains next head L) (hL : L i = l₁ ++ [b] ++ a :: l₂) :
    Chains (update next b (next a)) head (update L i (l₁ ++ [b] ++ l₂)) := by
  have hb : b ∈ L i := by simp [hL]
  refine ⟨fun j => ?_, h.disj_update fun x hx => Or.inl ?_⟩
  · by_cases hj : j = i
    · subst hj
      rw [update_self]
      refine Chain.remove_after ?_
      rw [← hL]
      exact h.chain j
    · rw [update_of_ne hj]
      refine (h.chain j).update_of_not_mem ?_ _
      exact fun hm => hj (h.disj j i b hm hb)
  · rw [hL]
    rcases mem_append.mp hx with hx | hx
    · exact mem_append_left _ hx
    · exact mem_append_right _ (mem_cons_of_mem _ hx)

end Chains

end Xv6Mmap

import Mathlib.Data.List.Perm.Basic
import Mathlib.Data.List.Pairwise

/-!
# Tilings

Extents, each with a start and a length, that are not empty, stand apart and together make up a set are a tiling of it. Two that meet
can be joined, one can be cut in two, and a new one can be added.
-/

namespace Xv6Mmap

open List

/-- The numbers from a start on, as many as the length says. -/
abbrev Extent : Type := Nat × Nat

def Extent.Has (e : Extent) (x : Nat) : Prop := e.1 ≤ x ∧ x < e.1 + e.2

/-- One ends before the other starts. -/
def Extent.Apart (e f : Extent) : Prop := e.1 + e.2 ≤ f.1 ∨ f.1 + f.2 ≤ e.1

theorem Extent.Apart.symm {e f : Extent} (h : e.Apart f) : f.Apart e := Or.symm h

theorem Extent.Apart.not_has {e f : Extent} (h : e.Apart f) {x : Nat} (he : e.Has x) : ¬ f.Has x := by
  intro hf
  unfold Extent.Apart at h
  unfold Extent.Has at he hf
  omega

/-- Two starts apart differ if the extents are not empty. -/
theorem Extent.Apart.ne {e f : Extent} (h : e.Apart f) (he : 0 < e.2) (hf : 0 < f.2) : e.1 ≠ f.1 := by
  unfold Extent.Apart at h
  omega

/-- The extents stand apart and make up the set. -/
structure Tiles (S : Nat → Prop) (es : List Extent) : Prop where
  pos : ∀ e ∈ es, 0 < e.2
  apart : es.Pairwise Extent.Apart
  cover : ∀ x, S x ↔ ∃ e ∈ es, e.Has x

namespace Tiles

variable {S : Nat → Prop} {es fs : List Extent} {a m k : Nat} {e f : Extent}

theorem perm (h : Tiles S es) (hp : es.Perm fs) : Tiles S fs := by
  refine ⟨fun e he => h.pos e (hp.mem_iff.mpr he), (hp.pairwise_iff fun hef => hef.symm).mp h.apart, fun x => (h.cover x).trans ?_⟩
  exact exists_congr fun e => and_congr_left fun _ => hp.mem_iff

theorem apart_cons (h : Tiles S (e :: es)) (hf : f ∈ es) : e.Apart f := (pairwise_cons.mp h.apart).1 f hf

theorem join (h : Tiles S ((a, m) :: (a + m, k) :: es)) : Tiles S ((a, m + k) :: es) := by
  obtain ⟨h1, h2⟩ := pairwise_cons.mp h.apart
  obtain ⟨h3, h4⟩ := pairwise_cons.mp h2
  have hm : 0 < m := h.pos (a, m) mem_cons_self
  have hes : ∀ f ∈ es, 0 < f.2 := fun f hf => h.pos f (mem_cons_of_mem _ (mem_cons_of_mem _ hf))
  refine ⟨forall_mem_cons.mpr ⟨Nat.add_pos_left hm k, hes⟩, pairwise_cons.mpr ⟨fun f hf => ?_, h4⟩,
    fun x => (h.cover x).trans ?_⟩
  · have hl := h1 f (mem_cons_of_mem _ hf)
    have hr := h3 f hf
    have hfpos := hes f hf
    unfold Extent.Apart at hl hr ⊢
    omega
  · simp only [exists_mem_cons_iff]
    rw [← or_assoc]
    refine or_congr ?_ Iff.rfl
    unfold Extent.Has
    omega

theorem cut (h : Tiles S ((a, m + k) :: es)) (hm : 0 < m) (hk : 0 < k) : Tiles S ((a, m) :: (a + m, k) :: es) := by
  obtain ⟨h1, h2⟩ := pairwise_cons.mp h.apart
  refine ⟨forall_mem_cons.mpr ⟨hm, forall_mem_cons.mpr ⟨hk, fun f hf => h.pos f (mem_cons_of_mem _ hf)⟩⟩,
    pairwise_cons.mpr ⟨fun f hf => ?_, pairwise_cons.mpr ⟨fun f hf => ?_, h2⟩⟩, fun x => (h.cover x).trans ?_⟩
  · rcases mem_cons.mp hf with rfl | hf
    · exact Or.inl (Nat.le_refl _)
    · have hl := h1 f hf
      unfold Extent.Apart at hl ⊢
      omega
  · have hl := h1 f hf
    unfold Extent.Apart at hl ⊢
    omega
  · simp only [exists_mem_cons_iff]
    rw [← or_assoc]
    refine or_congr ?_ Iff.rfl
    unfold Extent.Has
    omega

/-- A new extent that starts after everything there is. -/
theorem add (h : Tiles S es) (hpos : 0 < e.2) (he : ∀ f ∈ es, f.1 + f.2 ≤ e.1) : Tiles (fun x => e.Has x ∨ S x) (e :: es) := by
  refine ⟨forall_mem_cons.mpr ⟨hpos, h.pos⟩, pairwise_cons.mpr ⟨fun f hf => Or.inr (he f hf), h.apart⟩, fun x => ?_⟩
  simp only [exists_mem_cons_iff, h.cover x]

end Tiles

end Xv6Mmap

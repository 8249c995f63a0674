import Mathlib.Data.Set.Insert

/-!
# Exclusive ownership of resources

`H a x`: place `a` holds the resource `x`. `Owned H R live`: every resource held is live, no resource is held in two places, and none
of them is in `R`, the resources that the rest of the world relies on, which are live as well. Resources in hand, between an
allocation and the place they go to, are counted into `R`. The rules move one resource at a time between the allocator, the hand and a
place. `R` is arbitrary in each of them, so a proof about one family frames every other.
-/

namespace Xv6Mmap

/-- The family `H` owns what it holds, apart from the resources `R` of the rest of the world. -/
structure Owned {ι π : Type} (H : ι → π → Prop) (R : Set π) (live : π → Prop) : Prop where
  held : ∀ a x, H a x → live x ∧ x ∉ R
  inj : ∀ a b x, H a x → H b x → a = b
  rest : ∀ x ∈ R, live x

namespace Owned

variable {ι π : Type} {H H' : ι → π → Prop} {R R' : Set π} {live live' : π → Prop} {a : ι} {x : π}

/-- A family that holds less owns what it holds. -/
theorem mono (h : Owned H R live) (hH : ∀ b y, H' b y → H b y) : Owned H' R live :=
  ⟨fun b y hy => h.held b y (hH b y hy), fun b c y hb hc => h.inj b c y (hH b y hb) (hH c y hc), h.rest⟩

/-- The rest of the world may rely on less. -/
theorem shrink (h : Owned H R live) (hR : R' ⊆ R) : Owned H R' live :=
  ⟨fun b y hy => ⟨(h.held b y hy).1, fun hm => (h.held b y hy).2 (hR hm)⟩, h.inj, fun y hy => h.rest y (hR hy)⟩

/-- Allocation: a resource that was not live comes into hand. -/
theorem alloc (h : Owned H R live) (hx : ¬live x) (hlive : ∀ y, live' y ↔ live y ∨ y = x) : Owned H (insert x R) live' := by
  refine ⟨fun b y hy => ⟨(hlive y).mpr (Or.inl (h.held b y hy).1), ?_⟩, h.inj, ?_⟩
  · rintro (rfl | hm)
    · exact hx (h.held b y hy).1
    · exact (h.held b y hy).2 hm
  · rintro y (rfl | hm)
    · exact (hlive y).mpr (Or.inr rfl)
    · exact (hlive y).mpr (Or.inl (h.rest y hm))

/-- A resource in hand goes into a place that held nothing else. -/
theorem put (h : Owned H (insert x R) live) (hx : x ∉ R) (hH : ∀ b y, H' b y → H b y ∨ b = a ∧ y = x) : Owned H' R live := by
  refine ⟨fun b y hy => ?_, fun b c y hb hc => ?_, fun y hy => h.rest y (Set.mem_insert_of_mem _ hy)⟩
  · rcases hH b y hy with hy | ⟨rfl, rfl⟩
    · exact ⟨(h.held b y hy).1, fun hm => (h.held b y hy).2 (Set.mem_insert_of_mem _ hm)⟩
    · exact ⟨h.rest y (Set.mem_insert _ _), hx⟩
  · rcases hH b y hb with hb' | ⟨rfl, rfl⟩ <;> rcases hH c y hc with hc' | ⟨rfl, hyx⟩
    · exact h.inj b c y hb' hc'
    · exact absurd (hyx ▸ Set.mem_insert _ _) (h.held b y hb').2
    · exact absurd (Set.mem_insert _ _) (h.held c y hc').2
    · rfl

/-- A resource is taken out of its place into hand. -/
theorem take (h : Owned H R live) (hx : H a x) (hH : ∀ b y, H' b y → H b y ∧ b ≠ a) : Owned H' (insert x R) live := by
  refine ⟨fun b y hy => ⟨(h.held b y (hH b y hy).1).1, ?_⟩, fun b c y hb hc => h.inj b c y (hH b y hb).1 (hH c y hc).1, ?_⟩
  · rintro (rfl | hm)
    · exact (hH b y hy).2 (h.inj b a y (hH b y hy).1 hx)
    · exact (h.held b y (hH b y hy).1).2 hm
  · rintro y (rfl | hm)
    · exact (h.held a y hx).1
    · exact h.rest y hm

/-- Release: a resource in hand goes back to the allocator. -/
theorem free (h : Owned H (insert x R) live) (hx : x ∉ R) (hlive : ∀ y, live' y ↔ live y ∧ y ≠ x) : Owned H R live' := by
  refine ⟨fun b y hy => ?_, h.inj, fun y hy => ?_⟩
  · obtain ⟨h1, h2⟩ := h.held b y hy
    refine ⟨(hlive y).mpr ⟨h1, ?_⟩, fun hm => h2 (Set.mem_insert_of_mem _ hm)⟩
    rintro rfl
    exact h2 (Set.mem_insert _ _)
  · refine (hlive y).mpr ⟨h.rest y (Set.mem_insert_of_mem _ hy), ?_⟩
    rintro rfl
    exact hx hy

/-- A part of the places by itself: the others' resources are of the rest of the world. -/
theorem focus {ι' : Type} {f : ι' → ι} (hf : Function.Injective f) (h : Owned H R live) :
    Owned (fun b => H (f b)) (R ∪ {y | ∃ c, c ∉ Set.range f ∧ H c y}) live := by
  refine ⟨fun b y hy => ⟨(h.held _ y hy).1, ?_⟩, fun b c y hb hc => hf (h.inj _ _ y hb hc), ?_⟩
  · intro hm
    rcases hm with hm | ⟨c, hc, hcy⟩
    · exact (h.held _ y hy).2 hm
    · exact hc ⟨b, h.inj _ _ y hy hcy⟩
  · intro y hy
    rcases hy with hy | ⟨c, -, hcy⟩
    · exact h.rest y hy
    · exact (h.held c y hcy).1

/-- A part of the places changed by itself, with the others' resources of the rest of the world. -/
theorem unfocus {ι' : Type} {f : ι' → ι} {G : ι' → π → Prop} (h : Owned H R live)
    (hG : Owned G (R ∪ {y | ∃ c, c ∉ Set.range f ∧ H c y}) live')
    (hH : ∀ c y, H' c y → (∃ b, c = f b ∧ G b y) ∨ c ∉ Set.range f ∧ H c y) : Owned H' R live' := by
  refine ⟨fun c y hy => ?_, fun c d y hc hd => ?_, fun y hy => hG.rest y (Or.inl hy)⟩
  · rcases hH c y hy with ⟨b, -, hb⟩ | ⟨hc, hcy⟩
    · exact ⟨(hG.held b y hb).1, fun hm => (hG.held b y hb).2 (Or.inl hm)⟩
    · exact ⟨hG.rest y (Or.inr ⟨c, hc, hcy⟩), (h.held c y hcy).2⟩
  · rcases hH c y hc with ⟨b, rfl, hb⟩ | ⟨hnc, hcy⟩ <;> rcases hH d y hd with ⟨b', rfl, hb'⟩ | ⟨hnd, hdy⟩
    · rw [hG.inj b b' y hb hb']
    · exact absurd (Or.inr ⟨d, hnd, hdy⟩) (hG.held b y hb).2
    · exact absurd (Or.inr ⟨c, hnc, hcy⟩) (hG.held b' y hb').2
    · exact h.inj c d y hcy hdy

/-- What a place holds is not what the rest of the world relies on. -/
theorem not_mem (h : Owned H R live) (hx : H a x) : x ∉ R := (h.held a x hx).2

end Owned

/-! ## Nothing is lost -/

/-- Besides, every live resource is held by the family or of the rest of the world. -/
structure Full {ι π : Type} (H : ι → π → Prop) (R : Set π) (live : π → Prop) : Prop extends Owned H R live where
  total : ∀ x, live x → x ∈ R ∨ ∃ a, H a x

namespace Full

variable {ι π : Type} {H H' : ι → π → Prop} {R : Set π} {live live' : π → Prop} {a : ι} {x : π}

/-- Allocation into a place. -/
theorem gain (h : Full H R live) (hx : ¬live x) (hH : ∀ b y, H' b y ↔ H b y ∨ b = a ∧ y = x) (hlive : ∀ y, live' y ↔ live y ∨ y = x) :
    Full H' R live' := by
  have hR : x ∉ R := fun hm => hx (h.rest x hm)
  refine ⟨(h.toOwned.alloc hx hlive).put hR fun b y hy => (hH b y).mp hy, fun y hy => ?_⟩
  rcases (hlive y).mp hy with hy | rfl
  · exact (h.total y hy).imp_right fun ⟨b, hb⟩ => ⟨b, (hH b y).mpr (Or.inl hb)⟩
  · exact Or.inr ⟨a, (hH a y).mpr (Or.inr ⟨rfl, rfl⟩)⟩

/-- Release of a set of resources out of their places. -/
theorem drop (h : Full H R live) (D : Set π) (hD : ∀ y ∈ D, y ∉ R) (hH : ∀ b y, H' b y ↔ H b y ∧ y ∉ D)
    (hlive : ∀ y, live' y ↔ live y ∧ y ∉ D) : Full H' R live' := by
  refine ⟨⟨fun b y hy => ?_, fun b c y hb hc => h.inj b c y ((hH b y).mp hb).1 ((hH c y).mp hc).1, fun y hy => ?_⟩, fun y hy => ?_⟩
  · obtain ⟨hy, hn⟩ := (hH b y).mp hy
    exact ⟨(hlive y).mpr ⟨(h.held b y hy).1, hn⟩, (h.held b y hy).2⟩
  · exact (hlive y).mpr ⟨h.rest y hy, fun hm => hD y hm hy⟩
  · obtain ⟨hy, hn⟩ := (hlive y).mp hy
    exact (h.total y hy).imp_right fun ⟨b, hb⟩ => ⟨b, (hH b y).mpr ⟨hb, hn⟩⟩

theorem congr (h : Full H R live) (hH : ∀ b y, H' b y ↔ H b y) (hlive : ∀ y, live' y ↔ live y) : Full H' R live' :=
  h.drop ∅ (fun _ hy => hy.elim) (fun b y => by simp [hH]) fun y => by simp [hlive]

end Full

end Xv6Mmap

import Mathlib.Data.Nat.ModEq
import Mathlib.Logic.Function.Basic

/-!
# Ring buffers with free-running counters

A queue of at most `N` elements in an array of `N` cells, with two counters that run modulo `M`: the cell of an element is its
counter modulo `N`. The buffer is full when the counters are `N` apart and empty when they are equal. When `N` divides `M` and is
smaller, the counters tell the two apart and the cells do not jump where a counter wraps.

`Carries` relates a buffer to everything that was ever put in and taken out.
-/

namespace Xv6Mmap

open Function List

/-- The cells and the two counters. -/
structure RingBuffer (α : Type) where
  data : Nat → α
  nread : Nat
  nwrite : Nat

namespace RingBuffer

variable {α : Type} {N M : Nat} {q : RingBuffer α} {put taken : List α}

/-- The counters are `N` apart. -/
def full (N M : Nat) (q : RingBuffer α) : Bool := q.nwrite == (q.nread + N) % M

/-- The counters are equal. -/
def empty (q : RingBuffer α) : Bool := q.nread == q.nwrite

/-- An element goes into the cell of the write counter. -/
def push (N M : Nat) (q : RingBuffer α) (x : α) : RingBuffer α :=
  { q with data := update q.data (q.nwrite % N) x, nwrite := (q.nwrite + 1) % M }

/-- The first half of `push`: the cell is written. -/
def fill (N : Nat) (q : RingBuffer α) (x : α) : RingBuffer α := { q with data := update q.data (q.nwrite % N) x }

/-- The second half of `push`: the counter passes the cell. -/
def publish (M : Nat) (q : RingBuffer α) : RingBuffer α := { q with nwrite := (q.nwrite + 1) % M }

/-- The element in the cell of the read counter. -/
def front (N : Nat) (q : RingBuffer α) : α := q.data (q.nread % N)

/-- The read counter passes an element. -/
def pop (M : Nat) (q : RingBuffer α) : RingBuffer α := { q with nread := (q.nread + 1) % M }

/-- The write counter goes back by one. -/
def unpush (M : Nat) (q : RingBuffer α) : RingBuffer α := { q with nwrite := (q.nwrite + M - 1) % M }

/-- The elements inside, in the order of their counters. -/
def contents (N M : Nat) (q : RingBuffer α) : List α :=
  (List.range ((q.nwrite + M - q.nread) % M)).map fun k => q.data ((q.nread + k) % M % N)

/-- The buffer after `put` was put in and `taken` was taken out: what came out is the first part of what went in, and the rest is in
its cells. -/
structure Carries (N M : Nat) (q : RingBuffer α) (put taken : List α) : Prop where
  nwrite : q.nwrite = put.length % M
  nread : q.nread = taken.length % M
  order : taken <+: put
  bounded : put.length ≤ taken.length + N
  cells : ∀ k, (hk : k < put.length) → taken.length ≤ k → q.data (k % N) = put[k]

theorem Carries.length_le (h : Carries N M q put taken) : taken.length ≤ put.length := h.order.length_le

/-- The distance of the counters is the number of elements inside. -/
theorem Carries.distance (hNM : N < M) (h : Carries N M q put taken) : (q.nwrite + M - q.nread) % M = put.length - taken.length := by
  have hle := h.length_le
  have hb := h.bounded
  rw [h.nwrite, h.nread]
  have hM : 0 < M := by omega
  have hlt := Nat.mod_lt taken.length hM
  have e : put.length % M + M - taken.length % M + taken.length % M ≡ (put.length - taken.length) + taken.length % M [MOD M] := by
    calc put.length % M + M - taken.length % M + taken.length % M
        = put.length % M + M := by omega
      _ ≡ put.length [MOD M] := by simp [Nat.ModEq]
      _ = (put.length - taken.length) + taken.length := by omega
      _ ≡ (put.length - taken.length) + taken.length % M [MOD M] := Nat.ModEq.add_left _ (Nat.mod_modEq ..).symm
  rw [Nat.ModEq.add_right_cancel' _ e]
  exact Nat.mod_eq_of_lt (by omega)

theorem Carries.full_iff (hNM : N < M) (h : Carries N M q put taken) : q.full N M = true ↔ put.length = taken.length + N := by
  have hle := h.length_le
  have hb := h.bounded
  rw [full, beq_iff_eq, h.nwrite, h.nread, Nat.mod_add_mod]
  constructor
  · intro e
    have e' : put.length - taken.length + taken.length ≡ N + taken.length [MOD M] := by
      rw [Nat.sub_add_cancel hle, add_comm N]
      exact e
    have := Nat.ModEq.eq_of_lt_of_lt (Nat.ModEq.add_right_cancel' _ e') (by omega) hNM
    omega
  · intro e
    rw [e]

theorem Carries.empty_iff (hNM : N < M) (h : Carries N M q put taken) : q.empty = true ↔ put.length = taken.length := by
  have hle := h.length_le
  have hb := h.bounded
  rw [empty, beq_iff_eq, h.nwrite, h.nread]
  constructor
  · intro e
    have e' : put.length - taken.length + taken.length ≡ 0 + taken.length [MOD M] := by
      rw [Nat.sub_add_cancel hle, zero_add]
      exact e.symm
    have := Nat.ModEq.eq_of_lt_of_lt (Nat.ModEq.add_right_cancel' _ e') (by omega) (by omega)
    omega
  · intro e
    rw [e]

/-- Two counters less than `N` apart have different cells. -/
theorem cell_ne {k l : Nat} (hlt : k < l) (hN : l < k + N) : k % N ≠ l % N := by
  intro e
  have e' : 0 + k ≡ (l - k) + k [MOD N] := by
    rw [Nat.sub_add_cancel hlt.le, zero_add]
    exact e
  have := Nat.ModEq.eq_of_lt_of_lt (Nat.ModEq.add_right_cancel' _ e') (by omega) (by omega)
  omega

/-- In a buffer that is not full no element inside has the cell of the write counter. -/
theorem Carries.fill (hdvd : N ∣ M) (h : Carries N M q put taken) (hlt : put.length < taken.length + N) (x : α) :
    Carries N M (q.fill N x) put taken := by
  refine ⟨h.nwrite, h.nread, h.order, h.bounded, fun k hk hge => ?_⟩
  have hcell : q.nwrite % N = put.length % N := by rw [h.nwrite, Nat.mod_mod_of_dvd _ hdvd]
  show update q.data (q.nwrite % N) x (k % N) = _
  rw [hcell, update_of_ne (cell_ne hk (by omega))]
  exact h.cells k hk hge

theorem Carries.publish (hdvd : N ∣ M) (h : Carries N M q put taken) (hlt : put.length < taken.length + N) :
    Carries N M (q.publish M) (put ++ [q.data (q.nwrite % N)]) taken := by
  refine ⟨?_, h.nread, h.order.trans (prefix_append ..), ?_, fun k hk hge => ?_⟩
  · show (q.nwrite + 1) % M = _
    rw [h.nwrite, Nat.mod_add_mod, length_append, length_singleton]
  · rw [length_append, length_singleton]
    omega
  · rw [length_append, length_singleton] at hk
    by_cases e : k = put.length
    · subst e
      rw [getElem_concat_length rfl, h.nwrite, Nat.mod_mod_of_dvd _ hdvd]
      rfl
    · have hk' : k < put.length := by omega
      rw [getElem_append_left hk']
      exact h.cells k hk' hge

/-- An element put into a buffer that is not full goes into a cell that no element inside has. -/
theorem Carries.push (hNM : N < M) (hdvd : N ∣ M) (h : Carries N M q put taken) (hfull : q.full N M = false) (x : α) :
    Carries N M (q.push N M x) (put ++ [x]) taken := by
  have hlt : put.length < taken.length + N := by
    refine lt_of_le_of_ne h.bounded fun e => ?_
    rw [(h.full_iff hNM).mpr e] at hfull
    cases hfull
  have := (h.fill hdvd hlt x).publish hdvd hlt
  rwa [show (q.fill N x).data ((q.fill N x).nwrite % N) = x from update_self ..] at this

/-- What is taken out of a buffer that is not empty is the element put in next after those taken out before. -/
theorem Carries.pop (hNM : N < M) (hdvd : N ∣ M) (h : Carries N M q put taken) (hempty : q.empty = false) :
    Carries N M (q.pop M) put (taken ++ [q.front N]) := by
  have hlt : taken.length < put.length := by
    refine lt_of_le_of_ne h.length_le fun e => ?_
    rw [(h.empty_iff hNM).mpr e.symm] at hempty
    cases hempty
  have hfront : q.front N = put[taken.length] := by
    rw [front, h.nread, Nat.mod_mod_of_dvd _ hdvd]
    exact h.cells _ hlt (le_refl _)
  refine ⟨h.nwrite, ?_, ?_, ?_, fun k hk hge => ?_⟩
  · show (q.nread + 1) % M = _
    rw [h.nread, Nat.mod_add_mod, length_append, length_singleton]
  · obtain ⟨rest, e⟩ := h.order
    subst e
    cases rest with
    | nil => simp at hlt
    | cons a rest =>
      rw [hfront]
      simp
  · rw [length_append]
    have := h.bounded
    omega
  · rw [length_append] at hge
    exact h.cells k hk (by omega)

/-- What came out and what is inside is what went in. -/
theorem Carries.append_contents (hNM : N < M) (hdvd : N ∣ M) (h : Carries N M q put taken) : taken ++ q.contents N M = put := by
  obtain ⟨rest, e⟩ := h.order
  have hlen : rest.length = put.length - taken.length := by
    rw [← e, length_append]
    omega
  rw [← e, append_cancel_left_eq]
  refine ext_getElem ?_ fun k hk hk' => ?_
  · rw [contents, length_map, length_range, h.distance hNM, hlen]
  have hlt : taken.length + k < put.length := by
    omega
  have hcell := h.cells (taken.length + k) hlt (Nat.le_add_right ..)
  simp only [contents, getElem_map, getElem_range]
  rw [h.nread, Nat.mod_add_mod, Nat.mod_mod_of_dvd _ hdvd, hcell]
  subst e
  simp

theorem carries_new (data : Nat → α) : Carries N M ⟨data, 0, 0⟩ [] [] :=
  ⟨(Nat.zero_mod M).symm, (Nat.zero_mod M).symm, prefix_rfl, Nat.zero_le _, fun _ hk => absurd hk (Nat.not_lt_zero _)⟩

/-! ## What a buffer holds -/

/-- The elements in the buffer, in order. -/
def Holds (N M : Nat) (q : RingBuffer α) (l : List α) : Prop := ∃ taken, Carries N M q (taken ++ l) taken

variable {l : List α} {x : α}

theorem holds_new (data : Nat → α) : Holds N M ⟨data, 0, 0⟩ [] := ⟨[], carries_new data⟩

theorem Holds.empty_iff (hNM : N < M) (h : Holds N M q l) : q.empty = true ↔ l = [] := by
  obtain ⟨taken, h⟩ := h
  rw [h.empty_iff hNM, length_append, ← length_eq_zero_iff]
  omega

theorem Holds.contents_eq (hNM : N < M) (hdvd : N ∣ M) (h : Holds N M q l) : q.contents N M = l := by
  obtain ⟨taken, h⟩ := h
  exact append_cancel_left (h.append_contents hNM hdvd)

theorem Holds.fill (hdvd : N ∣ M) (h : Holds N M q l) (hlt : l.length < N) (x : α) : Holds N M (q.fill N x) l := by
  obtain ⟨taken, h⟩ := h
  exact ⟨taken, h.fill hdvd (by rw [length_append]; omega) x⟩

theorem Holds.publish (hdvd : N ∣ M) (h : Holds N M q l) (hlt : l.length < N) (hx : q.data (q.nwrite % N) = x) :
    Holds N M (q.publish M) (l ++ [x]) := by
  obtain ⟨taken, h⟩ := h
  have := h.publish hdvd (by rw [length_append]; omega)
  rw [hx, append_assoc] at this
  exact ⟨taken, this⟩

theorem Holds.pop (hNM : N < M) (hdvd : N ∣ M) (h : Holds N M q (x :: l)) : q.front N = x ∧ Holds N M (q.pop M) l := by
  have hne : q.empty = false := by
    cases he : q.empty with
    | false => rfl
    | true => cases (h.empty_iff hNM).mp he
  obtain ⟨taken, h⟩ := h
  have hp := h.pop hNM hdvd hne
  have hfront : q.front N = x := by
    obtain ⟨rest, e⟩ := hp.order
    rw [append_assoc, append_cancel_left_eq] at e
    exact (List.cons.inj e).1
  refine ⟨hfront, taken ++ [x], ?_⟩
  rw [hfront] at hp
  rwa [append_assoc]

theorem Holds.length_le (h : Holds N M q l) : l.length ≤ N := by
  obtain ⟨taken, h⟩ := h
  have := h.bounded
  rw [length_append] at this
  omega

theorem Holds.nwrite_eq (h : Holds N M q l) : q.nwrite = (q.nread + l.length) % M := by
  obtain ⟨taken, h⟩ := h
  rw [h.nwrite, h.nread, length_append, Nat.mod_add_mod]

theorem Holds.push (hNM : N < M) (hdvd : N ∣ M) (h : Holds N M q l) (hlt : l.length < N) (x : α) : Holds N M (q.push N M x) (l ++ [x]) := by
  obtain ⟨taken, h⟩ := h
  refine ⟨taken, append_assoc taken l [x] ▸ h.push hNM hdvd (Bool.eq_false_iff.mpr fun hfull => ?_) x⟩
  have := (h.full_iff hNM).mp hfull
  rw [length_append] at this
  omega

/-- The element put in last is the one that the write counter goes back over. -/
theorem Holds.unpush (hNM : N < M) (hdvd : N ∣ M) (h : Holds N M q (l ++ [x])) :
    q.data ((q.unpush M).nwrite % N) = x ∧ Holds N M (q.unpush M) l := by
  obtain ⟨taken, h⟩ := h
  rw [← append_assoc] at h
  have hlen : (taken ++ l ++ [x]).length = (taken ++ l).length + 1 := length_append
  have hw : (q.unpush M).nwrite = (taken ++ l).length % M := by
    show (q.nwrite + M - 1) % M = _
    rw [h.nwrite, hlen, Nat.add_sub_assoc (by omega), Nat.mod_add_mod, Nat.add_assoc, Nat.add_sub_cancel' (by omega), Nat.add_mod_right]
  refine ⟨?_, taken, hw, h.nread, prefix_append .., ?_, fun k hk hge => ?_⟩
  · rw [hw, Nat.mod_mod_of_dvd _ hdvd, h.cells _ (by omega) (by simp), getElem_concat_length rfl]
  · have := h.bounded
    omega
  · rw [← getElem_append_left hk]
    exact h.cells k (by omega) hge

/-- Writing the cell of the write counter of a buffer that is not full overwrites no element inside. -/
theorem Holds.fill_keeps (hNM : N < M) (hdvd : N ∣ M) (h : Holds N M q l) (hlt : l.length < N) (x : α) {k : Nat}
    (hk : k < (q.nwrite + M - q.nread) % M) : (q.fill N x).data ((q.nread + k) % M % N) = q.data ((q.nread + k) % M % N) := by
  obtain ⟨taken, h⟩ := h
  rw [h.distance hNM, length_append] at hk
  have hcell : q.nwrite % N = (taken ++ l).length % N := by rw [h.nwrite, Nat.mod_mod_of_dvd _ hdvd]
  have hread : (q.nread + k) % M % N = (taken.length + k) % N := by
    rw [h.nread, Nat.mod_add_mod, Nat.mod_mod_of_dvd _ hdvd]
  show update q.data (q.nwrite % N) x _ = _
  rw [hcell, hread, update_of_ne (cell_ne ?_ ?_)]
  · rw [length_append]
    omega
  · rw [length_append]
    omega

end RingBuffer

end Xv6Mmap

import Xv6Mmap.Grep

/-!
# The lines that grep prints

`grep` assembles lines of at most 1022 bytes. A line that fills the buffer leaves no room for `read`, which gives 0 bytes as at the
end of the input, and the loop ends with the rest unread.
-/

namespace Xv6Mmap

/-- The lines of the input that match, each with its newline. -/
def matchingLines (pattern input : List UInt8) : List (List UInt8) :=
  ((input.splitOn 10).dropLast.filter (matchText pattern)).map (· ++ [10])

/-- Every line fits in the buffer, with its newline and the NUL; so does what follows the last newline. -/
def LinesFit (input : List UInt8) : Prop :=
  (∀ l ∈ (input.splitOn 10).dropLast, l.length + 1 < grepBuf) ∧ ∀ l ∈ (input.splitOn 10).getLast?, l.length < grepBuf

instance (input : List UInt8) : Decidable (LinesFit input) := inferInstanceAs (Decidable (_ ∧ _))

section

open List

variable {pattern s t l r : List UInt8} {out : List (List UInt8)}

theorem matchingLines_line (hl : 10 ∉ l) : matchingLines pattern (l ++ 10 :: t) =
    (if matchText pattern l then [l ++ [10]] else []) ++ matchingLines pattern t := by
  rw [matchingLines, splitOn_append_cons_self_of_not_mem hl, dropLast_cons_of_ne_nil (splitOn_ne_nil _ _), filter_cons]
  split <;> simp [matchingLines]

theorem linesFit_line (hl : 10 ∉ l) : LinesFit (l ++ 10 :: t) ↔ l.length + 1 < grepBuf ∧ LinesFit t := by
  rw [LinesFit, splitOn_append_cons_self_of_not_mem hl, dropLast_cons_of_ne_nil (splitOn_ne_nil _ _),
    getLast?_cons_of_ne_nil (splitOn_ne_nil _ _)]
  simp [LinesFit, and_assoc]

theorem matchingLines_tail (hs : 10 ∉ s) : matchingLines pattern s = [] := by
  simp [matchingLines, splitOn_eq_singleton hs]

theorem linesFit_tail (hs : 10 ∉ s) : LinesFit s ↔ s.length < grepBuf := by
  simp [LinesFit, splitOn_eq_singleton hs]

theorem not_linesFit (hr : 10 ∉ r) (hlen : grepBuf ≤ r.length + 1) (hs : s ≠ []) : ¬ LinesFit (r ++ s) := by
  have hpos := length_pos_of_ne_nil hs
  by_cases h10 : 10 ∈ s
  · obtain ⟨l, t, rfl, hl⟩ := eq_append_cons_of_mem h10
    rw [← append_assoc, linesFit_line (by simp [hr, hl])]
    simp only [length_append]
    omega
  · rw [linesFit_tail (by simp [hr, h10]), length_append]
    omega

theorem cText_append_nul (hs : 0 ∉ s) : cText (s ++ 0 :: t) = s := by
  rw [cText, takeWhile_append_of_pos fun b hb => by simpa using ne_of_mem_of_not_mem hb hs]
  simp

theorem strchr_line (h0 : 0 ∉ l) (hl : 10 ∉ l) : strchr 10 (l ++ 10 :: t) = some l.length := by
  induction l with
  | nil => rfl
  | cons b l ih =>
    simp only [mem_cons, not_or, eq_comm] at h0 hl
    simp [strchr, h0.1, hl.1, ih h0.2 hl.2]

theorem strchr_tail (h0 : 0 ∉ s) (hs : 10 ∉ s) : strchr 10 (s ++ 0 :: t) = none := by
  induction s with
  | nil => rfl
  | cons b s ih =>
    simp only [mem_cons, not_or, eq_comm] at h0 hs
    simp [strchr, h0.1, hs.1, ih h0.2 hs.2]

/-- Copying upwards over a gap moves the bytes behind it. -/
theorem copyUp_gap (pre t junk : List UInt8) {gap : List UInt8} (hgap : gap ≠ []) :
    ∃ rest, copyUp t.length pre.length (pre.length + gap.length) (pre ++ gap ++ (t ++ junk)) = pre ++ t ++ rest ∧
      rest.length = gap.length + junk.length := by
  induction t generalizing pre gap with
  | nil => exact ⟨gap ++ junk, by simp [copyUp], by simp⟩
  | cons b t ih =>
    obtain ⟨g, gap, rfl⟩ := exists_cons_of_ne_nil hgap
    obtain ⟨rest, h1, h2⟩ := ih (pre ++ [b]) (show gap ++ [b] ≠ [] by simp)
    refine ⟨rest, ?_, by simpa using h2⟩
    have hb : (pre ++ (g :: gap) ++ (b :: t ++ junk)).getD (pre.length + (g :: gap).length) 0 = b := by
      simp
    rw [length_cons, copyUp, hb]
    simpa [set_append, Nat.add_comm, Nat.add_left_comm] using h1

theorem copyDown_self (n : Nat) (mem : List UInt8) : copyDown n 0 0 mem = mem := by
  induction n with
  | zero => rfl
  | succ n ih =>
    have hset : mem.set n (mem.getD n 0) = mem := by
      apply ext_getElem?
      grind
    rw [copyDown, Nat.zero_add, hset, ih]

theorem memmove_front (pre t junk : List UInt8) :
    ∃ rest, memmove 0 pre.length t.length (pre ++ t ++ junk) = t ++ rest ∧ rest.length = pre.length + junk.length := by
  by_cases hpre : pre = []
  · exact ⟨junk, by simp [memmove, hpre, copyDown_self], by simp [hpre]⟩
  · simpa [memmove, length_pos_iff.2 hpre] using copyUp_gap [] t junk hpre

theorem grepLines_line (fuel : Nat) (pre t : List UInt8) (h0 : 0 ∉ l) (hl : 10 ∉ l) :
    ∃ b, grepLines pattern (fuel + 1) (pre ++ (l ++ 10 :: t)) pre.length out =
      grepLines pattern fuel (pre ++ l ++ [b] ++ t) (pre ++ l ++ [b]).length
        (out ++ if matchText pattern l then [l ++ [10]] else []) := by
  have hcut : ∀ a b, (pre ++ (l ++ a :: t)).set (pre.length + l.length) b = pre ++ (l ++ b :: t) := by simp
  simp only [grepLines, drop_left, strchr_line h0 hl, hcut, cText_append_nul h0]
  split
  · exact ⟨10, by simp [Nat.add_assoc, take_append, take_of_length_le]⟩
  · exact ⟨0, by simp [Nat.add_assoc]⟩

/-- The inner loop, on a buffer that holds `s` from `p` on: `r` is what it leaves. -/
theorem grepLines_spec (pattern junk : List UInt8) : ∀ (fuel : Nat) (pre s : List UInt8) (out : List (List UInt8)),
    0 ∉ s → s.length < fuel → ∃ pre' r o, grepLines pattern fuel (pre ++ (s ++ 0 :: junk)) pre.length out =
        some (pre' ++ r ++ 0 :: junk, pre'.length, out ++ o) ∧ pre'.length + r.length = pre.length + s.length ∧
      0 ∉ r ∧ 10 ∉ r ∧ ∀ rest, matchingLines pattern (s ++ rest) = o ++ matchingLines pattern (r ++ rest) ∧
        (s.length < grepBuf → (LinesFit (s ++ rest) ↔ LinesFit (r ++ rest)))
  | 0, _, _, _, _, h => absurd h (Nat.not_lt_zero _)
  | fuel + 1, pre, s, out, h0, hfuel => by
    by_cases h10 : 10 ∈ s
    · obtain ⟨l, t, rfl, hl⟩ := eq_append_cons_of_mem h10
      simp only [mem_append, mem_cons, not_or] at h0
      simp only [length_append, length_cons] at hfuel ⊢
      obtain ⟨b, hb⟩ := grepLines_line fuel pre (t ++ 0 :: junk) h0.1 hl
      obtain ⟨pre', r, o, h1, h2, hr0, hr, h3⟩ := grepLines_spec pattern junk fuel (pre ++ l ++ [b]) t _ h0.2.2 (by omega)
      rw [append_assoc, cons_append, hb, h1]
      refine ⟨pre', r, _, by rw [append_assoc out], ?_, hr0, hr, fun rest => ?_⟩
      · simp only [length_append, length_singleton] at h2
        omega
      obtain ⟨h4, h5⟩ := h3 rest
      rw [append_assoc, cons_append, matchingLines_line hl, linesFit_line hl, h4, append_assoc]
      refine ⟨rfl, fun hlen => ?_⟩
      rw [h5 (by omega)]
      exact and_iff_right (by omega)
    · refine ⟨pre, s, [], ?_, rfl, h0, h10, fun rest => ⟨rfl, fun _ => Iff.rfl⟩⟩
      simp [grepLines, strchr_tail h0 h10]

/-- The buffer after a `read`, with the NUL put behind what it holds. -/
theorem fill_eq {c junk : List UInt8} (h : c.length < junk.length) :
    ((r ++ junk).take r.length ++ c ++ (r ++ junk).drop (r.length + c.length)).set (r.length + c.length) 0 =
      r ++ c ++ 0 :: junk.drop (c.length + 1) := by
  rw [take_left, drop_append, drop_of_length_le (Nat.le_add_right _ _), Nat.add_sub_cancel_left, nil_append,
    drop_eq_getElem_cons h, ← length_append, set_append_right _ _ (Nat.le_refl _), Nat.sub_self, set_cons_zero]

/-- The outer loop, with the line begun in `r`. -/
theorem grepLoop_spec (pattern : List UInt8) : ∀ (fuel : Nat) (avail : Nat → Nat) (r junk input : List UInt8) (out : List (List UInt8)),
    0 ∉ r ++ input → 10 ∉ r → (r ++ junk).length = grepBuf → r.length < grepBuf → input.length < fuel →
    ∃ o u, grepLoop pattern fuel avail (r ++ junk) r.length input out = some (out ++ o, u) ∧
      (u = [] ↔ LinesFit (r ++ input)) ∧ (u = [] → o = matchingLines pattern (r ++ input))
  | 0, _, _, _, _, _, _, _, _, _, h => absurd h (Nat.not_lt_zero _)
  | fuel + 1, avail, r, junk, input, out, h0, hr, hbuf, hlen, hfuel => by
    simp only [grepLoop]
    generalize hn : min (avail 0 + 1) (grepBuf - r.length - 1) = n
    split
    · rename_i hc
      by_cases hi : input = []
      · simp [hi, linesFit_tail hr, matchingLines_tail hr, hlen]
      · have hfull : grepBuf ≤ r.length + 1 := by
          simp only [take_eq_nil_iff, hi, or_false] at hc
          omega
        simp [hi, not_linesFit hr hfull hi]
    · rename_i hc
      have hcl := length_take_le n input
      have hio := take_append_drop n input
      generalize input.take n = c, input.drop n = rest at hc hcl hio ⊢
      subst hio
      have hpos := length_pos_of_ne_nil hc
      simp only [length_append, mem_append, not_or] at h0 hbuf hfuel
      rw [fill_eq (by omega)]
      obtain ⟨pre, r', o, h1, h2, h3, h4, h5⟩ := grepLines_spec pattern (junk.drop (c.length + 1)) grepBuf [] (r ++ c) out
        (by simp [h0]) (by simp only [length_append]; omega)
      obtain ⟨old, h6, h7⟩ := memmove_front pre r' (0 :: junk.drop (c.length + 1))
      simp only [nil_append, length_nil, Nat.zero_add, length_append, length_cons, length_drop] at h1 h2 h5 h7
      obtain ⟨o', u, h8, h9, h10⟩ := grepLoop_spec pattern fuel (fun i => avail (i + 1)) r' old rest (out ++ o)
        (by simp [h0, h3]) h4 (by simp only [length_append]; omega) (by omega) (by omega)
      obtain ⟨h11, h12⟩ := h5 rest
      have hm : r.length + c.length - pre.length = r'.length := by omega
      simp only [h1, Option.bind_eq_bind, Option.bind_some, if_pos (Nat.add_pos_right _ hpos), hm, h6, h8]
      refine ⟨o ++ o', u, by rw [append_assoc], ?_, ?_⟩
      · rw [h9, ← append_assoc, h12 (by omega)]
      · intro hu
        rw [← append_assoc, h11, h10 hu]

end

/-- `grep` reads its input to the end and writes exactly the lines that match, whichever way the input comes in, just when the
lines fit in the buffer. -/
theorem grep_exact_iff (pattern : List UInt8) (buf : Vector UInt8 grepBuf) (avail : Nat → Nat) (input : List UInt8)
    (h0 : 0 ∉ input) : grep pattern buf avail input = some (matchingLines pattern input, []) ↔ LinesFit input := by
  obtain ⟨o, u, h1, h2, h3⟩ := grepLoop_spec pattern (input.length + 1) avail [] buf.toList input []
    (by simpa using h0) (by simp) (by simp) (by decide) (Nat.lt_succ_self _)
  simp only [List.nil_append, List.length_nil] at h1 h2 h3
  rw [grep, h1, ← h2]
  constructor
  · intro h
    cases h
    rfl
  · intro hu
    rw [hu, h3 hu]

/-- Two lines that come in a byte at a time. -/
theorem grep_exact_twoLines :
    grep [97] (Vector.replicate grepBuf 0) (fun _ => 0) [98, 10, 97, 10] = some (matchingLines [97] [98, 10, 97, 10], []) :=
  (grep_exact_iff _ _ _ _ (by decide)).2 (by decide)

/-- A line of 1023 bytes with its newline: the line matches, but is not written. -/
theorem grep_loses_line :
    grep [97] (Vector.replicate grepBuf 0) (fun _ => 1023) (List.replicate 1023 97 ++ [10]) = some ([], [10]) ∧
      matchingLines [97] (List.replicate 1023 97 ++ [10]) = [List.replicate 1023 97 ++ [10]] := by
  decide +kernel

end Xv6Mmap

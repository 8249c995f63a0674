import Xv6Mmap.Console
import Mathlib.Data.List.Induction

/-!
# The console is a line editor

Whatever keys are pressed while whatever processes read, `consoleread` gives what it would give from two lists: the characters ready
to be read and the line being edited.
-/

namespace Xv6Mmap

open List

/-! ## The ring and the editor -/

theorem inputBuf_lt : inputBuf < 2 ^ 32 := by decide

theorem inputBuf_dvd : inputBuf ∣ 2 ^ 32 := by decide

/-- The ring holds what may be read and then the line, and `w` is between them. -/
structure Shows (s : Cons) (a : LineEditor) : Prop where
  holds : s.ring.Holds inputBuf (2 ^ 32) (a.ready ++ a.line)
  w : s.w = (s.ring.nread + a.ready.length) % 2 ^ 32
  line : 10 ∉ a.line

namespace Shows

variable {s : Cons} {a : LineEditor} {ready line : List UInt8}

theorem indices (h : Shows s a) : s.ring.nread < 2 ^ 32 ∧ s.ring.nwrite = (s.ring.nread + (a.ready.length + a.line.length)) % 2 ^ 32 ∧
    a.ready.length + a.line.length ≤ 128 := by
  have hw := h.holds.nwrite_eq
  have hle := h.holds.length_le
  rw [length_append] at hw hle
  obtain ⟨taken, hc⟩ := h.holds
  exact ⟨hc.nread ▸ Nat.mod_lt _ (by decide), hw, hle⟩

theorem distance (h : Shows s a) : (s.ring.nwrite + 2 ^ 32 - s.ring.nread) % 2 ^ 32 = a.ready.length + a.line.length := by
  have := h.indices
  omega

theorem take (h : Shows s a) : Option.Rel (fun x y => x.1 = y.1 ∧ Shows x.2 y.2) s.take a.take := by
  obtain ⟨hr, -, hle⟩ := h.indices
  have hw := h.w
  obtain ⟨_ | ⟨c, ready⟩, line⟩ := a
  · have hnone : s.take = none := if_pos (by simp only [length_nil] at hw; omega)
    rw [hnone]
    exact .none
  · simp only [length_cons] at hw hle
    obtain ⟨hfront, hpop⟩ := h.holds.pop inputBuf_lt inputBuf_dvd
    have hsome : s.take = some (c, { s with ring := s.ring.pop (2 ^ 32) }) := by
      rw [Cons.take, if_neg (by omega), hfront]
    rw [hsome]
    refine .some ⟨rfl, hpop, ?_, h.line⟩
    show s.w = ((s.ring.nread + 1) % 2 ^ 32 + ready.length) % 2 ^ 32
    omega

theorem erase {c : UInt8} (h : Shows s ⟨ready, line ++ [c]⟩) :
    s.ring.data (s.erase.ring.nwrite % inputBuf) = c ∧ Shows s.erase ⟨ready, line⟩ := by
  have hh : s.ring.Holds inputBuf (2 ^ 32) (ready ++ line ++ [c]) := append_assoc ready line [c] ▸ h.holds
  obtain ⟨hlast, hh'⟩ := hh.unpush inputBuf_lt inputBuf_dvd
  refine ⟨hlast, hh', ?_, fun hm => h.line (mem_append_left _ hm)⟩
  obtain ⟨⟨data, nread, nwrite⟩, w⟩ := s
  have hw : w = (nread + ready.length) % 2 ^ 32 := h.w
  exact hw

/-- Kill-line erases the whole line, as there is no newline in it. -/
theorem kill (h : Shows s ⟨ready, line⟩) : Shows (s.killLoop line.length) ⟨ready, []⟩ := by
  induction line using List.reverseRecOn generalizing s with
  | nil => exact h
  | append_singleton line c ih =>
    obtain ⟨hlast, he⟩ := h.erase
    have hc : c ≠ 10 := fun e => h.line (by simp [e])
    rw [length_append, length_singleton, Cons.killLoop, hlast, if_neg hc]
    exact ih he

/-- A character added to the line, which is then ready or not. -/
theorem add (h : Shows s ⟨ready, line⟩) (hlt : ready.length + line.length < inputBuf) (c : UInt8) :
    Shows (if c = 10 ∨ c = 4 ∨ (s.ring.push inputBuf (2 ^ 32) c).full inputBuf (2 ^ 32) then
        ⟨s.ring.push inputBuf (2 ^ 32) c, (s.ring.push inputBuf (2 ^ 32) c).nwrite⟩
      else { s with ring := s.ring.push inputBuf (2 ^ 32) c })
      (if c = 10 ∨ c = 4 ∨ ready.length + (line ++ [c]).length = inputBuf then ⟨ready ++ (line ++ [c]), []⟩
      else ⟨ready, line ++ [c]⟩) := by
  have hh := h.holds.push inputBuf_lt inputBuf_dvd (by simpa using hlt) c
  rw [append_assoc] at hh
  have hfull : (s.ring.push inputBuf (2 ^ 32) c).full inputBuf (2 ^ 32) = true ↔ ready.length + (line ++ [c]).length = inputBuf := by
    obtain ⟨taken, hc⟩ := hh
    rw [hc.full_iff inputBuf_lt]
    simp only [length_append]
    omega
  simp only [hfull]
  split
  · refine ⟨by simpa using hh, ?_, not_mem_nil⟩
    exact hh.nwrite_eq
  rename_i hc
  refine ⟨hh, ?_, ?_⟩
  · exact h.w
  · simp only [not_or] at hc
    have hne : ¬10 = c := fun e => hc.1 e.symm
    simpa [hne] using h.line

theorem intr (h : Shows s a) (c : UInt8) : Shows (s.intr c) (a.intr c) := by
  obtain ⟨hr, hnw, hle⟩ := h.indices
  have hw := h.w
  obtain ⟨ready, line⟩ := a
  simp only at hw hnw hle
  simp only [Cons.intr, LineEditor.intr, h.distance]
  split
  · exact h
  split
  · have hn : (s.ring.nwrite + 2 ^ 32 - s.w) % 2 ^ 32 = line.length := by omega
    rw [hn]
    exact h.kill
  split
  · obtain rfl | ⟨x, l, rfl⟩ : line = [] ∨ ∃ x l, line = l ++ [x] := by
      rcases line.eq_nil_or_concat with e | ⟨l, x, e⟩
      · exact Or.inl e
      · exact Or.inr ⟨x, l, e.trans concat_eq_append⟩
    · rw [if_pos (by simp only [length_nil] at hnw; omega)]
      exact h
    · rw [if_neg (by simp only [length_append, length_singleton] at hnw hle; omega), dropLast_concat]
      exact h.erase.2
  split
  · exact h
  · exact h.add (by omega) _

end Shows

/-! ## Reading -/

section Runs

variable {s : Cons} {a : LineEditor}

theorem Shows.consoleread (h : Shows s a) (copyout : Nat → UInt8 → Bool) (killed : Bool) (target n dst : Nat) :
    let x := consoleread Cons.take copyout killed target n s dst
    let y := consoleread LineEditor.take copyout killed target n a dst
    x.1 = y.1 ∧ Shows x.2.1 y.2.1 ∧ x.2.2 = y.2.2 := by
  induction n generalizing s a dst with
  | zero => exact ⟨rfl, h, rfl⟩
  | succ n ih =>
    have htake := h.take
    simp only [Xv6Mmap.consoleread]
    generalize s.take = x, a.take = y at htake ⊢
    cases htake with
    | none => exact ⟨rfl, h, rfl⟩
    | @some x y hxy =>
      obtain ⟨c', a'⟩ := y
      obtain ⟨rfl, h'⟩ := hxy
      obtain ⟨h1, h2, h3⟩ := ih h' ((dst + 1) % 2 ^ 64)
      dsimp only at h' ⊢
      split_ifs
      · exact ⟨rfl, h, rfl⟩
      · exact ⟨rfl, h', rfl⟩
      · exact ⟨rfl, h', rfl⟩
      · exact ⟨rfl, h', rfl⟩
      · exact ⟨h1, h2, congrArg _ h3⟩

/-- The inputs are related, and the calls and their results are the same. -/
structure ShowsSys (s : ConsSys Cons) (a : ConsSys LineEditor) : Prop where
  input : Shows s.input a.input
  call : s.call = a.call
  out : s.out = a.out

theorem ShowsSys.step {s : ConsSys Cons} {a : ConsSys LineEditor} (h : ShowsSys s a) (e : ConsEvent) :
    ShowsSys (s.step Cons.intr Cons.take e) (a.step LineEditor.intr LineEditor.take e) := by
  have hstretch : ∀ j copyout killed c,
      ShowsSys (s.stretch Cons.take j copyout killed c) (a.stretch LineEditor.take j copyout killed c) := by
    rintro j copyout killed ⟨target, dst, n⟩
    obtain ⟨h1, h2, h3⟩ := h.input.consoleread copyout killed target n dst
    exact ⟨h2, by simp only [ConsSys.stretch, h.call, h1], by simp only [ConsSys.stretch, h.out, h1, h3]⟩
  cases e with
  | key c => exact ⟨h.input.intr c, h.call, h.out⟩
  | read j dst n copyout killed =>
    simp only [ConsSys.step, h.call]
    split
    · exact h
    · exact hstretch ..
  | resume j copyout killed =>
    simp only [ConsSys.step, h.call]
    split
    · exact h
    · exact hstretch ..

theorem ShowsSys.run {s : ConsSys Cons} {a : ConsSys LineEditor} (h : ShowsSys s a) (es : List ConsEvent) :
    ShowsSys (es.foldl (ConsSys.step Cons.intr Cons.take) s) (es.foldl (ConsSys.step LineEditor.intr LineEditor.take) a) := by
  induction es generalizing s a with
  | nil => exact h
  | cons e es ih => exact ih (h.step e)

end Runs

/-- In every run from a ring with any content, with any number of processes that read: every call gets the result and the bytes that
the line editor gives it; the ring holds the characters that the editor has, at most `INPUT_BUF` of them; and `w` is where the line
begins. -/
theorem console_line_editor (data : Nat → UInt8) (es : List ConsEvent) :
    let s := consRun Cons.intr Cons.take ⟨⟨data, 0, 0⟩, 0⟩ es
    let a := consRun LineEditor.intr LineEditor.take ⟨[], []⟩ es
    s.out = a.out ∧ s.call = a.call ∧ s.input.ring.contents inputBuf (2 ^ 32) = a.input.ready ++ a.input.line ∧
      a.input.ready.length + a.input.line.length ≤ inputBuf ∧
      (s.input.w + 2 ^ 32 - s.input.ring.nread) % 2 ^ 32 = a.input.ready.length := by
  have hnew : Shows ⟨⟨data, 0, 0⟩, 0⟩ ⟨[], []⟩ := ⟨RingBuffer.holds_new data, rfl, not_mem_nil⟩
  have h : ShowsSys (consRun Cons.intr Cons.take _ es) (consRun LineEditor.intr LineEditor.take _ es) :=
    ShowsSys.run ⟨hnew, rfl, rfl⟩ es
  obtain ⟨hr, -, hle⟩ := h.input.indices
  refine ⟨h.out, h.call, h.input.holds.contents_eq inputBuf_lt inputBuf_dvd, hle, ?_⟩
  have := h.input.w
  omega

end Xv6Mmap

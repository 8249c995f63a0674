import Xv6Mmap.Pipe

/-!
# Pipes are first-in first-out and bounded

Each stretch of a call keeps the relation between the ring and the bytes that went in and out, so it holds after every list of stretches.
-/

namespace Xv6Mmap

variable {pi : PipeBuf} {put taken : List UInt8}

/-- The ring carries the bytes put in and not taken out. -/
abbrev PipeCarries (pi : PipeBuf) (put taken : List UInt8) : Prop := pi.ring.Carries pipeSize counters put taken

theorem pipeSize_lt : pipeSize < counters := by decide

theorem pipeSize_dvd : pipeSize ∣ counters := by decide

/-- The loop of `pipewrite` puts in, one after the other, the bytes it says. -/
theorem pipewriteLoop_carries (copyin : Nat → Option UInt8) (killed : Bool) (addr left : Nat) (i : Nat)
    (h : PipeCarries pi put taken) :
    PipeCarries (pipewriteLoop copyin killed addr left pi i).2.1 (put ++ (pipewriteLoop copyin killed addr left pi i).2.2) taken := by
  induction left generalizing pi i put with
  | zero => simpa only [pipewriteLoop, List.append_nil] using h
  | succ left ih =>
    unfold pipewriteLoop
    split
    · simpa only [List.append_nil] using h
    split
    · simpa only [List.append_nil] using h
    rename_i hfull
    split
    · simpa only [List.append_nil] using h
    rename_i ch _
    have hpush : PipeCarries { pi with ring := pi.ring.push pipeSize counters ch } (put ++ [ch]) taken :=
      h.push pipeSize_lt pipeSize_dvd (Bool.eq_false_iff.mpr hfull) ch
    have hrest := ih (i + 1) hpush
    simpa only [List.append_assoc, List.singleton_append] using hrest

/-- The loop of `piperead` takes out, one after the other, the bytes it says. -/
theorem pipereadLoop_carries (copyout : Nat → UInt8 → Bool) (addr left : Nat) (i : Nat) (h : PipeCarries pi put taken) :
    PipeCarries (pipereadLoop copyout addr left pi i).2.1 put (taken ++ (pipereadLoop copyout addr left pi i).2.2) := by
  induction left generalizing pi i taken with
  | zero => simpa only [pipereadLoop, List.append_nil] using h
  | succ left ih =>
    unfold pipereadLoop
    split
    · simpa only [List.append_nil] using h
    rename_i hempty
    have hpop : PipeCarries { pi with ring := pi.ring.pop counters } put (taken ++ [pi.ring.front pipeSize]) :=
      h.pop pipeSize_lt pipeSize_dvd (Bool.eq_false_iff.mpr hempty)
    dsimp only
    split
    · have hrest := ih (i + 1) hpop
      simpa only [List.append_assoc, List.singleton_append] using hrest
    · exact hpop

theorem piperead_carries (copyout : Nat → UInt8 → Bool) (killed : Bool) (addr : Nat) (n : Int) (h : PipeCarries pi put taken) :
    PipeCarries (piperead copyout killed pi addr n).2.1 put (taken ++ (piperead copyout killed pi addr n).2.2) := by
  unfold piperead
  split
  · split
    · simpa only [List.append_nil] using h
    · simpa only [List.append_nil] using h
  · exact pipereadLoop_carries copyout addr n.toNat 0 h

theorem PipeSys.step_carries {s : PipeSys} (e : Nat × PipeEvent) (h : PipeCarries s.pi s.put s.taken) :
    PipeCarries (s.step e).pi (s.step e).put (s.step e).taken := by
  obtain ⟨j, ev⟩ := e
  cases ev with
  | write addr n copyin =>
    simp only [PipeSys.step]
    split
    · exact pipewriteLoop_carries copyin (s.killed j) addr _ 0 h
    · exact h
  | read addr n copyout =>
    simp only [PipeSys.step]
    split
    · exact piperead_carries copyout (s.killed j) addr n h
    · exact h
  | resume copyin copyout =>
    simp only [PipeSys.step]
    split
    · exact h
    · exact pipewriteLoop_carries copyin (s.killed j) _ _ _ h
    · exact piperead_carries copyout (s.killed j) _ _ h
  | close writable | kill i => exact h

theorem PipeSys.run_carries {s : PipeSys} (es : List (Nat × PipeEvent)) (h : PipeCarries s.pi s.put s.taken) :
    PipeCarries (s.run es).pi (s.run es).put (s.run es).taken := by
  induction es generalizing s with
  | nil => exact h
  | cons e es ih => exact ih (PipeSys.step_carries e h)

/-- After any interleaving of stretches of calls on a new pipe, the counters are at most `PIPESIZE` apart modulo `2 ^ 32`, the bytes
taken out are the first ones of those put in, and the ring holds the others, each where its counter says. -/
theorem pipe_fifo (data : Nat → UInt8) (es : List (Nat × PipeEvent)) :
    let s := (PipeSys.start data).run es
    (s.pi.ring.nwrite + 2 ^ 32 - s.pi.ring.nread) % 2 ^ 32 ≤ pipeSize ∧ s.taken <+: s.put ∧
      s.taken ++ s.pi.ring.contents pipeSize (2 ^ 32) = s.put := by
  intro s
  have h : PipeCarries s.pi s.put s.taken := PipeSys.run_carries es (RingBuffer.carries_new data)
  refine ⟨?_, h.order, h.append_contents pipeSize_lt pipeSize_dvd⟩
  have hd := h.distance pipeSize_lt
  have hb := h.bounded
  rw [hd]
  omega

/-! ## What a write puts in -/

/-- The bytes are those of user memory from `addr + i` on. -/
def FetchedFrom (copyin : Nat → Option UInt8) (addr i : Nat) (l : List UInt8) : Prop :=
  ∀ k ch, l[k]? = some ch → copyin ((addr + (i + k)) % 2 ^ 64) = some ch

theorem pipewriteLoop_puts (copyin : Nat → Option UInt8) (killed : Bool) (addr left : Nat) (pi : PipeBuf) (i : Nat) :
    let w := pipewriteLoop copyin killed addr left pi i
    FetchedFrom copyin addr i w.2.2 ∧
      (w.1 = .returned (-1) ∨ w.1 = .returned (i + w.2.2.length : Nat) ∨ w.1 = .sleeps (i + w.2.2.length)) := by
  induction left generalizing pi i with
  | zero => exact ⟨fun k ch hk => (by simp [pipewriteLoop] at hk), Or.inr (Or.inl rfl)⟩
  | succ left ih =>
    unfold pipewriteLoop
    have hnone : FetchedFrom copyin addr i [] := fun k ch hk => by simp at hk
    split
    · exact ⟨hnone, Or.inl rfl⟩
    split
    · exact ⟨hnone, Or.inr (Or.inr rfl)⟩
    split
    · exact ⟨hnone, Or.inr (Or.inl rfl)⟩
    rename_i ch hch
    obtain ⟨hput, hret⟩ := ih { pi with ring := pi.ring.push pipeSize counters ch } (i + 1)
    have hnext : ∀ k, i + 1 + k = i + (k + 1) := by omega
    refine ⟨fun k c hk => ?_, by simpa only [List.length_cons, hnext] using hret⟩
    cases k with
    | zero =>
      cases hk
      exact hch
    | succ k =>
      rw [← hnext]
      exact hput k c hk

/-- A stretch of `pipewrite` from byte `i` on that returns `r`, or sleeps with `r` bytes written, has put the user's bytes from `i` up to
`r` into the ring; so a call that returns `n` has put its `n` bytes. The other return value is -1. -/
theorem pipewrite_puts {l : List UInt8} (copyin : Nat → Option UInt8) (killed : Bool) (pi : PipeBuf) (addr : Nat) (n : Int) (i : Nat)
    (h : pi.ring.Holds pipeSize counters l) : ∃ put r, (pipewrite copyin killed pi addr n i).2.1.ring.Holds pipeSize counters (l ++ put) ∧
      FetchedFrom copyin addr i put ∧ r = i + put.length ∧
      ((pipewrite copyin killed pi addr n i).1 = .returned (-1) ∨ (pipewrite copyin killed pi addr n i).1 = .returned r ∨
        (pipewrite copyin killed pi addr n i).1 = .sleeps r) := by
  obtain ⟨hput, hret⟩ := pipewriteLoop_puts copyin killed addr (n - i).toNat pi i
  obtain ⟨taken, hc⟩ := h
  refine ⟨_, _, ⟨taken, ?_⟩, hput, rfl, hret⟩
  rw [← List.append_assoc]
  exact pipewriteLoop_carries copyin killed addr _ i hc

/-! ## What a read takes out and what it delivers -/

/-- The bytes in the pipe, in the order in which they went in. -/
def PipeBuf.bytes (pi : PipeBuf) : List UInt8 := pi.ring.contents pipeSize counters

/-- `copyout` stores the first `n` bytes of `l`, those that there are, from `addr + i` on. -/
def Delivers (copyout : Nat → UInt8 → Bool) (addr i n : Nat) (l : List UInt8) : Prop :=
  ∀ k ch, k < n → l[k]? = some ch → copyout ((addr + (i + k)) % 2 ^ 64) ch = true

/-- A read that returns `r` has stored the first `r` bytes, and these are the ones that have left the pipe. -/
def ReadsExactly (copyout : Nat → UInt8 → Bool) (killed : Bool) (pi : PipeBuf) (addr : Nat) (n : Int) : Prop :=
  ∀ r, (piperead copyout killed pi addr n).1 = .returned r → r.toNat ≤ pi.bytes.length ∧
    Delivers copyout addr 0 r.toNat pi.bytes ∧ (piperead copyout killed pi addr n).2.1.bytes = pi.bytes.drop r.toNat

section Reads

variable {copyout : Nat → UInt8 → Bool} {addr i n : Nat} {ch : UInt8} {l : List UInt8}

theorem delivers_nil : Delivers copyout addr i n [] := by
  intro k ch _ hk
  simp at hk

theorem delivers_cons : Delivers copyout addr i (n + 1) (ch :: l) ↔
    copyout ((addr + i) % 2 ^ 64) ch = true ∧ Delivers copyout addr (i + 1) n l := by
  have hnext : ∀ k, i + 1 + k = i + (k + 1) := by omega
  constructor
  · intro h
    refine ⟨h 0 ch (Nat.succ_pos n) rfl, fun k c hk hc => ?_⟩
    rw [hnext]
    exact h (k + 1) c (Nat.succ_lt_succ hk) hc
  · rintro ⟨h0, h⟩ k c hk hc
    cases k with
    | zero =>
      cases hc
      exact h0
    | succ k =>
      rw [← hnext]
      exact h k c (Nat.lt_of_succ_lt_succ hk) hc

/-- The loop of `piperead` stores the first `m` bytes and takes out these, or one more when that one could not be stored. -/
theorem pipereadLoop_delivers (copyout : Nat → UInt8 → Bool) (addr left i : Nat) (h : pi.ring.Holds pipeSize counters l) :
    ∃ m ≤ l.length, (pipereadLoop copyout addr left pi i).1 = i + m ∧ Delivers copyout addr i m l ∧
      (Delivers copyout addr i left l ∧ (pipereadLoop copyout addr left pi i).2.1.ring.Holds pipeSize counters (l.drop m) ∨
      ¬ Delivers copyout addr i left l ∧ m < l.length ∧
        (pipereadLoop copyout addr left pi i).2.1.ring.Holds pipeSize counters (l.drop (m + 1))) := by
  induction left generalizing pi i l with
  | zero => exact ⟨0, Nat.zero_le _, rfl, nofun, Or.inl ⟨nofun, h⟩⟩
  | succ left ih =>
    unfold pipereadLoop
    split
    · rename_i hempty
      obtain rfl := (h.empty_iff pipeSize_lt).mp hempty
      exact ⟨0, le_rfl, rfl, nofun, Or.inl ⟨delivers_nil, h⟩⟩
    · rename_i hempty
      cases l with
      | nil => exact absurd ((h.empty_iff pipeSize_lt).mpr rfl) hempty
      | cons ch l =>
        obtain ⟨hfront, hpop⟩ := h.pop pipeSize_lt pipeSize_dvd
        dsimp only
        rw [hfront, delivers_cons]
        split
        · rename_i hok
          have hrest : PipeBuf.ring { pi with ring := pi.ring.pop counters } |>.Holds pipeSize counters l := hpop
          obtain ⟨m, hm, hr, hd, hcase⟩ := ih (i + 1) hrest
          refine ⟨m + 1, Nat.succ_le_succ hm, hr.trans (by omega), delivers_cons.mpr ⟨hok, hd⟩, ?_⟩
          refine hcase.imp (fun hall => ⟨⟨hok, hall.1⟩, hall.2⟩) fun hlost => ?_
          exact ⟨fun hall => hlost.1 hall.2, Nat.succ_lt_succ hlost.2.1, hlost.2.2⟩
        · rename_i hno
          exact ⟨0, Nat.zero_le _, rfl, nofun, Or.inr ⟨fun hall => hno hall.1, Nat.succ_pos _, hpop⟩⟩

end Reads

/-- A read loses nothing if and only if `copyout` stores every byte that it comes to: the byte that it fails at has left the pipe. -/
theorem piperead_exact_iff (copyout : Nat → UInt8 → Bool) (killed : Bool) (pi : PipeBuf) (addr : Nat) (n : Int) (l : List UInt8)
    (h : pi.ring.Holds pipeSize counters l) : ReadsExactly copyout killed pi addr n ↔ Delivers copyout addr 0 n.toNat l := by
  have hbytes : ∀ {p : PipeBuf} {l}, p.ring.Holds pipeSize counters l → p.bytes = l :=
    fun hp => hp.contents_eq pipeSize_lt pipeSize_dvd
  unfold ReadsExactly piperead
  rw [hbytes h]
  split
  · -- an empty pipe is left as it is
    rename_i hwait
    obtain rfl := (h.empty_iff pipeSize_lt).mp (Bool.and_eq_true_iff.mp hwait).1
    refine iff_of_true (fun r hr => ?_) delivers_nil
    have hsame : pi.bytes = [] := hbytes h
    cases killed <;> cases hr
    exact ⟨le_rfl, delivers_nil, hsame⟩
  · obtain ⟨m, hm, hr, hd, hcase⟩ := pipereadLoop_delivers copyout addr n.toNat 0 h
    dsimp only
    rw [hr, zero_add]
    rcases hcase with ⟨hall, hrest⟩ | ⟨hnot, hlt, hrest⟩
    · refine iff_of_true (fun r he => ?_) hall
      cases he
      exact ⟨hm, hd, hbytes hrest⟩
    · refine iff_of_false (fun hexact => ?_) hnot
      have hdrop := congrArg List.length ((hbytes hrest).symm.trans (hexact m rfl).2.2)
      simp only [List.length_drop, Int.toNat_natCast] at hdrop
      omega

/-- A pipe with one byte. -/
def oneBytePipe : PipeBuf := ⟨⟨true, true⟩, ⟨fun _ => 7, 0, 1⟩⟩

theorem oneBytePipe_holds : oneBytePipe.ring.Holds pipeSize counters [7] := by
  refine ⟨[], ⟨rfl, rfl, List.nil_prefix, by decide, fun k hk _ => ?_⟩⟩
  obtain rfl : k = 0 := Nat.lt_one_iff.mp hk
  rfl

/-- A read of the byte to an address that is not mapped returns 0, and the byte is gone. -/
theorem piperead_loses : ¬ ReadsExactly (fun _ _ => false) false oneBytePipe 4096 1 := by
  intro h
  exact absurd (h 0 rfl).2.2 (by decide +kernel)

theorem piperead_exact_oneByte : ReadsExactly (fun _ _ => true) false oneBytePipe 4096 10 :=
  (piperead_exact_iff _ _ _ _ _ _ oneBytePipe_holds).mpr fun _ _ _ _ => rfl

end Xv6Mmap

import Xv6Mmap.PipeSleep

/-!
# No process sleeps on a ready pipe

A process that sleeps on a pipe waits for bytes or for room. The invariant: when what it waits for is there, some process holds the
pipe's lock and owes it a wake-up, that is, it is bound to call `wakeup` on the channel before it gives the lock up, and has not yet
visited the sleeper. So when the lock is free nobody sleeps on a ready pipe.

One exit of `pipewrite` breaks this: a writer that is killed after it put bytes into the ring returns without a `wakeup`. In the runs of
the theorem a killed writer takes this exit only before it has put a byte.
-/

namespace Xv6Mmap

open Function PipeLocks

namespace PipePc

/-- The channel on which the process sleeps, or is about to with the pipe's lock already given up. -/
def sleepy : PipePc → Option Chan
  | .unlocked c _ | .asleep c _ => some c
  | _ => none

/-- The process holds the pipe's lock. -/
def holds : PipePc → Bool
  | .tests _ _ | .copies _ _ _ | .wakes _ _ _ | .sleeps _ _ | .locked _ _ => true
  | _ => false

/-- The channel on which the process is going to sleep, while it still holds the pipe's lock. -/
def going : PipePc → Option Chan
  | .wakes _ _ (.sleep c _) | .sleeps c _ | .locked c _ => some c
  | _ => none

theorem holds_of_going {pc : PipePc} {c : Chan} (h : pc.going = some c) : pc.holds = true := by
  cases pc <;> first | rfl | cases h

theorem not_holds_of_sleepy {pc : PipePc} {c : Chan} (h : pc.sleepy = some c) : pc.holds = false := by
  cases pc <;> first | rfl | cases h

theorem not_sleepy_of_holds {pc : PipePc} (h : pc.holds = true) {c : Chan} : pc.sleepy ≠ some c := by
  intro hs
  rw [not_holds_of_sleepy hs] at h
  cases h

/-- A woken process is at the end of `sleep`, or was not asleep. -/
theorem woken_cases (pc : PipePc) : (∃ c t, pc = .asleep c t ∧ pc.woken = .acquires t) ∨ pc.woken = pc := by
  cases pc <;> first | exact Or.inr rfl | exact Or.inl ⟨_, _, rfl, rfl⟩

end PipePc

/-- What a process that sleeps on the channel waits for: unread bytes or no writer, room or no reader. -/
def PipeBuf.Ready (pi : PipeBuf) : Chan → Prop
  | .nread => pi.ring.empty = false ∨ pi.writeopen = false
  | .nwrite => pi.ring.full pipeSize counters = false ∨ pi.readopen = false

/-- The process is bound to wake the sleeper `p` on the channel before it gives up the lock. -/
def Owes (pi : PipeBuf) (pc : PipePc) (c : Chan) (p : Nat) : Prop :=
  match pc with
  | .tests (.write _ _ _) put => c = .nread ∧ pi.readopen = true ∧ 0 < put
  | .copies _ _ _ => c = .nwrite
  | .wakes c' q _ => c = c' ∧ q ≤ p
  | _ => False

/-- The invariant of the runs. -/
structure PipeInv (s : PipeLocks) : Prop where
  below : ∀ p c, (s.pc p).sleepy = some c → p < nproc
  owed : ∀ p c, (s.pc p).sleepy = some c → s.pi.Ready c → ∃ h, s.lock = some h ∧ Owes s.pi (s.pc h) c p
  holder : ∀ p, (s.pc p).holds = true ↔ s.lock = some p
  going : ∀ p c, (s.pc p).going = some c → ¬s.pi.Ready c

namespace PipeInv

variable {s : PipeLocks} {j addr : Nat} {c : Chan} {pc' : PipePc} {n : Int}

theorem fresh (data : Nat → UInt8) : PipeInv (.fresh data) where
  below := fun _ _ h => (nomatch h)
  owed := fun _ _ h => (nomatch h)
  holder := fun _ => ⟨fun h => (nomatch h), fun h => (nomatch h)⟩
  going := fun _ _ h => (nomatch h)

section

variable (h : PipeInv s)

include h

/-- While the lock is free nobody sleeps on a ready pipe. -/
theorem quiet (hfree : s.lock = none) {p : Nat} (hp : (s.pc p).sleepy = some c) : ¬s.pi.Ready c := by
  intro hr
  obtain ⟨q, hq, -⟩ := h.owed p c hp hr
  rw [hfree] at hq
  cases hq

theorem owes_of_holder {pc : PipePc} (hpc : s.pc j = pc) (hj : pc.holds = true) (p : Nat) (c : Chan)
    (hp : (s.pc p).sleepy = some c) (hr : s.pi.Ready c) : Owes s.pi pc c p := by
  subst hpc
  obtain ⟨q, hq, ho⟩ := h.owed p c hp hr
  rw [(h.holder j).mp hj] at hq
  cases hq
  exact ho

/-! ## The kinds of steps -/

/-- A step of the only process that may hold the lock: it has it afterwards or nobody has, and it owes a wake-up to whoever then
sleeps on a ready pipe. -/
theorem alone {lock' : Option Nat} (pc' : PipePc) (pi' : PipeBuf) (hjn : j < nproc) (hother : ∀ p, p ≠ j → (s.pc p).holds = false)
    (hlock : lock' = if pc'.holds then some j else none) (hgo : ∀ c, pc'.going = some c → ¬pi'.Ready c)
    (hself : ∀ c, pc'.sleepy = some c → ¬pi'.Ready c)
    (howe : ∀ p c, p ≠ j → (s.pc p).sleepy = some c → pi'.Ready c → pc'.holds = true ∧ Owes pi' pc' c p) :
    PipeInv { s.at_ j pc' with lock := lock', pi := pi' } := by
  refine ⟨(forall_update_iff s.pc fun p b => ∀ c, b.sleepy = some c → p < nproc).mpr ⟨fun _ _ => hjn, fun p _ => h.below p⟩,
    (forall_update_iff s.pc fun p b => ∀ c, b.sleepy = some c → pi'.Ready c →
      ∃ q, lock' = some q ∧ Owes pi' (update s.pc j pc' q) c p).mpr ⟨fun c hc hr => absurd hr (hself c hc), fun p e c hp hr => ?_⟩,
    (forall_update_iff s.pc fun p b => b.holds = true ↔ lock' = some p).mpr ⟨?_, fun p e => ?_⟩,
    (forall_update_iff s.pc fun _ b => ∀ c, b.going = some c → ¬pi'.Ready c).mpr ⟨hgo, fun p e c hp => ?_⟩⟩
  · obtain ⟨hh, ho⟩ := howe p c e hp hr
    exact ⟨j, by rw [hlock, if_pos hh], by rwa [update_self]⟩
  · rw [hlock]
    cases pc'.holds <;> simp
  · rw [hother p e, hlock]
    refine iff_of_false Bool.false_ne_true fun hh => ?_
    split at hh
    · exact e (Option.some.inj hh).symm
    · cases hh
  · have := hother p e
    rw [PipePc.holds_of_going hp] at this
    cases this

theorem others (hj : (s.pc j).holds = true) (p : Nat) (hp : p ≠ j) : (s.pc p).holds = false := by
  cases hh : (s.pc p).holds with
  | false => rfl
  | true =>
    have := (h.holder p).mp hh
    rw [(h.holder j).mp hj] at this
    exact absurd (Option.some.inj this).symm hp

theorem acts (pi' : PipeBuf) (hj : (s.pc j).holds = true) (hjn : j < nproc) (hpc : pc'.holds = true)
    (hgo : ∀ c, pc'.going = some c → ¬pi'.Ready c) (howe : ∀ p c, (s.pc p).sleepy = some c → pi'.Ready c → Owes pi' pc' c p) :
    PipeInv { s.at_ j pc' with pi := pi' } := by
  have := h.alone pc' pi' hjn (h.others hj) rfl hgo (fun c hc => absurd hc (PipePc.not_sleepy_of_holds hpc))
    fun p c _ hp hr => ⟨hpc, howe p c hp hr⟩
  rw [if_pos hpc, ← (h.holder j).mp hj] at this
  exact this

/-- The holder of the lock gives it up, and may go to sleep, when nothing that is slept on is ready. -/
theorem releases (pc' : PipePc) (hj : (s.pc j).holds = true) (hjn : j < nproc) (hpc : pc'.holds = false)
    (hself : ∀ c, pc'.sleepy = some c → ¬s.pi.Ready c)
    (hnone : ∀ p c, (s.pc p).sleepy = some c → ¬s.pi.Ready c) : PipeInv { s.at_ j pc' with lock := none } := by
  have := h.alone pc' s.pi hjn (h.others hj) rfl
    (fun c hc => by rw [PipePc.holds_of_going hc] at hpc; cases hpc) hself fun p c _ hp hr => absurd hr (hnone p c hp)
  rw [hpc] at this
  exact this

/-- A process takes the free lock, and may act on the pipe at once. -/
theorem takes (pi' : PipeBuf) (hfree : s.lock = none) (hjn : j < nproc)
    (hpc : pc'.holds = true) (hgo : pc'.going = none) (howe : ∀ p c, (s.pc p).sleepy = some c → pi'.Ready c → Owes pi' pc' c p) :
    PipeInv { s.at_ j pc' with lock := some j, pi := pi' } := by
  have hother : ∀ p, p ≠ j → (s.pc p).holds = false := by
    intro p _
    cases hp : (s.pc p).holds with
    | false => rfl
    | true =>
      have := (h.holder p).mp hp
      rw [hfree] at this
      cases this
  have := h.alone pc' pi' hjn hother rfl (fun c hc => by rw [hgo] at hc; cases hc)
    (fun c hc => absurd hc (PipePc.not_sleepy_of_holds hpc)) fun p c _ hp hr => ⟨hpc, howe p c hp hr⟩
  rw [if_pos hpc] at this
  exact this

/-- A process without the lock moves, and sleeps after the step only if it did before. -/
theorem moves (hj : (s.pc j).holds = false) (hpc : pc'.holds = false)
    (hsl : ∀ c, pc'.sleepy = some c → (s.pc j).sleepy = some c) : PipeInv (s.at_ j pc') := by
  have hnot : s.lock ≠ some j := by
    intro e
    rw [(h.holder j).mpr e] at hj
    cases hj
  have hold := (forall_update_iff s.pc fun p b => ∀ c, b.sleepy = some c → (s.pc p).sleepy = some c).mpr ⟨hsl, fun _ _ _ hc => hc⟩
  refine ⟨fun p c hp => h.below p c (hold p c hp), fun p c hp hr => ?_,
    (forall_update_iff s.pc fun p b => b.holds = true ↔ s.lock = some p).mpr ⟨?_, fun p _ => h.holder p⟩,
    (forall_update_iff s.pc fun _ b => ∀ c, b.going = some c → ¬s.pi.Ready c).mpr ⟨fun c hc => ?_, fun p _ => h.going p⟩⟩
  · obtain ⟨q, hq, ho⟩ := h.owed p c (hold p c hp) hr
    have hqj : q ≠ j := fun e => hnot (e ▸ hq)
    exact ⟨q, hq, by simpa only [at_, update_of_ne hqj] using ho⟩
  · rw [hpc]
    exact iff_of_false Bool.false_ne_true hnot
  · rw [PipePc.holds_of_going hc] at hpc
    cases hpc

/-- The flags and return values of processes play no part. -/
theorem congr {s' : PipeLocks} (hpi : s'.pi = s.pi) (hlock : s'.lock = s.lock) (hpc : s'.pc = s.pc) : PipeInv s' := by
  refine ⟨?_, ?_, ?_, ?_⟩
  · rw [hpc]
    exact h.below
  · rw [hpc, hlock, hpi]
    exact h.owed
  · rw [hpc, hlock]
    exact h.holder
  · rw [hpc, hpi]
    exact h.going

/-! ## The steps of the calls -/

theorem returns {r : Int} (hj : (s.pc j).holds = true) (hjn : j < nproc)
    (hnone : ∀ p c, (s.pc p).sleepy = some c → ¬s.pi.Ready c) : PipeInv (s.return_ j r) :=
  (h.releases .idle hj hjn rfl (fun _ hc => (nomatch hc)) hnone).congr rfl rfl rfl

/-- The holder of the lock turns to `wakeup` of the channel on which all that is ready is slept on. -/
theorem turnsToWakeup {next : AfterWakeup} (hj : (s.pc j).holds = true) (hjn : j < nproc)
    (hgo : ∀ c' t, next = .sleep c' t → ¬s.pi.Ready c')
    (honly : ∀ p c', (s.pc p).sleepy = some c' → s.pi.Ready c' → c' = c) : PipeInv (s.at_ j (.wakes c 0 next)) := by
  refine h.acts s.pi hj hjn rfl (fun c' hc => ?_) fun p c' hp hr => ⟨honly p c' hp hr, Nat.zero_le p⟩
  cases next with
  | sleep c'' t =>
    cases hc
    exact hgo c' t rfl
  | returns r | closed => cases hc

theorem testsWrite {i put : Nat} {copyin : Option UInt8} (hpc : s.pc j = .tests (.write addr n i) put) (hjn : j < nproc)
    (hkill : (i : Int) < n → s.pi.readopen = true → s.killed j = true → put = 0) :
    PipeInv (s.testsWrite j addr n i put copyin) := by
  have hj : (s.pc j).holds = true := by rw [hpc]; rfl
  -- what a writer owes at its test
  have honly : ∀ p c, (s.pc p).sleepy = some c → s.pi.Ready c → c = .nread ∧ s.pi.readopen = true ∧ 0 < put :=
    h.owes_of_holder hpc rfl
  unfold PipeLocks.testsWrite
  split
  · rename_i hi
    split
    · -- the exit without a wake-up
      rename_i hexit
      refine h.returns hj hjn fun p c hp hr => ?_
      obtain ⟨rfl, hopen, hput⟩ := honly p c hp hr
      have hk : s.killed j = true := by simpa [hopen] using hexit
      rw [hkill hi hopen hk] at hput
      cases hput
    · rename_i hexit
      have hopen : s.pi.readopen = true := by
        cases ho : s.pi.readopen with
        | true => rfl
        | false => simp [ho] at hexit
      split
      · rename_i hfull
        refine h.turnsToWakeup hj hjn (fun c t e => ?_) fun p c hp hr => (honly p c hp hr).1
        cases e
        rintro (hf | hf)
        · rw [hfull] at hf
          cases hf
        · rw [hopen] at hf
          cases hf
      · rename_i hroom
        cases copyin with
        | none => exact h.turnsToWakeup hj hjn (fun c t e => nomatch e) fun p c hp hr => (honly p c hp hr).1
        | some ch =>
          refine h.acts _ hj hjn rfl (fun c hc => nomatch hc) fun p c hp hr => ?_
          cases c with
          | nread => exact ⟨rfl, hopen, put.succ_pos⟩
          | nwrite =>
            -- there was room before the byte, so nobody slept on it
            have hready : s.pi.Ready .nwrite := Or.inl (Bool.eq_false_iff.mpr hroom)
            cases (honly p .nwrite hp hready).1
  · exact h.turnsToWakeup hj hjn (fun c t e => nomatch e) fun p c hp hr => (honly p c hp hr).1

theorem testsRead {put : Nat} (hpc : s.pc j = .tests (.read addr n) put) (hjn : j < nproc) : PipeInv (s.testsRead j addr n) := by
  have hj : (s.pc j).holds = true := by rw [hpc]; rfl
  have hnone : ∀ p c, (s.pc p).sleepy = some c → ¬s.pi.Ready c := h.owes_of_holder hpc rfl
  unfold PipeLocks.testsRead
  split
  · rename_i hwait
    obtain ⟨he, hw⟩ := Bool.and_eq_true_iff.mp hwait
    split
    · exact h.returns hj hjn hnone
    refine h.acts s.pi hj hjn rfl (fun c hc => ?_) fun p c hp hr => absurd hr (hnone p c hp)
    cases hc
    rintro (hf | hf)
    · rw [he] at hf
      cases hf
    · rw [hw] at hf
      cases hf
  · exact h.acts s.pi hj hjn rfl (fun c hc => nomatch hc) fun p c hp hr => absurd hr (hnone p c hp)

theorem copiesByte {i : Nat} {copyout : Bool} (hpc : s.pc j = .copies addr n i) (hjn : j < nproc) :
    PipeInv (s.copiesByte j addr n i copyout) := by
  have hj : (s.pc j).holds = true := by rw [hpc]; rfl
  have honly : ∀ p c, (s.pc p).sleepy = some c → s.pi.Ready c → c = .nwrite := h.owes_of_holder hpc rfl
  unfold PipeLocks.copiesByte
  split
  · rename_i hc
    -- there were bytes, so nobody sleeps on them
    have hnw : ∀ p c, (s.pc p).sleepy = some c → c = .nwrite := by
      intro p c hp
      cases c with
      | nwrite => rfl
      | nread => exact honly p .nread hp (Or.inl hc.2)
    split
    · exact h.acts _ hj hjn rfl (fun c hc => nomatch hc) fun p c hp _ => hnw p c hp
    · exact h.acts _ hj hjn rfl (fun c hc => nomatch hc) fun p c hp _ => ⟨hnw p c hp, Nat.zero_le p⟩
  · exact h.turnsToWakeup hj hjn (fun c t e => nomatch e) honly

theorem wokenAt (q : Nat) : PipeInv (s.at_ q (s.pc q).woken) := by
  rcases (s.pc q).woken_cases with ⟨c, t, e, e'⟩ | e
  · rw [e']
    exact h.moves (by rw [e]; rfl) rfl fun _ hc => (nomatch hc)
  · rw [e]
    exact h.congr rfl rfl (update_eq_self q s.pc)

/-- After the visit the process does not sleep on the channel, and nobody else has moved. -/
theorem wakeProc {q : Nat} (c : Chan) (hqj : ¬q = j) (hfree : ¬(s.pc q).ownLock = true) :
    PipeInv (s.wakeProc c q) ∧ (s.wakeProc c q).pc j = s.pc j ∧ (s.wakeProc c q).pi = s.pi ∧ ((s.wakeProc c q).pc q).sleepy ≠ some c ∧
      ∀ p c', ((s.wakeProc c q).pc p).sleepy = some c' → (s.pc p).sleepy = some c' := by
  have hw := h.wokenAt q
  unfold PipeLocks.wakeProc
  cases hpc : s.pc q with
  | asleep c' t =>
    dsimp only
    rw [hpc] at hw
    split
    · refine ⟨hw, update_of_ne (Ne.symm hqj) _ _, rfl, ?_, fun p c'' hp => ?_⟩
      · simp [at_, PipePc.woken, PipePc.sleepy]
      · by_cases e : p = q
        · subst e
          simp [at_, PipePc.woken, PipePc.sleepy] at hp
        · simpa only [at_, update_of_ne e] using hp
    · rename_i hne
      refine ⟨h, rfl, rfl, ?_, fun _ _ hp => hp⟩
      rw [hpc]
      exact fun e => hne (Option.some.inj e)
  | unlocked c' t => exact absurd (by rw [hpc]; rfl) hfree
  | idle | acquires t | closes w | tests t put | copies a n i | wakes c' q' n | sleeps c' t | locked c' t =>
    exact ⟨h, rfl, rfl, by rw [hpc]; exact nofun, fun _ _ hp => hp⟩

theorem visits {s' : PipeLocks} {q : Nat} {next : AfterWakeup} (hpc : s.pc j = .wakes c q next)
    (hjn : j < nproc) (hs : s.visits j c q next = some s') : PipeInv s' := by
  have hj : (s.pc j).holds = true := by rw [hpc]; rfl
  have hgo : ∀ c' t, next = .sleep c' t → ¬s.pi.Ready c' := by
    rintro c' t rfl
    exact h.going j c' (by rw [hpc]; rfl)
  have hgo' : ∀ c', (PipePc.wakes c (q + 1) next).going = some c' → ¬s.pi.Ready c' := by
    intro c' hc
    cases next with
    | sleep c'' t =>
      cases hc
      exact hgo c' t rfl
    | returns r | closed => cases hc
  have honly : ∀ p c', (s.pc p).sleepy = some c' → s.pi.Ready c' → c' = c ∧ q ≤ p :=
    h.owes_of_holder hpc rfl
  unfold PipeLocks.visits at hs
  split at hs
  · split at hs
    · -- `wakeup` skips the caller
      rename_i hq
      cases hs
      refine h.acts s.pi hj hjn rfl hgo' fun p c' hp hr => ?_
      obtain ⟨h1, h2⟩ := honly p c' hp hr
      refine ⟨h1, Nat.lt_of_le_of_ne h2 ?_⟩
      rintro rfl
      exact PipePc.not_sleepy_of_holds (hq ▸ hj) hp
    · rename_i hqj
      split at hs
      · cases hs
      rename_i hfree
      cases hs
      obtain ⟨h₁, hpcj, hpi, hq1, hold⟩ := h.wakeProc c hqj hfree
      refine h₁.acts _ (by rw [hpcj]; exact hj) hjn rfl (by rw [hpi]; exact hgo') fun p c' hp hr => ?_
      rw [hpi] at hr
      obtain ⟨h1, h2⟩ := honly p c' (hold p c' hp) hr
      refine ⟨h1, Nat.lt_of_le_of_ne h2 ?_⟩
      rintro rfl
      exact hq1 (h1 ▸ hp)
  · cases hs
    have hnone : ∀ p c', (s.pc p).sleepy = some c' → ¬s.pi.Ready c' := by
      intro p c' hp hr
      have h1 := h.below p c' hp
      have h2 := (honly p c' hp hr).2
      omega
    cases next with
    | returns r => exact h.returns hj hjn hnone
    | sleep c' t =>
      refine h.acts s.pi hj hjn rfl (fun c'' hc => ?_) fun p c'' hp hr => absurd hr (hnone p c'' hp)
      cases hc
      exact hgo c' t rfl
    | closed => exact (h.returns (r := 0) hj hjn hnone).congr rfl rfl rfl

/-- `pipeclose` takes the lock, closes its end and turns to the `wakeup` of the other. -/
theorem closes (writable : Bool) (hfree : s.lock = none) (hjn : j < nproc) :
    PipeInv { s.at_ j (.wakes (if writable then .nread else .nwrite) 0 .closed) with
      lock := some j, pi := { s.pi with toPipe := s.pi.toPipe.close writable } } := by
  refine h.takes _ hfree hjn rfl rfl fun p c hp hr => ⟨?_, Nat.zero_le p⟩
  -- what was ready before the end was closed is slept on by nobody
  have hnot := h.quiet hfree hp
  cases writable <;> cases c
  · exact absurd hr hnot
  · rfl
  · rfl
  · exact absurd hr hnot

end

end PipeInv

/-- A writer takes the exit for a killed process, with the read end open, only if it has put no byte into the ring since it took the
lock. A `wakeup(&pi->nread)` of a writer is its last step before it returns or sleeps, so no byte was put since the last one either. -/
def LeavesNoBytes (s : PipeLocks) (j : Nat) : PipeMove → Prop
  | .go _ _ =>
    match s.pc j with
    | .tests (.write _ n i) put => (i : Int) < n → s.pi.readopen = true → s.killed j = true → put = 0
    | _ => True
  | _ => True

theorem PipeLocks.takeLock_cases {s s1 : PipeLocks} {j : Nat} (h : s.takeLock j = some s1) :
    s.lock = none ∧ s1 = { s with lock := some j } := by
  unfold takeLock at h
  cases hl : s.lock with
  | none =>
    rw [hl] at h
    cases h
    exact ⟨rfl, rfl⟩
  | some q =>
    rw [hl] at h
    cases h

namespace PipeInv

variable {s s' : PipeLocks} {j : Nat}

theorem go {copyin : Option UInt8} {copyout : Bool} (h : PipeInv s) (hjn : j < nproc)
    (hcond : LeavesNoBytes s j (.go copyin copyout)) (hs : s.go j copyin copyout = some s') : PipeInv s' := by
  unfold PipeLocks.go at hs
  unfold LeavesNoBytes at hcond
  generalize hpc : s.pc j = pc at hs hcond
  cases pc with
  | idle | asleep c t =>
    cases hs
  | acquires t =>
    obtain ⟨s1, hlock, rfl⟩ := Option.map_eq_some_iff.mp hs
    obtain ⟨hfree, rfl⟩ := takeLock_cases hlock
    exact h.takes s.pi hfree hjn rfl rfl fun p c hp hr => absurd hr (h.quiet hfree hp)
  | closes writable =>
    obtain ⟨s1, hlock, rfl⟩ := Option.map_eq_some_iff.mp hs
    obtain ⟨hfree, rfl⟩ := takeLock_cases hlock
    exact h.closes writable hfree hjn
  | tests t put =>
    cases t with
    | write addr n i =>
      cases hs
      exact h.testsWrite hpc hjn hcond
    | read addr n =>
      cases hs
      exact h.testsRead hpc hjn
  | copies addr n i =>
    cases hs
    exact h.copiesByte hpc hjn
  | wakes c q next =>
    exact h.visits hpc hjn hs
  | sleeps c t =>
    cases hs
    refine h.acts s.pi (by rw [hpc]; rfl) hjn rfl (fun c' hc => ?_) fun p c' hp hr => (h.owes_of_holder hpc rfl p c' hp hr).elim
    exact h.going j c' (by rw [hpc]; exact hc)
  | locked c t =>
    cases hs
    refine h.releases (.unlocked c t) (by rw [hpc]; rfl) hjn rfl (fun c' hc => ?_) (h.owes_of_holder hpc rfl)
    exact h.going j c' (by rw [hpc]; exact hc)
  | unlocked c t =>
    cases hs
    exact h.moves (by rw [hpc]; rfl) rfl fun c' hc => by rw [hpc]; exact hc

theorem starts {c : PipeStart} (h : PipeInv s) (hs : s.start j c = some s') : PipeInv s' := by
  unfold start at hs
  split at hs
  · rename_i hidle
    have hj : (s.pc j).holds = false := by rw [hidle.1]; rfl
    cases c with
    | close w =>
      cases hs
      exact h.moves hj rfl fun _ hc => nomatch hc
    | task t =>
      cases t <;> cases hs
      all_goals exact h.moves hj rfl fun _ hc => nomatch hc
  · cases hs

theorem step {m : PipeMove} (h : PipeInv s) (hjn : j < nproc) (hcond : LeavesNoBytes s j m) (hs : s.move j m = some s') :
    PipeInv s' := by
  cases m with
  | start c => exact h.starts hs
  | go copyin copyout => exact h.go hjn hcond hs
  | kill v =>
    simp only [move, kill] at hs
    split at hs
    · cases hs
    · cases hs
      exact (h.wokenAt v).congr rfl rfl rfl

end PipeInv

theorem PipeReach.inv {s : PipeLocks} (h : PipeReach LeavesNoBytes s) : PipeInv s := by
  induction h with
  | fresh data => exact PipeInv.fresh data
  | step _ hj hp hs ih => exact ih.step hj hp hs

/-- No process sleeps on a ready pipe while the pipe's lock is free, in every run in which no writer takes the exit for a killed process
with bytes put since it took the lock. -/
theorem no_sleep_on_ready {s : PipeLocks} (h : PipeReach LeavesNoBytes s) (hfree : s.lock = none) (p : Nat) (t : PipeTask) :
    (s.pc p = .asleep .nread t → s.pi.ring.empty = true ∧ s.pi.writeopen = true) ∧
      (s.pc p = .asleep .nwrite t → s.pi.ring.full pipeSize counters = true ∧ s.pi.readopen = true) := by
  have hinv := h.inv
  refine ⟨fun e => ?_, fun e => ?_⟩
  · have hnot := hinv.quiet hfree (p := p) (c := .nread) (by rw [e]; rfl)
    simpa [PipeBuf.Ready] using hnot
  · have hnot := hinv.quiet hfree (p := p) (c := .nwrite) (by rw [e]; rfl)
    simpa [PipeBuf.Ready] using hnot

/-- A process goes on by itself, with copies that succeed. -/
def goOn (j : Nat) : Nat × PipeMove := (j, .go (some 7) true)

/-- A reader of an empty pipe, up to where it is `SLEEPING`. -/
def readerSleeps : List (Nat × PipeMove) :=
  (0, .start (.task (.read 0 1))) :: List.replicate 5 (goOn 0)

theorem no_sleep_on_ready_reader :
    ∃ s, PipeReach LeavesNoBytes s ∧ s.lock = none ∧ s.pc 0 = .asleep .nread (.read 0 1) ∧
      s.pi.ring.empty = true ∧ s.pi.writeopen = true := by
  have hcheck : ∀ (s : PipeLocks) j m, (!s.killed j) = true → LeavesNoBytes s j m := by
    intro s j m hk
    cases m with
    | go copyin copyout =>
      unfold LeavesNoBytes
      dsimp only
      split
      · intro _ _ hkill
        simp [hkill] at hk
      · trivial
    | start c | kill v => trivial
  obtain ⟨s, hr, ht⟩ := PipeReach.of_fresh hcheck readerSleeps
    (fun s => s.lock == none && s.pc 0 == .asleep .nread (.read 0 1)) (by decide +kernel)
  obtain ⟨h1, h2⟩ := Bool.and_eq_true_iff.mp ht
  have hfree := eq_of_beq h1
  have hpc := eq_of_beq h2
  exact ⟨s, hr, hfree, hpc, (no_sleep_on_ready hr hfree 0 (.read 0 1)).1 hpc⟩

/-- A writer of two bytes that is killed after the first leaves the reader asleep on it: the exit of `pipewrite` for a killed
process has no `wakeup`. -/
theorem killed_writer_leaves_reader_asleep :
    ∃ s, PipeReach (fun _ _ _ => True) s ∧ s.lock = none ∧ s.pc 0 = .asleep .nread (.read 0 1) ∧ s.pi.ring.empty = false := by
  obtain ⟨s, hr, ht⟩ := PipeReach.of_fresh (fun _ _ _ (_ : true = true) => trivial)
    (readerSleeps ++ [(1, .start (.task (.write 0 2 0))), goOn 1, goOn 1, (2, .kill 1), goOn 1])
    (fun s => s.lock == none && s.pc 0 == .asleep .nread (.read 0 1) && s.pi.ring.empty == false) (by decide +kernel)
  simp only [Bool.and_eq_true, beq_iff_eq] at ht
  exact ⟨s, hr, ht.1.1, ht.1.2, ht.2⟩

end Xv6Mmap

import Xv6Mmap.Log
import Xv6Mmap.Lib.Runs
import Mathlib.Algebra.Order.BigOperators.Group.Finset
import Mathlib.Data.Set.Card

/-!
# Group commit

What `begin_op`, `log_write` and `end_op` do to the log: which blocks `lh.block` holds, when a commit runs, and when `log_write` finds
no room.
-/

namespace Xv6Mmap

open Function LogSys Finset

/-! ## Steps -/

/-- What a step can do. -/
inductive LogStepDone (s : LogSys) (p : Nat) : LogEvent → LogSys → Prop where
  | same (ev : LogEvent) : LogStepDone s p ev s
  | begun (hp : s.proc p = .idle) (hc : s.log.committing = false)
      (hroom : (s.log.lh.length : Int) + (s.log.outstanding + 1) * maxOpBlocks ≤ logSize) :
      LogStepDone s p .begin { s.setProc p (.inOp ∅) with log := { s.log with outstanding := s.log.outstanding + 1 } }
  | wrote (b : Nat) (blocks : Finset Nat) (hp : s.proc p = .inOp blocks) (ho : 1 ≤ s.log.outstanding) :
      LogStepDone s p (.write b) { s.setProc p (.inOp (insert b blocks)) with log := s.log.record b }
  | ended (blocks : Finset Nat) (hp : s.proc p = .inOp blocks) (hc : s.log.committing = false) (hmore : s.log.outstanding ≠ 1) :
      LogStepDone s p .ends { s.setProc p .idle with
        log := { s.log with outstanding := s.log.outstanding - 1 }, ended := blocks :: s.ended }
  | last (blocks : Finset Nat) (hp : s.proc p = .inOp blocks) (hc : s.log.committing = false) (hone : s.log.outstanding = 1) :
      LogStepDone s p .ends { s.setProc p .commits with
        log := { s.log with outstanding := 0, committing := true }, ended := blocks :: s.ended }
  | committed (hp : s.proc p = .commits) :
      LogStepDone s p .commit { s.setProc p .cleared with log := commitDone s.log, ended := [] }
  | cleared (hp : s.proc p = .cleared) :
      LogStepDone s p .clear { s.setProc p .idle with log := commitCleared s.log }

theorem beginOp_some {l l' : Log} (h : beginOp l = some l') :
    l.committing = false ∧ (l.lh.length : Int) + (l.outstanding + 1) * maxOpBlocks ≤ logSize ∧
      l' = { l with outstanding := l.outstanding + 1 } := by
  unfold beginOp at h
  split at h
  · cases h
  rename_i hc
  split at h
  · cases h
  rename_i hroom
  cases h
  exact ⟨by simpa using hc, Int.not_lt.mp hroom, rfl⟩

theorem logWrite_ok {l l' : Log} {b : Nat} (h : logWrite l b = .ok l') : 1 ≤ l.outstanding ∧ l' = l.record b := by
  unfold logWrite at h
  split at h
  · cases h
  split at h
  · cases h
  cases h
  exact ⟨by omega, rfl⟩

theorem logStep_ok {s s' : LogSys} {p : Nat} {ev : LogEvent} (h : logStep s p ev = .ok s') : LogStepDone s p ev s' := by
  unfold logStep at h
  split at h
  · rename_i hp
    split at h
    · cases h
      exact .same _
    · rename_i l hl
      obtain ⟨hc, hroom, rfl⟩ := beginOp_some hl
      cases h
      exact .begun hp hc hroom
  · rename_i b blocks hp
    obtain ⟨l, hl, h⟩ := bind_eq_ok.mp h
    obtain ⟨ho, rfl⟩ := logWrite_ok hl
    cases h
    exact .wrote b blocks hp ho
  · rename_i blocks hp
    obtain ⟨⟨doCommit, l⟩, hl, h⟩ := bind_eq_ok.mp h
    unfold endOp at hl
    dsimp only at hl
    split at hl
    · cases hl
    rename_i hc
    split at hl
    · rename_i hone
      cases hl
      cases h
      rw [show s.log.outstanding - 1 = 0 from hone]
      exact .last blocks hp (by simpa using hc) (by omega)
    · cases hl
      cases h
      exact .ended blocks hp (by simpa using hc) (by omega)
  · rename_i hp
    cases h
    exact .committed hp
  · rename_i hp
    cases h
    exact .cleared hp
  · cases h
    exact .same _

/-- A step stops the kernel only in `log_write` and `end_op`, by a process in an operation. -/
theorem logStep_error {s : LogSys} {p : Nat} {ev : LogEvent} {e : LogPanic} (h : logStep s p ev = .error e) :
    ∃ blocks, s.proc p = .inOp blocks ∧
      (e = .tooBig ∨ e = .outsideTrans ∧ s.log.outstanding < 1 ∨ e = .committing ∧ s.log.committing = true) := by
  unfold logStep at h
  split at h
  · split at h <;> cases h
  · rename_i b blocks hp
    refine ⟨blocks, hp, ?_⟩
    unfold logWrite at h
    split at h
    · cases h
      exact Or.inl rfl
    split at h
    · rename_i ho
      cases h
      exact Or.inr (Or.inl ⟨rfl, ho⟩)
    · cases h
  · rename_i blocks hp
    refine ⟨blocks, hp, ?_⟩
    unfold endOp at h
    dsimp only at h
    split at h
    · rename_i hc
      cases h
      exact Or.inr (Or.inr ⟨rfl, hc⟩)
    · split at h <;> cases h
  · cases h
  · cases h
  · cases h

/-! ## The invariant -/

namespace Log

variable (l : Log) (b : Nat)

theorem record_rest : (l.record b).outstanding = l.outstanding ∧ (l.record b).committing = l.committing ∧
    (l.record b).size = l.size := by
  unfold record
  split <;> exact ⟨rfl, rfl, rfl⟩

theorem mem_record (x : Nat) : x ∈ (l.record b).lh ↔ x ∈ l.lh ∨ x = b := by
  unfold record
  split
  · rename_i hb
    constructor
    · exact Or.inl
    · rintro (hx | rfl)
      · exact hx
      · exact hb
  · simp

theorem record_nodup (h : l.lh.Nodup) : (l.record b).lh.Nodup := by
  unfold record
  split
  · exact h
  · rename_i hb
    rw [← List.concat_eq_append]
    exact List.Nodup.concat hb h

end Log

/-- The log and the processes fit together; `A` are the processes in an operation. -/
structure LogInv (s : LogSys) (A : Finset Nat) : Prop where
  active : ∀ p, p ∈ A ↔ ∃ blocks, s.proc p = .inOp blocks
  count : s.log.outstanding = A.card
  nodup : s.log.lh.Nodup
  logged : ∀ b, b ∈ s.log.lh ↔ b ∈ s.Logged
  quiet : s.log.committing = true → A = ∅
  committer : ∀ p, s.proc p = .commits ∨ s.proc p = .cleared → s.log.committing = true
  one : ∀ p q, (s.proc p = .commits ∨ s.proc p = .cleared) → (s.proc q = .commits ∨ s.proc q = .cleared) → p = q

theorem logInv_init (size : Nat) : LogInv (.init size) ∅ where
  active p := by simp [init]
  count := rfl
  nodup := List.nodup_nil
  logged b := by simp [init, LogSys.Logged]
  quiet h := rfl
  committer p h := by rcases h with h | h <;> cases h
  one p q h := by rcases h with h | h <;> cases h

section Step

variable {s s' : LogSys} {A : Finset Nat} {p b : Nat} {blocks : Finset Nat}

theorem LogInv.no_op (h : LogInv s A) (hc : s.log.committing = true) (q : Nat) (blocks : Finset Nat) : s.proc q ≠ .inOp blocks := by
  intro hq
  have hm : q ∈ A := (h.active q).mpr ⟨blocks, hq⟩
  rw [h.quiet hc] at hm
  exact absurd hm (notMem_empty q)

theorem LogInv.not_committing (h : LogInv s A) {q : Nat} (hq : s.proc q = .inOp blocks) : s.log.committing = false := by
  cases hc : s.log.committing with
  | false => rfl
  | true => exact absurd hq (h.no_op hc q blocks)

/-- What is logged once process `p` has moved to `o`. -/
theorem mem_logged_setProc {o : OpState} {l : Log} {E : List (Finset Nat)} : b ∈ (LogSys.mk l (update s.proc p o) E).Logged ↔
      (∃ x ∈ E, b ∈ x) ∨ (∃ blocks, o = .inOp blocks ∧ b ∈ blocks) ∨ ∃ q blocks, q ≠ p ∧ s.proc q = .inOp blocks ∧ b ∈ blocks := by
  constructor
  · intro h
    rcases h with h | ⟨q, blocks, hq, hb⟩
    · exact Or.inl h
    · by_cases hqp : q = p
      · subst hqp
        exact Or.inr (Or.inl ⟨blocks, by simpa using hq, hb⟩)
      · exact Or.inr (Or.inr ⟨q, blocks, hqp, by simpa [hqp] using hq, hb⟩)
  · intro h
    rcases h with h | ⟨blocks, ho, hb⟩ | ⟨q, blocks, hqp, hq, hb⟩
    · exact Or.inl h
    · exact Or.inr ⟨p, blocks, by simpa using ho, hb⟩
    · exact Or.inr ⟨q, blocks, by simpa [hqp] using hq, hb⟩

theorem mem_logged : b ∈ s.Logged ↔ (∃ x ∈ s.ended, b ∈ x) ∨ (∃ blocks, s.proc p = .inOp blocks ∧ b ∈ blocks) ∨
      ∃ q blocks, q ≠ p ∧ s.proc q = .inOp blocks ∧ b ∈ blocks := by
  have e : s = mk s.log (update s.proc p (s.proc p)) s.ended := by
    rw [update_eq_self]
  rw [e, mem_logged_setProc]
  simp

/-- Process `p` moves to `o`, and the log changes with it; a process that goes to commit is the only one. -/
theorem LogInv.moved (h : LogInv s A) {o : OpState} {l : Log} {E : List (Finset Nat)} {A' : Finset Nat}
    (hin : p ∈ A' ↔ ∃ blocks, o = .inOp blocks) (hrest : ∀ q, q ≠ p → (q ∈ A' ↔ q ∈ A)) (hcount : l.outstanding = A'.card)
    (hnodup : l.lh.Nodup) (hlogged : ∀ b, b ∈ l.lh ↔ b ∈ (LogSys.mk l (update s.proc p o) E).Logged)
    (hquiet : l.committing = true → A' = ∅)
    (hself : o = .commits ∨ o = .cleared → l.committing = true ∧ ∀ q, q ≠ p → ¬(s.proc q = .commits ∨ s.proc q = .cleared))
    (hothers : l.committing = s.log.committing ∨ ∀ q, q ≠ p → ¬(s.proc q = .commits ∨ s.proc q = .cleared)) :
    LogInv ⟨l, update s.proc p o, E⟩ A' := by
  have hcases : ∀ x, (update s.proc p o x = .commits ∨ update s.proc p o x = .cleared) →
      x = p ∧ (o = .commits ∨ o = .cleared) ∨ x ≠ p ∧ (s.proc x = .commits ∨ s.proc x = .cleared) := by
    intro x hx
    by_cases hxp : x = p
    · subst hxp
      exact Or.inl ⟨rfl, by simpa using hx⟩
    · exact Or.inr ⟨hxp, by simpa [hxp] using hx⟩
  refine ⟨(forall_update_iff s.proc fun q x => q ∈ A' ↔ ∃ blocks, x = .inOp blocks).mpr
    ⟨hin, fun q hq => (hrest q hq).trans (h.active q)⟩, hcount, hnodup, hlogged, hquiet, fun q hq => ?_, fun q r hq hr => ?_⟩
  · rcases hcases q hq with ⟨-, ho⟩ | ⟨hqp, hq⟩
    · exact (hself ho).1
    · rcases hothers with e | hno
      · exact e.trans (h.committer q hq)
      · exact absurd hq (hno q hqp)
  · rcases hcases q hq with ⟨eq, ho⟩ | ⟨hqp, hq⟩ <;> rcases hcases r hr with ⟨er, ho'⟩ | ⟨hrp, hr⟩
    · exact eq.trans er.symm
    · exact absurd hr ((hself ho).2 r hrp)
    · exact absurd hq ((hself ho').2 q hqp)
    · exact h.one q r hq hr

theorem LogInv.begun (h : LogInv s A) (hp : s.proc p = .idle) (hc : s.log.committing = false) :
    LogInv { s.setProc p (.inOp ∅) with log := { s.log with outstanding := s.log.outstanding + 1 } } (insert p A) := by
  have hpA : p ∉ A := by
    intro hm
    obtain ⟨blocks, hb⟩ := (h.active p).mp hm
    rw [hp] at hb
    cases hb
  refine h.moved (by simp) (fun q hq => by simp [hq]) ?_ h.nodup (fun b => ?_) (fun hc' => ?_) (fun e => by simp at e) (Or.inl rfl)
  · simp [card_insert_of_notMem hpA, h.count]
  · refine (h.logged b).trans ?_
    rw [mem_logged (p := p), mem_logged_setProc, hp]
    simp [setProc]
  · cases hc.symm.trans hc'

theorem LogInv.wrote (h : LogInv s A) (hp : s.proc p = .inOp blocks) :
    LogInv { s.setProc p (.inOp (insert b blocks)) with log := s.log.record b } A := by
  obtain ⟨hout, hcom, -⟩ := s.log.record_rest b
  refine h.moved (by simp [h.active p, hp]) (fun _ _ => Iff.rfl) (hout.trans h.count)
    (s.log.record_nodup b h.nodup) (fun x => ?_) (fun hc => h.quiet (hcom.symm.trans hc))
    (fun e => by simp at e) (Or.inl hcom)
  refine (s.log.mem_record b x).trans ?_
  rw [h.logged x, mem_logged (p := p), mem_logged_setProc]
  simp only [setProc, OpState.inOp.injEq, exists_eq_left', mem_insert]
  grind

/-- An operation ends: its process leaves it for `o`, and its blocks go to the list of those ended. -/
theorem LogInv.ended (h : LogInv s A) (hp : s.proc p = .inOp blocks) {o : OpState} {c : Bool}
    (ho : o = .idle ∧ c = false ∨ o = .commits ∧ c = true ∧ s.log.outstanding = 1) : LogInv { s.setProc p o with
      log := { s.log with outstanding := s.log.outstanding - 1, committing := c }, ended := blocks :: s.ended } (A.erase p) := by
  have hpA : p ∈ A := (h.active p).mpr ⟨blocks, hp⟩
  have hc := h.not_committing hp
  have hne : ∀ x, x ≠ p → ¬(s.proc x = .commits ∨ s.proc x = .cleared) := by
    intro x _ hx
    rw [h.committer x hx] at hc
    cases hc
  have hno : ∀ bs, o ≠ .inOp bs := by
    intro bs e
    rcases ho with ⟨rfl, -⟩ | ⟨rfl, -⟩ <;> cases e
  refine h.moved (by simp [hno]) (fun q hq => by simp [hq]) ?_ h.nodup (fun x => ?_) (fun hc' => ?_) (fun e => ⟨?_, hne⟩) (Or.inr hne)
  · have := card_pos.mpr ⟨p, hpA⟩
    simp only [card_erase_of_mem hpA, h.count]
    omega
  · refine (h.logged x).trans ?_
    rw [mem_logged (p := p), mem_logged_setProc]
    grind
  · have hc'' : c = true := hc'
    rcases ho with ⟨-, rfl⟩ | ⟨-, -, hone⟩
    · cases hc''
    · rw [← card_eq_zero, card_erase_of_mem hpA]
      have := h.count
      omega
  · rcases ho with ⟨rfl, -⟩ | ⟨-, rfl, -⟩
    · simp at e
    · rfl

/-- `commit` is done: the header is empty, and nothing has ended since. -/
theorem LogInv.committed (h : LogInv s A) (hp : s.proc p = .commits) :
    LogInv { s.setProc p .cleared with log := commitDone s.log, ended := [] } A := by
  have hc := h.committer p (Or.inl hp)
  refine h.moved (by simp [h.active p, hp]) (fun _ _ => Iff.rfl) h.count List.nodup_nil (fun x => ?_) h.quiet
    (fun _ => ⟨hc, fun q hq hco => hq (h.one q p hco (Or.inl hp))⟩) (Or.inl rfl)
  rw [mem_logged_setProc]
  simp only [commitDone, List.not_mem_nil, false_iff]
  rintro (⟨o, ho, -⟩ | ⟨bs, e, -⟩ | ⟨q, bs, -, hq, -⟩)
  · cases ho
  · cases e
  · exact h.no_op hc q bs hq

theorem LogInv.cleared (h : LogInv s A) (hp : s.proc p = .cleared) :
    LogInv { s.setProc p .idle with log := commitCleared s.log } A := by
  refine h.moved (by simp [h.active p, hp]) (fun _ _ => Iff.rfl) h.count h.nodup (fun x => ?_) nofun
    (fun e => by simp at e) (Or.inr fun q hq hco => hq (h.one q p hco (Or.inr hp)))
  refine (h.logged x).trans ?_
  rw [mem_logged (p := p), mem_logged_setProc, hp]
  simp [setProc]

theorem LogInv.step {ev : LogEvent} (h : LogInv s A) (hs : LogStepDone s p ev s') : ∃ A', LogInv s' A' := by
  cases hs with
  | same => exact ⟨A, h⟩
  | begun hp hc _ => exact ⟨_, h.begun hp hc⟩
  | wrote b blocks hp _ => exact ⟨_, h.wrote hp⟩
  | ended blocks hp hc _ =>
    have := h.ended (c := s.log.committing) hp (Or.inl ⟨rfl, hc⟩)
    exact ⟨_, this⟩
  | last blocks hp hc hone =>
    have := h.ended (c := true) hp (Or.inr ⟨rfl, rfl, hone⟩)
    rw [hone] at this
    exact ⟨_, this⟩
  | committed hp => exact ⟨_, h.committed hp⟩
  | cleared hp => exact ⟨_, h.cleared hp⟩

theorem LogStepDone.size {ev : LogEvent} (hs : LogStepDone s p ev s') : s'.log.size = s.log.size := by
  cases hs with
  | wrote b blocks hp _ => exact (s.log.record_rest b).2.2
  | _ => rfl

end Step

theorem reach_logInv {P : LogSys → Nat → LogEvent → Prop} {size : Nat} {s : LogSys} (h : LogReach P size s) :
    s.log.size = size ∧ ∃ A, LogInv s A := by
  induction h with
  | init => exact ⟨rfl, ∅, logInv_init size⟩
  | step _ _ hs ih =>
    obtain ⟨hsize, A, hinv⟩ := ih
    have hd := logStep_ok hs
    exact ⟨hd.size.trans hsize, hinv.step hd⟩

/-! ## Commits -/

/-- A commit takes whole operations: while one is in progress no operation runs, no other process changes the header, and the
header lists exactly the blocks of the operations that ended since the commit before; `end_op` and `log_write` meet the other
processes in no state they panic about, and no block is listed twice. -/
theorem groupCommit_reach {P : LogSys → Nat → LogEvent → Prop} {size : Nat} {s : LogSys} (h : LogReach P size s) :
    (s.log.committing = true → s.log.outstanding = 0 ∧ (∀ p blocks, s.proc p ≠ .inOp blocks) ∧
      ∀ p ev s', logStep s p ev = .ok s' → s.proc p ≠ .commits → s'.log.lh = s.log.lh ∧ s'.ended = s.ended) ∧
    (∀ p, s.proc p = .commits → s.log.committing = true ∧ ∀ b, b ∈ s.log.lh ↔ ∃ o ∈ s.ended, b ∈ o) ∧
    (∀ p ev, logStep s p ev ≠ .error .committing ∧ logStep s p ev ≠ .error .outsideTrans) ∧
    s.log.lh.Nodup := by
  obtain ⟨-, A, hinv⟩ := reach_logInv h
  refine ⟨fun hc => ⟨?_, hinv.no_op hc, fun p ev s' hs hp => ?_⟩, fun p hp => ?_, fun p ev => ?_, hinv.nodup⟩
  · rw [hinv.count, hinv.quiet hc]
    rfl
  · cases logStep_ok hs with
    | same | begun | cleared => exact ⟨rfl, rfl⟩
    | wrote b blocks hq | ended blocks hq | last blocks hq => exact absurd hq (hinv.no_op hc p blocks)
    | committed hq => exact absurd hq hp
  · have hc := hinv.committer p (Or.inl hp)
    refine ⟨hc, fun b => (hinv.logged b).trans ⟨fun hb => ?_, Or.inl⟩⟩
    rcases hb with hb | ⟨q, blocks, hq, -⟩
    · exact hb
    · exact absurd hq (hinv.no_op hc q blocks)
  · have hno : ∀ e, logStep s p ev = .error e → e = .tooBig := by
      intro e he
      obtain ⟨blocks, hp, htoo | ⟨-, ho⟩ | ⟨-, hc⟩⟩ := logStep_error he
      · exact htoo
      · have hm := card_pos.mpr ⟨p, (hinv.active p).mpr ⟨blocks, hp⟩⟩
        have := hinv.count
        omega
      · exact absurd hp (hinv.no_op hc p blocks)
    exact ⟨fun he => (nomatch hno _ he), fun he => (nomatch hno _ he)⟩

/-- A run of a list of steps, computed. -/
theorem reach_runLog {c : LogSys → Nat → LogEvent → Bool} {size : Nat} {s : LogSys} {evs : List (Nat × LogEvent)}
    (h : runSteps (fun s e => logStep s e.1 e.2) (fun s e => c s e.1 e.2) evs (.init size) = some s) :
    LogReach (fun s p ev => c s p ev = true) size s :=
  runSteps_keeps (fun _ _ _ hs hc hok => LogReach.step hs hc hok) evs LogReach.init h

/-- Two operations, both of which log block 4; the second to end commits. -/
theorem groupCommit_reach_two :
    ∃ s, LogReach (fun _ _ _ => true = true) mkfsNlog s ∧ s.proc 0 = .commits ∧ s.log.lh = [4, 5, 6] ∧
      s.log.committing = true ∧ ∀ b, b ∈ s.log.lh ↔ ∃ o ∈ s.ended, b ∈ o := by
  obtain ⟨s, hrun, hp, hlh⟩ : ∃ s, runSteps (fun s e => logStep s e.1 e.2) (fun _ _ => true)
      [(0, .begin), (1, .begin), (0, .write 4), (1, .write 5), (1, .write 4), (0, .write 6), (1, .ends), (0, .ends)]
      (.init mkfsNlog) = some s ∧ s.proc 0 = .commits ∧ s.log.lh = [4, 5, 6] := by
    decide +kernel
  have hs := reach_runLog (c := fun _ _ _ => true) hrun
  exact ⟨s, hs, hp, hlh, (groupCommit_reach hs).2.1 0 hp⟩

/-! ## Room in the log -/

/-- What an operation may still log within its reservation. -/
def OpState.left : OpState → Nat
  | .inOp blocks => maxOpBlocks - blocks.card
  | _ => 0

/-- The blocks logged and those the operations in `A` may still log fit in `LOGSIZE`. -/
def Reserved (s : LogSys) (A : Finset Nat) : Prop := s.log.lh.length + ∑ p ∈ A, (s.proc p).left ≤ logSize

theorem Log.length_record (l : Log) (b : Nat) : (l.record b).lh.length = if b ∈ l.lh then l.lh.length else l.lh.length + 1 := by
  unfold record
  split <;> simp

theorem OpState.left_le (o : OpState) : o.left ≤ maxOpBlocks := by
  cases o with
  | inOp blocks => exact Nat.sub_le _ _
  | _ => exact Nat.zero_le _

section Reservation

variable {s s' : LogSys} {A : Finset Nat} {p : Nat}

/-- The reservations of the processes other than `p` do not change when `p` moves. -/
theorem sum_left_setProc (o : OpState) (hp : p ∉ A) : ∑ q ∈ A, (update s.proc p o q).left = ∑ q ∈ A, (s.proc q).left := by
  refine sum_congr rfl fun q hq => ?_
  have hqp : q ≠ p := by
    rintro rfl
    exact hp hq
  rw [update_of_ne hqp]

/-- `begin_op` lets an operation in only if a whole reservation is free for it and for each one that runs. -/
theorem Reserved.begun (h : LogInv s A) (hp : p ∉ A)
    (hroom : (s.log.lh.length : Int) + (s.log.outstanding + 1) * maxOpBlocks ≤ logSize) :
    Reserved { s.setProc p (.inOp ∅) with log := { s.log with outstanding := s.log.outstanding + 1 } } (insert p A) := by
  have hsum : ∑ q ∈ A, (s.proc q).left ≤ A.card * maxOpBlocks := sum_le_card_nsmul A _ _ fun q _ => (s.proc q).left_le
  have hcount := h.count
  have hnew : (OpState.inOp ∅).left = maxOpBlocks := rfl
  unfold Reserved
  rw [sum_insert hp]
  simp only [setProc, update_self, sum_left_setProc _ hp, hnew]
  simp only [maxOpBlocks, logSize] at *
  omega

/-- A block logged within the limit of its operation is one of those reserved for it. -/
theorem Reserved.wrote (h : LogInv s A) (hr : Reserved s A) {b : Nat} {blocks : Finset Nat} (hp : s.proc p = .inOp blocks)
    (hw : (insert b blocks).card ≤ maxOpBlocks) :
    Reserved { s.setProc p (.inOp (insert b blocks)) with log := s.log.record b } A := by
  have hpA : p ∈ A := (h.active p).mpr ⟨blocks, hp⟩
  unfold Reserved at hr ⊢
  rw [← add_sum_erase A _ hpA] at hr ⊢
  simp only [setProc, update_self, sum_left_setProc _ (notMem_erase p A)]
  have hlen := s.log.length_record b
  simp only [hp, OpState.left] at hr ⊢
  by_cases hb : b ∈ s.log.lh
  · rw [if_pos hb] at hlen
    have hle : blocks.card ≤ (insert b blocks).card := card_le_card (subset_insert b blocks)
    omega
  · rw [if_neg hb] at hlen
    -- a block that is new in the log is new in the operation
    have hnew : b ∉ blocks := fun hm => hb ((h.logged b).mpr (Or.inr ⟨p, blocks, hp, hm⟩))
    rw [card_insert_of_notMem hnew] at hw ⊢
    omega

theorem Reserved.erase (hr : Reserved s A) {o : OpState} {l : Log} {E : List (Finset Nat)} (hl : l.lh = s.log.lh) :
    Reserved ⟨l, update s.proc p o, E⟩ (A.erase p) := by
  have hle : ∑ q ∈ A.erase p, (s.proc q).left ≤ ∑ q ∈ A, (s.proc q).left :=
    sum_le_sum_of_subset (erase_subset p A)
  unfold Reserved at hr ⊢
  simp only [hl, sum_left_setProc o (notMem_erase p A)]
  omega

theorem Reserved.step {ev : LogEvent} (h : LogInv s A) (hr : Reserved s A) (hw : withinOp s p ev = true)
    (hs : LogStepDone s p ev s') : ∃ A', LogInv s' A' ∧ Reserved s' A' := by
  have hout : ∀ {o}, s.proc p = o → (∀ bs, o ≠ .inOp bs) → p ∉ A := by
    intro o ho hno hm
    obtain ⟨bs, hbs⟩ := (h.active p).mp hm
    exact hno bs (ho.symm.trans hbs)
  cases hs with
  | same => exact ⟨A, h, hr⟩
  | begun hp hc hroom => exact ⟨_, h.begun hp hc, Reserved.begun h (hout hp nofun) hroom⟩
  | wrote b blocks hp _ =>
    have hw' : (insert b blocks).card ≤ maxOpBlocks := by simpa [withinOp, hp] using hw
    exact ⟨_, h.wrote hp, Reserved.wrote h hr hp hw'⟩
  | ended blocks hp hc _ => exact ⟨_, h.ended (c := s.log.committing) hp (Or.inl ⟨rfl, hc⟩), hr.erase rfl⟩
  | last blocks hp hc hone =>
    have hinv := h.ended (c := true) hp (Or.inr ⟨rfl, rfl, hone⟩)
    rw [hone] at hinv
    exact ⟨_, hinv, hr.erase rfl⟩
  | committed hp =>
    refine ⟨_, h.committed hp, ?_⟩
    have hA := h.quiet (h.committer p (Or.inl hp))
    rw [hA]
    exact Nat.zero_le _
  | cleared hp =>
    refine ⟨_, h.cleared hp, ?_⟩
    unfold Reserved at hr ⊢
    simp only [setProc, commitCleared, sum_left_setProc _ (hout hp nofun)]
    exact hr

/-- In every run within the limit of each operation, the reservations hold. -/
theorem reach_reserved {size : Nat} (h : LogReach (fun s p ev => withinOp s p ev = true) size s) :
    ∃ A, LogInv s A ∧ Reserved s A := by
  induction h with
  | init => exact ⟨∅, logInv_init size, by simp [Reserved, init]⟩
  | step _ hw hs ih =>
    obtain ⟨A, hinv, hr⟩ := ih
    exact Reserved.step hinv hr hw (logStep_ok hs)

/-- The header has one entry for each block logged since the last commit. -/
theorem LogInv.ncard_logged (h : LogInv s A) : s.Logged.ncard = s.log.lh.length := by
  have e : s.Logged = (s.log.lh.toFinset : Set Nat) := by
    ext b
    simp [h.logged b]
  rw [e, Set.ncard_coe_finset, List.toFinset_card_of_nodup h.nodup]

end Reservation

/-- `log_write` by an operation within its limit finds room exactly when fewer than `LOGSIZE - 1` blocks were logged since the last
commit, whether or not the block is among them: the log of `mkfs` holds one block less than `begin_op` counts on. There is always
an entry of the header for a new block. -/
theorem logWrite_room {s : LogSys} {p b : Nat} {blocks : Finset Nat}
    (h : LogReach (fun s p ev => withinOp s p ev = true) mkfsNlog s) (hp : s.proc p = .inOp blocks)
    (hw : withinOp s p (.write b) = true) :
    (logStep s p (.write b) ≠ .error .tooBig ↔ s.Logged.ncard < logSize - 1) ∧ (b ∉ s.Logged → s.Logged.ncard < logSize) := by
  obtain ⟨hsize, -⟩ := reach_logInv h
  obtain ⟨A, hinv, hr⟩ := reach_reserved h
  have hpA : p ∈ A := (hinv.active p).mpr ⟨blocks, hp⟩
  rw [hinv.ncard_logged]
  constructor
  · have hstep : logStep s p (.write b) = .error .tooBig ↔ logSize ≤ s.log.lh.length ∨ (s.log.size : Int) - 1 ≤ s.log.lh.length := by
      unfold logStep
      rw [hp]
      dsimp only
      unfold logWrite
      split
      · rename_i hfull
        exact ⟨fun _ => hfull, fun _ => rfl⟩
      · rename_i hfull
        refine ⟨fun he => ?_, fun hf => absurd hf hfull⟩
        split at he <;> cases he
    rw [Ne, hstep, hsize]
    simp only [mkfsNlog, logSize, maxOpBlocks]
    omega
  · intro hb
    have hnew : b ∉ blocks := fun hm => hb (Or.inr ⟨p, blocks, hp, hm⟩)
    have hlim : (insert b blocks).card ≤ maxOpBlocks := by simpa [withinOp, hp] using hw
    rw [card_insert_of_notMem hnew] at hlim
    unfold Reserved at hr
    rw [← add_sum_erase A _ hpA] at hr
    simp only [hp, OpState.left] at hr
    omega

/-- Three operations side by side that log ten blocks each, all but the last of which are logged. -/
def threeOps : List (Nat × LogEvent) :=
  [(0, .begin), (1, .begin), (2, .begin)] ++ (List.range 29).map fun b => (b / 10, .write b)

/-- The three operations that `begin_op` admits together do not fit: the last block finds the log full, and so does a block that is
logged already. -/
theorem logWrite_room_threeOps :
    ∃ s, LogReach (fun s p ev => withinOp s p ev = true) mkfsNlog s ∧
      (withinOp s 2 (.write 29) = true ∧ logStep s 2 (.write 29) = .error .tooBig) ∧
      (withinOp s 0 (.write 0) = true ∧ 0 ∈ s.log.lh ∧ logStep s 0 (.write 0) = .error .tooBig) := by
  obtain ⟨s, hrun, hlast, hfirst⟩ : ∃ s,
      runSteps (fun s e => logStep s e.1 e.2) (fun s e => withinOp s e.1 e.2) threeOps (.init mkfsNlog) = some s ∧
        (withinOp s 2 (.write 29) = true ∧ logStep s 2 (.write 29) = .error .tooBig) ∧
        (withinOp s 0 (.write 0) = true ∧ 0 ∈ s.log.lh ∧ logStep s 0 (.write 0) = .error .tooBig) := by
    decide +kernel
  exact ⟨s, reach_runLog hrun, hlast, hfirst⟩

/-- The first write of an operation. -/
theorem logWrite_room_first :
    ∃ s, LogReach (fun s p ev => withinOp s p ev = true) mkfsNlog s ∧ s.proc 0 = .inOp ∅ ∧
      (logStep s 0 (.write 7) ≠ .error .tooBig ↔ s.Logged.ncard < logSize - 1) ∧ (7 ∉ s.Logged → s.Logged.ncard < logSize) := by
  have hb : logStep (.init mkfsNlog) 0 .begin =
      .ok { (init mkfsNlog).setProc 0 (.inOp ∅) with log := ⟨mkfsNlog, 1, false, []⟩ } := rfl
  have hs : LogReach (fun s p ev => withinOp s p ev = true) mkfsNlog
      { (init mkfsNlog).setProc 0 (.inOp ∅) with log := ⟨mkfsNlog, 1, false, []⟩ } := .step .init rfl hb
  exact ⟨_, hs, rfl, logWrite_room hs (p := 0) (b := 7) rfl (by decide)⟩

end Xv6Mmap

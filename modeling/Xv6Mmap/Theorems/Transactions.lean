import Xv6Mmap.BlockBoot
import Xv6Mmap.Lemmas.BlockOps

/-!
# File updates and operations

Every system call brackets its updates by `begin_op` and `end_op`. Two things are done outside of the bracket. `read` and the page fault
read a file, and `bmap` allocates a block that is not there. And `munmap` leaves the bracket to its caller: `exit` has none, and the
write-back of a dirty page of a shared VMA updates the file outside of any operation.
-/

namespace Xv6Mmap.Blk

/-- The rules of the log, over the depth of operations: a process logs and ends operations only inside of one; outside, the blocks that it
reads are there, and `munmap` finds no dirty page of a shared VMA. -/
def opRules : Rules Act Act.Res Nat where
  may g
    | .logWrite _ | .endOp => 0 < g
    | _ => True
  gives g
    | .addr _ _ | .entry _ _ => fun r : Nat => g = 0 → r ≠ 0
    | .dirtyShared _ _ => fun r : Bool => g = 0 → r = false
    | _ => fun _ => True
  next g
    | .beginOp, _ => g + 1
    | .endOp, _ => g - 1
    | _, _ => g

/-! ## The calls obey the rules -/

theorem opRules_plain (G : Nat → Prop) : PlainSteady opRules G := by
  intro a ha g _
  cases a <;> first | exact ⟨trivial, fun _ _ => rfl⟩ | exact absurd ha Bool.false_ne_true

theorem opRules_read (G : Nat → Prop) : ReadSteady opRules G where
  plain := opRules_plain G
  bread := fun _ _ _ => ⟨trivial, fun _ _ => rfl⟩
  brelse := fun _ _ _ => ⟨trivial, fun _ _ => rfl⟩

theorem opRules_write : WriteSteady opRules (0 < ·) where
  toReadSteady := opRules_read _
  bset := fun _ _ _ _ => ⟨trivial, fun _ _ => rfl⟩
  logWrite := fun _ _ hg => ⟨hg, fun _ _ => rfl⟩
  copyin := fun _ _ _ _ _ _ => ⟨trivial, fun _ _ => rfl⟩

theorem opRules_commit (G : Nat → Prop) : CommitSteady opRules G where
  toReadSteady := opRules_read G
  bset := fun _ _ _ _ => ⟨trivial, fun _ _ => rfl⟩
  bwrite := fun _ _ _ => ⟨trivial, fun _ _ => rfl⟩
  header := fun _ _ => ⟨trivial, fun _ _ => rfl⟩
  commitDone := fun _ _ => ⟨trivial, fun _ _ => rfl⟩
  commitCleared := fun _ _ => ⟨trivial, fun _ _ => rfl⟩

variable {sb : Superblock}

/-- An operation may be begun anywhere; inside of it the depth is positive. -/
theorem transaction_keeps {α : Type} (p : Code α) (hp : Keeps opRules (0 < ·) p) : Keeps opRules (fun _ => True) (transaction sb p) := by
  intro g _
  refine obeys_bind (Q := fun _ g' => g' = g + 1) ⟨trivial, fun _ _ => rfl⟩ fun _ g' e => ?_
  subst e
  refine obeys_bind (hp (g + 1) g.succ_pos) fun r g' e => ?_
  subst e
  refine obeys_bind (Q := fun _ g' => g' = g) ?_ fun _ _ e => e
  refine obeys_bind (Q := fun _ g' => g' = g) ⟨g.succ_pos, fun _ _ => rfl⟩ fun doCommit g' e => ?_
  subst e
  exact (opRules_commit fun _ => True).after doCommit g' trivial

theorem bmap_outside (j bn : Nat) : Keeps opRules (· = 0) (bmap sb j bn) := by
  have hread := opRules_read (· = 0)
  have haddr : ∀ j bn g, g = 0 → Obeys opRules (addr j bn) g fun a g' => g' = g ∧ a ≠ 0 :=
    fun j bn g hg => ⟨trivial, fun a ha => ⟨rfl, ha hg⟩⟩
  have hentry : ∀ b bn g, g = 0 → Obeys opRules (entry b bn) g fun e g' => g' = g ∧ e ≠ 0 :=
    fun b bn g hg => ⟨trivial, fun e he => ⟨rfl, he hg⟩⟩
  refine keeps_ite (fun _ => ?_) fun _ => keeps_ite (fun _ => ?_) fun _ => keeps_dieFs hread.plain _
  · refine keeps_bind_of (haddr j bn) fun a ha => ?_
    rw [if_neg ha]
    exact keeps_pure a
  · refine keeps_bind_of (haddr j ndirect) fun a ha => ?_
    rw [if_neg ha]
    refine keeps_bind (keeps_pure a) fun a => keeps_bind (keeps_call (hread.bread a)) fun d => keeps_bind_of (hentry a _) fun e he => ?_
    rw [if_neg he]
    exact keeps_bind (keeps_pure e) fun e => keeps_bind (keeps_call (hread.brelse a)) fun _ => keeps_pure e

/-- What is obeyed both outside and inside of operations. -/
theorem keeps_anywhere {α : Type} {p : Code α} (h0 : Keeps opRules (· = 0) p) (h : Keeps opRules (0 < ·) p) :
    Keeps opRules (fun _ => True) p :=
  (h0.or h).weaken fun g _ => g.eq_zero_or_pos

/-- Every call brackets its updates. -/
theorem opRules_calls (sb : Superblock) : CallKeeps opRules (fun _ => True) (0 < ·) sb := by
  have hfs : FsKeeps opRules (0 < ·) sb := opRules_write.writes.fsKeeps
  have hp : PlainSteady opRules fun _ => True := opRules_plain _
  have hread := opRules_read fun _ => True
  have hacq : Steady opRules (fun _ => True) .acquireP := fun _ _ => ⟨trivial, fun _ _ => rfl⟩
  have hrel : Steady opRules (fun _ => True) .releaseP := fun _ _ => ⟨trivial, fun _ _ => rfl⟩
  have hput : ∀ ip, Keeps opRules (fun _ => True) (transaction sb (iput sb ip)) := fun ip => transaction_keeps _ (hfs.iput ip)
  have hclose := closeFiles_keeps hp hput
  have hmunmap : ∀ {G : Nat → Prop} {Q : Bool → Prop}, (∀ g, G g → ∀ dirty, (g = 0 → dirty = false) → Q dirty) →
      (Q true → ∀ a i page, Keeps opRules G (writeBack sb a i page)) → ∀ start length, Keeps opRules G (munmap sb start length) :=
    fun hq => munmap_keeps (opRules_plain _) (fun g _ => hacq g trivial) (fun g _ => hrel g trivial)
      (fun n fd => (hclose n fd).weaken fun _ _ => trivial) fun _ _ g hg => ⟨trivial, fun dirty hd => ⟨rfl, hq g hg dirty hd⟩⟩
  -- outside of an operation nothing is written back
  have hout : ∀ start length, Keeps opRules (· = 0) (munmap sb start length) :=
    hmunmap (Q := (· = false)) (fun _ hg _ hd => hd hg) fun e => (Bool.false_ne_true e.symm).elim
  have hin : ∀ start length, Keeps opRules (0 < ·) (munmap sb start length) :=
    hmunmap (Q := fun _ => True) (fun _ _ _ _ => trivial) fun _ => writeBack_keeps hfs.plain hfs.ilock hfs.writei
  exact
    { fs := hfs
      inner := fun _ _ => trivial
      plain := hp
      transaction := transaction_keeps
      ilock := ilock_keeps hread.reads
      readi := readi_keeps hread.reads fun j bn => keeps_anywhere (bmap_outside j bn) (opRules_write.writes.bmap j bn)
      munmap := fun start length => keeps_anywhere (hout start length) (hin start length)
      mmap := mmap_keeps hp hacq hrel
      ownLock := keeps_bind (keeps_call hacq) fun _ => keeps_call hrel }

/-! ## The condition -/

/-- Whether an action is harmless outside of an operation: the block that `bmap` looks up is there, so a reader meets no hole; and the
page that `munmap` looks at is no dirty page of a shared VMA, so it is not written back. -/
def harmless (s : Sys) (i : Nat) : Act → Bool
  | .addr j bn => decide ((s.inode j).addrs bn ≠ 0)
  | .entry b bn => decide (leField ((s.cache b).getD (s.disk b)) (4 * bn) 4 ≠ 0)
  | .dirtyShared a page =>
    !(s.k.proc i).pagetable.any fun pt => hasFlag (pt.pte page) pteD && decide ((s.k.vmas a).flag = mapShared)
  | _ => true

/-- Processes of the table that are in no operation meet no hole when they read, and unmap no dirty page of a shared VMA. -/
def bracketed (s : Sys) (i : Nat) (a : Act) : Bool := decide (i < nproc) && (decide (0 < s.inOp i) || harmless s i a)

theorem bracketed_gives {Λ : Layout} {s s' : Sys} {i : Nat} {a : Act} {r : a.Res} (hb : bracketed s i a = true)
    (h : perform Λ s i a = .ok (r, s')) : opRules.gives (s.inOp i) a r := by
  have hout : s.inOp i = 0 → harmless s i a = true := by
    intro h0
    rw [bracketed, h0] at hb
    exact (Bool.and_eq_true_iff.mp hb).2
  cases a
  case addr j bn =>
    intro h0
    cases h
    exact of_decide_eq_true (hout h0)
  case entry b bn =>
    intro h0
    cases h
    exact of_decide_eq_true (hout h0)
  case dirtyShared v page =>
    intro h0
    have hclean := hout h0
    simp only [perform, Sys.table] at h
    simp only [harmless] at hclean
    cases hpt : (s.k.proc i).pagetable with
    | none =>
      rw [hpt] at h
      cases h
    | some pt =>
      rw [hpt] at h hclean
      cases h
      rwa [Bool.not_eq_true'] at hclean
  all_goals exact trivial

/-- The rules count as the operations are counted. -/
theorem opRules_next (g : Nat) (a : Act) (r : a.Res) : opRules.next g a r = opDepth g a := by
  cases a <;> rfl

/-! ## The theorem -/

/-- `log_write` panics for being outside of a transaction only when nobody is in an operation. -/
theorem logWrite_outside {Λ : Layout} {s : Sys} {i b : Nat} (h : perform Λ s i (.logWrite b) = .error (.log .outsideTrans)) :
    s.log.outstanding < 1 := by
  simp only [perform, Sys.logWrite, Xv6Mmap.logWrite] at h
  split at h
  · rename_i e he
    cases h
    split at he
    · cases he
    split at he
    · assumption
    · cases he
  · cases h

/-- In every run whose actions meet the condition, each `log_write` is made by a process inside of an operation of its own, so it does not
panic for being outside of one, and nothing is committed while a process is inside of an operation. -/
theorem log_writes_in_operations {Λ : Layout} {sb : Superblock} {c₀ c : Conf Act Act.Res Sys} (h0 : Idle c₀)
    (hrun : (machine Λ sb).Reach (fun s i a => bracketed s i a = true) c₀ c) :
    (∀ i b k, c.prog i = .act (.logWrite b) k →
      0 < c.state.inOp i ∧ perform Λ c.state i (.logWrite b) ≠ .error (.log .outsideTrans)) ∧
    (c.state.log.committing = true → ∀ i, c.state.inOp i = 0) := by
  have hact : ∀ s g i a r s', OpInv s g → bracketed s i a = true → opRules.may (g i) a → perform Λ s i a = .ok (r, s') →
      opRules.gives (g i) a r ∧ OpInv s' (Function.update g i (opRules.next (g i) a r)) := by
    intro s g i a r s' hI hb hmay h
    have hi : i < nproc := of_decide_eq_true (Bool.and_eq_true_iff.mp hb).1
    refine ⟨by rw [hI.view i]; exact bracketed_gives hb h, ?_⟩
    rw [opRules_next]
    refine hI.act hi (fun e => ?_) h
    subst e
    exact hmay
  obtain ⟨g, hinv, hob⟩ := Machine.reach_obeys (R := opRules) (I := OpInv) (z := 0) hrun
    hact (fun p => (opRules_calls sb).prog p 0 trivial)
    (fun s g e hI => hI.beside e) (opInv_idle h0) h0.prog
  refine ⟨fun i b k hk => ?_, fun hc i => ?_⟩
  · have hmay := hob i
    rw [hk] at hmay
    have hpos : 0 < c.state.inOp i := by
      rw [← hinv.view i]
      exact hmay.1
    refine ⟨hpos, fun h => ?_⟩
    have hlt := logWrite_outside h
    have hle := hinv.inOp_le i
    omega
  · have hle := hinv.inOp_le i
    rw [hinv.commit hc] at hle
    omega

/-- The next action of a process is a `log_write`. -/
def logsNext : Act → Bool
  | .logWrite _ => true
  | _ => false

/-- A `write` of one byte comes to its `log_write` inside of its operation. -/
theorem log_writes_in_operations_write : ∃ k₀ k c b p, Booted demoLayout k₀ ∧ Xv6Mmap.Reach demoLayout (fun _ _ _ => True) k₀ k ∧
    (machine demoLayout demoSb).Reach (fun s i a => bracketed s i a = true) (demoConf (fun _ => false) k) c ∧
    c.prog 0 = .act (.logWrite b) p ∧ 0 < c.state.inOp 0 ∧
    perform demoLayout c.state 0 (.logWrite b) ≠ .error (.log .outsideTrans) := by
  obtain ⟨k₀, k, c, h0, hk, hrun, a, p, hp, ha⟩ := reach_demoCalls (T := fun c => ∃ a p, c.prog 0 = .act a p ∧ logsNext a = true)
    (fun s i a (h : bracketed s i a = true) => h) [(0, .openPath demoPath oRdwr)] (fun _ => false) (firstActs 0 (.write 0 0 1) 11)
    (by decide +kernel)
  cases a
  case logWrite b =>
    have h := (log_writes_in_operations (idle_idleSys k _ _ _) hrun).1 0 b p hp
    exact ⟨k₀, k, c, b, p, h0, hk, hrun, hp, h.1, h.2⟩
  all_goals cases ha

/-- A process exits with a dirty page of a shared mapping while nobody is in an operation: its write-back comes to `log_write` outside of
any operation, and `log_write` panics. -/
theorem exit_logs_outside : ∃ k₀ k c b p, Booted demoLayout k₀ ∧ Xv6Mmap.Reach demoLayout (fun _ _ _ => True) k₀ k ∧
    Idle (demoConf (fun b => decide (60 ≤ b)) k) ∧
    (machine demoLayout demoSb).Reach (fun _ _ _ => True) (demoConf (fun b => decide (60 ≤ b)) k) c ∧
    c.prog 1 = .act (.logWrite b) p ∧ c.state.inOp 1 = 0 ∧
    perform demoLayout c.state 1 (.logWrite b) = .error (.log .outsideTrans) := by
  obtain ⟨k₀, k, c, h0, hk, hrun, a, p, hp, ha, hout, hpanic⟩ := reach_demoCalls
    (T := fun c => ∃ a p, c.prog 1 = .act a p ∧ logsNext a = true ∧ c.state.inOp 1 = 0 ∧
      perform demoLayout c.state 1 a = .error (.log .outsideTrans)) any_action
    [(0, .openPath demoPath oRdwr), (0, .mmap 4096 protReadWrite mapShared 0), (0, .fork), (1, .fault startAddress .store),
      (1, .store startAddress 1)]
    (fun b => decide (60 ≤ b)) (firstActs 1 (.exit 1) 34) (by decide +kernel)
  cases a
  case logWrite b => exact ⟨k₀, k, c, b, p, h0, hk, idle_idleSys k _ _ _, hrun, hp, hout, hpanic⟩
  all_goals cases ha

end Xv6Mmap.Blk

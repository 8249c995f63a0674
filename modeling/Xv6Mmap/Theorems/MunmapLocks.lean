import Xv6Mmap.BlockBoot
import Xv6Mmap.Lemmas.BlockSteps
import Xv6Mmap.Lemmas.Pages

/-!
# `munmap` and `p->lock`

`munmap` holds `p->lock` from its first to its last line, so nothing in between may sleep or wake others up. The page loop keeps to that
unless it has something to write back.
-/

namespace Xv6Mmap.Blk

open Function

/-- The actions that may call `sleep`, which acquires the `p->lock` of the caller. -/
def Act.sleeps : Act → Bool
  | .bread _ | .bwrite _ | .beginOp | .acquiresleep _ | .iputBegin _ | .device => true
  | _ => false

/-- The actions that call `wakeup`, which acquires the `p->lock` of every other process. -/
def Act.wakes : Act → Bool
  | .brelse _ | .endOp | .commitCleared | .releasesleep _ | .wakeup | .device => true
  | _ => false

/-- Actions that acquire no `p->lock`. -/
def Act.noLock : Act → Bool
  | .acquireP => false
  | a => !a.sleeps && !a.wakes

/-- A process does not hold its own `p->lock`, holds it, or holds it and is the first process in a call of `exit`, which panics. -/
inductive LockView where
  | free | held | dying
  deriving DecidableEq

/-- The rules: a process that holds its `p->lock` acquires no other and not its own; what it unmaps needs no write-back and can be freed,
except by the first process, and `mmap` finds a place. -/
def lockRules : Rules Act Act.Res LockView where
  may g a := g ≠ .free → a.noLock = true
  gives g
    | .dirtyShared _ _ | .noPlace _ => fun r : Bool => g = .held → r = false
    | .isInit => fun r : Bool => g = .dying → r = true
    | _ => fun _ => True
  next
    | _, .acquireP => fun _ => .held
    | _, .releaseP => fun _ => .free
    | .held, .unmapPage _ => fun r : Bool => if r then .held else .dying
    | g, _ => fun _ => g

/-! ## The calls obey the rules -/

theorem steady_free {a : Act} (h : lockRules.next .free a = fun _ => .free) : Steady lockRules (· = .free) a := by
  intro g hg
  subst hg
  exact ⟨fun h => absurd rfl h, fun r _ => congrFun h r⟩

theorem steady_held {a : Act} (hn : a.noLock = true) (h : lockRules.next .held a = fun _ => .held) : Steady lockRules (· = .held) a := by
  intro g hg
  subst hg
  exact ⟨fun _ => hn, fun r _ => congrFun h r⟩

theorem lockRules_plain : PlainSteady lockRules (· = .free) := by
  intro a ha
  refine steady_free ?_
  cases a <;> first | rfl | exact absurd ha Bool.false_ne_true

theorem lockRules_write : WriteSteady lockRules (· = .free) where
  plain := lockRules_plain
  bread := fun _ => steady_free rfl
  brelse := fun _ => steady_free rfl
  bset := fun _ _ => steady_free rfl
  logWrite := fun _ => steady_free rfl
  copyin := fun _ _ _ _ => steady_free rfl

theorem lockRules_commit : CommitSteady lockRules (· = .free) where
  toReadSteady := lockRules_write.toReadSteady
  bset := fun _ _ => steady_free rfl
  bwrite := fun _ => steady_free rfl
  header := steady_free rfl
  commitDone := steady_free rfl
  commitCleared := steady_free rfl

variable {sb : Superblock} {a : Act} {Λ : Layout} {s s' : Sys} {g : Nat → LockView} {i : Nat}

theorem keeps_acquireP {p : Code Unit} (h : Obeys lockRules p .held fun _ g => g = .free) :
    Keeps lockRules (· = .free) (act .acquireP >>= fun _ => p) := by
  intro g hg
  subst hg
  refine obeys_bind (Q := fun _ g => g = LockView.held) ⟨fun h => absurd rfl h, fun _ _ => rfl⟩ fun _ g hg => ?_
  subst hg
  exact h

theorem obeys_releaseP : Obeys lockRules (act .releaseP) .held fun _ g => g = .free := ⟨fun _ => rfl, fun _ _ => rfl⟩

theorem obeys_test {Q : a.Res → Prop} (hn : a.noLock = true) (hnext : lockRules.next .held a = fun _ => .held)
    (h : ∀ r, lockRules.gives .held a r → Q r) (g : LockView) (hg : g = .held) :
    Obeys lockRules (act a) g fun r g' => g' = g ∧ Q r := by
  subst hg
  exact ⟨fun _ => hn, fun r hr => ⟨congrFun hnext r, h r hr⟩⟩

/-- `exit` of the first process panics. -/
theorem exitLocked_dying {α : Type} (Q : α → LockView → Prop) : Obeys lockRules (exitLocked sb : Code α) .dying Q := by
  refine obeys_bind (Q := fun r g => r = true ∧ g = LockView.dying) ⟨fun _ => rfl, fun r hr => ⟨hr rfl, rfl⟩⟩ fun r g h => ?_
  obtain ⟨hr, hg⟩ := h
  subst hr hg
  exact ⟨fun _ => rfl, fun r => (r : Empty).elim⟩

theorem munmapPages_held (a start n i : Nat) : Keeps lockRules (· = .held) (munmapPages sb a start n i) := by
  induction n generalizing i with
  | zero => exact keeps_pure true
  | succ n ih =>
    refine keeps_bind (keeps_call (steady_held rfl rfl)) fun valid => keeps_ite (fun _ => ih _) fun _ => ?_
    refine keeps_bind_of (obeys_test (a := .dirtyShared _ _) (Q := fun r : Bool => r = false) rfl rfl fun r hr => hr rfl) fun dirty hd => ?_
    subst hd
    refine keeps_bind (keeps_pure (true, false)) fun r => keeps_ite (fun _ => keeps_pure false) fun _ => ?_
    -- a page that `kfree` refuses is unmapped by the first process
    intro g hg
    subst hg
    refine obeys_bind (Q := fun (freed : Bool) (g : LockView) => g = if freed then .held else .dying) ⟨fun _ => rfl, fun _ _ => rfl⟩
      fun freed g hg => ?_
    cases freed with
    | false =>
      subst hg
      exact exitLocked_dying _
    | true =>
      subst hg
      exact keeps_ite (G := (· = LockView.held)) (fun _ => keeps_pure true) (fun _ => ih _) LockView.held rfl

theorem munmap_free (start length : Nat) : Keeps lockRules (· = .free) (munmap sb start length) := by
  refine keeps_acquireP (obeys_bind (Q := fun _ g => g = LockView.held) ⟨fun _ => rfl, fun _ _ => rfl⟩ fun found g hg => ?_)
  subst hg
  match found with
  | none => exact obeys_releaseP
  | some (prev, a) =>
    refine obeys_bind (munmapPages_held a start _ 0 .held rfl) fun ok g hg => ?_
    subst hg
    have hresize : Keeps lockRules (· = .held) (if ok then act (.resize a prev start length) else pure () : Code Unit) :=
      keeps_ite (fun _ => keeps_call (steady_held rfl rfl)) fun _ => keeps_pure ()
    refine obeys_bind (hresize .held rfl) fun _ g hg => ?_
    subst hg
    exact obeys_releaseP

theorem mmap_free (length : Nat) : Keeps lockRules (· = .free) (mmap length) := by
  refine keeps_acquireP (obeys_bind (Q := fun _ g => g = LockView.held) ⟨fun _ => rfl, fun _ _ => rfl⟩ fun full g hg => ?_)
  subst hg
  cases full with
  | true => exact obeys_releaseP
  | false =>
    refine obeys_bind (obeys_test (a := .noPlace _) (Q := fun r : Bool => r = false) rfl rfl (fun r hr => hr rfl) .held rfl) fun refused g h => ?_
    obtain ⟨hg, hr⟩ := h
    subst hg hr
    exact obeys_releaseP

theorem lockRules_calls (sb : Superblock) : CallKeeps lockRules (· = .free) (· = .free) sb where
  fs := lockRules_write.writes.fsKeeps
  inner := fun _ h => h
  plain := lockRules_plain
  transaction := fun p hp => by
    refine keeps_bind (keeps_call (steady_free rfl)) fun _ => keeps_bind hp fun r => keeps_bind ?_ fun _ => keeps_pure r
    exact keeps_bind (keeps_call (steady_free rfl)) fun doCommit => lockRules_commit.after doCommit
  ilock := ilock_keeps lockRules_write.toReadSteady.reads
  readi := readi_keeps lockRules_write.toReadSteady.reads lockRules_write.writes.bmap
  munmap := munmap_free
  mmap := mmap_free
  ownLock := keeps_acquireP obeys_releaseP

/-! ## The locks of the processes -/

/-- What a process does with `p->lock` held: `munmap` has no dirty page of a shared VMA before it, and `kfree` takes the page (or the caller
is the first process, whose `exit` panics); `mmap` finds a place. -/
def quietUnderLock (s : Sys) (i : Nat) (a : Act) : Bool :=
  match a, (s.k.proc i).pagetable with
  | .dirtyShared v page, some pt => !(hasFlag (pt.pte page) pteD && decide ((s.k.vmas v).flag = mapShared))
  | .unmapPage page, some pt => decide (i = initproc) || decide ((s.k.mem.runs (ptePage (pt.pte page))).ref = 1)
  | .noPlace length, _ =>
    match findSpot s.k.vmas (pgRoundUp length) (maxVmas + 1) none (s.k.proc i).vmas with
    | .refused => false
    | .found _ _ => true
  | _, _ => true

/-- The views are the `p->lock`s. -/
structure LockInv (s : Sys) (g : Nat → LockView) : Prop where
  held : ∀ i, s.plock i = decide (g i ≠ .free)
  dying : ∀ i, g i = .dying → i = initproc

namespace LockInv

variable {s s' : Sys} {g : Nat → LockView} {i : Nat}

theorem move (hinv : LockInv s g) {v : LockView} (hpl : s'.plock = update s.plock i (decide (v ≠ .free)))
    (hv : v = .dying → i = initproc) : LockInv s' (update g i v) where
  held := fun j => by
    rw [hpl]
    by_cases hj : j = i
    · subst hj
      rw [update_self, update_self]
    · rw [update_of_ne hj, update_of_ne hj]
      exact hinv.held j
  dying := fun j => by
    by_cases hj : j = i
    · subst hj
      rw [update_self]
      exact hv
    · rw [update_of_ne hj]
      exact hinv.dying j

theorem stay (hinv : LockInv s g) {v : LockView} (hpl : s'.plock = s.plock) (hfree : v = .free ↔ g i = .free)
    (hv : v = .dying → i = initproc) : LockInv s' (update g i v) := by
  refine hinv.move ?_ hv
  rw [hpl, show decide (v ≠ .free) = s.plock i by rw [hinv.held i]; exact decide_eq_decide.mpr (not_congr hfree),
    update_eq_self]

end LockInv

theorem lockRules_next (g : LockView) (r : a.Res) (hacq : a ≠ .acquireP) (hrel : a ≠ .releaseP)
    (hun : ∀ page, a ≠ .unmapPage page) : lockRules.next g a r = g := by
  cases a
  case acquireP => exact absurd rfl hacq
  case releaseP => exact absurd rfl hrel
  case unmapPage page => exact absurd rfl (hun page)
  all_goals cases g <;> rfl

/-- `kfree` refuses only a page whose count is not 1. -/
theorem uvmunmap_kfreeRef {pt : PageTable} {m : Mem} {page : Nat} (h : uvmunmap Λ pt m page 1 true = .error .kfreeRef) :
    (m.runs (ptePage (pt.pte page))).ref ≠ 1 := by
  unfold uvmunmap at h
  split at h
  · cases h
  unfold unmapLoop at h
  rcases Nat.lt_or_ge page maxVa with hva | hva
  · rw [walk_look Λ pt m hva, ok_bind] at h
    dsimp only at h
    split at h
    · cases h
    split at h
    · cases h
    split at h
    · cases h
    rw [if_pos rfl] at h
    unfold kfree at h
    split at h
    · cases h
    split at h
    · assumption
    · cases h
  · rw [walk_panic Λ pt m hva] at h
    cases h

/-- The views follow an action of `munmap` on a page. -/
theorem lockInv_unmapPage {page : Nat} {r : Bool} (hinv : LockInv s g)
    (hq : quietUnderLock s i (.unmapPage page) = true) (h : perform Λ s i (.unmapPage page) = .ok (r, s')) :
    LockInv s' (update g i (lockRules.next (g i) (.unmapPage page) r)) := by
  have hpl : s'.plock = s.plock := (perform_plain rfl h).plock
  -- the page was refused by `kfree` only if this is the first process
  have hfirst : r = false → i = initproc := by
    intro hr
    obtain ⟨pt, hpt, h⟩ := bind_eq_ok.mp h
    have hpt' := table_ok hpt
    simp only [quietUnderLock, hpt', Bool.or_eq_true, decide_eq_true_eq] at hq
    rcases hq with hq | hq
    · exact hq
    split at h
    · cases h
      cases hr
    · rename_i e
      exact absurd hq (uvmunmap_kfreeRef e)
    · cases h
  cases hg : g i with
  | free => exact hinv.stay hpl (by rw [hg]; exact Iff.rfl) fun h => nomatch h
  | dying => exact hinv.stay hpl (by rw [hg]; exact Iff.rfl) fun _ => hinv.dying i hg
  | held =>
    cases r with
    | true => exact hinv.stay hpl (by rw [hg]; exact Iff.rfl) fun h => nomatch h
    | false => exact hinv.stay hpl (by rw [hg]; exact iff_of_false (fun h => nomatch h) fun h => nomatch h) fun _ => hfirst rfl

theorem quietUnderLock_gives {r : a.Res} (hinv : LockInv s g)
    (hq : quietUnderLock s i a = true) (h : perform Λ s i a = .ok (r, s')) : lockRules.gives (g i) a r := by
  cases a
  case dirtyShared v page =>
    intro _
    obtain ⟨pt, hpt, h⟩ := bind_eq_ok.mp h
    cases h
    simpa only [quietUnderLock, table_ok hpt, Bool.not_eq_true'] using hq
  case noPlace length =>
    intro _
    cases h
    simp only [quietUnderLock] at hq
    split at hq
    · cases hq
    · simp only [*]
  case isInit =>
    intro hd
    cases h
    exact decide_eq_true (hinv.dying i hd)
  all_goals exact trivial

/-- An action keeps the views in step with the `p->lock`s. -/
theorem lockInv_act {r : a.Res} (hinv : LockInv s g) (hq : quietUnderLock s i a = true) (h : perform Λ s i a = .ok (r, s')) :
    lockRules.gives (g i) a r ∧ LockInv s' (update g i (lockRules.next (g i) a r)) := by
  refine ⟨quietUnderLock_gives hinv hq h, ?_⟩
  by_cases hacq : a = .acquireP
  · subst hacq
    simp only [perform] at h
    split at h
    · cases h
    · cases h
      exact hinv.move rfl fun h => by cases h
  by_cases hrel : a = .releaseP
  · subst hrel
    cases h
    exact hinv.move rfl fun h => by cases h
  by_cases hun : ∃ page, a = .unmapPage page
  · obtain ⟨page, rfl⟩ := hun
    exact lockInv_unmapPage hinv hq h
  · rw [lockRules_next (g i) r hacq hrel fun page e => hun ⟨page, e⟩]
    exact hinv.stay (perform_plock hacq hrel h) Iff.rfl (hinv.dying i)

/-! ## The theorem -/

/-- A process that does not hold its `p->lock` does not panic in `acquire`. -/
theorem perform_unlocked (hfree : s.plock i = false) (ha : a.noLock = false) : AbortsIn (· ≠ .panic .acquire) (perform Λ s i a) := by
  have hsleep : ∀ {α : Type}, AbortsIn (· ≠ .panic .acquire) (s.sleep i : Except Stop α) := by
    simp [Sys.sleep, hfree]
  have hacquire : ∀ j, AbortsIn (· ≠ .panic .acquire) (s.acquiresleep i j) := by
    simp [Sys.acquiresleep, hsleep]
  cases a
  case bread b =>
    show AbortsIn _ (s.bread i b)
    unfold Sys.bread
    split
    · exact hsleep
    · split <;> simp [hfree]
  case bwrite b => simp [perform, Sys.bwrite, hfree]
  case beginOp =>
    simp only [perform, Sys.beginOp]
    split <;> simp [hsleep]
  case acquiresleep j => simp [perform, hacquire]
  case iputBegin j =>
    show AbortsIn _ (s.iputBegin i j)
    simp [Sys.iputBegin, hacquire]
  case device => simp [perform, hfree]
  case brelse b => simp [perform, Sys.brelse]
  case endOp =>
    show AbortsIn _ (s.endOp i)
    unfold Sys.endOp
    split <;> simp
  case commitCleared => simp [perform]
  case releasesleep j => simp [perform, Sys.releasesleep]
  case wakeup => simp [perform]
  case acquireP => simp [perform, hfree]
  all_goals cases ha

/-- Process `i` may be waiting in `wakeup` for the `p->lock` that `j` holds. -/
def Awaits (c : Conf Act Act.Res Sys) (i j : Nat) : Prop :=
  c.state.plock j = true ∧ ∃ a p, c.prog i = .act a p ∧ a.wakes = true

instance (c : Conf Act Act.Res Sys) (i j : Nat) : Decidable (Awaits c i j) := inferInstanceAs (Decidable (_ ∧ _))

/-- In every run whose actions meet the condition, a process that holds its own `p->lock` does not come to an action that sleeps or wakes
others up; so `acquire` does not panic in one of those or in `munmap`, and no two processes wait for each other's `p->lock`. -/
theorem munmap_lock_order {Λ : Layout} {sb : Superblock} {c₀ c : Conf Act Act.Res Sys} (h0 : Idle c₀)
    (hrun : (machine Λ sb).Reach (fun s i a => quietUnderLock s i a = true) c₀ c) :
    (∀ i a p, c.prog i = .act a p → c.state.plock i = true → a.sleeps = false ∧ a.wakes = false) ∧
    (∀ i a p, c.prog i = .act a p → a.noLock = false → perform Λ c.state i a ≠ .error (.panic .acquire)) ∧
    ∀ i j, ¬(Awaits c i j ∧ Awaits c j i) := by
  have hstart : LockInv c₀.state fun _ => .free :=
    { held := fun i => h0.plock i
      dying := fun _ h => nomatch h }
  have henv : ∀ s g e, LockInv s g → LockInv ((machine Λ sb).env s e) g := fun s g e hI =>
    { held := fun i => by
        rw [show ((machine Λ sb).env s e).plock = s.plock from (beside_log s e).2.1]
        exact hI.held i
      dying := hI.dying }
  obtain ⟨g, hinv, hob⟩ := Machine.reach_obeys (R := lockRules) (I := LockInv) (z := .free) hrun
    (fun s g i a r s' hI hq _ h => lockInv_act hI hq h) (fun p => (lockRules_calls sb).prog p .free rfl) henv hstart h0.prog
  -- what the rules allow to a process that holds its lock
  have hmay : ∀ i a p, c.prog i = .act a p → c.state.plock i = true → a.noLock = true := by
    intro i a p hp hl
    have h := hob i
    rw [hp] at h
    rw [hinv.held i] at hl
    exact h.1 (of_decide_eq_true hl)
  have hquiet : ∀ a : Act, a.noLock = true → a.sleeps = false ∧ a.wakes = false := by
    intro a ha
    cases a <;> first | exact ⟨rfl, rfl⟩ | cases ha
  refine ⟨fun i a p hp hl => hquiet a (hmay i a p hp hl), fun i a p hp ha => ?_, fun i j h => ?_⟩
  · cases hl : c.state.plock i with
    | false => exact fun he => perform_unlocked hl ha _ he rfl
    | true => exact absurd (hmay i a p hp hl) (by rw [ha]; exact Bool.false_ne_true)
  · obtain ⟨⟨hj, -⟩, -, a, p, hp, hw⟩ := h
    exact Bool.false_ne_true ((hquiet a (hmay j a p hp hj)).2.symm.trans hw)

/-- `munmap` of a page that was only read, with `p->lock` held before its look at the PTE. -/
theorem munmap_lock_order_clean : ∃ k₀ k c a p, Booted demoLayout k₀ ∧ Xv6Mmap.Reach demoLayout (fun _ _ _ => True) k₀ k ∧
    (machine demoLayout demoSb).Reach (fun s i a => quietUnderLock s i a = true) (demoConf (fun _ => false) k) c ∧
    c.prog 0 = .act a p ∧ c.state.plock 0 = true ∧ a.sleeps = false ∧ a.wakes = false := by
  obtain ⟨k₀, k, c, h0, hk, hrun, a, p, hp, ha⟩ := reach_demoCalls
    (T := fun c => ∃ a p, c.prog 0 = .act a p ∧ c.state.plock 0 = true) (fun s i a (h : quietUnderLock s i a = true) => h)
    [(0, .openPath demoPath oRdwr), (0, .mmap 4096 protReadWrite mapShared 0), (0, .fault startAddress .load)] (fun _ => false)
    (firstActs 0 (.munmap startAddress 4096) 5) (by decide +kernel)
  have h := (munmap_lock_order (idle_idleSys k _ _ _) hrun).1 0 a p hp ha
  exact ⟨k₀, k, c, a, p, h0, hk, hrun, hp, ha, h.1, h.2⟩

/-- A process unmaps a dirty page of a shared mapping while another reads the file: `ilock` sleeps and panics in `acquire`. Two processes
unmap dirty pages of two files: each spins in `wakeup` on the `p->lock` of the other. -/
theorem munmap_breaks_lock_order :
    (∃ k₀ k c a p, Booted demoLayout k₀ ∧ Xv6Mmap.Reach demoLayout (fun _ _ _ => True) k₀ k ∧ Idle (demoConf (fun _ => true) k) ∧
      (machine demoLayout demoSb).Reach (fun _ _ _ => True) (demoConf (fun _ => true) k) c ∧
      c.prog 1 = .act a p ∧ c.state.plock 1 = true ∧ a.sleeps = true ∧ perform demoLayout c.state 1 a = .error (.panic .acquire)) ∧
    ∃ k₀ k c, Booted demoLayout k₀ ∧ Xv6Mmap.Reach demoLayout (fun _ _ _ => True) k₀ k ∧ Idle (demoConf (fun _ => true) k) ∧
      (machine demoLayout demoSb).Reach (fun _ _ _ => True) (demoConf (fun _ => true) k) c ∧ Awaits c 0 1 ∧ Awaits c 1 0 := by
  refine ⟨?_, ?_⟩
  · obtain ⟨k₀, k, c, h0, hk, hrun, a, p, h⟩ := reach_demoCalls
      (T := fun c => ∃ a p, c.prog 1 = .act a p ∧ c.state.plock 1 = true ∧ a.sleeps = true ∧
        perform demoLayout c.state 1 a = .error (.panic .acquire)) any_action
      [(0, .openPath demoPath oRdwr), (0, .mmap 4096 protReadWrite mapShared 0), (0, .fork), (1, .fault startAddress .store),
        (1, .store startAddress 1)]
      (fun _ => true) (firstActs 0 (.read 0 0 1) 3 ++ firstActs 1 (.munmap startAddress 4096) 7) (by decide +kernel)
    exact ⟨k₀, k, c, a, p, h0, hk, idle_idleSys k _ _ _, hrun, h⟩
  · obtain ⟨k₀, k, c, h0, hk, hrun, h⟩ := reach_demoCalls (T := fun c => Awaits c 0 1 ∧ Awaits c 1 0) any_action
      [(0, .openPath demoPath oRdwr), (0, .openPath (some [103]) (oCreate ||| oRdwr)), (0, .mmap 4096 protReadWrite mapShared 0), (0, .fork),
        (1, .mmap 4096 protReadWrite mapShared 1), (0, .fault startAddress .store), (0, .store startAddress 1),
        (1, .fault (startAddress + 4096) .store), (1, .store (startAddress + 4096) 1)]
      (fun _ => true) (firstActs 0 (.munmap startAddress 4096) 16 ++ firstActs 1 (.munmap (startAddress + 4096) 4096) 15)
      (by decide +kernel)
    exact ⟨k₀, k, c, h0, hk, idle_idleSys k _ _ _, hrun, h⟩

end Xv6Mmap.Blk

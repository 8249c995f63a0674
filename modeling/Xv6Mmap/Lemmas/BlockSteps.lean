import Xv6Mmap.Lemmas.BlockRules

/-!
# What an action does

The inversions of the actions of `Blocks`. A plain action touches neither buffers, disk and log nor any `p->lock`.
-/

namespace Xv6Mmap.Blk

open Function

/-- The part of the state that plain actions leave alone. -/
structure SameBlocks (s s' : Sys) : Prop where
  cache : s'.cache = s.cache
  holder : s'.holder = s.holder
  disk : s'.disk = s.disk
  log : s'.log = s.log
  plock : s'.plock = s.plock
  inOp : s'.inOp = s.inOp

theorem SameBlocks.refl (s : Sys) : SameBlocks s s := ⟨rfl, rfl, rfl, rfl, rfl, rfl⟩

variable {Λ : Layout} {s s' : Sys} {i b : Nat} {α : Type} {a : Act} {r : a.Res}

theorem table_ok {pt : PageTable} (h : s.table i = .ok pt) : (s.k.proc i).pagetable = some pt := by
  unfold Sys.table at h
  split at h
  · rename_i e
    cases h
    exact e
  · cases h

theorem sameBlocks_table {f : PageTable → Except Stop (α × Sys)} {r : α}
    (h : (s.table i >>= f) = .ok (r, s')) (hf : ∀ pt r s', f pt = .ok (r, s') → SameBlocks s s') : SameBlocks s s' := by
  obtain ⟨pt, -, h⟩ := bind_eq_ok.mp h
  exact hf pt r s' h

theorem sameBlocks_lift {β : Type} {x : Except Panic α} {f : α → Except Stop (β × Sys)} {r : β}
    (h : (Sys.lift x >>= f) = .ok (r, s')) (hf : ∀ a r s', f a = .ok (r, s') → SameBlocks s s') : SameBlocks s s' := by
  obtain ⟨a, -, h⟩ := bind_eq_ok.mp h
  exact hf a r s' h

theorem sleep_ok {r : α} (h : (s.sleep i : Except Stop α) = .ok r) : False := by
  cases h

theorem acquiresleep_ok {j : Nat} (h : s.acquiresleep i j = .ok s') : SameBlocks s s' := by
  unfold Sys.acquiresleep at h
  split at h
  · exact (sleep_ok h).elim
  · cases h
    exact ⟨rfl, rfl, rfl, rfl, rfl, rfl⟩

/-- Plain actions leave buffers, disk, log and `p->lock`s. -/
theorem perform_plain (ha : a.plain = true) (h : perform Λ s i a = .ok (r, s')) : SameBlocks s s' := by
  have same : ∀ {α : Type} {x y : α} {t : Sys}, (Except.ok (x, t) : Except Stop (α × Sys)) = .ok (y, s') → SameBlocks s t →
      SameBlocks s s' := by
    intro α x y t e ht
    cases e
    exact ht
  have ok : SameBlocks s s := SameBlocks.refl s
  cases a with
  | bread b | bset b d | bwrite b | brelse b | beginOp | logWrite b | endOp | header | commitDone | commitCleared | acquireP
  | releaseP | copyin b src buf n => cases ha
  | iget dev inum =>
    simp only [perform, Sys.iget] at h
    split at h
    · exact same h ⟨rfl, rfl, rfl, rfl, rfl, rfl⟩
    split at h
    · cases h
    · exact same h ⟨rfl, rfl, rfl, rfl, rfl, rfl⟩
  | idup j | setInfo j info | setAddrs j addrs | setAddr j bn a | setValid j valid | iputEnd j | setOff f off | setFile f file =>
    exact same h ⟨rfl, rfl, rfl, rfl, rfl, rfl⟩
  | inode j | holdingsleep j | addr j bn | entry b bn | mayWrite j off n | file f | ofile fd | isInit | killed | cwd | vmasFull
  | noPlace length | fate => exact same h ok
  | acquiresleep j =>
    obtain ⟨t, ht, h⟩ := bind_eq_ok.mp h
    exact same h (acquiresleep_ok ht)
  | releasesleep j =>
    obtain ⟨t, ht, h⟩ := bind_eq_ok.mp h
    unfold Sys.releasesleep at ht
    split at ht
    · cases ht
      exact same h ⟨rfl, rfl, rfl, rfl, rfl, rfl⟩
    · cases ht
  | iputBegin j =>
    simp only [perform, Sys.iputBegin] at h
    split at h
    · obtain ⟨t, ht, h⟩ := bind_eq_ok.mp h
      exact same h (acquiresleep_ok ht)
    · exact same h ⟨rfl, rfl, rfl, rfl, rfl, rfl⟩
  | copyout dst src n => exact sameBlocks_table h fun pt r s' h => by cases h; exact ⟨rfl, rfl, rfl, rfl, rfl, rfl⟩
  | filealloc | fdalloc f =>
    simp only [perform] at h
    split at h
    · exact same h ⟨rfl, rfl, rfl, rfl, rfl, rfl⟩
    · exact same h ok
  | fileDrop f =>
    simp only [perform, Sys.fileDrop] at h
    split at h
    · cases h
    split at h
    · exact same h ⟨rfl, rfl, rfl, rfl, rfl, rfl⟩
    · exact same h ⟨rfl, rfl, rfl, rfl, rfl, rfl⟩
  | clearFd fd | setCwd ip => exact same h ⟨rfl, rfl, rfl, rfl, rfl, rfl⟩
  | wakeup =>
    simp only [perform] at h
    split at h
    · exact same h ok
    · cases h
  | vmaFind start length => exact sameBlocks_lift h fun a r s' h => by cases h; exact ok
  | vmaHead =>
    simp only [perform] at h
    split at h
    · exact same h ok
    split at h
    · cases h
    · exact same h ok
  | pteValid page =>
    refine sameBlocks_table h fun pt r s' h => ?_
    split at h
    · cases h
    split at h
    · cases h
    · cases h
      exact ok
  | dirtyShared a page => exact sameBlocks_table h fun pt r s' h => by cases h; exact ok
  | vmaFile a =>
    simp only [perform] at h
    split at h
    · cases h
    · exact same h ok
  | unmapPage page =>
    refine sameBlocks_table h fun pt r s' h => ?_
    split at h
    · cases h
      exact ⟨rfl, rfl, rfl, rfl, rfl, rfl⟩
    · cases h
      exact ok
    · cases h
  | resize a prev start length => exact sameBlocks_lift h fun k r s' h => by cases h; exact ⟨rfl, rfl, rfl, rfl, rfl, rfl⟩
  | faultFind va =>
    simp only [perform] at h
    split at h
    · exact same h ok
    · exact sameBlocks_lift h fun a r s' h => by cases h; exact ok
  | device =>
    simp only [perform] at h
    split at h
    · exact (sleep_ok h).elim
    split at h
    · exact same h ok
    · cases h
  | panic e | fsPanic e | hang => cases h

theorem beside_log (s : Sys) (e : Beside) :
    (beside s e).log = s.log ∧ (beside s e).plock = s.plock ∧ (beside s e).inOp = s.inOp := by
  cases e with
  | recycle b =>
    by_cases hb : s.holder b = none ∧ b ∉ s.log.lh
    · simp only [beside, if_pos hb, and_self]
    · simp only [beside, if_neg hb, and_self]
  | kernel k | fate b => exact ⟨rfl, rfl, rfl⟩

/-! ## The other actions -/

/-- `bread` locks the buffer and returns its content, that of the disk if it was not cached. -/
theorem bread_ok {d : Bytes} (h : s.bread i b = .ok (d, s')) :
    s.holder b = none ∧ d = (s.cache b).getD (s.disk b) ∧
      s' = { s with cache := update s.cache b (some d), holder := update s.holder b (some i) } := by
  unfold Sys.bread at h
  split at h
  · exact (sleep_ok h).elim
  rename_i hfree
  have hnone : s.holder b = none := by simpa using hfree
  split at h
  · rename_i d' hd
    cases h
    refine ⟨hnone, by rw [hd]; rfl, ?_⟩
    rw [show update s.cache b (some d) = s.cache by rw [← hd, update_eq_self]]
  · rename_i hd
    split at h
    · exact (sleep_ok h).elim
    · cases h
      exact ⟨hnone, by rw [hd]; rfl, rfl⟩

theorem bset_ok {d : Bytes} (h : s.bset i b d = .ok s') :
    s.holder b = some i ∧ s' = { s with cache := update s.cache b (some d) } := by
  unfold Sys.bset at h
  split at h
  · rename_i hb
    cases h
    exact ⟨hb, rfl⟩
  · cases h

theorem bwrite_ok (h : s.bwrite i b = .ok s') :
    s.holder b = some i ∧ s' = { s with disk := update s.disk b ((s.cache b).getD (s.disk b)) } := by
  unfold Sys.bwrite at h
  split at h
  · rename_i hb
    split at h
    · exact (sleep_ok h).elim
    · cases h
      exact ⟨hb, rfl⟩
  · cases h

theorem brelse_ok (h : s.brelse i b = .ok s') : s.holder b = some i ∧ s' = { s with holder := update s.holder b none } := by
  unfold Sys.brelse at h
  split at h
  · rename_i hb
    split at h
    · cases h
      exact ⟨hb, rfl⟩
    · cases h
  · cases h

theorem copyin_ok {src n : Nat} {buf : Bytes} {r : Bool × Bytes} (h : perform Λ s i (.copyin b src buf n) = .ok (r, s')) :
    s' = s ∧ ∃ pt, (s.k.proc i).pagetable = some pt ∧ r = copyin pt s.k.mem.ram buf src n := by
  obtain ⟨pt, hpt, h⟩ := bind_eq_ok.mp h
  cases h
  exact ⟨rfl, pt, table_ok hpt, rfl⟩

theorem beginOp_ok (h : s.beginOp i = .ok s') :
    s.log.committing = false ∧
      s' = { s with log := { s.log with outstanding := s.log.outstanding + 1 }, inOp := update s.inOp i (s.inOp i + 1) } := by
  unfold Sys.beginOp Xv6Mmap.beginOp at h
  by_cases hc : s.log.committing = true
  · rw [if_pos hc] at h
    exact (sleep_ok h).elim
  rw [if_neg hc] at h
  split at h
  · exact (sleep_ok h).elim
  rename_i l hl
  split at hl
  · cases hl
  · cases hl
    cases h
    exact ⟨by simpa using hc, rfl⟩

theorem logWrite_ok (h : s.logWrite b = .ok s') : 1 ≤ s.log.outstanding ∧ s' = { s with log := s.log.record b } := by
  unfold Sys.logWrite Xv6Mmap.logWrite at h
  split at h
  · cases h
  rename_i l hl
  split at hl
  · cases hl
  split at hl
  · cases hl
  cases hl
  cases h
  exact ⟨by omega, rfl⟩

/-- The actions on buffers. -/
def Act.buffer : Act → Bool
  | .bread _ | .bset _ _ | .bwrite _ | .brelse _ | .copyin _ _ _ _ => true
  | _ => false

theorem perform_buffer (ha : a.buffer = true) (h : perform Λ s i a = .ok (r, s')) :
    s'.log = s.log ∧ s'.plock = s.plock ∧ s'.inOp = s.inOp := by
  cases a
  case bread b =>
    obtain ⟨-, -, e⟩ := bread_ok h
    subst e
    exact ⟨rfl, rfl, rfl⟩
  case bset b d =>
    obtain ⟨t, ht, h⟩ := bind_eq_ok.mp h
    cases h
    obtain ⟨-, e⟩ := bset_ok ht
    subst e
    exact ⟨rfl, rfl, rfl⟩
  case bwrite b =>
    obtain ⟨t, ht, h⟩ := bind_eq_ok.mp h
    cases h
    obtain ⟨-, e⟩ := bwrite_ok ht
    subst e
    exact ⟨rfl, rfl, rfl⟩
  case brelse b =>
    obtain ⟨t, ht, h⟩ := bind_eq_ok.mp h
    cases h
    obtain ⟨-, e⟩ := brelse_ok ht
    subst e
    exact ⟨rfl, rfl, rfl⟩
  case copyin b src buf n =>
    obtain ⟨e, -⟩ := copyin_ok h
    subst e
    exact ⟨rfl, rfl, rfl⟩
  all_goals cases ha

/-- `end_op` leaves an operation and commits the last one. -/
theorem endOp_ok {c : Bool} (h : s.endOp i = .ok (c, s')) :
    s.log.committing = false ∧ c = decide (s.log.outstanding = 1) ∧
      s' = { s with
        log := { s.log with outstanding := s.log.outstanding - 1, committing := c }
        inOp := update s.inOp i (s.inOp i - 1) } := by
  unfold Sys.endOp Xv6Mmap.endOp at h
  dsimp only at h
  split at h
  · cases h
  rename_i q l hl
  by_cases hc : s.log.committing = true
  · rw [if_pos hc] at hl
    cases hl
  rw [if_neg hc] at hl
  have hcf : s.log.committing = false := by simpa using hc
  split at h
  · split at hl
    · cases hl
      cases h
      exact ⟨hcf, (decide_eq_true (by omega)).symm, rfl⟩
    · cases hl
      cases h
      refine ⟨hcf, (decide_eq_false (by omega)).symm, ?_⟩
      rw [← hcf]
  · cases h

theorem commitCleared_ok {r : Unit} (h : perform Λ s i .commitCleared = .ok (r, s')) :
    s' = { s with log := { s.log with committing := false } } := by
  simp only [perform] at h
  split at h
  · cases h
    rfl
  · cases h

/-- Only `acquire` and `release` of its own change a `p->lock`. -/
theorem perform_plock (hacq : a ≠ .acquireP) (hrel : a ≠ .releaseP) (h : perform Λ s i a = .ok (r, s')) : s'.plock = s.plock := by
  by_cases hplain : a.plain = true
  · exact (perform_plain hplain h).plock
  by_cases hbuf : a.buffer = true
  · exact (perform_buffer hbuf h).2.1
  cases a
  case beginOp =>
    obtain ⟨t, ht, h⟩ := bind_eq_ok.mp h
    cases h
    obtain ⟨-, e⟩ := beginOp_ok ht
    subst e
    rfl
  case logWrite b =>
    obtain ⟨t, ht, h⟩ := bind_eq_ok.mp h
    cases h
    obtain ⟨-, e⟩ := logWrite_ok ht
    subst e
    rfl
  case endOp =>
    obtain ⟨-, -, e⟩ := endOp_ok h
    subst e
    rfl
  case header =>
    cases h
    rfl
  case commitDone =>
    cases h
    rfl
  case commitCleared =>
    rw [commitCleared_ok h]
  case acquireP => exact absurd rfl hacq
  case releaseP => exact absurd rfl hrel
  all_goals first | exact absurd rfl hplain | exact absurd rfl hbuf

end Xv6Mmap.Blk

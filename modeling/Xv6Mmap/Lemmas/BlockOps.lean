import Xv6Mmap.Lemmas.BlockSteps
import Mathlib.Algebra.Order.BigOperators.Group.Finset

/-!
# The operations of the processes

How deep each process is in operations, and that `log.outstanding` counts it.
-/

namespace Xv6Mmap.Blk

open Function

/-- The depth of operations of a process after an action. -/
def opDepth (n : Nat) : Act → Nat
  | .beginOp => n + 1
  | .endOp => n - 1
  | _ => n

/-- The views are the operations the processes are in; `log.outstanding` counts them, none during a commit. -/
structure OpInv (s : Sys) (g : Nat → Nat) : Prop where
  view : ∀ i, g i = s.inOp i
  table : ∀ i, nproc ≤ i → s.inOp i = 0
  total : s.log.outstanding = ∑ i ∈ Finset.range nproc, (s.inOp i : Int)
  commit : s.log.committing = true → s.log.outstanding = 0

namespace OpInv

variable {s s' : Sys} {g : Nat → Nat} {i : Nat}

theorem same (h : OpInv s g) (ho : s'.log.outstanding = s.log.outstanding) (hc : s'.log.committing = true → s.log.committing = true)
    (hi : s'.inOp = s.inOp) : OpInv s' g where
  view := by rw [hi]; exact h.view
  table := by rw [hi]; exact h.table
  total := by rw [hi, ho]; exact h.total
  commit := fun e => by rw [ho]; exact h.commit (hc e)

theorem total_update (f : Nat → Nat) (hi : i < nproc) (n : Nat) :
    ∑ j ∈ Finset.range nproc, ((update f i n j : Nat) : Int) = ∑ j ∈ Finset.range nproc, (f j : Int) - f i + n := by
  have hmem : i ∈ Finset.range nproc := Finset.mem_range.mpr hi
  have hrest : ∑ j ∈ (Finset.range nproc).erase i, ((update f i n j : Nat) : Int) =
      ∑ j ∈ (Finset.range nproc).erase i, (f j : Int) :=
    Finset.sum_congr rfl fun j hj => by rw [update_of_ne (Finset.ne_of_mem_erase hj)]
  rw [← Finset.add_sum_erase _ _ hmem, update_self, ← Finset.add_sum_erase _ (fun j => (f j : Int)) hmem]
  omega

theorem inOp_le (h : OpInv s g) (i : Nat) : (s.inOp i : Int) ≤ s.log.outstanding := by
  rw [h.total]
  rcases Nat.lt_or_ge i nproc with hi | hi
  · exact Finset.single_le_sum (f := fun j => (s.inOp j : Int)) (fun j _ => Int.natCast_nonneg _) (Finset.mem_range.mpr hi)
  · rw [h.table i hi]
    exact Finset.sum_nonneg fun j _ => Int.natCast_nonneg _

theorem move (h : OpInv s g) (hi : i < nproc) {n : Nat} (ho : s'.log.outstanding = s.log.outstanding - s.inOp i + n)
    (hc : s'.log.committing = true → s'.log.outstanding = 0) (hop : s'.inOp = update s.inOp i n) : OpInv s' (update g i n) where
  view := fun j => by
    rw [hop, show g = s.inOp from funext h.view]
  table := fun j hj => by
    rw [hop, update_of_ne (by omega)]
    exact h.table j hj
  total := by rw [hop, total_update _ hi, ho, h.total]
  commit := hc

theorem act {Λ : Layout} {a : Act} {r : a.Res} (hinv : OpInv s g) (hi : i < nproc) (hend : a = .endOp → 0 < g i)
    (h : perform Λ s i a = .ok (r, s')) : OpInv s' (update g i (opDepth (g i) a)) := by
  have hkeep : opDepth (g i) a = g i → OpInv s' g → OpInv s' (update g i (opDepth (g i) a)) := by
    intro e h'
    rw [e, update_eq_self]
    exact h'
  by_cases hplain : a.plain = true
  · have hs := perform_plain hplain h
    refine hkeep ?_ (hinv.same (by rw [hs.log]) (by rw [hs.log]; exact id) hs.inOp)
    cases a <;> first | rfl | cases hplain
  by_cases hbuf : a.buffer = true
  · obtain ⟨hlog, -, hop⟩ := perform_buffer hbuf h
    refine hkeep ?_ (hinv.same (by rw [hlog]) (by rw [hlog]; exact id) hop)
    cases a <;> first | rfl | cases hbuf
  cases a
  case beginOp =>
    obtain ⟨t, ht, h⟩ := bind_eq_ok.mp h
    cases h
    obtain ⟨hc, e⟩ := beginOp_ok ht
    subst e
    rw [show opDepth (g i) .beginOp = s.inOp i + 1 from congrArg (· + 1) (hinv.view i)]
    refine hinv.move hi ?_ (fun h => absurd (hc.symm.trans h) Bool.false_ne_true) rfl
    dsimp only
    omega
  case logWrite b =>
    obtain ⟨t, ht, h⟩ := bind_eq_ok.mp h
    cases h
    obtain ⟨-, e⟩ := logWrite_ok ht
    subst e
    refine hkeep rfl (hinv.same ?_ ?_ rfl)
    · unfold Log.record
      split <;> rfl
    · unfold Log.record
      split <;> exact id
  case endOp =>
    obtain ⟨-, hc, e⟩ := endOp_ok h
    subst e
    have hpos : 0 < s.inOp i := by
      rw [← hinv.view i]
      exact hend rfl
    rw [show opDepth (g i) .endOp = s.inOp i - 1 from congrArg (· - 1) (hinv.view i)]
    refine hinv.move hi ?_ (fun h => ?_) rfl
    · dsimp only
      omega
    · dsimp only at h ⊢
      have := of_decide_eq_true (hc.symm.trans h)
      omega
  case header =>
    cases h
    exact hkeep rfl hinv
  case commitDone =>
    cases h
    exact hkeep rfl (hinv.same rfl id rfl)
  case commitCleared =>
    have e := commitCleared_ok h
    subst e
    exact hkeep rfl (hinv.same rfl (fun h => absurd h Bool.false_ne_true) rfl)
  case acquireP =>
    simp only [perform] at h
    split at h
    · cases h
    · cases h
      exact hkeep rfl (hinv.same rfl id rfl)
  case releaseP =>
    cases h
    exact hkeep rfl (hinv.same rfl id rfl)
  all_goals first | exact absurd rfl hplain | exact absurd rfl hbuf

theorem beside (hinv : OpInv s g) (e : Beside) : OpInv (Blk.beside s e) g := by
  obtain ⟨hlog, -, hop⟩ := beside_log s e
  exact hinv.same (by rw [hlog]) (by rw [hlog]; exact id) hop

end OpInv

theorem opInv_idle {c : Conf Act Act.Res Sys} (h : Idle c) : OpInv c.state fun _ => 0 where
  view := fun i => (h.inOp i).symm
  table := fun i _ => h.inOp i
  total := by
    rw [h.outstanding]
    exact (Finset.sum_eq_zero fun i _ => by rw [h.inOp i]; rfl).symm
  commit := fun _ => h.outstanding

end Xv6Mmap.Blk

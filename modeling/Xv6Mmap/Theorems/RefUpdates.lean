import Xv6Mmap.Theorems.FileRefs
import Xv6Mmap.Lib.Runs

/-!
# Updates of a file's count that overlap

`filealloc`, `filedup` and `fileclose` change `f->ref` under `ftable.lock`. `mmap` and `munmap` change it without: by a load and a store,
between which another hart may change the count. Here the two are steps of their own. The rest of the call is made with the load, which
nobody can tell: until after the store `mmap` holds `p->lock`, and `munmap` holds `vmaslock` too. The updates of `fork` are left in its
one step.

As long as nobody moves between a load and its store, a run is one in which every call is one step. Otherwise an update can be lost.
-/

namespace Xv6Mmap

open Function

/-- The value of `f->ref` that a process is about to store; `vmaslock` says whether it holds that lock. -/
structure RefStore where
  file : Nat
  ref : Int
  vmaslock : Bool

/-- The kernel, and the stores that are still to come. -/
structure Updating where
  k : Kernel
  pending : Nat → Option RefStore

/-- A process makes a call, up to the store if it has one, or the store. -/
inductive RefMove where
  | go (ev : Event)
  | store

/-- The calls that take `vmaslock`. -/
def Event.takesVmaslock : Event → Bool
  | .mmap _ _ _ _ | .munmap _ _ | .exitUnmap | .fork => true
  | _ => false

/-- The file whose count a call changed without `ftable.lock`, if it is one that `mmap` or `munmap` made. -/
def Event.updates (k k' : Kernel) : Event → Option Nat
  | .mmap _ _ _ _ | .munmap _ _ | .exitUnmap => firstSlot nfile fun f => (k'.ftable f).ref != (k.ftable f).ref
  | _ => none

/-- The count of a file written. -/
def Kernel.setRef (k : Kernel) (f : Nat) (v : Int) : Kernel := k.setFile f { k.ftable f with ref := v }

namespace Updating

/-- The process is in the middle of an update, or waits for `vmaslock`. -/
def waits (s : Updating) (i : Nat) (ev : Event) : Bool :=
  (s.pending i).isSome || ev.takesVmaslock && (List.range nproc).any fun j => (s.pending j).any (·.vmaslock)

/-- The state once the call of process `i` came to `k'`, but for the store of a count. -/
def loaded (s : Updating) (i : Nat) (ev : Event) (k' : Kernel) : Updating :=
  match ev.updates s.k k' with
  | none => { s with k := k' }
  | some f =>
    let store : RefStore := ⟨f, (k'.ftable f).ref, match ev with | .mmap _ _ _ _ => false | _ => true⟩
    ⟨k'.setRef f (s.k.ftable f).ref, update s.pending i (some store)⟩

/-- A step of process `i`; one that has to wait stays where it is. -/
def move (Λ : Layout) (io : Bool) (s : Updating) (i : Nat) : RefMove → Except Panic Updating
  | .go ev =>
    if s.waits i ev then pure s
    else do
      let (_, k) ← step Λ io s.k i ev
      pure (s.loaded i ev k)
  | .store =>
    match s.pending i with
    | none => pure s
    | some u => pure ⟨s.k.setRef u.file u.ref, update s.pending i none⟩

/-- The states reached from a kernel by steps that meet `P`. -/
inductive Reach (Λ : Layout) (P : Updating → Nat → RefMove → Prop) (k₀ : Kernel) : Updating → Prop where
  | refl : Reach Λ P k₀ ⟨k₀, fun _ => none⟩
  | step {s s' : Updating} {io : Bool} {i : Nat} {m : RefMove} : Reach Λ P k₀ s → i < nproc → P s i m →
      s.move Λ io i m = .ok s' → Reach Λ P k₀ s'

/-- Between a load and its store nobody else moves. -/
def Apart (s : Updating) (i : Nat) (m : RefMove) : Prop := ∀ j, (s.pending j).isSome = true → i = j ∧ m = .store

variable {Λ : Layout} {k₀ k k' : Kernel} {s s' : Updating} {io : Bool} {i f : Nat} {ev : Event}

theorem setRef_setRef (k : Kernel) (f : Nat) (v : Int) : (k.setRef f v).setRef f (k.ftable f).ref = k := by
  simp [Kernel.setRef, Kernel.setFile]

/-- A kernel that is reached once the stores that are still to come are made, of which there is one at most. -/
def Serial (Λ : Layout) (k₀ : Kernel) (s : Updating) : Prop :=
  (s.pending = fun _ => none) ∧ Xv6Mmap.Reach Λ (fun _ _ _ => True) k₀ s.k ∨
    ∃ i u, s.pending = update (fun _ => none) i (some u) ∧ Xv6Mmap.Reach Λ (fun _ _ _ => True) k₀ (s.k.setRef u.file u.ref)

theorem Serial.go (hp : s.pending = fun _ => none) (h : Xv6Mmap.Reach Λ (fun _ _ _ => True) k₀ s.k) (hi : i < nproc) {r : Nat}
    (hs : Xv6Mmap.step Λ io s.k i ev = .ok (r, k')) : Serial Λ k₀ (s.loaded i ev k') := by
  have h' := h.step hi trivial hs
  unfold loaded
  split
  · exact Or.inl ⟨hp, h'⟩
  · refine Or.inr ⟨i, _, by rw [hp], ?_⟩
    rw [setRef_setRef]
    exact h'

theorem Serial.move {m : RefMove} (h : Serial Λ k₀ s) (hi : i < nproc) (hap : Apart s i m) (hs : s.move Λ io i m = .ok s') :
    Serial Λ k₀ s' := by
  cases m with
  | go ev =>
    have hnone : ∀ j, (s.pending j).isSome = false := by
      intro j
      cases hj : (s.pending j).isSome with
      | false => rfl
      | true => cases (hap j hj).2
    rcases h with ⟨hp, hr⟩ | ⟨j, u, hp, -⟩
    · simp only [Updating.move] at hs
      split at hs
      · cases hs
        exact Or.inl ⟨hp, hr⟩
      · obtain ⟨⟨r, k'⟩, hk, hs⟩ := bind_eq_ok.mp hs
        cases hs
        exact Serial.go hp hr hi hk
    · have := hnone j
      rw [hp, update_self] at this
      cases this
  | store =>
    rcases h with ⟨hp, hr⟩ | ⟨j, u, hp, hr⟩
    · simp only [Updating.move, hp] at hs
      cases hs
      exact Or.inl ⟨hp, hr⟩
    · -- the one store still to come is that of the process that moves
      obtain ⟨rfl, -⟩ := hap j (by rw [hp, update_self]; rfl)
      simp only [Updating.move, hp, update_self] at hs
      cases hs
      exact Or.inl ⟨by simp, hr⟩

/-- Runs in which updates do not overlap are runs in which every call is one step. -/
theorem reach_of_apart (h : Reach Λ Apart k₀ s) (hdone : ∀ i, s.pending i = none) :
    Xv6Mmap.Reach Λ (fun _ _ _ => True) k₀ s.k := by
  have hser : Serial Λ k₀ s := by
    clear hdone
    induction h with
    | refl => exact Or.inl ⟨rfl, Xv6Mmap.Reach.refl⟩
    | step _ hi hap hs ih => exact ih.move hi hap hs
  rcases hser with ⟨-, hr⟩ | ⟨i, u, hp, -⟩
  · exact hr
  · have := hdone i
    rw [hp, update_self] at this
    cases this

/-! ## A lost update -/

/-- A run of the small system from a list of steps. -/
def demoMoves (ms : List (Nat × RefMove)) : Option Updating :=
  match userinit demoLayout (bootKernel demoLayout (demoDisk 5000) 200) with
  | .ok k => runSteps (fun s m => s.move demoLayout true m.1 m.2) (fun _ m => decide (m.1 < nproc)) ms ⟨k, fun _ => none⟩
  | .error _ => none

theorem reach_demoMoves {T : Updating → Prop} (ms : List (Nat × RefMove)) (h : ∃ s, demoMoves ms = some s ∧ T s) :
    ∃ k₀ s, Booted demoLayout k₀ ∧ Reach demoLayout (fun _ _ _ => True) k₀ s ∧ T s := by
  obtain ⟨s, hs, ht⟩ := h
  unfold demoMoves at hs
  split at hs
  · rename_i k₀ hk
    refine ⟨k₀, s, ⟨_, fresh_bootKernel _ _ _, hk⟩, ?_, ht⟩
    exact runSteps_keeps (fun s m s' hr hc hs => hr.step (of_decide_eq_true hc) trivial hs) ms Reach.refl hs
  · cases hs

/-- Two processes that share a file after `fork` map it at the same time: both load the count before either stores. -/
def mapBoth : List (Nat × RefMove) :=
  let mmap := RefMove.go (.mmap 4096 protRead mapPrivate 0)
  [(0, .go (.openPath demoPath oRdwr)), (0, .go .fork), (0, mmap), (1, mmap), (0, .store), (1, .store)]

/-- Both close the file, and process 0 unmaps its page. -/
def unmapFirst : List (Nat × RefMove) :=
  mapBoth ++ [(0, .go (.close 0)), (1, .go (.close 0)), (0, .go (.fault startAddress .load)), (1, .go (.fault startAddress .load)),
    (0, .go (.munmap startAddress 4096)), (0, .store)]

/-- Process 0 opens the file anew, which is handed the same slot, and process 1 unmaps its page. -/
def unmapBoth : List (Nat × RefMove) :=
  unmapFirst ++ [(0, .go (.openPath demoPath oRdwr)), (1, .go (.munmap startAddress 4096)), (1, .store)]

/-- A state between calls, of some run of the small system. -/
def Between (s : Updating) : Prop :=
  ∃ k₀, Booted demoLayout k₀ ∧ Reach demoLayout (fun _ _ _ => True) k₀ s ∧ ∀ i < nproc, s.pending i = none

theorem between_demoMoves {T : Updating → Prop} (ms : List (Nat × RefMove))
    (h : ∃ s, demoMoves ms = some s ∧ (∀ i < nproc, (s.pending i).isNone = true) ∧ T s) : ∃ s, Between s ∧ T s := by
  obtain ⟨k₀, s, h0, hr, hnone, ht⟩ := reach_demoMoves ms h
  exact ⟨s, ⟨k₀, h0, hr, fun i hi => Option.isNone_iff_eq_none.mp (hnone i hi)⟩, ht⟩

/-- The two processes leave the count at 3 with four references to the file. After both closed it and one unmapped it, `filealloc` hands
it out while the other still has it mapped; and once it is open again and that mapping is gone, `close` stops in `fileclose`. -/
theorem overlapping_mmaps_lose_a_reference :
    (∃ s, Between s ∧ (s.k.ftable 0).ref = 3 ∧ fdRefs s.k 0 + vmaRefs s.k 0 = 4) ∧
    (∃ s, Between s ∧ (∃ k', filealloc s.k = some (0, k')) ∧ (s.k.vmas 1).use = true ∧ (s.k.vmas 1).ofile = some 0) ∧
    ∃ s, Between s ∧ step demoLayout true s.k 0 (.close 0) = .error .fileclose := by
  refine ⟨between_demoMoves mapBoth (by decide +kernel), ?_, between_demoMoves unmapBoth (by decide +kernel)⟩
  obtain ⟨s, hs, ⟨⟨_, k'⟩, hal, rfl⟩, huse⟩ := between_demoMoves
    (T := fun s => (∃ r, filealloc s.k = some r ∧ r.1 = 0) ∧ (s.k.vmas 1).use = true ∧ (s.k.vmas 1).ofile = some 0) unmapFirst
    (by decide +kernel)
  exact ⟨s, hs, ⟨k', hal⟩, huse⟩

end Updating

end Xv6Mmap

import Xv6Mmap.BlockCalls
import Xv6Mmap.Boot

/-!
# Running calls by blocks

A kernel state between calls, taken to the level of blocks, and runs of a list of steps there; then the blocks of the small disk of `Boot`.
-/

namespace Xv6Mmap.Blk

/-- The system between calls: the inode table of `k`, block addresses, an empty log, and the `warm` blocks cached. -/
def idleSys (k : Kernel) (addrs : Nat → Nat → Nat) (disk : Nat → Bytes) (warm : Nat → Bool) : Sys where
  cache := fun b => if warm b then some (disk b) else none
  holder := fun _ => none
  disk := disk
  log := ⟨mkfsNlog, 0, false, []⟩
  inode := fun j =>
    let ip := k.fs.itable j
    ⟨ip.dev, ip.inum, ip.ref, ip.valid, ip.info, addrs ip.inum⟩
  ilock := fun _ => none
  plock := fun _ => false
  inOp := fun _ => 0
  k := k
  fate := true

theorem idle_idleSys (k : Kernel) (addrs : Nat → Nat → Nat) (disk : Nat → Bytes) (warm : Nat → Bool) :
    Idle ⟨idleSys k addrs disk warm, fun _ => .ret ()⟩ where
  prog := fun _ => rfl
  cache := fun b d h => by
    simp only [idleSys] at h ⊢
    split at h
    · exact (Option.some.inj h).symm
    · cases h
  holder := fun _ => rfl
  ilock := fun _ => rfl
  plock := fun _ => rfl
  inOp := fun _ => rfl
  outstanding := rfl
  committing := rfl
  lh := rfl

/-! ## Runs -/

/-- A process starts a call and makes its first `n` actions. -/
def firstActs (i : Nat) (p : Call) (n : Nat) : List (ConfEvent Call Beside) := .call i p :: List.replicate n (.act i)

/-! ## A small system -/

/-- The superblock of the small disk, with the numbers of `mkfs`. -/
def demoSb : Superblock := ⟨1000, 200, 2, 32, 45⟩

/-- The blocks of the file, inode 2, their content, and the bitmap with the first 64 blocks in use. -/
def demoAddrs (inum bn : Nat) : Nat := if inum = 2 ∧ bn < 4 then 60 + bn else 0
def demoBlocks (b x : Nat) : UInt8 :=
  if b = 45 then (if x < 8 then 255 else 0)
  else if 60 ≤ b ∧ b < 64 then (demoDisk 4096 rootDev 2).data ((b - 60) * bsize + x)
  else 0

/-- The small system in a kernel state, with `warm` blocks cached. -/
def demoConf (warm : Nat → Bool) (k : Kernel) : Conf Act Act.Res Sys := ⟨idleSys k demoAddrs demoBlocks warm, fun _ => .ret ()⟩

/-- The condition of runs in which every action is allowed. -/
theorem any_action (_ : Sys) (_ : Nat) (_ : Act) (_ : true = true) : True := trivial

/-- A run of the kernel, and from there a run by blocks. -/
theorem reach_demoCalls {check : Sys → Nat → Act → Bool} {P : Sys → Nat → Act → Prop} {T : Conf Act Act.Res Sys → Prop}
    (hP : ∀ s i a, check s i a = true → P s i a) (evs : List (Nat × Event)) (warm : Nat → Bool) (es : List (ConfEvent Call Beside))
    (h : ∃ k, demoRun 4096 (fun _ _ _ => true) evs = some k ∧
      ∃ c, runSteps (machine demoLayout demoSb).step (Machine.meets check) es (demoConf warm k) = some c ∧ T c) :
    ∃ k0 k c, Booted demoLayout k0 ∧ Xv6Mmap.Reach demoLayout (fun _ _ _ => True) k0 k ∧
      (machine demoLayout demoSb).Reach P (demoConf warm k) c ∧ T c := by
  obtain ⟨k0, k, h0, hrun, c, hc, ht⟩ := reach_demoRun 4096 always_of_check evs h
  exact ⟨k0, k, c, h0, hrun, Machine.reach_runSteps hP hc, ht⟩

end Xv6Mmap.Blk

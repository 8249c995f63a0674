import Xv6Mmap.Lemmas.Dispose
import Xv6Mmap.Boot

/-!
# `exec` and the mappings of the old program

`exec` frees the old page table as if it held nothing but the memory below `p->sz`, and does not look at the VMAs. It replaces the
address space exactly when the process has no VMA and its page table is disposable. With a VMA none of whose pages was touched, it
returns and the VMA stays; with one touched page it stops in `freewalk`.
-/

namespace Xv6Mmap

variable {Λ : Layout} {io : Bool} {k k₁ : Kernel} {i : Nat} {path : List UInt8} {argv : List (List UInt8)}

/-! ## The commit point -/

/-- `exec` up to its commit point: the kernel there, with the size and the page table of the new image; none when it fails. -/
def execToCommit (Λ : Layout) (io : Bool) (k : Kernel) (i : Nat) (path : List UInt8) (argv : List (List UInt8)) :
    Except Panic (Option (Nat × PageTable) × Kernel) := do
  let (ip, fs) ← namei io k.fs (k.proc i).cwd path
  match ip with
  | none => pure (none, { k with fs := fs })
  | some ip => do
    let fs ← ilock fs (some ip)
    let (image, m) ← execImage Λ k.mem (k.proc i).trapframe (fs.itable ip).info.size (fs.data ip) argv
    let fs ← iput io fs (some ip)
    pure (image, { k with fs := fs, mem := m })

/-- `exec` from its commit point on: the old page table is freed, and the process gets the new one. -/
def execCommit (Λ : Layout) (k : Kernel) (i argc sz : Nat) (pt : PageTable) : Except Panic (Option Nat × Kernel) :=
  match (k.proc i).pagetable with
  | none => throw .kerneltrap
  | some old => do
    let m ← procFreepagetable Λ old k.mem (k.proc i).sz
    pure (some argc, { k.setProc i { k.proc i with pagetable := some pt, sz := sz } with mem := m })

/-- Up to its commit point `exec` touches no process, no VMA and no file. -/
theorem execToCommit_frame {image : Option (Nat × PageTable)} (h : execToCommit Λ io k i path argv = .ok (image, k₁)) :
    k₁.proc = k.proc ∧ k₁.vmas = k.vmas ∧ k₁.ftable = k.ftable := by
  obtain ⟨⟨ip, fs⟩, -, h⟩ := bind_eq_ok.mp h
  cases ip with
  | none =>
    cases h
    exact ⟨rfl, rfl, rfl⟩
  | some ip =>
    obtain ⟨fs1, -, h⟩ := bind_eq_ok.mp h
    obtain ⟨⟨image', m⟩, -, h⟩ := bind_eq_ok.mp h
    obtain ⟨fs2, -, h⟩ := bind_eq_ok.mp h
    cases h
    exact ⟨rfl, rfl, rfl⟩

/-- A call that reaches the commit point goes on from there. -/
theorem exec_of_commit {sz : Nat} {pt : PageTable} (h : execToCommit Λ io k i path argv = .ok (some (sz, pt), k₁)) :
    exec Λ io k i path argv = execCommit Λ k₁ i argv.length sz pt := by
  obtain ⟨⟨ip, fs⟩, hip, h⟩ := bind_eq_ok.mp h
  cases ip with
  | none => cases h
  | some ip =>
    obtain ⟨fs1, hlock, h⟩ := bind_eq_ok.mp h
    obtain ⟨⟨image, m⟩, himage, h⟩ := bind_eq_ok.mp h
    obtain ⟨fs2, hput, h⟩ := bind_eq_ok.mp h
    cases h
    simp only [exec, hip, hlock, himage, hput, bind, Except.bind, execCommit]
    cases (k.proc i).pagetable with
    | none | some old => rfl

/-! ## Replacing the address space -/

/-- The address space of process `i` is replaced between `k` and `k'`: the dirty pages of its shared VMAs are in their files, and
of its VMAs nothing is left. -/
structure Replaced (k k' : Kernel) (i : Nat) : Prop where
  written : ∀ n < (k.proc i).nvma, ∀ a, Chain.follow (fun a => (k.vmas a).next) n (k.proc i).vmas = some a →
    (k.vmas a).flag = mapShared → ∀ pt va f ip, (k.proc i).pagetable = some pt → (k.vmas a).addri ≤ va → va < (k.vmas a).addre →
    pt.mapped (pgRoundDown va) = true → hasFlag (pt.pte (pgRoundDown va)) pteD = true → (k.vmas a).ofile = some f →
    (k.ftable f).ip = some ip → va - (k.vmas a).addrinit < (k.fs.itable ip).info.size →
    k'.fs.data ip (va - (k.vmas a).addrinit) = k.mem.ram (ptePage (pt.pte (pgRoundDown va))) (va % pgSize)
  empty : (k'.proc i).nvma = 0
  slots : ∀ n < (k.proc i).nvma, ∀ a, Chain.follow (fun a => (k.vmas a).next) n (k.proc i).vmas = some a →
    (k'.vmas a).use = false

/-- For every state, process and program: a call of `exec` that reaches its commit point, in the state `k₁`, returns with the address
space replaced exactly when the process has no VMA and its page table is disposable, that is, holds the memory below `p->sz`, the
trampoline and the trapframe, and no other leaf, in pages that `kfree` takes. -/
theorem exec_replaces {Λ : Layout} {io : Bool} {k k₁ : Kernel} {i sz : Nat} {path : List UInt8} {argv : List (List UInt8)}
    {pt : PageTable} (h : execToCommit Λ io k i path argv = .ok (some (sz, pt), k₁)) :
    (k₁.proc = k.proc ∧ k₁.vmas = k.vmas ∧ k₁.ftable = k.ftable) ∧
    ((∃ argc k', exec Λ io k i path argv = .ok (some argc, k') ∧ Replaced k₁ k' i) ↔
      (k₁.proc i).nvma = 0 ∧ ∃ old, (k₁.proc i).pagetable = some old ∧ Disposable Λ k₁.mem old (k₁.proc i).sz) := by
  refine ⟨execToCommit_frame h, ?_⟩
  rw [exec_of_commit h, execCommit]
  cases hpt : (k₁.proc i).pagetable with
  | none =>
    refine ⟨?_, fun ⟨_, old, e, _⟩ => (nomatch e)⟩
    rintro ⟨argc, k', e, -⟩
    cases e
  | some old =>
    have hfree : Ends (procFreepagetable Λ old k₁.mem (k₁.proc i).sz) _ _ := procFreepagetable_exact (k₁.proc i).sz
    constructor
    · rintro ⟨argc, k', e, hr⟩
      obtain ⟨m, hm, e⟩ := bind_eq_ok.mp e
      cases e
      refine ⟨?_, old, rfl, hfree.of_ok hm⟩
      have := hr.empty
      simpa [Kernel.setProc] using this
    · rintro ⟨hn, old', e, hd⟩
      cases e
      cases hm : procFreepagetable Λ old k₁.mem (k₁.proc i).sz with
      | error e => exact absurd hd (hfree.of_error hm)
      | ok m =>
        refine ⟨argv.length, _, bind_eq_ok.mpr ⟨m, hm, rfl⟩, fun n hlt => ?_, ?_, fun n hlt => ?_⟩
        · rw [hn] at hlt
          exact absurd hlt (Nat.not_lt_zero n)
        · simpa [Kernel.setProc] using hn
        · rw [hn] at hlt
          exact absurd hlt (Nat.not_lt_zero n)

/-- The small disk with a program for a file: an ELF header without program headers. -/
def elfDisk (dev inum : Nat) : Dinode :=
  if inum = 2 then
    ⟨⟨tFile, 0, 0, 1, 64⟩, fun x => if x = 0 then 0x7F else if x = 1 then 0x45 else if x = 2 then 0x4C else if x = 3 then 0x46 else 0⟩
  else demoDisk 0 dev inum

/-- A run of the small system over that disk. -/
theorem reach_elfRun {T : Kernel → Prop} (evs : List (Nat × Event))
    (h : ∃ k, bootRun demoLayout elfDisk 200 (fun _ _ _ => true) evs = some k ∧ T k) :
    ∃ k0 k, Booted demoLayout k0 ∧ Reach demoLayout (fun _ _ _ => True) k0 k ∧ T k := by
  obtain ⟨k, hk, ht⟩ := h
  obtain ⟨k0, h0, hrun⟩ := reach_bootRun always_of_check hk
  exact ⟨k0, k, h0, hrun, ht⟩

/-- The first process, which has no VMA, runs the program. -/
theorem exec_replaces_demo : ∃ k₀ k k' : Kernel, Booted demoLayout k₀ ∧ Reach demoLayout (fun _ _ _ => True) k₀ k ∧
    ∃ sz pt k₁ argc, execToCommit demoLayout true k 0 [102] [] = .ok (some (sz, pt), k₁) ∧
      exec demoLayout true k 0 [102] [] = .ok (some argc, k') ∧
      ∃ old, (k₁.proc 0).pagetable = some old ∧ Disposable demoLayout k₁.mem old (k₁.proc 0).sz := by
  obtain ⟨k₀, k, h0, hrun, ⟨⟨_, k₁⟩, hc, ⟨sz, pt⟩, rfl, -⟩, ⟨_, k'⟩, e, argc, rfl, hn⟩ := reach_elfRun
    (T := fun k => (∃ r, execToCommit demoLayout true k 0 [102] [] = .ok r ∧ ∃ image, r.1 = some image ∧ True) ∧
      ∃ r, exec demoLayout true k 0 [102] [] = .ok r ∧ ∃ argc, r.1 = some argc ∧ (r.2.proc 0).nvma = 0) [] (by decide +kernel)
  obtain ⟨hframe, hiff⟩ := exec_replaces hc
  have hsame : (k'.proc 0).nvma = (k₁.proc 0).nvma ∧ k'.vmas = k₁.vmas := by
    have e' := e
    rw [exec_of_commit hc, execCommit] at e'
    split at e'
    · cases e'
    · obtain ⟨m, -, e'⟩ := bind_eq_ok.mp e'
      cases e'
      exact ⟨by simp [Kernel.setProc], rfl⟩
  have hrep : Replaced k₁ k' 0 := by
    have hz : (k₁.proc 0).nvma = 0 := hsame.1.symm.trans hn
    refine ⟨fun n hlt => ?_, hn, fun n hlt => ?_⟩ <;>
    · rw [hz] at hlt
      exact absurd hlt (Nat.not_lt_zero n)
  exact ⟨k₀, k, k', h0, hrun, sz, pt, k₁, argc, hc, e, (hiff.mp ⟨argc, k', e, hrep⟩).2⟩

/-- A process with a VMA runs the program: the VMA stays; and it stops in `freewalk` when a page of the VMA was touched. -/
theorem exec_keepsVma :
    (∃ k₀ k k' : Kernel, Booted demoLayout k₀ ∧ Reach demoLayout (fun _ _ _ => True) k₀ k ∧
      exec demoLayout true k 0 [102] [] = .ok (some 0, k') ∧ (k'.proc 0).nvma = 1) ∧
    ∃ k₀ k, Booted demoLayout k₀ ∧ Reach demoLayout (fun _ _ _ => True) k₀ k ∧
      exec demoLayout true k 0 [102] [] = .error .freewalkLeaf := by
  constructor
  · obtain ⟨k₀, k, h0, hrun, ⟨_, k'⟩, e, rfl, hn⟩ := reach_elfRun
      (T := fun k => ∃ r, exec demoLayout true k 0 [102] [] = .ok r ∧ r.1 = some 0 ∧ (r.2.proc 0).nvma = 1)
      [(0, .openPath demoPath oRdwr), (0, .mmap 4096 protRead mapPrivate 0)] (by decide +kernel)
    exact ⟨k₀, k, k', h0, hrun, e, hn⟩
  · exact reach_elfRun [(0, .openPath demoPath oRdwr), (0, .mmap 4096 protRead mapPrivate 0), (0, .fault startAddress .load)]
      (by decide +kernel)

end Xv6Mmap

import Xv6Mmap.Lemmas.Vmas

/-!
# What a kernel call can change

For each call of the kernel, which entry of the process table it rewrites, and that it leaves the rest alone: an invariant that does
not mention what a call changes is kept for the shape of its result alone.
-/

namespace Xv6Mmap

open Function Kernel

/-- The kernel with a process, the memory and the file system replaced. -/
def Kernel.upd (k : Kernel) (i : Nat) (p : Proc) (m : Mem) (fs : Fs) : Kernel :=
  { k.setProc i p with mem := m, fs := fs }

section Upd

variable (k : Kernel) (i : Nat) (p : Proc) (m : Mem) (fs : Fs)

@[simp] theorem upd_self : (k.upd i p m fs).proc i = p := by simp [upd, setProc]

@[simp] theorem upd_of_ne {j : Nat} (h : j ≠ i) : (k.upd i p m fs).proc j = k.proc j := by
  simp [upd, setProc, h]

@[simp] theorem upd_vmas : (k.upd i p m fs).vmas = k.vmas := rfl
@[simp] theorem upd_ftable : (k.upd i p m fs).ftable = k.ftable := rfl
@[simp] theorem upd_fs : (k.upd i p m fs).fs = fs := rfl

theorem upd_proc_self : k.upd i (k.proc i) m fs = { k with mem := m, fs := fs } := by
  simp [upd, setProc, update_eq_self]

theorem upd_field {β : Type} (g : Proc → β) (h : g p = g (k.proc i)) (j : Nat) :
    g ((k.upd i p m fs).proc j) = g (k.proc j) := update_field g h j

theorem sameLists_upd (hv : p.vmas = (k.proc i).vmas) (hn : p.nvma = (k.proc i).nvma) : SameLists k (k.upd i p m fs) :=
  ⟨rfl, upd_field k i p m fs Proc.vmas hv, upd_field k i p m fs Proc.nvma hn⟩

end Upd

/-! ## Closing files -/

/-- Only files, pipes, the file system and the memory changed. -/
structure FileOnly (k k' : Kernel) : Prop where
  proc : k'.proc = k.proc
  vmas : k'.vmas = k.vmas
  nextpid : k'.nextpid = k.nextpid

theorem FileOnly.refl (k : Kernel) : FileOnly k k := ⟨rfl, rfl, rfl⟩

theorem FileOnly.sameLists {k k' : Kernel} (h : FileOnly k k') : SameLists k k' :=
  ⟨h.vmas, fun i => by rw [h.proc], fun i => by rw [h.proc]⟩

section Files

variable {Λ : Layout} {io : Bool} {k k' : Kernel} {f : Nat}

/-- What a released file leaves: memory and pipes changed, or a reference to an inode given back. -/
inductive FileGone (io : Bool) (k : Kernel) (ff : File) : Kernel → Prop where
  | pipe (m : Mem) (pipes : Nat → Pipe) (ht : ff.type = .none ∨ ff.type = .pipe) :
      FileGone io k ff { k with mem := m, pipes := pipes }
  | inode (fs : Fs) (ht : ff.type = .inode ∨ ff.type = .device) (hput : iput io k.fs ff.ip = .ok fs) :
      FileGone io k ff { k with fs := fs }

theorem fileRelease_ok {ff : File} (h : fileRelease Λ io k ff = .ok k') : FileGone io k ff k' := by
  unfold fileRelease at h
  split at h
  next ht =>
    cases h
    exact .pipe k.mem k.pipes (Or.inl ht)
  next ht =>
    unfold pipeclose at h
    dsimp only at h
    split at h
    · obtain ⟨m, -, h⟩ := bind_eq_ok.mp h
      cases h
      exact .pipe m _ (Or.inr ht)
    · cases h
      exact .pipe k.mem _ (Or.inr ht)
  next ht =>
    obtain ⟨fs, hput, h⟩ := bind_eq_ok.mp h
    cases h
    exact .inode fs (Or.inl ht) hput
  next ht =>
    obtain ⟨fs, hput, h⟩ := bind_eq_ok.mp h
    cases h
    exact .inode fs (Or.inr ht) hput

theorem fileRelease_fileOnly {ff : File} (h : fileRelease Λ io k ff = .ok k') : FileOnly k k' := by
  cases fileRelease_ok h with
  | pipe | inode => exact ⟨rfl, rfl, rfl⟩

/-- What `fileclose` comes to: a reference fewer, or the file released. -/
inductive Closed (Λ : Layout) (io : Bool) (k : Kernel) (f : Nat) (k' : Kernel) : Prop where
  | shared (href : 1 < (k.ftable f).ref) (hk : k' = k.setFile f { k.ftable f with ref := (k.ftable f).ref - 1 })
  | last (href : (k.ftable f).ref = 1)
      (hk : fileRelease Λ io (k.setFile f { k.ftable f with ref := 0, type := .none }) (k.ftable f) = .ok k')

theorem fileclose_ok (h : fileclose Λ io k f = .ok k') : Closed Λ io k f k' := by
  unfold fileclose at h
  dsimp only at h
  split at h
  · cases h
  · split at h
    · cases h
      exact .shared (by omega) rfl
    · exact .last (by omega) h

theorem fileclose_fileOnly (h : fileclose Λ io k f = .ok k') : FileOnly k k' := by
  cases fileclose_ok h with
  | shared _ hk =>
    subst hk
    exact ⟨rfl, rfl, rfl⟩
  | last _ hk =>
    have := fileRelease_fileOnly hk
    exact ⟨this.proc, this.vmas, this.nextpid⟩

theorem fileRelease_ftable {ff : File} (h : fileRelease Λ io k ff = .ok k') : k'.ftable = k.ftable := by
  cases fileRelease_ok h with
  | pipe | inode => rfl

theorem ref_update (F : Nat → File) {file : File} {n : Int} (h : file.ref = (F f).ref + n) (x : Nat) :
    (update F f file x).ref = (F x).ref + if x = f then n else 0 :=
  (forall_update_iff F fun x y => y.ref = (F x).ref + if x = f then n else 0).mpr
    ⟨by rw [if_pos rfl, h], fun x hx => by rw [if_neg hx, add_zero]⟩ x

theorem file_update (F : Nat → File) (f : Nat) (n : Int) (x : Nat) :
    update F f { F f with ref := n } x = { F x with ref := (update F f { F f with ref := n } x).ref } :=
  (forall_update_iff F fun x y => y = { F x with ref := y.ref }).mpr ⟨rfl, fun _ _ => rfl⟩ x

theorem dropFile_ref (F : Nat → File) {file : File} (h : file.ref = (F f).ref - 1) (x : Nat) :
    (update F f file x).ref = (F x).ref - if x = f then 1 else 0 :=
  (forall_update_iff F fun x y => y.ref = (F x).ref - if x = f then 1 else 0).mpr
    ⟨by rw [if_pos rfl, h], fun x hx => by rw [if_neg hx, sub_zero]⟩ x

theorem newFile_ref (F : Nat → File) {file : File} (h0 : (F f).ref = 0) (h1 : file.ref = 1) (x : Nat) :
    (update F f file x).ref = (F x).ref + if x = f then 1 else 0 := ref_update F (by rw [h0, h1, zero_add]) x

theorem fileclose_ref (h : fileclose Λ io k f = .ok k') (x : Nat) :
    (k'.ftable x).ref = (k.ftable x).ref - if x = f then 1 else 0 := by
  cases fileclose_ok h with
  | shared _ hk =>
    rw [hk]
    exact dropFile_ref k.ftable rfl x
  | last href hk =>
    rw [fileRelease_ftable hk]
    exact dropFile_ref k.ftable (by rw [href, sub_self]) x

theorem filealloc_some (h : filealloc k = some (f, k')) :
    f < nfile ∧ (k.ftable f).ref = 0 ∧ k' = k.setFile f { k.ftable f with ref := 1 } := by
  obtain ⟨f', hf, e⟩ := Option.map_eq_some_iff.mp h
  cases e
  obtain ⟨h1, h2⟩ := firstSlot_some hf
  exact ⟨h1, by simpa using h2, rfl⟩

theorem fdalloc_some {i fd : Nat} (h : fdalloc k i f = some (fd, k')) :
    fd < nofile ∧ (k.proc i).ofile fd = none ∧ k' = k.setFd i fd (some f) := by
  obtain ⟨fd', hf, e⟩ := Option.map_eq_some_iff.mp h
  cases e
  obtain ⟨h1, h2⟩ := firstSlot_some hf
  exact ⟨h1, by simpa using h2, rfl⟩

theorem filedup_ok (h : filedup k f = .ok k') :
    1 ≤ (k.ftable f).ref ∧ k' = k.setFile f { k.ftable f with ref := (k.ftable f).ref + 1 } := by
  unfold filedup at h
  split at h
  · cases h
  · cases h
    exact ⟨by omega, rfl⟩

theorem sameLists_setFd (k : Kernel) (i fd : Nat) (f : Option Nat) : SameLists k (k.setFd i fd f) :=
  sameLists_setProc k i _ rfl rfl

theorem sameLists_setFile (k : Kernel) (f : Nat) (file : File) : SameLists k (k.setFile f file) :=
  ⟨rfl, fun _ => rfl, fun _ => rfl⟩

end Files

/-! ## Processes -/

section Procs

variable {Λ : Layout} {io : Bool} {k k' : Kernel} {i : Nat}

theorem freeproc_ok {p : Proc} {m : Mem} {r : Proc × Mem} (h : freeproc Λ p m = .ok r) : r.1 = p.freed := by
  obtain ⟨m1, -, h⟩ := bind_eq_ok.mp h
  obtain ⟨m2, -, h⟩ := bind_eq_ok.mp h
  cases h
  rfl

/-- What `allocproc` comes to: nothing, or an unused entry with a trapframe and a page table. The last case, a failure undone, needs a
`kalloc` that returns `0`. -/
inductive AllocDone (Λ : Layout) (k : Kernel) : Option Nat × Kernel → Prop where
  | full : AllocDone Λ k (none, k)
  | found (j tf : Nat) (pt : PageTable) (m₁ m : Mem) (hj : j < nproc) (hstate : (k.proc j).state = .unused)
      (hlock : (k.proc j).lock = false) (htf : kalloc Λ k.mem = (tf, m₁)) (hpt : procPagetable Λ m₁ tf = .ok (some pt, m)) :
      AllocDone Λ k (some j,
        { k.upd j { k.proc j with pid := k.nextpid, state := .used, trapframe := tf, pagetable := some pt } m k.fs with
          nextpid := k.nextpid + 1 })
  | undone (j : Nat) (p : Proc) (m : Mem) (hj : j < nproc) (hstate : (k.proc j).state = .unused)
      (hp : p = (k.proc j).freed) :
      AllocDone Λ k (none, { k.upd j p m k.fs with nextpid := k.nextpid + 1 })

theorem allocproc_ok {r : Option Nat × Kernel} (h : allocproc Λ k = .ok r) : AllocDone Λ k r := by
  unfold allocproc at h
  split at h
  · cases h
    exact .full
  rename_i j hj
  obtain ⟨hjn, hjp⟩ := firstSlot_some hj
  dsimp only at h
  split at h
  · cases h
  rename_i hlock
  have hlock' : (k.proc j).lock = false := by simpa using hlock
  have hstate : (k.proc j).state = .unused := by simpa [hlock'] using hjp
  cases htf : kalloc Λ k.mem with
  | mk tf m1 =>
    rw [htf] at h
    split at h
    · obtain ⟨⟨p, m⟩, hfree, h⟩ := bind_eq_ok.mp h
      cases h
      exact .undone j p m hjn hstate ((freeproc_ok hfree).trans rfl)
    · obtain ⟨⟨pt, m⟩, hpt, h⟩ := bind_eq_ok.mp h
      cases pt with
      | none =>
        obtain ⟨⟨p, m'⟩, hfree, h⟩ := bind_eq_ok.mp h
        cases h
        exact .undone j p m' hjn hstate ((freeproc_ok hfree).trans rfl)
      | some pt =>
        cases h
        exact .found j tf pt m1 m hjn hstate hlock' htf hpt

theorem growproc_ok {n : Int} {r : Bool × Kernel} (h : growproc Λ k i n = .ok r) :
    ∃ pt sz m, r.2 = k.upd i { k.proc i with pagetable := pt, sz := sz } m k.fs := by
  unfold growproc at h
  dsimp only at h
  split at h
  · cases h
  split at h
  · obtain ⟨⟨sz, pt', m⟩, -, h⟩ := bind_eq_ok.mp h
    split at h
    · cases h
      exact ⟨some pt', _, m, rfl⟩
    · cases h
      exact ⟨some pt', _, m, rfl⟩
  · split at h
    · obtain ⟨⟨sz, pt', m⟩, -, h⟩ := bind_eq_ok.mp h
      cases h
      exact ⟨some pt', _, m, rfl⟩
    · cases h
      exact ⟨(k.proc i).pagetable, _, k.mem, rfl⟩

/-- What `wait` comes to: bytes of the caller's at most, or a zombie child freed. -/
inductive WaitDone (Λ : Layout) (k : Kernel) (i : Nat) : WaitResult × Kernel → Prop where
  | stay (w : WaitResult) : WaitDone Λ k i (w, k)
  | failed (ram : Nat → Nat → UInt8) : WaitDone Λ k i (.failed, { k with mem := { k.mem with ram := ram } })
  | freed (j : Nat) (ram : Nat → Nat → UInt8) (m : Mem) (hj : j < nproc) (hstate : (k.proc j).state = .zombie)
      (hm : freeproc Λ (k.proc j) { k.mem with ram := ram } = .ok ((k.proc j).freed, m)) :
      WaitDone Λ k i (.freed (k.proc j).pid, k.upd j (k.proc j).freed m k.fs)

theorem wait_ok {addr : Nat} {r : WaitResult × Kernel} (h : wait Λ k i addr = .ok r) : WaitDone Λ k i r := by
  unfold wait at h
  dsimp only at h
  split at h
  · rename_i j hj
    obtain ⟨hjn, hjp⟩ := firstSlot_some hj
    split at h
    · cases h
    rename_i hlock
    have hstate : (k.proc j).state = .zombie := by
      have hlock' : (k.proc j).lock = false := by simpa using hlock
      simp only [hlock', Bool.false_or, Bool.and_eq_true, beq_iff_eq] at hjp
      exact hjp.2
    split at h
    · cases h
    rename_i pt hpt
    generalize (if addr = 0 then (true, k.mem.ram) else copyout pt k.mem.ram addr (intBytes (k.proc j).xstate) 4) = c at h
    obtain ⟨ok, ram⟩ := c
    cases ok with
    | false =>
      cases h
      exact .failed ram
    | true =>
      obtain ⟨⟨p, m⟩, hfree, h⟩ := bind_eq_ok.mp h
      cases h
      have hp : p = (k.proc j).freed := freeproc_ok hfree
      subst hp
      exact .freed j ram m hjn hstate hfree
  · split at h <;> cases h <;> exact .stay _

theorem exec_ok {path : List UInt8} {argv : List (List UInt8)} {r : Option Nat × Kernel} (h : exec Λ io k i path argv = .ok r) :
    ∃ pt sz m fs, r.2 = k.upd i { k.proc i with pagetable := pt, sz := sz } m fs := by
  obtain ⟨⟨ip, fs⟩, -, h⟩ := bind_eq_ok.mp h
  cases ip with
  | none =>
    cases h
    exact ⟨(k.proc i).pagetable, (k.proc i).sz, k.mem, fs, (upd_proc_self k i k.mem fs).symm⟩
  | some ip =>
    obtain ⟨fs1, -, h⟩ := bind_eq_ok.mp h
    obtain ⟨⟨image, m⟩, -, h⟩ := bind_eq_ok.mp h
    obtain ⟨fs2, -, h⟩ := bind_eq_ok.mp h
    split at h
    · cases h
      exact ⟨(k.proc i).pagetable, (k.proc i).sz, m, fs2, (upd_proc_self k i m fs2).symm⟩
    · cases h
    · obtain ⟨m', -, h⟩ := bind_eq_ok.mp h
      cases h
      exact ⟨_, _, m', fs2, rfl⟩

theorem sysChdir_ok {path : Option (List UInt8)} {r : Nat × Kernel} (h : sysChdir io k i path = .ok r) :
    ∃ cwd fs, r.2 = k.upd i { k.proc i with cwd := cwd } k.mem fs := by
  cases path with
  | none =>
    cases h
    exact ⟨(k.proc i).cwd, k.fs, (upd_proc_self k i k.mem k.fs).symm⟩
  | some path =>
    obtain ⟨⟨ip, fs⟩, -, h⟩ := bind_eq_ok.mp h
    cases ip with
    | none =>
      cases h
      exact ⟨(k.proc i).cwd, fs, (upd_proc_self k i k.mem fs).symm⟩
    | some ip =>
      obtain ⟨fs1, -, h⟩ := bind_eq_ok.mp h
      split at h
      · obtain ⟨fs2, -, h⟩ := bind_eq_ok.mp h
        cases h
        exact ⟨(k.proc i).cwd, fs2, (upd_proc_self k i k.mem fs2).symm⟩
      · obtain ⟨fs2, -, h⟩ := bind_eq_ok.mp h
        cases h
        exact ⟨some ip, fs2, rfl⟩

theorem exitDone_ok {status : Int} (h : exitDone io k i status = .ok k') :
    ∃ fs, iput io k.fs (k.proc i).cwd = .ok fs ∧ (k.proc i).lock = false ∧
      k' = (reparent (k.upd i { k.proc i with cwd := none } k.mem fs) i).setProc i
        { (reparent (k.upd i { k.proc i with cwd := none } k.mem fs) i).proc i with
          xstate := status, state := .zombie, exiting := none } := by
  obtain ⟨fs, hfs, h⟩ := bind_eq_ok.mp h
  refine ⟨fs, hfs, ?_⟩
  dsimp only at h
  split at h
  · cases h
  rename_i hlock
  cases h
  refine ⟨?_, rfl⟩
  have : ∀ k' : Kernel, ((reparent k' i).proc i).lock = (k'.proc i).lock := by
    intro k'
    unfold reparent
    dsimp only
    split <;> rfl
  rw [this] at hlock
  simpa [setProc] using hlock

theorem userinit_ok (h : userinit Λ k = .ok k') :
    ∃ j tf pt pt' m1 m m' cwd fs, j < nproc ∧ (k.proc j).state = .unused ∧ kalloc Λ k.mem = (tf, m1) ∧
      procPagetable Λ m1 tf = .ok (some pt, m) ∧ uvminit Λ pt m initcode = .ok (pt', m') ∧
      namei true k.fs none [slash] = .ok (cwd, fs) ∧ k' = { k.upd j { k.proc j with
          pid := k.nextpid, trapframe := tf, pagetable := some pt', sz := pgSize, cwd := cwd, vmas := none, state := .runnable }
        m' fs with nextpid := k.nextpid + 1 } := by
  obtain ⟨⟨np, k1⟩, hal, h⟩ := bind_eq_ok.mp h
  cases allocproc_ok hal with
  | full | undone j p m hj hstate hp => cases h
  | found j tf pt m1 m hj hstate hlock htf hpt =>
    simp only [upd_self] at h
    obtain ⟨⟨pt', m'⟩, hinit, h⟩ := bind_eq_ok.mp h
    obtain ⟨⟨cwd, fs⟩, hcwd, h⟩ := bind_eq_ok.mp h
    cases h
    refine ⟨j, tf, pt, pt', m1, m, m', cwd, fs, hj, hstate, htf, hpt, hinit, hcwd, ?_⟩
    simp [upd, setProc]

end Procs

/-! ## Descriptors -/

section Descriptors

variable {Λ : Layout} {io : Bool} {k k' : Kernel} {i length : Nat} {fd : Int} {r : Nat × Kernel}

/-- What `sys_dup` comes to. -/
inductive DupDone (k : Kernel) (i : Nat) : Nat × Kernel → Prop where
  | failed : DupDone k i (minusOne, k)
  | done (fd' fd f : Nat) (hf : (k.proc i).ofile fd' = some f) (hfd' : fd' < nofile) (hfd : fd < nofile)
      (hfree : (k.proc i).ofile fd = none) (href : 1 ≤ (k.ftable f).ref) :
      DupDone k i (fd, (k.setFd i fd (some f)).setFile f { k.ftable f with ref := (k.ftable f).ref + 1 })

theorem argfd_some {x : Nat × Nat} (h : argfd k i fd = some x) : x.1 < nofile ∧ (k.proc i).ofile x.1 = some x.2 := by
  unfold argfd at h
  split at h
  · cases h
  · obtain ⟨f, hf, e⟩ := Option.map_eq_some_iff.mp h
    cases e
    exact ⟨by omega, hf⟩

theorem sysDup_ok (h : sysDup k i fd = .ok r) : DupDone k i r := by
  unfold sysDup at h
  split at h
  · cases h
    exact .failed
  rename_i fd' f hfd
  split at h
  · cases h
    exact .failed
  rename_i fd1 k1 hal
  obtain ⟨hlt, hnone, rfl⟩ := fdalloc_some hal
  obtain ⟨k2, hdup, h⟩ := bind_eq_ok.mp h
  cases h
  obtain ⟨href, rfl⟩ := filedup_ok hdup
  obtain ⟨h1, h2⟩ := argfd_some hfd
  exact .done fd' fd1 f h2 h1 hlt hnone href

/-- What `sys_close` comes to. -/
inductive CloseDone (Λ : Layout) (io : Bool) (k : Kernel) (i : Nat) : Nat × Kernel → Prop where
  | failed : CloseDone Λ io k i (minusOne, k)
  | done (fd f : Nat) (k' : Kernel) (hfd : fd < nofile) (hf : (k.proc i).ofile fd = some f)
      (hk : fileclose Λ io (k.setFd i fd none) f = .ok k') : CloseDone Λ io k i (0, k')

theorem sysClose_ok (h : sysClose Λ io k i fd = .ok r) : CloseDone Λ io k i r := by
  unfold sysClose at h
  split at h
  · cases h
    exact .failed
  rename_i fd' f hfd
  obtain ⟨k', hk, h⟩ := bind_eq_ok.mp h
  cases h
  obtain ⟨h1, h2⟩ := argfd_some hfd
  exact .done fd' f k' h1 h2 hk

/-- A file allocated for a descriptor: `filealloc` and `fdalloc`. -/
def withFd (k : Kernel) (i f fd : Nat) : Kernel := (k.setFile f { k.ftable f with ref := 1 }).setFd i fd (some f)

/-- What `sys_open` comes to, once the path is there. -/
inductive OpenDone (Λ : Layout) (io : Bool) (k : Kernel) (i : Nat) (path : List UInt8) (omode : Nat) : Nat × Kernel → Prop where
  | noInode (fs : Fs) (hip : openInode io k.fs (k.proc i).cwd path omode = .ok (none, fs)) :
      OpenDone Λ io k i path omode (minusOne, { k with fs := fs })
  | noFile (ip : Nat) (fs fs' : Fs) (hip : openInode io k.fs (k.proc i).cwd path omode = .ok (some ip, fs))
      (hput : iput io fs (some ip) = .ok fs') : OpenDone Λ io k i path omode (minusOne, { k with fs := fs' })
  | noFd (ip f : Nat) (fs fs' : Fs) (k' : Kernel) (hip : openInode io k.fs (k.proc i).cwd path omode = .ok (some ip, fs))
      (hf : f < nfile) (href : (k.ftable f).ref = 0)
      (hclose : fileclose Λ io (({ k with fs := fs } : Kernel).setFile f { k.ftable f with ref := 1 }) f = .ok k')
      (hput : iput io k'.fs (some ip) = .ok fs') : OpenDone Λ io k i path omode (minusOne, { k' with fs := fs' })
  | done (ip f fd : Nat) (fs fs' : Fs) (file : File) (hip : openInode io k.fs (k.proc i).cwd path omode = .ok (some ip, fs))
      (hf : f < nfile) (href : (k.ftable f).ref = 0) (hfd : fd < nofile) (hfree : (k.proc i).ofile fd = none)
      (hfile : file = openFile { k.ftable f with ref := 1 } ip (fs.itable ip).info omode)
      (htrunc : fs' = fs ∨ itrunc io fs ip = .ok fs') :
      OpenDone Λ io k i path omode (fd, { (withFd k i f fd).setFile f file with fs := fs' })

theorem openPath_ok {path : List UInt8} {omode : Nat} (h : openPath Λ io k i path omode = .ok r) :
    OpenDone Λ io k i path omode r := by
  obtain ⟨⟨ip, fs⟩, hip, h⟩ := bind_eq_ok.mp h
  cases ip with
  | none =>
    cases h
    exact .noInode fs hip
  | some ip =>
    dsimp only at h
    split at h
    · obtain ⟨fs', hput, h⟩ := bind_eq_ok.mp h
      cases h
      exact .noFile ip fs fs' hip hput
    · split at h
      · obtain ⟨fs', hput, h⟩ := bind_eq_ok.mp h
        cases h
        exact .noFile ip fs fs' hip hput
      · rename_i f k1 hal
        obtain ⟨hf, href, rfl⟩ := filealloc_some hal
        split at h
        · obtain ⟨k', hclose, h⟩ := bind_eq_ok.mp h
          obtain ⟨fs', hput, h⟩ := bind_eq_ok.mp h
          cases h
          exact .noFd ip f fs fs' k' hip hf href hclose hput
        · rename_i fd k2 hfal
          obtain ⟨hfd, hfree, rfl⟩ := fdalloc_some hfal
          obtain ⟨fs', htr, h⟩ := bind_eq_ok.mp h
          cases h
          refine .done ip f fd fs fs' _ hip hf href hfd hfree ?_ ?_
          · simp [setFd, setProc, setFile]
          · split at htr
            · exact Or.inr htr
            · cases htr
              exact Or.inl rfl

/-- What `pipealloc` comes to: too few files and all closed again, or two files for a new pipe. -/
inductive PipeAllocDone (Λ : Layout) (io : Bool) (k : Kernel) : Option (Nat × Nat) × Kernel → Prop where
  | noFile : PipeAllocDone Λ io k (none, k)
  | oneFile (f : Nat) (k' : Kernel) (hf : f < nfile) (href : (k.ftable f).ref = 0)
      (hclose : fileclose Λ io (k.setFile f { k.ftable f with ref := 1 }) f = .ok k') : PipeAllocDone Λ io k (none, k')
  | noPage (f g : Nat) (k₁ k₂ k' : Kernel) (hf : f < nfile) (hfr : (k.ftable f).ref = 0) (hg : g < nfile) (hne : g ≠ f)
      (hgr : (k.ftable g).ref = 0)
      (hk : k₁ = (k.setFile f { k.ftable f with ref := 1 }).setFile g { k.ftable g with ref := 1 })
      (hzero : (kalloc Λ k.mem).1 = 0) (hf' : fileclose Λ io { k₁ with mem := (kalloc Λ k.mem).2 } f = .ok k₂)
      (hg' : fileclose Λ io k₂ g = .ok k') : PipeAllocDone Λ io k (none, k')
  | done (f g pg : Nat) (k' : Kernel) (hf : f < nfile) (hfr : (k.ftable f).ref = 0) (hg : g < nfile) (hne : g ≠ f)
      (hgr : (k.ftable g).ref = 0) (hk : FileOnly k k') (hfs : k'.fs = k.fs)
      (hfile : ∀ x, x ≠ f → x ≠ g → k'.ftable x = k.ftable x)
      (hrf : k'.ftable f = { k.ftable f with ref := 1, type := .pipe, readable := true, writable := false, pipe := pg })
      (hwf : k'.ftable g = { k.ftable g with ref := 1, type := .pipe, readable := false, writable := true, pipe := pg }) :
      PipeAllocDone Λ io k (some (f, g), k')

theorem pipealloc_ok {r : Option (Nat × Nat) × Kernel} (h : pipealloc Λ io k = .ok r) : PipeAllocDone Λ io k r := by
  unfold pipealloc at h
  split at h
  · cases h
    exact .noFile
  rename_i f k1 h0
  obtain ⟨hf, hfr, rfl⟩ := filealloc_some h0
  split at h
  · obtain ⟨k', hc, h⟩ := bind_eq_ok.mp h
    cases h
    exact .oneFile f k' hf hfr hc
  rename_i g k2 h1
  obtain ⟨hg, hgr, rfl⟩ := filealloc_some h1
  have hne : g ≠ f := by
    rintro rfl
    simp [setFile] at hgr
  have hgf : (k.setFile f { k.ftable f with ref := 1 }).ftable g = k.ftable g := by simp [setFile, hne]
  rw [hgf] at hgr
  dsimp only at h
  split at h
  · rename_i hz
    obtain ⟨k3, hc, h⟩ := bind_eq_ok.mp h
    obtain ⟨k4, hc', h⟩ := bind_eq_ok.mp h
    cases h
    rw [hgf] at hc
    exact .noPage f g _ k3 k4 hf hfr hg hne hgr rfl hz hc hc'
  · split at h
    · cases h
    cases h
    refine .done f g ((kalloc Λ k.mem).1 / pgSize) _ hf hfr hg hne hgr ⟨rfl, rfl, rfl⟩ rfl (fun x hxf hxg => ?_) ?_ ?_
    · simp [setFile, hxf, hxg]
    · simp [setFile, hne.symm]
    · simp [setFile, hne]

theorem pipealloc_fileOnly {r : Option (Nat × Nat) × Kernel} (h : pipealloc Λ io k = .ok r) : FileOnly k r.2 := by
  cases pipealloc_ok h with
  | noFile => exact FileOnly.refl k
  | oneFile f k' _ _ hclose =>
    obtain ⟨h1, h2, h3⟩ := fileclose_fileOnly hclose
    exact ⟨h1, h2, h3⟩
  | noPage f g k1 k2 k' _ _ _ _ _ hk _ hf hg =>
    subst hk
    obtain ⟨h1, h2, h3⟩ := fileclose_fileOnly hf
    obtain ⟨h4, h5, h6⟩ := fileclose_fileOnly hg
    exact ⟨h4.trans h1, h5.trans h2, h6.trans h3⟩
  | done f g pg k' _ _ _ _ _ hk => exact hk

/-- What `sys_pipe` comes to. -/
inductive PipeDone (Λ : Layout) (io : Bool) (k : Kernel) (i : Nat) : Nat × Kernel → Prop where
  | failed (k' : Kernel) (hal : PipeAllocDone Λ io k (none, k')) : PipeDone Λ io k i (minusOne, k')
  | undone (f g : Nat) (k₁ k₂ k₃ k' : Kernel) (hal : PipeAllocDone Λ io k (some (f, g), k₁))
      (hsame : k₂.ftable = k₁.ftable ∧ k₂.fs = k₁.fs ∧ k₂.vmas = k₁.vmas ∧ k₂.proc = k₁.proc)
      (hf : fileclose Λ io k₂ f = .ok k₃) (hg : fileclose Λ io k₃ g = .ok k') : PipeDone Λ io k i (minusOne, k')
  | done (f g fd₀ fd₁ : Nat) (k₁ : Kernel) (ram : Nat → Nat → UInt8) (hal : PipeAllocDone Λ io k (some (f, g), k₁))
      (h₀ : fd₀ < nofile) (h₁ : fd₁ < nofile) (hfree₀ : (k.proc i).ofile fd₀ = none) (hfree₁ : (k.proc i).ofile fd₁ = none)
      (hne : fd₁ ≠ fd₀) :
      PipeDone Λ io k i (0,
        { (k₁.setFd i fd₀ (some f)).setFd i fd₁ (some g) with mem := { k₁.mem with ram := ram } })

theorem closeBoth_ok {f g : Nat} (h : closeBoth Λ io k f g = .ok r) :
    ∃ k1, fileclose Λ io k f = .ok k1 ∧ fileclose Λ io k1 g = .ok r.2 ∧ r.1 = minusOne := by
  obtain ⟨k1, h1, h⟩ := bind_eq_ok.mp h
  obtain ⟨k2, h2, h⟩ := bind_eq_ok.mp h
  cases h
  exact ⟨k1, h1, h2, rfl⟩

theorem setFd_undo (k : Kernel) (i fd : Nat) (f : Option Nat) (h : (k.proc i).ofile fd = none) :
    ((k.setFd i fd f).setFd i fd none).proc = k.proc := by
  have e : update (k.proc i).ofile fd none = (k.proc i).ofile := by
    rw [← h]
    exact update_eq_self _ _
  simp [setFd, setProc, e, update_eq_self]

theorem sysPipe_ok {fdarray : Nat} (h : sysPipe Λ io k i fdarray = .ok r) : PipeDone Λ io k i r := by
  obtain ⟨⟨files, k1⟩, hal, h⟩ := bind_eq_ok.mp h
  have hdone := pipealloc_ok hal
  have hproc : k1.proc = k.proc := (pipealloc_fileOnly hal).proc
  cases files with
  | none =>
    cases h
    exact .failed k1 hdone
  | some fg =>
    obtain ⟨f, g⟩ := fg
    dsimp only at h
    split at h
    · obtain ⟨k3, h1, h2, h3⟩ := closeBoth_ok h
      obtain ⟨a, k'⟩ := r
      cases h3
      exact .undone f g k1 k1 k3 k' hdone ⟨rfl, rfl, rfl, rfl⟩ h1 h2
    · rename_i fd0 k2 hfd
      obtain ⟨hlt0, hfree0, rfl⟩ := fdalloc_some hfd
      split at h
      · obtain ⟨k3, h1, h2, h3⟩ := closeBoth_ok h
        obtain ⟨a, k'⟩ := r
        cases h3
        refine .undone f g k1 ((k1.setFd i fd0 (some f)).setFd i fd0 none) k3 k' hdone ⟨rfl, rfl, rfl, ?_⟩ h1 h2
        exact setFd_undo k1 i fd0 _ hfree0
      · rename_i fd1 k3 hfd'
        obtain ⟨hlt1, hfree1, rfl⟩ := fdalloc_some hfd'
        have hne : fd1 ≠ fd0 := by
          rintro rfl
          simp [setFd, setProc] at hfree1
        have hfree1' : (k1.proc i).ofile fd1 = none := by
          simpa [setFd, setProc, hne] using hfree1
        split at h
        · cases h
        rename_i pt hpt
        generalize copyFds pt _ fdarray fd0 fd1 = c at h
        obtain ⟨ok, ram⟩ := c
        cases ok with
        | true =>
          cases h
          exact .done f g fd0 fd1 k1 _ hdone hlt0 hlt1 (by rw [← hproc]; exact hfree0) (by rw [← hproc]; exact hfree1') hne
        | false =>
          obtain ⟨k4, h1, h2, h3⟩ := closeBoth_ok h
          obtain ⟨a, k'⟩ := r
          cases h3
          refine .undone f g k1 _ k4 k' hdone ⟨?_, ?_, ?_, ?_⟩ h1 h2
          · rfl
          · rfl
          · rfl
          have e0 : update (k1.proc i).ofile fd0 none = (k1.proc i).ofile := by
            rw [← hfree0]
            exact update_eq_self _ _
          have e1 : update (k1.proc i).ofile fd1 none = (k1.proc i).ofile := by
            rw [← hfree1']
            exact update_eq_self _ _
          simp [setFd, setProc, update_comm hne, e0, e1, update_eq_self]

/-- The arguments that `sys_mmap` hands on to `mmap`. -/
structure MmapArgs (prot flag fd : Nat) : Prop where
  prot : prot = protRead ∨ prot = protWrite ∨ prot = protReadWrite
  flag : flag = mapPrivate ∨ flag = mapShared
  fd : fd < nofile

/-- `sys_mmap` is `mmap` on checked arguments, or nothing. -/
theorem sysMmap_args {prot flag fd : Nat} (h : sysMmap k i length prot flag fd = .ok r) :
    r = (minusOne, k) ∨ MmapArgs prot flag fd ∧ mmap k i length prot flag fd = .ok r := by
  unfold sysMmap at h
  split at h
  · cases h
    exact Or.inl rfl
  split at h
  · cases h
    exact Or.inl rfl
  split at h
  · cases h
    exact Or.inl rfl
  exact Or.inr ⟨⟨by tauto, by tauto, by omega⟩, h⟩

theorem sysMmap_ok {prot flag fd : Nat} (h : sysMmap k i length prot flag fd = .ok r) :
    r = (minusOne, k) ∨ mmap k i length prot flag fd = .ok r :=
  (sysMmap_args h).imp_right fun hm => hm.2

theorem sysMunmap_ok {addr : Nat} (h : sysMunmap Λ io k i addr length = .ok r) :
    ∃ ok, munmap Λ io k i addr length = .ok (ok, r.2) ∧ r.1 = if ok then 0 else minusOne := by
  obtain ⟨⟨ok, k'⟩, hm, h⟩ := bind_eq_ok.mp h
  cases h
  exact ⟨ok, hm, rfl⟩

end Descriptors

/-! ## `exit`, page faults and `fork` -/

section Exit

variable {Λ : Layout} {io : Bool} {k k' : Kernel} {i : Nat}

/-- The rule of the loop of `exit` over the descriptors: `I fd` holds once those below `fd` are closed. -/
theorem closeFiles_ends {I : Nat → Kernel → Prop} {E : Panic → Prop}
    (hnone : ∀ fd k, I fd k → fd < nofile → (k.proc i).ofile fd = none → I (fd + 1) k)
    (hstep : ∀ fd k f, I fd k → fd < nofile → (k.proc i).ofile fd = some f →
      Ends (fileclose Λ io k f) (fun k' => I (fd + 1) (k'.setFd i fd none)) E)
    (n fd : Nat) (hfd : fd + n ≤ nofile) (h0 : I fd k) : Ends (closeFiles Λ io i n fd k) (I (fd + n)) E := by
  induction n generalizing fd k with
  | zero => exact ends_pure h0
  | succ n ih =>
    rw [show fd + (n + 1) = fd + 1 + n by omega]
    unfold closeFiles
    cases hf : (k.proc i).ofile fd with
    | none => exact ih (fd + 1) (by omega) (hnone fd k h0 (by omega) hf)
    | some f =>
      refine ends_bind (hstep fd k f h0 (by omega) hf) fun k1 h1 => ?_
      exact ih (fd + 1) (by omega) h1

theorem closeFiles_sameLists (h : closeFiles Λ io i nofile 0 k = .ok k') : SameLists k k' := by
  refine (closeFiles_ends (I := fun _ k1 => SameLists k k1) (E := anyAbort) (fun _ _ hs _ _ => hs) ?_ nofile 0 (by omega)
    (SameLists.refl k)).of_ok h
  intro fd k1 f hs _ _
  refine ends_of_forall_ok fun k2 hc => ?_
  exact (hs.trans (fileclose_fileOnly hc).sameLists).trans (sameLists_setFd k2 i fd none)

theorem exitBegin_ok {status : Int} (h : exitBegin Λ io k i status = .ok k') :
    i ≠ initproc ∧ ∃ k1, closeFiles Λ io i nofile 0 k = .ok k1 ∧ k' = k1.setProc i { k1.proc i with exiting := some status } := by
  unfold exitBegin at h
  split at h
  · cases h
  · rename_i hi
    obtain ⟨k1, hc, h⟩ := bind_eq_ok.mp h
    cases h
    exact ⟨hi, k1, hc, rfl⟩

theorem exitBegin_sameLists {status : Int} (h : exitBegin Λ io k i status = .ok k') : SameLists k k' := by
  obtain ⟨-, k1, hc, rfl⟩ := exitBegin_ok h
  exact (closeFiles_sameLists hc).trans (sameLists_setProc k1 i _ rfl rfl)

theorem killExit_sameLists (h : killExit Λ io k i = .ok k') : SameLists k k' :=
  (sameLists_setProc k i { k.proc i with killed := true } rfl rfl).trans (exitBegin_sameLists h)

theorem exitUnmap_ok (h : exitUnmap Λ io k i = .ok k') : ∃ a ok, (k.proc i).vmas = some a ∧
      munmap Λ io k i (k.vmas a).addri (((k.vmas a).addre + 2 ^ 64 - (k.vmas a).addri) % 2 ^ 64) = .ok (ok, k') := by
  unfold exitUnmap at h
  cases hv : (k.proc i).vmas with
  | none =>
    rw [hv] at h
    cases h
  | some a =>
    rw [hv] at h
    obtain ⟨⟨ok, k1⟩, hm, h⟩ := bind_eq_ok.mp h
    cases h
    exact ⟨a, ok, rfl, hm⟩

/-- What the page-fault branch comes to: an exit, or a page of a VMA mapped and read. The failure of `mappages` needs a `kalloc` that
returns `0`. -/
inductive FaultDone (Λ : Layout) (io : Bool) (k : Kernel) (i va : Nat) (k' : Kernel) : Prop where
  | outside (hfind : (k.proc i).nvma = 0 ∨ faultFind k.vmas va (k.proc i).nvma (k.proc i).vmas = .ok none)
      (hk : killExit Λ io k i = .ok k')
  | unmapped (a paddr : Nat) (pt pt' : PageTable) (m₁ m₂ m₃ m₄ : Mem) (b : Bool)
      (hfind : faultFind k.vmas va (k.proc i).nvma (k.proc i).vmas = .ok (some a))
      (hpt : (k.proc i).pagetable = some pt) (halloc : kalloc Λ k.mem = (paddr, m₁)) (hset : memset m₁ paddr 0 = .ok m₂)
      (hmap : mappages Λ pt m₂ va pgSize paddr ((k.vmas a).prot ||| pteU) = .ok (false, pt', m₃))
      (hfree : kfree Λ m₃ paddr = .ok m₄)
      (hk : killExit Λ io (k.upd i { k.proc i with killed := b, pagetable := some pt' } m₄ k.fs) i = .ok k')
  | mapped (a paddr : Nat) (pt pt' : PageTable) (m₁ m₂ m₃ m₄ : Mem) (fs : Fs) (b : Bool) (k₁ : Kernel)
      (hcount : (k.proc i).nvma ≠ 0)
      (hfind : faultFind k.vmas va (k.proc i).nvma (k.proc i).vmas = .ok (some a))
      (hpt : (k.proc i).pagetable = some pt) (halloc : kalloc Λ k.mem = (paddr, m₁)) (hset : memset m₁ paddr 0 = .ok m₂)
      (hmap : mappages Λ pt m₂ va pgSize paddr ((k.vmas a).prot ||| pteU) = .ok (true, pt', m₃))
      (hread : readPage k (k.vmas a) pt' m₃ va = .ok (m₄, fs)) (hb : b = ((k.proc i).killed || paddr == 0))
      (hk₁ : k₁ = k.upd i { k.proc i with killed := b, pagetable := some pt' } m₄ fs)
      (hk : if b then exitBegin Λ io k₁ i (-1) = .ok k' else k' = k₁)

theorem pageFault_ok {va : Nat} (h : pageFault Λ io k i va = .ok k') : FaultDone Λ io k i va k' := by
  unfold pageFault at h
  dsimp only at h
  split at h
  · rename_i hz
    exact .outside (Or.inl hz) h
  rename_i hz
  obtain ⟨found, hfind, h⟩ := bind_eq_ok.mp h
  cases found with
  | none => exact .outside (Or.inr hfind) h
  | some a =>
    dsimp only at h
    split at h
    · cases h
    rename_i pt hpt
    cases halloc : kalloc Λ k.mem with
    | mk paddr m1 =>
      rw [halloc] at h
      obtain ⟨m2, hset, h⟩ := bind_eq_ok.mp h
      obtain ⟨⟨ok, pt', m3⟩, hmap, h⟩ := bind_eq_ok.mp h
      cases ok with
      | false =>
        obtain ⟨m4, hfree, h⟩ := bind_eq_ok.mp h
        exact .unmapped a paddr pt pt' m1 m2 m3 m4 _ hfind hpt halloc hset hmap hfree h
      | true =>
        obtain ⟨⟨m4, fs⟩, hread, h⟩ := bind_eq_ok.mp h
        refine .mapped a paddr pt pt' m1 m2 m3 m4 fs _ _ hz hfind hpt halloc hset hmap hread rfl rfl ?_
        split at h
        · rename_i hkill
          rw [if_pos hkill]
          exact h
        · rename_i hkill
          rw [if_neg hkill]
          cases h
          rfl

theorem pageFault_sameLists {va : Nat} (h : pageFault Λ io k i va = .ok k') : SameLists k k' := by
  cases pageFault_ok h with
  | outside _ hk => exact killExit_sameLists hk
  | unmapped _ _ _ pt' _ _ _ m4 b _ _ _ _ _ _ hk =>
    exact (sameLists_upd k i { k.proc i with killed := b, pagetable := some pt' } m4 k.fs rfl rfl).trans
      (killExit_sameLists hk)
  | mapped _ _ _ pt' _ _ _ m4 fs b k1 _ _ _ _ _ _ _ _ hk1 hk =>
    have hs : SameLists k k1 := by
      rw [hk1]
      exact sameLists_upd k i _ m4 fs rfl rfl
    split at hk
    · exact hs.trans (exitBegin_sameLists hk)
    · rw [hk]
      exact hs

/-- What `fork` comes to: no process, a failed copy of the memory, no room for the VMAs, or a child. -/
inductive ForkDone (Λ : Layout) (k : Kernel) (i : Nat) : Option Nat × Kernel → Prop where
  | noProc (k₁ : Kernel) (hal : AllocDone Λ k (none, k₁)) : ForkDone Λ k i (none, k₁)
  | noMem (np : Nat) (pt npt npt' : PageTable) (m m' : Mem) (k₁ : Kernel) (c : Proc)
      (hal : AllocDone Λ k (some np, k₁)) (hpt : (k₁.proc i).pagetable = some pt)
      (hnpt : (k₁.proc np).pagetable = some npt)
      (hcopy : uvmcopy Λ pt npt k₁.mem (k₁.proc i).sz = .ok (false, npt', m))
      (hfree : freeproc Λ { k₁.proc np with pagetable := some npt' } m = .ok (c, m')) :
      ForkDone Λ k i (none, k₁.upd np c m' k₁.fs)
  | copied (np : Nat) (pt npt npt' : PageTable) (m : Mem) (fs : Fs) (ofile : Nat → Option Nat) (k₁ k₂ k₃ k₄ k₅ : Kernel)
      (b : Bool) (r : Option Nat × Kernel)
      (hal : AllocDone Λ k (some np, k₁)) (hpt : (k₁.proc i).pagetable = some pt)
      (hnpt : (k₁.proc np).pagetable = some npt)
      (hcopy : uvmcopy Λ pt npt k₁.mem (k₁.proc i).sz = .ok (true, npt', m))
      (hk₂ : k₂ = k₁.upd np { k₁.proc np with pagetable := some npt', sz := (k₁.proc i).sz } m k₁.fs)
      (hdup : dupFiles (k₁.proc i).ofile nofile 0 k₂ (k₂.proc np).ofile = .ok (k₃, ofile))
      (hcwd : idup k₃.fs (k₁.proc i).cwd = .ok fs)
      (hk₄ : k₄ = k₃.upd np
        { k₃.proc np with ofile := ofile, cwd := (k₁.proc i).cwd, nvma := (k₁.proc i).nvma } k₃.mem fs)
      (hvmas : forkVmas np (k₁.proc i).nvma k₄ (k₁.proc i).vmas 0 none = .ok (b, k₅))
      (hr : r = if b then
          (some (k₅.proc np).pid, k₅.setProc np { k₅.proc np with parent := some i, state := .runnable })
        else (none, k₅)) : ForkDone Λ k i r

theorem fork_ok {r : Option Nat × Kernel} (h : fork Λ k i = .ok r) : ForkDone Λ k i r := by
  obtain ⟨⟨np, k1⟩, hal, h⟩ := bind_eq_ok.mp h
  have hdone := allocproc_ok hal
  dsimp only at h
  split at h
  · cases h
    exact .noProc k1 hdone
  · cases h
  · rename_i np pt hpt
    split at h
    · cases h
    rename_i npt hnpt
    obtain ⟨⟨ok, npt', m⟩, hcopy, h⟩ := bind_eq_ok.mp h
    cases ok with
    | false =>
      obtain ⟨⟨c, m'⟩, hfree, h⟩ := bind_eq_ok.mp h
      cases h
      exact .noMem np pt npt npt' m m' k1 c hdone hpt hnpt hcopy hfree
    | true =>
      obtain ⟨⟨k3, ofile⟩, hdup, h⟩ := bind_eq_ok.mp h
      obtain ⟨fs, hcwd, h⟩ := bind_eq_ok.mp h
      obtain ⟨⟨b, k5⟩, hvmas, h⟩ := bind_eq_ok.mp h
      refine .copied np pt npt npt' m fs ofile k1 _ k3 _ k5 b r hdone hpt hnpt hcopy rfl hdup hcwd rfl hvmas ?_
      cases b <;> cases h <;> rfl

end Exit

end Xv6Mmap

import Xv6Mmap.Lemmas.Fork
import Xv6Mmap.Lemmas.Aborts

/-!
# References to files

The descriptors of all processes and the VMAs in use are two tables of pointers to files; a count is exact when it is the number of
entries that point to the file (`RefsExact`). Each call changes one entry and one count, or none. `Counted` carries this through runs,
together with the VMA lists, through which `munmap` finds its VMA, and that a process that is gone has no descriptor left.
-/

namespace Xv6Mmap

open Function Kernel

/-! ## The two tables -/

/-- The file a slot of the VMA table holds a reference to. -/
def Vma.file (v : Vma) : Option Nat := if v.use then v.ofile else none

/-- The descriptors, over the whole process table, that refer to a file. -/
def fdRefs (k : Kernel) (f : Nat) : Nat := refsTo (grid nproc nofile) (fun x => (k.proc x.1).ofile x.2) f

/-- The slots of the VMA table in use that refer to a file. -/
def vmaRefs (k : Kernel) (f : Nat) : Nat := refsTo (Finset.range vmasStored) (fun c => (k.vmas c).file) f

/-- Every count is the number of references. -/
def RefsExact (k : Kernel) : Prop := ∀ f, (k.ftable f).ref = fdRefs k f + vmaRefs k f

section Tables

variable {k k' : Kernel}

theorem RefsExact.of_same (h : RefsExact k) (hof : ∀ j, (k'.proc j).ofile = (k.proc j).ofile)
    (hv : ∀ c, (k'.vmas c).file = (k.vmas c).file) (href : ∀ f, (k'.ftable f).ref = (k.ftable f).ref) : RefsExact k' := by
  intro f
  have h1 : fdRefs k' f = fdRefs k f := refsTo_congr fun x _ => by rw [hof]
  have h2 : vmaRefs k' f = vmaRefs k f := refsTo_congr fun c _ => hv c
  rw [href, h1, h2]
  exact h f

theorem RefsExact.fdSlot {i fd : Nat} (h : RefsExact k) (hi : i < nproc) (hfd : fd < nofile)
    (hof : ∀ j d, (j, d) ≠ (i, fd) → (k'.proc j).ofile d = (k.proc j).ofile d) (hv : ∀ c, (k'.vmas c).file = (k.vmas c).file)
    (href : ∀ f, (k'.ftable f).ref + (if (k.proc i).ofile fd = some f then 1 else 0) =
      (k.ftable f).ref + if (k'.proc i).ofile fd = some f then 1 else 0) : RefsExact k' := by
  intro f
  have h1 : fdRefs k' f + (if (k.proc i).ofile fd = some f then 1 else 0) =
      fdRefs k f + if (k'.proc i).ofile fd = some f then 1 else 0 :=
    refsTo_agree (mem_grid hi hfd) fun x _ hx => hof x.1 x.2 hx
  have h2 : vmaRefs k' f = vmaRefs k f := refsTo_congr fun c _ => hv c
  have h3 := href f
  have h4 := h f
  split_ifs at h1 h3 <;> omega

theorem RefsExact.vmaSlot {c : Nat} (h : RefsExact k) (hc : c < vmasStored)
    (hof : ∀ j, (k'.proc j).ofile = (k.proc j).ofile) (hv : ∀ d, d ≠ c → (k'.vmas d).file = (k.vmas d).file)
    (href : ∀ f, (k'.ftable f).ref + (if (k.vmas c).file = some f then 1 else 0) =
      (k.ftable f).ref + if (k'.vmas c).file = some f then 1 else 0) : RefsExact k' := by
  intro f
  have h1 : vmaRefs k' f + (if (k.vmas c).file = some f then 1 else 0) =
      vmaRefs k f + if (k'.vmas c).file = some f then 1 else 0 :=
    refsTo_agree (Finset.mem_range.mpr hc) fun d _ hd => hv d hd
  have h2 : fdRefs k' f = fdRefs k f := refsTo_congr fun x _ => by rw [hof]
  have h3 := href f
  have h4 := h f
  split_ifs at h1 h3 <;> omega

theorem RefsExact.fd_pos {i fd f : Nat} (h : RefsExact k) (hi : i < nproc) (hfd : fd < nofile)
    (hf : (k.proc i).ofile fd = some f) : 1 ≤ (k.ftable f).ref := by
  have : 0 < fdRefs k f := refsTo_pos (mem_grid hi hfd) hf
  rw [h f]
  omega

/-- A file with no reference is behind no descriptor and no VMA in use. -/
theorem RefsExact.unreferenced {f : Nat} (h : RefsExact k) (hf : (k.ftable f).ref = 0) :
    (∀ i < nproc, ∀ fd < nofile, (k.proc i).ofile fd ≠ some f) ∧
      ∀ c < vmasStored, (k.vmas c).use = true → (k.vmas c).ofile ≠ some f := by
  have h0 := h f
  refine ⟨fun i hi fd hfd hof => ?_, fun c hc hu hof => ?_⟩
  · have := h.fd_pos hi hfd hof
    omega
  · have : 0 < vmaRefs k f := refsTo_pos (Finset.mem_range.mpr hc) (by rw [Vma.file, if_pos hu, hof])
    omega

end Tables

/-! ## The invariant -/

/-- A process that is gone, or on its way out, holds no descriptor; one that is gone has no VMA and no directory. -/
structure ProcOk (p : Proc) : Prop where
  closed : p.state = .unused ∨ p.state = .zombie ∨ p.exiting.isSome = true → ∀ fd < nofile, p.ofile fd = none
  gone : p.state = .unused ∨ p.state = .zombie → p.nvma = 0 ∧ p.cwd = none ∧ p.exiting = none

/-- The counts of files are exact, the VMA lists are in order and processes that are gone hold nothing. -/
structure Counted (k : Kernel) (L : Nat → List Nat) : Prop where
  lists : VmaLists k L
  idle : ∀ i, ProcOk (k.proc i)
  refs : RefsExact k

/-- Nothing that `Counted` looks at changed, apart from the states of processes. -/
structure SameFiles (k k' : Kernel) : Prop extends SameLists k k' where
  ofile : ∀ j, (k'.proc j).ofile = (k.proc j).ofile
  ref : ∀ f, (k'.ftable f).ref = (k.ftable f).ref

section Invariant

variable {k k' : Kernel} {L : Nat → List Nat} {i : Nat} {p : Proc} {m : Mem} {fs : Fs}

/-- A process that lives and is not in `exit`. -/
structure Proc.Running (p : Proc) : Prop where
  state : p.state ≠ .unused ∧ p.state ≠ .zombie
  exiting : p.exiting = none

theorem Proc.Running.procOk (h : p.Running) : ProcOk p := by
  refine ⟨?_, ?_⟩
  · rintro (e | e | e)
    · exact absurd e h.state.1
    · exact absurd e h.state.2
    · rw [h.exiting] at e
      cases e
  · rintro (e | e)
    · exact absurd e h.state.1
    · exact absurd e h.state.2

theorem Proc.Running.congr {p' : Proc} (h : p.Running) (hs : p'.state = p.state) (he : p'.exiting = p.exiting) :
    p'.Running := ⟨by rw [hs]; exact h.state, by rw [he]; exact h.exiting⟩

theorem Proc.Running.procOk_of {p' : Proc} (h : p.Running) (hs : p'.state = p.state) (he : p'.exiting = p.exiting) :
    ProcOk p' := (h.congr hs he).procOk

theorem inUser_running {pt : PageTable} (h : inUser p = some pt) : p.Running := by
  obtain ⟨hs, he, -⟩ := inUser_some h
  exact ⟨by rw [hs]; exact ⟨by decide, by decide⟩, he⟩

theorem Counted.of_same (h : Counted k L) (hs : SameFiles k k') (hidle : ∀ j, ProcOk (k'.proc j)) : Counted k' L :=
  ⟨h.lists.of_shape hs.toSameLists.toShape, hidle, h.refs.of_same hs.ofile (fun c => by rw [hs.vmas]) hs.ref⟩

theorem idle_update (h : ∀ j, ProcOk (k.proc j)) (hp : ProcOk p) (j : Nat) : ProcOk (update k.proc i p j) :=
  (forall_update_iff k.proc fun _ p => ProcOk p).mpr ⟨hp, fun j _ => h j⟩ j

theorem sameFiles_upd (hv : p.vmas = (k.proc i).vmas) (hn : p.nvma = (k.proc i).nvma) (ho : p.ofile = (k.proc i).ofile) :
    SameFiles k (k.upd i p m fs) :=
  { sameLists_upd k i p m fs hv hn with ofile := upd_field k i p m fs Proc.ofile ho, ref := fun _ => rfl }

theorem Counted.upd (h : Counted k L) (hp : ProcOk p) (hv : p.vmas = (k.proc i).vmas) (hn : p.nvma = (k.proc i).nvma)
    (ho : p.ofile = (k.proc i).ofile) : Counted (k.upd i p m fs) L :=
  h.of_same (sameFiles_upd hv hn ho) (idle_update h.idle hp)

theorem Counted.mem_fs (h : Counted k L) (m : Mem) (fs : Fs) : Counted { k with mem := m, fs := fs } L :=
  h.of_same ⟨⟨rfl, fun _ => rfl, fun _ => rfl⟩, fun _ => rfl, fun _ => rfl⟩ h.idle

end Invariant

/-! ## Mappings -/

section Mappings

variable {Λ : Layout} {io : Bool} {k k' : Kernel} {L : Nat → List Nat} {i : Nat}

theorem linkVma_file (V : Nat → Vma) {n d : Nat} (prev : Option Nat) (v : Vma) (hd : d ≠ n) :
    (linkVma V n prev v d).file = (V d).file := by
  obtain ⟨n', h⟩ := linkVma_old V prev v hd
  rw [h]
  rfl

/-- A process that lives keeps what is asked of it when its descriptors and its place in `exit` stay. -/
theorem ProcOk.live {p p' : Proc} (h : ProcOk p) (hlive : p.state ≠ .unused ∧ p.state ≠ .zombie) (hs : p'.state = p.state)
    (he : p'.exiting = p.exiting) (ho : p'.ofile = p.ofile) : ProcOk p' := by
  refine ⟨?_, ?_⟩
  · rw [hs, he, ho]
    exact h.closed
  · rw [hs]
    rintro (e | e)
    · exact absurd e hlive.1
    · exact absurd e hlive.2

/-- `mmap` fills one slot and counts one reference. -/
theorem Counted.mmap {length prot flag fd : Nat} {r : Nat × Kernel} (h : Counted k L) (hrun : (k.proc i).Running)
    (hm : mmap k i length prot flag fd = .ok r) : ∃ L', Counted r.2 L' := by
  cases mmap_ok hm with
  | failed => exact ⟨L, h⟩
  | stuck => exact ⟨L, h.upd (p := { k.proc i with lock := true }) (hrun.procOk_of rfl rfl) rfl rfl rfl⟩
  | mapped f n prev next hf hcount hspot hfree =>
    obtain ⟨L', hL', -⟩ : ∃ L', VmaLists (allocated k i length prot flag f n prev next) L' ∧ _ :=
      h.lists.allocated hspot hfree hcount
    obtain ⟨hn, hu⟩ := findVma_some hfree
    refine ⟨L', hL', idle_update h.idle (hrun.procOk_of rfl rfl), ?_⟩
    refine h.refs.vmaSlot (c := n) hn (update_field Proc.ofile rfl) (fun d hd => linkVma_file k.vmas prev _ hd) fun x => ?_
    simp only [allocated, linkVma_self, Vma.file, hu, Bool.false_eq_true, if_false, if_true, reduceCtorEq,
      Option.some.injEq, add_zero, eq_comm (a := f)]
    exact ref_update k.ftable rfl x

/-- The end of `munmap` frees one slot and drops one reference, or keeps both. -/
theorem Counted.resized {addr length a : Nat} {prev : Option Nat} {l1 l2 : List Nat} (h : Counted k L)
    (hlive : (k.proc i).state ≠ .unused ∧ (k.proc i).state ≠ .zombie) (hL : L i = l1 ++ a :: l2) (hprev : prev = prevOf l1)
    (hres : Resized k i a prev addr length k') : ∃ L', Counted k' L' := by
  have hrange : ∀ v : Vma, v.use = (k.vmas a).use → v.next = (k.vmas a).next → v.ofile = (k.vmas a).ofile →
      Counted { k with vmas := update k.vmas a v } L := by
    intro v hu hn ho
    refine ⟨h.lists.of_shape (sameShape_range k a hu hn), h.idle,
      h.refs.of_same (fun _ => rfl) (update_field Vma.file ?_) fun _ => rfl⟩
    simp [Vma.file, hu, ho]
  cases hres with
  | front _ _ hk | back _ _ hk =>
    subst hk
    exact ⟨L, hrange _ rfl rfl rfl⟩
  | freed _ hk =>
    have hlists := h.lists.freed hL hprev hk
    obtain ⟨ha, hu⟩ := h.lists.used i a (by simp [hL])
    obtain ⟨f, V, hf, -, hold, rfl⟩ := freeVma_ok hk
    refine ⟨_, hlists, idle_update h.idle ((h.idle i).live hlive rfl rfl rfl), ?_⟩
    refine h.refs.vmaSlot (c := a) ha (update_field Proc.ofile rfl) (fun d hd => ?_) fun x => ?_
    · obtain ⟨n, e⟩ := hold d
      simp only [update_of_ne hd, e]
      rfl
    · simp only [update_self, Vma.file, hu, if_true, hf, Vma.clear, Bool.false_eq_true, if_false,
        reduceCtorEq, Option.some.injEq, add_zero, eq_comm (a := f)]
      rw [dropFile_ref k.ftable rfl, sub_add_cancel]

theorem Counted.munmap {addr length : Nat} {r : Bool × Kernel} (h : Counted k L)
    (hlive : (k.proc i).state ≠ .unused ∧ (k.proc i).state ≠ .zombie) (hm : munmap Λ io k i addr length = .ok r) :
    ∃ L', Counted r.2 L' := by
  have hpages : ∀ pt m fs, Counted (afterPages k i pt m fs) L := fun pt m fs =>
    h.upd (p := { k.proc i with pagetable := some pt }) ((h.idle i).live hlive rfl rfl rfl) rfl rfl rfl
  cases munmap_ok hm with
  | notFound _ => exact ⟨L, h⟩
  | failed prev a pt pt' m fs _ _ _ => exact ⟨L, hpages pt' m fs⟩
  | done prev a pt pt' m fs k' hfind _ _ hres =>
    obtain ⟨l1, l2, hL, hprev, -⟩ := h.lists.munmapFind hfind
    have hlive' : ((afterPages k i pt' m fs).proc i).state ≠ .unused ∧ ((afterPages k i pt' m fs).proc i).state ≠ .zombie := by
      simpa [afterPages, setProc] using hlive
    exact (hpages pt' m fs).resized hlive' hL hprev hres

end Mappings

/-! ## Descriptors -/

section Descriptors

variable {Λ : Layout} {io : Bool} {k k' : Kernel} {L : Nat → List Nat} {i fd f : Nat} {r : Nat × Kernel}

theorem Counted.of_fileOnly (h : Counted k L) (hk : FileOnly k k') (href : ∀ x, (k'.ftable x).ref = (k.ftable x).ref) :
    Counted k' L :=
  h.of_same { hk.sameLists with ofile := fun j => by rw [hk.proc], ref := href } fun j => by rw [hk.proc]; exact h.idle j

theorem fileclose_new_ref {file : File} (href : (k.ftable f).ref = 0) (hfile : file.ref = 1)
    (hc : fileclose Λ io (k.setFile f file) f = .ok k') (x : Nat) : (k'.ftable x).ref = (k.ftable x).ref := by
  rw [fileclose_ref hc]
  exact sub_eq_of_eq_add (newFile_ref k.ftable href hfile x)

theorem PipeAllocDone.ref_none (h : PipeAllocDone Λ io k (none, k')) (x : Nat) : (k'.ftable x).ref = (k.ftable x).ref := by
  cases h with
  | noFile => rfl
  | oneFile f _ _ href hclose => exact fileclose_new_ref href rfl hclose x
  | noPage f g k1 k2 _ _ hfr _ hne hgr hk _ hf' hg' =>
    have hg : (update k.ftable f { k.ftable f with ref := 1 } g).ref = 0 := by rwa [update_of_ne hne]
    rw [fileclose_ref hg', fileclose_ref hf', hk]
    simp only [setFile]
    rw [newFile_ref _ hg rfl, newFile_ref _ hfr rfl]
    omega

section

variable (h : Counted k L) (hi : i < nproc) (hrun : (k.proc i).Running)

include h hi hrun

theorem Counted.setFd {o : Option Nat} (hfd : fd < nofile) (hproc : k'.proc = (k.setFd i fd o).proc) (hv : k'.vmas = k.vmas)
    (href : ∀ x, (k'.ftable x).ref + (if (k.proc i).ofile fd = some x then 1 else 0) =
      (k.ftable x).ref + if o = some x then 1 else 0) : Counted k' L := by
  have hs := sameLists_setFd k i fd o
  have hself : (k'.proc i).ofile fd = o := by
    rw [hproc]
    simp [Kernel.setFd, Kernel.setProc]
  refine ⟨h.lists.of_shape ⟨fun a => by rw [hv], fun a => by rw [hv], fun j => by rw [hproc]; exact hs.head j,
    fun j => by rw [hproc]; exact hs.nvma j⟩, ?_, ?_⟩
  · rw [hproc]
    exact idle_update h.idle (hrun.procOk_of rfl rfl)
  refine h.refs.fdSlot hi hfd (fun j d hjd => ?_) (fun c => by rw [hv]) fun x => by rw [hself]; exact href x
  rw [hproc]
  by_cases hj : j = i
  · subst hj
    have hd : d ≠ fd := fun e => hjd (by rw [e])
    simp [setFd, setProc, hd]
  · simp [Kernel.setFd, Kernel.setProc, hj]

theorem Counted.dropFd (hfd : fd < nofile) (hf : (k.proc i).ofile fd = some f) (hproc : k'.proc = (k.setFd i fd none).proc)
    (hv : k'.vmas = k.vmas) (href : ∀ x, (k'.ftable x).ref = (k.ftable x).ref - if x = f then 1 else 0) : Counted k' L := by
  refine h.setFd hi hrun hfd hproc hv fun x => ?_
  rw [href, hf]
  simp [eq_comm (a := f)]

theorem Counted.addFd (hfd : fd < nofile) (hf : (k.proc i).ofile fd = none) (hproc : k'.proc = (k.setFd i fd (some f)).proc)
    (hv : k'.vmas = k.vmas) (href : ∀ x, (k'.ftable x).ref = (k.ftable x).ref + if x = f then 1 else 0) : Counted k' L := by
  refine h.setFd hi hrun hfd hproc hv fun x => ?_
  rw [href, hf]
  simp [eq_comm (a := f)]

theorem Counted.openPath {path : List UInt8} {omode : Nat} (hr : OpenDone Λ io k i path omode r) : Counted r.2 L := by
  cases hr with
  | noInode fs _ => exact h.mem_fs k.mem fs
  | noFile ip fs fs' _ _ => exact h.mem_fs k.mem fs'
  | noFd ip f fs fs' k' _ _ href hclose _ =>
    have hk := fileclose_fileOnly hclose
    refine h.of_fileOnly ⟨hk.proc, hk.vmas, hk.nextpid⟩ fun x => ?_
    exact fileclose_new_ref (k := { k with fs := fs }) href rfl hclose x
  | done ip f fd fs fs' file _ _ href hfd hfree hfile _ =>
    refine h.addFd (f := f) hi hrun hfd hfree rfl rfl fun x => ?_
    have hone : file.ref = 1 := by
      rw [hfile]
      unfold openFile
      split <;> rfl
    simpa [Kernel.setFile, withFd, Kernel.setFd, Kernel.setProc] using newFile_ref k.ftable href hone x

theorem Counted.dup (hr : DupDone k i r) : Counted r.2 L := by
  cases hr with
  | failed => exact h
  | done fd' fd f _ _ hfd hfree _ =>
    exact h.addFd (f := f) hi hrun hfd hfree rfl rfl (ref_update k.ftable rfl)

theorem Counted.close (hr : CloseDone Λ io k i r) : Counted r.2 L := by
  cases hr with
  | failed => exact h
  | done fd f k' hfd hf hk =>
    have hfo := fileclose_fileOnly hk
    exact h.dropFd hi hrun hfd hf hfo.proc hfo.vmas fun x => (fileclose_ref hk x :)

theorem Counted.pipe (hr : PipeDone Λ io k i r) : Counted r.2 L := by
  cases hr with
  | failed k' hal => exact h.of_fileOnly (pipeAllocDone_fileOnly hal) hal.ref_none
  | undone f g k1 k2 k3 k' hal hsame hf hg =>
    have h1 := pipeAllocDone_fileOnly hal
    have h3 := fileclose_fileOnly hf
    have h4 := fileclose_fileOnly hg
    obtain ⟨hft, -, hv, hp⟩ := hsame
    refine h.of_same ⟨⟨?_, fun j => ?_, fun j => ?_⟩, fun j => ?_, fun x => ?_⟩ fun j => ?_
    · rw [h4.vmas, h3.vmas, hv, h1.vmas]
    · rw [h4.proc, h3.proc, hp, h1.proc]
    · rw [h4.proc, h3.proc, hp, h1.proc]
    · rw [h4.proc, h3.proc, hp, h1.proc]
    · cases hal with
      | done _ _ pg _ _ hfr _ hne hgr _ _ hfile hrf hwf =>
        rw [fileclose_ref hg, fileclose_ref hf, hft]
        by_cases hxg : x = g
        · subst hxg
          simp [hwf, hne, hgr]
        · by_cases hxf : x = f
          · subst hxf
            simp [hrf, hfr, hxg]
          · simp [hfile x hxf hxg, hxf, hxg]
    · rw [h4.proc, h3.proc, hp, h1.proc]
      exact h.idle j
  | done f g fd0 fd1 k1 ram hal h0 h₁ hfree0 hfree1 hne =>
    cases hal with
    | done _ _ pg _ _ hfr _ hgf hgr hk _ hfile hrf hwf =>
      -- the read end first, then the write end
      have hmid : Counted ((k.setFd i fd0 (some f)).setFile f { k.ftable f with ref := 1 }) L :=
        h.addFd hi hrun h0 hfree0 rfl rfl (newFile_ref k.ftable hfr rfl)
      refine hmid.addFd (f := g) hi ?_ h₁ ?_ ?_ ?_ fun x => ?_
      · simp only [Kernel.setFile, Kernel.setFd, Kernel.setProc, update_self]
        exact hrun.congr rfl rfl
      · simpa [Kernel.setFile, Kernel.setFd, Kernel.setProc, hne] using hfree1
      · simp [Kernel.setFile, Kernel.setFd, Kernel.setProc, hk.proc]
      · exact hk.vmas
      · by_cases hxg : x = g
        · subst hxg
          simp [Kernel.setFile, Kernel.setFd, Kernel.setProc, hwf, hgf, hgr]
        · by_cases hxf : x = f
          · subst hxf
            simp [Kernel.setFile, Kernel.setFd, Kernel.setProc, hrf, hxg]
          · simp [Kernel.setFile, Kernel.setFd, Kernel.setProc, hfile x hxf hxg, hxf, hxg]

end

end Descriptors

/-! ## Processes -/

section Processes

variable {Λ : Layout} {io : Bool} {k k' : Kernel} {L : Nat → List Nat} {i : Nat}

/-- The first part of `exit` closes every descriptor, each of which holds a reference. -/
theorem Counted.exitBegin {status : Int} (h : Counted k L) (hi : i < nproc) (hrun : (k.proc i).Running) :
    Ends (exitBegin Λ io k i status) (fun k' => Counted k' L) NotFile := by
  refine ends_ite (fun _ => ends_throw (by decide)) fun _ => ?_
  refine ends_bind (closeFiles_ends
    (I := fun fd k => Counted k L ∧ (k.proc i).Running ∧ ∀ d < fd, (k.proc i).ofile d = none) ?_ ?_ nofile 0 (by omega)
    ⟨h, hrun, fun d hd => absurd hd (Nat.not_lt_zero d)⟩) ?_
  · rintro fd k1 ⟨h1, hrun1, hall⟩ _ hnone
    refine ⟨h1, hrun1, fun d hd => ?_⟩
    rcases Nat.lt_succ_iff_lt_or_eq.mp hd with hd | rfl
    · exact hall d hd
    · exact hnone
  · rintro fd k1 f ⟨h1, hrun1, hall⟩ hfd hf
    refine (fileclose_quiet Λ io (h1.refs.fd_pos hi hfd hf)).ends fun k2 hc => ?_
    have hfo := fileclose_fileOnly hc
    have hproc : (k2.setFd i fd none).proc = (k1.setFd i fd none).proc := by
      simp [Kernel.setFd, Kernel.setProc, hfo.proc]
    have hpi : (k2.setFd i fd none).proc i = { k1.proc i with ofile := update (k1.proc i).ofile fd none } := by
      rw [hproc]
      simp [Kernel.setFd, Kernel.setProc]
    refine ⟨h1.dropFd hi hrun1 hfd hf hproc hfo.vmas fun x => (fileclose_ref hc x :), ?_, fun d hd => ?_⟩
    · rw [hpi]
      exact hrun1.congr rfl rfl
    rw [hpi]
    rcases Nat.lt_succ_iff_lt_or_eq.mp hd with hd | rfl
    · have hne : d ≠ fd := by omega
      simpa [hne] using hall d hd
    · simp
  · rintro k1 ⟨h1, hrun1, hnone⟩
    refine ends_pure (h1.upd (p := { k1.proc i with exiting := some status }) ?_ rfl rfl rfl)
    refine ⟨fun _ fd hfd => hnone fd (by omega), ?_⟩
    rintro (e | e)
    · exact absurd e hrun1.state.1
    · exact absurd e hrun1.state.2

theorem Counted.killExit (h : Counted k L) (hi : i < nproc) (hrun : (k.proc i).Running) :
    Ends (killExit Λ io k i) (fun k' => Counted k' L) NotFile := by
  have h' : Counted (k.setProc i { k.proc i with killed := true }) L :=
    h.upd (p := { k.proc i with killed := true }) (hrun.procOk_of rfl rfl) rfl rfl rfl
  refine h'.exitBegin hi ?_
  simp only [setProc, update_self]
  exact hrun.congr rfl rfl

/-- The last part of `exit`: the process has no descriptor and no VMA left. -/
theorem Counted.exitDone {status : Int} (h : Counted k L) (hex : (k.proc i).exiting.isSome = true)
    (hn : (k.proc i).nvma = 0) (hk : exitDone io k i status = .ok k') : Counted k' L := by
  obtain ⟨fs, -, -, rfl⟩ := exitDone_ok hk
  have hs := exitDone_sameLists hk
  -- only the parent of another process can change
  have hrep : ∀ (k : Kernel) j, ∃ parent, (reparent k i).proc j = { k.proc j with parent := parent } := by
    intro k j
    unfold reparent
    dsimp only
    split
    · exact ⟨_, rfl⟩
    · exact ⟨_, rfl⟩
  have hparent : ∀ {p : Proc} parent, ProcOk p → ProcOk { p with parent := parent } := fun _ hp => ⟨hp.closed, hp.gone⟩
  refine h.of_same ⟨hs, fun j => ?_, fun _ => rfl⟩ fun j => ?_
  · by_cases hj : j = i
    · subst hj
      obtain ⟨parent, e⟩ := hrep (k.upd j { k.proc j with cwd := none } k.mem fs) j
      simp [setProc, e]
    · obtain ⟨parent, e⟩ := hrep (k.upd i { k.proc i with cwd := none } k.mem fs) j
      simp [setProc, hj, e]
  · by_cases hj : j = i
    · subst hj
      obtain ⟨parent, e⟩ := hrep (k.upd j { k.proc j with cwd := none } k.mem fs) j
      simp only [setProc, update_self, e, upd_self]
      exact ⟨fun _ => (h.idle j).closed (Or.inr (Or.inr hex)), fun _ => ⟨hn, rfl, rfl⟩⟩
    · obtain ⟨parent, e⟩ := hrep (k.upd i { k.proc i with cwd := none } k.mem fs) j
      simp only [setProc, update_of_ne hj, e, upd_of_ne k i _ _ _ hj]
      exact hparent parent (h.idle j)

theorem Counted.wait {r : WaitResult × Kernel} (h : Counted k L) (hr : WaitDone Λ k i r) : Counted r.2 L := by
  cases hr with
  | stay w => exact h
  | failed ram => exact h.mem_fs _ k.fs
  | freed j ram m _ hstate _ =>
    refine h.upd (p := (k.proc j).freed) ⟨fun _ => (h.idle j).closed (Or.inr (Or.inl hstate)), fun _ => ?_⟩ rfl rfl rfl
    obtain ⟨h1, h2, -⟩ := (h.idle j).gone (Or.inr hstate)
    exact ⟨h1, h2, rfl⟩

theorem ProcOk.freed {p p' : Proc} (h : ProcOk p) (hs : p.state = .unused) (ho : p'.ofile = p.ofile) (hn : p'.nvma = p.nvma)
    (hc : p'.cwd = p.cwd) : ProcOk p'.freed := by
  obtain ⟨h1, h2, -⟩ := h.gone (Or.inl hs)
  have h3 := h.closed (Or.inl hs)
  refine ⟨fun _ fd hfd => ?_, fun _ => ⟨hn.trans h1, hc.trans h2, rfl⟩⟩
  show p'.ofile fd = none
  rw [ho]
  exact h3 fd hfd

theorem Counted.allocproc {r : Option Nat × Kernel} (h : Counted k L) (hr : AllocDone Λ k r) : Counted r.2 L := by
  cases hr with
  | full => exact h
  | found j tf pt m1 m _ hstate _ _ _ =>
    have hrun : Proc.Running { k.proc j with pid := k.nextpid, state := .used, trapframe := tf, pagetable := some pt } :=
      ⟨⟨by simp, by simp⟩, ((h.idle j).gone (Or.inl hstate)).2.2⟩
    have h' : Counted (k.upd j _ m k.fs) L := h.upd hrun.procOk rfl rfl rfl
    exact h'.of_same ⟨⟨rfl, fun _ => rfl, fun _ => rfl⟩, fun _ => rfl, fun _ => rfl⟩ h'.idle
  | undone j p m _ hstate hp =>
    have h' : Counted (k.upd j p m k.fs) L :=
      h.upd (by rw [hp]; exact (h.idle j).freed hstate rfl rfl rfl) (by rw [hp]; rfl) (by rw [hp]; rfl) (by rw [hp]; rfl)
    exact h'.of_same ⟨⟨rfl, fun _ => rfl, fun _ => rfl⟩, fun _ => rfl, fun _ => rfl⟩ h'.idle

theorem Copied.counted {np : Nat} {l : List (Nat × Nat)} {last : Option Nat} (hc : Copied np l k last k') (h : Counted k L)
    (hrun : (k.proc np).Running) (hlast : last = (L np).getLast?) (hlen : (L np).length + l.length ≤ (k.proc np).nvma) :
    ∃ L', Counted k' L' := by
  induction hc generalizing L with
  | nil k last => exact ⟨L, h⟩
  | @cons k k' last a s f l hs hfree hf _ ih =>
    simp only [List.length_cons] at hlen
    have hl : VmaLists (copyVma k np a s f last) (update L np (L np ++ [s])) :=
      h.lists.copyVma hlast hs hfree (by omega)
    have hnp : (copyVma k np a s f last).proc np =
        { k.proc np with vmas := if last.isNone then some s else (k.proc np).vmas } := by
      simp [copyVma]

    have hrefs : RefsExact (copyVma k np a s f last) := by
      refine h.refs.vmaSlot (c := s) hs (update_field Proc.ofile rfl) (fun d hd => ?_) fun x => ?_
      · rw [copyVma_link]
        exact linkVma_file k.vmas last _ hd
      have hnew : ((copyVma k np a s f last).vmas s).file = some f := by
        simp [copyVma, Vma.copy, Vma.file, hf]
      have hold : (k.vmas s).file = none := by rw [Vma.file, hfree]; rfl
      rw [hnew, hold]
      simpa [copyVma, eq_comm (a := f)] using ref_update k.ftable rfl x
    refine ih ⟨hl, idle_update h.idle (hrun.procOk_of rfl rfl), hrefs⟩ ?_ (by simp) ?_
    · rw [hnp]
      exact hrun.congr rfl rfl
    · rw [hnp]
      simp only [update_self, List.length_append, List.length_cons, List.length_nil]
      omega

/-- Process `np` with other descriptors. -/
def Kernel.withFiles (k : Kernel) (np : Nat) (o : Nat → Option Nat) : Kernel :=
  k.setProc np { k.proc np with ofile := o }

/-- The descriptors of the parent duplicated: with them the child is counted. -/
theorem Counted.dupFiles {np : Nat} (h : Counted k L) (hi : i < nproc) (hnp : np < nproc) (hne : i ≠ np)
    (hrun : (k.proc np).Running) (hnone : ∀ fd < nofile, (k.proc np).ofile fd = none) :
    Ends (dupFiles (k.proc i).ofile nofile 0 k (k.proc np).ofile) (fun r => Counted (r.1.withFiles np r.2) L) NotFile := by
  have h0 : k.withFiles np (k.proc np).ofile = k := by simp [withFiles, setProc, update_eq_self]
  refine ends_imp (dupFiles_ends (k := k) (o := (k.proc np).ofile) (E := NotFile)
    (I := fun fd k1 o => Counted (k1.withFiles np o) L ∧ k1.proc = k.proc ∧ ∀ d < nofile, fd ≤ d → o d = none)
    ?_ ?_ nofile 0 (by omega) ⟨by rw [h0]; exact h, rfl, fun d hd _ => hnone d hd⟩) fun r hr => hr.1
  · rintro fd k1 o ⟨h1, hp, ho⟩ _ _
    exact ⟨h1, hp, fun d hd hle => ho d hd (by omega)⟩
  rintro fd k1 o f ⟨h1, hp, ho⟩ hfd hf
  have hparent : ((k1.withFiles np o).proc i).ofile fd = some f := by
    simpa [withFiles, setProc, hne, hp] using hf
  have hchild : (k1.withFiles np o).proc np = { k.proc np with ofile := o } := by
    simp [withFiles, setProc, hp]
  have hpos : 1 ≤ (k1.ftable f).ref := h1.refs.fd_pos hi hfd hparent
  refine (filedup_quiet hpos).ends fun k2 hdup => ?_
  obtain ⟨-, rfl⟩ := filedup_ok hdup
  refine ⟨?_, hp, fun d hd hle => ?_⟩
  · refine h1.addFd (f := f) hnp ?_ hfd ?_ ?_ rfl fun x => ?_
    · rw [hchild]
      exact hrun.congr rfl rfl
    · rw [hchild]
      exact ho fd hfd (le_refl fd)
    · simp [Kernel.withFiles, Kernel.setFd, Kernel.setProc, Kernel.setFile]
    · exact ref_update k1.ftable rfl x
  · have hd' : d ≠ fd := by omega
    rw [update_of_ne hd']
    exact ho d hd (by omega)

/-- `fork` counts the references of the child it makes, also of one it gives up on. -/
theorem Counted.fork (h : Counted k L) (hi : i < nproc) (hrun : (k.proc i).Running) :
    Ends (fork Λ k i) (fun r => ∃ L', Counted r.2 L') NotFile := by
  refine ends_bind ((allocproc_quiet Λ k).ends fun r hr => allocproc_ok hr) ?_
  rintro ⟨np, k1⟩ hal
  have h1 : Counted k1 L := h.allocproc hal
  dsimp only
  split
  · exact ends_pure ⟨L, h1⟩
  · exact ends_throw (by decide)
  rename_i np pt hpt
  obtain ⟨hnp, hunused, hother, ⟨tf, npt0, hent⟩, -, -, -⟩ := hal.entry
  have hne : i ≠ np := fun e => hrun.state.1 (e ▸ hunused)
  obtain ⟨hn0, -, hex0⟩ := (h.idle np).gone (Or.inl hunused)
  have hnpL : L np = [] := by
    have := h.lists.short np
    rw [hn0] at this
    exact List.length_eq_zero_iff.mp (Nat.le_zero.mp this)
  split
  · exact ends_throw (by decide)
  rename_i npt hnpt
  refine ends_bind (uvmcopy_quiet Λ npt k1.mem pt (k1.proc i).sz).any ?_
  rintro ⟨ok, npt', m⟩ -
  refine ends_ite (fun _ => ?_) fun _ => ?_
  · refine ends_bind ((freeproc_quiet Λ m _).ends fun r hr => freeproc_ok hr) ?_
    rintro ⟨c, m'⟩ hc
    dsimp only at hc
    refine ends_pure ⟨L, h1.upd (p := c) ?_ ?_ ?_ ?_⟩
    · rw [hc, hent]
      exact (h.idle np).freed hunused rfl rfl rfl
    all_goals rw [hc]; rfl
  · -- the child, with its memory, before it gets anything of the parent's
    have hrun1 : (k1.proc np).Running := by
      rw [hent]
      exact ⟨⟨by simp, by simp⟩, hex0⟩
    have h2 : Counted (k1.upd np { k1.proc np with pagetable := some npt', sz := (k1.proc i).sz } m k1.fs) L :=
      h1.upd (hrun1.procOk_of rfl rfl) rfl rfl rfl
    have hdup := h2.dupFiles hi hnp hne (by rw [upd_self]; exact hrun1.congr rfl rfl) (by
      rw [upd_self, hent]
      exact (h.idle np).closed (Or.inl hunused))
    rw [upd_of_ne _ _ _ _ _ hne] at hdup
    refine ends_bind (hdup.and ((AbortsIn.ends fun e he => hdup.of_error he) fun r hr => (dupFiles_frame hr).1)) ?_
    rintro ⟨k3, ofile⟩ ⟨h3, hfo⟩
    refine ends_bind (idup_quiet k3.fs _).any fun fs _ => ?_
    have hrun3 : (k3.proc np).Running := by
      rw [hfo.proc, upd_self]
      exact hrun1.congr rfl rfl
    obtain ⟨k4, hk4⟩ : ∃ k4, k4 = k3.upd np
        { k3.proc np with ofile := ofile, cwd := (k1.proc i).cwd, nvma := (k1.proc i).nvma } k3.mem fs := ⟨_, rfl⟩
    have h4 : Counted k4 L := by
      have e : k4 = (k3.withFiles np ofile).upd np
          { (k3.withFiles np ofile).proc np with cwd := (k1.proc i).cwd, nvma := (k1.proc i).nvma } k3.mem fs := by
        rw [hk4]
        simp [Kernel.withFiles, Kernel.upd, Kernel.setProc]
      rw [e]
      refine ⟨h3.lists.setCount hnpL rfl rfl (h1.lists.bound i), idle_update h3.idle ?_,
        h3.refs.of_same ?_ (fun _ => rfl) fun _ => rfl⟩
      · refine hrun3.procOk_of ?_ ?_ <;> simp [Kernel.withFiles, Kernel.setProc]
      · exact upd_field _ np _ _ _ Proc.ofile rfl
    refine ends_bind ((forkVmas_quiet np _ _ _ 0 none).ends fun r hr => forkVmas_ok hr) ?_
    rintro ⟨b, k5⟩ ⟨l, hl, hlen⟩
    have hl' : Copied np l k4 none k5 := by
      rw [hk4]
      exact hl
    obtain ⟨L', h5⟩ := hl'.counted h4 (by rw [hk4, upd_self]; exact hrun3.congr rfl rfl) (by rw [hnpL]; rfl) (by
      rw [hnpL, hk4]
      simpa using hlen)
    refine ends_ite (fun _ => ends_pure ⟨L', h5⟩) fun _ => ends_pure ⟨L', ?_⟩
    refine h5.upd (p := { k5.proc np with parent := some i, state := .runnable }) ?_ rfl rfl rfl
    obtain ⟨head, hchild⟩ := hl'.frame.child
    rw [hk4, upd_self] at hchild
    exact Proc.Running.procOk ⟨⟨by simp, by simp⟩, by rw [hchild]; exact hrun3.exiting⟩

end Processes

end Xv6Mmap

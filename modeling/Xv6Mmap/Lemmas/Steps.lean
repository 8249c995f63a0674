import Xv6Mmap.Lemmas.Calls

/-!
# What a step can do

A step is nothing, a piece of `exit`, a store, or a trap with its kernel call. Each invariant over runs is proved from this split.
-/

namespace Xv6Mmap

variable {Λ : Layout} {io : Bool} {k k' : Kernel} {i : Nat} {ev : Event} {r : Nat × Kernel}

theorem inUser_some {p : Proc} {pt : PageTable} (h : inUser p = some pt) :
    p.state = .runnable ∧ p.exiting = none ∧ p.pagetable = some pt ∧ pt.mapped trapframe = true ∧ pt.mapped trampoline = true := by
  unfold inUser at h
  split at h
  · rename_i hs
    obtain ⟨pt', hpt, h⟩ := Option.bind_eq_some_iff.mp h
    split at h
    · rename_i hm
      cases h
      simp only [Bool.and_eq_true] at hm
      exact ⟨hs.1, hs.2, hpt, hm.1, hm.2⟩
    · cases h
  · cases h

/-- What a step comes to. -/
inductive StepDone (Λ : Layout) (io : Bool) (k : Kernel) (i : Nat) (ev : Event) : Nat × Kernel → Prop where
  | idle : StepDone Λ io k i ev (0, k)
  | unmap (status : Int) (k' : Kernel) (hev : ev = .exitUnmap) (hex : (k.proc i).exiting = some status)
      (hn : (k.proc i).nvma ≠ 0) (hk : exitUnmap Λ io k i = .ok k') : StepDone Λ io k i ev (0, k')
  | done (status : Int) (k' : Kernel) (hev : ev = .exitDone) (hex : (k.proc i).exiting = some status)
      (hn : (k.proc i).nvma = 0) (hk : exitDone io k i status = .ok k') : StepDone Λ io k i ev (0, k')
  | store (va : Nat) (b : UInt8) (pt : PageTable) (hev : ev = .store va b) (hu : inUser (k.proc i) = some pt) :
      StepDone Λ io k i ev (0, userStore k i pt va b)
  | trap (pt : PageTable) (r : Nat × Kernel) (hu : inUser (k.proc i) = some pt)
      (hk : trap Λ io (trapEntry k i pt) i ev = .ok r) : StepDone Λ io k i ev r

/-- The rule of a step: what holds of every piece of code that it can be. -/
theorem step_ends {Q : Nat × Kernel → Prop} {E : Panic → Prop} (hidle : Q (0, k))
    (hunmap : ∀ status, ev = .exitUnmap → (k.proc i).exiting = some status → (k.proc i).nvma ≠ 0 →
      Ends (exitUnmap Λ io k i) (fun k' => Q (0, k')) E)
    (hdone : ∀ status, ev = .exitDone → (k.proc i).exiting = some status → (k.proc i).nvma = 0 →
      Ends (exitDone io k i status) (fun k' => Q (0, k')) E)
    (hstore : ∀ va b pt, ev = .store va b → inUser (k.proc i) = some pt → Q (0, userStore k i pt va b))
    (htrap : ∀ pt, inUser (k.proc i) = some pt → Ends (trap Λ io (trapEntry k i pt) i ev) Q E) : Ends (step Λ io k i ev) Q E := by
  unfold step
  dsimp only
  split
  · rename_i status hex
    refine ends_ite (fun _ => ends_pure hidle) fun hn => ?_
    exact ends_bind (hunmap status rfl hex hn) fun k' h => ends_pure h
  · rename_i status hex
    refine ends_ite (fun hn => ?_) fun _ => ends_pure hidle
    exact ends_bind (hdone status rfl hex hn) fun k' h => ends_pure h
  · rename_i va b hex
    split
    · exact ends_pure hidle
    · rename_i pt hu
      exact ends_pure (hstore va b pt rfl hu)
  · split
    · exact ends_pure hidle
    · rename_i pt hu
      exact htrap pt hu

theorem step_ok (h : step Λ io k i ev = .ok r) : StepDone Λ io k i ev r := by
  refine (step_ends (E := anyAbort) .idle ?_ ?_ (fun va b pt hev hu => .store va b pt hev hu) ?_).of_ok h
  · exact fun status hev hex hn => ends_of_forall_ok fun k' hk => .unmap status k' hev hex hn hk
  · exact fun status hev hex hn => ends_of_forall_ok fun k' hk => .done status k' hev hex hn hk
  · exact fun pt hu => ends_of_forall_ok fun r hk => .trap pt r hu hk

theorem trapEntry_eq (pt : PageTable) : trapEntry k i pt =
    k.upd i { k.proc i with pagetable := some (pt.setPte trapframe (pt.pte trapframe ||| pteD)) } k.mem k.fs := rfl

theorem userStore_eq (pt : PageTable) (va : Nat) (b : UInt8) :
    ∃ pt' ram, userStore k i pt va b = k.upd i { k.proc i with pagetable := pt' } { k.mem with ram := ram } k.fs := by
  unfold userStore
  split
  · exact ⟨_, _, rfl⟩
  · exact ⟨(k.proc i).pagetable, k.mem.ram, (upd_proc_self k i k.mem k.fs).symm⟩

/-! ## Steps that leave the VMA lists alone -/

theorem sameLists_trapEntry (k : Kernel) (i : Nat) (pt : PageTable) : SameLists k (trapEntry k i pt) :=
  sameLists_setProc k i _ rfl rfl

theorem sameLists_userStore (pt : PageTable) (va : Nat) (b : UInt8) : SameLists k (userStore k i pt va b) := by
  obtain ⟨pt', ram, e⟩ := userStore_eq (k := k) (i := i) pt va b
  rw [e]
  exact sameLists_upd k i { k.proc i with pagetable := pt' } _ _ rfl rfl

theorem sameLists_reparent (k : Kernel) (i : Nat) : SameLists k (reparent k i) := by
  refine ⟨rfl, fun j => ?_, fun j => ?_⟩ <;>
  · unfold reparent
    dsimp only
    split <;> rfl

theorem exitDone_sameLists {status : Int} (h : exitDone io k i status = .ok k') : SameLists k k' := by
  obtain ⟨fs, -, -, rfl⟩ := exitDone_ok h
  have h1 := sameLists_upd k i { k.proc i with cwd := none } k.mem fs rfl rfl
  exact (h1.trans (sameLists_reparent _ i)).trans (sameLists_setProc _ i _ rfl rfl)

theorem wait_sameLists {addr : Nat} {r : WaitResult × Kernel} (h : wait Λ k i addr = .ok r) : SameLists k r.2 := by
  cases wait_ok h with
  | stay w => exact SameLists.refl k
  | failed ram => exact ⟨rfl, fun _ => rfl, fun _ => rfl⟩
  | freed j ram m hj hstate hm => exact sameLists_upd k j _ m k.fs rfl rfl

theorem openPath_sameLists {path : List UInt8} {omode : Nat} (h : openPath Λ io k i path omode = .ok r) : SameLists k r.2 := by
  cases openPath_ok h with
  | noInode fs hip | noFile ip fs fs' hip hput => exact ⟨rfl, fun _ => rfl, fun _ => rfl⟩
  | noFd ip f fs fs' k' hip hf href hclose hput =>
    have := (fileclose_fileOnly hclose).sameLists
    exact ⟨this.vmas, this.head, this.nvma⟩
  | done ip f fd fs fs' file hip hf href hfd hfree hfile htrunc =>
    have h1 : SameLists k (withFd k i f fd) :=
      (sameLists_setFile k f _).trans (sameLists_setFd (k.setFile f { k.ftable f with ref := 1 }) i fd (some f))
    exact ⟨h1.vmas, h1.head, h1.nvma⟩

theorem pipeAllocDone_fileOnly {r : Option (Nat × Nat) × Kernel} (h : PipeAllocDone Λ io k r) : FileOnly k r.2 := by
  cases h with
  | noFile => exact FileOnly.refl k
  | oneFile f k' _ _ hclose =>
    have := fileclose_fileOnly hclose
    exact ⟨this.proc, this.vmas, this.nextpid⟩
  | noPage f g k1 k2 k' _ _ _ _ _ hk _ hf' hg' =>
    subst hk
    have h1 := fileclose_fileOnly hf'
    have h2 := fileclose_fileOnly hg'
    exact ⟨h2.proc.trans h1.proc, h2.vmas.trans h1.vmas, h2.nextpid.trans h1.nextpid⟩
  | done f g pg k' _ _ _ _ _ hk _ _ _ _ => exact hk

theorem sysPipe_sameLists {fdarray : Nat} (h : sysPipe Λ io k i fdarray = .ok r) : SameLists k r.2 := by
  cases sysPipe_ok h with
  | failed k' hal => exact (pipeAllocDone_fileOnly hal).sameLists
  | undone f g k1 k2 k3 k' hal hsame hf hg =>
    have h1 := (pipeAllocDone_fileOnly hal).sameLists
    obtain ⟨-, -, hv, hp⟩ := hsame
    have h2 : SameLists k1 k2 := ⟨hv, fun j => by rw [hp], fun j => by rw [hp]⟩
    exact ((h1.trans h2).trans (fileclose_fileOnly hf).sameLists).trans (fileclose_fileOnly hg).sameLists
  | done f g fd0 fd1 k1 ram hal _ _ _ _ _ =>
    have h1 := (pipeAllocDone_fileOnly hal).sameLists
    have h2 := h1.trans ((sameLists_setFd k1 i fd0 (some f)).trans (sameLists_setFd (k1.setFd i fd0 (some f)) i fd1 (some g)))
    exact ⟨h2.vmas, h2.head, h2.nvma⟩

theorem trap_lists (h : trap Λ io k i ev = .ok r) : SameLists k r.2 ∨ (∃ l p f d, ev = .mmap l p f d) ∨
    (∃ a l ok, munmap Λ io k i a l = .ok (ok, r.2)) ∨ ev = .fork := by
  cases ev
  case mmap l p f d => exact Or.inr (Or.inl ⟨l, p, f, d, rfl⟩)
  case munmap a l =>
    obtain ⟨ok, hm, -⟩ := sysMunmap_ok h
    exact Or.inr (Or.inr (Or.inl ⟨a, l, ok, hm⟩))
  case fork => exact Or.inr (Or.inr (Or.inr rfl))
  all_goals refine Or.inl ?_
  case fault va cause =>
    obtain ⟨k', hk, h⟩ := bind_eq_ok.mp h
    cases h
    exact pageFault_sameLists hk
  case store | exitUnmap | exitDone =>
    cases h
    exact SameLists.refl k
  case sbrk n =>
    obtain ⟨⟨ok, k'⟩, hk, h⟩ := bind_eq_ok.mp h
    cases h
    obtain ⟨pt, sz, m, e⟩ := growproc_ok hk
    rw [e]
    exact sameLists_upd k i { k.proc i with pagetable := pt, sz := sz } m k.fs rfl rfl
  case exit status =>
    obtain ⟨k', hk, h⟩ := bind_eq_ok.mp h
    cases h
    exact exitBegin_sameLists hk
  case wait addr =>
    obtain ⟨⟨w, k'⟩, hk, h⟩ := bind_eq_ok.mp h
    have hs : SameLists k k' := wait_sameLists hk
    cases w <;> cases h <;> exact hs
  case exec path argv =>
    obtain ⟨⟨argc, k'⟩, hk, h⟩ := bind_eq_ok.mp h
    cases h
    obtain ⟨pt, sz, m, fs, e⟩ := exec_ok hk
    rw [e]
    exact sameLists_upd k i { k.proc i with pagetable := pt, sz := sz } m fs rfl rfl
  case openPath path omode =>
    cases path with
    | none =>
      cases h
      exact SameLists.refl k
    | some path => exact openPath_sameLists h
  case dup fd =>
    cases sysDup_ok h with
    | failed => exact SameLists.refl k
    | done fd' fd f _ _ _ _ _ =>
      have := sameLists_setFd k i fd (some f)
      exact ⟨this.vmas, this.head, this.nvma⟩
  case close fd =>
    cases sysClose_ok h with
    | failed => exact SameLists.refl k
    | done fd f k' _ _ hk => exact (sameLists_setFd k i fd none).trans (fileclose_fileOnly hk).sameLists
  case pipe fdarray => exact sysPipe_sameLists h
  case chdir path =>
    obtain ⟨cwd, fs, e⟩ := sysChdir_ok h
    rw [e]
    exact sameLists_upd k i { k.proc i with cwd := cwd } k.mem fs rfl rfl

/-- What a step does to the VMA lists: nothing, or a call that changes them, from a state in which they are as before the step. -/
theorem step_lists (hs : step Λ io k i ev = .ok r) : SameLists k r.2 ∨ ∃ k1, SameLists k k1 ∧
    ((∃ a l ok, munmap Λ io k1 i a l = .ok (ok, r.2)) ∨ (∃ l p f d, ev = .mmap l p f d ∧ mmap k1 i l p f d = .ok r) ∨ ev = .fork) := by
  cases step_ok hs with
  | idle => exact Or.inl (SameLists.refl k)
  | unmap status k' _ _ _ hk =>
    obtain ⟨a, ok, -, hm⟩ := exitUnmap_ok hk
    exact Or.inr ⟨k, SameLists.refl k, Or.inl ⟨_, _, ok, hm⟩⟩
  | done status k' _ _ _ hk => exact Or.inl (exitDone_sameLists hk)
  | store va b pt _ _ => exact Or.inl (sameLists_userStore pt va b)
  | trap pt r _ hk =>
    have ht := sameLists_trapEntry k i pt
    rcases trap_lists hk with h | ⟨l, p, f, d, rfl⟩ | hm | rfl
    · exact Or.inl (ht.trans h)
    · rcases sysMmap_ok hk with rfl | hm
      · exact Or.inl ht
      · exact Or.inr ⟨_, ht, Or.inr (Or.inl ⟨l, p, f, d, rfl, hm⟩)⟩
    · exact Or.inr ⟨_, ht, Or.inl hm⟩
    · exact Or.inr ⟨_, ht, Or.inr (Or.inr rfl)⟩

end Xv6Mmap

import Xv6Mmap.Lemmas.NameCalls
import Xv6Mmap.Lib.Runs
import Mathlib.Tactic.SplitIfs

/-!
# System calls on names

One call of a process, as a change to the tree of names. `Rest` is what holds of the inode table between calls: its counts are exact,
and every entry in use is valid but the root's. `NameStep` says all that a call can do, and `freed` which inodes it frees.
-/

namespace Xv6Mmap

open Function

namespace NameSys

/-- The tree of names. -/
def tree (s : NameSys) : NameTree := s.fs.tree

/-- How many current directories and open files have table entry `j`. -/
def holders (s : NameSys) (j : Nat) : Int := refsTo (Finset.range nproc) s.cwd j + refsTo (Finset.range nfile) s.files j

/-- The inode of a process's current directory. -/
def dir (s : NameSys) (p : Nat) : Nat :=
  match s.cwd p with
  | some j => (s.fs.itable j).inum
  | none => 0

/-- Some process or open file has inode `x`. -/
def Held (s : NameSys) (x : Nat) : Prop := HeldBy s.fs.refs s.fs x

/-- The table between calls. -/
structure Rest (s : NameSys) : Prop where
  coherent : Coherent s.fs
  refs : s.fs.refs = s.holders
  valid : ∀ j, 0 < s.fs.refs j → (s.fs.itable j).valid = true ∨ (s.fs.itable j).inum = rootIno

/-- A call that `p` can make: the process and what the call names are in the tables. -/
def Allowed (s : NameSys) (p : Nat) (c : NameCall) : Prop :=
  p < nproc ∧ s.cwd p ≠ none ∧
  match c with
  | .openPath _ _ (some f) => f < nfile
  | .close f => f < nfile
  | .fork child => child < nproc
  | _ => True

/-- The call counts no link count up from `-1` to zero. -/
def NoWrap (s : NameSys) (p : Nat) : NameCall → Prop
  | .mkdir path => ∀ y name, s.tree.nameiparent (s.dir p) path = some (y, name) → s.tree.find y (dirKey name) = none →
      s.tree.nlink y ≠ -1
  | .link old new => ∀ x y name, s.tree.namei (s.dir p) old = some x → s.tree.type x ≠ 0 → s.tree.type x ≠ tDir →
      s.tree.nameiparent (s.dir p) new = some (y, name) → s.tree.find y (dirKey name) = none → s.tree.nlink x ≠ -1
  | _ => True

/-- A table entry is the last reference to inode `z`, which has no links. -/
def LastOf (s : NameSys) (o : Option Nat) (z : Nat) : Prop :=
  ∃ j, o = some j ∧ (s.fs.itable j).inum = z ∧ s.fs.refs j = 1 ∧ s.tree.nlink z = 0

/-- The inodes that a call frees. -/
def freed (s : NameSys) (p : Nat) : NameCall → Set Nat
  | .unlink path => {z | ∃ y name k x, s.tree.nameiparent (s.dir p) path = some (y, name) ∧ dirKey name ≠ dot ∧ dirKey name ≠ dotdot ∧
      s.tree.find y (dirKey name) = some (k, x) ∧ (s.tree.type x = tDir → ∀ k, 2 ≤ k → s.tree.slot x k = none) ∧
      z ∈ unlinkFrees s.tree y x s.Held}
  | .chdir path => {z | ∃ w, s.tree.namei (s.dir p) path = some w ∧ s.tree.type w = tDir ∧ w ≠ z ∧ s.LastOf (s.cwd p) z}
  | .close f => {z | s.LastOf (s.files f) z}
  | .exit => {z | s.LastOf (s.cwd p) z}
  | _ => ∅

end NameSys

/-- The calls that make a new inode, with its path and type. -/
def NameCall.Makes : NameCall → List UInt8 → Nat → Prop
  | .openPath path omode _, path', type => path' = path ∧ type = tFile ∧ omode &&& oCreate ≠ 0
  | .mkdir path, path', type => path' = path ∧ type = tDir
  | .mknod path _ _, path', type => path' = path ∧ type = tDevice
  | _, _, _ => False

/-- What a call does to the tree, before inodes are freed. -/
inductive NameStep (s : NameSys) (p : Nat) : NameCall → NameTree → Prop where
  | same {c : NameCall} : (∀ path, c ≠ .unlink path) → NameStep s p c s.tree
  | create {c : NameCall} {path : List UInt8} {type : Nat} {t : NameTree} : c.Makes path type →
      Creates s.tree (s.dir p) path type t → NameStep s p c t
  | link {old new : List UInt8} {t : NameTree} : Links s.tree (s.dir p) old new t → NameStep s p (.link old new) t
  | unlink {path : List UInt8} {t : NameTree} {F : Set Nat} : Unlinks s.tree (s.dir p) path s.Held t F → NameStep s p (.unlink path) t

namespace NameSys

section Calls

variable {s : NameSys} {p j c : Nat} {io : Bool} {t : NameTree} {fs : Fs}

/-! ## References -/

theorem refsTo_update {n i : Nat} (hi : i < n) (g : Nat → Option Nat) (o : Option Nat) (j : Nat) :
    (refsTo (Finset.range n) (update g i o) j : Int) = refsTo (Finset.range n) g j - oneOf (g i) j + oneOf o j := by
  have hagree := refsTo_agree (b := j) (Finset.mem_range.mpr hi) fun k _ hk => update_of_ne hk o g
  rw [update_self] at hagree
  rw [oneOf_apply, oneOf_apply]
  split_ifs at hagree ⊢ <;> omega

theorem holders_cwd (hp : p < nproc) (o : Option Nat) :
    holders { s with cwd := update s.cwd p o } = s.holders - oneOf (s.cwd p) + oneOf o := by
  funext j
  simp only [holders, Pi.add_apply, Pi.sub_apply, refsTo_update hp]
  omega

theorem holders_files {f : Nat} (hf : f < nfile) (o : Option Nat) :
    holders { s with files := update s.files f o } = s.holders - oneOf (s.files f) + oneOf o := by
  funext j
  simp only [holders, Pi.add_apply, Pi.sub_apply, refsTo_update hf]
  omega

theorem pos_add_one {b : Nat → Int} {i : Nat} (h : 0 < (b + one i) j) : 0 < b j ∨ j = i := by
  by_cases e : j = i
  · exact Or.inr e
  · simp only [Pi.add_apply, one, Pi.single_eq_of_ne e, add_zero] at h
    exact Or.inl h

theorem Rest.of_leaves (h : s.Rest) (s' : NameSys) {b : Nat → Int} (hl : Leaves b t s.fs s'.fs) (hr : s'.fs.refs = s'.holders)
    (hb : ∀ j, 0 < s'.fs.refs j → 0 < b j ∧ 0 < s.fs.refs j ∨ (s'.fs.itable j).valid = true) : s'.Rest := by
  refine ⟨hl.coherent, hr, fun j hj => ?_⟩
  rcases hb j hj with ⟨hbj, hsj⟩ | hv
  · obtain ⟨-, hnum, hval⟩ := hl.keep j hbj
    rw [hnum]
    exact (h.valid j hsj).imp hval id
  · exact Or.inl hv

/-- A call that changes the file system only and gives its references back. -/
theorem Rest.withFs (h : s.Rest) (d : During s.fs.refs t s.fs 0 fs) : Rest { s with fs := fs } :=
  h.of_leaves { s with fs := fs } d.toLeaves (d.refs_eq.trans h.refs) fun j hj => by
    rw [d.refs_eq] at hj
    exact Or.inl ⟨hj, hj⟩

theorem Rest.allocated (h : s.Rest) (hroot : s.tree.type rootIno ≠ 0) (hj : 0 < s.fs.refs j) :
    s.tree.type (s.fs.itable j).inum ≠ 0 := by
  rcases h.valid j hj with hv | hn
  · exact (h.coherent.copy j hj hv).2
  · rw [hn]
    exact hroot

theorem Rest.cwd_pos (h : s.Rest) (hp : p < nproc) (hc : s.cwd p = some c) : 0 < s.fs.refs c := by
  have hpos := refsTo_pos (Finset.mem_range.mpr hp) hc
  rw [h.refs, holders]
  omega

theorem Rest.files_pos (h : s.Rest) {f : Nat} (hf : f < nfile) (hc : s.files f = some c) : 0 < s.fs.refs c := by
  have hpos := refsTo_pos (Finset.mem_range.mpr hf) hc
  rw [h.refs, holders]
  omega

theorem Rest.callFrom (h : s.Rest) (hroot : s.tree.type rootIno ≠ 0) (hp : p < nproc) (hc : s.cwd p = some c) : CallFrom s.fs c :=
  ⟨h.coherent, hroot, h.cwd_pos hp hc, h.allocated hroot (h.cwd_pos hp hc)⟩

theorem dir_eq (hc : s.cwd p = some c) : s.dir p = (s.fs.itable c).inum := by rw [dir, hc]

/-! ## Calls -/

theorem Rest.drop (h : s.Rest) (hroot : s.tree.type rootIno ≠ 0) (hj : 0 < s.fs.refs j) : Ends (iput io s.fs (some j))
    (fun fs => Leaves fs.refs (s.tree.freeAll {z | s.LastOf (some j) z}) s.fs fs ∧ fs.refs = s.fs.refs - one j) NotNoType := by
  have hset : {z | s.LastOf (some j) z} = {z | z = (s.fs.itable j).inum ∧ s.fs.refs j = 1 ∧ (s.fs.itable j).valid = true ∧
      s.fs.tree.nlink (s.fs.itable j).inum = 0} := by
    ext z
    constructor
    · rintro ⟨j', hj', hz, hone, hlink⟩
      cases hj'
      refine ⟨hz.symm, hone, ?_, by rw [hz]; exact hlink⟩
      -- an inode without links has a valid entry, and it is this one
      obtain ⟨i, hi, hnum, hv⟩ := h.coherent.anchored z (by rw [← hz]; exact h.allocated hroot hj) hlink
      rwa [h.coherent.inj i j hi hj (hnum.trans hz.symm)] at hv
    · rintro ⟨hz, hone, -, hlink⟩
      exact ⟨j, rfl, hz.symm, hone, by rw [hz]; exact hlink⟩
  rw [hset]
  exact iput_leaves h.coherent hj rfl

/-- What a call leaves behind. -/
def Does (s : NameSys) (p : Nat) (c : NameCall) (r : Bool × NameSys) : Prop :=
  r.2.Rest ∧ ∃ t, NameStep s p c t ∧ r.2.tree = t.freeAll (s.freed p c)

theorem does_withFs (h : s.Rest) {c : NameCall} {ok : Bool} (hstep : NameStep s p c t) (hfreed : s.freed p c = ∅)
    (d : During s.fs.refs t s.fs 0 fs) : Does s p c (ok, { s with fs := fs }) := by
  refine ⟨h.withFs d, t, hstep, ?_⟩
  rw [hfreed, NameTree.freeAll_empty]
  exact d.tree

/-- The reference of `create` or `open` is given back: nothing is freed. -/
theorem iput_made {fs1 : Fs} {ip : Nat} (h : Coherent fs) (d : During fs.refs t fs (one ip) fs1)
    (hmade : t = fs.tree ∨ t.nlink (fs1.itable ip).inum = 1) : Ends (iput io fs1 (some ip)) (During fs.refs t fs 0) NotNoType := by
  rcases hmade with rfl | hone
  · exact d.giveBack_last h.pinned
  refine ends_imp (iput_keeps d.coherent (d.pos_of_more h.nonneg (one_self_pos ip)) rfl fun _ hzero => ?_) fun fs2 ⟨h2, hr2⟩ => ?_
  · rw [d.tree, hone] at hzero
    cases hzero
  · have hr : fs2.refs = fs.refs := by rw [hr2, d.refs, add_sub_cancel_right]
    rw [hr, d.tree] at h2
    exact (d.toLeaves.trans h2).during hr

theorem freed_unlink {path : List UInt8} {F : Set Nat} (h : Unlinks s.tree (s.dir p) path s.Held t F) :
    s.freed p (.unlink path) = F := by
  cases h with
  | same hfail =>
    refine Set.eq_empty_iff_forall_notMem.mpr ?_
    rintro z ⟨y, name, k, x, hparent, h1, h2, hfind, hempty, -⟩
    obtain ⟨hdir, k', hk', hne⟩ := hfail y name k x hparent h1 h2 hfind
    exact hne (hempty hdir k' hk')
  | @unlink x y k name hparent hdir h1 h2 hfind htype hlink hempty =>
    ext z
    constructor
    · rintro ⟨y', name', k', x', hparent', -, -, hfind', -, hz⟩
      rw [hparent] at hparent'
      cases hparent'
      rw [hfind] at hfind'
      cases hfind'
      exact hz
    · exact fun hz => ⟨y, name, k, x, hparent, h1, h2, hfind, hempty, hz⟩

theorem openInode_leaves (hcall : CallFrom fs c) (path : List UInt8) (omode : Nat) : Ends (openInode io fs (some c) path omode)
      (fun r => ∃ t, During fs.refs t fs (oneOf r.1) r.2 ∧
        (t = fs.tree ∨ omode &&& oCreate ≠ 0 ∧ Creates fs.tree (fs.itable c).inum path tFile t) ∧
        ∀ ip, r.1 = some ip → Locked r.2 ip (r.2.itable ip).inum ∧ (t = fs.tree ∨ t.nlink (r.2.itable ip).inum = 1))
      (NoTypeDangles fs.tree) := by
  have h := hcall.coherent
  refine ends_ite (fun hcreate => ?_) fun _ => ?_
  · refine ends_imp (create_leaves hcall path (by decide) 0 0 fun hdir => absurd hdir (by decide)) ?_
    intro r ⟨t, d, hcreates, hnew⟩
    exact ⟨t, d, Or.inr ⟨hcreate, hcreates⟩, hnew⟩
  · refine ends_bind (namei_walks path h hcall.root hcall.ref hcall.cwd) ?_
    intro ⟨r, fs1⟩ ⟨d1, hwalk, hnamed⟩
    cases r with
    | none => exact ends_pure ⟨_, d1, Or.inl rfl, fun _ he => (nomatch he)⟩
    | some ip =>
    refine ends_bind (ilock_named d1.toLeaves (d1.pos_of_more h.nonneg (one_self_pos ip)) rfl (hnamed ip rfl)) ?_
    intro fs2 ⟨h2, hl2⟩
    have d2 := d1.next h2
    refine ends_ite (fun _ => ?_) fun _ => ?_
    · exact ends_bind (d2.giveBack_last h.pinned).dangles fun fs3 d3 => ends_pure ⟨_, d3, Or.inl rfl, fun _ he => (nomatch he)⟩
    · refine ends_pure ⟨_, d2, Or.inl rfl, fun i he => ?_⟩
      cases he
      exact ⟨⟨hl2.ref, rfl, hl2.valid⟩, Or.inl rfl⟩

section

variable (h : s.Rest) (hroot : s.tree.type rootIno ≠ 0) (hp : p < nproc) (hc : s.cwd p = some c)

include h hroot hp hc

theorem makePath_does {call : NameCall} {path : List UInt8} {type : Nat} (hmakes : call.Makes path type) (hfreed : s.freed p call = ∅) (htype : type ≠ 0) (major minor : Int)
    (hwrap : type = tDir → ∀ y name, s.tree.nameiparent (s.dir p) path = some (y, name) → s.tree.find y (dirKey name) = none →
      s.tree.nlink y ≠ -1) :
    Ends (s.withFs (makePath io s.fs (s.cwd p) path type major minor)) (Does s p call) (NoTypeDangles s.tree) := by
  rw [dir_eq hc] at hwrap
  rw [hc]
  refine ends_bind (Q := fun r => ∃ t, NameStep s p call t ∧ During s.fs.refs t s.fs 0 r.2) ?_ ?_
  · refine ends_bind (create_leaves (h.callFrom hroot hp hc) path htype major minor hwrap) ?_
    intro ⟨r, fs1⟩ ⟨t, d1, hcreates, hnew⟩
    have hstep : NameStep s p call t := .create hmakes (by rw [dir_eq hc]; exact hcreates)
    cases r with
    | none => exact ends_pure ⟨t, hstep, d1⟩
    | some ip => exact ends_bind (iput_made h.coherent d1 (hnew ip rfl).2).dangles fun fs2 d2 => ends_pure ⟨t, hstep, d2⟩
  · intro ⟨ok, fs⟩ ⟨t, hstep, d⟩
    exact ends_pure (does_withFs h hstep hfreed d)

theorem link_does {old new : List UInt8} (hwrap : s.NoWrap p (.link old new)) :
    Ends (s.withFs (linkPath io s.fs (s.cwd p) old new)) (Does s p (.link old new)) (NoTypeDangles s.tree) := by
  rw [NoWrap, dir_eq hc] at hwrap
  rw [hc]
  refine ends_bind (link_leaves (h.callFrom hroot hp hc) old new hwrap) ?_
  intro ⟨ok, fs⟩ ⟨t, hlinks, d⟩
  exact ends_pure (does_withFs h (.link (by rw [dir_eq hc]; exact hlinks)) rfl d)

theorem unlink_does (hfirst : s.tree.DotsFirst) (path : List UInt8) :
    Ends (s.withFs (unlinkPath io s.fs (s.cwd p) path)) (Does s p (.unlink path)) (NoTypeDangles s.tree) := by
  rw [hc]
  refine ends_bind (unlink_leaves (h.callFrom hroot hp hc) hfirst path) ?_
  intro ⟨ok, fs⟩ ⟨t, F, hun, d⟩
  rw [← dir_eq hc] at hun
  refine ends_pure ⟨h.withFs d, t, .unlink hun, ?_⟩
  rw [freed_unlink hun]
  exact d.tree

theorem open_does (path : List UInt8) (omode : Nat) (file : Option Nat) (hfile : ∀ f, file = some f → f < nfile) :
    Ends (s.openCall io p path omode file) (Does s p (.openPath path omode file)) (NoTypeDangles s.tree) := by
  unfold openCall
  rw [hc]
  refine ends_bind (openInode_leaves (h.callFrom hroot hp hc) path omode) ?_
  intro ⟨r, fs1⟩ ⟨t, d1, hcase, hnew⟩
  have hstep : NameStep s p (.openPath path omode file) t := by
    rcases hcase with hsame | ⟨hcreate, hcreates⟩
    · subst hsame
      exact .same fun path' he => (nomatch he)
    · exact .create ⟨rfl, rfl, hcreate⟩ (by rw [dir_eq hc]; exact hcreates)
  cases r with
  | none => exact ends_pure (does_withFs h hstep rfl d1)
  | some ip =>
  obtain ⟨hl, hmade⟩ := hnew ip rfl
  -- the file is not opened
  have hback : Ends (do
      let fs ← iput io fs1 (some ip)
      pure (false, { s with fs := fs })) (Does s p (.openPath path omode file)) (NoTypeDangles s.tree) :=
    ends_bind (iput_made h.coherent d1 hmade).dangles fun fs2 d2 => ends_pure (does_withFs h hstep rfl d2)
  cases file with
  | none => exact hback
  | some f =>
    refine ends_ite (fun _ => hback) fun hok => ?_
    have hnone : s.files f = none := by
      rw [not_or] at hok
      exact Option.not_isSome_iff_eq_none.mp hok.2
    have htrunc : Ends (if omode &&& oTrunc ≠ 0 ∧ (fs1.itable ip).info.type = tFile then itrunc io fs1 ip else pure fs1)
        (During fs1.refs fs1.tree fs1 0) (NoTypeDangles s.tree) := by
      refine ends_ite (fun ht => ?_) fun _ => ends_pure (d1.coherent.leaves.during rfl)
      refine (itrunc_leaves d1.coherent hl ?_).dangles
      rw [← hl.type d1.coherent.leaves, ht.2]
      decide
    refine ends_bind htrunc ?_
    intro fs2 h2
    have d2 : During s.fs.refs t s.fs (one ip) fs2 := by
      rw [d1.tree] at h2
      exact d1.next h2
    refine ends_pure ⟨h.of_leaves ⟨fs2, s.cwd, update s.files f (some ip)⟩ d2.toLeaves ?_ fun k hk => ?_, t, hstep, ?_⟩
    · show fs2.refs = holders { s with files := update s.files f (some ip) }
      rw [holders_files (hfile f rfl), hnone, d2.refs, h.refs]
      exact (congrArg (· + one ip) (sub_zero s.holders)).symm
    · rw [d2.refs] at hk
      rcases pos_add_one hk with hk | rfl
      · exact Or.inl ⟨hk, hk⟩
      · exact Or.inr (hl.during h2).valid
    · exact d2.tree.trans NameTree.freeAll_empty.symm

theorem chdir_does (path : List UInt8) :
    Ends (s.chdirCall io p path) (Does s p (.chdir path)) (NoTypeDangles s.tree) := by
  have hcall := h.callFrom hroot hp hc
  have hstep : NameStep s p (.chdir path) s.tree := .same fun path' he => (nomatch he)
  unfold chdirCall
  rw [hc]
  refine ends_bind (namei_walks path h.coherent hcall.root hcall.ref hcall.cwd) ?_
  intro ⟨r, fs1⟩ ⟨d1, hwalk, hnamed⟩
  rw [← dir_eq hc] at hwalk
  cases r with
  | none =>
    refine ends_pure (does_withFs h hstep ?_ d1)
    refine Set.eq_empty_iff_forall_notMem.mpr ?_
    rintro z ⟨w, hw, -⟩
    rw [tree, ← hwalk] at hw
    cases hw
  | some ip =>
  refine ends_bind (ilock_named d1.toLeaves (d1.pos_of_more h.coherent.nonneg (one_self_pos ip)) rfl (hnamed ip rfl)) ?_
  intro fs2 ⟨h2, hl2⟩
  have d2 : During s.fs.refs s.tree s.fs (one ip) fs2 := d1.next h2
  have hr2 := d2.refs
  have hnamei : s.tree.namei (s.dir p) path = some (fs1.itable ip).inum := hwalk.symm
  generalize (fs1.itable ip).inum = w at hl2 hnamei
  rw [hl2.type d2.toLeaves]
  refine ends_ite (fun hne => ?_) fun hdir => ?_
  · refine ends_bind (d2.giveBack_last h.coherent.pinned).dangles fun fs3 d3 => ends_pure (does_withFs h hstep ?_ d3)
    refine Set.eq_empty_iff_forall_notMem.mpr ?_
    rintro z ⟨w', hw', hdir', -⟩
    rw [hnamei] at hw'
    cases hw'
    exact hne hdir'
  · -- the reference to the old directory goes back
    have hc2 : 0 < fs2.refs c := d2.pos hcall.ref
    have hnum : (fs2.itable c).inum = (s.fs.itable c).inum := (d2.keep c hcall.ref).2.1
    refine ends_bind (iput_leaves d2.coherent hc2 hnum).dangles ?_
    intro fs3 ⟨h3, hr3⟩
    have hset : {z | z = (s.fs.itable c).inum ∧ fs2.refs c = 1 ∧ (fs2.itable c).valid = true ∧
        fs2.tree.nlink (s.fs.itable c).inum = 0} = s.freed p (.chdir path) := by
      rw [d2.tree]
      ext z
      constructor
      · rintro ⟨rfl, hone, -, hlink⟩
        have hne : c ≠ ip := by
          intro e
          have hpos := hcall.ref
          rw [hr2, e] at hone
          rw [e] at hpos
          simp only [Pi.add_apply, one, Pi.single_eq_same] at hone
          omega
        refine ⟨w, hnamei, not_not.mp hdir, fun e => hne ?_, c, hc, rfl, ?_, hlink⟩
        · exact d2.coherent.inj c ip hc2 hl2.ref (hnum.trans (e.symm.trans hl2.inum.symm))
        · rw [hr2] at hone
          simpa [one, hne] using hone
      · rintro ⟨w', hw', -, hne, j, hj, rfl, hone, hlink⟩
        rw [hc] at hj
        cases hj
        rw [hnamei] at hw'
        cases hw'
        have hne' : c ≠ ip := by
          intro e
          rw [← e] at hl2
          exact hne (hl2.inum.symm.trans hnum)
        refine ⟨rfl, ?_, ?_, hlink⟩
        · rw [hr2]
          simpa [one, hne'] using hone
        · obtain ⟨i, hi, hnum', hv⟩ := d2.coherent.anchored (s.fs.itable c).inum (by rw [d2.tree]; exact hcall.cwd)
            (by rw [d2.tree]; exact hlink)
          rwa [d2.coherent.inj i c hi hc2 (hnum'.trans hnum.symm)] at hv
    have hr3' : fs3.refs = s.fs.refs + one ip - one c := by rw [hr3, hr2]
    have h3' : Leaves (fun j => min (s.fs.refs j) (fs3.refs j)) (s.tree.freeAll (s.freed p (.chdir path))) s.fs fs3 := by
      rw [hset, d2.tree] at h3
      exact (d2.toLeaves.mono fun j hj => (lt_min_iff.mp hj).1).trans (h3.mono fun j hj => (lt_min_iff.mp hj).2)
    refine ends_pure ⟨h.of_leaves ⟨fs3, update s.cwd p (some ip), s.files⟩ h3' ?_ fun k hk => ?_, _, hstep, h3'.tree⟩
    · show fs3.refs = holders { s with cwd := update s.cwd p (some ip) }
      rw [holders_cwd hp, hc, hr3', h.refs]
      exact add_sub_right_comm s.holders (one ip) (one c)
    · by_cases hold : 0 < s.fs.refs k
      · exact Or.inl ⟨lt_min hold hk, hold⟩
      have hk2 : 0 < (s.fs.refs + one ip) k := by
        have hle := le_add_one fs3.refs c k
        rw [hr3', sub_add_cancel] at hle
        rw [hr3'] at hk
        exact hk.trans_le hle
      rcases pos_add_one hk2 with hold' | rfl
      · exact absurd hold' hold
      · exact Or.inr ((h3.keep k hk).2.2 hl2.valid)

omit hroot in
theorem fork_does {child : Nat} (hchild : child < nproc) :
    Ends (s.forkCall p child) (Does s p (.fork child)) (NoTypeDangles s.tree) := by
  have hstep : NameStep s p (.fork child) s.tree := .same fun path he => (nomatch he)
  unfold forkCall
  cases hfree : s.cwd child with
  | some _ => exact ends_pure ⟨h, s.tree, hstep, NameTree.freeAll_empty.symm⟩
  | none =>
    rw [hc]
    refine ends_bind (idup_leaves h.coherent (h.cwd_pos hp hc)).dangles ?_
    intro fs1 d1
    refine ends_pure ⟨h.of_leaves ⟨fs1, update s.cwd child (some c), s.files⟩ d1.toLeaves ?_ fun k hk => ?_, _, hstep,
      d1.tree.trans NameTree.freeAll_empty.symm⟩
    · show fs1.refs = holders { s with cwd := update s.cwd child (some c) }
      rw [holders_cwd hchild, hfree, d1.refs, h.refs]
      exact (congrArg (· + one c) (sub_zero s.holders)).symm
    · dsimp only at hk
      rw [d1.refs] at hk
      rcases pos_add_one hk with hk | rfl
      · exact Or.inl ⟨hk, hk⟩
      · exact Or.inl ⟨h.cwd_pos hp hc, h.cwd_pos hp hc⟩

end

theorem call_does (h : s.Rest) (hroot : s.tree.type rootIno ≠ 0) (hfirst : s.tree.DotsFirst) {c : NameCall} (hall : s.Allowed p c)
    (hwrap : s.NoWrap p c) : Ends (s.call io p c) (Does s p c) (NoTypeDangles s.tree) := by
  obtain ⟨hp, hcwd, hargs⟩ := hall
  obtain ⟨d, hd⟩ := Option.ne_none_iff_exists'.mp hcwd
  -- `close` and `exit` drop a reference
  have hdrop : ∀ (o : Option Nat) {j : Nat} (s' : Fs → NameSys), o = some j → 0 < s.fs.refs j → s.freed p c = {z | s.LastOf o z} →
      NameStep s p c s.tree → (∀ fs, (s' fs).fs = fs) → (∀ fs, (s' fs).holders = s.holders - one j) →
      Ends (do
        let fs ← iput io s.fs (some j)
        pure (true, s' fs)) (Does s p c) (NoTypeDangles s.tree) := by
    intro o j s' ho hj hfreed hstep hfs hholders
    refine ends_bind (h.drop hroot hj).dangles ?_
    intro fs1 ⟨h1, hr1⟩
    refine ends_pure ⟨h.of_leaves (s' fs1) (b := fs1.refs) (t := s.tree.freeAll {z | s.LastOf (some j) z}) ?_ ?_ ?_, _, hstep, ?_⟩
    · rw [hfs]
      exact h1
    · rw [hfs, hholders, hr1, h.refs]
    · intro k hk
      rw [hfs] at hk
      refine Or.inl ⟨hk, ?_⟩
      have hle := le_add_one fs1.refs j k
      rw [hr1, sub_add_cancel] at hle
      rw [hr1] at hk
      exact hk.trans_le hle
    · show (s' fs1).fs.tree = _
      rw [hfs, hfreed, ho]
      exact h1.tree
  cases c with
  | openPath path omode file =>
    refine open_does h hroot hp hd path omode file fun f hf => ?_
    subst hf
    exact hargs
  | close f =>
    rw [call]
    cases hf : s.files f with
    | none =>
      refine ends_pure ⟨h, s.tree, .same fun path he => (nomatch he), ?_⟩
      have hfreed : s.freed p (.close f) = ∅ := by
        refine Set.eq_empty_iff_forall_notMem.mpr ?_
        rintro z ⟨j, hj, -⟩
        rw [hf] at hj
        cases hj
      rw [hfreed, NameTree.freeAll_empty]
    | some j =>
      refine hdrop (s.files f) (fun fs => ⟨fs, s.cwd, update s.files f none⟩) hf (h.files_pos hargs hf) rfl
        (.same fun path he => (nomatch he)) (fun fs => rfl) fun fs => ?_
      show holders { s with files := update s.files f none } = _
      rw [holders_files hargs, hf]
      exact add_zero _
  | mkdir path =>
    have hmakes : (NameCall.mkdir path).Makes path tDir := ⟨rfl, rfl⟩
    exact makePath_does h hroot hp hd hmakes rfl (by decide) 0 0 fun _ => hwrap
  | mknod path major minor =>
    have hmakes : (NameCall.mknod path major minor).Makes path tDevice := ⟨rfl, rfl⟩
    exact makePath_does h hroot hp hd hmakes rfl (by decide) _ _ fun hdir => absurd hdir (by decide)
  | link old new => exact link_does h hroot hp hd hwrap
  | unlink path => exact unlink_does h hroot hp hd hfirst path
  | chdir path => exact chdir_does h hroot hp hd path
  | fork child => exact fork_does h hp hd hargs
  | exit =>
    rw [call, hd]
    refine hdrop (s.cwd p) (fun fs => ⟨fs, update s.cwd p none, s.files⟩) hd (h.cwd_pos hp hd) rfl
      (.same fun path he => (nomatch he)) (fun fs => rfl) fun fs => ?_
    show holders { s with cwd := update s.cwd p none } = _
    rw [holders_cwd hp, hd]
    exact add_zero _

end Calls

instance (s : NameSys) (p : Nat) (c : NameCall) : Decidable (s.Allowed p c) := by
  unfold Allowed
  cases c with
  | openPath path omode file =>
    cases file with
    | none => exact inferInstanceAs (Decidable (_ ∧ _ ∧ True))
    | some f => exact inferInstanceAs (Decidable (_ ∧ _ ∧ f < nfile))
  | close f => exact inferInstanceAs (Decidable (_ ∧ _ ∧ f < nfile))
  | fork child => exact inferInstanceAs (Decidable (_ ∧ _ ∧ child < nproc))
  | _ => exact inferInstanceAs (Decidable (_ ∧ _ ∧ True))

end NameSys

/-! ## Runs -/

/-- The states reached from `s₀` by calls with `P`, one after the other. -/
inductive NameRun (P : NameSys → Nat → NameCall → Prop) (s₀ : NameSys) : NameSys → Prop where
  | start : NameRun P s₀ s₀
  | call {s s' : NameSys} {p : Nat} {c : NameCall} {io ok : Bool} : NameRun P s₀ s → s.Allowed p c → P s p c →
      s.call io p c = .ok (ok, s') → NameRun P s₀ s'

section Runs

variable {P Q : NameSys → Nat → NameCall → Prop} {s₀ s : NameSys}

theorem NameRun.mono (h : NameRun P s₀ s) (hPQ : ∀ s p c, P s p c → Q s p c) : NameRun Q s₀ s := by
  induction h with
  | start => exact .start
  | call _ hall hP e ih => exact ih.call hall (hPQ _ _ _ hP) e

theorem NameRun.keeps {R : NameSys → Prop} (h : NameRun P s₀ s) (h0 : R s₀)
    (hstep : ∀ {s s' p c io ok}, R s → s.Allowed p c → P s p c → s.call io p c = .ok (ok, s') → R s') : R s := by
  induction h with
  | start => exact h0
  | call _ hall hP e ih => exact hstep ih hall hP e

/-- A list of calls run one after the other. -/
def runCalls (P : NameSys → Nat → NameCall → Prop) [∀ s p c, Decidable (P s p c)] (calls : List (Nat × NameCall)) (s : NameSys) :
    Option NameSys :=
  runSteps (fun s e => (s.call true e.1 e.2).map (·.2)) (fun s e => decide (s.Allowed e.1 e.2 ∧ P s e.1 e.2)) calls s

/-- A list of calls that return and are allowed is a run. -/
theorem nameRun_runCalls [∀ s p c, Decidable (P s p c)] {calls : List (Nat × NameCall)} {s : NameSys}
    (h : runCalls P calls s₀ = some s) : NameRun P s₀ s := by
  refine runSteps_keeps (R := NameRun P s₀) (fun s e s' hs hcheck he => ?_) calls .start h
  obtain ⟨hall, hP⟩ := of_decide_eq_true hcheck
  cases hcall : s.call true e.1 e.2 with
  | error _ =>
    rw [hcall] at he
    cases he
  | ok r =>
    rw [hcall] at he
    cases he
    exact hs.call hall hP hcall

end Runs

end Xv6Mmap

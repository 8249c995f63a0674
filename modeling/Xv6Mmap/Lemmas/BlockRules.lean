import Xv6Mmap.BlockCalls

/-!
# Rules for file-system code

What a call needs of the rules a process is to keep. The functions that touch buffers are the base (`FsKeeps`): once they come back to
the view they started from, so does everything built from them, up to the system calls. Views are `G` between calls, and `H` inside an
operation.
-/

namespace Xv6Mmap.Blk

/-- The actions on neither a buffer nor the log nor `p->lock`. -/
def Act.plain : Act → Bool
  | .bread _ | .bset _ _ | .bwrite _ | .brelse _ | .copyin _ _ _ _ => false
  | .beginOp | .logWrite _ | .endOp | .header | .commitDone | .commitCleared => false
  | .acquireP | .releaseP => false
  | _ => true

section Keeps

variable {γ α : Type} {R : Rules Act Act.Res γ} {G H : γ → Prop} {sb : Superblock}

/-- Plain actions leave the view where it is. -/
def PlainSteady (R : Rules Act Act.Res γ) (G : γ → Prop) : Prop := ∀ a : Act, a.plain = true → Steady R G a

theorem PlainSteady.bind (h : PlainSteady R G) {a : Act} {f : a.Res → Code α} (ha : a.plain = true) (hf : ∀ r, Keeps R G (f r)) :
    Keeps R G (act a >>= f) := keeps_bind (keeps_call (h a ha)) hf

/-- Code that ends in a panic never comes to its end. -/
theorem keeps_die (h : PlainSteady R G) (e : Panic) : Keeps R G (die e : Code α) :=
  fun g hg => ⟨(h (.panic e) rfl g hg).1, fun r => (r : Empty).elim⟩

theorem keeps_dieFs (h : PlainSteady R G) (e : FsPanic) : Keeps R G (dieFs e : Code α) :=
  fun g hg => ⟨(h (.fsPanic e) rfl g hg).1, fun r => (r : Empty).elim⟩

theorem keeps_hang (h : PlainSteady R G) : Keeps R G (.act .hang fun r : Empty => r.elim : Code α) :=
  fun g hg => ⟨(h .hang rfl g hg).1, fun r => (r : Empty).elim⟩

theorem iunlock_keeps (h : PlainSteady R G) (ip : Option Nat) : Keeps R G (iunlock ip) := by
  cases ip with
  | none => exact keeps_dieFs h _
  | some j =>
    refine h.bind rfl fun held => h.bind rfl fun ip => ?_
    exact keeps_ite (fun _ => keeps_dieFs h _) fun _ => keeps_call (h _ rfl)

theorem locked_keeps (h : PlainSteady R G) (ip : Option Nat) : Keeps R G (locked ip) := by
  cases ip with
  | none => exact keeps_die h _
  | some j => exact keeps_pure j

/-! ## The base -/

/-- The functions of `fs.c` that touch buffers keep the view. -/
structure FsKeeps (R : Rules Act Act.Res γ) (H : γ → Prop) (sb : Superblock) : Prop where
  plain : PlainSteady R H
  ialloc : ∀ dev type, Keeps R H (ialloc sb dev type)
  iupdate : ∀ j, Keeps R H (iupdate sb j)
  ilock : ∀ ip, Keeps R H (ilock sb ip)
  itrunc : ∀ j, Keeps R H (itrunc sb j)
  readi : ∀ j user off n, Keeps R H (readi sb j user off n)
  writei : ∀ j src off n, Keeps R H (writei sb j src off n)

namespace FsKeeps

variable (h : FsKeeps R H sb)

include h

theorem act (a : Act) (ha : a.plain = true) : Keeps R H (Blk.act a) := keeps_call (h.plain a ha)

theorem iput (ip : Option Nat) : Keeps R H (iput sb ip) := by
  cases ip with
  | none => exact keeps_die h.plain _
  | some j =>
    refine keeps_bind (h.act _ rfl) fun last => keeps_ite (fun _ => ?_) fun _ => keeps_pure ()
    refine keeps_bind (h.itrunc j) fun _ => h.plain.bind rfl fun ip => h.plain.bind rfl fun _ => ?_
    refine keeps_bind (h.iupdate j) fun _ => h.plain.bind rfl fun _ => h.plain.bind rfl fun _ => ?_
    exact h.act _ rfl

theorem iunlockput (ip : Option Nat) : Keeps R H (iunlockput sb ip) :=
  keeps_bind (iunlock_keeps h.plain ip) fun _ => h.iput ip

/-! ## Directories and paths -/

theorem readDirent (j off : Nat) : Keeps R H (readDirent sb j off) :=
  keeps_bind (h.readi j none off 16) fun _ => keeps_pure _

theorem dirScan (j dev : Nat) (name : List UInt8) (n off : Nat) : Keeps R H (dirScan sb j dev name n off) := by
  induction n generalizing off with
  | zero => exact keeps_pure none
  | succ n ih =>
    refine keeps_bind (h.readDirent j off) fun de => ?_
    cases de with
    | none => exact keeps_die h.plain _
    | some de =>
      refine keeps_ite (fun _ => ih (off + 16)) fun _ => keeps_ite (fun _ => ?_) fun _ => ih (off + 16)
      exact h.plain.bind rfl fun _ => keeps_pure _

theorem dirlookup (j : Nat) (name : List UInt8) : Keeps R H (dirlookup sb j name) :=
  h.plain.bind rfl fun dp => keeps_ite (fun _ => keeps_die h.plain _) fun _ => h.dirScan j dp.dev name _ 0

theorem dirFree (j n off : Nat) : Keeps R H (dirFree sb j n off) := by
  induction n generalizing off with
  | zero => exact keeps_pure off
  | succ n ih =>
    refine keeps_bind (h.readDirent j off) fun de => ?_
    cases de with
    | none => exact keeps_die h.plain _
    | some de => exact keeps_ite (fun _ => keeps_pure off) fun _ => ih (off + 16)

theorem dirlink (j : Nat) (name : List UInt8) (inum : Nat) : Keeps R H (dirlink sb j name inum) := by
  refine keeps_bind (h.dirlookup j name) fun found => ?_
  cases found with
  | some r => exact keeps_bind (h.iput _) fun _ => keeps_pure false
  | none =>
    refine h.plain.bind rfl fun dp => keeps_bind (h.dirFree j _ 0) fun off => keeps_bind (h.writei j _ off 16) fun r => ?_
    exact keeps_ite (fun _ => keeps_pure true) fun _ => keeps_die h.plain _

theorem namexLoop (parent : Bool) (n ip : Nat) (path : List UInt8) : Keeps R H (namexLoop sb parent n ip path) := by
  induction n generalizing ip path with
  | zero => exact keeps_die h.plain _
  | succ n ih =>
    unfold Blk.namexLoop
    split
    · exact keeps_ite (fun _ => keeps_bind (h.iput _) fun _ => keeps_pure none) fun _ => keeps_pure _
    refine keeps_bind (h.ilock _) fun _ => h.plain.bind rfl fun i => keeps_ite (fun _ => ?_) fun _ => ?_
    · exact keeps_bind (h.iunlockput _) fun _ => keeps_pure none
    refine keeps_ite (fun _ => ?_) fun _ => keeps_bind (h.dirlookup ip _) fun next => ?_
    · exact keeps_bind (iunlock_keeps h.plain _) fun _ => keeps_pure _
    cases next with
    | none => exact keeps_bind (h.iunlockput _) fun _ => keeps_pure none
    | some r => exact keeps_bind (h.iunlockput _) fun _ => ih r.1 _

theorem namex (parent : Bool) (path : List UInt8) : Keeps R H (namex sb parent path) := by
  refine keeps_ite (fun _ => ?_) fun _ => ?_
  · exact h.plain.bind rfl fun ip => h.namexLoop parent _ ip path
  · refine h.plain.bind rfl fun cwd => ?_
    match cwd with
    | none => exact keeps_die h.plain _
    | some ip => exact h.plain.bind rfl fun _ => h.namexLoop parent _ ip path

theorem namei (path : List UInt8) : Keeps R H (namei sb path) := keeps_bind (h.namex false path) fun _ => keeps_pure _

theorem nameiparent (path : List UInt8) : Keeps R H (nameiparent sb path) := h.namex true path

/-! ## What system calls do in an operation -/

theorem linkBad (j : Nat) : Keeps R H (linkBad sb j) :=
  keeps_bind (h.ilock _) fun _ => h.plain.bind rfl fun _ => h.plain.bind rfl fun _ =>
    keeps_bind (h.iupdate j) fun _ => h.iunlockput _

theorem linkNew (new : List UInt8) (j : Nat) : Keeps R H (linkNew sb new j) := by
  refine keeps_bind (h.nameiparent new) fun r => ?_
  cases r with
  | none => exact h.linkBad j
  | some r =>
    refine keeps_bind (h.ilock _) fun _ => h.plain.bind rfl fun dp => h.plain.bind rfl fun ip => ?_
    refine keeps_bind (keeps_ite (fun _ => keeps_pure false) fun _ => h.dirlink _ _ _) fun ok => ?_
    exact keeps_bind (h.iunlockput _) fun _ => keeps_ite (fun _ => h.iput _) fun _ => h.linkBad j

theorem isdirempty (j : Nat) : Keeps R H (isdirempty sb j) := by
  have hloop : ∀ n off, Keeps R H (isdiremptyLoop sb j n off) := by
    intro n
    induction n with
    | zero => exact fun _ => keeps_pure true
    | succ n ih =>
      intro off
      refine keeps_bind (h.readDirent j off) fun de => ?_
      cases de with
      | none => exact keeps_dieFs h.plain _
      | some de => exact keeps_ite (fun _ => keeps_pure false) fun _ => ih (off + 16)
  exact h.plain.bind rfl fun dp => hloop _ 32

theorem unlinkEntry (d j off : Nat) : Keeps R H (unlinkEntry sb d j off) := by
  refine keeps_bind (h.ilock _) fun _ => h.plain.bind rfl fun ip => keeps_ite (fun _ => keeps_dieFs h.plain _) fun _ => ?_
  refine keeps_bind (keeps_ite (fun _ => h.isdirempty j) fun _ => keeps_pure true) fun empty => keeps_ite (fun _ => ?_) fun _ => ?_
  · exact keeps_bind (h.iunlockput _) fun _ => h.iunlockput _
  refine keeps_bind (h.writei d _ off 16) fun r => keeps_ite (fun _ => keeps_dieFs h.plain _) fun _ => ?_
  refine keeps_bind (keeps_ite (fun _ => ?_) fun _ => keeps_pure ()) fun _ => ?_
  · exact h.plain.bind rfl fun dp => h.plain.bind rfl fun _ => h.iupdate d
  refine keeps_bind (h.iunlockput _) fun _ => h.plain.bind rfl fun ip => h.plain.bind rfl fun _ => ?_
  exact keeps_bind (h.iupdate j) fun _ => h.iunlockput _

theorem createNew (d : Nat) (name : List UInt8) (type : Nat) (major minor : Int) :
    Keeps R H (createNew sb d name type major minor) := by
  have hdots : ∀ j, Keeps R H (createDots sb j d) := by
    intro j
    refine h.plain.bind rfl fun dp => h.plain.bind rfl fun _ => keeps_bind (h.iupdate d) fun _ => ?_
    refine h.plain.bind rfl fun ip => keeps_bind (h.dirlink j _ _) fun ok => ?_
    refine keeps_ite (fun _ => keeps_die h.plain _) fun _ => keeps_bind (h.dirlink j _ _) fun ok => ?_
    exact keeps_ite (fun _ => keeps_die h.plain _) fun _ => keeps_pure ()
  refine h.plain.bind rfl fun dp => keeps_bind (h.ialloc _ type) fun j => keeps_bind (h.ilock _) fun _ => ?_
  refine h.plain.bind rfl fun ip => h.plain.bind rfl fun _ => keeps_bind (h.iupdate j) fun _ => ?_
  refine keeps_bind (keeps_ite (fun _ => hdots j) fun _ => keeps_pure ()) fun _ => keeps_bind (h.dirlink d name _) fun ok => ?_
  exact keeps_ite (fun _ => keeps_die h.plain _) fun _ => keeps_bind (h.iunlockput _) fun _ => keeps_pure j

theorem create (path : List UInt8) (type : Nat) (major minor : Int) : Keeps R H (create sb path type major minor) := by
  refine keeps_bind (h.nameiparent path) fun r => ?_
  cases r with
  | none => exact keeps_pure none
  | some r =>
    refine keeps_bind (h.ilock _) fun _ => keeps_bind (h.dirlookup _ _) fun found => ?_
    cases found with
    | some q =>
      refine keeps_bind (h.iunlockput _) fun _ => keeps_bind (h.ilock _) fun _ => h.plain.bind rfl fun ip => ?_
      exact keeps_ite (fun _ => keeps_pure _) fun _ => keeps_bind (h.iunlockput _) fun _ => keeps_pure none
    | none => exact keeps_bind (h.createNew _ _ type major minor) fun j => keeps_pure _

theorem openInode (path : List UInt8) (omode : Nat) : Keeps R H (openInode sb path omode) := by
  refine keeps_ite (fun _ => h.create path tFile 0 0) fun _ => keeps_bind (h.namei path) fun r => ?_
  cases r with
  | none => exact keeps_pure none
  | some j =>
    refine keeps_bind (h.ilock _) fun _ => h.plain.bind rfl fun ip => keeps_ite (fun _ => ?_) fun _ => keeps_pure _
    exact keeps_bind (h.iunlockput _) fun _ => keeps_pure none

theorem chdirInode (path : List UInt8) : Keeps R H (chdirInode sb path) := by
  refine keeps_bind (h.namei path) fun r => ?_
  cases r with
  | none => exact keeps_pure none
  | some j =>
    refine keeps_bind (h.ilock _) fun _ => h.plain.bind rfl fun ip => keeps_ite (fun _ => ?_) fun _ => ?_
    · exact keeps_bind (h.iunlockput _) fun _ => keeps_pure none
    · exact keeps_bind (iunlock_keeps h.plain _) fun _ => h.plain.bind rfl fun cwd =>
        keeps_bind (h.iput cwd) fun _ => keeps_pure _

theorem loadseg (j offset sz n i : Nat) : Keeps R H (loadseg sb j offset sz n i) := by
  induction n generalizing i with
  | zero => exact keeps_pure true
  | succ n ih =>
    refine keeps_bind (h.readi j none _ _) fun r => ?_
    exact keeps_ite (fun _ => ih (i + pgSize)) fun _ => keeps_pure false

theorem execLoad (j n off : Nat) : Keeps R H (execLoad sb j n off) := by
  induction n generalizing off with
  | zero => exact keeps_pure ()
  | succ n ih =>
    refine keeps_bind (h.readi j none _ 56) fun r => ?_
    obtain ⟨r, ph⟩ := r
    dsimp only
    -- the fields of the header are only compared
    generalize leField ph 0 4 = type, leField ph 8 8 = offset, leField ph 16 8 = vaddr, leField ph 32 8 = filesz,
      leField ph 40 8 = memsz
    refine keeps_ite (fun _ => keeps_pure ()) fun _ => ?_
    refine keeps_ite (fun _ => ih (off + 56)) fun _ => ?_
    refine keeps_ite (fun _ => keeps_pure ()) fun _ => ?_
    refine keeps_ite (fun _ => keeps_pure ()) fun _ => ?_
    refine h.plain.bind rfl fun ok => ?_
    refine keeps_ite (fun _ => keeps_pure ()) fun _ => ?_
    refine keeps_ite (fun _ => keeps_pure ()) fun _ => ?_
    refine keeps_bind (h.loadseg j _ _ _ 0) fun ok => ?_
    exact keeps_ite (fun _ => ih (off + 56)) fun _ => keeps_pure ()

theorem execRead (path : List UInt8) : Keeps R H (execRead sb path) := by
  refine keeps_bind (h.namei path) fun r => ?_
  cases r with
  | none => exact keeps_pure ()
  | some j =>
    refine keeps_bind (h.ilock _) fun _ => keeps_bind (h.readi j none 0 64) fun r => keeps_bind ?_ fun _ => h.iunlockput _
    refine keeps_ite (fun _ => keeps_pure ()) fun _ => keeps_bind (h.act _ rfl) fun ok => ?_
    exact keeps_ite (fun _ => h.execLoad j _ _) fun _ => keeps_pure ()

end FsKeeps

/-! ## System calls -/

/-- What the system calls need, with views `G` between calls and `H` in an operation: the base there; operations; reading a file
outside of one; and the calls that take `p->lock`. -/
structure CallKeeps (R : Rules Act Act.Res γ) (G H : γ → Prop) (sb : Superblock) : Prop where
  fs : FsKeeps R H sb
  inner : ∀ g, H g → G g
  plain : PlainSteady R G
  transaction : ∀ {α : Type} (p : Code α), Keeps R H p → Keeps R G (transaction sb p)
  ilock : ∀ ip, Keeps R G (ilock sb ip)
  readi : ∀ j user off n, Keeps R G (readi sb j user off n)
  munmap : ∀ start length, Keeps R G (munmap sb start length)
  mmap : ∀ length, Keeps R G (mmap length)
  ownLock : Keeps R G (act .acquireP >>= fun _ => act .releaseP)

theorem fileclose_keeps (hp : PlainSteady R G) (ht : ∀ ip, Keeps R G (transaction sb (iput sb ip))) (f : Nat) :
    Keeps R G (fileclose sb f) := by
  refine hp.bind rfl fun last => ?_
  match last with
  | none => exact keeps_pure ()
  | some ff =>
    dsimp only
    cases ff.type with
    | none => exact keeps_pure ()
    | pipe => exact keeps_call (hp _ rfl)
    | inode | device => exact ht ff.ip

theorem closeFiles_keeps (hp : PlainSteady R G) (ht : ∀ ip, Keeps R G (transaction sb (iput sb ip))) (n fd : Nat) :
    Keeps R G (closeFiles sb n fd) := by
  induction n generalizing fd with
  | zero => exact keeps_pure ()
  | succ n ih =>
    refine hp.bind rfl fun f => ?_
    match f with
    | none => exact ih (fd + 1)
    | some f =>
      exact keeps_bind (fileclose_keeps hp ht f) fun _ => hp.bind rfl fun _ => ih (fd + 1)

namespace CallKeeps

variable (h : CallKeeps R G H sb)

include h

theorem act (a : Act) (ha : a.plain = true) : Keeps R G (Blk.act a) := keeps_call (h.plain a ha)

theorem fileclose (f : Nat) : Keeps R G (fileclose sb f) :=
  fileclose_keeps h.plain (fun ip => h.transaction _ (h.fs.iput ip)) f

theorem filestat (f dst : Nat) : Keeps R G (filestat sb f dst) := by
  refine h.plain.bind rfl fun file => keeps_ite (fun _ => ?_) fun _ => keeps_pure ()
  refine keeps_bind (h.ilock _) fun _ => keeps_bind (locked_keeps h.plain _) fun j => h.plain.bind rfl fun ip => ?_
  exact keeps_bind (iunlock_keeps h.plain _) fun _ => h.plain.bind rfl fun _ => keeps_pure ()

theorem device (major : Int) : Keeps R G (if major < 0 ∨ (ndev : Int) ≤ major then pure () else Blk.act .device : Code Unit) :=
  keeps_ite (fun _ => keeps_pure ()) fun _ => h.act _ rfl

theorem fileread (f dst : Nat) (n : Int) : Keeps R G (fileread sb f dst n) := by
  refine h.plain.bind rfl fun (file : File) => keeps_ite (fun _ => keeps_pure ()) fun _ => ?_
  cases file.type with
  | pipe => exact h.act _ rfl
  | device => exact h.device file.major
  | none => exact keeps_dieFs h.plain _
  | inode =>
    refine keeps_bind (h.ilock _) fun _ => keeps_bind (locked_keeps h.plain _) fun j => h.plain.bind rfl fun now => ?_
    refine keeps_bind (h.readi j _ _ _) fun r => keeps_bind ?_ fun _ => iunlock_keeps h.plain _
    exact keeps_ite (fun _ => h.act _ rfl) fun _ => keeps_pure ()

theorem writeChunk (f src : Nat) (ip : Option Nat) (n : Nat) : Keeps R G (writeChunk sb f src ip n) := by
  refine h.transaction _ ?_
  refine keeps_bind (h.fs.ilock _) fun _ => keeps_bind (locked_keeps h.fs.plain _) fun j => h.fs.plain.bind rfl fun now => ?_
  refine keeps_bind (h.fs.writei j _ _ n) fun r => keeps_bind (keeps_ite (fun _ => h.fs.act _ rfl) fun _ => keeps_pure ()) fun _ => ?_
  exact keeps_bind (iunlock_keeps h.fs.plain _) fun _ => keeps_pure r

theorem filewrite (f src : Nat) (n : Int) : Keeps R G (filewrite sb f src n) := by
  have hloop : ∀ (ip : Option Nat) m fuel i, Keeps R G (filewriteLoop sb f src ip m fuel i) := by
    intro ip m fuel
    induction fuel with
    | zero => exact fun _ => keeps_pure ()
    | succ fuel ih =>
      intro i
      refine keeps_ite (fun _ => keeps_pure ()) fun _ => keeps_bind (h.writeChunk f _ ip _) fun r => ?_
      exact keeps_ite (fun _ => ih _) fun _ => keeps_pure ()
  refine h.plain.bind rfl fun (file : File) => keeps_ite (fun _ => keeps_pure ()) fun _ => ?_
  cases file.type with
  | pipe => exact h.act _ rfl
  | device => exact h.device file.major
  | none => exact keeps_dieFs h.plain _
  | inode => exact hloop file.ip _ _ 0

theorem sysLink (old new : List UInt8) : Keeps R G (sysLink sb old new) := by
  refine h.transaction _ (keeps_bind (h.fs.namei old) fun r => ?_)
  cases r with
  | none => exact keeps_pure ()
  | some j =>
    refine keeps_bind (h.fs.ilock _) fun _ => h.fs.plain.bind rfl fun ip => keeps_ite (fun _ => h.fs.iunlockput _) fun _ => ?_
    exact h.fs.plain.bind rfl fun _ => keeps_bind (h.fs.iupdate j) fun _ =>
      keeps_bind (iunlock_keeps h.fs.plain _) fun _ => h.fs.linkNew new j

theorem sysUnlink (path : List UInt8) : Keeps R G (sysUnlink sb path) := by
  refine h.transaction _ (keeps_bind (h.fs.nameiparent path) fun r => ?_)
  cases r with
  | none => exact keeps_pure ()
  | some r =>
    refine keeps_bind (h.fs.ilock _) fun _ => keeps_ite (fun _ => h.fs.iunlockput _) fun _ => ?_
    refine keeps_bind (h.fs.dirlookup _ _) fun found => ?_
    cases found with
    | none => exact h.fs.iunlockput _
    | some q => exact h.fs.unlinkEntry _ _ _

theorem openFd (j omode : Nat) : Keeps R H (openFd sb j omode) := by
  refine h.fs.plain.bind rfl fun ip => keeps_ite (fun _ => h.fs.iunlockput _) fun _ => ?_
  refine h.fs.plain.bind rfl fun f => ?_
  match f with
  | none => exact h.fs.iunlockput _
  | some f =>
    refine h.fs.plain.bind rfl fun fd => ?_
    match fd with
    | none => exact keeps_bind ((h.fileclose f).weaken h.inner) fun _ => h.fs.iunlockput _
    | some fd =>
      refine h.fs.plain.bind rfl fun file => h.fs.plain.bind rfl fun _ => ?_
      exact keeps_bind (keeps_ite (fun _ => h.fs.itrunc j) fun _ => keeps_pure ()) fun _ => iunlock_keeps h.fs.plain _

theorem sysOpen (path : List UInt8) (omode : Nat) : Keeps R G (sysOpen sb path omode) := by
  refine h.transaction _ (keeps_bind (h.fs.openInode path omode) fun r => ?_)
  cases r with
  | none => exact keeps_pure ()
  | some j => exact h.openFd j omode

theorem sysMake (path : Option (List UInt8)) (type : Nat) (major minor : Int) : Keeps R G (sysMake sb path type major minor) := by
  refine h.transaction _ ?_
  cases path with
  | none => exact keeps_pure ()
  | some path =>
    refine keeps_bind (h.fs.create path type major minor) fun r => ?_
    cases r with
    | none => exact keeps_pure ()
    | some j => exact h.fs.iunlockput _

theorem sysChdir (path : Option (List UInt8)) : Keeps R G (sysChdir sb path) := by
  refine keeps_bind (h.transaction _ ?_) fun r => ?_
  · cases path with
    | none => exact keeps_pure none
    | some path => exact h.fs.chdirInode path
  · cases r with
    | none => exact keeps_pure ()
    | some j => exact h.act _ rfl

theorem exit (n : Nat) : Keeps R G (exit sb n) := by
  have hloop : ∀ n, Keeps R G (exitUnmap sb n) := by
    intro n
    induction n with
    | zero => exact keeps_hang h.plain
    | succ n ih =>
      refine h.plain.bind rfl fun head => ?_
      match head with
      | none => exact keeps_pure ()
      | some (start, length) => exact keeps_bind (h.munmap start length) fun _ => ih
  refine keeps_bind (h.act _ rfl) fun init => keeps_ite (fun _ => keeps_die h.plain _) fun _ => ?_
  refine keeps_bind (closeFiles_keeps h.plain (fun ip => h.transaction _ (h.fs.iput ip)) _ 0) fun _ => keeps_bind (hloop n) fun _ => ?_
  refine keeps_bind (h.transaction _ (h.fs.plain.bind rfl fun cwd => h.fs.iput cwd)) fun _ => ?_
  exact h.plain.bind rfl fun _ => h.plain.bind rfl fun _ => h.ownLock

theorem pageFault (va n : Nat) : Keeps R G (pageFault sb va n) := by
  refine h.plain.bind rfl fun found => ?_
  match found with
  | none => exact h.exit n
  | some a =>
    refine h.plain.bind rfl fun ok => keeps_ite (fun _ => h.exit n) fun _ => h.plain.bind rfl fun r => ?_
    refine keeps_bind (h.ilock _) fun _ => keeps_bind (locked_keeps h.plain _) fun j => keeps_bind (h.readi j _ _ _) fun _ => ?_
    refine keeps_bind (iunlock_keeps h.plain _) fun _ => keeps_bind (h.act _ rfl) fun killed => ?_
    exact keeps_ite (fun _ => h.exit n) fun _ => keeps_pure ()

/-- Every call comes back to the view it started from. -/
theorem prog (c : Call) : Keeps R G (c.prog sb) := by
  cases c with
  | read f dst n => exact h.fileread f dst n
  | write f src n => exact h.filewrite f src n
  | close fd =>
    refine h.plain.bind rfl fun f => ?_
    match f with
    | none => exact keeps_pure ()
    | some f => exact h.plain.bind rfl fun _ => h.fileclose f
  | fstat f dst => exact h.filestat f dst
  | link old new => exact h.sysLink old new
  | unlink path => exact h.sysUnlink path
  | openPath path omode => exact h.sysOpen path omode
  | mkdir path | mknod path major minor => exact h.sysMake path _ _ _
  | chdir path => exact h.sysChdir path
  | exec path => exact h.transaction _ (h.fs.execRead path)
  | mmap length => exact h.mmap length
  | munmap start length => exact h.transaction _ ((h.munmap start length).weaken h.inner)
  | fault va n => exact h.pageFault va n
  | exit n => exact h.exit n

end CallKeeps

/-! ## Code that holds a buffer -/

/-- A locked buffer: the content on the disk or logged, what it holds now, and whether the log pins its block. -/
structure Held where
  synced : Bytes
  cur : Bytes
  pinned : Bool

/-- A `copyin` that failed after it had changed some bytes. -/
def torn (n : Nat) (buf : Bytes) (r : Bool × Bytes) : Bool := !r.1 && !decide (∀ x < n, r.2 x = buf x)

/-- The rules of reading buffers. `U b x p`: the program `p` keeps the rules while it holds block `b` with `x`, and releases it. -/
structure Reads (R : Rules Act Act.Res γ) (G : γ → Prop) (U : {α : Type} → Nat → Held → Code α → Prop) : Prop where
  plain : PlainSteady R G
  bread : ∀ {α : Type} {b : Nat} {f : Bytes → Code α}, (∀ d, U b ⟨d, d, false⟩ (f d)) → Keeps R G (bread b >>= f)
  brelse : ∀ {α : Type} {b : Nat} {x : Held} {p : Code α}, x.synced = x.cur ∨ x.pinned = true → Keeps R G p →
    U b x (brelse b >>= fun _ => p)
  dieFs : ∀ {α : Type} {b : Nat} {x : Held} {e : FsPanic}, U b x (dieFs e : Code α)
  bind : ∀ {α β : Type} {b : Nat} {x : Held} {q : Code β} {f : β → Code α}, x.pinned = false → Keeps R G q → (∀ r, U b x (f r)) →
    U b x (q >>= f)

/-- The rules of changing them: what is released has to be logged, or pinned. -/
structure Writes (R : Rules Act Act.Res γ) (G : γ → Prop) (U : {α : Type} → Nat → Held → Code α → Prop) : Prop
    extends Reads R G U where
  bset : ∀ {α : Type} {b : Nat} {x : Held} {d : Bytes} {p : Code α}, U b { x with cur := d } p → U b x (bset b d >>= fun _ => p)
  logWrite : ∀ {α : Type} {b : Nat} {x : Held} {p : Code α}, U b { x with synced := x.cur } p → U b x (logWrite b >>= fun _ => p)
  copyin : ∀ {α : Type} {b src n : Nat} {buf : Bytes} {x : Held} {f : Bool × Bytes → Code α},
    (∀ r, U b { x with pinned := x.pinned || torn n buf r } (f r)) → U b x (act (.copyin b src buf n) >>= f)

section Reads

variable {U : {α : Type} → Nat → Held → Code α → Prop}

theorem Reads.call (h : Reads R G U) {b : Nat} {x : Held} {a : Act} {f : a.Res → Code α} (hx : x.pinned = false)
    (ha : a.plain = true) (hf : ∀ r, U b x (f r)) : U b x (act a >>= f) :=
  h.bind hx (keeps_call (h.plain a ha)) hf

theorem ilock_keeps (h : Reads R G U) (ip : Option Nat) : Keeps R G (ilock sb ip) := by
  cases ip with
  | none => exact keeps_die h.plain _
  | some j =>
    refine h.plain.bind rfl fun ip => keeps_ite (fun _ => keeps_die h.plain _) fun _ => ?_
    refine h.plain.bind rfl fun _ => h.plain.bind rfl fun ip => ?_
    refine keeps_ite (fun _ => keeps_pure ()) fun _ => h.bread fun d => h.call rfl rfl fun _ => h.call rfl rfl fun _ => ?_
    refine h.brelse (Or.inl rfl) (h.plain.bind rfl fun _ => ?_)
    exact keeps_ite (fun _ => keeps_die h.plain _) fun _ => keeps_pure ()

theorem eitherCopyout_keeps (h : PlainSteady R G) (user : Option Nat) (buf : Bytes) (tot : Nat) (src : Bytes) (m : Nat) :
    Keeps R G (eitherCopyout user buf tot src m) := by
  cases user with
  | none => exact keeps_pure _
  | some dst => exact h.bind rfl fun ok => keeps_pure _

theorem readi_keeps (h : Reads R G U) (hb : ∀ j bn, Keeps R G (bmap sb j bn)) (j : Nat) (user : Option Nat) (off n : Nat) :
    Keeps R G (readi sb j user off n) := by
  have hloop : ∀ n fuel buf tot off, Keeps R G (readiLoop sb j user n fuel buf tot off) := by
    intro n fuel
    induction fuel with
    | zero => exact fun buf tot off => keeps_pure _
    | succ fuel ih =>
      intro buf tot off
      refine keeps_ite (fun _ => keeps_pure _) fun _ => keeps_bind (hb j _) fun b => h.bread fun d => ?_
      refine h.bind rfl (eitherCopyout_keeps h.plain _ _ _ _ _) fun r => h.brelse (Or.inl rfl) ?_
      exact keeps_ite (fun _ => ih _ _ _) fun _ => keeps_pure _
  refine h.plain.bind rfl fun ip => ?_
  exact keeps_ite (fun _ => keeps_pure _) fun _ => hloop _ _ _ 0 off

end Reads

theorem patched_copy {d buf : Bytes} {o m : Nat} (hbuf : ∀ x < m, buf x = d (o + x)) : patched d o m buf = d := by
  funext x
  unfold patched
  split
  · rename_i hx
    rw [hbuf _ (by omega), Nat.add_sub_cancel' hx.1]
  · rfl

namespace Writes

variable {U : {α : Type} → Nat → Held → Code α → Prop} (h : Writes R H U)

include h

theorem logged {b : Nat} {x : Held} {p : Code α} (hp : Keeps R H p) : U b x (Blk.logWrite b >>= fun _ => Blk.brelse b >>= fun _ => p) :=
  h.logWrite (h.brelse (Or.inl rfl) hp)

theorem update {b : Nat} {x : Held} (d : Bytes) {p : Code α} (hp : Keeps R H p) :
    U b x (Blk.bset b d >>= fun _ => Blk.logWrite b >>= fun _ => Blk.brelse b >>= fun _ => p) :=
  h.bset (h.logged hp)

theorem bzero (b : Nat) : Keeps R H (bzero b) := h.bread fun _ => h.update _ (keeps_pure ())

theorem balloc : Keeps R H (balloc sb) := by
  have hloop : ∀ n b, Keeps R H (ballocLoop sb n b) := by
    intro n
    induction n with
    | zero => exact fun _ => keeps_dieFs h.plain _
    | succ n ih =>
      intro b
      refine h.bread fun d => ?_
      split
      · exact h.update _ (keeps_bind (h.bzero _) fun _ => keeps_pure _)
      · exact h.brelse (Or.inl rfl) (ih _)
  exact hloop _ 0

theorem bfree (b : Nat) : Keeps R H (bfree sb b) := by
  refine h.bread fun d => ?_
  split
  · exact h.dieFs
  · exact h.update _ (keeps_pure ())

theorem ialloc (dev type : Nat) : Keeps R H (ialloc sb dev type) := by
  have hloop : ∀ n inum, Keeps R H (iallocLoop sb dev type n inum) := by
    intro n
    induction n with
    | zero => exact fun _ => keeps_die h.plain _
    | succ n ih =>
      intro inum
      refine h.bread fun d => ?_
      split
      · exact h.update _ (keeps_call (h.plain _ rfl))
      · exact h.brelse (Or.inl rfl) (ih _)
  exact hloop _ 1

theorem iupdate (j : Nat) : Keeps R H (iupdate sb j) :=
  h.plain.bind rfl fun _ => h.bread fun _ => h.update _ (keeps_pure ())

theorem bmap (j bn : Nat) : Keeps R H (bmap sb j bn) := by
  refine keeps_ite (fun _ => ?_) fun _ => keeps_ite (fun _ => ?_) fun _ => keeps_dieFs h.plain _
  · refine keeps_bind (keeps_call (h.plain _ rfl)) fun a => keeps_ite (fun _ => ?_) fun _ => keeps_pure _
    exact keeps_bind h.balloc fun a => h.plain.bind rfl fun _ => keeps_pure a
  refine keeps_bind (keeps_call (h.plain _ rfl)) fun a => keeps_bind (keeps_ite (fun _ => ?_) fun _ => keeps_pure _) fun a => ?_
  · exact keeps_bind h.balloc fun a => h.plain.bind rfl fun _ => keeps_pure a
  refine h.bread fun d => h.call rfl rfl fun e => ?_
  -- the indirect block is logged before it is released, if an entry was added
  split
  · simp only [bind_assoc, pure_bind]
    exact h.bind rfl h.balloc fun e => h.update _ (keeps_pure e)
  · exact h.brelse (Or.inl rfl) (keeps_pure _)

theorem writei (j : Nat) (src : Source) (off n : Nat) : Keeps R H (writei sb j src off n) := by
  have hloop : ∀ fuel tot off, Keeps R H (writeiLoop sb j src n fuel tot off) := by
    intro fuel
    induction fuel with
    | zero => exact fun tot off => keeps_pure _
    | succ fuel ih =>
      intro tot off
      refine keeps_ite (fun _ => keeps_pure _) fun _ => keeps_bind (h.bmap j _) fun b => h.bread fun d => ?_
      cases src with
      | kernel bytes => exact h.update _ (ih _ _)
      | user src =>
        refine h.copyin fun r => h.bset ?_
        obtain ⟨ok, buf⟩ := r
        cases ok with
        | true => exact h.logged (ih _ _)
        | false =>
          -- a failed copy leaves the buffer as it was, or it is torn
          refine h.brelse ?_ (keeps_pure _)
          by_cases hb : ∀ x < min (n - tot) (bsize - off % bsize), buf x = d (off % bsize + x)
          · exact Or.inl (patched_copy hb).symm
          · exact Or.inr (by simp only [torn, decide_eq_false hb, Bool.not_false, Bool.and_true, Bool.or_true])
  refine h.plain.bind rfl fun may => keeps_ite (fun _ => keeps_pure _) fun _ => ?_
  refine keeps_bind (hloop n 0 off) fun r => h.plain.bind rfl fun ip => ?_
  refine keeps_bind (keeps_ite (fun _ => keeps_call (h.plain _ rfl)) fun _ => keeps_pure ()) fun _ => ?_
  exact keeps_bind (h.iupdate j) fun _ => keeps_pure _

theorem itrunc (j : Nat) : Keeps R H (itrunc sb j) := by
  have hdirect : ∀ n bn, Keeps R H (truncDirect sb j n bn) := by
    intro n
    induction n with
    | zero => exact fun _ => keeps_pure ()
    | succ n ih =>
      intro bn
      refine h.plain.bind rfl fun ip => keeps_ite (fun _ => ih _) fun _ => ?_
      exact keeps_bind (h.bfree _) fun _ => h.plain.bind rfl fun _ => ih _
  have hindirect : ∀ d n bn, Keeps R H (truncIndirect sb d n bn) := by
    intro d n
    induction n with
    | zero => exact fun _ => keeps_pure ()
    | succ n ih =>
      intro bn
      exact keeps_ite (fun _ => ih _) fun _ => keeps_bind (h.bfree _) fun _ => ih _
  refine keeps_bind (hdirect _ 0) fun _ => h.plain.bind rfl fun ip => ?_
  refine keeps_bind (keeps_ite (fun _ => keeps_pure ()) fun _ => ?_) fun _ => ?_
  · refine h.bread fun d => h.bind rfl (hindirect d _ 0) fun _ => h.brelse (Or.inl rfl) ?_
    exact keeps_bind (h.bfree _) fun _ => keeps_call (h.plain _ rfl)
  · exact h.plain.bind rfl fun ip => h.plain.bind rfl fun _ => h.iupdate j

theorem fsKeeps : FsKeeps R H sb where
  plain := h.plain
  ialloc := h.ialloc
  iupdate := h.iupdate
  ilock := ilock_keeps h.toReads
  itrunc := h.itrunc
  readi := readi_keeps h.toReads h.bmap
  writei := h.writei

end Writes

/-! ### Rules without buffers -/

/-- Rules under which actions on buffers leave the view alone. -/
structure ReadSteady (R : Rules Act Act.Res γ) (G : γ → Prop) : Prop where
  plain : PlainSteady R G
  bread : ∀ b, Steady R G (.bread b)
  brelse : ∀ b, Steady R G (.brelse b)

structure WriteSteady (R : Rules Act Act.Res γ) (G : γ → Prop) : Prop extends ReadSteady R G where
  bset : ∀ b d, Steady R G (.bset b d)
  logWrite : ∀ b, Steady R G (.logWrite b)
  copyin : ∀ b src buf n, Steady R G (.copyin b src buf n)

theorem ReadSteady.reads (h : ReadSteady R G) : Reads R G fun _ _ p => Keeps R G p where
  plain := h.plain
  bread := keeps_bind (keeps_call (h.bread _))
  brelse := fun _ hp => keeps_bind (keeps_call (h.brelse _)) fun _ => hp
  dieFs := keeps_dieFs h.plain _
  bind := fun _ => keeps_bind

theorem WriteSteady.writes (h : WriteSteady R G) : Writes R G fun _ _ p => Keeps R G p where
  toReads := h.toReadSteady.reads
  bset := fun hp => keeps_bind (keeps_call (h.bset _ _)) fun _ => hp
  logWrite := fun hp => keeps_bind (keeps_call (h.logWrite _)) fun _ => hp
  copyin := keeps_bind (keeps_call (h.copyin _ _ _ _))

/-! ## Commits -/

/-- Nothing that a commit does moves the view. -/
structure CommitSteady (R : Rules Act Act.Res γ) (G : γ → Prop) : Prop extends ReadSteady R G where
  bset : ∀ b d, Steady R G (.bset b d)
  bwrite : ∀ b, Steady R G (.bwrite b)
  header : Steady R G .header
  commitDone : Steady R G .commitDone
  commitCleared : Steady R G .commitCleared

theorem CommitSteady.commit (h : CommitSteady R G) : Keeps R G (commit sb) := by
  have hlog : ∀ bs tail, Keeps R G (writeLog sb tail bs) := by
    intro bs
    induction bs with
    | nil => exact fun tail => keeps_pure ()
    | cons b bs ih =>
      intro tail
      refine keeps_bind (keeps_call (h.bread _)) fun dst => keeps_bind (keeps_call (h.bread _)) fun src => ?_
      refine keeps_bind (keeps_call (h.bset _ _)) fun _ => keeps_bind (keeps_call (h.bwrite _)) fun _ => ?_
      exact keeps_bind (keeps_call (h.brelse _)) fun _ => keeps_bind (keeps_call (h.brelse _)) fun _ => ih _
  have hinstall : ∀ bs tail, Keeps R G (installTrans sb tail bs) := by
    intro bs
    induction bs with
    | nil => exact fun tail => keeps_pure ()
    | cons b bs ih =>
      intro tail
      refine keeps_bind (keeps_call (h.bread _)) fun dst => keeps_bind (keeps_call (h.bread _)) fun src => ?_
      refine keeps_bind (keeps_call (h.bset _ _)) fun _ => keeps_bind (keeps_call (h.bwrite _)) fun _ => ?_
      exact keeps_bind (keeps_call (h.brelse _)) fun _ => keeps_bind (keeps_call (h.brelse _)) fun _ => ih _
  have hhead : ∀ lh, Keeps R G (writeHead sb lh) := fun lh =>
    keeps_bind (keeps_call (h.bread _)) fun _ => keeps_bind (keeps_call (h.bset _ _)) fun _ =>
      keeps_bind (keeps_call (h.bwrite _)) fun _ => keeps_call (h.brelse _)
  refine keeps_bind (keeps_call h.header) fun lh => keeps_ite (fun _ => ?_) fun _ => keeps_pure ()
  refine keeps_bind (hlog lh 0) fun _ => keeps_bind (hhead lh) fun _ => keeps_bind (hinstall lh 0) fun _ => ?_
  exact keeps_bind (keeps_call h.commitDone) fun _ => hhead []

/-- What `end_op` does once it has left the operation. -/
theorem CommitSteady.after (h : CommitSteady R G) (doCommit : Bool) :
    Keeps R G (if doCommit then Blk.commit sb >>= fun _ => act .commitCleared else pure () : Code Unit) :=
  keeps_ite (fun _ => keeps_bind h.commit fun _ => keeps_call h.commitCleared) fun _ => keeps_pure ()

/-! ## `munmap` -/

theorem writeBack_keeps (hp : PlainSteady R G) (hl : ∀ ip, Keeps R G (ilock sb ip))
    (hw : ∀ j src off n, Keeps R G (writei sb j src off n)) (a i page : Nat) : Keeps R G (writeBack sb a i page) := by
  refine hp.bind rfl fun r => keeps_bind (hl _) fun _ => keeps_bind (locked_keeps hp _) fun j => ?_
  refine hp.bind rfl fun x => keeps_bind (hw j _ _ _) fun r => ?_
  exact keeps_bind (iunlock_keeps hp _) fun _ => keeps_pure _

/-- Under rules without `p->lock`, `munmap` needs the write-back of a page, if there can be a dirty one of a shared VMA, and
`fileclose` for a page that `kfree` refuses. -/
theorem munmap_keeps {Q : Bool → Prop} (hp : PlainSteady R G) (hacq : Steady R G .acquireP) (hrel : Steady R G .releaseP)
    (hclose : ∀ n fd, Keeps R G (closeFiles sb n fd))
    (hdirty : ∀ a page g, G g → Obeys R (act (.dirtyShared a page)) g fun (dirty : Bool) g' => g' = g ∧ Q dirty)
    (hwb : Q true → ∀ a i page, Keeps R G (writeBack sb a i page)) (start length : Nat) : Keeps R G (munmap sb start length) := by
  have hexit : ∀ {β : Type}, Keeps R G (exitLocked sb : Code β) :=
    keeps_bind (keeps_call (hp _ rfl)) fun _ => keeps_ite (fun _ => keeps_die hp _) fun _ =>
      keeps_bind (hclose _ 0) fun _ => keeps_bind (keeps_call hacq) fun _ => keeps_hang hp
  have hpages : ∀ a n i, Keeps R G (munmapPages sb a start n i) := by
    intro a n
    induction n with
    | zero => exact fun _ => keeps_pure true
    | succ n ih =>
      intro i
      refine hp.bind rfl fun valid => keeps_ite (fun _ => ih _) fun _ => ?_
      refine keeps_bind_of (hdirty a _) fun (dirty : Bool) hq => ?_
      refine keeps_bind (keeps_ite (fun e => hwb (e ▸ hq) a i _) fun _ => keeps_pure _) fun r => ?_
      refine keeps_ite (fun _ => keeps_pure false) fun _ => hp.bind rfl fun freed => ?_
      exact keeps_ite (fun _ => hexit) fun _ => keeps_ite (fun _ => keeps_pure true) fun _ => ih _
  refine keeps_bind (keeps_call hacq) fun _ => hp.bind rfl fun found => ?_
  match found with
  | none => exact keeps_call hrel
  | some (prev, a) =>
    refine keeps_bind (hpages a _ 0) fun ok => keeps_bind ?_ fun _ => keeps_call hrel
    exact keeps_ite (fun _ => keeps_call (hp _ rfl)) fun _ => keeps_pure ()

/-- Under such rules so does `mmap`. -/
theorem mmap_keeps (hp : PlainSteady R G) (hacq : Steady R G .acquireP) (hrel : Steady R G .releaseP) (length : Nat) :
    Keeps R G (mmap length) := by
  refine keeps_bind (keeps_call hacq) fun _ => keeps_bind (keeps_call (hp _ rfl)) fun full => ?_
  refine keeps_ite (fun _ => keeps_call hrel) fun _ => keeps_bind (keeps_call (hp _ rfl)) fun refused => ?_
  exact keeps_ite (fun _ => keeps_pure ()) fun _ => keeps_call hrel

end Keeps

end Xv6Mmap.Blk

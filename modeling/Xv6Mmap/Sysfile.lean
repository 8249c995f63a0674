import Xv6Mmap.Exec

/-!
# System calls on files

The wrappers of `sysfile.c`. A path is the bytes that `argstr` fetched; none when it could not.
-/

namespace Xv6Mmap

/-- `O_WRONLY`, `O_RDWR`, `O_CREATE` and `O_TRUNC`. -/
abbrev oWronly : Nat := 1
abbrev oRdwr : Nat := 2
abbrev oCreate : Nat := 0x200
abbrev oTrunc : Nat := 0x400

/-- `argfd`: the descriptor and the file behind it. -/
def argfd (k : Kernel) (i : Nat) (fd : Int) : Option (Nat × Nat) :=
  if fd < 0 ∨ (nofile : Int) ≤ fd then none else ((k.proc i).ofile fd.toNat).map fun f => (fd.toNat, f)

/-- A descriptor of a process changed. -/
def Kernel.setFd (k : Kernel) (i fd : Nat) (f : Option Nat) : Kernel :=
  k.setProc i { k.proc i with ofile := Function.update (k.proc i).ofile fd f }

/-- `fdalloc`: the first free descriptor gets the file. -/
def fdalloc (k : Kernel) (i f : Nat) : Option (Nat × Kernel) :=
  (firstSlot nofile fun fd => ((k.proc i).ofile fd).isNone).map fun fd => (fd, k.setFd i fd (some f))

/-- `sys_dup`. -/
def sysDup (k : Kernel) (i : Nat) (fd : Int) : Except Panic (Nat × Kernel) :=
  match argfd k i fd with
  | none => pure (minusOne, k)
  | some (_, f) =>
    match fdalloc k i f with
    | none => pure (minusOne, k)
    | some (fd, k) => do
      let k ← filedup k f
      pure (fd, k)

/-- `sys_close`. -/
def sysClose (Λ : Layout) (io : Bool) (k : Kernel) (i : Nat) (fd : Int) : Except Panic (Nat × Kernel) :=
  match argfd k i fd with
  | none => pure (minusOne, k)
  | some (fd, f) => do
    let k ← fileclose Λ io (k.setFd i fd none) f
    pure (0, k)

/-- The inode that `sys_open` opens, locked and referenced: of the path, or created. -/
def openInode (io : Bool) (fs : Fs) (cwd : Option Nat) (path : List UInt8) (omode : Nat) :
    Except Panic (Option Nat × Fs) := do
  if omode &&& oCreate ≠ 0 then create io fs cwd path tFile 0 0
  else do
    let (ip, fs) ← namei io fs cwd path
    match ip with
    | none => pure (none, fs)
    | some ip => do
      let fs ← ilock fs (some ip)
      if (fs.itable ip).info.type = tDir ∧ omode ≠ 0 then do
        let fs ← iput io fs (some ip)
        pure (none, fs)
      else pure (some ip, fs)

/-- The file structure `sys_open` fills in for inode `ip`. -/
def openFile (f : File) (ip : Nat) (info : InodeInfo) (omode : Nat) : File :=
  let f := if info.type = tDevice then { f with type := .device, major := info.major }
    else { f with type := .inode, off := 0 }
  { f with
    ip := some ip
    readable := omode &&& oWronly == 0
    writable := omode &&& oWronly != 0 || omode &&& oRdwr != 0 }

/-- `sys_open` once the path is fetched. -/
def openPath (Λ : Layout) (io : Bool) (k : Kernel) (i : Nat) (path : List UInt8) (omode : Nat) :
    Except Panic (Nat × Kernel) := do
  let (ip, fs) ← openInode io k.fs (k.proc i).cwd path omode
  let k := { k with fs := fs }
  match ip with
  | none => pure (minusOne, k)
  | some ip =>
    let info := (fs.itable ip).info
    if info.type = tDevice ∧ (info.major < 0 ∨ (ndev : Int) ≤ info.major) then do
      let fs ← iput io k.fs (some ip)
      pure (minusOne, { k with fs := fs })
    else
      match filealloc k with
      | none => do
        let fs ← iput io k.fs (some ip)
        pure (minusOne, { k with fs := fs })
      | some (f, k) =>
        match fdalloc k i f with
        | none => do
          let k ← fileclose Λ io k f
          let fs ← iput io k.fs (some ip)
          pure (minusOne, { k with fs := fs })
        | some (fd, k) => do
          let k := k.setFile f (openFile (k.ftable f) ip info omode)
          let fs ← (if omode &&& oTrunc ≠ 0 ∧ info.type = tFile then itrunc io k.fs ip else pure k.fs)
          pure (fd, { k with fs := fs })

/-- `sys_open`. -/
def sysOpen (Λ : Layout) (io : Bool) (k : Kernel) (i : Nat) (path : Option (List UInt8)) (omode : Nat) :
    Except Panic (Nat × Kernel) :=
  match path with
  | none => pure (minusOne, k)
  | some path => openPath Λ io k i path omode

/-- `sys_chdir`. -/
def sysChdir (io : Bool) (k : Kernel) (i : Nat) (path : Option (List UInt8)) : Except Panic (Nat × Kernel) :=
  match path with
  | none => pure (minusOne, k)
  | some path => do
    let (ip, fs) ← namei io k.fs (k.proc i).cwd path
    match ip with
    | none => pure (minusOne, { k with fs := fs })
    | some ip => do
      let fs ← ilock fs (some ip)
      if (fs.itable ip).info.type ≠ tDir then do
        let fs ← iput io fs (some ip)
        pure (minusOne, { k with fs := fs })
      else do
        let fs ← iput io fs (k.proc i).cwd
        pure (0, { k.setProc i { k.proc i with cwd := some ip } with fs := fs })

/-- Both files of a new pipe closed again. -/
def closeBoth (Λ : Layout) (io : Bool) (k : Kernel) (rf wf : Nat) : Except Panic (Nat × Kernel) := do
  let k ← fileclose Λ io k rf
  let k ← fileclose Λ io k wf
  pure (minusOne, k)

/-- The two descriptors of a pipe copied out, the second only after the first. -/
def copyFds (pt : PageTable) (ram : Nat → Nat → UInt8) (fdarray fd0 fd1 : Nat) : Bool × (Nat → Nat → UInt8) :=
  let (ok, ram) := copyout pt ram fdarray (intBytes fd0) 4
  if ok then copyout pt ram ((fdarray + 4) % 2 ^ 64) (intBytes fd1) 4 else (false, ram)

/-- `sys_pipe`, with the descriptors copied to `fdarray`. -/
def sysPipe (Λ : Layout) (io : Bool) (k : Kernel) (i fdarray : Nat) : Except Panic (Nat × Kernel) := do
  let (files, k) ← pipealloc Λ io k
  match files with
  | none => pure (minusOne, k)
  | some (rf, wf) =>
    match fdalloc k i rf with
    | none => closeBoth Λ io k rf wf
    | some (fd0, k) =>
      match fdalloc k i wf with
      | none => closeBoth Λ io (k.setFd i fd0 none) rf wf
      | some (fd1, k) =>
        match (k.proc i).pagetable with
        | none => throw .kerneltrap
        | some pt =>
          let (ok, ram) := copyFds pt k.mem.ram fdarray fd0 fd1
          let k := { k with mem := { k.mem with ram := ram } }
          if ok then pure (0, k) else closeBoth Λ io ((k.setFd i fd0 none).setFd i fd1 none) rf wf

/-- `sys_mmap`. -/
def sysMmap (k : Kernel) (i length prot flag fd : Nat) : Except Panic (Nat × Kernel) :=
  if prot ≠ protRead ∧ prot ≠ protWrite ∧ prot ≠ protReadWrite then pure (minusOne, k)
  else if flag ≠ mapPrivate ∧ flag ≠ mapShared then pure (minusOne, k)
  else if nofile ≤ fd then pure (minusOne, k)
  else mmap k i length prot flag fd

/-- `sys_munmap`. -/
def sysMunmap (Λ : Layout) (io : Bool) (k : Kernel) (i addr length : Nat) : Except Panic (Nat × Kernel) := do
  let (ok, k) ← munmap Λ io k i addr length
  pure (if ok then 0 else minusOne, k)

end Xv6Mmap

import Xv6Mmap.Sysfile

/-!
# System calls on names

`link`, `unlink`, `mkdir` and `mknod` of `sysfile.c`, and what the system calls do to names: the file system with the references to
inodes that current directories and open files hold. A `struct file` without an inode and the number of descriptors to a file are left
out; an open file goes away when its last descriptor is closed.
-/

namespace Xv6Mmap

open Function

/-! ## `link` -/

/-- `sys_link` at `bad`: the count goes back. -/
def linkBad (io : Bool) (fs : Fs) (ip : Nat) : Except Panic Fs := do
  let fs ← ilock fs (some ip)
  let fs ← iupdate io (fs.addLink ip (-1)) ip
  iput io fs (some ip)

/-- The second half of `sys_link`, with `ip` counted up: the name is entered, or the count goes back. -/
def linkNew (io : Bool) (fs : Fs) (cwd : Option Nat) (ip : Nat) (new : List UInt8) : Except Panic (Bool × Fs) := do
  let (r, fs) ← nameiparent io fs cwd new
  match r with
  | none => do
    let fs ← linkBad io fs ip
    pure (false, fs)
  | some (dp, name) => do
    let fs ← ilock fs (some dp)
    let (ok, fs) ←
      if (fs.itable dp).dev ≠ (fs.itable ip).dev then pure (false, fs) else dirlink io fs dp name (fs.itable ip).inum
    let fs ← iput io fs (some dp)
    if ok then do
      let fs ← iput io fs (some ip)
      pure (true, fs)
    else do
      let fs ← linkBad io fs ip
      pure (false, fs)

/-- `sys_link` once the paths are fetched. -/
def linkPath (io : Bool) (fs : Fs) (cwd : Option Nat) (old new : List UInt8) : Except Panic (Bool × Fs) := do
  let (ip, fs) ← namei io fs cwd old
  match ip with
  | none => pure (false, fs)
  | some ip => do
    let fs ← ilock fs (some ip)
    if (fs.itable ip).info.type = tDir then do
      let fs ← iput io fs (some ip)
      pure (false, fs)
    else do
      let fs ← iupdate io (fs.addLink ip 1) ip
      linkNew io fs cwd ip new

/-! ## `unlink` -/

/-- `dirlookup` with `poff`: the inode an entry names, referenced, and the offset of the entry. -/
def dirlookupOff (fs : Fs) (dp : Nat) (name : List UInt8) : Except Panic (Option (Nat × Nat) × Fs) :=
  let d := fs.itable dp
  if d.info.type ≠ tDir then throw .dirlookupNotDir
  else do
    match ← dirScan d.info.size (fs.data dp) name ((d.info.size + 15) / 16) 0 with
    | none => pure (none, fs)
    | some (off, inum) => do
      let (i, fs) ← iget fs d.dev inum
      pure (some (i, off), fs)

/-- The loop of `isdirempty` over the `n` entries from `off` on. -/
def isdiremptyLoop (size : Nat) (data : Nat → UInt8) : Nat → Nat → Except Panic Bool
  | 0, _ => pure true
  | n + 1, off =>
    match readDirent size data off with
    | none => throw .isdirempty
    | some de => if direntInum de ≠ 0 then pure false else isdiremptyLoop size data n (off + 16)

/-- `isdirempty`: no entries after the first two. -/
def isdirempty (fs : Fs) (dp : Nat) : Except Panic Bool :=
  let size := (fs.itable dp).info.size
  isdiremptyLoop size (fs.data dp) ((size - 2 * 16 + 15) / 16) (2 * 16)

/-- The entry at offset `off` of `dp` cleared. -/
def clearDirent (io : Bool) (fs : Fs) (dp off : Nat) : Except Panic Fs := do
  let (r, fs) ← writei io fs dp (bufGet fun _ => 0) off 16
  if r = 16 then pure fs else throw .unlinkWritei

/-- `namecmp(name, ".") == 0 || namecmp(name, "..") == 0`. -/
def isDots (name : List UInt8) : Bool :=
  strncmpEq (nameBuf name) (nameBuf [46]) dirsiz 0 || strncmpEq (nameBuf name) (nameBuf [46, 46]) dirsiz 0

/-- The last part of `sys_unlink`: the entry at offset `off` of `dp`, which names `ip`, goes away, with the count that its `..` was
for. -/
def unlinkFound (io : Bool) (fs : Fs) (dp ip off : Nat) : Except Panic Fs := do
  let fs ← clearDirent io fs dp off
  let fs ← (if (fs.itable ip).info.type = tDir then iupdate io (fs.addLink dp (-1)) dp else pure fs)
  let fs ← iput io fs (some dp)
  let fs ← iupdate io (fs.addLink ip (-1)) ip
  iput io fs (some ip)

/-- `sys_unlink` once the path is fetched. -/
def unlinkPath (io : Bool) (fs : Fs) (cwd : Option Nat) (path : List UInt8) : Except Panic (Bool × Fs) := do
  let (r, fs) ← nameiparent io fs cwd path
  match r with
  | none => pure (false, fs)
  | some (dp, name) => do
    let fs ← ilock fs (some dp)
    if isDots name then do
      let fs ← iput io fs (some dp)
      pure (false, fs)
    else do
      let (found, fs) ← dirlookupOff fs dp name
      match found with
      | none => do
        let fs ← iput io fs (some dp)
        pure (false, fs)
      | some (ip, off) => do
        let fs ← ilock fs (some ip)
        if (fs.itable ip).info.nlink < 1 then throw .unlinkNlink
        else do
          let empty ← (if (fs.itable ip).info.type = tDir then isdirempty fs ip else pure true)
          if empty then do
            let fs ← unlinkFound io fs dp ip off
            pure (true, fs)
          else do
            let fs ← iput io fs (some ip)
            let fs ← iput io fs (some dp)
            pure (false, fs)

/-! ## `mkdir` and `mknod` -/

/-- `create` and the reference to the new inode given back. -/
def makePath (io : Bool) (fs : Fs) (cwd : Option Nat) (path : List UInt8) (type : Nat) (major minor : Int) :
    Except Panic (Bool × Fs) := do
  let (ip, fs) ← create io fs cwd path type major minor
  match ip with
  | none => pure (false, fs)
  | some ip => do
    let fs ← iput io fs (some ip)
    pure (true, fs)

/-- `sys_mkdir` once the path is fetched. -/
def mkdirPath (io : Bool) (fs : Fs) (cwd : Option Nat) (path : List UInt8) : Except Panic (Bool × Fs) :=
  makePath io fs cwd path tDir 0 0

/-- `sys_mknod` once the arguments are fetched; the numbers go into `short`s. -/
def mknodPath (io : Bool) (fs : Fs) (cwd : Option Nat) (path : List UInt8) (major minor : Int) : Except Panic (Bool × Fs) :=
  makePath io fs cwd path tDevice (toShort major) (toShort minor)

/-! ## Names and references -/

/-- The file system, the current directory of each process, and the inode of each open file. -/
structure NameSys where
  fs : Fs
  cwd : Nat → Option Nat
  files : Nat → Option Nat

/-- What a process `p` does. `openPath` comes with the entry of the file table that it gets, none when there is no file or no
descriptor left, and `close` with the entry whose last descriptor it is. `exit` is the last part of it, after the files are closed. -/
inductive NameCall where
  | openPath (path : List UInt8) (omode : Nat) (file : Option Nat)
  | close (file : Nat)
  | mkdir (path : List UInt8)
  | mknod (path : List UInt8) (major minor : Int)
  | link (old new : List UInt8)
  | unlink (path : List UInt8)
  | chdir (path : List UInt8)
  | fork (child : Nat)
  | exit

namespace NameSys

/-- The result of a call that changes the file system only. -/
def withFs (s : NameSys) (r : Except Panic (Bool × Fs)) : Except Panic (Bool × NameSys) := do
  let (ok, fs) ← r
  pure (ok, { s with fs := fs })

/-- `sys_open`: the reference to the inode goes to the file, or back. -/
def openCall (io : Bool) (s : NameSys) (p : Nat) (path : List UInt8) (omode : Nat) (file : Option Nat) :
    Except Panic (Bool × NameSys) := do
  let (ip, fs) ← openInode io s.fs (s.cwd p) path omode
  match ip with
  | none => pure (false, { s with fs := fs })
  | some ip =>
    let info := (fs.itable ip).info
    match file with
    | none => do
      let fs ← iput io fs (some ip)
      pure (false, { s with fs := fs })
    | some f =>
      if info.type = tDevice ∧ (info.major < 0 ∨ (ndev : Int) ≤ info.major) ∨ (s.files f).isSome = true then do
        let fs ← iput io fs (some ip)
        pure (false, { s with fs := fs })
      else do
        let fs ← (if omode &&& oTrunc ≠ 0 ∧ info.type = tFile then itrunc io fs ip else pure fs)
        pure (true, { s with fs := fs, files := update s.files f (some ip) })

/-- `sys_chdir`. -/
def chdirCall (io : Bool) (s : NameSys) (p : Nat) (path : List UInt8) : Except Panic (Bool × NameSys) := do
  let (ip, fs) ← namei io s.fs (s.cwd p) path
  match ip with
  | none => pure (false, { s with fs := fs })
  | some ip => do
    let fs ← ilock fs (some ip)
    if (fs.itable ip).info.type ≠ tDir then do
      let fs ← iput io fs (some ip)
      pure (false, { s with fs := fs })
    else do
      let fs ← iput io fs (s.cwd p)
      pure (true, { s with fs := fs, cwd := update s.cwd p (some ip) })

/-- `fork`, when there is an unused process. -/
def forkCall (s : NameSys) (p child : Nat) : Except Panic (Bool × NameSys) :=
  match s.cwd child with
  | some _ => pure (false, s)
  | none => do
    let fs ← idup s.fs (s.cwd p)
    pure (true, { s with fs := fs, cwd := update s.cwd child (s.cwd p) })

/-- A call by process `p`, which has a current directory: whether it succeeded, and the state after it. -/
def call (io : Bool) (s : NameSys) (p : Nat) : NameCall → Except Panic (Bool × NameSys)
  | .openPath path omode file => s.openCall io p path omode file
  | .close f =>
    match s.files f with
    | none => pure (false, s)
    | some ip => do
      let fs ← iput io s.fs (some ip)
      pure (true, { s with fs := fs, files := update s.files f none })
  | .mkdir path => s.withFs (mkdirPath io s.fs (s.cwd p) path)
  | .mknod path major minor => s.withFs (mknodPath io s.fs (s.cwd p) path major minor)
  | .link old new => s.withFs (linkPath io s.fs (s.cwd p) old new)
  | .unlink path => s.withFs (unlinkPath io s.fs (s.cwd p) path)
  | .chdir path => s.chdirCall io p path
  | .fork child => s.forkCall p child
  | .exit => do
    let fs ← iput io s.fs (s.cwd p)
    pure (true, { s with fs := fs, cwd := update s.cwd p none })

end NameSys

end Xv6Mmap

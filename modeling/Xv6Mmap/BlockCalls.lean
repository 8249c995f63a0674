import Xv6Mmap.BlockFs

/-!
# System calls by blocks

The calls that reach the file system, over the actions of `Blocks`: those of `file.c` and `sysfile.c`, `exec`, the page fault,
`munmap` with its two callers, and `exit`. Results to the user are left out. A path that `argstr` could not fetch is none where an
operation has begun by then. What `exec` and the page fault do to page tables and memory happens beside the program and comes out as
`fate` has it.
-/

namespace Xv6Mmap.Blk

section Code

variable (sb : Superblock)

/-! ## Files -/

/-- `fileclose`. -/
def fileclose (f : Nat) : Code Unit := do
  let last : Option File ← act (.fileDrop f)
  match last with
  | none => pure ()
  | some ff =>
    match ff.type with
    | .none => pure ()
    | .pipe => act .device
    | .inode | .device => transaction sb (iput sb ff.ip)

/-- The inode behind a pointer that `ilock` has gone through. -/
def locked : Option Nat → Code Nat
  | none => die .ilock
  | some j => pure j

/-- `struct stat` of an inode. -/
def statBytes (ip : Minode) : Bytes :=
  let d := putLe (fun _ => 0) 0 4 ip.dev
  let d := putLe d 4 4 ip.inum
  let d := putLe d 8 2 ip.info.type
  let d := putLe d 10 2 (ip.info.nlink % 2 ^ 16).toNat
  putLe d 16 8 ip.info.size

/-- `filestat`. -/
def filestat (f dst : Nat) : Code Unit := do
  let file : File ← act (.file f)
  if file.type = .inode ∨ file.type = .device then do
    ilock sb file.ip
    let j ← locked file.ip
    let ip ← inode j
    iunlock (some j)
    let _ok : Bool ← act (.copyout dst (statBytes ip) 24)
    pure ()
  else pure ()

/-- An `int` argument as a `uint`. -/
def asUint (n : Int) : Nat := (n % 2 ^ 32).toNat

/-- `fileread`. -/
def fileread (f dst : Nat) (n : Int) : Code Unit := do
  let file : File ← act (.file f)
  if !file.readable then pure ()
  else
    match file.type with
    | .pipe => act .device
    | .device => if file.major < 0 ∨ (ndev : Int) ≤ file.major then pure () else act .device
    | .inode => do
      ilock sb file.ip
      let j ← locked file.ip
      let now : File ← act (.file f)
      let (r, _) ← readi sb j (some dst) now.off (asUint n)
      (if 0 < r then act (.setOff f ((now.off + r.toNat) % 2 ^ 32)) else pure ())
      iunlock (some j)
    | .none => dieFs .fileread

/-- One round of the loop of `filewrite`: what `writei` returned. -/
def writeChunk (f src : Nat) (ip : Option Nat) (n : Nat) : Code Int :=
  transaction sb do
    ilock sb ip
    let j ← locked ip
    let now : File ← act (.file f)
    let r ← writei sb j (.user (src % 2 ^ 64)) now.off n
    (if 0 < r then act (.setOff f ((now.off + r.toNat) % 2 ^ 32)) else pure ())
    iunlock (some j)
    pure r

/-- The loop of `filewrite` from byte `i` on: at most `((MAXOPBLOCKS-1-1-2)/2)*BSIZE` bytes a round. -/
def filewriteLoop (f src : Nat) (ip : Option Nat) (n : Nat) : Nat → Nat → Code Unit
  | 0, _ => pure ()
  | fuel + 1, i =>
    if n ≤ i then pure ()
    else do
      let n1 := min (n - i) ((maxOpBlocks - 1 - 1 - 2) / 2 * bsize)
      let r ← writeChunk sb f (src + i) ip n1
      if r = n1 then filewriteLoop f src ip n fuel (i + n1) else pure ()

/-- `filewrite`. -/
def filewrite (f src : Nat) (n : Int) : Code Unit := do
  let file : File ← act (.file f)
  if !file.writable then pure ()
  else
    match file.type with
    | .pipe => act .device
    | .device => if file.major < 0 ∨ (ndev : Int) ≤ file.major then pure () else act .device
    | .inode => filewriteLoop sb f src file.ip n.toNat n.toNat 0
    | .none => dieFs .filewrite

/-! ## System calls on paths -/

/-- The way out of `sys_link` after the link count went up. -/
def linkBad (j : Nat) : Code Unit := do
  ilock sb (some j)
  let ip ← inode j
  setInfo j { ip.info with nlink := ip.info.nlink - 1 }
  iupdate sb j
  iunlockput sb (some j)

/-- `sys_link` once the link count went up. -/
def linkNew (new : List UInt8) (j : Nat) : Code Unit := do
  match ← nameiparent sb new with
  | none => linkBad sb j
  | some (d, name) => do
    ilock sb (some d)
    let dp ← inode d
    let ip ← inode j
    let ok ← (if dp.dev ≠ ip.dev then pure false else dirlink sb d name ip.inum)
    iunlockput sb (some d)
    if ok then iput sb (some j) else linkBad sb j

/-- `sys_link`. -/
def sysLink (old new : List UInt8) : Code Unit :=
  transaction sb do
    match ← namei sb old with
    | none => pure ()
    | some j => do
      ilock sb (some j)
      let ip ← inode j
      if ip.info.type = tDir then iunlockput sb (some j)
      else do
        setInfo j { ip.info with nlink := ip.info.nlink + 1 }
        iupdate sb j
        iunlock (some j)
        linkNew sb new j

/-- The loop of `isdirempty` over the `n` entries from `off` on. -/
def isdiremptyLoop (j : Nat) : Nat → Nat → Code Bool
  | 0, _ => pure true
  | n + 1, off => do
    match ← readDirent sb j off with
    | none => dieFs .isdirempty
    | some de => if direntInum de ≠ 0 then pure false else isdiremptyLoop j n (off + 16)

/-- `isdirempty`. -/
def isdirempty (j : Nat) : Code Bool := do
  let dp ← inode j
  isdiremptyLoop sb j ((dp.info.size - 32 + 15) / 16) 32

/-- `sys_unlink` from the entry on, at offset `off` of directory `d`. -/
def unlinkEntry (d j off : Nat) : Code Unit := do
  ilock sb (some j)
  let ip ← inode j
  if ip.info.nlink < 1 then dieFs .unlinkNlink
  else do
    let empty ← (if ip.info.type = tDir then isdirempty sb j else pure true)
    if !empty then do
      iunlockput sb (some j)
      iunlockput sb (some d)
    else do
      let r ← writei sb d (.kernel fun _ => 0) off 16
      if r ≠ 16 then dieFs .unlinkWritei
      else do
        (if ip.info.type = tDir then do
          let dp ← inode d
          setInfo d { dp.info with nlink := dp.info.nlink - 1 }
          iupdate sb d
        else pure ())
        iunlockput sb (some d)
        let ip ← inode j
        setInfo j { ip.info with nlink := ip.info.nlink - 1 }
        iupdate sb j
        iunlockput sb (some j)

/-- `sys_unlink`. -/
def sysUnlink (path : List UInt8) : Code Unit :=
  transaction sb do
    match ← nameiparent sb path with
    | none => pure ()
    | some (d, name) => do
      ilock sb (some d)
      if strncmpEq (nameBuf name) (nameBuf [46]) dirsiz 0 || strncmpEq (nameBuf name) (nameBuf [46, 46]) dirsiz 0 then
        iunlockput sb (some d)
      else do
        match ← dirlookup sb d name with
        | none => iunlockput sb (some d)
        | some (j, off) => unlinkEntry sb d j off

/-- The entries `.` and `..` of a new directory `j` in `d`. -/
def createDots (j d : Nat) : Code Unit := do
  let dp ← inode d
  setInfo d { dp.info with nlink := dp.info.nlink + 1 }
  iupdate sb d
  let ip ← inode j
  let ok ← dirlink sb j [46] ip.inum
  if !ok then die .createDots
  else do
    let ok ← dirlink sb j [46, 46] dp.inum
    if !ok then die .createDots else pure ()

/-- `create` of a new inode in directory `d`. -/
def createNew (d : Nat) (name : List UInt8) (type : Nat) (major minor : Int) : Code Nat := do
  let dp ← inode d
  let j ← ialloc sb dp.dev type
  ilock sb (some j)
  let ip ← inode j
  setInfo j { ip.info with major := major, minor := minor, nlink := 1 }
  iupdate sb j
  (if type = tDir then createDots sb j d else pure ())
  let ok ← dirlink sb d name ip.inum
  if !ok then die .createDirlink
  else do
    iunlockput sb (some d)
    pure j

/-- `create`: the inode, locked. -/
def create (path : List UInt8) (type : Nat) (major minor : Int) : Code (Option Nat) := do
  match ← nameiparent sb path with
  | none => pure none
  | some (d, name) => do
    ilock sb (some d)
    match ← dirlookup sb d name with
    | some (j, _) => do
      iunlockput sb (some d)
      ilock sb (some j)
      let ip ← inode j
      if type = tFile ∧ (ip.info.type = tFile ∨ ip.info.type = tDevice) then pure (some j)
      else do
        iunlockput sb (some j)
        pure none
    | none => do
      let j ← createNew sb d name type major minor
      pure (some j)

/-- The inode that `sys_open` opens, locked. -/
def openInode (path : List UInt8) (omode : Nat) : Code (Option Nat) := do
  if omode &&& oCreate ≠ 0 then create sb path tFile 0 0
  else do
    match ← namei sb path with
    | none => pure none
    | some j => do
      ilock sb (some j)
      let ip ← inode j
      if ip.info.type = tDir ∧ omode ≠ 0 then do
        iunlockput sb (some j)
        pure none
      else pure (some j)

/-- `sys_open` with the inode locked: a file and a descriptor for it. -/
def openFd (j omode : Nat) : Code Unit := do
  let ip ← inode j
  if ip.info.type = tDevice ∧ (ip.info.major < 0 ∨ (ndev : Int) ≤ ip.info.major) then iunlockput sb (some j)
  else do
    let f : Option Nat ← act .filealloc
    match f with
    | none => iunlockput sb (some j)
    | some f => do
      let fd : Option Nat ← act (.fdalloc f)
      match fd with
      | none => do
        fileclose sb f
        iunlockput sb (some j)
      | some _ => do
        let file : File ← act (.file f)
        act (.setFile f (openFile file j ip.info omode))
        (if omode &&& oTrunc ≠ 0 ∧ ip.info.type = tFile then itrunc sb j else pure ())
        iunlock (some j)

/-- `sys_open`. -/
def sysOpen (path : List UInt8) (omode : Nat) : Code Unit :=
  transaction sb do
    match ← openInode sb path omode with
    | none => pure ()
    | some j => openFd sb j omode

/-- `sys_mkdir` and `sys_mknod`. -/
def sysMake (path : Option (List UInt8)) (type : Nat) (major minor : Int) : Code Unit :=
  transaction sb do
    match path with
    | none => pure ()
    | some path => do
      match ← create sb path type major minor with
      | none => pure ()
      | some j => iunlockput sb (some j)

def sysMkdir (path : Option (List UInt8)) : Code Unit := sysMake sb path tDir 0 0
def sysMknod (path : Option (List UInt8)) (major minor : Int) : Code Unit := sysMake sb path tDevice major minor

/-- `sys_chdir` up to `end_op`: the new directory. -/
def chdirInode (path : List UInt8) : Code (Option Nat) := do
  match ← namei sb path with
  | none => pure none
  | some j => do
    ilock sb (some j)
    let ip ← inode j
    if ip.info.type ≠ tDir then do
      iunlockput sb (some j)
      pure none
    else do
      iunlock (some j)
      let cwd : Option Nat ← act .cwd
      iput sb cwd
      pure (some j)

/-- `sys_chdir`. -/
def sysChdir (path : Option (List UInt8)) : Code Unit := do
  let r ← transaction sb (match path with
    | none => pure none
    | some path => chdirInode sb path)
  match r with
  | none => pure ()
  | some j => act (.setCwd (some j))

/-! ## `exec` -/

/-- The loop of `loadseg` over `n` pages from index `i` on: `false` for `-1`. -/
def loadseg (j offset sz : Nat) : Nat → Nat → Code Bool
  | 0, _ => pure true
  | n + 1, i => do
    let (r, _) ← readi sb j none ((offset + i) % 2 ^ 32) (min (sz - i) pgSize)
    if r = min (sz - i) pgSize then loadseg j offset sz n (i + pgSize) else pure false

/-- The loop of `exec` over the program headers, `n` of them left. -/
def execLoad (j : Nat) : Nat → Nat → Code Unit
  | 0, _ => pure ()
  | n + 1, off => do
    let (r, ph) ← readi sb j none (off % 2 ^ 32) 56
    if r ≠ 56 then pure ()
    else if leField ph 0 4 ≠ elfProgLoad then execLoad j n (off + 56)
    else if leField ph 40 8 < leField ph 32 8 then pure ()
    else if (leField ph 16 8 + leField ph 40 8) % 2 ^ 64 < leField ph 16 8 then pure ()
    else do
      let ok : Bool ← act .fate
      if !ok then pure ()
      else if leField ph 16 8 % pgSize ≠ 0 then pure ()
      else do
        let sz := leField ph 32 8 % 2 ^ 32
        let ok ← loadseg sb j (leField ph 8 8 % 2 ^ 32) sz ((sz + (pgSize - 1)) / pgSize) 0
        if ok then execLoad j n (off + 56) else pure ()

/-- `exec` up to its `end_op`. -/
def execRead (path : List UInt8) : Code Unit := do
  match ← namei sb path with
  | none => pure ()
  | some j => do
    ilock sb (some j)
    let (r, elf) ← readi sb j none 0 64
    (if r ≠ 64 ∨ leField elf 0 4 ≠ elfMagic then pure ()
    else do
      let ok : Bool ← act .fate
      if ok then execLoad sb j (leField elf 56 2) (leField elf 32 8) else pure ())
    iunlockput sb (some j)

/-- `exec`; after its `end_op` it works on memory only. -/
def exec (path : List UInt8) : Code Unit := transaction sb (execRead sb path)

/-! ## `munmap` and `exit` -/

/-- The loop of `exit` that closes `n` descriptors from `fd` on. -/
def closeFiles : Nat → Nat → Code Unit
  | 0, _ => pure ()
  | n + 1, fd => do
    let f : Option Nat ← act (.ofile fd)
    match f with
    | none => closeFiles n (fd + 1)
    | some f => do
      fileclose sb f
      act (.clearFd fd)
      closeFiles n (fd + 1)

/-- `exit` called by `kfree` inside `munmap`: its `munmap` acquires the `p->lock` that is still held. -/
def exitLocked {α : Type} : Code α := do
  let init : Bool ← act .isInit
  if init then die .initExiting
  else do
    closeFiles sb nofile 0
    act .acquireP
    .act .hang fun r : Empty => r.elim

/-- The write-back of a dirty page of a shared VMA in round `i`: whether `writei` succeeded, and whether the loop ends here. -/
def writeBack (a i page : Nat) : Code (Bool × Bool) := do
  let (v, ip) ← (act (.vmaFile a) : Code (Vma × Option Nat))
  ilock sb ip
  let j ← locked ip
  let x ← inode j
  let r ← writei sb j (.user page) ((page + 2 ^ 64 - v.addrinit) % 2 ^ 32) (writeLen i x.info.size)
  iunlock (some j)
  pure (decide (r ≠ -1), decide (0 < sizeWritten i x.info.size))

/-- The page loop of `munmap`, `n` rounds left, at round `i`: `false` for `-1`. -/
def munmapPages (a start : Nat) : Nat → Nat → Code Bool
  | 0, _ => pure true
  | n + 1, i => do
    let valid : Bool ← act (.pteValid (munmapPage start i))
    if !valid then munmapPages a start n (i + 1)
    else do
      let dirty : Bool ← act (.dirtyShared a (munmapPage start i))
      let (ok, out) ← (if dirty then writeBack sb a i (munmapPage start i) else pure (true, false))
      if !ok then pure false
      else do
        let freed : Bool ← act (.unmapPage (munmapPage start i))
        if !freed then exitLocked sb
        else if out then pure true
        else munmapPages a start n (i + 1)

/-- `munmap`. -/
def munmap (start length : Nat) : Code Unit := do
  act .acquireP
  let found : Option (Option Nat × Nat) ← act (.vmaFind start length)
  match found with
  | none => act .releaseP
  | some (prev, a) => do
    let ok ← munmapPages sb a start (munmapRounds length) 0
    (if ok then act (.resize a prev start length) else pure ())
    act .releaseP

/-- `sys_munmap`. -/
def sysMunmap (start length : Nat) : Code Unit := transaction sb (munmap sb start length)

/-- The locks of `mmap`: it returns with `p->lock` held when it finds no place for the VMA. -/
def mmap (length : Nat) : Code Unit := do
  act .acquireP
  let full : Bool ← act .vmasFull
  if full then act .releaseP
  else do
    let refused : Bool ← act (.noPlace length)
    if refused then pure () else act .releaseP

/-- The unmap loop of `exit`, followed for `n` rounds. -/
def exitUnmap : Nat → Code Unit
  | 0 => .act .hang fun r : Empty => r.elim
  | n + 1 => do
    let head : Option (Nat × Nat) ← act .vmaHead
    match head with
    | none => pure ()
    | some (start, length) => do
      munmap sb start length
      exitUnmap n

/-- `exit`, its unmap loop followed for `n` rounds. -/
def exit (n : Nat) : Code Unit := do
  let init : Bool ← act .isInit
  if init then die .initExiting
  else do
    closeFiles sb nofile 0
    exitUnmap sb n
    transaction sb (do
      let cwd : Option Nat ← act .cwd
      iput sb cwd)
    act (.setCwd none)
    act .wakeup
    act .acquireP
    act .releaseP

/-- The page-fault branch of `usertrap`, with the test of `p->killed` after it. -/
def pageFault (va n : Nat) : Code Unit := do
  let found : Option Nat ← act (.faultFind va)
  match found with
  | none => exit sb n
  | some a => do
    let ok : Bool ← act .fate
    if !ok then exit sb n
    else do
      let (v, ip) ← (act (.vmaFile a) : Code (Vma × Option Nat))
      ilock sb ip
      let j ← locked ip
      let _r ← readi sb j (some (pgRoundDown va)) ((pgRoundDown va + 2 ^ 64 - v.addri) % 2 ^ 32) pgSize
      iunlock (some j)
      let killed : Bool ← act .killed
      if killed then exit sb n else pure ()

end Code

/-! ## The system -/

/-- What a process does. -/
inductive Call where
  | read (f dst : Nat) (n : Int)
  | write (f src : Nat) (n : Int)
  | close (fd : Nat)
  | fstat (f dst : Nat)
  | link (old new : List UInt8)
  | unlink (path : List UInt8)
  | openPath (path : List UInt8) (omode : Nat)
  | mkdir (path : Option (List UInt8))
  | mknod (path : Option (List UInt8)) (major minor : Int)
  | chdir (path : Option (List UInt8))
  | exec (path : List UInt8)
  | mmap (length : Nat)
  | munmap (start length : Nat)
  | fault (va n : Nat)
  | exit (n : Nat)

/-- `sys_close`. -/
def sysClose (sb : Superblock) (fd : Nat) : Code Unit := do
  let f : Option Nat ← act (.ofile fd)
  match f with
  | none => pure ()
  | some f => do
    act (.clearFd fd)
    fileclose sb f

/-- The program of a call. -/
def Call.prog (sb : Superblock) : Call → Code Unit
  | .read f dst n => fileread sb f dst n
  | .write f src n => filewrite sb f src n
  | .close fd => sysClose sb fd
  | .fstat f dst => filestat sb f dst
  | .link old new => sysLink sb old new
  | .unlink path => sysUnlink sb path
  | .openPath path omode => sysOpen sb path omode
  | .mkdir path => sysMkdir sb path
  | .mknod path major minor => sysMknod sb path major minor
  | .chdir path => sysChdir sb path
  | .exec path => Blk.exec sb path
  | .mmap length => Blk.mmap length
  | .munmap start length => sysMunmap sb start length
  | .fault va n => pageFault sb va n
  | .exit n => Blk.exit sb n

/-- The processes over the file system. -/
def machine (Λ : Layout) (sb : Superblock) : Machine Act Act.Res Sys Stop Call Beside :=
  ⟨perform Λ, Call.prog sb, beside⟩

/-- The system between calls: no lock, no operation, an empty log, and buffers that agree with the disk. -/
structure Idle (c : Conf Act Act.Res Sys) : Prop where
  prog : ∀ i, c.prog i = .ret ()
  cache : ∀ b d, c.state.cache b = some d → d = c.state.disk b
  holder : ∀ b, c.state.holder b = none
  ilock : ∀ j, c.state.ilock j = none
  plock : ∀ i, c.state.plock i = false
  inOp : ∀ i, c.state.inOp i = 0
  outstanding : c.state.log.outstanding = 0
  committing : c.state.log.committing = false
  lh : c.state.log.lh = []

end Xv6Mmap.Blk

import Xv6Mmap.Blocks

/-!
# `fs.c` and `log.c` by blocks

The functions of `fs.c`, and `begin_op`, `end_op` and `commit` of `log.c`, over the actions of `Blocks`. A pointer to an inode is an
index of the inode table, optional where it may be null; a pointer to a buffer is its block number.
-/

namespace Xv6Mmap.Blk

/-! ## Actions as programs -/

abbrev bread (b : Nat) : Code Bytes := act (.bread b)
abbrev bset (b : Nat) (d : Bytes) : Code Unit := act (.bset b d)
abbrev bwrite (b : Nat) : Code Unit := act (.bwrite b)
abbrev brelse (b : Nat) : Code Unit := act (.brelse b)
abbrev beginOp : Code Unit := act .beginOp
abbrev logWrite (b : Nat) : Code Unit := act (.logWrite b)
abbrev header : Code (List Nat) := act .header
abbrev iget (dev inum : Nat) : Code Nat := act (.iget dev inum)
abbrev inode (j : Nat) : Code Minode := act (.inode j)
abbrev setInfo (j : Nat) (info : InodeInfo) : Code Unit := act (.setInfo j info)
abbrev setAddr (j bn a : Nat) : Code Unit := act (.setAddr j bn a)
abbrev addr (j bn : Nat) : Code Nat := act (.addr j bn)
abbrev entry (b bn : Nat) : Code Nat := act (.entry b bn)

/-- `panic`. -/
def die {α : Type} (e : Panic) : Code α := .act (.panic e) fun r : Empty => r.elim

/-- A panic that only this level has. -/
def dieFs {α : Type} (e : FsPanic) : Code α := .act (.fsPanic e) fun r : Empty => r.elim

/-! ## Layout of the disk -/

/-- `BPB` and `IPB`. -/
abbrev bpb : Nat := bsize * 8
abbrev ipb : Nat := bsize / 64

/-- `BBLOCK` and `IBLOCK`. -/
def Superblock.bblock (sb : Superblock) (b : Nat) : Nat := b / bpb + sb.bmapstart
def Superblock.iblock (sb : Superblock) (inum : Nat) : Nat := inum / ipb + sb.inodestart

/-- `memset(d + o, 0, n)`. -/
def zeroed (d : Bytes) (o n : Nat) : Bytes := fun x => if o ≤ x ∧ x < o + n then 0 else d x

/-- `memmove(d, e, BSIZE)`. -/
def copied (d e : Bytes) : Bytes := fun x => if x < bsize then e x else d x

/-- The bit of block `bi` in a bitmap block, and the block with it set or cleared. -/
def bitMask (bi : Nat) : UInt8 := 1 <<< UInt8.ofNat (bi % 8)
def bitFree (d : Bytes) (bi : Nat) : Bool := d (bi / 8) &&& bitMask bi == 0
def bitSet (d : Bytes) (bi : Nat) : Bytes := Function.update d (bi / 8) (d (bi / 8) ||| bitMask bi)
def bitCleared (d : Bytes) (bi : Nat) : Bytes := Function.update d (bi / 8) (d (bi / 8) &&& ~~~bitMask bi)

/-- A `short` at offset `o`. -/
def shortAt (d : Bytes) (o : Nat) : Int :=
  let v := leField d o 2
  if v < 2 ^ 15 then v else (v : Int) - 2 ^ 16

/-- The `struct dinode` at offset `o`, and the block with one written there. -/
def dinodeInfo (d : Bytes) (o : Nat) : InodeInfo :=
  ⟨leField d o 2, shortAt d (o + 2), shortAt d (o + 4), shortAt d (o + 6), leField d (o + 8) 4⟩
def dinodeAddrs (d : Bytes) (o n : Nat) : Nat := leField d (o + 12 + 4 * n) 4
def putInfo (d : Bytes) (o : Nat) (info : InodeInfo) : Bytes :=
  let d := putLe d o 2 info.type
  let d := putLe d (o + 2) 2 (info.major % 2 ^ 16).toNat
  let d := putLe d (o + 4) 2 (info.minor % 2 ^ 16).toNat
  let d := putLe d (o + 6) 2 (info.nlink % 2 ^ 16).toNat
  putLe d (o + 8) 4 info.size
def putAddrs (d : Bytes) (o : Nat) (addrs : Nat → Nat) : Bytes := fun x =>
  if o + 12 ≤ x ∧ x < o + 64 then UInt8.ofNat (addrs ((x - (o + 12)) / 4) / 256 ^ ((x - (o + 12)) % 4)) else d x

/-- The offset of an inode in its block. -/
def inodeOff (inum : Nat) : Nat := inum % ipb * 64

section Code

variable (sb : Superblock)

/-! ## The log -/

/-- The loop of `write_log` from log block `tail` on. -/
def writeLog : Nat → List Nat → Code Unit
  | _, [] => pure ()
  | tail, b :: bs => do
    let dst ← bread (sb.logstart + tail + 1)
    let src ← bread b
    bset (sb.logstart + tail + 1) (copied dst src)
    bwrite (sb.logstart + tail + 1)
    brelse b
    brelse (sb.logstart + tail + 1)
    writeLog (tail + 1) bs

/-- The header block with `n` and `block[0..n)` written over it. -/
def headBytes (d : Bytes) (lh : List Nat) : Bytes := fun x =>
  if x < 4 then putLe d 0 4 lh.length x
  else if x < 4 + 4 * lh.length then UInt8.ofNat (lh.getD (x / 4 - 1) 0 / 256 ^ (x % 4))
  else d x

/-- `write_head`. -/
def writeHead (lh : List Nat) : Code Unit := do
  let d ← bread sb.logstart
  bset sb.logstart (headBytes d lh)
  bwrite sb.logstart
  brelse sb.logstart

/-- The loop of `install_trans` from log block `tail` on. -/
def installTrans : Nat → List Nat → Code Unit
  | _, [] => pure ()
  | tail, b :: bs => do
    let lbuf ← bread (sb.logstart + tail + 1)
    let dbuf ← bread b
    bset b (copied dbuf lbuf)
    bwrite b
    brelse (sb.logstart + tail + 1)
    brelse b
    installTrans (tail + 1) bs

/-- `commit`. -/
def commit : Code Unit := do
  let lh ← header
  if 0 < lh.length then do
    writeLog sb 0 lh
    writeHead sb lh
    installTrans sb 0 lh
    act .commitDone
    writeHead sb []
  else pure ()

/-- `end_op`. -/
def endOp : Code Unit := do
  let doCommit : Bool ← act .endOp
  if doCommit then do
    commit sb
    act .commitCleared
  else pure ()

/-- `begin_op`, some code, and `end_op` on every way out of it. -/
def transaction {α : Type} (p : Code α) : Code α := do
  beginOp
  let r ← p
  endOp sb
  pure r

/-! ## Blocks -/

/-- `bzero`. -/
def bzero (b : Nat) : Code Unit := do
  let d ← bread b
  bset b (zeroed d 0 bsize)
  logWrite b
  brelse b

/-- The loop of `balloc` from the bitmap block of `b` on. -/
def ballocLoop : Nat → Nat → Code Nat
  | 0, _ => dieFs .balloc
  | n + 1, b => do
    let d ← bread (sb.bblock b)
    match firstSlot (min bpb (sb.size - b)) fun bi => bitFree d bi with
    | some bi => do
      bset (sb.bblock b) (bitSet d bi)
      logWrite (sb.bblock b)
      brelse (sb.bblock b)
      bzero (b + bi)
      pure (b + bi)
    | none => do
      brelse (sb.bblock b)
      ballocLoop n (b + bpb)

/-- `balloc`. -/
def balloc : Code Nat := ballocLoop sb ((sb.size + (bpb - 1)) / bpb) 0

/-- `bfree`. -/
def bfree (b : Nat) : Code Unit := do
  let d ← bread (sb.bblock b)
  if bitFree d (b % bpb) then dieFs .bfree
  else do
    bset (sb.bblock b) (bitCleared d (b % bpb))
    logWrite (sb.bblock b)
    brelse (sb.bblock b)

/-! ## Inodes -/

/-- The loop of `ialloc` from inode `inum` on. -/
def iallocLoop (dev type : Nat) : Nat → Nat → Code Nat
  | 0, _ => die .iallocNoInodes
  | n + 1, inum => do
    let d ← bread (sb.iblock inum)
    if leField d (inodeOff inum) 2 = 0 then do
      bset (sb.iblock inum) (putLe (zeroed d (inodeOff inum) 64) (inodeOff inum) 2 type)
      logWrite (sb.iblock inum)
      brelse (sb.iblock inum)
      iget dev inum
    else do
      brelse (sb.iblock inum)
      iallocLoop dev type n (inum + 1)

/-- `ialloc`. -/
def ialloc (dev type : Nat) : Code Nat := iallocLoop sb dev type (sb.ninodes - 1) 1

/-- `iupdate`. -/
def iupdate (j : Nat) : Code Unit := do
  let ip ← inode j
  let d ← bread (sb.iblock ip.inum)
  bset (sb.iblock ip.inum) (putAddrs (putInfo d (inodeOff ip.inum) ip.info) (inodeOff ip.inum) ip.addrs)
  logWrite (sb.iblock ip.inum)
  brelse (sb.iblock ip.inum)

/-- `ilock` of a pointer. -/
def ilock : Option Nat → Code Unit
  | none => die .ilock
  | some j => do
    let ip ← inode j
    if ip.ref < 1 then die .ilock
    else do
      act (.acquiresleep j)
      let ip ← inode j
      if ip.valid then pure ()
      else do
        let d ← bread (sb.iblock ip.inum)
        setInfo j (dinodeInfo d (inodeOff ip.inum))
        act (.setAddrs j (dinodeAddrs d (inodeOff ip.inum)))
        brelse (sb.iblock ip.inum)
        act (.setValid j true)
        if (dinodeInfo d (inodeOff ip.inum)).type = 0 then die .ilockNoType else pure ()

/-- `iunlock` of a pointer. -/
def iunlock : Option Nat → Code Unit
  | none => dieFs .iunlock
  | some j => do
    let held : Bool ← act (.holdingsleep j)
    let ip ← inode j
    if !held ∨ ip.ref < 1 then dieFs .iunlock else act (.releasesleep j)

/-- `bmap`. -/
def bmap (j bn : Nat) : Code Nat := do
  if bn < ndirect then do
    let a ← addr j bn
    if a = 0 then do
      let a ← balloc sb
      setAddr j bn a
      pure a
    else pure a
  else if bn - ndirect < nindirect then do
    let a ← addr j ndirect
    let a ← (if a = 0 then do
        let a ← balloc sb
        setAddr j ndirect a
        pure a
      else pure a)
    let d ← bread a
    let e ← entry a (bn - ndirect)
    let e ← (if e = 0 then do
        let e ← balloc sb
        bset a (putLe d (4 * (bn - ndirect)) 4 e)
        logWrite a
        pure e
      else pure e)
    brelse a
    pure e
  else dieFs .bmap

/-- The loop of `itrunc` over the direct blocks, `n` of them left. -/
def truncDirect (j : Nat) : Nat → Nat → Code Unit
  | 0, _ => pure ()
  | n + 1, bn => do
    let ip ← inode j
    if ip.addrs bn = 0 then truncDirect j n (bn + 1)
    else do
      bfree sb (ip.addrs bn)
      setAddr j bn 0
      truncDirect j n (bn + 1)

/-- The loop of `itrunc` over an indirect block, `n` entries left. -/
def truncIndirect (d : Bytes) : Nat → Nat → Code Unit
  | 0, _ => pure ()
  | n + 1, bn =>
    if leField d (4 * bn) 4 = 0 then truncIndirect d n (bn + 1)
    else do
      bfree sb (leField d (4 * bn) 4)
      truncIndirect d n (bn + 1)

/-- `itrunc`. -/
def itrunc (j : Nat) : Code Unit := do
  truncDirect sb j ndirect 0
  let ip ← inode j
  (if ip.addrs ndirect = 0 then pure ()
    else do
      let d ← bread (ip.addrs ndirect)
      truncIndirect sb d nindirect 0
      brelse (ip.addrs ndirect)
      bfree sb (ip.addrs ndirect)
      setAddr j ndirect 0)
  let ip ← inode j
  setInfo j { ip.info with size := 0 }
  iupdate sb j

/-- `iput` of a pointer. -/
def iput : Option Nat → Code Unit
  | none => die .kerneltrap
  | some j => do
    let last : Bool ← act (.iputBegin j)
    if last then do
      itrunc sb j
      let ip ← inode j
      setInfo j { ip.info with type := 0 }
      iupdate sb j
      act (.setValid j false)
      act (.releasesleep j)
      act (.iputEnd j)
    else pure ()

/-- `iunlockput`. -/
def iunlockput (ip : Option Nat) : Code Unit := do
  iunlock ip
  iput sb ip

/-! ## Reading and writing -/

/-- `either_copyout` of `m` bytes to offset `tot` of a user address, or of a kernel buffer, which is returned. -/
def eitherCopyout (user : Option Nat) (buf : Bytes) (tot : Nat) (src : Bytes) (m : Nat) : Code (Bool × Bytes) :=
  match user with
  | some dst => do
    let ok : Bool ← act (.copyout ((dst + tot) % 2 ^ 64) src m)
    pure (ok, buf)
  | none => pure (true, fun x => if tot ≤ x ∧ x < tot + m then src (x - tot) else buf x)

/-- Where `writei` takes its bytes from: a user address or a kernel buffer. -/
inductive Source where
  | user (src : Nat)
  | kernel (buf : Bytes)

/-- `either_copyin` of `m` bytes at offset `tot` of the source over the bytes `buf` of block `b`. -/
def eitherCopyin (src : Source) (tot b : Nat) (buf : Bytes) (m : Nat) : Code (Bool × Bytes) :=
  match src with
  | .user src => act (.copyin b ((src + tot) % 2 ^ 64) buf m)
  | .kernel bytes => pure (true, fun x => if x < m then bytes (tot + x) else buf x)

/-- The loop of `readi`. Each round copies a byte or more, so `n` rounds are enough. -/
def readiLoop (j : Nat) (user : Option Nat) (n : Nat) : Nat → Bytes → Nat → Nat → Code (Int × Bytes)
  | 0, buf, tot, _ => pure (tot, buf)
  | fuel + 1, buf, tot, off =>
    if n ≤ tot then pure (tot, buf)
    else do
      let b ← bmap sb j (off / bsize)
      let d ← bread b
      let (ok, buf) ← eitherCopyout user buf tot (fun x => d (off % bsize + x)) (min (n - tot) (bsize - off % bsize))
      brelse b
      if ok then
        readiLoop j user n fuel buf (tot + min (n - tot) (bsize - off % bsize)) (off + min (n - tot) (bsize - off % bsize))
      else pure (-1, buf)

/-- `readi`: the return value, and the bytes for a kernel buffer. -/
def readi (j : Nat) (user : Option Nat) (off n : Nat) : Code (Int × Bytes) := do
  let ip ← inode j
  if ip.info.size < off ∨ (off + n) % 2 ^ 32 < off then pure (0, fun _ => 0)
  else
    let n := if ip.info.size < off + n then ip.info.size - off else n
    readiLoop sb j user n n (fun _ => 0) 0 off

/-- Bytes `o` to `o + m` of a block replaced. -/
def patched (d : Bytes) (o m : Nat) (buf : Bytes) : Bytes := fun x => if o ≤ x ∧ x < o + m then buf (x - o) else d x

/-- The loop of `writei`: how many bytes it wrote, and where it came to. On a failed copy the buffer is released as it is, not logged.
-/
def writeiLoop (j : Nat) (src : Source) (n : Nat) : Nat → Nat → Nat → Code (Nat × Nat)
  | 0, tot, off => pure (tot, off)
  | fuel + 1, tot, off =>
    if n ≤ tot then pure (tot, off)
    else do
      let b ← bmap sb j (off / bsize)
      let d ← bread b
      let m := min (n - tot) (bsize - off % bsize)
      let (ok, buf) ← eitherCopyin src tot b (fun x => d (off % bsize + x)) m
      bset b (patched d (off % bsize) m buf)
      if ok then do
        logWrite b
        brelse b
        writeiLoop j src n fuel (tot + m) (off + m)
      else do
        brelse b
        pure (tot, off)

/-- `writei`: the return value, as an `int`. -/
def writei (j : Nat) (src : Source) (off n : Nat) : Code Int := do
  let may : Bool ← act (.mayWrite j off n)
  if !may then pure (-1)
  else do
    let (tot, off) ← writeiLoop sb j src n n 0 off
    let ip ← inode j
    (if ip.info.size < off then setInfo j { ip.info with size := off } else pure ())
    iupdate sb j
    pure tot

/-! ## Directories and paths -/

/-- One `struct dirent` read; none when fewer bytes are there. -/
def readDirent (j off : Nat) : Code (Option Bytes) := do
  let (r, de) ← readi sb j none off 16
  pure (if r = 16 then some de else none)

/-- The loop of `dirlookup` over the `n` entries from `off` on. -/
def dirScan (j dev : Nat) (name : List UInt8) : Nat → Nat → Code (Option (Nat × Nat))
  | 0, _ => pure none
  | n + 1, off => do
    match ← readDirent sb j off with
    | none => die .dirlookupRead
    | some de =>
      if direntInum de = 0 then dirScan j dev name n (off + 16)
      else if strncmpEq (nameBuf name) (fun x => de (2 + x)) dirsiz 0 then do
        let ip ← iget dev (direntInum de)
        pure (some (ip, off))
      else dirScan j dev name n (off + 16)

/-- `dirlookup`: the inode of the entry and the offset of the entry. -/
def dirlookup (j : Nat) (name : List UInt8) : Code (Option (Nat × Nat)) := do
  let dp ← inode j
  if dp.info.type ≠ tDir then die .dirlookupNotDir
  else dirScan sb j dp.dev name ((dp.info.size + 15) / 16) 0

/-- The loop of `dirlink` that looks for a free entry. -/
def dirFree (j : Nat) : Nat → Nat → Code Nat
  | 0, off => pure off
  | n + 1, off => do
    match ← readDirent sb j off with
    | none => die .dirlinkRead
    | some de => if direntInum de = 0 then pure off else dirFree j n (off + 16)

/-- `dirlink`: `false` for its return value `-1`. -/
def dirlink (j : Nat) (name : List UInt8) (inum : Nat) : Code Bool := do
  match ← dirlookup sb j name with
  | some (ip, _) => do
    iput sb (some ip)
    pure false
  | none => do
    let dp ← inode j
    let off ← dirFree sb j ((dp.info.size + 15) / 16) 0
    let r ← writei sb j (.kernel (mkDirent name inum)) off 16
    if r = 16 then pure true else die .dirlink

/-- The loop of `namex` from inode `ip` on. Each round shortens the path, so its length bounds them. -/
def namexLoop (parent : Bool) : Nat → Nat → List UInt8 → Code (Option (Nat × List UInt8))
  | 0, _, _ => die .hang
  | fuel + 1, ip, path =>
    match skipelem path with
    | none =>
      if parent then do
        iput sb (some ip)
        pure none
      else pure (some (ip, []))
    | some (name, rest) => do
      ilock sb (some ip)
      let i ← inode ip
      if i.info.type ≠ tDir then do
        iunlockput sb (some ip)
        pure none
      else if parent && rest.isEmpty then do
        iunlock (some ip)
        pure (some (ip, name))
      else do
        match ← dirlookup sb ip name with
        | none => do
          iunlockput sb (some ip)
          pure none
        | some (next, _) => do
          iunlockput sb (some ip)
          namexLoop parent fuel next rest

/-- `namex`. -/
def namex (parent : Bool) (path : List UInt8) : Code (Option (Nat × List UInt8)) := do
  if path.head? = some slash then do
    let ip ← iget rootDev rootIno
    namexLoop sb parent (path.length + 1) ip path
  else do
    let cwd : Option Nat ← act .cwd
    match cwd with
    | none => die .kerneltrap
    | some ip => do
      act (.idup ip)
      namexLoop sb parent (path.length + 1) ip path

/-- `namei` and `nameiparent`. -/
def namei (path : List UInt8) : Code (Option Nat) := do
  let r ← namex sb false path
  pure (r.map (·.1))
def nameiparent (path : List UInt8) : Code (Option (Nat × List UInt8)) := namex sb true path

end Code

end Xv6Mmap.Blk

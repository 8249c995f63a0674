import Xv6Mmap.Kalloc
import Xv6Mmap.Lib.Slots

/-!
# Inodes, directories and paths

The inode layer of `fs.c` and the layers above it. The content of an inode is a function from offsets to bytes, kept with the inode on
the disk, for which `bmap` and its block addresses stand. What lies below (log, buffer cache, block allocator, disk) enters in one
way: `io` says whether it carries the writes of the current call. When it does not (a write outside a transaction, one that outgrows
the log, a full disk), the first write stops the kernel.

Kernel calls run one at a time here, so sleep-locks are left out.
-/

namespace Xv6Mmap

open Function

/-- `BSIZE`, `MAXFILE * BSIZE`, `DIRSIZ`, `ROOTDEV` and `ROOTINO`. -/
abbrev bsize : Nat := 1024
abbrev maxFileBytes : Nat := (12 + bsize / 4) * bsize
abbrev dirsiz : Nat := 14
abbrev rootDev : Nat := 1
abbrev rootIno : Nat := 1

/-- `T_DIR`, `T_FILE` and `T_DEVICE`; type `0` is a free inode. -/
abbrev tDir : Nat := 1
abbrev tFile : Nat := 2
abbrev tDevice : Nat := 3

/-- A number stored in a `short`. -/
def toShort (x : Int) : Int := (x + 2 ^ 15) % 2 ^ 16 - 2 ^ 15

/-- What an in-memory inode copies from the disk, without the addresses. -/
structure InodeInfo where
  type : Nat
  major : Int
  minor : Int
  nlink : Int
  size : Nat

/-- An inode on the disk: its fields and its content. -/
structure Dinode where
  info : InodeInfo
  data : Nat → UInt8

/-- `struct inode`, an entry of the inode table. -/
structure Inode where
  dev : Nat
  inum : Nat
  ref : Int
  valid : Bool
  info : InodeInfo

/-- The inode table, the disk, and `sb.ninodes`. -/
structure Fs where
  itable : Nat → Inode
  disk : Nat → Nat → Dinode
  ninodes : Nat

namespace Fs

/-- The inode on the disk that a table entry is a copy of. -/
def dinode (fs : Fs) (i : Nat) : Dinode := fs.disk (fs.itable i).dev (fs.itable i).inum

/-- The content of the inode of a table entry. -/
def data (fs : Fs) (i : Nat) : Nat → UInt8 := (fs.dinode i).data

/-- A table entry changed. -/
def setInode (fs : Fs) (i : Nat) (ip : Inode) : Fs := { fs with itable := update fs.itable i ip }

/-- An inode on the disk changed. -/
def setDinode (fs : Fs) (dev inum : Nat) (d : Dinode) : Fs :=
  { fs with disk := update fs.disk dev (update (fs.disk dev) inum d) }

/-- `nlink` of an in-memory inode counted up or down. -/
def addLink (fs : Fs) (i : Nat) (n : Int) : Fs :=
  fs.setInode i { fs.itable i with info := { (fs.itable i).info with nlink := toShort ((fs.itable i).info.nlink + n) } }

end Fs

/-! ## The inode table -/

/-- `iget`: the entry of the inode, or the first free entry, recycled. -/
def iget (fs : Fs) (dev inum : Nat) : Except Panic (Nat × Fs) :=
  match firstSlot ninode fun i =>
      decide (0 < (fs.itable i).ref) && (fs.itable i).dev == dev && (fs.itable i).inum == inum with
  | some i => pure (i, fs.setInode i { fs.itable i with ref := (fs.itable i).ref + 1 })
  | none =>
    match firstSlot ninode fun i => (fs.itable i).ref == 0 with
    | none => throw .igetNoInodes
    | some i => pure (i, fs.setInode i { fs.itable i with dev := dev, inum := inum, ref := 1, valid := false })

/-- `idup` of a pointer. -/
def idup (fs : Fs) : Option Nat → Except Panic Fs
  | none => throw .kerneltrap
  | some i => pure (fs.setInode i { fs.itable i with ref := (fs.itable i).ref + 1 })

/-- `iupdate`: the fields of the in-memory inode go to the disk. -/
def iupdate (io : Bool) (fs : Fs) (i : Nat) : Except Panic Fs :=
  if io then
    let ip := fs.itable i
    pure (fs.setDinode ip.dev ip.inum { fs.dinode i with info := ip.info })
  else throw .blockLayer

/-- `ialloc`: the first free inode of the disk, marked allocated. -/
def ialloc (io : Bool) (fs : Fs) (dev type : Nat) : Except Panic (Nat × Fs) :=
  match firstSlot fs.ninodes fun inum => decide (1 ≤ inum) && (fs.disk dev inum).info.type == 0 with
  | none => throw .iallocNoInodes
  | some inum =>
    if io then iget (fs.setDinode dev inum ⟨⟨type, 0, 0, 0, 0⟩, fun _ => 0⟩) dev inum else throw .blockLayer

/-- `ilock`: the fields are read from the disk if they were not. -/
def ilock (fs : Fs) : Option Nat → Except Panic Fs
  | none => throw .ilock
  | some i =>
    let ip := fs.itable i
    if ip.ref < 1 then throw .ilock
    else if ip.valid then pure fs
    else if (fs.dinode i).info.type = 0 then throw .ilockNoType
    else pure (fs.setInode i { ip with valid := true, info := (fs.dinode i).info })

/-- `itrunc`: the content is discarded. -/
def itrunc (io : Bool) (fs : Fs) (i : Nat) : Except Panic Fs :=
  let ip := fs.itable i
  iupdate io ((fs.setInode i { ip with info := { ip.info with size := 0 } }).setDinode ip.dev ip.inum
    { fs.dinode i with data := fun _ => 0 }) i

/-- The last reference of an inode without links goes: it is freed on the disk. -/
def ifree (io : Bool) (fs : Fs) (i : Nat) : Except Panic Fs := do
  let fs ← itrunc io fs i
  let ip := fs.itable i
  let fs ← iupdate io (fs.setInode i { ip with info := { ip.info with type := 0 } }) i
  pure (fs.setInode i { fs.itable i with valid := false })

/-- `iput` of a pointer. -/
def iput (io : Bool) (fs : Fs) : Option Nat → Except Panic Fs
  | none => throw .kerneltrap
  | some i => do
    let ip := fs.itable i
    let fs ← (if ip.ref = 1 ∧ ip.valid = true ∧ ip.info.nlink = 0 then ifree io fs i else pure fs)
    pure (fs.setInode i { fs.itable i with ref := (fs.itable i).ref - 1 })

/-! ## Reading and writing -/

/-- The loop of `readi`: `n` bytes from `off` on, by blocks, handed to `put` with the offset `tot` so far. -/
def readiLoop {σ : Type} (data : Nat → UInt8) (put : σ → Nat → (Nat → UInt8) → Nat → Bool × σ) (n : Nat) :
    Nat → σ → Nat → Nat → Int × σ
  | 0, s, tot, _ => (tot, s)
  | fuel + 1, s, tot, off =>
    if n ≤ tot then (tot, s)
    else
      let m := min (n - tot) (bsize - off % bsize)
      match put s tot (fun x => data (off + x)) m with
      | (false, s) => (-1, s)
      | (true, s) => readiLoop data put n fuel s (tot + m) (off + m)

/-- `readi` on `data` of `size` bytes, for its return value as an `int`: `put s o src m` copies `m` bytes to offset `o` and says
whether that succeeded. -/
def readi {σ : Type} (size : Nat) (data : Nat → UInt8) (put : σ → Nat → (Nat → UInt8) → Nat → Bool × σ) (s : σ)
    (off n : Nat) : Int × σ :=
  if size < off ∨ (off + n) % 2 ^ 32 < off then (0, s)
  else
    let n := if size < off + n then size - off else n
    readiLoop data put n n s 0 off

/-- The loop of `writei`: `n` bytes go from `get` into the content from `off` on, by blocks. -/
def writeiLoop (get : Nat → (Nat → UInt8) → Nat → Bool × (Nat → UInt8)) (n : Nat) :
    Nat → (Nat → UInt8) → Nat → Nat → Nat × Nat × (Nat → UInt8)
  | 0, data, tot, off => (tot, off, data)
  | fuel + 1, data, tot, off =>
    if n ≤ tot then (tot, off, data)
    else
      let m := min (n - tot) (bsize - off % bsize)
      let (ok, buf) := get tot (fun x => data (off + x)) m
      let data := fun x => if off ≤ x ∧ x < off + m then buf (x - off) else data x
      if ok then writeiLoop get n fuel data (tot + m) (off + m) else (tot, off, data)

/-- `writei`, for its return value as an `int`: `get o buf m` copies `m` bytes at offset `o` of the source over `buf`. -/
def writei (io : Bool) (fs : Fs) (i : Nat) (get : Nat → (Nat → UInt8) → Nat → Bool × (Nat → UInt8)) (off n : Nat) :
    Except Panic (Int × Fs) :=
  let ip := fs.itable i
  if ip.info.size < off ∨ (off + n) % 2 ^ 32 < off then pure (-1, fs)
  else if maxFileBytes < off + n then pure (-1, fs)
  else do
    let (tot, off, data) := writeiLoop get n n (fs.data i) 0 off
    let fs := fs.setDinode ip.dev ip.inum { fs.dinode i with data := data }
    let size := if ip.info.size < off then off else ip.info.size
    let fs ← iupdate io (fs.setInode i { ip with info := { ip.info with size := size } }) i
    pure (tot, fs)

/-- `either_copyout` to a kernel buffer. -/
def bufPut (buf : Nat → UInt8) (o : Nat) (src : Nat → UInt8) (m : Nat) : Bool × (Nat → UInt8) :=
  (true, fun x => if o ≤ x ∧ x < o + m then src (x - o) else buf x)

/-- `either_copyin` from a kernel buffer. -/
def bufGet (src : Nat → UInt8) (o : Nat) (buf : Nat → UInt8) (m : Nat) : Bool × (Nat → UInt8) :=
  (true, fun x => if x < m then src (o + x) else buf x)

/-! ## Directories -/

/-- `strncmp(s, t, n) == 0`. -/
def strncmpEq (s t : Nat → UInt8) : Nat → Nat → Bool
  | 0, _ => true
  | n + 1, x => if s x ≠ 0 ∧ s x = t x then strncmpEq s t n (x + 1) else s x == t x

/-- A path element as the buffer `name[DIRSIZ]`: filled up with NUL. -/
def nameBuf (name : List UInt8) (x : Nat) : UInt8 := name.getD x 0

/-- `readi` of one `struct dirent`: none when fewer bytes are there. -/
def readDirent (size : Nat) (data : Nat → UInt8) (off : Nat) : Option (Nat → UInt8) :=
  let (r, buf) := readi size data bufPut (fun _ => 0) off 16
  if r = 16 then some buf else none

/-- `de.inum`. -/
def direntInum (de : Nat → UInt8) : Nat := (de 0).toNat + 256 * (de 1).toNat

/-- The loop of `dirlookup` over `n` entries from `off` on: the offset and inode number of the entry. -/
def dirScan (size : Nat) (data : Nat → UInt8) (name : List UInt8) : Nat → Nat → Except Panic (Option (Nat × Nat))
  | 0, _ => pure none
  | n + 1, off =>
    match readDirent size data off with
    | none => throw .dirlookupRead
    | some de =>
      if direntInum de = 0 then dirScan size data name n (off + 16)
      else if strncmpEq (nameBuf name) (fun x => de (2 + x)) dirsiz 0 then pure (some (off, direntInum de))
      else dirScan size data name n (off + 16)

/-- `dirlookup`: the inode an entry names, referenced. -/
def dirlookup (fs : Fs) (dp : Nat) (name : List UInt8) : Except Panic (Option Nat × Fs) :=
  let d := fs.itable dp
  if d.info.type ≠ tDir then throw .dirlookupNotDir
  else do
    match ← dirScan d.info.size (fs.data dp) name ((d.info.size + 15) / 16) 0 with
    | none => pure (none, fs)
    | some (_, inum) => do
      let (i, fs) ← iget fs d.dev inum
      pure (some i, fs)

/-- The loop of `dirlink` over `n` entries from `off` on: the first free one, or the end. -/
def dirFree (size : Nat) (data : Nat → UInt8) : Nat → Nat → Except Panic Nat
  | 0, off => pure off
  | n + 1, off =>
    match readDirent size data off with
    | none => throw .dirlinkRead
    | some de => if direntInum de = 0 then pure off else dirFree size data n (off + 16)

/-- A `struct dirent` as bytes. -/
def mkDirent (name : List UInt8) (inum x : Nat) : UInt8 :=
  if x = 0 then UInt8.ofNat inum else if x = 1 then UInt8.ofNat (inum / 256) else nameBuf (name.take dirsiz) (x - 2)

/-- `dirlink`: `false` for its return value `-1`. -/
def dirlink (io : Bool) (fs : Fs) (dp : Nat) (name : List UInt8) (inum : Nat) : Except Panic (Bool × Fs) := do
  let (found, fs) ← dirlookup fs dp name
  match found with
  | some i => do
    let fs ← iput io fs (some i)
    pure (false, fs)
  | none => do
    let size := (fs.itable dp).info.size
    let off ← dirFree size (fs.data dp) ((size + 15) / 16) 0
    let (r, fs) ← writei io fs dp (bufGet (mkDirent name inum)) off 16
    if r = 16 then pure (true, fs) else throw .dirlink

/-! ## Paths -/

/-- The character `/`. -/
abbrev slash : UInt8 := 47

/-- `skipelem`: the next path element, cut to `DIRSIZ` bytes, and the rest. -/
def skipelem (path : List UInt8) : Option (List UInt8 × List UInt8) :=
  let path := path.dropWhile (· == slash)
  if path.isEmpty then none
  else some ((path.takeWhile (· != slash)).take dirsiz, (path.dropWhile (· != slash)).dropWhile (· == slash))

/-- The loop of `namex` from inode `ip` on: the inode and the last path element, or none. Each round shortens the path, so its length
bounds them. -/
def namexLoop (io parent : Bool) : Nat → Fs → Nat → List UInt8 → Except Panic (Option (Nat × List UInt8) × Fs)
  | 0, _, _, _ => throw .hang
  | fuel + 1, fs, ip, path =>
    match skipelem path with
    | none =>
      if parent then do
        let fs ← iput io fs (some ip)
        pure (none, fs)
      else pure (some (ip, []), fs)
    | some (name, rest) => do
      let fs ← ilock fs (some ip)
      if (fs.itable ip).info.type ≠ tDir then do
        let fs ← iput io fs (some ip)
        pure (none, fs)
      else if parent && rest.isEmpty then pure (some (ip, name), fs)
      else do
        let (next, fs) ← dirlookup fs ip name
        let fs ← iput io fs (some ip)
        match next with
        | none => pure (none, fs)
        | some next => namexLoop io parent fuel fs next rest

/-- `namex` for a process with current directory `cwd`. -/
def namex (io parent : Bool) (fs : Fs) (cwd : Option Nat) (path : List UInt8) :
    Except Panic (Option (Nat × List UInt8) × Fs) :=
  if path.head? = some slash then do
    let (ip, fs) ← iget fs rootDev rootIno
    namexLoop io parent (path.length + 1) fs ip path
  else do
    let fs' ← idup fs cwd
    match cwd with
    | none => throw .kerneltrap
    | some ip => namexLoop io parent (path.length + 1) fs' ip path

/-- `namei`. -/
def namei (io : Bool) (fs : Fs) (cwd : Option Nat) (path : List UInt8) : Except Panic (Option Nat × Fs) := do
  let (r, fs) ← namex io false fs cwd path
  pure (r.map (·.1), fs)

/-- `nameiparent`: the inode of the parent and the last path element. -/
def nameiparent (io : Bool) (fs : Fs) (cwd : Option Nat) (path : List UInt8) :
    Except Panic (Option (Nat × List UInt8) × Fs) :=
  namex io true fs cwd path

/-- The entries `.` and `..` of the new directory `ip` in `dp`. -/
def createDots (io : Bool) (fs : Fs) (ip dp : Nat) : Except Panic Fs := do
  let fs ← iupdate io (fs.addLink dp 1) dp
  let (ok, fs) ← dirlink io fs ip [46] (fs.itable ip).inum
  if !ok then throw .createDots
  else do
    let (ok, fs) ← dirlink io fs ip [46, 46] (fs.itable dp).inum
    if !ok then throw .createDots else pure fs

/-- `create`: an existing file or device where a file is asked for, or a new inode; locked and referenced. -/
def create (io : Bool) (fs : Fs) (cwd : Option Nat) (path : List UInt8) (type : Nat) (major minor : Int) :
    Except Panic (Option Nat × Fs) := do
  let (r, fs) ← nameiparent io fs cwd path
  match r with
  | none => pure (none, fs)
  | some (dp, name) => do
    let fs ← ilock fs (some dp)
    let (found, fs) ← dirlookup fs dp name
    match found with
    | some ip => do
      let fs ← iput io fs (some dp)
      let fs ← ilock fs (some ip)
      let t := (fs.itable ip).info.type
      if type = tFile ∧ (t = tFile ∨ t = tDevice) then pure (some ip, fs)
      else do
        let fs ← iput io fs (some ip)
        pure (none, fs)
    | none => do
      let (ip, fs) ← ialloc io fs (fs.itable dp).dev type
      let fs ← ilock fs (some ip)
      let i := fs.itable ip
      let fs ← iupdate io (fs.setInode ip { i with info := { i.info with major := major, minor := minor, nlink := 1 } }) ip
      let fs ← (if type = tDir then createDots io fs ip dp else pure fs)
      let (ok, fs) ← dirlink io fs dp name (fs.itable ip).inum
      if !ok then throw .createDirlink
      else do
        let fs ← iput io fs (some dp)
        pure (some ip, fs)

end Xv6Mmap

import Xv6Mmap.Volume

/-!
# `mkfs`

`mkfs/mkfs.c`, which makes the first disk image on the build host. The state is the image and the counters of the next free inode and
block. A sector past the end of the image cannot be read, which ends the program, so no counter gets far beyond the image. The files
come from the host: the path of each, and the pieces that `read` returns, of at most a block.

A `struct dinode` in memory is its bytes. `xint` and `xshort` give the bytes of a number in the order of the disk.
-/

namespace Xv6Mmap.Blk

/-- `FSSIZE` and `NINODES`. -/
abbrev fsSize : Nat := 1000
abbrev mkNinodes : Nat := 200

/-- `nbitmap`, `ninodeblocks` and `nmeta`. -/
abbrev nbitmap : Nat := fsSize / bpb + 1
abbrev ninodeblocks : Nat := mkNinodes / ipb + 1
abbrev nmeta : Nat := 2 + mkfsNlog + ninodeblocks + nbitmap

/-- The superblock that `mkfs` writes. -/
def mkSb : Superblock := ⟨fsSize, mkNinodes, 2, 2 + mkfsNlog, 2 + mkfsNlog + ninodeblocks⟩

/-- The ways to end other than `exit(0)`: `die`, and an assertion that fails. -/
inductive MkfsError where
  | die (s : String)
  | assert
  deriving DecidableEq, Repr

/-- The image with its length in sectors, and the counters. -/
structure Mkfs where
  image : Nat → Bytes
  sectors : Nat
  freeinode : Nat
  freeblock : Nat

/-- A file of the host: its path, and what `read` returns until the end, unless it cannot be opened. -/
structure HostFile where
  path : List UInt8
  pieces : Option (List { l : List UInt8 // 0 < l.length ∧ l.length ≤ bsize })

namespace Mkfs

variable (st : Mkfs)

/-- The sector at `sec * BSIZE`, an offset that is a `uint`. -/
def sector (sec : Nat) : Nat := sec * bsize % 2 ^ 32 / bsize

/-- `rsect`. -/
def rsect (sec : Nat) : Except MkfsError Bytes :=
  if sector sec < st.sectors then pure (st.image (sector sec)) else throw (.die "read")

/-- `wsect`. -/
def wsect (sec : Nat) (buf : Bytes) : Mkfs :=
  { st with image := Function.update st.image (sector sec) buf, sectors := max st.sectors (sector sec + 1) }

/-- `winode`. -/
def winode (inum : Nat) (din : Bytes) : Except MkfsError Mkfs := do
  let buf ← st.rsect (mkSb.iblock inum)
  pure (st.wsect (mkSb.iblock inum) fun x =>
    if inodeOff inum ≤ x ∧ x < inodeOff inum + 64 then din (x - inodeOff inum) else buf x)

/-- `rinode`. -/
def rinode (inum : Nat) : Except MkfsError Bytes := do
  let buf ← st.rsect (mkSb.iblock inum)
  pure fun x => buf (inodeOff inum + x)

/-- `ialloc`. -/
def ialloc (type : Nat) : Except MkfsError (Nat × Mkfs) := do
  let din := putLe (fun _ => 0) 0 2 type
  let din := putLe din 6 2 1
  let din := putLe din 8 4 0
  let st' ← winode { st with freeinode := st.freeinode + 1 } st.freeinode din
  pure (st.freeinode, st')

/-- The bitmap block in which the first blocks are in use. -/
def bitmapBytes : Nat → Bytes
  | 0 => fun _ => 0
  | used + 1 => bitSet (bitmapBytes used) used

/-- `balloc`. -/
def balloc (used : Nat) : Except MkfsError Mkfs :=
  if used < bsize * 8 then pure (st.wsect mkSb.bmapstart (bitmapBytes used)) else throw .assert

/-- A block number at offset `o` of `d`: a new one where there is none. -/
def fill (d : Bytes) (o : Nat) : Bytes × Mkfs :=
  if leField d o 4 = 0 then (putLe d o 4 st.freeblock, { st with freeblock := st.freeblock + 1 }) else (d, st)

/-- The block of `iappend` for block `fbn` of the file, with the inode `din` in memory. -/
def fileBlock (din : Bytes) (fbn : Nat) : Except MkfsError (Nat × Bytes × Mkfs) :=
  if fbn < ndirect then
    let (din, st) := st.fill din (12 + 4 * fbn)
    pure (leField din (12 + 4 * fbn) 4, din, st)
  else do
    let (din, st) := st.fill din (12 + 4 * ndirect)
    let indirect ← st.rsect (leField din (12 + 4 * ndirect) 4)
    let (indirect', st) := st.fill indirect (4 * (fbn - ndirect))
    let st := if leField indirect (4 * (fbn - ndirect)) 4 = 0 then st.wsect (leField din (12 + 4 * ndirect) 4) indirect' else st
    pure (leField indirect' (4 * (fbn - ndirect)) 4, din, st)

/-- The loop of `iappend` with the bytes `p` left; each round takes some of them. -/
def iappendLoop : Nat → Mkfs → Bytes → Nat → List UInt8 → Except MkfsError (Mkfs × Bytes × Nat)
  | 0, st, din, off, _ => pure (st, din, off)
  | fuel + 1, st, din, off, p =>
    if p = [] then pure (st, din, off)
    else if off / bsize < maxfile then do
      let (x, din, st) ← st.fileBlock din (off / bsize)
      let n1 := min p.length ((off / bsize + 1) * bsize - off)
      let buf ← st.rsect x
      let st := st.wsect x fun y =>
        if off - off / bsize * bsize ≤ y ∧ y < off - off / bsize * bsize + n1 then p.getD (y - (off - off / bsize * bsize)) 0
        else buf y
      iappendLoop fuel st din (off + n1) (p.drop n1)
    else throw .assert

/-- `iappend`. -/
def iappend (inum : Nat) (p : List UInt8) : Except MkfsError Mkfs := do
  let din ← st.rinode inum
  let (st, din, off) ← iappendLoop p.length st din (leField din 8 4) p
  st.winode inum (putLe din 8 4 off)

/-- A `struct dirent`, with `strncpy` of the name. -/
def dirent (inum : Nat) (name : List UInt8) : List UInt8 :=
  [UInt8.ofNat inum, UInt8.ofNat (inum / 256)] ++ (name.take dirsiz ++ List.replicate (dirsiz - name.length) 0)

/-- `user/`. -/
def userDir : List UInt8 := [117, 115, 101, 114, 47]

/-- The path without `user/`. -/
def shortname (path : List UInt8) : List UInt8 := if userDir.isPrefixOf path then path.drop 5 else path

/-- The name without a leading `_`. -/
def linkname (short : List UInt8) : List UInt8 := if short.head? = some 95 then short.drop 1 else short

/-- The pieces of a file appended to its inode. -/
def appendAll (inum : Nat) : List { l : List UInt8 // 0 < l.length ∧ l.length ≤ bsize } → Mkfs → Except MkfsError Mkfs
  | [], st => pure st
  | p :: ps, st => do
    let st ← st.iappend inum p.1
    appendAll inum ps st

/-- A round of the loop of `main` over its arguments. -/
def addFile (f : HostFile) : Except MkfsError Mkfs :=
  if slash ∈ shortname f.path then throw .assert
  else
    match f.pieces with
    | none => throw (.die "open")
    | some pieces => do
      let (inum, st) ← st.ialloc tFile
      let st ← st.iappend rootIno (dirent inum (linkname (shortname f.path)))
      appendAll inum pieces st

/-- The loop of `main` over its arguments. -/
def addFiles : List HostFile → Mkfs → Except MkfsError Mkfs
  | [], st => pure st
  | f :: fs, st => do
    let st ← st.addFile f
    addFiles fs st

/-- The size of the root directory is rounded up. -/
def fixRoot : Except MkfsError Mkfs := do
  let din ← st.rinode rootIno
  st.winode rootIno (putLe din 8 4 ((leField din 8 4 / bsize + 1) * bsize))

end Mkfs

/-- The fields of `struct superblock` on the disk. -/
def sbFields : List Nat :=
  [0x10203040, fsSize, fsSize - nmeta, mkNinodes, mkfsNlog, mkSb.logstart, mkSb.inodestart, mkSb.bmapstart]
def sbBytes : Bytes := fun x => if x < 4 * sbFields.length then UInt8.ofNat (sbFields.getD (x / 4) 0 / 256 ^ (x % 4)) else 0

/-- The image with the superblock and otherwise zeroes. -/
def blankImage : Mkfs := ⟨fun b => if b = 1 then sbBytes else fun _ => 0, fsSize, 1, nmeta⟩

/-- `main`, with the files of its arguments: the state at `exit(0)`. -/
def mkfs (files : List HostFile) : Except MkfsError Mkfs := do
  let (root, st) ← blankImage.ialloc tDir
  if root = rootIno then do
    let st ← st.iappend root (Mkfs.dirent root [46])
    let st ← st.iappend root (Mkfs.dirent root [46, 46])
    let st ← Mkfs.addFiles files st
    let st ← st.fixRoot
    st.balloc st.freeblock
  else throw .assert

end Xv6Mmap.Blk

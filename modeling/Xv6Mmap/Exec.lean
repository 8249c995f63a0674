import Xv6Mmap.Proc

/-!
# `exec`

`exec.c`, up to its commit point and after. The arguments are byte strings: the pages into which `sys_exec` copies them are left out.
`exec` does not look at the VMAs of the process.
-/

namespace Xv6Mmap

/-- `MAXARG`. -/
abbrev maxArg : Nat := 32

/-- An `n`-byte field at offset `o`, little-endian. -/
def leField (buf : Nat → UInt8) (o : Nat) : Nat → Nat
  | 0 => 0
  | n + 1 => (buf o).toNat + 256 * leField buf (o + 1) n

/-- `ELF_MAGIC` and `ELF_PROG_LOAD`. -/
abbrev elfMagic : Nat := 0x464C457F
abbrev elfProgLoad : Nat := 1

/-- The fields of `struct elfhdr` that `exec` reads. -/
structure ElfHdr where
  magic : Nat
  entry : Nat
  phoff : Nat
  phnum : Nat

/-- The fields of `struct proghdr` that `exec` reads. -/
structure ProgHdr where
  type : Nat
  off : Nat
  vaddr : Nat
  filesz : Nat
  memsz : Nat

/-- The header at the start of a file; none when the file is too short. -/
def readElf (size : Nat) (data : Nat → UInt8) : Option ElfHdr :=
  let (r, buf) := readi size data bufPut (fun _ => 0) 0 64
  if r = 64 then some ⟨leField buf 0 4, leField buf 24 8, leField buf 32 8, leField buf 56 2⟩ else none

/-- The program header at offset `off`; none when the file is too short. -/
def readProgHdr (size : Nat) (data : Nat → UInt8) (off : Nat) : Option ProgHdr :=
  let (r, buf) := readi size data bufPut (fun _ => 0) off 56
  if r = 56 then
    some ⟨leField buf 0 4, leField buf 8 8, leField buf 16 8, leField buf 32 8, leField buf 40 8⟩
  else none

/-- The loop of `loadseg` over `n` pages from index `i` on: `false` for `-1`. -/
def loadsegLoop (pt : PageTable) (size : Nat) (data : Nat → UInt8) (va offset sz : Nat) :
    Nat → Nat → (Nat → Nat → UInt8) → Except Panic (Bool × (Nat → Nat → UInt8))
  | 0, _, ram => pure (true, ram)
  | n + 1, i, ram =>
    let pa := walkaddr pt ((va + i) % 2 ^ 64)
    if pa = 0 then throw .loadseg
    else
      let len := min (sz - i) pgSize
      let (r, ram) := readi size data (fun ram o src m => (true, writeRam ram (pa / pgSize) o src m)) ram
        ((offset + i) % 2 ^ 32) len
      if r = len then loadsegLoop pt size data va offset sz n (i + pgSize) ram else pure (false, ram)

/-- `loadseg`, its offset and size `uint`s. -/
def loadseg (pt : PageTable) (size : Nat) (data : Nat → UInt8) (ram : Nat → Nat → UInt8) (va offset sz : Nat) :
    Except Panic (Bool × (Nat → Nat → UInt8)) :=
  loadsegLoop pt size data va (offset % 2 ^ 32) (sz % 2 ^ 32) ((sz % 2 ^ 32 + (pgSize - 1)) / pgSize) 0 ram

/-- The loop of `exec` over program headers, `n` left: `false` for `bad`. -/
def execLoad (Λ : Layout) (size : Nat) (data : Nat → UInt8) : Nat → Nat → Nat → PageTable → Mem →
    Except Panic (Bool × Nat × PageTable × Mem)
  | 0, _, sz, pt, m => pure (true, sz, pt, m)
  | n + 1, off, sz, pt, m =>
    match readProgHdr size data (off % 2 ^ 32) with
    | none => pure (false, sz, pt, m)
    | some ph =>
      if ph.type ≠ elfProgLoad then execLoad Λ size data n (off + 56) sz pt m
      else if ph.memsz < ph.filesz then pure (false, sz, pt, m)
      else if (ph.vaddr + ph.memsz) % 2 ^ 64 < ph.vaddr then pure (false, sz, pt, m)
      else do
        let (sz1, pt, m) ← uvmalloc Λ pt m sz (ph.vaddr + ph.memsz)
        if sz1 = 0 then pure (false, sz, pt, m)
        else if ph.vaddr % pgSize ≠ 0 then pure (false, sz1, pt, m)
        else do
          let (ok, ram) ← loadseg pt size data m.ram ph.vaddr ph.off ph.filesz
          let m := { m with ram := ram }
          if ok then execLoad Λ size data n (off + 56) sz1 pt m else pure (false, sz1, pt, m)

/-- The loop of `exec` that pushes the arguments from `argc` on: the stack pointer and the pointers so far. -/
def pushArgs (pt : PageTable) (stackbase : Nat) : List (List UInt8) → Nat → Nat → List Nat → (Nat → Nat → UInt8) →
    Option (Nat × List Nat) × (Nat → Nat → UInt8)
  | [], _, sp, ustack, ram => (some (sp, ustack), ram)
  | arg :: argv, argc, sp, ustack, ram =>
    if maxArg ≤ argc then (none, ram)
    else
      let sp := (sp + 2 ^ 64 - (arg.length + 1)) % 2 ^ 64
      let sp := sp - sp % 16
      if sp < stackbase then (none, ram)
      else
        let (ok, ram) := copyout pt ram sp (nameBuf arg) (arg.length + 1)
        if ok then pushArgs pt stackbase argv (argc + 1) sp (ustack ++ [sp]) ram else (none, ram)

/-- The stack of the new program: the arguments and their array of pointers. -/
def execStack (pt : PageTable) (sz : Nat) (argv : List (List UInt8)) (ram : Nat → Nat → UInt8) :
    Bool × (Nat → Nat → UInt8) :=
  let stackbase := sz - pgSize
  match pushArgs pt stackbase argv 0 sz [] ram with
  | (none, ram) => (false, ram)
  | (some (sp, ustack), ram) =>
    let sp := (sp + 2 ^ 64 - (ustack.length + 1) * 8) % 2 ^ 64
    let sp := sp - sp % 16
    if sp < stackbase then (false, ram)
    else
      copyout pt ram sp (fun x => UInt8.ofNat ((ustack ++ [0]).getD (x / 8) 0 / 256 ^ (x % 8))) ((ustack.length + 1) * 8)

/-- The new page table of `exec`, with the program and a stack: none for a jump to `bad`, where it is freed. -/
def execImage (Λ : Layout) (m : Mem) (tf size : Nat) (data : Nat → UInt8) (argv : List (List UInt8)) :
    Except Panic (Option (Nat × PageTable) × Mem) :=
  match readElf size data with
  | none => pure (none, m)
  | some elf =>
    if elf.magic ≠ elfMagic then pure (none, m)
    else do
      let (pt, m) ← procPagetable Λ m tf
      match pt with
      | none => pure (none, m)
      | some pt => do
        let (ok, sz, pt, m) ← execLoad Λ size data elf.phnum elf.phoff 0 pt m
        if !ok then do
          let m ← procFreepagetable Λ pt m sz
          pure (none, m)
        else do
          let sz := pgRoundUp sz
          let (sz1, pt, m) ← uvmalloc Λ pt m sz (sz + 2 * pgSize)
          if sz1 = 0 then do
            let m ← procFreepagetable Λ pt m sz
            pure (none, m)
          else do
            let pt ← uvmclear Λ pt m (sz1 - 2 * pgSize)
            let (ok, ram) := execStack pt sz1 argv m.ram
            let m := { m with ram := ram }
            if ok then pure (some (sz1, pt), m)
            else do
              let m ← procFreepagetable Λ pt m sz1
              pure (none, m)

/-- `exec` by process `i`: `argc`, or none for `-1`. -/
def exec (Λ : Layout) (io : Bool) (k : Kernel) (i : Nat) (path : List UInt8) (argv : List (List UInt8)) :
    Except Panic (Option Nat × Kernel) := do
  let p := k.proc i
  let (ip, fs) ← namei io k.fs p.cwd path
  match ip with
  | none => pure (none, { k with fs := fs })
  | some ip => do
    let fs ← ilock fs (some ip)
    let (image, m) ← execImage Λ k.mem p.trapframe (fs.itable ip).info.size (fs.data ip) argv
    let fs ← iput io fs (some ip)
    let k := { k with fs := fs, mem := m }
    match image, p.pagetable with
    | none, _ => pure (none, k)
    | some _, none => throw .kerneltrap
    | some (sz, pt), some old => do
      let m ← procFreepagetable Λ old k.mem p.sz
      pure (some argv.length, { k.setProc i { p with pagetable := some pt, sz := sz } with mem := m })

end Xv6Mmap

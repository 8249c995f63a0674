import Xv6Mmap.Lib.RingBuffer
import Xv6Mmap.Lib.Slots

/-!
# The virtio disk driver

`virtio_disk_rw` and `virtio_disk_intr` with the device they talk to. Driver and device share the descriptors and two rings: the
driver puts the head of a chain of descriptors into `avail`, the device takes it from there, serves it, and puts it into `used`. Both
rings are queues with free-running 16-bit counters; of each the writer's counter is in memory that both see (`avail->idx`,
`used->idx`), and the reader's is its own (`used_idx` of the driver).

The device works while the driver runs, so the driver is cut at every access to memory that the device writes or reads at that time:
a ring entry and the index after it are two steps on both sides. What the driver does under `vdisk_lock` between two such accesses is
one step. A process that sleeps may be woken at any time, since `kill` wakes it as `wakeup` does. A handler of the interrupt is a
thread of its own.

The callers of `virtio_disk_rw` are `bread` and `bwrite`; both hold the sleep-lock of the buffer. Buffers are numbers, and so are the
threads. Request numbers and the history are not in the source.
-/

namespace Xv6Mmap

open Function

/-- `NUM`, the number of descriptors and of entries of each ring. -/
abbrev num : Nat := 8

/-- The counters of the rings run modulo this. -/
abbrev idxRange : Nat := 65536

/-- Where a descriptor points: to a header in `ops`, to the data of a buffer, or to a status byte in `info`. -/
inductive DescAddr where
  | null
  | op (i : Nat)
  | data (b : Nat)
  | status (i : Nat)
  deriving DecidableEq, Repr

/-- `VRING_DESC_F_NEXT` and `VRING_DESC_F_WRITE`. -/
abbrev descNext : Nat := 1
abbrev descWrite : Nat := 2

/-- `struct virtq_desc`. -/
structure VirtqDesc where
  addr : DescAddr
  len : Nat
  flags : Nat
  next : Nat
  deriving DecidableEq, Repr

/-- `struct virtio_blk_req`. -/
structure BlkReq where
  type : Nat
  reserved : Nat
  sector : Nat

/-- An entry of `info`. -/
structure DiskInfo where
  b : Option Nat
  status : Nat

/-- `struct disk`. The reader's counter of `used` is `used_idx`; the reader's counter of `avail` is the device's. -/
structure VirtDisk where
  desc : Nat → VirtqDesc
  avail : RingBuffer Nat
  used : RingBuffer Nat
  free : Nat → Bool
  info : Nat → DiskInfo
  ops : Nat → BlkReq

inductive DiskPanic where
  | freeDesc1 | freeDesc2 | intrStatus
  /-- The interrupt handler follows a null pointer. -/
  | nullBuf
  deriving DecidableEq, Repr

namespace VirtDisk

/-- `alloc_desc`. -/
def allocDesc (d : VirtDisk) : Option (VirtDisk × Nat) :=
  (firstSlot num d.free).map fun i => ({ d with free := update d.free i false }, i)

/-- `free_desc`. -/
def freeDesc (d : VirtDisk) (i : Nat) : Except DiskPanic VirtDisk :=
  if num ≤ i then throw .freeDesc1
  else if d.free i then throw .freeDesc2
  else pure { d with desc := update d.desc i ⟨.null, 0, 0, 0⟩, free := update d.free i true }

/-- `free_chain`, of at most the given number of descriptors after the first. -/
def freeChainLoop : Nat → VirtDisk → Nat → Except DiskPanic VirtDisk
  | 0, d, i => d.freeDesc i
  | n + 1, d, i => do
    let flag := (d.desc i).flags
    let nxt := (d.desc i).next
    let d ← d.freeDesc i
    if flag &&& descNext ≠ 0 then freeChainLoop n d nxt else pure d

/-- `free_chain`. After `num` rounds every descriptor is free, so one more is a panic. -/
def freeChain (d : VirtDisk) (i : Nat) : Except DiskPanic VirtDisk := freeChainLoop num d i

/-- `alloc3_desc`: the descriptors, or none after those that were taken have been given back. -/
def alloc3Desc (d : VirtDisk) : Except DiskPanic (VirtDisk × Option (Nat × Nat × Nat)) :=
  match d.allocDesc with
  | none => pure (d, none)
  | some (d₁, i0) =>
    match d₁.allocDesc with
    | none => do
      let d ← d₁.freeDesc i0
      pure (d, none)
    | some (d₂, i1) =>
      match d₂.allocDesc with
      | none => do
        let d ← d₂.freeDesc i0
        let d ← d.freeDesc i1
        pure (d, none)
      | some (d₃, i2) => pure (d₃, some (i0, i1, i2))

end VirtDisk

/-- A request: the buffer and the three descriptors of the chain. -/
structure DiskReq where
  b : Nat
  i0 : Nat
  i1 : Nat
  i2 : Nat
  deriving DecidableEq, Repr

/-- The descriptors of a request. -/
def DiskReq.idx (r : DiskReq) : List Nat := [r.i0, r.i1, r.i2]

/-- Where a thread is. -/
inductive DiskPc where
  | idle
  /-- In `virtio_disk_rw`, at `acquire`, at the start or at the end of the first `sleep`. -/
  | locks (b : Nat) (write : Bool)
  /-- At `alloc3_desc`. -/
  | allocs (b : Nat) (write : Bool)
  /-- Asleep on `&disk.free[0]`. -/
  | sleepsFree (b : Nat) (write : Bool)
  /-- About to write the descriptors. -/
  | formats (r : DiskReq) (write : Bool)
  /-- About to write the entry of `avail`. -/
  | fills (r : DiskReq)
  /-- About to increment `avail->idx`. -/
  | publishes (r : DiskReq)
  /-- At the test of `b->disk`. -/
  | tests (r : DiskReq)
  /-- Asleep on the buffer. -/
  | sleepsBuf (r : DiskReq)
  /-- At `acquire` at the end of the second `sleep`. -/
  | relocks (r : DiskReq)
  /-- In `virtio_disk_intr`, at `acquire`. -/
  | intrLocks
  /-- At the test of `used_idx` against `used->idx`. -/
  | intrTests
  /-- In the body of the loop. -/
  | intrReads
  deriving DecidableEq, Repr

/-- How far the device is with a chain it has taken: nothing is written, the status is, or the entry of `used` is too. -/
inductive DevStage where
  | taken | status | ringed
  deriving DecidableEq, Repr

/-- A chain in service: its head, and where its second and third descriptors pointed when the device read them. -/
structure DevReq where
  head : Nat
  data : DescAddr
  status : DescAddr
  stage : DevStage
  deriving DecidableEq, Repr

/-- A request was submitted by a thread for a buffer, the device put it into `used`, the interrupt handler cleared `b->disk` of a
buffer for it, `virtio_disk_rw` returned. -/
inductive DiskEvent where
  | submitted (n : Nat) (j : Nat) (b : Nat)
  | completed (n : Nat)
  | cleared (n : Nat) (b : Nat)
  | returned (n : Nat) (j : Nat)
  deriving DecidableEq, Repr

/-- Driver, device and threads. `owner` are the holders of the sleep-locks of the buffers, `busy` is `b->disk`; `reqOf` is the number of
the last request with the head, and `history` has the newest event first. -/
structure VirtSys where
  disk : VirtDisk
  lock : Option Nat
  pc : Nat → DiskPc
  owner : Nat → Option Nat
  busy : Nat → Bool
  blockno : Nat → Nat
  device : List DevReq
  reqOf : Nat → Nat
  nextReq : Nat
  history : List DiskEvent

/-- Why a step is not taken. -/
inductive DiskStop where
  | waits
  | panic (p : DiskPanic)
  deriving DecidableEq, Repr

/-- A step of a thread. -/
inductive DiskMove where
  | acquiresleep (b : Nat)
  | releasesleep (b : Nat)
  | rw (b : Nat) (write : Bool)
  | intr
  | go
  | wake

/-- A step of the device, on the chain at a place of those in service. -/
inductive DevMove where
  | consume
  | writeStatus (k : Nat)
  | ring (k : Nat)
  | publish (k : Nat)

inductive DiskStep where
  | thread (j : Nat) (m : DiskMove)
  | device (m : DevMove)

namespace VirtSys

/-- The thread moves. -/
def at_ (s : VirtSys) (j : Nat) (pc : DiskPc) : VirtSys := { s with pc := update s.pc j pc }

/-- What panics stops the system. -/
def lift {α : Type} : Except DiskPanic α → Except DiskStop α
  | .ok a => .ok a
  | .error p => .error (.panic p)

/-- `acquire(&disk.vdisk_lock)`. -/
def takeLock (s : VirtSys) (j : Nat) (pc : DiskPc) : Except DiskStop VirtSys :=
  if s.lock = none then pure { s.at_ j pc with lock := some j } else throw .waits

/-- `alloc3_desc`, and `sleep` when it fails. -/
def allocs (s : VirtSys) (j b : Nat) (write : Bool) : Except DiskStop VirtSys := do
  match ← lift s.disk.alloc3Desc with
  | (d, none) => pure { s.at_ j (.sleepsFree b write) with disk := d, lock := none }
  | (d, some (i0, i1, i2)) => pure { s.at_ j (.formats ⟨b, i0, i1, i2⟩ write) with disk := d }

/-- The descriptors, the header and `info` of a request are written, and `b->disk` is set. -/
def formats (s : VirtSys) (j : Nat) (r : DiskReq) (write : Bool) : VirtSys :=
  let d := s.disk
  let desc := update d.desc r.i0 ⟨.op r.i0, 16, descNext, r.i1⟩
  let desc := update desc r.i1 ⟨.data r.b, 1024, (if write then 0 else descWrite) ||| descNext, r.i2⟩
  let desc := update desc r.i2 ⟨.status r.i0, 1, descWrite, 0⟩
  { s.at_ j (.fills r) with
    disk := { d with
      ops := update d.ops r.i0 ⟨if write then 1 else 0, 0, s.blockno r.b * 2⟩
      desc := desc
      info := update d.info r.i0 ⟨some r.b, 0xff⟩ }
    busy := update s.busy r.b true }

/-- `disk.avail->ring[disk.avail->idx % NUM] = idx[0]`. -/
def fills (s : VirtSys) (j : Nat) (r : DiskReq) : VirtSys :=
  { s.at_ j (.publishes r) with disk := { s.disk with avail := s.disk.avail.fill num r.i0 } }

/-- `disk.avail->idx += 1`. -/
def publishes (s : VirtSys) (j : Nat) (r : DiskReq) : VirtSys :=
  { s.at_ j (.tests r) with
    disk := { s.disk with avail := s.disk.avail.publish idxRange }
    reqOf := update s.reqOf r.i0 s.nextReq
    nextReq := s.nextReq + 1
    history := .submitted s.nextReq j r.b :: s.history }

/-- The test of `b->disk`: `sleep`, or the end of `virtio_disk_rw`. -/
def tests (s : VirtSys) (j : Nat) (r : DiskReq) : Except DiskStop VirtSys :=
  if s.busy r.b then pure { s.at_ j (.sleepsBuf r) with lock := none }
  else do
    let d := { s.disk with info := update s.disk.info r.i0 { s.disk.info r.i0 with b := none } }
    let d ← lift (d.freeChain r.i0)
    pure { s.at_ j .idle with disk := d, lock := none, history := .returned (s.reqOf r.i0) j :: s.history }

/-- The body of the loop of `virtio_disk_intr`. -/
def intrReads (s : VirtSys) (j : Nat) : Except DiskStop VirtSys :=
  let id := s.disk.used.front num
  if (s.disk.info id).status ≠ 0 then throw (.panic .intrStatus)
  else
    match (s.disk.info id).b with
    | none => throw (.panic .nullBuf)
    | some b => pure { s.at_ j .intrTests with
        busy := update s.busy b false
        disk := { s.disk with used := s.disk.used.pop idxRange }
        history := .cleared (s.reqOf id) b :: s.history }

/-- A thread goes on. -/
def go (s : VirtSys) (j : Nat) : Except DiskStop VirtSys :=
  match s.pc j with
  | .idle | .sleepsFree _ _ | .sleepsBuf _ => throw .waits
  | .locks b write => s.takeLock j (.allocs b write)
  | .allocs b write => s.allocs j b write
  | .formats r write => pure (s.formats j r write)
  | .fills r => pure (s.fills j r)
  | .publishes r => pure (s.publishes j r)
  | .tests r => s.tests j r
  | .relocks r => s.takeLock j (.tests r)
  | .intrLocks => s.takeLock j .intrTests
  | .intrTests => if s.disk.used.empty then pure { s.at_ j .idle with lock := none } else pure (s.at_ j .intrReads)
  | .intrReads => s.intrReads j

/-- A sleeping thread is woken. -/
def wake (s : VirtSys) (j : Nat) : Except DiskStop VirtSys :=
  match s.pc j with
  | .sleepsFree b write => pure (s.at_ j (.locks b write))
  | .sleepsBuf r => pure (s.at_ j (.relocks r))
  | _ => throw .waits

/-- A step of a thread. Between calls it takes and gives back sleep-locks, and it starts a call on a buffer it holds. -/
def thread (s : VirtSys) (j : Nat) : DiskMove → Except DiskStop VirtSys
  | .acquiresleep b =>
    if s.pc j = .idle ∧ s.owner b = none then pure { s with owner := update s.owner b (some j) } else throw .waits
  | .releasesleep b =>
    if s.pc j = .idle ∧ s.owner b = some j then pure { s with owner := update s.owner b none } else throw .waits
  | .rw b write => if s.pc j = .idle ∧ s.owner b = some j then pure (s.at_ j (.locks b write)) else throw .waits
  | .intr => if s.pc j = .idle then pure (s.at_ j .intrLocks) else throw .waits
  | .go => s.go j
  | .wake => s.wake j

/-- The device takes the next entry of `avail` and reads the chain. -/
def consume (s : VirtSys) : Except DiskStop VirtSys :=
  if s.disk.avail.empty then throw .waits
  else
    let head := s.disk.avail.front num
    let d1 := s.disk.desc (s.disk.desc head).next
    let d2 := s.disk.desc d1.next
    pure { s with
      disk := { s.disk with avail := s.disk.avail.pop idxRange }
      device := s.device ++ [⟨head, d1.addr, d2.addr, .taken⟩] }

/-- The device writes the status 0 of a chain. -/
def writeStatus (s : VirtSys) (k : Nat) : Except DiskStop VirtSys :=
  match s.device[k]? with
  | none => throw .waits
  | some e =>
    if e.stage = .taken then
      let info := match e.status with
        | .status i => update s.disk.info i { s.disk.info i with status := 0 }
        | _ => s.disk.info
      pure { s with disk := { s.disk with info := info }, device := s.device.set k { e with stage := .status } }
    else throw .waits

/-- The device writes the entry of `used`, of one chain at a time. -/
def ring (s : VirtSys) (k : Nat) : Except DiskStop VirtSys :=
  match s.device[k]? with
  | none => throw .waits
  | some e =>
    if e.stage = .status ∧ s.device.all (fun e' => decide (e'.stage ≠ .ringed)) then
      pure { s with
        disk := { s.disk with used := s.disk.used.fill num e.head }
        device := s.device.set k { e with stage := .ringed } }
    else throw .waits

/-- The device increments `used->idx`. -/
def publish (s : VirtSys) (k : Nat) : Except DiskStop VirtSys :=
  match s.device[k]? with
  | none => throw .waits
  | some e =>
    if e.stage = .ringed then
      pure { s with
        disk := { s.disk with used := s.disk.used.publish idxRange }
        device := s.device.eraseIdx k
        history := .completed (s.reqOf e.head) :: s.history }
    else throw .waits

def step (s : VirtSys) : DiskStep → Except DiskStop VirtSys
  | .thread j m => s.thread j m
  | .device .consume => s.consume
  | .device (.writeStatus k) => s.writeStatus k
  | .device (.ring k) => s.ring k
  | .device (.publish k) => s.publish k

/-- After `virtio_disk_init`: the pages are zero and all descriptors are free. -/
def booted (blockno : Nat → Nat) : VirtSys where
  disk :=
    { desc := fun _ => ⟨.null, 0, 0, 0⟩
      avail := ⟨fun _ => 0, 0, 0⟩
      used := ⟨fun _ => 0, 0, 0⟩
      free := fun i => decide (i < num)
      info := fun _ => ⟨none, 0⟩
      ops := fun _ => ⟨0, 0, 0⟩ }
  lock := none
  pc _ := .idle
  owner _ := none
  busy _ := false
  blockno := blockno
  device := []
  reqOf _ := 0
  nextReq := 0
  history := []

end VirtSys

/-- The states that steps of the threads and of the device reach. -/
inductive DiskReach : VirtSys → Prop where
  | booted (blockno : Nat → Nat) : DiskReach (.booted blockno)
  | step {s s' : VirtSys} {m : DiskStep} (h : DiskReach s) (hs : s.step m = .ok s') : DiskReach s'

/-- The steps of a list. -/
def VirtSys.run : List DiskStep → VirtSys → Except DiskStop VirtSys
  | [], s => .ok s
  | m :: ms, s =>
    match s.step m with
    | .ok s' => run ms s'
    | .error e => .error e

theorem DiskReach.of_run {ms : List DiskStep} {s s' : VirtSys} (h : DiskReach s) (hs : s.run ms = .ok s') : DiskReach s' := by
  induction ms generalizing s with
  | nil =>
    cases hs
    exact h
  | cons m ms ih =>
    simp only [VirtSys.run] at hs
    split at hs
    · exact ih (h.step ‹_›) hs
    · cases hs

end Xv6Mmap

import LabSO.Lib.MonitorRules
import LabSO.Lib.Ring
import Mathlib.Data.Finset.Range
import Mathlib.Data.Finset.Card

/-! `virtio_disk.c`: the code of `virtio_disk_rw` and `virtio_disk_intr` under `vdisk_lock`, and the device, which takes
    the chains of descriptors offered to it, serves them in any order and reports them. Memory is sequentially consistent.

    The handler of an interrupt is a thread of its own, which may start at any moment; a process that holds the lock has
    interrupts off. -/

namespace LabSO.Virtio
open Monitor

def NUM : Nat := 8
def BSIZE : Nat := 1024
def VRING_DESC_F_NEXT : UInt16 := 1
def VRING_DESC_F_WRITE : UInt16 := 2
def VIRTIO_BLK_T_IN : UInt32 := 0
def VIRTIO_BLK_T_OUT : UInt32 := 1

/-- The physical addresses in descriptors; buffers are numbered. -/
inductive Addr (m : Nat)
  | null
  /-- `&disk.ops[i]`. -/
  | op (i : Nat)
  /-- `b->data`. -/
  | data (b : Fin m)
  /-- `&disk.info[i].status`. -/
  | status (i : Nat)
deriving DecidableEq, Repr

structure VirtqDesc (m : Nat) where
  addr : Addr m
  len : UInt32
  flags : UInt16
  next : UInt16
deriving DecidableEq, Repr

structure VirtqAvail where
  idx : UInt16
  ring : Nat → UInt16

/-- The device increments `idx` when it adds an entry to `ring`; of an entry only `id` is read. -/
structure VirtqUsed where
  idx : UInt16
  ring : Nat → UInt32

structure VirtioBlkReq where
  type : UInt32
  reserved : UInt32
  sector : UInt64
deriving DecidableEq, Repr

def sizeofVirtioBlkReq : UInt32 := 16

/-- Book-keeping of an in-flight operation, indexed by the first descriptor of its chain. -/
structure Info (m : Nat) where
  b : Option (Fin m)
  status : UInt8
deriving DecidableEq, Repr

/-- `struct disk` without its lock. -/
structure Disk (m : Nat) where
  desc : Nat → VirtqDesc m
  avail : VirtqAvail
  used : VirtqUsed
  free : Nat → Bool
  /-- We've looked this far in the used ring. -/
  usedIdx : UInt16
  info : Nat → Info m
  ops : Nat → VirtioBlkReq

/-- What the device does with a buffer for a chain: the request, the length and whether it writes the buffer. -/
structure Transfer where
  req : VirtioBlkReq
  len : UInt32
  write : Bool
deriving DecidableEq, Repr

/-- The device: how far it has looked in the avail ring, the chains that it has found there and not served yet, those that
    it has served and not reported yet, and how far it has filled the used ring. -/
structure Device where
  seen : UInt16
  pending : List Nat
  served : List Nat
  filled : UInt16

/-- A call of `virtio_disk_rw`: the buffer with its `blockno`, and what the device had done with the buffer before. -/
structure Call (m : Nat) where
  b : Fin m
  write : Bool
  blockno : UInt32
  start : List Transfer
deriving DecidableEq, Repr

/-- `idx[0]`, `idx[1]` and `idx[2]`. -/
structure Idx where
  head : Nat
  mid : Nat
  tail : Nat
deriving DecidableEq, Repr

def Idx.list (idx : Idx) : List Nat := [idx.head, idx.mid, idx.tail]

/-- A chain that was offered to the device and has not been taken back. -/
structure Chain (n m : Nat) where
  caller : Fin n
  call : Call m
  idx : Idx
deriving DecidableEq, Repr

/-- The disk with what surrounds it. `bdisk` is the field `disk` of the buffers. `calls` and `chains` say who is in
    `virtio_disk_rw` with a buffer, and with which chain, and `transfers` what the device did with each buffer; the code
    does not look at these three. -/
structure Data (n m : Nat) where
  disk : Disk m
  bdisk : Fin m → Int
  device : Device
  calls : Fin m → Option (Fin n)
  chains : Fin m → Option (Chain n m)
  transfers : Fin m → List Transfer

/-- The addresses slept on: `&disk.free[0]`, and buffers. -/
inductive Chan (m : Nat)
  | free
  | buf (b : Fin m)
deriving DecidableEq, Repr

/-- The places in the functions, under the lock. -/
inductive Point (m : Nat)
  /-- In the loop of `alloc3_desc`, with the descriptors got so far. -/
  | alloc (w : Call m) (idx : List Nat)
  /-- In its inner loop, with those that are still to be freed. -/
  | undo (w : Call m) (idx : List Nat)
  | undoWakeup (w : Call m) (idx : List Nat)
  /-- `buf0` and the descriptor `idx[0]`. -/
  | formatHead (w : Call m) (idx : Idx)
  | formatMid (w : Call m) (idx : Idx)
  | formatTail (w : Call m) (idx : Idx)
  /-- `b->disk = 1; disk.info[idx[0]].b = b;`. -/
  | record (w : Call m) (idx : Idx)
  /-- `disk.avail->ring[disk.avail->idx % NUM] = idx[0];`. -/
  | offer (w : Call m) (idx : Idx)
  /-- `disk.avail->idx += 1;`. -/
  | advance (w : Call m) (idx : Idx)
  /-- `*R(VIRTIO_MMIO_QUEUE_NOTIFY) = 0;`. -/
  | notify (w : Call m) (idx : Idx)
  /-- `while(b->disk == 1)`. -/
  | waitLoop (w : Call m) (idx : Idx)
  /-- In the loop of `free_chain`. -/
  | chain (w : Call m) (i : Nat)
  | chainWakeup (w : Call m) (next : Option Nat)
  | finish (w : Call m)
  | return (w : Call m)
  /-- `while(disk.used_idx != disk.used->idx)`. -/
  | intrLoop
  | intrTake (id : Nat)
  | intrWakeup (b : Fin m)
  /-- `disk.used_idx += 1;`. -/
  | intrNext
  | panic (s : String)
deriving DecidableEq, Repr

inductive Result (m : Nat)
  | rw (w : Call m)
  | intr

inductive Request (m : Nat)
  | rw (b : Fin m) (write : Bool) (blockno : UInt32)
  | intr
deriving DecidableEq, Repr

variable {n m k : Nat}

namespace Disk
variable (disk : Disk m)

def setFree (i : Nat) (x : Bool) : Disk m := { disk with free := Function.update disk.free i x }

def setDesc (i : Nat) (x : VirtqDesc m) : Disk m := { disk with desc := Function.update disk.desc i x }

def setInfo (i : Nat) (x : Info m) : Disk m := { disk with info := Function.update disk.info i x }

/-- Find a free descriptor, mark it non-free, return its index. -/
def allocDesc : Option (Disk m × Nat) :=
  ((List.range NUM).find? disk.free).map fun i => (disk.setFree i false, i)

/-- Mark a descriptor as free; the caller then wakes those who wait for one. -/
def freeDesc (i : Nat) : Except String (Disk m) :=
  if NUM ≤ i then .error "free_desc 1"
  else if disk.free i then .error "free_desc 2"
  else .ok ((disk.setDesc i ⟨.null, 0, 0, 0⟩).setFree i true)

/-- The ids that the device has reported and the driver has not handled. -/
def reported : List Nat := Ring.entries NUM (fun i => (disk.used.ring i).toNat) disk.usedIdx disk.used.idx

def freeCount : Nat := ((Finset.range NUM).filter fun i => disk.free i).card

end Disk

namespace Call
variable (w : Call m)

/-- `b->blockno * (BSIZE / 512)`. -/
def sector : UInt64 := (w.blockno * .ofNat (BSIZE / 512)).toUInt64

/-- The header of the request. -/
def req : VirtioBlkReq where
  type := if w.write then VIRTIO_BLK_T_OUT else VIRTIO_BLK_T_IN
  reserved := 0
  sector := w.sector

/-- What the device is asked to do with the buffer. -/
def transfer : Transfer where
  req := w.req
  len := .ofNat BSIZE
  write := !w.write

def descHead (idx : Idx) : VirtqDesc m := ⟨.op idx.head, sizeofVirtioBlkReq, VRING_DESC_F_NEXT, .ofNat idx.mid⟩

def descMid (idx : Idx) : VirtqDesc m :=
  ⟨.data w.b, .ofNat BSIZE, (if w.write then 0 else VRING_DESC_F_WRITE) ||| VRING_DESC_F_NEXT, .ofNat idx.tail⟩

def descTail (idx : Idx) : VirtqDesc m := ⟨.status idx.head, 1, VRING_DESC_F_WRITE, 0⟩

end Call

namespace Data
variable (d : Data n m)

def setDisk (disk : Disk m) : Data n m := { d with disk }

def setBdisk (b : Fin m) (x : Int) : Data n m := { d with bdisk := Function.update d.bdisk b x }

def setCall (b : Fin m) (x : Option (Fin n)) : Data n m := { d with calls := Function.update d.calls b x }

def setChain (b : Fin m) (x : Option (Chain n m)) : Data n m := { d with chains := Function.update d.chains b x }

/-- The descriptor `i` is freed, and the caller goes on, or the kernel panics. -/
def freeDesc (i : Nat) (next : Point m) : Op (Chan m) (Data n m) (Point m) (Result m) :=
  match d.disk.freeDesc i with
  | .error s => .set d (.panic s)
  | .ok disk => .set (d.setDisk disk) next

end Data

/-- The next step of `virtio_disk_rw` by a process. -/
def rwOp (p : Fin n) (d : Data n m) : Point m → Op (Chan m) (Data n m) (Point m) (Result m)
  | .alloc w idx =>
    match d.disk.allocDesc with
    | none => .set d (.undo w idx)
    | some (disk, i) =>
      .set (d.setDisk disk) (match idx with | [i₀, i₁] => .formatHead w ⟨i₀, i₁, i⟩ | _ => .alloc w (idx ++ [i]))
  | .undo w [] => .sleep .free (.alloc w [])
  | .undo w (i :: idx) => d.freeDesc i (.undoWakeup w idx)
  | .undoWakeup w idx => .wakeup .free (.undo w idx)
  | .formatHead w idx =>
    let disk := { d.disk with ops := Function.update d.disk.ops idx.head w.req }
    .set (d.setDisk (disk.setDesc idx.head (Call.descHead idx))) (.formatMid w idx)
  | .formatMid w idx => .set (d.setDisk (d.disk.setDesc idx.mid (w.descMid idx))) (.formatTail w idx)
  | .formatTail w idx =>
    let disk := d.disk.setInfo idx.head { d.disk.info idx.head with status := 0xff }
    .set (d.setDisk (disk.setDesc idx.tail (Call.descTail idx))) (.record w idx)
  | .record w idx =>
    .set ((d.setBdisk w.b 1).setDisk (d.disk.setInfo idx.head { d.disk.info idx.head with b := some w.b })) (.offer w idx)
  | .offer w idx =>
    let ring := Function.update d.disk.avail.ring (d.disk.avail.idx.toNat % NUM) (.ofNat idx.head)
    .set (d.setDisk { d.disk with avail := { d.disk.avail with ring } }) (.advance w idx)
  | .advance w idx =>
    let avail := { d.disk.avail with idx := d.disk.avail.idx + 1 }
    .set ((d.setDisk { d.disk with avail }).setChain w.b (some ⟨p, w, idx⟩)) (.notify w idx)
  | .notify w idx => .set d (.waitLoop w idx)
  | .waitLoop w idx =>
    if d.bdisk w.b = 1 then .sleep (.buf w.b) (.waitLoop w idx)
    else .set ((d.setDisk (d.disk.setInfo idx.head { d.disk.info idx.head with b := none })).setChain w.b none)
      (.chain w idx.head)
  | .chain w i =>
    let desc := d.disk.desc i
    d.freeDesc i (.chainWakeup w (if desc.flags &&& VRING_DESC_F_NEXT ≠ 0 then some desc.next.toNat else none))
  | .chainWakeup w next => .wakeup .free (match next with | some i => .chain w i | none => .finish w)
  | .finish w => .set (d.setCall w.b none) (.return w)
  | .return w => .release (.rw w)
  | _ => .stop

/-- The next step of `virtio_disk_intr`. -/
def intrOp (d : Data n m) : Point m → Op (Chan m) (Data n m) (Point m) (Result m)
  | .intrLoop =>
    if d.disk.usedIdx ≠ d.disk.used.idx then .set d (.intrTake (d.disk.used.ring (d.disk.usedIdx.toNat % NUM)).toNat)
    else .release .intr
  | .intrTake id =>
    if (d.disk.info id).status ≠ 0 then .set d (.panic "virtio_disk_intr status")
    else
      match (d.disk.info id).b with
      | some b => .set (d.setBdisk b 0) (.intrWakeup b)
      -- A store through a null pointer.
      | none => .set d (.panic "kerneltrap")
  | .intrWakeup b => .wakeup (.buf b) .intrNext
  | .intrNext => .set (d.setDisk { d.disk with usedIdx := d.disk.usedIdx + 1 }) .intrLoop
  | _ => .stop

/-- The calls: a process has the buffer locked, so that no other one is in a call with it. -/
def enter (a : Thread n (Fin k)) (d : Data n m) : Request m → Option (Data n m × Option (Point m))
  | .rw b write blockno =>
    match a with
    | .inl p =>
      if d.calls b = none then some (d.setCall b (some p), some (.alloc ⟨b, write, blockno, d.transfers b⟩ [])) else none
    | .inr _ => none
  | .intr =>
    match a with
    | .inl _ => none
    | .inr _ => some (d, some .intrLoop)

/-- What the device does: look at the next entry of the avail ring, serve a chain, write an entry of the used ring, or tell
    the driver of the entries written. -/
inductive DeviceStep
  | fetch
  | serve (id : Nat)
  | fill (id : Nat)
  | publish
deriving DecidableEq, Repr

/-- Serve a chain with success, by its descriptors: the transfer is noted at the buffer, and the status is written. -/
def Data.serve (d : Data n m) (id : Nat) : Data n m :=
  let head := d.disk.desc id
  let mid := d.disk.desc head.next.toNat
  let tail := d.disk.desc mid.next.toNat
  let d₁ : Data n m :=
    match head.addr, mid.addr with
    | .op i, .data b =>
      let x := ⟨d.disk.ops i, mid.len, mid.flags &&& VRING_DESC_F_WRITE ≠ 0⟩
      { d with transfers := Function.update d.transfers b (d.transfers b ++ [x]) }
    | _, _ => d
  match tail.addr with
  | .status i => d₁.setDisk (d.disk.setInfo i { d.disk.info i with status := 0 })
  | _ => d₁

def Data.setDevice (d : Data n m) (device : Device) : Data n m := { d with device }

def deviceStep (d : Data n m) : DeviceStep → Option (Data n m)
  | .fetch =>
    let dev := d.device
    if dev.seen ≠ d.disk.avail.idx then
      let id := (d.disk.avail.ring (dev.seen.toNat % NUM)).toNat
      some (d.setDevice { dev with seen := dev.seen + 1, pending := id :: dev.pending })
    else none
  | .serve id =>
    let dev := d.device
    if id ∈ dev.pending then
      some ((d.serve id).setDevice { dev with pending := dev.pending.erase id, served := id :: dev.served })
    else none
  | .fill id =>
    let dev := d.device
    if id ∈ dev.served then
      let ring := Function.update d.disk.used.ring (dev.filled.toNat % NUM) (.ofNat id)
      some ((d.setDisk { d.disk with used := { d.disk.used with ring } }).setDevice
        { dev with served := dev.served.erase id, filled := dev.filled + 1 })
    else none
  | .publish => some (d.setDisk { d.disk with used := { d.disk.used with idx := d.device.filled } })

/-- Processes and interrupt handlers at one disk with `m` buffers. -/
def code (n k m : Nat) : Code n (Fin k) (Chan m) (Data n m) (Point m) (Result m) (Request m) DeviceStep where
  op a point d := match a with | .inl p => rwOp p d point | .inr _ => intrOp d point
  enter a r d := enter a d r
  env e d := deviceStep d e

abbrev DiskState (n k m : Nat) : Type := State n (Fin k) (Chan m) (Data n m) (Point m)

/-- As `virtio_disk_init` leaves the disk: the rings are empty and all descriptors free. -/
structure Fresh (d : Data n m) : Prop where
  avail : d.disk.avail.idx = 0
  used : d.disk.used.idx = 0
  usedIdx : d.disk.usedIdx = 0
  free : ∀ i, i < NUM → d.disk.free i = true
  seen : d.device.seen = 0
  filled : d.device.filled = 0
  pending : d.device.pending = []
  served : d.device.served = []
  calls : ∀ b, d.calls b = none
  chains : ∀ b, d.chains b = none

def fresh : Data n m where
  disk :=
    { desc _ := ⟨.null, 0, 0, 0⟩
      avail := ⟨0, fun _ => 0⟩
      used := ⟨0, fun _ => 0⟩
      free _ := true
      usedIdx := 0
      info _ := ⟨none, 0⟩
      ops _ := ⟨0, 0, 0⟩ }
  bdisk _ := 0
  device := ⟨0, [], [], 0⟩
  calls _ := none
  chains _ := none
  transfers _ := []

theorem fresh_fresh : Fresh (fresh : Data n m) := ⟨rfl, rfl, rfl, fun _ _ => rfl, rfl, rfl, rfl, rfl, fun _ => rfl, fun _ => rfl⟩

end LabSO.Virtio

import LabSO.Lib.Circular
import LabSO.Lib.Transition
import Mathlib

/-! `bio.c`: the buffer cache, used by any number of processes. One step is a critical section of `bcache.lock`, the taking
    or giving up of a sleep-lock, or a transfer between a buffer and the disk. -/

namespace LabSO.Bcache
open Circular

/-- Max # of blocks any FS op writes. -/
def MAXOPBLOCKS : Nat := 10

/-- Size of disk block cache. -/
def NBUF : Nat := MAXOPBLOCKS * 3

instance : NeZero NBUF := ⟨by decide⟩

/-- A block on a device. -/
structure BlockId where
  dev : UInt32
  blockno : UInt32
deriving DecidableEq, Repr

/-- A `struct buf *` of the list; `none` is `&bcache.head`. -/
abbrev Node := Option (Fin NBUF)

/-- `struct buf` without its pointers; `lock` is the holder of the sleep-lock. -/
structure Buf (P α : Type*) extends BlockId where
  valid : Bool
  lock : Option P
  refcnt : UInt32
  data : α

/-- The `sector` where `virtio_disk_rw` reads and writes a block: a product of two 32-bit numbers. -/
def sector (blockno : UInt32) : UInt64 := (blockno * 2).toUInt64

/-- What a reference to a buffer is for. -/
inductive Ref (P : Type*)
  /-- Process `p` waits for the sleep-lock. -/
  | wait (p : P)
  /-- Process `p` holds the sleep-lock. -/
  | hold (p : P)
  /-- Process `p` gave the sleep-lock up, and is on its way to give up the reference. -/
  | drop (p : P)
  /-- A `bpin` without its `bunpin`. -/
  | pin
deriving DecidableEq, Repr

/-- Where a process stands in the functions, with the block that it asked `bread` for. -/
inductive Pc
  | idle
  /-- In `acquiresleep` of `bget`. -/
  | acquiring (b : Fin NBUF) (blk : BlockId)
  /-- Back in `bread`. -/
  | locked (b : Fin NBUF) (blk : BlockId)
  /-- In `virtio_disk_rw(b, 0)`. -/
  | reading (b : Fin NBUF) (blk : BlockId) (at' : UInt64)
  | filled (b : Fin NBUF) (blk : BlockId)
  /-- In `virtio_disk_rw(b, 1)`. -/
  | writing (b : Fin NBUF) (at' : UInt64)
  /-- In `brelse`, before its critical section. -/
  | releasing (b : Fin NBUF)
deriving DecidableEq, Repr

/-- Why the kernel stopped. -/
inductive Halt
  | panic (msg : String)
  /-- A search through the list does not come to its end. -/
  | spin
deriving DecidableEq, Repr

/-- The cache, the disk by sectors, and the processes. The code does not look at the fields from `refs` on: the references
    to each buffer, whether its data changed since it last was read from the disk or written to it, and what the last
    holder of its buffer left in each block. -/
structure State (P α : Type*) where
  buf : Fin NBUF → Buf P α
  links : Links Node
  disk : UInt64 → α
  pc : P → Pc
  halted : Option Halt
  refs : Fin NBUF → List (Ref P)
  changed : Fin NBUF → Bool
  left : BlockId → α

/-- A function that a process calls, or what it does with a buffer that it holds. -/
inductive Call (α : Type*)
  | bread (blk : BlockId)
  | bwrite (b : Fin NBUF)
  | brelse (b : Fin NBUF)
  | bpin (b : Fin NBUF)
  | bunpin (b : Fin NBUF)
  /-- The holder of `b` writes in its data. -/
  | change (b : Fin NBUF) (data : α)
deriving DecidableEq, Repr

inductive Action (P α : Type*)
  | call (p : P) (c : Call α)
  /-- Process `p` goes on. -/
  | next (p : P)
deriving DecidableEq, Repr

inductive Event (α : Type*)
  | silent
  /-- `bread` of the block returns a buffer with these contents. -/
  | returned (blk : BlockId) (data : α)
deriving DecidableEq, Repr

/-- `binit`; the pointers are not read before they are written. -/
def binit (k : Links Node) : Links Node :=
  (List.finRange NBUF).foldl (fun k b => k.pushFront none (some b)) ((k.setPrev none none).setNext none none)

/-- After `binit`: the memory of the buffers is zero. -/
def State.init {P α : Type*} (k : Links Node) (zero : α) (disk : UInt64 → α) : State P α where
  buf _ := { dev := 0, blockno := 0, valid := false, lock := none, refcnt := 0, data := zero }
  links := binit k
  disk := disk
  pc _ := .idle
  halted := none
  refs _ := []
  changed _ := false
  left blk := disk (sector blk.blockno)

variable {P α : Type*}

/-- The loops of `bget`: the first buffer with `p` on the way from the head and back to it, if they come to an end. -/
def search (next : Node → Node) (p : Fin NBUF → Bool) : Option (Option (Fin NBUF)) :=
  (walk next none (fun n => n.any p) (NBUF + 1) (next none)).map Option.join

/-- Is the block already cached? -/
def State.lookup (s : State P α) (blk : BlockId) : Option (Option (Fin NBUF)) :=
  search s.links.next fun b => (s.buf b).toBlockId == blk

/-- The least recently used unused buffer. -/
def State.unused (s : State P α) : Option (Option (Fin NBUF)) := search s.links.prev fun b => (s.buf b).refcnt == 0

def State.setBuf (s : State P α) (b : Fin NBUF) (x : Buf P α) : State P α := { s with buf := Function.update s.buf b x }

def State.setRefs (s : State P α) (b : Fin NBUF) (l : List (Ref P)) : State P α :=
  { s with refs := Function.update s.refs b l }

def State.setChanged (s : State P α) (b : Fin NBUF) (c : Bool) : State P α :=
  { s with changed := Function.update s.changed b c }

def State.halt (s : State P α) (h : Halt) : State P α := { s with halted := some h }

/-- `b->refcnt++`. -/
def State.addRef (s : State P α) (b : Fin NBUF) (r : Ref P) : State P α :=
  (s.setBuf b { s.buf b with refcnt := (s.buf b).refcnt + 1 }).setRefs b (r :: s.refs b)

/-- Give an unused buffer to a block. -/
def State.recycle (s : State P α) (b : Fin NBUF) (blk : BlockId) (r : Ref P) : State P α :=
  ((s.setBuf b { s.buf b with toBlockId := blk, valid := false, refcnt := 1 }).setRefs b (r :: s.refs b)).setChanged b false

/-- Move to the head of the most-recently-used list. -/
def State.toFront (s : State P α) (b : Fin NBUF) : State P α :=
  { s with links := (s.links.unlink (some b)).pushFront none (some b) }

variable [DecidableEq P]

def State.setPc (s : State P α) (p : P) (c : Pc) : State P α := { s with pc := Function.update s.pc p c }

/-- `b->refcnt--`. -/
def State.dropRef (s : State P α) (b : Fin NBUF) (r : Ref P) : State P α :=
  (s.setBuf b { s.buf b with refcnt := (s.buf b).refcnt - 1 }).setRefs b ((s.refs b).erase r)

/-- The critical section of `bget`. -/
def State.bget (s : State P α) (p : P) (blk : BlockId) : State P α :=
  match s.lookup blk with
  | none => s.halt .spin
  | some (some b) => (s.addRef b (.wait p)).setPc p (.acquiring b blk)
  | some none =>
    match s.unused with
    | none => s.halt .spin
    | some (some b) => (s.recycle b blk (.wait p)).setPc p (.acquiring b blk)
    | some none => s.halt (.panic "bget: no buffers")

/-- `acquiresleep` finds the lock free. -/
def State.lock (s : State P α) (p : P) (b : Fin NBUF) (blk : BlockId) : State P α :=
  ((s.setBuf b { s.buf b with lock := some p }).setRefs b (.hold p :: (s.refs b).erase (.wait p))).setPc p (.locked b blk)

/-- `releasesleep` in `brelse`. -/
def State.unlock (s : State P α) (p : P) (b : Fin NBUF) : State P α :=
  { ((s.setBuf b { s.buf b with lock := none }).setRefs b (.drop p :: (s.refs b).erase (.hold p))).setPc p (.releasing b) with
    left := Function.update s.left (s.buf b).toBlockId (s.buf b).data }

/-- The critical section of `brelse`. -/
def State.release (s : State P α) (p : P) (b : Fin NBUF) : State P α :=
  let s := s.dropRef b (.drop p)
  (if (s.buf b).refcnt = 0 then s.toFront b else s).setPc p .idle

/-- The disk has the contents of the sector put into the buffer. -/
def State.load (s : State P α) (b : Fin NBUF) (at' : UInt64) : State P α :=
  s.setBuf b { s.buf b with data := s.disk at' }

/-- The disk has taken the contents of the buffer. -/
def State.store (s : State P α) (b : Fin NBUF) (at' : UInt64) : State P α :=
  { s.setChanged b false with disk := Function.update s.disk at' (s.buf b).data }

/-- What a process does that is in none of the functions. A buffer is written to by its holder only, and there is a `bpin`
    before a `bunpin`. -/
def State.enter (s : State P α) (p : P) : Call α → Option (State P α)
  | .bread blk => some (s.bget p blk)
  | .bwrite b =>
    if (s.buf b).lock = some p then some (s.setPc p (.writing b (sector (s.buf b).blockno)))
    else some (s.halt (.panic "bwrite"))
  | .brelse b => if (s.buf b).lock = some p then some (s.unlock p b) else some (s.halt (.panic "brelse"))
  | .bpin b => some (s.addRef b .pin)
  | .bunpin b => if .pin ∈ s.refs b then some (s.dropRef b .pin) else none
  | .change b data =>
    if (s.buf b).lock = some p then some ((s.setBuf b { s.buf b with data }).setChanged b true) else none

/-- How a process goes on that is in one of the functions. -/
def State.continue (s : State P α) (p : P) : Option (Event α × State P α) :=
  match s.pc p with
  | .idle => none
  | .acquiring b blk => if (s.buf b).lock = none then some (.silent, s.lock p b blk) else none
  | .locked b blk =>
    if (s.buf b).valid then some (.returned blk (s.buf b).data, s.setPc p .idle)
    else some (.silent, s.setPc p (.reading b blk (sector (s.buf b).blockno)))
  | .reading b blk at' => some (.silent, (s.load b at').setPc p (.filled b blk))
  | .filled b blk => some (.returned blk (s.buf b).data, (s.setBuf b { s.buf b with valid := true }).setPc p .idle)
  | .writing b at' => some (.silent, (s.store b at').setPc p .idle)
  | .releasing b => some (.silent, s.release p b)

def step (s : State P α) (a : Action P α) : Option (Event α × State P α) :=
  if s.halted.isSome then none
  else
    match a with
    | .call p c => if s.pc p = .idle then (s.enter p c).map (.silent, ·) else none
    | .next p => s.continue p

/-- The transitions of the cache; a label is an action together with its event. -/
abbrev Step : State P α → Action P α × Event α → State P α → Prop := Transition.ofStep step

/-- The block that a call of `bread` asks for. -/
def Action.asks : Action P α → Option BlockId
  | .call _ (.bread blk) => some blk
  | _ => none

/-- The blocks that a run asks for. -/
def asked (ls : List (Action P α × Event α)) : Set BlockId := {blk | ∃ l ∈ ls, l.1.asks = some blk}

/-- The buffers that are held, waited for or pinned. -/
def State.inUse (s : State P α) : Finset (Fin NBUF) := {b | s.refs b ≠ []}

end LabSO.Bcache

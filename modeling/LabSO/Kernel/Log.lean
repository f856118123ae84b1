import LabSO.Kernel.Disk
import Mathlib.Logic.Function.Basic

/-! The log of `log.c`: what its functions do to `struct log`, to the buffers and to the disk.

    A buffer keeps what its last holder left in it, so `bread` is modelled by what it gives for each block. -/

namespace LabSO.Kernel

/-! ### `param.h` -/

/-- Max # of blocks any FS op writes. -/
def MAXOPBLOCKS : Nat := 10

/-- Max data blocks in on-disk log. -/
def LOGSIZE : Nat := MAXOPBLOCKS * 3

/-! ### `struct log` -/

/-- `struct log` without its lock; `lh` has the entries of `lh.block` below `lh.n`. -/
structure Log where
  start : BlockNo
  size : Int
  outstanding : Int
  committing : Bool
  lh : List BlockNo
deriving DecidableEq

/-- This op might exhaust log space. -/
def Log.mightExhaust (log : Log) : Prop := log.lh.length + (log.outstanding + 1) * MAXOPBLOCKS > LOGSIZE

instance (log : Log) : Decidable log.mightExhaust := inferInstanceAs (Decidable (_ > _))

/-- One pass of the loop of `begin_op`; none where it sleeps. -/
def Log.beginOp (log : Log) : Option Log :=
  if log.committing then none
  else if log.mightExhaust then none
  else some { log with outstanding := log.outstanding + 1 }

/-- The first critical section of `end_op`, with `do_commit`, or the message of its panic. -/
def Log.endOp (log : Log) : Except String (Bool × Log) :=
  let log := { log with outstanding := log.outstanding - 1 }
  if log.committing then .error "log.committing"
  else if log.outstanding = 0 then .ok (true, { log with committing := true })
  else .ok (false, log)

/-- `log_write`, with whether it pins the buffer, or the message of its panic. -/
def Log.logWrite (log : Log) (blockno : BlockNo) : Except String (Bool × Log) :=
  if log.lh.length ≥ LOGSIZE ∨ log.lh.length ≥ log.size - 1 then .error "too big a transaction"
  else if log.outstanding < 1 then .error "log_write outside of trans"
  else
    let i := log.lh.idxOf blockno
    if i = log.lh.length then .ok (true, { log with lh := log.lh ++ [blockno] })
    else .ok (false, { log with lh := log.lh.set i blockno })

/-! ### Buffers and disk -/

/-- The log with the disk under it. `bufs` is what `bread` gives for a block, `pins` how often a buffer is pinned, and
    `writes` has the block writes in the order in which they were issued. -/
structure Store where
  disk : Disk
  bufs : BlockNo → Block
  pins : BlockNo → Int
  log : Log
  writes : List (BlockNo × Block)

/-- The machine as it starts with a disk: no buffer is cached. -/
def Store.boot (start : BlockNo) (size : Int) (disk : Disk) : Store where
  disk := disk
  bufs := disk
  pins _ := 0
  log := { start, size, outstanding := 0, committing := false, lh := [] }
  writes := []

def Store.setBuf (s : Store) (blockno : BlockNo) (data : Block) : Store :=
  { s with bufs := Function.update s.bufs blockno data }

def Store.bwrite (s : Store) (blockno : BlockNo) : Store :=
  { s with
    disk := Function.update s.disk blockno (s.bufs blockno)
    writes := s.writes ++ [(blockno, s.bufs blockno)] }

def Store.bpin (s : Store) (blockno : BlockNo) : Store :=
  { s with pins := Function.update s.pins blockno (s.pins blockno + 1) }

def Store.bunpin (s : Store) (blockno : BlockNo) : Store :=
  { s with pins := Function.update s.pins blockno (s.pins blockno - 1) }

/-- The block of the log for entry `tail`. -/
def logSlot (start : BlockNo) (tail : Nat) : BlockNo := start + UInt32.ofNat tail + 1

/-! ### The header -/

/-- The loop of `write_head`, from entry `i` on. -/
def putEntries (hb : Block) (i : Nat) : List BlockNo → Block
  | [] => hb
  | blockno :: rest => putEntries (hb.setWord (i + 1) blockno) (i + 1) rest

/-- The header block that `write_head` fills in. -/
def headBlock (hb : Block) (lh : List BlockNo) : Block := putEntries (hb.setWord 0 (UInt32.ofNat lh.length)) 0 lh

def Store.writeHead (s : Store) : Store :=
  (s.setBuf s.log.start (headBlock (s.bufs s.log.start) s.log.lh)).bwrite s.log.start

/-- How a run of the kernel can break off. -/
inductive Fault
  | panic (msg : String)
  /-- It writes past the end of an array. -/
  | overrun
deriving DecidableEq

/-- `read_head`; it copies as many entries as the header says, over the end of `lh.block` where that has fewer. -/
def Store.readHead (s : Store) : Except Fault Store :=
  let lh := s.bufs s.log.start
  let n := (lh.word 0).toInt32.toInt
  if n > LOGSIZE then .error .overrun
  else .ok { s with log := { s.log with lh := (List.range n.toNat).map fun i => lh.word (i + 1) } }

/-! ### Committing -/

/-- The body of the loop of `write_log`, for entry `tail`. -/
def Store.writeLogAt (s : Store) (tail : Nat) (blockno : BlockNo) : Store :=
  let slot := logSlot s.log.start tail
  (s.setBuf slot (s.bufs blockno)).bwrite slot

def Store.writeLogLoop (s : Store) (tail : Nat) : List BlockNo → Store
  | [] => s
  | blockno :: rest => (s.writeLogAt tail blockno).writeLogLoop (tail + 1) rest

def Store.writeLog (s : Store) : Store := s.writeLogLoop 0 s.log.lh

/-- The body of the loop of `install_trans`, for entry `tail`. -/
def Store.installAt (s : Store) (recovering : Bool) (tail : Nat) (blockno : BlockNo) : Store :=
  let s := (s.setBuf blockno (s.bufs (logSlot s.log.start tail))).bwrite blockno
  if recovering then s else s.bunpin blockno

def Store.installLoop (s : Store) (recovering : Bool) (tail : Nat) : List BlockNo → Store
  | [] => s
  | blockno :: rest => (s.installAt recovering tail blockno).installLoop recovering (tail + 1) rest

def Store.installTrans (s : Store) (recovering : Bool) : Store := s.installLoop recovering 0 s.log.lh

/-- `log.lh.n = 0`. -/
def Store.clearHead (s : Store) : Store := { s with log := { s.log with lh := [] } }

def Store.commit (s : Store) : Store :=
  if s.log.lh.length > 0 then (s.writeLog.writeHead.installTrans false).clearHead.writeHead else s

/-! ### Recovering -/

def Store.recoverFromLog (s : Store) : Except Fault Store := do
  let s ← s.readHead
  return (s.installTrans true).clearHead.writeHead

/-- `sizeof(struct logheader)`. -/
def sizeofLogheader : Nat := 4 + 4 * LOGSIZE

def initlog (disk : Disk) (sb : Superblock) : Except Fault Store := do
  if sizeofLogheader ≥ BSIZE then .error (.panic "initlog: too big logheader")
  (Store.boot sb.logstart sb.nlog.toInt32.toInt disk).recoverFromLog

def fsinit (disk : Disk) : Except Fault Store := do
  let sb := readsb disk
  if sb.magic ≠ FSMAGIC then .error (.panic "invalid file system")
  initlog disk sb

end LabSO.Kernel

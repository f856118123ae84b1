import LabSO.Kernel.CopyIn
import LabSO.Kernel.FsBlocks

/-! The inode layer of `fs.c`: the table of inodes in memory, the inodes on disk, and reading and writing their contents.

    There is one device, so inodes carry no device number. -/

namespace LabSO.Kernel
open Program

/-! ### `param.h` -/

/-- Maximum number of processes. -/
def NPROC : Nat := 64

theorem NPROC_pos : 0 < NPROC := by decide

/-- Open files per process. -/
def NOFILE : Nat := 16

/-- Open files per system. -/
def NFILE : Nat := 100

/-- Maximum number of active i-nodes. -/
def NINODE : Nat := 50

theorem NINODE_pos : 0 < NINODE := by decide

/-- Maximum major device number. -/
def NDEV : Nat := 10

/-! ### The tables -/

/-- `struct inode`: the copy of the inode on disk, and the book-keeping. -/
structure Inode extends Dinode where
  inum : UInt32
  ref : Int
  /-- The sleep-lock is held. -/
  locked : Bool
  valid : Bool

inductive FileType
  | none
  | inode
  | device
deriving DecidableEq

/-- `struct file` without the pipe; `ip` is of account for inodes and devices, `off` for inodes, `major` for devices. -/
structure File where
  type : FileType
  ref : Int
  readable : Bool
  writable : Bool
  ip : Fin NINODE
  off : UInt32
  major : Int16

/-- What a process holds of the file system. -/
structure FsProc where
  cwd : Fin NINODE
  ofile : Fin NOFILE → Option (Fin NFILE)

structure Fs where
  store : Store
  itable : Fin NINODE → Inode
  ftable : Fin NFILE → File
  /-- The processes that run. -/
  proc : Fin NPROC → Option FsProc

abbrev FsProg := Prog Fs Stop

/-- A part of the program that only touches the blocks. -/
def onStore {α : Type} (m : Prog Store Stop α) : FsProg α := zoom Fs.store (fun store s => { s with store }) m

def Fs.setInode (s : Fs) (i : Fin NINODE) (ip : Inode) : Fs := { s with itable := Function.update s.itable i ip }

def Fs.setFile (s : Fs) (f : Fin NFILE) (fp : File) : Fs := { s with ftable := Function.update s.ftable f fp }

def Fs.setProc (s : Fs) (p : Fin NPROC) (pr : Option FsProc) : Fs := { s with proc := Function.update s.proc p pr }

/-- The fields of an inode in memory. -/
def inode (i : Fin NINODE) : FsProg Inode := liftState fun s => (s.itable i, s)

def modifyInode (i : Fin NINODE) (f : Inode → Inode) : FsProg Unit :=
  liftState fun s => ((), s.setInode i (f (s.itable i)))

/-! ### References and locks -/

/-- Find the inode with number `inum`, or recycle an entry for it. -/
def iget (inum : UInt32) : FsProg (Fin NINODE) := fun s =>
  match (List.finRange NINODE).find? fun i => 0 < (s.itable i).ref && (s.itable i).inum == inum with
  | some i => (.ok i, s.setInode i { s.itable i with ref := (s.itable i).ref + 1 })
  | none =>
    match (List.finRange NINODE).find? fun i => (s.itable i).ref == 0 with
    | some i => (.ok i, s.setInode i { s.itable i with inum := inum, ref := 1, valid := false })
    | none => (.error (.panic "iget: no inodes"), s)

/-- Increment reference count. -/
def idup (i : Fin NINODE) : FsProg (Fin NINODE) := do
  modifyInode i fun ip => { ip with ref := ip.ref + 1 }
  return i

/-- Lock the lock of an inode; nobody is there to unlock it. -/
def acquiresleep (i : Fin NINODE) : FsProg Unit := do
  let ip ← inode i
  if ip.locked then halt .asleep else modifyInode i fun ip => { ip with locked := true }

def releasesleep (i : Fin NINODE) : FsProg Unit := modifyInode i fun ip => { ip with locked := false }

variable (sb : Superblock)

/-- Lock the given inode. Reads the inode from disk if necessary. -/
def ilock (i : Fin NINODE) : FsProg Unit := do
  let ip ← inode i
  if ip.ref < 1 then halt (.panic "ilock")
  else do
    acquiresleep i
    let ip ← inode i
    onlyIf (ip.valid = false) do
      let bp ← onStore (bread (IBLOCK ip.inum sb))
      modifyInode i fun ip => { ip with toDinode := bp.dinode (ip.inum.toNat % IPB), valid := true }
      let ip ← inode i
      onlyIf (ip.type = 0) (halt (.panic "ilock: no type"))

/-- Unlock the given inode. -/
def iunlock (i : Fin NINODE) : FsProg Unit := do
  let ip ← inode i
  if ip.locked = false ∨ ip.ref < 1 then halt (.panic "iunlock") else releasesleep i

/-- Copy a modified in-memory inode to disk. -/
def iupdate (i : Fin NINODE) : FsProg Unit := do
  let ip ← inode i
  let bp ← onStore (bread (IBLOCK ip.inum sb))
  onStore (logWrite (IBLOCK ip.inum sb) (bp.setDinode (ip.inum.toNat % IPB) ip.toDinode))

/-- The loop of `ialloc`, with `left` inodes to look at. -/
def iallocFrom (type : Int16) (inum : UInt32) : Nat → FsProg (Option (Fin NINODE))
  | 0 => return none
  | left + 1 => do
    let bp ← onStore (bread (IBLOCK inum sb))
    if (bp.dinode (inum.toNat % IPB)).type = 0 then do
      onStore (logWrite (IBLOCK inum sb) (bp.setDinode (inum.toNat % IPB) { Dinode.zero with type := type }))
      let ip ← iget inum
      return some ip
    else iallocFrom type (inum + 1) left

/-- Allocate an inode; none if there is no free inode. -/
def ialloc (type : Int16) : FsProg (Option (Fin NINODE)) := iallocFrom sb type 1 (sb.ninodes.toNat - 1)

/-! ### The blocks of an inode -/

/-- The address `k` of the inode, for which a block is allocated where there is none; 0 if out of disk space. -/
def loadAddr (i : Fin NINODE) (k : Fin (NDIRECT + 1)) : FsProg BlockNo := do
  let ip ← inode i
  if getElem ip.addrs k (addr_lt k) = 0 then do
    let addr ← onStore (balloc sb)
    if addr = 0 then return 0
    else do
      modifyInode i fun ip => { ip with addrs := ip.addrs.set k addr (addr_lt k) }
      return addr
  else return getElem ip.addrs k (addr_lt k)

/-- The entry `j` of the indirect block `a`, for which a block is allocated where there is none. -/
def loadEntry (a : BlockNo) (j : Nat) : Prog Store Stop BlockNo := do
  let bp ← bread a
  if bp.word j = 0 then do
    let addr ← balloc sb
    onlyIf (addr ≠ 0) do
      let bp ← bread a
      logWrite a (bp.setWord j addr)
    return addr
  else return bp.word j

/-- The disk block address of the block `bn` of an inode; allocates one if there is none, and is 0 if out of disk
    space. -/
def bmap (i : Fin NINODE) (bn : Nat) : FsProg BlockNo :=
  if h : bn < NDIRECT then loadAddr sb i ⟨bn, Nat.lt_succ_of_lt h⟩
  else if bn - NDIRECT < NINDIRECT then do
    let addr ← loadAddr sb i (Fin.last NDIRECT)
    if addr = 0 then return 0 else onStore (loadEntry sb addr (bn - NDIRECT))
  else halt (.panic "bmap: out of range")

/-- The body of the first loop of `itrunc`. -/
def truncAddr (i : Fin NINODE) (k : Fin (NDIRECT + 1)) : FsProg Unit := do
  let ip ← inode i
  onlyIf (getElem ip.addrs k (addr_lt k) ≠ 0) do
    onStore (bfree sb (getElem ip.addrs k (addr_lt k)))
    modifyInode i fun ip => { ip with addrs := ip.addrs.set k 0 (addr_lt k) }

/-- The body of the second loop of `itrunc`, for the indirect block `a`. -/
def truncEntry (a : BlockNo) (j : Fin NINDIRECT) : Prog Store Stop Unit := do
  let bp ← bread a
  onlyIf (bp.word j ≠ 0) (bfree sb (bp.word j))

/-- Truncate inode (discard contents). -/
def itrunc (i : Fin NINODE) : FsProg Unit := do
  forEach (fun k : Fin NDIRECT => truncAddr sb i k.castSucc) (List.finRange NDIRECT)
  let ip ← inode i
  onlyIf (getElem ip.addrs NDIRECT NDIRECT_lt ≠ 0) do
    forEach (fun j => onStore (truncEntry sb (getElem ip.addrs NDIRECT NDIRECT_lt) j)) (List.finRange NINDIRECT)
    truncAddr sb i (Fin.last NDIRECT)
  modifyInode i fun ip => { ip with size := 0 }
  iupdate sb i

/-- Drop a reference to an in-memory inode, and free the inode on disk if it was the last and there are no links. -/
def iput (i : Fin NINODE) : FsProg Unit := do
  let ip ← inode i
  onlyIf (ip.ref = 1 ∧ ip.valid ∧ ip.nlink = 0) do
    acquiresleep i
    itrunc sb i
    modifyInode i fun ip => { ip with type := 0 }
    iupdate sb i
    modifyInode i fun ip => { ip with valid := false }
    releasesleep i
  modifyInode i fun ip => { ip with ref := ip.ref - 1 }

/-- Unlock, then put. -/
def iunlockput (i : Fin NINODE) : FsProg Unit := do
  iunlock i
  iput sb i

/-! ### Contents -/

/-- The loop of `readi`, with `left` bytes to read. -/
def readiFrom (i : Fin NINODE) (off left : Nat) : FsProg (List UInt8) :=
  if left = 0 then return []
  else do
    let addr ← bmap sb i (off / BSIZE)
    if addr = 0 then return []
    else do
      let bp ← onStore (bread addr)
      let m := min left (BSIZE - off % BSIZE)
      let rest ← readiFrom i (off + m) (left - m)
      return bp.read (off % BSIZE) m ++ rest
termination_by left
decreasing_by
  have : off % BSIZE < BSIZE := Nat.mod_lt _ (by decide)
  omega

/-- Read data from inode to a kernel address, which does not fail: the bytes that arrive there. -/
def readi (i : Fin NINODE) (off n : UInt32) : FsProg (List UInt8) := do
  let ip ← inode i
  if off > ip.size ∨ off + n < off then return []
  else readiFrom sb i off.toNat (if off + n > ip.size then ip.size - off else n).toNat

/-- Where `writei` copies from: a kernel address, given by the bytes there, or an address of the process. -/
inductive Source
  | kernel (bytes : List UInt8)
  | user (mem : UserMem) (va : UInt64)

/-- `either_copyin` of the next `len` bytes: those that arrive, and whether these are all. -/
def Source.copyin : Source → Nat → List UInt8 × Bool
  | kernel bytes, len => (bytes.take len, true)
  | user mem va, len => mem.copyin va len

/-- `src += m`. -/
def Source.advance : Source → Nat → Source
  | kernel bytes, m => kernel (bytes.drop m)
  | user mem va, m => user mem (va + UInt64.ofNat m)

/-- The loop of `writei`: `tot` and `off` at its end. Bytes that arrive before a copy fails stay in the buffer. -/
def writeiFrom (i : Fin NINODE) (src : Source) (off tot n : Nat) : FsProg (Nat × Nat) :=
  if tot < n then do
    let addr ← bmap sb i (off / BSIZE)
    if addr = 0 then return (tot, off)
    else do
      let bp ← onStore (bread addr)
      let m := min (n - tot) (BSIZE - off % BSIZE)
      let (bytes, all) := src.copyin m
      if all then do
        onStore (logWrite addr (bp.write (off % BSIZE) bytes))
        writeiFrom i (src.advance m) (off + m) (tot + m) n
      else do
        onStore (liftState fun s => ((), s.setBuf addr (bp.write (off % BSIZE) bytes)))
        return (tot, off)
  else return (tot, off)
termination_by n - tot
decreasing_by
  have : off % BSIZE < BSIZE := Nat.mod_lt _ (by decide)
  omega

/-- Write data to inode; the number of bytes written, or -1. -/
def writei (i : Fin NINODE) (src : Source) (off n : UInt32) : FsProg Int := do
  let ip ← inode i
  if off > ip.size ∨ off + n < off then return -1
  else if (off + n).toNat > MAXFILE * BSIZE then return -1
  else do
    let (tot, off) ← writeiFrom sb i src off.toNat 0 n.toNat
    modifyInode i fun ip => if off > ip.size.toNat then { ip with size := UInt32.ofNat off } else ip
    iupdate sb i
    return tot

end LabSO.Kernel

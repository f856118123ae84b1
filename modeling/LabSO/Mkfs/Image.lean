import LabSO.Kernel.Directory
import LabSO.Mkfs.Layout

/-! `mkfs.c`: the functions that write the image of a file system, and `main`. `xshort` and `xint` are the identity on
    numbers that the image holds with the lowest byte first. The image file is there to be written, and the host writes
    what it is told to; but a block past the end of the file cannot be read. -/

namespace LabSO.Mkfs
open Kernel Program

/-- How a run ends without status 0. -/
inductive Death
  | die (s : String)
  | assertion
deriving DecidableEq

/-- The image and the counters. -/
structure Image where
  /-- The blocks of the file, zeros past its end. -/
  file : Disk
  /-- How many blocks the file has. -/
  length : Nat
  freeinode : UInt32
  freeblock : UInt32

abbrev Build := Prog Image Death

/-! ### Blocks and inodes -/

/-- The block at the position `sec * BSIZE`, a product of 32 bits. -/
def sector (sec : BlockNo) : BlockNo := sec * 1024 / 1024

def wsect (sec : BlockNo) (buf : Block) : Build Unit := liftState fun s =>
  ((), { s with file := Function.update s.file (sector sec) buf, length := max s.length ((sector sec).toNat + 1) })

def rsect (sec : BlockNo) : Build Block := fun s =>
  if (sector sec).toNat < s.length then (.ok (s.file (sector sec)), s) else (.error (.die "read"), s)

def winode (inum : UInt32) (ip : Dinode) : Build Unit := do
  let bn := IBLOCK inum sb
  let buf ← rsect bn
  wsect bn (buf.setDinode (inum.toNat % Kernel.IPB) ip)

def rinode (inum : UInt32) : Build Dinode := do
  let buf ← rsect (IBLOCK inum sb)
  return buf.dinode (inum.toNat % Kernel.IPB)

def ialloc (type : UInt16) : Build UInt32 := do
  let inum ← liftState fun s => (s.freeinode, { s with freeinode := s.freeinode + 1 })
  winode inum { Dinode.zero with type := type.toInt16, nlink := 1 }
  return inum

/-- The bit map of a disk whose first `used` blocks are in use. -/
def balloc (used : Int) : Build Unit :=
  if used < BSIZE * 8 then wsect sb.bmapstart ((List.range used.toNat).foldl Block.setBit .zero) else halt .assertion

/-! ### Appending to a file -/

/-- `freeblock++`. -/
def nextBlock : Build BlockNo := liftState fun s => (s.freeblock, { s with freeblock := s.freeblock + 1 })

/-- The inode with a block for its address `k`, a new one where there is none. -/
def fillAddr (din : Dinode) (k : Fin (NDIRECT + 1)) : Build Dinode :=
  if getElem din.addrs k (addr_lt k) = 0 then do
    let x ← nextBlock
    return { din with addrs := din.addrs.set k x (addr_lt k) }
  else return din

/-- The entry `j` of the indirect block `a`, a new block where there is none. -/
def fillEntry (a : BlockNo) (j : Nat) : Build BlockNo := do
  let indirect ← rsect a
  if indirect.word j = 0 then do
    let x ← nextBlock
    wsect a (indirect.setWord j x)
    return x
  else return indirect.word j

/-- The block `fbn` of the inode, and the inode with it. -/
def fillBlock (din : Dinode) (fbn : Nat) : Build (BlockNo × Dinode) :=
  if h : fbn < NDIRECT then do
    let din ← fillAddr din ⟨fbn, Nat.lt_succ_of_lt h⟩
    return (din.addrs.get ⟨fbn, Nat.lt_succ_of_lt h⟩, din)
  else do
    let din ← fillAddr din (Fin.last NDIRECT)
    let x ← fillEntry (getElem din.addrs NDIRECT NDIRECT_lt) (fbn - NDIRECT)
    return (x, din)

/-- The loop of `iappend`: the inode and the offset at its end. Within the file no offset needs more than 32 bits. -/
def iappendFrom (p : List UInt8) (off : Nat) (din : Dinode) : Build (Nat × Dinode) :=
  if p = [] then return (off, din)
  else
    let fbn := off / BSIZE
    if fbn < MAXFILE then do
      let (x, din) ← fillBlock din fbn
      let n1 := min p.length ((fbn + 1) * BSIZE - off)
      let buf ← rsect x
      wsect x (buf.write (off - fbn * BSIZE) (p.take n1))
      iappendFrom (p.drop n1) (off + n1) din
    else halt .assertion
termination_by p.length
decreasing_by
  have hpos : 0 < p.length := List.length_pos_iff.mpr ‹_›
  have hlt : off < (off / BSIZE + 1) * BSIZE :=
    (Nat.lt_mul_div_succ off (by decide)).trans_eq (Nat.mul_comm ..)
  rw [List.length_drop]
  omega

def iappend (inum : UInt32) (p : List UInt8) : Build Unit := do
  let din ← rinode inum
  let (off, din) ← iappendFrom p din.size.toNat din
  winode inum { din with size := .ofNat off }

/-! ### `main` -/

/-- A file of the host that is to be put into the image. -/
structure HostFile where
  /-- Its argument, without the terminating 0. -/
  arg : List UInt8
  /-- What the calls of `read` give before the one at the end of the file; `none` if it cannot be opened. -/
  reads : Option (List (List UInt8))

/-- The bytes of `user/`. -/
def userDir : List UInt8 := [0x75, 0x73, 0x65, 0x72, 0x2f]

/-- The name without the directory. -/
def HostFile.base (f : HostFile) : List UInt8 := if strncmp f.arg userDir 5 = 0 then f.arg.drop 5 else f.arg

/-- The name without the directory and a leading underscore. -/
def HostFile.shortname (f : HostFile) : List UInt8 := if f.base.headD 0 = 0x5f then f.base.tail else f.base

/-- The bytes of a dot. -/
def dot : UInt8 := 0x2e

/-- The loop over the arguments, for one of them. -/
def addFile (rootino : UInt32) (f : HostFile) : Build Unit :=
  if slash ∈ f.base then halt .assertion
  else
    match f.reads with
    | none => halt (.die "open")
    | some reads => do
      let inum ← ialloc T_FILE.toUInt16
      iappend rootino (Dirent.named f.shortname inum).toBytes
      forEach (iappend inum) reads

/-- The block of the superblock. -/
def sbBlock : Block :=
  Block.zero.setWords 0
    [sb.magic, sb.size, sb.nblocks, sb.ninodes, sb.nlog, sb.logstart, sb.inodestart, sb.bmapstart]

/-- The image before the first inode. -/
def format : Build Unit := do
  liftState fun s => ((), { s with freeblock := .ofNat nmeta })
  forEach (fun i => wsect (.ofNat i) .zero) (List.range FSSIZE)
  wsect 1 sbBlock

/-- Round the size of the root directory up, and mark the blocks in use. -/
def finish (rootino : UInt32) : Build Unit := do
  let din ← rinode rootino
  let off := (din.size / .ofNat BSIZE + 1) * .ofNat BSIZE
  winode rootino { din with size := off }
  let freeblock ← liftState fun s => (s.freeblock, s)
  balloc freeblock.toInt32.toInt

/-- `main` with the files of its arguments. -/
def main (files : List HostFile) : Build Unit := do
  format
  let rootino ← ialloc T_DIR.toUInt16
  if rootino ≠ ROOTINO then halt .assertion
  else do
    iappend rootino (Dirent.named [dot] rootino).toBytes
    iappend rootino (Dirent.named [dot, dot] rootino).toBytes
    forEach (addFile rootino) files
    finish rootino

/-- `mkfs` before `main`: an image without blocks. -/
def Image.empty : Image where
  file _ := .zero
  length := 0
  freeinode := 1
  freeblock := 0

end LabSO.Mkfs

import LabSO.Lib.Bytes

/-! The disk of `fs.h`: blocks of bytes, and the `uint` fields that the kernel reads and writes in them. -/

namespace LabSO.Kernel

/-- Block size. -/
def BSIZE : Nat := 1024

abbrev BlockNo := UInt32

/-- The data of a block, or of the buffer that caches it. -/
structure Block where
  bytes : Vector UInt8 BSIZE
deriving DecidableEq

abbrev Disk := BlockNo → Block

/-- All bytes are 0. -/
def Block.zero : Block := ⟨Vector.replicate BSIZE 0⟩

/-- The element `i` of the block as an array of `uint`. -/
def Block.word (b : Block) (i : Nat) : UInt32 := UInt32.ofNat (Bytes.getLE b.bytes (4 * i) 4)

def Block.setWord (b : Block) (i : Nat) (x : UInt32) : Block := ⟨Bytes.setLE b.bytes (4 * i) 4 x.toNat⟩

theorem Block.word_setWord {b : Block} {i : Nat} {x : UInt32} (h : 4 * i + 4 ≤ BSIZE) : (b.setWord i x).word i = x := by
  rw [word, setWord, Bytes.getLE_setLE x.toNat h]
  exact (UInt32.ofNat_mod_size ..).trans UInt32.ofNat_toNat

theorem Block.word_setWord_of_ne {b : Block} {i j : Nat} {x : UInt32} (h : i ≠ j) :
    (b.setWord i x).word j = b.word j := by
  rw [word, setWord, Bytes.getLE_setLE_of_disjoint, word]
  omega

/-- `struct superblock`. -/
structure Superblock where
  magic : UInt32
  size : UInt32
  nblocks : UInt32
  ninodes : UInt32
  nlog : UInt32
  logstart : UInt32
  inodestart : UInt32
  bmapstart : UInt32
deriving DecidableEq

def FSMAGIC : UInt32 := 0x10203040

/-- `readsb`, of the device whose blocks are given. -/
def readsb (d : Disk) : Superblock :=
  let b := d 1
  { magic := b.word 0, size := b.word 1, nblocks := b.word 2, ninodes := b.word 3, nlog := b.word 4,
    logstart := b.word 5, inodestart := b.word 6, bmapstart := b.word 7 }

end LabSO.Kernel

import LabSO.Kernel.Disk
import Mathlib.Data.Nat.Bitwise

/-! The on-disk file system format of `fs.h`: the bits of the free bit map, the inodes of a block and the entries of a
    directory, as the bytes of blocks. -/

namespace LabSO.Kernel

def ROOTINO : UInt32 := 1

def NDIRECT : Nat := 12

theorem NDIRECT_lt : NDIRECT < NDIRECT + 1 := Nat.lt_succ_self NDIRECT

theorem addr_lt (k : Fin (NDIRECT + 1)) : k.val < NDIRECT + 1 := k.isLt

def NINDIRECT : Nat := BSIZE / 4

def MAXFILE : Nat := NDIRECT + NINDIRECT

/-- Inodes per block. -/
def IPB : Nat := BSIZE / 64

/-- Block containing inode `i`. -/
def IBLOCK (i : UInt32) (sb : Superblock) : BlockNo := UInt32.ofNat (i.toNat / IPB) + sb.inodestart

/-- Bitmap bits per block. -/
def BPB : Nat := BSIZE * 8

/-- Block of free map containing bit for block `b`. -/
def BBLOCK (b : BlockNo) (sb : Superblock) : BlockNo := UInt32.ofNat (b.toNat / BPB) + sb.bmapstart

def DIRSIZ : Nat := 14

/-! ### The free bit map -/

/-- `m = 1 << (bi % 8)`. -/
def bitMask (bi : Nat) : UInt8 := 1 <<< UInt8.ofNat (bi % 8)

def Block.byte (b : Block) (i : Nat) : UInt8 := b.bytes[i]?.getD 0

def Block.setByte (b : Block) (i : Nat) (x : UInt8) : Block := ⟨b.bytes.setIfInBounds i x⟩

/-- `(bp->data[bi/8] & m) != 0`. -/
def Block.bit (b : Block) (bi : Nat) : Bool := b.byte (bi / 8) &&& bitMask bi != 0

/-- `bp->data[bi/8] |= m`. -/
def Block.setBit (b : Block) (bi : Nat) : Block := b.setByte (bi / 8) (b.byte (bi / 8) ||| bitMask bi)

/-- `bp->data[bi/8] &= ~m`. -/
def Block.clearBit (b : Block) (bi : Nat) : Block := b.setByte (bi / 8) (b.byte (bi / 8) &&& ~~~bitMask bi)

theorem Block.byte_setByte {b : Block} {i j : Nat} {x : UInt8} (hi : i < BSIZE) :
    (b.setByte i x).byte j = if i = j then x else b.byte j := by
  unfold byte setByte
  rw [Vector.getElem?_setIfInBounds]
  split
  · next h =>
    subst h
    simp
  · rfl

theorem bitMask_eq (bi : Nat) : (bitMask bi).toNat = 2 ^ (bi % 8) := by
  have h : bi % 8 < 8 := Nat.mod_lt _ (by decide)
  have hpow : 2 ^ (bi % 8) < 256 := (Nat.pow_lt_pow_right (by decide) h).trans_eq (by decide)
  simpa [bitMask, UInt8.toNat_shiftLeft, Nat.shiftLeft_eq] using hpow

theorem testBit_bitMask (bi i : Nat) : (bitMask bi).toBitVec.getLsbD i = decide (bi % 8 = i) := by
  rw [← BitVec.testBit_toNat, UInt8.toNat_toBitVec, bitMask_eq, Nat.testBit_two_pow]

theorem and_bitMask (x : UInt8) (bi : Nat) : (x &&& bitMask bi != 0) = x.toBitVec.getLsbD (bi % 8) := by
  have hzero : x &&& bitMask bi = 0 ↔ x.toNat &&& 2 ^ (bi % 8) = 0 := by
    rw [← UInt8.toNat_inj, UInt8.toNat_and, bitMask_eq]
    rfl
  rw [Nat.and_two_pow] at hzero
  rw [← BitVec.testBit_toNat, UInt8.toNat_toBitVec]
  cases htest : x.toNat.testBit (bi % 8) <;> simp [hzero, htest]

theorem Block.bit_setBit {b : Block} {bi bj : Nat} (hi : bi < BPB) :
    (b.setBit bi).bit bj = (decide (bi = bj) || b.bit bj) := by
  have hbyte : bi / 8 < BSIZE := Nat.div_lt_of_lt_mul (by rwa [Nat.mul_comm])
  have hsame : bi / 8 = bj / 8 ∧ bi % 8 = bj % 8 ↔ bi = bj := by omega
  simp only [bit, and_bitMask, setBit, byte_setByte hbyte]
  split
  · next h => simp [testBit_bitMask, ← hsame, h, Bool.or_comm]
  · next h => simp [← hsame, h]

theorem Block.bit_clearBit {b : Block} {bi bj : Nat} (hi : bi < BPB) :
    (b.clearBit bi).bit bj = (!decide (bi = bj) && b.bit bj) := by
  have hbyte : bi / 8 < BSIZE := Nat.div_lt_of_lt_mul (by rwa [Nat.mul_comm])
  have hsame : bi / 8 = bj / 8 ∧ bi % 8 = bj % 8 ↔ bi = bj := by omega
  have hmod : bj % 8 < 8 := Nat.mod_lt _ (by decide)
  simp only [bit, and_bitMask, clearBit, byte_setByte hbyte]
  split
  · next h =>
    rw [← h, UInt8.toBitVec_and, UInt8.toBitVec_not, BitVec.getLsbD_and, BitVec.getLsbD_not, testBit_bitMask,
      Bool.and_comm, decide_eq_true hmod, Bool.true_and]
    simp [← hsame, h]
  · next h => simp [← hsame, h]

/-! ### Inodes -/

/-- `struct dinode`, and the part of `struct inode` that is a copy of it. -/
structure Dinode where
  type : Int16
  major : Int16
  minor : Int16
  nlink : Int16
  size : UInt32
  addrs : Vector BlockNo (NDIRECT + 1)
deriving DecidableEq

/-- All bytes are 0. -/
def Dinode.zero : Dinode where
  type := 0
  major := 0
  minor := 0
  nlink := 0
  size := 0
  addrs := Vector.replicate _ 0

/-- The element `i` of the block as an array of `short`. -/
def Block.short (b : Block) (i : Nat) : Int16 := (UInt16.ofNat (Bytes.getLE b.bytes (2 * i) 2)).toInt16

def Block.setShort (b : Block) (i : Nat) (x : Int16) : Block := ⟨Bytes.setLE b.bytes (2 * i) 2 x.toUInt16.toNat⟩

/-- Copy words to the words from `i` on. -/
def Block.setWords (b : Block) (i : Nat) : List UInt32 → Block
  | [] => b
  | x :: xs => (b.setWord i x).setWords (i + 1) xs

/-- The element `i` of the block as an array of `struct dinode`. -/
def Block.dinode (b : Block) (i : Nat) : Dinode where
  type := b.short (32 * i)
  major := b.short (32 * i + 1)
  minor := b.short (32 * i + 2)
  nlink := b.short (32 * i + 3)
  size := b.word (16 * i + 2)
  addrs := Vector.ofFn fun k => b.word (16 * i + 3 + k)

def Block.setDinode (b : Block) (i : Nat) (d : Dinode) : Block :=
  let b := b.setShort (32 * i) d.type
  let b := b.setShort (32 * i + 1) d.major
  let b := b.setShort (32 * i + 2) d.minor
  let b := b.setShort (32 * i + 3) d.nlink
  let b := b.setWord (16 * i + 2) d.size
  b.setWords (16 * i + 3) d.addrs.toList

theorem Block.short_setShort {b : Block} {i : Nat} {x : Int16} (h : 2 * i + 2 ≤ BSIZE) :
    (b.setShort i x).short i = x := by
  have hlt : x.toUInt16.toNat < 256 ^ 2 := UInt16.toNat_lt _
  rw [short, setShort, Bytes.getLE_setLE _ h, Nat.mod_eq_of_lt hlt, UInt16.ofNat_toNat]
  rfl

theorem Block.short_setShort_of_ne {b : Block} {i j : Nat} {x : Int16} (h : i ≠ j) :
    (b.setShort i x).short j = b.short j := by
  rw [short, setShort, Bytes.getLE_setLE_of_disjoint, short]
  omega

theorem Block.word_setShort {b : Block} {i j : Nat} {x : Int16} (h : 2 * i + 2 ≤ 4 * j ∨ 4 * j + 4 ≤ 2 * i) :
    (b.setShort i x).word j = b.word j := by
  rw [word, setShort, Bytes.getLE_setLE_of_disjoint, word]
  omega

theorem Block.short_setWord {b : Block} {i j : Nat} {x : UInt32} (h : 2 * j + 2 ≤ 4 * i ∨ 4 * i + 4 ≤ 2 * j) :
    (b.setWord i x).short j = b.short j := by
  rw [short, setWord, Bytes.getLE_setLE_of_disjoint, short]
  omega

theorem Block.short_setWords {b : Block} {i j : Nat} {xs : List UInt32}
    (h : 2 * j + 2 ≤ 4 * i ∨ 4 * (i + xs.length) ≤ 2 * j) : (b.setWords i xs).short j = b.short j := by
  induction xs generalizing b i with
  | nil => rfl
  | cons x xs ih =>
    rw [List.length_cons] at h
    rw [setWords, ih (by omega), short_setWord (by omega)]

theorem Block.word_setWords_of_lt {b : Block} {i j : Nat} {xs : List UInt32} (h : j < i ∨ i + xs.length ≤ j) :
    (b.setWords i xs).word j = b.word j := by
  induction xs generalizing b i with
  | nil => rfl
  | cons x xs ih =>
    rw [List.length_cons] at h
    rw [setWords, ih (by omega), word_setWord_of_ne (by omega)]

theorem Block.word_setWords {b : Block} {i k : Nat} {xs : List UInt32} (hfits : 4 * (i + xs.length) ≤ BSIZE)
    (hk : k < xs.length) : (b.setWords i xs).word (i + k) = xs[k] := by
  induction xs generalizing b i k with
  | nil => nomatch hk
  | cons x xs ih =>
    rw [List.length_cons] at hfits hk
    rw [setWords]
    cases k with
    | zero => rw [word_setWords_of_lt (by omega), Nat.add_zero, word_setWord (by omega)]; rfl
    | succ k =>
      rw [show i + (k + 1) = i + 1 + k by omega, ih (by omega) (by omega)]
      rfl

theorem Block.dinode_setDinode {b : Block} {i : Nat} {d : Dinode} (h : i < IPB) : (b.setDinode i d).dinode i = d := by
  have hi : 64 * i + 64 ≤ BSIZE := by
    have hmul : 64 * (i + 1) ≤ 64 * IPB := Nat.mul_le_mul_left _ h
    exact hmul.trans (by decide)
  obtain ⟨type, major, minor, nlink, size, addrs⟩ := d
  have hlen : addrs.toList.length = 13 := Vector.length_toList
  simp only [setDinode, dinode, Dinode.mk.injEq]
  refine ⟨?_, ?_, ?_, ?_, ?_, ?_⟩
  · simp (disch := omega) only [short_setWords, short_setWord, short_setShort_of_ne, short_setShort]
  · simp (disch := omega) only [short_setWords, short_setWord, short_setShort_of_ne, short_setShort]
  · simp (disch := omega) only [short_setWords, short_setWord, short_setShort_of_ne, short_setShort]
  · simp (disch := omega) only [short_setWords, short_setWord, short_setShort]
  · simp (disch := omega) only [word_setWords_of_lt, word_setWord]
  · ext k hk
    have hk' : k < 13 := hk
    rw [Vector.getElem_ofFn, word_setWords (k := k) (by omega) (by omega), Vector.getElem_toList]

/-- The other inodes of the block stay. -/
theorem Block.dinode_setDinode_of_ne {b : Block} {i j : Nat} {d : Dinode} (h : i ≠ j) :
    (b.setDinode i d).dinode j = b.dinode j := by
  have hlen : d.addrs.toList.length = 13 := Vector.length_toList
  simp only [setDinode, dinode, Dinode.mk.injEq]
  refine ⟨?_, ?_, ?_, ?_, ?_, ?_⟩
  · simp (disch := omega) only [short_setWords, short_setWord, short_setShort_of_ne]
  · simp (disch := omega) only [short_setWords, short_setWord, short_setShort_of_ne]
  · simp (disch := omega) only [short_setWords, short_setWord, short_setShort_of_ne]
  · simp (disch := omega) only [short_setWords, short_setWord, short_setShort_of_ne]
  · simp (disch := omega) only [word_setWords_of_lt, word_setWord_of_ne, word_setShort]
  · ext k hk
    have hk' : k < 13 := hk
    rw [Vector.getElem_ofFn, Vector.getElem_ofFn]
    simp (disch := omega) only [word_setWords_of_lt, word_setWord_of_ne, word_setShort]

/-! ### Runs of bytes -/

/-- The `n` bytes from `off`. -/
def Block.read (b : Block) (off n : Nat) : List UInt8 := (List.range n).map fun i => b.byte (off + i)

/-- Copy bytes to the block from `off` on. -/
def Block.write (b : Block) (off : Nat) : List UInt8 → Block
  | [] => b
  | x :: xs => (b.setByte off x).write (off + 1) xs

@[simp] theorem Block.length_read (b : Block) (off n : Nat) : (b.read off n).length = n := by simp [read]

theorem Block.byte_write_of_lt {b : Block} {off j : Nat} {xs : List UInt8} (h : j < off ∨ off + xs.length ≤ j) :
    (b.write off xs).byte j = b.byte j := by
  induction xs generalizing b off with
  | nil => rfl
  | cons x xs ih =>
    rw [List.length_cons] at h
    rw [write, ih (by omega)]
    unfold byte setByte
    rw [Vector.getElem?_setIfInBounds_ne (by omega)]

theorem Block.byte_write {b : Block} {off k : Nat} {xs : List UInt8} (hfits : off + xs.length ≤ BSIZE)
    (hk : k < xs.length) : (b.write off xs).byte (off + k) = xs[k] := by
  induction xs generalizing b off k with
  | nil => nomatch hk
  | cons x xs ih =>
    rw [List.length_cons] at hfits hk
    rw [write]
    cases k with
    | zero => rw [byte_write_of_lt (by omega), Nat.add_zero, byte_setByte (by omega), if_pos rfl]; rfl
    | succ k =>
      rw [show off + (k + 1) = off + 1 + k by omega, ih (by omega) (by omega)]
      rfl

theorem Block.read_write {b : Block} {off : Nat} {xs : List UInt8} (hfits : off + xs.length ≤ BSIZE) :
    (b.write off xs).read off xs.length = xs := by
  apply List.ext_getElem
  · simp
  · intro k hk hk'
    simp only [read, List.getElem_map, List.getElem_range, byte_write hfits hk']

/-- Bytes outside of the range that is written stay. -/
theorem Block.read_write_of_disjoint {b : Block} {off off' n : Nat} {xs : List UInt8}
    (h : off' + n ≤ off ∨ off + xs.length ≤ off') : (b.write off xs).read off' n = b.read off' n := by
  apply List.map_congr_left
  intro i hi
  rw [List.mem_range] at hi
  exact byte_write_of_lt (by omega)

/-! ### The block of zeros -/

theorem Bytes.getLE_replicate {n : Nat} (off k : Nat) : Bytes.getLE (Vector.replicate n 0) off k = 0 := by
  induction k generalizing off with
  | zero => rfl
  | succ k ih =>
    rw [Bytes.getLE, ih, Vector.getElem?_replicate]
    split <;> rfl

theorem Block.word_zero (i : Nat) : Block.zero.word i = 0 := by
  rw [word, zero, Bytes.getLE_replicate]
  rfl

/-! ### Directory entries -/

/-- `struct dirent`. -/
structure Dirent where
  inum : UInt16
  name : Vector UInt8 DIRSIZ
deriving DecidableEq

/-- `sizeof(struct dirent)`. -/
def sizeofDirent : Nat := 2 + DIRSIZ

def Dirent.ofBytes (l : List UInt8) : Dirent where
  inum := UInt16.ofNat ((l.getD 0 0).toNat + 256 * (l.getD 1 0).toNat)
  name := Vector.ofFn fun i => l.getD (2 + i) 0

def Dirent.toBytes (de : Dirent) : List UInt8 :=
  UInt8.ofNat de.inum.toNat :: UInt8.ofNat (de.inum.toNat / 256) :: de.name.toList

@[simp] theorem Dirent.length_toBytes (de : Dirent) : de.toBytes.length = sizeofDirent := by
  simp only [toBytes, List.length_cons, Vector.length_toList, sizeofDirent]
  omega

theorem Dirent.ofBytes_toBytes (de : Dirent) : Dirent.ofBytes de.toBytes = de := by
  obtain ⟨inum, name⟩ := de
  have hlt : inum.toNat < 65536 := inum.toNat_lt
  simp only [toBytes, ofBytes, Dirent.mk.injEq]
  constructor
  · have hnum : (UInt8.ofNat inum.toNat).toNat + 256 * (UInt8.ofNat (inum.toNat / 256)).toNat = inum.toNat := by
      simp only [UInt8.toNat_ofNat']
      omega
    simp only [List.getD_cons_zero, List.getD_cons_succ, hnum, UInt16.ofNat_toNat]
  · ext i hi
    rw [Vector.getElem_ofFn]
    simp [Nat.add_comm 2, List.getD_eq_getElem?_getD, hi]

end LabSO.Kernel

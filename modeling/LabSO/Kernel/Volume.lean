import LabSO.Kernel.FsFormat
import LabSO.Lib.Ledger

/-! A file system seen as its free bit map, its inodes and its data blocks, without the bytes that hold them, and when
    these three agree with each other. -/

namespace LabSO.Kernel
open Ledger

def T_DIR : Int16 := 1

def T_FILE : Int16 := 2

def T_DEVICE : Int16 := 3

/-- The first data block. -/
def Superblock.dataStart (sb : Superblock) : Nat := sb.size.toNat - sb.nblocks.toNat

/-- The regions follow one another as in the disk layout of `fs.h`, and block numbers fit an `int`. -/
structure Superblock.Ordered (sb : Superblock) : Prop where
  log : 1 < sb.logstart.toNat
  nlog : 0 < sb.nlog.toNat
  inodes : sb.logstart.toNat + sb.nlog.toNat ≤ sb.inodestart.toNat
  bitmap : sb.inodestart.toNat + (sb.ninodes.toNat + IPB - 1) / IPB ≤ sb.bmapstart.toNat
  data : sb.bmapstart.toNat + (sb.size.toNat + BPB - 1) / BPB ≤ sb.dataStart
  size : sb.size.toNat < 2 ^ 31
  root : ROOTINO.toNat < sb.ninodes.toNat

/-- The data blocks. -/
def Superblock.dataBlocks (sb : Superblock) : Set BlockNo := {b | sb.dataStart ≤ b.toNat ∧ b.toNat < sb.size.toNat}

instance (sb : Superblock) (b : BlockNo) : Decidable (b ∈ sb.dataBlocks) :=
  inferInstanceAs (Decidable (_ ∧ _))

theorem Superblock.Ordered.lt_dataStart {sb : Superblock} (h : sb.Ordered) : 1 < sb.dataStart :=
  calc
    1 < sb.logstart.toNat := h.log
    _ ≤ sb.inodestart.toNat := (Nat.le_add_right ..).trans h.inodes
    _ ≤ sb.bmapstart.toNat := (Nat.le_add_right ..).trans h.bitmap
    _ ≤ sb.dataStart := (Nat.le_add_right ..).trans h.data

theorem Superblock.Ordered.ne_zero {sb : Superblock} {b : BlockNo} (h : sb.Ordered) (hb : b ∈ sb.dataBlocks) : b ≠ 0 := by
  rintro rfl
  exact absurd (h.lt_dataStart.trans_le hb.1) (Nat.not_lt_zero 1)

@[ext] structure Volume where
  /-- The blocks that the free bit map marks used. -/
  used : BlockNo → Bool
  dinode : UInt32 → Dinode
  data : BlockNo → Block

/-- What the blocks hold, up to the sizes that the superblock gives. -/
def volume (sb : Superblock) (bufs : BlockNo → Block) : Volume where
  used b := decide (b.toNat < sb.size.toNat) && (bufs (BBLOCK b sb)).bit (b.toNat % BPB)
  dinode n := if n.toNat < sb.ninodes.toNat then (bufs (IBLOCK n sb)).dinode (n.toNat % IPB) else .zero
  data b := if b ∈ sb.dataBlocks then bufs b else .zero

/-! ### References to blocks -/

/-- Where a block can be referenced: a direct or indirect address of an inode, or an entry of its indirect block. -/
inductive Place
  | addr (inum : UInt32) (k : Fin (NDIRECT + 1))
  | entry (inum : UInt32) (j : Fin NINDIRECT)
deriving DecidableEq

def Place.inum : Place → UInt32
  | addr n _ | entry n _ => n

/-- The place of the `k`th block of an inode's content. -/
def Place.content (n : UInt32) (k : Nat) (h : k < MAXFILE) : Place :=
  if hk : k < NDIRECT then .addr n ⟨k, Nat.lt_succ_of_lt hk⟩
  else .entry n ⟨k - NDIRECT, by unfold MAXFILE at h; omega⟩

/-- The place of the indirect block. -/
def Place.indirect (n : UInt32) : Place := .addr n (Fin.last NDIRECT)

theorem Place.content_of_lt {n : UInt32} {k : Nat} {h : k < MAXFILE} (hk : k < NDIRECT) :
    content n k h = .addr n ⟨k, Nat.lt_succ_of_lt hk⟩ :=
  dif_pos hk

theorem Place.content_of_ge {n : UInt32} {k : Nat} {h : k < MAXFILE} (hk : ¬k < NDIRECT) (hj : k - NDIRECT < NINDIRECT) :
    content n k h = .entry n ⟨k - NDIRECT, hj⟩ :=
  dif_neg hk

theorem Place.inum_content {n : UInt32} {k : Nat} {h : k < MAXFILE} : (content n k h).inum = n := by
  unfold content
  split <;> rfl

theorem Place.content_ne_indirect {n m : UInt32} {k : Nat} {h : k < MAXFILE} : content n k h ≠ indirect m := by
  unfold content indirect
  split
  · next hk =>
    intro heq
    rw [Place.addr.injEq, Fin.ext_iff] at heq
    exact hk.ne heq.2
  · nofun

theorem Place.content_inj {n m : UInt32} {k l : Nat} {hk : k < MAXFILE} {hl : l < MAXFILE}
    (h : content n k hk = content m l hl) : n = m ∧ k = l := by
  unfold content at h
  split at h <;> split at h
  · rwa [Place.addr.injEq, Fin.mk.injEq] at h
  · cases h
  · cases h
  · rw [Place.entry.injEq, Fin.mk.injEq] at h
    exact ⟨h.1, by omega⟩

namespace Volume

/-- What a place refers to; 0 where it refers to nothing. -/
def held (V : Volume) : Place → BlockNo
  | .addr n k => (V.dinode n).addrs[k]
  | .entry n j =>
    let a := (V.dinode n).addrs[NDIRECT]
    if a = 0 then 0 else (V.data a).word j

/-- The block that a place of an allocated inode refers to. -/
def own (V : Volume) (p : Place) : Option BlockNo :=
  if (V.dinode p.inum).type = 0 ∨ V.held p = 0 then none else some (V.held p)

/-- The `k`th block of an inode's content. -/
def block (V : Volume) (n : UInt32) (k : Nat) : BlockNo :=
  if h : k < MAXFILE then V.held (.content n k h) else 0

/-- The directory entry at offset `off`. -/
def dirent (V : Volume) (n : UInt32) (off : Nat) : Dirent :=
  .ofBytes ((V.data (V.block n (off / BSIZE))).read (off % BSIZE) sizeofDirent)

variable {sb : Superblock} {V V' : Volume} {n m : UInt32} {k : Nat} {a b : BlockNo} {p : Place}

theorem own_eq_some : V.own p = some b ↔ (V.dinode p.inum).type ≠ 0 ∧ V.held p = b ∧ b ≠ 0 := by
  unfold own
  split
  · next h =>
    refine ⟨nofun, ?_⟩
    rintro ⟨htype, rfl, hne⟩
    exact absurd h (not_or.mpr ⟨htype, hne⟩)
  · next h =>
    rw [not_or] at h
    rw [Option.some.injEq]
    constructor
    · rintro rfl
      exact ⟨h.1, rfl, h.2⟩
    · exact fun hb => hb.2.1

theorem own_eq_none : V.own p = none ↔ (V.dinode p.inum).type = 0 ∨ V.held p = 0 := by
  unfold own
  split
  · next h => simp [h]
  · next h => simp [h]

theorem own_congr (htype : (V'.dinode p.inum).type = (V.dinode p.inum).type)
    (hheld : (V.dinode p.inum).type ≠ 0 → V'.held p = V.held p) : V'.own p = V.own p := by
  by_cases h : (V.dinode p.inum).type = 0
  · rw [own_eq_none.mpr (Or.inl h), own_eq_none.mpr (Or.inl (htype.trans h))]
  · rw [own, own, htype, hheld h]

/-! ### Agreement -/

/-- The blocks of an inode up to its size exist, and the entries of a directory name inodes that exist. -/
structure Sound (V : Volume) (sb : Superblock) (n : UInt32) : Prop where
  noHole : ∀ k, k < MAXFILE → k * BSIZE < (V.dinode n).size.toNat → V.block n k ≠ 0
  dirent : (V.dinode n).type = T_DIR → ∀ off, sizeofDirent ∣ off → off / BSIZE < MAXFILE →
    off + sizeofDirent ≤ (V.dinode n).size.toNat → (V.dirent n off).inum.toNat < sb.ninodes.toNat

/-- Each data block is marked used if one place refers to it, and no two places refer to one block. -/
abbrev BlocksExact (V : Volume) (sb : Superblock) : Prop := Exact sb.dataBlocks V.own fun b => V.used b = true

structure Ok (V : Volume) (sb : Superblock) : Prop where
  exact : V.BlocksExact sb
  marked : ∀ b : BlockNo, b.toNat < sb.dataStart → V.used b = true
  sound : ∀ n, (V.dinode n).type ≠ 0 → V.Sound sb n

/-! ### Updates -/

def setUsed (V : Volume) (b : BlockNo) (x : Bool) : Volume := { V with used := Function.update V.used b x }

def setDinode (V : Volume) (n : UInt32) (d : Dinode) : Volume := { V with dinode := Function.update V.dinode n d }

def setData (V : Volume) (a : BlockNo) (B : Block) : Volume := { V with data := Function.update V.data a B }

@[simp] theorem used_setUsed_self (x : Bool) : (V.setUsed b x).used b = x := Function.update_self ..

theorem used_setUsed (x : Bool) : (V.setUsed b x).used a = if a = b then x else V.used a := by
  simp [setUsed, Function.update_apply]

@[simp] theorem dinode_setUsed (x : Bool) : (V.setUsed b x).dinode = V.dinode := rfl
@[simp] theorem data_setUsed (x : Bool) : (V.setUsed b x).data = V.data := rfl
@[simp] theorem used_setDinode (d : Dinode) : (V.setDinode n d).used = V.used := rfl
@[simp] theorem data_setDinode (d : Dinode) : (V.setDinode n d).data = V.data := rfl
@[simp] theorem dinode_setDinode (d : Dinode) : (V.setDinode n d).dinode n = d := Function.update_self ..
@[simp] theorem used_setData (B : Block) : (V.setData a B).used = V.used := rfl
@[simp] theorem dinode_setData (B : Block) : (V.setData a B).dinode = V.dinode := rfl
@[simp] theorem data_setData (B : Block) : (V.setData a B).data a = B := Function.update_self ..

theorem dinode_setDinode_of_ne (d : Dinode) (h : m ≠ n) : (V.setDinode n d).dinode m = V.dinode m :=
  Function.update_of_ne h ..

theorem data_setData_of_ne (B : Block) (h : b ≠ a) : (V.setData a B).data b = V.data b := Function.update_of_ne h ..

/-- What `balloc` does to a free block. -/
def alloc (V : Volume) (b : BlockNo) : Volume := (V.setUsed b true).setData b .zero

@[simp] theorem dinode_alloc : (V.alloc b).dinode = V.dinode := rfl

theorem setDinode_alloc_setDinode (d d' : Dinode) :
    ((V.setDinode n d).alloc b).setDinode n d' = (V.alloc b).setDinode n d' := by
  simp [alloc, setDinode, setUsed, setData]

theorem data_alloc (h : a ≠ b) : (V.alloc b).data a = V.data a := data_setData_of_ne _ h

theorem used_alloc : (V.alloc b).used a = (decide (a = b) || V.used a) := by
  show (V.setUsed b true).used a = _
  rw [used_setUsed]
  split <;> simp [*]

end Volume

end LabSO.Kernel

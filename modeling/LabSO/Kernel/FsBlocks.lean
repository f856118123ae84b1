import LabSO.Kernel.LogCrash
import LabSO.Kernel.VolumeOk
import LabSO.Lib.Program

/-! The block layer of `fs.c` over the log: `balloc`, `bfree` and `bzero`, and what they do to the volume.

    No other process runs meanwhile, so a process that has to sleep sleeps for good. -/

namespace LabSO.Kernel
open Program Writes

/-- How a run of file-system code can break off. -/
inductive Stop
  | panic (msg : String)
  | asleep
deriving DecidableEq

/-! ### Buffers and transactions -/

def bread (blockno : BlockNo) : Prog Store Stop Block := liftState fun s => (s.bufs blockno, s)

/-- `log_write` of a buffer in which the caller has left `data`. -/
def logWrite (blockno : BlockNo) (data : Block) : Prog Store Stop Unit := fun s =>
  let s := s.setBuf blockno data
  match s.log.logWrite blockno with
  | .error msg => (.error (.panic msg), s)
  | .ok (new, log) => (.ok (), { (if new then s.bpin blockno else s) with log })

def beginOp : Prog Store Stop Unit := fun s =>
  match s.log.beginOp with
  | none => (.error .asleep, s)
  | some log => (.ok (), { s with log })

def endOp : Prog Store Stop Unit := fun s =>
  match s.log.endOp with
  | .error msg => (.error (.panic msg), s)
  | .ok (true, log) =>
    let s := { s with log }.commit
    (.ok (), { s with log := { s.log with committing := false } })
  | .ok (false, log) => (.ok (), { s with log })

/-! ### Blocks -/

variable (sb : Superblock)

/-- Zero a block. -/
def bzero (bno : BlockNo) : Prog Store Stop Unit := logWrite bno .zero

/-- The inner loop of `balloc` over the bits of a block, from `bi` on: the first that is 0, if any. -/
def scanBits (bp : Block) (b bi : Nat) : Nat → Option Nat
  | 0 => none
  | left + 1 =>
    if b + bi < sb.size.toNat then
      if bp.bit bi then scanBits bp b (bi + 1) left else some bi
    else none

/-- The outer loop of `balloc`. -/
def ballocFrom (b : Nat) : Prog Store Stop BlockNo :=
  if b < sb.size.toNat then do
    let bp ← bread (BBLOCK (.ofNat b) sb)
    match scanBits sb bp b 0 BPB with
    | some bi => do
      logWrite (BBLOCK (.ofNat b) sb) (bp.setBit bi)
      bzero (.ofNat (b + bi))
      return .ofNat (b + bi)
    | none => ballocFrom (b + BPB)
  else return 0
termination_by sb.size.toNat - b
decreasing_by
  have : 0 < BPB := by decide
  omega

/-- Allocate a zeroed disk block; 0 if out of disk space. -/
def balloc : Prog Store Stop BlockNo := ballocFrom sb 0

/-- Free a disk block. -/
def bfree (b : BlockNo) : Prog Store Stop Unit := do
  let bp ← bread (BBLOCK b sb)
  let bi := b.toNat % BPB
  if bp.bit bi then logWrite (BBLOCK b sb) (bp.clearBit bi) else halt (.panic "freeing free block")

/-! ### Where the blocks are -/

variable {sb} {bufs bufs' : BlockNo → Block} {a b : BlockNo} {n : UInt32} {x : Bool} {d : Dinode} {B : Block}

theorem Superblock.Ordered.dataStart_lt (h : sb.Ordered) : sb.dataStart < 2 ^ 31 := by
  have := h.size
  unfold dataStart
  omega

theorem lt_div_ceil {n m k : Nat} (hk : 0 < k) (h : n < m) : n / k < (m + k - 1) / k := by
  have hmul : n / k * k + k ≤ m + k - 1 := by
    have := Nat.div_mul_le_self n k
    omega
  have hle : (n / k + 1) * k ≤ m + k - 1 := by rwa [Nat.add_mul, Nat.one_mul]
  exact (Nat.le_div_iff_mul_le hk).mpr hle

theorem toNat_ofNat_add {q : Nat} {start : BlockNo} (h : start.toNat + q < 2 ^ 31) :
    (UInt32.ofNat q + start).toNat = start.toNat + q := by
  rw [UInt32.toNat_add, UInt32.toNat_ofNat']
  omega

theorem toNat_BBLOCK (h : sb.Ordered) (hb : b.toNat < sb.size.toNat) :
    (BBLOCK b sb).toNat = sb.bmapstart.toNat + b.toNat / BPB ∧ (BBLOCK b sb).toNat < sb.dataStart := by
  have hlt : sb.bmapstart.toNat + b.toNat / BPB < sb.dataStart :=
    (Nat.add_lt_add_left (lt_div_ceil (by decide) hb) _).trans_le h.data
  have heq : (BBLOCK b sb).toNat = sb.bmapstart.toNat + b.toNat / BPB := toNat_ofNat_add (hlt.trans h.dataStart_lt)
  exact ⟨heq, heq ▸ hlt⟩

theorem toNat_IBLOCK (h : sb.Ordered) (hn : n.toNat < sb.ninodes.toNat) :
    (IBLOCK n sb).toNat = sb.inodestart.toNat + n.toNat / IPB ∧ (IBLOCK n sb).toNat < sb.bmapstart.toNat := by
  have hlt : sb.inodestart.toNat + n.toNat / IPB < sb.bmapstart.toNat :=
    (Nat.add_lt_add_left (lt_div_ceil (by decide) hn) _).trans_le h.bitmap
  have hstart : sb.bmapstart.toNat < 2 ^ 31 := ((Nat.le_add_right ..).trans h.data).trans_lt h.dataStart_lt
  have heq : (IBLOCK n sb).toNat = sb.inodestart.toNat + n.toNat / IPB := toNat_ofNat_add (hlt.trans hstart)
  exact ⟨heq, heq ▸ hlt⟩

theorem BBLOCK_notMem (h : sb.Ordered) (hb : b.toNat < sb.size.toNat) : BBLOCK b sb ∉ sb.dataBlocks :=
  fun hmem => (toNat_BBLOCK h hb).2.not_ge hmem.1

theorem IBLOCK_notMem (h : sb.Ordered) (hn : n.toNat < sb.ninodes.toNat) : IBLOCK n sb ∉ sb.dataBlocks := by
  intro hmem
  have hlt := (toNat_IBLOCK h hn).2
  have hle : sb.bmapstart.toNat ≤ sb.dataStart := (Nat.le_add_right ..).trans h.data
  exact (hlt.trans_le hle).not_ge hmem.1

theorem BBLOCK_ne_IBLOCK (h : sb.Ordered) (hb : b.toNat < sb.size.toNat) (hn : n.toNat < sb.ninodes.toNat) :
    BBLOCK b sb ≠ IBLOCK n sb := by
  intro heq
  have hb' := (toNat_BBLOCK h hb).1
  have hn' := (toNat_IBLOCK h hn).2
  rw [heq] at hb'
  exact absurd (hb'.trans_ge (Nat.le_add_right ..)) (Nat.not_le.mpr hn')

theorem eq_of_div_mod {i j k : Nat} (hdiv : i / k = j / k) (hmod : i % k = j % k) : i = j := by
  rw [← Nat.div_add_mod i k, ← Nat.div_add_mod j k, hdiv, hmod]

theorem BBLOCK_eq_iff {c : BlockNo} : BBLOCK b sb = BBLOCK c sb ↔ b.toNat / BPB = c.toNat / BPB := by
  have hb := b.toNat_lt
  have hc := c.toNat_lt
  have hstart := sb.bmapstart.toNat_lt
  unfold BBLOCK
  rw [← UInt32.toNat_inj, UInt32.toNat_add, UInt32.toNat_add, UInt32.toNat_ofNat', UInt32.toNat_ofNat']
  simp only [BPB, BSIZE]
  omega

/-- The bit of a block in the free bit map is written. -/
theorem volume_setUsed (h : sb.Ordered) (hb : b.toNat < sb.size.toNat)
    (hbit : ∀ bi, B.bit bi = if b.toNat % BPB = bi then x else (bufs (BBLOCK b sb)).bit bi) :
    volume sb (Function.update bufs (BBLOCK b sb) B) = (volume sb bufs).setUsed b x := by
  refine Volume.ext (funext fun c => ?_) (funext fun n => ?_) (funext fun a => ?_)
  · rw [Volume.used_setUsed]
    by_cases hc : c.toNat < sb.size.toNat
    · simp only [volume, hc, decide_true, Bool.true_and]
      by_cases hblock : BBLOCK c sb = BBLOCK b sb
      · have hdiv : c.toNat / BPB = b.toNat / BPB := BBLOCK_eq_iff.mp hblock
        rw [hblock, Function.update_self, hbit]
        by_cases hmod : b.toNat % BPB = c.toNat % BPB
        · rw [if_pos hmod, if_pos (UInt32.toNat_inj.mp (eq_of_div_mod hdiv hmod.symm))]
        · rw [if_neg hmod, if_neg fun (heq : c = b) => hmod (by rw [heq])]
      · rw [Function.update_of_ne hblock, if_neg fun (heq : c = b) => hblock (by rw [heq])]
    · rw [if_neg fun (heq : c = b) => hc (heq ▸ hb)]
      simp [volume, hc]
  · by_cases hn : n.toNat < sb.ninodes.toNat
    · simp only [volume, Volume.dinode_setUsed, Function.update_of_ne (BBLOCK_ne_IBLOCK h hb hn).symm]
    · simp [volume, hn]
  · by_cases ha : a ∈ sb.dataBlocks
    · have hne : a ≠ BBLOCK b sb := fun heq => BBLOCK_notMem h hb (heq ▸ ha)
      simp [volume, Function.update_of_ne hne]
    · simp [volume, ha]

/-- An inode is written. -/
theorem volume_setDinode (h : sb.Ordered) (hn : n.toNat < sb.ninodes.toNat) :
    volume sb (Function.update bufs (IBLOCK n sb) ((bufs (IBLOCK n sb)).setDinode (n.toNat % IPB) d)) =
      (volume sb bufs).setDinode n d := by
  refine Volume.ext (funext fun c => ?_) (funext fun m => ?_) (funext fun a => ?_)
  · by_cases hc : c.toNat < sb.size.toNat
    · simp only [volume, Volume.used_setDinode, Function.update_of_ne (BBLOCK_ne_IBLOCK h hc hn)]
    · simp [volume, hc]
  · by_cases hm : m.toNat < sb.ninodes.toNat
    · by_cases hmn : m = n
      · subst hmn
        have hmod : m.toNat % IPB < IPB := Nat.mod_lt _ (by decide)
        simp only [volume, hm, if_true, Function.update_self, Block.dinode_setDinode hmod, Volume.dinode_setDinode]
      · rw [Volume.dinode_setDinode_of_ne _ hmn]
        simp only [volume, hm, if_true]
        by_cases hblock : IBLOCK m sb = IBLOCK n sb
        · have hdiv : m.toNat / IPB = n.toNat / IPB := by
            have heq := congrArg UInt32.toNat hblock
            rw [(toNat_IBLOCK h hm).1, (toNat_IBLOCK h hn).1] at heq
            omega
          have hmod : n.toNat % IPB ≠ m.toNat % IPB := fun heq =>
            hmn (UInt32.toNat_inj.mp (eq_of_div_mod hdiv heq.symm))
          rw [hblock, Function.update_self, Block.dinode_setDinode_of_ne hmod]
        · rw [Function.update_of_ne hblock]
    · have hmn : m ≠ n := fun heq => hm (heq ▸ hn)
      rw [Volume.dinode_setDinode_of_ne _ hmn]
      simp [volume, hm]
  · by_cases ha : a ∈ sb.dataBlocks
    · have hne : a ≠ IBLOCK n sb := fun heq => IBLOCK_notMem h hn (heq ▸ ha)
      simp [volume, Function.update_of_ne hne]
    · simp [volume, ha]

/-- A data block is written. -/
theorem volume_setData (h : sb.Ordered) (ha : a ∈ sb.dataBlocks) :
    volume sb (Function.update bufs a B) = (volume sb bufs).setData a B := by
  refine Volume.ext (funext fun c => ?_) (funext fun m => ?_) (funext fun b => ?_)
  · by_cases hc : c.toNat < sb.size.toNat
    · have hne : BBLOCK c sb ≠ a := fun heq => BBLOCK_notMem h hc (heq ▸ ha)
      simp only [volume, Volume.used_setData, Function.update_of_ne hne]
    · simp [volume, hc]
  · by_cases hm : m.toNat < sb.ninodes.toNat
    · have hne : IBLOCK m sb ≠ a := fun heq => IBLOCK_notMem h hm (heq ▸ ha)
      simp only [volume, Volume.dinode_setData, Function.update_of_ne hne]
    · simp [volume, hm]
  · by_cases hb : b = a
    · subst hb
      simp [volume, ha]
    · rw [Volume.data_setData_of_ne _ hb]
      simp only [volume, Function.update_of_ne hb]

/-- What the log does with its own blocks does not show in the volume. -/
theorem volume_congr (h : sb.Ordered) (heq : ∀ b : BlockNo, sb.inodestart.toNat ≤ b.toNat → bufs' b = bufs b) :
    volume sb bufs' = volume sb bufs := by
  have hle : sb.inodestart.toNat ≤ sb.bmapstart.toNat := (Nat.le_add_right ..).trans h.bitmap
  refine Volume.ext (funext fun c => ?_) (funext fun m => ?_) (funext fun b => ?_)
  · by_cases hc : c.toNat < sb.size.toNat
    · have hblock := (toNat_BBLOCK h hc).1
      simp only [volume, heq _ (hblock.trans_ge (hle.trans (Nat.le_add_right ..)))]
    · simp [volume, hc]
  · by_cases hm : m.toNat < sb.ninodes.toNat
    · have hblock := (toNat_IBLOCK h hm).1
      simp only [volume, heq _ (hblock.trans_ge (Nat.le_add_right ..))]
    · simp [volume, hm]
  · by_cases hb : b ∈ sb.dataBlocks
    · have hstart : sb.inodestart.toNat ≤ sb.dataStart := hle.trans ((Nat.le_add_right ..).trans h.data)
      simp only [volume, heq _ (hstart.trans hb.1)]
    · simp [volume, hb]

end LabSO.Kernel

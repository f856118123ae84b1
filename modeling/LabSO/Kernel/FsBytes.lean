import LabSO.Kernel.FsContent
import LabSO.Kernel.VolumeArray

/-! What a file that has all its blocks reads as: `ilock`, `bmap` and `readi` of an inode whose blocks hold given bytes. -/

namespace LabSO.Kernel
open Program

variable {sb : Superblock} {s : Fs} {i : Fin NINODE} {V : Volume} {n : UInt32} {bytes : List UInt8}

theorem readiFrom_returns {off left : Nat} (hwithin : (s.cur sb i).Within sb (s.itable i).inum)
    (h : (s.cur sb i).Reads (s.itable i).inum bytes) (hle : off + left ≤ bytes.length) :
    Program.Returns (readiFrom sb i off left) s ((bytes.drop off).take left) s := by
  induction left using Nat.strong_induction_on generalizing off with
  | _ left ih =>
    rw [readiFrom]
    by_cases h0 : left = 0
    · rw [if_pos h0, h0, List.take_zero]
      exact .pure
    rw [if_neg h0]
    have hne := (h off (by omega)).1
    have hmem := hwithin.mem_of_block hne
    have hdata : (s.cur sb i).data ((s.cur sb i).block (s.itable i).inum (off / BSIZE)) =
        s.store.bufs ((s.cur sb i).block (s.itable i).inum (off / BSIZE)) := vol_data hmem
    have hmod : off % BSIZE < BSIZE := Nat.mod_lt _ (by decide)
    let m := min left (BSIZE - off % BSIZE)
    have hread := h.read off m (by omega) (by omega)
    rw [hdata] at hread
    refine (bmap_returns hwithin hne).bind ?_
    rw [if_neg hne]
    refine bread_returns.bind ?_
    have hrest : off + m + (left - m) ≤ bytes.length := by omega
    refine (ih (left - m) (by omega) hrest).bind ?_
    show Program.Returns (pure (Block.read _ (off % BSIZE) m ++ _)) _ _ _
    rw [hread, ← List.drop_drop, ← List.take_add, Nat.add_sub_cancel' (Nat.min_le_left ..)]
    exact .pure

/-- The bytes of a range of the content, as far as it goes. -/
theorem readi_returns {off len : UInt32} (hwithin : (s.cur sb i).Within sb (s.itable i).inum)
    (h : (s.cur sb i).Reads (s.itable i).inum bytes) (hsize : (s.itable i).size.toNat = bytes.length)
    (hoff : off.toNat ≤ bytes.length) (hsum : off.toNat + len.toNat < 2 ^ 32) :
    Program.Returns (readi sb i off len) s ((bytes.drop off.toNat).take len.toNat) s := by
  have hadd : (off + len).toNat = off.toNat + len.toNat := by
    rw [UInt32.toNat_add]
    exact Nat.mod_eq_of_lt hsum
  have hbounds : ¬(off > (s.itable i).size ∨ off + len < off) := by
    rw [gt_iff_lt, UInt32.lt_iff_toNat_lt, UInt32.lt_iff_toNat_lt, hadd]
    omega
  have hle : off ≤ (s.itable i).size := by
    rw [UInt32.le_iff_toNat_le]
    omega
  refine inode_returns.bind ?_
  rw [if_neg hbounds]
  split
  · next hpast =>
    rw [gt_iff_lt, UInt32.lt_iff_toNat_lt, hadd] at hpast
    have hleft := UInt32.toNat_sub_of_le _ _ hle
    have hall : (bytes.drop off.toNat).take len.toNat = (bytes.drop off.toNat).take ((s.itable i).size - off).toNat := by
      rw [List.take_of_length_le (by rw [List.length_drop]; omega),
        List.take_of_length_le (by rw [List.length_drop]; omega)]
    rw [hall]
    exact readiFrom_returns hwithin h (by omega)
  · next hwhole =>
    rw [gt_iff_lt, UInt32.lt_iff_toNat_lt, hadd] at hwhole
    exact readiFrom_returns hwithin h (by omega)

/-- The inode of an entry is read from the disk when it is locked for the first time. -/
def Fs.lockedInode (s : Fs) (sb : Superblock) (i : Fin NINODE) : Fs :=
  s.setInode i { s.itable i with
    locked := true, toDinode := (s.vol sb).dinode (s.itable i).inum, valid := true }

theorem ilock_returns (href : 0 < (s.itable i).ref) (hlocked : (s.itable i).locked = false)
    (hvalid : (s.itable i).valid = false) (hn : (s.itable i).inum.toNat < sb.ninodes.toNat)
    (htype : ((s.vol sb).dinode (s.itable i).inum).type ≠ 0) :
    Program.Returns (ilock sb i) s () (s.lockedInode sb i) := by
  let s' := s.setInode i { s.itable i with locked := true }
  have hself : s'.itable i = { s.itable i with locked := true } := Fs.itable_setInode_self ..
  have hlock : Program.Returns (acquiresleep i) s () s' := by
    refine inode_returns.bind ?_
    rw [hlocked, if_neg Bool.false_ne_true]
    rfl
  have hdinode := vol_dinode (s := s) hn
  have hnot : ¬(s.itable i).ref < 1 := by omega
  refine inode_returns.bind ?_
  rw [if_neg hnot]
  refine hlock.bind (inode_returns.bind ?_)
  rw [hself]
  refine .onlyIf hvalid ?_
  refine bread_returns.bind ?_
  have hmodify : Program.Returns (modifyInode i fun ip => { ip with
      toDinode := (s.store.bufs (IBLOCK (s.itable i).inum sb)).dinode (ip.inum.toNat % IPB), valid := true }) s' ()
      (s.lockedInode sb i) := by
    have heq : s.lockedInode sb i = s'.setInode i { s.itable i with
        locked := true, toDinode := (s.vol sb).dinode (s.itable i).inum, valid := true } :=
      (Fs.setInode_setInode ..).symm
    rw [heq, hdinode]
    show Program.Returns (liftState _) _ _ _
    simp only [Program.Returns, liftState, hself]
  refine hmodify.bind (inode_returns.bind (.onlyIf_not ?_))
  rw [Fs.lockedInode, Fs.itable_setInode_self]
  exact htype

end LabSO.Kernel

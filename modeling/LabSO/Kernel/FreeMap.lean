import LabSO.Kernel.FsAlloc
import Mathlib.Data.Set.Insert

/-! The free bit map as the set of the blocks in use: `balloc` adds the least that is missing, `bfree` takes one out.

    Nothing is assumed of the superblock's other regions, and the size need not be a multiple of anything. -/

namespace LabSO.Kernel
open Program

/-- The blocks of the free bit map: those with the bit of some block below the size. -/
def Superblock.bitmap (sb : Superblock) : Set BlockNo := {m | ∃ c : BlockNo, c.toNat < sb.size.toNat ∧ BBLOCK c sb = m}

/-- The block numbers with a bit in the free bit map; its last block may have more of them than the file system has blocks. -/
def Superblock.mapped (sb : Superblock) : Set BlockNo := {b | BBLOCK b sb ∈ sb.bitmap}

/-- The block numbers whose bit is set. -/
def usedBlocks (sb : Superblock) (bufs : BlockNo → Block) : Set BlockNo :=
  {b | (bufs (BBLOCK b sb)).bit (b.toNat % BPB) = true}

variable {sb : Superblock} {s t : Store} {bufs : BlockNo → Block} {a b c : BlockNo} {bp B data : Block} {k l : Nat} {e : Stop}

theorem mapped_of_lt (h : b.toNat < sb.size.toNat) : b ∈ sb.mapped := ⟨b, h, rfl⟩

/-- Only the bit of `b` is written. -/
theorem mem_usedBlocks_update {x : Bool}
    (hbit : ∀ bi, B.bit bi = if b.toNat % BPB = bi then x else (bufs (BBLOCK b sb)).bit bi) :
    c ∈ usedBlocks sb (Function.update bufs (BBLOCK b sb) B) ↔ if c = b then x = true else c ∈ usedBlocks sb bufs := by
  simp only [usedBlocks, Set.mem_ofPred_eq]
  by_cases hblock : BBLOCK c sb = BBLOCK b sb
  · rw [hblock, Function.update_self, hbit]
    by_cases hmod : b.toNat % BPB = c.toNat % BPB
    · have heq : c = b := UInt32.toNat_inj.mp (eq_of_div_mod (BBLOCK_eq_iff.mp hblock) hmod.symm)
      rw [if_pos hmod, if_pos heq]
    · have hne : c ≠ b := fun heq => hmod (by rw [heq])
      rw [if_neg hmod, if_neg hne]
  · have hne : c ≠ b := fun heq => hblock (by rw [heq])
    rw [Function.update_of_ne hblock, if_neg hne]

theorem usedBlocks_setBit : usedBlocks sb (Function.update bufs (BBLOCK b sb) ((bufs (BBLOCK b sb)).setBit (b.toNat % BPB))) =
    insert b (usedBlocks sb bufs) := by
  have hmod : b.toNat % BPB < BPB := Nat.mod_lt _ (by decide)
  ext c
  rw [mem_usedBlocks_update (x := true)]
  · by_cases heq : c = b <;> simp [heq]
  · intro bi
    rw [Block.bit_setBit hmod]
    split
    · next heq => simp [heq]
    · next hne => simp [hne]

theorem usedBlocks_clearBit :
    usedBlocks sb (Function.update bufs (BBLOCK b sb) ((bufs (BBLOCK b sb)).clearBit (b.toNat % BPB))) =
      usedBlocks sb bufs \ {b} := by
  have hmod : b.toNat % BPB < BPB := Nat.mod_lt _ (by decide)
  ext c
  rw [mem_usedBlocks_update (x := false)]
  · by_cases heq : c = b <;> simp [heq]
  · intro bi
    rw [Block.bit_clearBit hmod]
    split
    · next heq => simp [heq]
    · next hne => simp [hne]

/-- A block that is not one of the bit map's does not show in the set. -/
theorem usedBlocks_update (ha : a ∉ sb.bitmap) :
    usedBlocks sb (Function.update bufs a B) ∩ sb.mapped = usedBlocks sb bufs ∩ sb.mapped := by
  ext c
  simp only [Set.mem_inter_iff, usedBlocks, Set.mem_ofPred_eq, and_congr_left_iff]
  intro hc
  have hne : BBLOCK c sb ≠ a := fun heq => ha (heq ▸ hc)
  rw [Function.update_of_ne hne]

/-! ### `log_write` -/

/-- `log_write` refuses one of `k` blocks: the log has no room for them, or no operation is outstanding. -/
def Refused (k : Nat) (s : Store) (e : Stop) : Prop :=
  e = .panic "too big a transaction" ∧ ¬s.log.HasRoom k ∨ e = .panic "log_write outside of trans" ∧ s.log.outstanding < 1

theorem Refused.mono (h : Refused k s e) (hle : k ≤ l) : Refused l s e := by
  rcases h with ⟨he, hroom⟩ | hout
  · exact .inl ⟨he, fun h => hroom (h.mono hle)⟩
  · exact .inr hout

theorem Refused.of_logging (h : Refused k (s.logging b B) e) : Refused (k + 1) s e := by
  rcases h with ⟨he, hroom⟩ | ⟨he, hout⟩
  · exact .inl ⟨he, fun h => hroom (h.logging b B)⟩
  · rw [s.log_logging b B] at hout
    exact .inr ⟨he, hout⟩

theorem logWrite_outcome : Outcome (logWrite b data) (fun _ t => t = s.logging b data) (fun e _ => Refused 1 s e) s := by
  rcases hlog : s.log.logWrite b with msg | ⟨new, log⟩
  · have hhalt : Halts (logWrite b data) s (.panic msg) (s.setBuf b data) := by
      simp only [Halts, logWrite, Store.setBuf, hlog]
    refine .of_halts hhalt ?_
    rcases Log.logWrite_eq_error hlog with ⟨rfl, hbig⟩ | ⟨rfl, hout⟩
    · exact .inl ⟨rfl, fun h => h.notTooBig hbig⟩
    · exact .inr ⟨rfl, hout⟩
  · exact .of_returns (logWrite_of_ok hlog) rfl

/-! ### `balloc` -/

theorem scanBits_least {b bi left i : Nat} (h : scanBits sb bp b bi left = some i) :
    ∀ j, bi ≤ j → j < i → bp.bit j = true := by
  induction left generalizing bi with
  | zero => cases h
  | succ left ih =>
    rw [scanBits] at h
    split at h
    · split at h
      · next hbit =>
        intro j hj hji
        rcases Nat.eq_or_lt_of_le hj with rfl | hlt
        · exact hbit
        · exact ih h j hlt hji
      · cases h
        intro j hj hji
        omega
    · cases h

theorem scanBits_none {b bi left : Nat} (h : scanBits sb bp b bi left = none) :
    ∀ j, bi ≤ j → j < bi + left → b + j < sb.size.toNat → bp.bit j = true := by
  induction left generalizing bi with
  | zero =>
    intro j hj hlt
    omega
  | succ left ih =>
    intro j hj hlt hsize
    rw [scanBits] at h
    split at h
    · split at h
      · next hbit =>
        rcases Nat.eq_or_lt_of_le hj with rfl | hlt'
        · exact hbit
        · exact ih h j hlt' (by omega) hsize
      · cases h
    · omega

theorem mem_usedBlocks {b i : Nat} (hb : BPB ∣ b) (hlt : b < 2 ^ 31) (hi : i < BPB) (hc : c.toNat = b + i) :
    c ∈ usedBlocks sb bufs ↔ (bufs (BBLOCK (.ofNat b) sb)).bit i = true := by
  obtain ⟨hblock, hmod⟩ := BBLOCK_of_scan sb hb hlt hi hc
  rw [hblock, usedBlocks, Set.mem_ofPred_eq, hmod]

/-- `a` was the least block that was free, and is now in use and zeroed; no other block has changed, but for `a`'s bit. -/
structure Allocated (sb : Superblock) (s : Store) (a : BlockNo) (t : Store) : Prop where
  below : a.toNat < sb.size.toNat
  free : a ∉ usedBlocks sb s.bufs
  least : ∀ c : BlockNo, c.toNat < a.toNat → c ∈ usedBlocks sb s.bufs
  used : usedBlocks sb t.bufs ∩ sb.mapped = insert a (usedBlocks sb s.bufs ∩ sb.mapped)
  zeroed : t.bufs a = .zero
  others : ∀ c, c ≠ a → c ≠ BBLOCK a sb → t.bufs c = s.bufs c

/-- Block 0 and the blocks of the free bit map are marked used. -/
def MapMarked (sb : Superblock) (s : Store) : Prop :=
  ∀ b : BlockNo, b.toNat < sb.size.toNat → b = 0 ∨ b ∈ sb.bitmap → b ∈ usedBlocks sb s.bufs

/-- After `balloc` of `a`, where the log has room. -/
def Store.allocating (s : Store) (sb : Superblock) (a : BlockNo) : Store :=
  (s.logging (BBLOCK a sb) ((s.bufs (BBLOCK a sb)).setBit (a.toNat % BPB))).logging a .zero

theorem MapMarked.allocated (hmarked : MapMarked sb s) (hbelow : a.toNat < sb.size.toNat) (hfree : a ∉ usedBlocks sb s.bufs)
    (hleast : ∀ c : BlockNo, c.toNat < a.toNat → c ∈ usedBlocks sb s.bufs) : Allocated sb s a (s.allocating sb a) := by
  have hnot : a ∉ sb.bitmap := fun hmem => hfree (hmarked a hbelow (.inr hmem))
  refine ⟨hbelow, hfree, hleast, ?_, ?_, fun c hca hcb => ?_⟩
  · rw [Store.allocating, Store.bufs_logging, usedBlocks_update hnot, Store.bufs_logging, usedBlocks_setBit]
    exact Set.insert_inter_of_mem (mapped_of_lt hbelow)
  · rw [Store.allocating, Store.bufs_logging, Function.update_self]
  · rw [Store.allocating, Store.bufs_logging, Function.update_of_ne hca, Store.bufs_logging, Function.update_of_ne hcb]

theorem ballocFrom_full (hsize : sb.size.toNat < 2 ^ 31) {b : Nat} (hb : BPB ∣ b)
    (hfull : ∀ c : BlockNo, c.toNat < sb.size.toNat → c ∈ usedBlocks sb s.bufs) : Program.Returns (ballocFrom sb b) s 0 s := by
  induction b using ballocFrom.induct sb with
  | case1 b hlt ih =>
    rw [ballocFrom, if_pos hlt]
    have hnone : scanBits sb (s.bufs (BBLOCK (.ofNat b) sb)) b 0 BPB = none := by
      rcases hscan : scanBits sb (s.bufs (BBLOCK (.ofNat b) sb)) b 0 BPB with _ | i
      · rfl
      obtain ⟨hi, hbits, hbit⟩ := scanBits_some hscan
      have hc : (UInt32.ofNat (b + i)).toNat = b + i := toNat_ofNat_block hsize hi
      have hmem := hfull (.ofNat (b + i)) (hc.trans_lt hi)
      rw [mem_usedBlocks hb (by omega) (by omega) hc, hbit] at hmem
      cases hmem
    refine Program.Returns.bind (t := s) rfl ?_
    rw [hnone]
    exact ih (Nat.dvd_add hb (Nat.dvd_refl BPB))
  | case2 b hge =>
    rw [ballocFrom, if_neg hge]
    exact .pure

/-- The invariant of the outer loop: all blocks below `b` are in use. -/
theorem ballocFrom_outcome (hsize : sb.size.toNat < 2 ^ 31) {b : Nat} (hb : BPB ∣ b)
    (hbelow : ∀ c : BlockNo, c.toNat < b → c.toNat < sb.size.toNat → c ∈ usedBlocks sb s.bufs)
    (hfree : ∃ c : BlockNo, c.toNat < sb.size.toNat ∧ c ∉ usedBlocks sb s.bufs) :
    Outcome (ballocFrom sb b) (fun a t => a.toNat < sb.size.toNat ∧ a ∉ usedBlocks sb s.bufs ∧
      (∀ c : BlockNo, c.toNat < a.toNat → c ∈ usedBlocks sb s.bufs) ∧ t = s.allocating sb a) (fun e _ => Refused 2 s e) s := by
  induction b using ballocFrom.induct sb with
  | case1 b hlt ih =>
    rw [ballocFrom, if_pos hlt]
    refine .bind_returns (a := s.bufs (BBLOCK (.ofNat b) sb)) (t := s) rfl ?_
    rcases hscan : scanBits sb (s.bufs (BBLOCK (.ofNat b) sb)) b 0 BPB with _ | i
    · refine ih (Nat.dvd_add hb (Nat.dvd_refl BPB)) fun c hc hcs => ?_
      by_cases hcb : c.toNat < b
      · exact hbelow c hcb hcs
      · have hi : c.toNat = b + (c.toNat - b) := by omega
        rw [mem_usedBlocks hb (by omega) (by omega) hi]
        exact scanBits_none hscan _ (Nat.zero_le _) (by omega) (by omega)
    · obtain ⟨hi, hbits, hbit⟩ := scanBits_some hscan
      rw [Nat.zero_add] at hbits
      let a := UInt32.ofNat (b + i)
      have ha : a.toNat = b + i := toNat_ofNat_block hsize hi
      have hnot : a ∉ usedBlocks sb s.bufs := by
        rw [mem_usedBlocks hb (by omega) hbits ha, hbit]
        exact Bool.false_ne_true
      have hleast : ∀ c : BlockNo, c.toNat < a.toNat → c ∈ usedBlocks sb s.bufs := by
        intro c hc
        by_cases hcb : c.toNat < b
        · exact hbelow c hcb (by omega)
        · have hj : c.toNat = b + (c.toNat - b) := by omega
          rw [mem_usedBlocks hb (by omega) (by omega) hj]
          exact scanBits_least hscan _ (Nat.zero_le _) (by omega)
      have hblock : BBLOCK (.ofNat b) sb = BBLOCK a sb ∧ a.toNat % BPB = i := BBLOCK_of_scan sb hb (by omega) hbits ha
      rw [hblock.1]
      refine .bind (logWrite_outcome.weaken fun e _ he => he.mono (by decide)) ?_
      rintro - t rfl
      refine .bind (logWrite_outcome.weaken fun e _ he => he.of_logging) ?_
      rintro - t rfl
      refine .pure ⟨ha.trans_lt hi, hnot, hleast, ?_⟩
      rw [Store.allocating, hblock.2]
  | case2 b hge =>
    obtain ⟨c, hc, hcfree⟩ := hfree
    exact absurd (hbelow c (by omega) hc) hcfree

/-! ### `bfree` -/

theorem bfree_free (hfree : b ∉ usedBlocks sb s.bufs) : Halts (bfree sb b) s (.panic "freeing free block") s := by
  have hbit : ¬(s.bufs (BBLOCK b sb)).bit (b.toNat % BPB) = true := hfree
  refine Program.Returns.bind_halts (t := s) rfl ?_
  rw [if_neg hbit]
  exact .halt

theorem bfree_outcome (hused : b ∈ usedBlocks sb s.bufs) :
    Outcome (bfree sb b) (fun _ t => usedBlocks sb t.bufs = usedBlocks sb s.bufs \ {b} ∧
      ∀ c, c ≠ BBLOCK b sb → t.bufs c = s.bufs c) (fun e _ => Refused 1 s e) s := by
  have hbit : (s.bufs (BBLOCK b sb)).bit (b.toNat % BPB) = true := hused
  refine .bind_returns (a := s.bufs (BBLOCK b sb)) (t := s) rfl ?_
  rw [if_pos hbit]
  refine logWrite_outcome.mono ?_
  rintro - t rfl
  rw [Store.bufs_logging]
  exact ⟨usedBlocks_clearBit, fun c hc => Function.update_of_ne hc _ _⟩

/-- What is added and taken out again was missing. -/
theorem Allocated.restored {u : Store} (h : Allocated sb s a t) (hfreed : usedBlocks sb u.bufs = usedBlocks sb t.bufs \ {a}) :
    usedBlocks sb u.bufs ∩ sb.mapped = usedBlocks sb s.bufs ∩ sb.mapped := by
  have hnot : a ∉ usedBlocks sb s.bufs ∩ sb.mapped := fun hmem => h.free hmem.1
  rw [hfreed, ← Set.inter_sdiff_right_comm, h.used, Set.insert_sdiff_self_of_notMem hnot]

theorem Allocated.mem (h : Allocated sb s a t) : a ∈ usedBlocks sb t.bufs := by
  have hmem : a ∈ usedBlocks sb t.bufs ∩ sb.mapped := by
    rw [h.used]
    exact Set.mem_insert ..
  exact hmem.1

/-! ### The set -/

theorem balloc_outcome (hsize : sb.size.toNat < 2 ^ 31) (hmarked : MapMarked sb s)
    (hfree : ∃ c : BlockNo, c.toNat < sb.size.toNat ∧ c ∉ usedBlocks sb s.bufs) :
    Outcome (balloc sb) (fun a t => a ≠ 0 ∧ Allocated sb s a t ∧ t = s.allocating sb a) (fun e _ => Refused 2 s e) s := by
  refine (ballocFrom_outcome hsize (Nat.dvd_zero BPB) (fun c hc => absurd hc (Nat.not_lt_zero _)) hfree).mono ?_
  rintro a t ⟨hbelow, hnot, hleast, rfl⟩
  exact ⟨fun heq => hnot (hmarked a hbelow (.inl heq)), hmarked.allocated hbelow hnot hleast, rfl⟩

/-- `balloc` adds the least block that is missing, and zeroes it, or finds that none is; `bfree` takes out a block that is
    there; and one after the other they leave the set as it was. Only `log_write` may refuse. -/
theorem freeMap_exact (hsize : sb.size.toNat < 2 ^ 31) (hmarked : MapMarked sb s) :
    ((∀ b : BlockNo, b.toNat < sb.size.toNat → b ∈ usedBlocks sb s.bufs) → Program.Returns (balloc sb) s 0 s) ∧
    ((∃ b : BlockNo, b.toNat < sb.size.toNat ∧ b ∉ usedBlocks sb s.bufs) →
      Outcome (balloc sb) (fun a t => a ≠ 0 ∧ Allocated sb s a t) (fun e _ => Refused 2 s e) s) ∧
    (∀ b : BlockNo, b ∉ usedBlocks sb s.bufs → Halts (bfree sb b) s (.panic "freeing free block") s) ∧
    (∀ b : BlockNo, b ∈ usedBlocks sb s.bufs →
      Outcome (bfree sb b) (fun _ t => usedBlocks sb t.bufs = usedBlocks sb s.bufs \ {b} ∧
        ∀ c, c ≠ BBLOCK b sb → t.bufs c = s.bufs c) (fun e _ => Refused 1 s e) s) ∧
    Outcome (do let a ← balloc sb; onlyIf (a ≠ 0) (bfree sb a))
      (fun _ t => usedBlocks sb t.bufs ∩ sb.mapped = usedBlocks sb s.bufs ∩ sb.mapped) (fun e _ => Refused 3 s e) s := by
  refine ⟨ballocFrom_full hsize (Nat.dvd_zero BPB), fun hfree => (balloc_outcome hsize hmarked hfree).mono ?_,
    fun b => bfree_free, fun b => bfree_outcome, ?_⟩
  · rintro a t ⟨hne, halloc, -⟩
    exact ⟨hne, halloc⟩
  by_cases hfull : ∀ b : BlockNo, b.toNat < sb.size.toNat → b ∈ usedBlocks sb s.bufs
  · refine .bind_returns (ballocFrom_full hsize (Nat.dvd_zero BPB) hfull) ?_
    exact .of_returns (.onlyIf_not (not_not.mpr rfl)) rfl
  · push Not at hfull
    refine .bind ((balloc_outcome hsize hmarked hfull).weaken fun e _ he => he.mono (by decide)) ?_
    rintro a t ⟨hne, halloc, rfl⟩
    rw [onlyIf, if_pos hne]
    refine ((bfree_outcome halloc.mem).mono fun _ u hu => halloc.restored hu.1).weaken fun e _ he => ?_
    exact he.of_logging.of_logging

/-- A file system of four blocks, of which the first two are in use, within an operation. -/
def fourBlocks : Superblock where
  magic := FSMAGIC
  size := 4
  nblocks := 2
  ninodes := 0
  nlog := 0
  logstart := 0
  inodestart := 0
  bmapstart := 1

def twoUsed : Store where
  disk _ := .zero
  bufs _ := (Block.zero.setBit 0).setBit 1
  pins _ := 0
  log := { start := 0, size := 30, outstanding := 1, committing := false, lh := [] }
  writes := []

theorem mem_twoUsed (hb : b.toNat < 2) : b ∈ usedBlocks fourBlocks twoUsed.bufs := by
  have hmod : b.toNat % BPB = b.toNat := Nat.mod_eq_of_lt (hb.trans (by decide))
  rw [usedBlocks, Set.mem_ofPred_eq, hmod, twoUsed, Block.bit_setBit (by decide), Block.bit_setBit (by decide)]
  have hcase : 1 = b.toNat ∨ 0 = b.toNat := by omega
  rcases hcase with h | h <;> simp [← h]

theorem mapMarked_twoUsed : MapMarked fourBlocks twoUsed := by
  rintro b - (rfl | ⟨c, hc, rfl⟩)
  · exact mem_twoUsed (by decide)
  · refine mem_twoUsed ?_
    have hzero : c.toNat / BPB = 0 := Nat.div_eq_of_lt (hc.trans (by decide))
    rw [BBLOCK, hzero]
    decide

theorem freeMap_exact_twoUsed : ∃ a t, Program.Returns (balloc fourBlocks) twoUsed a t ∧ a ≠ 0 ∧ Allocated fourBlocks twoUsed a t := by
  have hfree : (2 : BlockNo) ∉ usedBlocks fourBlocks twoUsed.bufs := by
    have hmod : (2 : BlockNo).toNat % BPB = 2 := by decide
    rw [usedBlocks, Set.mem_ofPred_eq, hmod, twoUsed, Block.bit_setBit (by decide), Block.bit_setBit (by decide)]
    decide +kernel
  have hballoc := (freeMap_exact (by decide) mapMarked_twoUsed).2.1 ⟨2, by decide, hfree⟩
  refine hballoc.returns fun e => ?_
  rintro (⟨-, hroom⟩ | ⟨-, hout⟩)
  · exact hroom (by decide)
  · exact absurd hout (by decide)

end LabSO.Kernel

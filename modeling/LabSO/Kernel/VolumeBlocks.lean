import LabSO.Kernel.FsMap

/-! The blocks that hold a given volume, and the smallest file system: one inode, which has one block. -/

namespace LabSO.Kernel

variable {sb : Superblock} {V : Volume} {n : UInt32} {b : BlockNo} {B : Block}

/-! ### Metadata blocks -/

/-- A block of the free bit map in which the bits are set that `f` says. -/
def Block.ofBits (f : Nat → Bool) : List Nat → Block
  | [] => .zero
  | bi :: rest => if f bi then (ofBits f rest).setBit bi else ofBits f rest

/-- A block of inodes. -/
def Block.ofDinodes (f : Nat → Dinode) : List Nat → Block
  | [] => .zero
  | i :: rest => (ofDinodes f rest).setDinode i (f i)

theorem Block.bit_zero (bi : Nat) : Block.zero.bit bi = false := by
  have hbyte : Block.zero.byte (bi / 8) = 0 := by
    unfold byte zero
    rw [Vector.getElem?_replicate]
    split <;> rfl
  rw [bit, hbyte, and_bitMask]
  simp

theorem Block.bit_ofBits {f : Nat → Bool} {l : List Nat} {bi : Nat} (h : ∀ bj ∈ l, bj < BPB) :
    (ofBits f l).bit bi = (decide (bi ∈ l) && f bi) := by
  induction l with
  | nil => simp [ofBits, bit_zero]
  | cons bj rest ih =>
    have ih := ih fun k hk => h k (List.mem_cons_of_mem _ hk)
    have hbj := h bj List.mem_cons_self
    by_cases heq : bj = bi
    · subst heq
      rw [ofBits]
      split
      · next hf => simp [bit_setBit hbj, hf]
      · next hf => simp [ih, hf]
    · have hne : ¬bi = bj := fun h => heq h.symm
      rw [ofBits]
      split
      · simp [bit_setBit hbj, ih, heq, hne]
      · simp [ih, hne]

theorem Block.dinode_ofDinodes {f : Nat → Dinode} {l : List Nat} {i : Nat} (h : ∀ j ∈ l, j < IPB) (hi : i ∈ l) :
    (ofDinodes f l).dinode i = f i := by
  induction l with
  | nil => nomatch hi
  | cons j rest ih =>
    rw [ofDinodes]
    by_cases heq : j = i
    · subst heq
      exact dinode_setDinode (h j List.mem_cons_self)
    · rw [dinode_setDinode_of_ne heq]
      refine ih (fun k hk => h k (List.mem_cons_of_mem _ hk)) ?_
      exact (List.mem_cons.mp hi).resolve_left fun h => heq h.symm

/-! ### A volume -/

/-- The volume has nothing past the sizes that the superblock gives. -/
structure Volume.Bounded (V : Volume) (sb : Superblock) : Prop where
  used : ∀ b, sb.size.toNat ≤ b.toNat → V.used b = false
  dinode : ∀ n, sb.ninodes.toNat ≤ n.toNat → V.dinode n = .zero
  data : ∀ b, b ∉ sb.dataBlocks → V.data b = .zero

/-- The blocks that hold a volume. -/
def Volume.blocks (V : Volume) (sb : Superblock) (c : BlockNo) : Block :=
  if c ∈ sb.dataBlocks then V.data c
  else if sb.bmapstart.toNat ≤ c.toNat then
    .ofBits (fun bi => V.used (.ofNat ((c.toNat - sb.bmapstart.toNat) * BPB + bi))) (List.range BPB)
  else .ofDinodes (fun i => V.dinode (.ofNat ((c.toNat - sb.inodestart.toNat) * IPB + i))) (List.range IPB)

theorem volume_blocks (hsb : sb.Ordered) (h : V.Bounded sb) : volume sb (V.blocks sb) = V := by
  refine Volume.ext (funext fun b => ?_) (funext fun n => ?_) (funext fun b => ?_)
  · by_cases hb : b.toNat < sb.size.toNat
    · have hblock := (toNat_BBLOCK hsb hb).1
      have hmod : b.toNat % BPB < BPB := Nat.mod_lt _ (by decide)
      have hnum : (BBLOCK b sb).toNat - sb.bmapstart.toNat = b.toNat / BPB := by rw [hblock, Nat.add_sub_cancel_left]
      simp only [volume, hb, decide_true, Bool.true_and]
      rw [Volume.blocks, if_neg (BBLOCK_notMem hsb hb), if_pos (hblock ▸ Nat.le_add_right ..), Block.bit_ofBits fun j hj => List.mem_range.mp hj,
        hnum, Nat.div_add_mod', UInt32.ofNat_toNat]
      simp [hmod]
    · rw [h.used b (by omega)]
      simp [volume, hb]
  · by_cases hn : n.toNat < sb.ninodes.toNat
    · obtain ⟨hblock, hlt⟩ := toNat_IBLOCK hsb hn
      have hmod : n.toNat % IPB < IPB := Nat.mod_lt _ (by decide)
      have hnum : (IBLOCK n sb).toNat - sb.inodestart.toNat = n.toNat / IPB := by rw [hblock, Nat.add_sub_cancel_left]
      simp only [volume, if_pos hn]
      rw [Volume.blocks, if_neg (IBLOCK_notMem hsb hn), if_neg (by omega),
        Block.dinode_ofDinodes (fun j hj => List.mem_range.mp hj) (List.mem_range.mpr hmod), hnum, Nat.div_add_mod',
        UInt32.ofNat_toNat]
    · rw [h.dinode n (by omega)]
      simp [volume, hn]
  · by_cases hb : b ∈ sb.dataBlocks
    · simp [volume, Volume.blocks, hb]
    · simp [volume, hb, h.data b hb]

/-! ### One inode with one block -/

/-- An inode with one block. -/
def Dinode.single (type : Int16) (size : UInt32) (b : BlockNo) : Dinode where
  type := type
  major := 0
  minor := 0
  nlink := 1
  size := size
  addrs := (Vector.replicate _ 0).set 0 b (Nat.succ_pos NDIRECT)

/-- The root inode has the first data block, which holds `B`. -/
def Volume.single (sb : Superblock) (type : Int16) (size : UInt32) (B : Block) : Volume where
  used b := decide (b.toNat ≤ sb.dataStart)
  dinode n := if n = ROOTINO then .single type size (.ofNat sb.dataStart) else .zero
  data b := if b.toNat = sb.dataStart then B else .zero

section
variable {type : Int16} {size : UInt32} {p : Place}

theorem Superblock.Ordered.first_mem (hsb : sb.Ordered) (hroom : 0 < sb.nblocks.toNat) :
    (UInt32.ofNat sb.dataStart).toNat = sb.dataStart ∧ UInt32.ofNat sb.dataStart ∈ sb.dataBlocks := by
  have hlt : sb.dataStart < sb.size.toNat := by
    have := hsb.lt_dataStart
    unfold dataStart at *
    omega
  have htoNat := toNat_ofNat_block hsb.size hlt
  refine ⟨htoNat, htoNat.ge, ?_⟩
  rwa [htoNat]

theorem Volume.single_bounded (hsb : sb.Ordered) (hroom : 0 < sb.nblocks.toNat) : (single sb type size B).Bounded sb where
  used b hb := by
    obtain ⟨htoNat, -, hlt⟩ := hsb.first_mem hroom
    exact decide_eq_false (by omega)
  dinode n hn := by
    refine if_neg ?_
    rintro rfl
    exact absurd hsb.root (Nat.not_lt.mpr hn)
  data b hb := by
    refine if_neg fun heq => ?_
    obtain ⟨htoNat, hmem⟩ := hsb.first_mem hroom
    rw [← htoNat, UInt32.toNat_inj] at heq
    exact hb (heq ▸ hmem)

theorem Volume.held_single :
    (single sb type size B).held p = if p = .addr ROOTINO 0 then .ofNat sb.dataStart else 0 := by
  have haddr : ∀ n k, (single sb type size B).held (.addr n k) =
      if Place.addr n k = .addr ROOTINO 0 then .ofNat sb.dataStart else 0 := by
    intro n k
    by_cases hn : n = ROOTINO
    · subst hn
      show (Dinode.single type size (.ofNat sb.dataStart)).addrs[k] = _
      rw [Fin.getElem_fin, Dinode.single, Vector.getElem_set]
      by_cases hk : k = 0
      · subst hk
        rfl
      · rw [if_neg fun h => hk (Fin.ext h.symm), if_neg (by simp [hk])]
        exact Vector.getElem_replicate ..
    · have hzero : (single sb type size B).dinode n = .zero := if_neg hn
      rw [if_neg (by simp [hn]), held, hzero]
      exact Vector.getElem_replicate ..
  cases p with
  | addr n k => exact haddr n k
  | entry n j =>
    have hne : Place.addr n (Fin.last NDIRECT) ≠ .addr ROOTINO 0 := by
      rw [ne_eq, Place.addr.injEq]
      rintro ⟨-, h⟩
      exact absurd (congrArg Fin.val h) (by decide)
    have h0 : (single sb type size B).held (.indirect n) = 0 := (haddr n _).trans (if_neg hne)
    rw [held_entry, if_pos h0, if_neg (by rintro ⟨⟩)]

theorem Volume.block_single (k : Nat) :
    (single sb type size B).block ROOTINO k = if k = 0 then .ofNat sb.dataStart else 0 := by
  unfold block
  split
  · next hk =>
    rw [held_single]
    by_cases h0 : k = 0
    · subst h0
      rfl
    · rw [if_neg h0, if_neg]
      intro heq
      have hzero : 0 < MAXFILE := by decide
      have heq : Place.content ROOTINO k hk = .content ROOTINO 0 hzero := heq
      exact h0 (Place.content_inj heq).2
  · next hk =>
    refine (if_neg ?_).symm
    rintro rfl
    exact hk (by decide)

theorem Volume.dirent_single {off : Nat} (hsb : sb.Ordered) (hroom : 0 < sb.nblocks.toNat) (hoff : off < BSIZE) :
    (single sb type size B).dirent ROOTINO off = .ofBytes (B.read off sizeofDirent) := by
  rw [dirent, block_single, if_pos (Nat.div_eq_of_lt hoff), Nat.mod_eq_of_lt hoff]
  exact congrArg (fun b : Block => Dirent.ofBytes (b.read off sizeofDirent)) (if_pos (hsb.first_mem hroom).1)

theorem Volume.single_ok (hsb : sb.Ordered) (hroom : 0 < sb.nblocks.toNat) (htype : type ≠ 0) (hsize : size.toNat ≤ BSIZE)
    (hentries : type = T_DIR → ∀ off, sizeofDirent ∣ off → off + sizeofDirent ≤ size.toNat →
      (Dirent.ofBytes (B.read off sizeofDirent)).inum.toNat < sb.ninodes.toNat) : (single sb type size B).Ok sb := by
  obtain ⟨htoNat, hmem⟩ := hsb.first_mem hroom
  have hroot : ∀ n, ((single sb type size B).dinode n).type ≠ 0 → n = ROOTINO := by
    intro n hn
    by_contra hne
    exact hn (by simp [single, hne, Dinode.zero])
  have hdinode : ((single sb type size B).dinode ROOTINO).type = type := rfl
  have hown : ∀ p b, (single sb type size B).own p = some b ↔ p = .addr ROOTINO 0 ∧ b = .ofNat sb.dataStart := by
    intro p b
    rw [own_eq_some, held_single]
    constructor
    · rintro ⟨-, rfl, hb⟩
      split at hb
      · next hp => exact ⟨hp, if_pos hp⟩
      · exact absurd rfl hb
    · rintro ⟨rfl, rfl⟩
      exact ⟨htype, if_pos rfl, hsb.ne_zero hmem⟩
  refine ⟨⟨fun {p b} h => ?_, fun {p q b} hp hq => ?_, fun {b} hb => ?_⟩, fun b hb => ?_, fun n hn => ?_⟩
  · rw [((hown p b).mp h).2]
    exact hmem
  · rw [((hown p b).mp hp).1, ((hown q b).mp hq).1]
  · have hle : sb.dataStart ≤ b.toNat := hb.1
    have hused : (single sb type size B).used b = true ↔ b.toNat ≤ sb.dataStart := decide_eq_true_iff
    simp only [hown, hused, exists_eq_left]
    rw [← UInt32.toNat_inj, htoNat]
    omega
  · exact decide_eq_true (Nat.le_of_lt hb)
  · obtain rfl := hroot n hn
    refine ⟨fun k _ hlt => ?_, fun hdir off hdvd _ hle => ?_⟩
    · have hsize' : k * BSIZE < size.toNat := hlt
      have h0 : k = 0 := by
        by_contra hne
        have := Nat.le_mul_of_pos_left BSIZE (Nat.pos_of_ne_zero hne)
        omega
      rw [block_single, if_pos h0]
      exact hsb.ne_zero hmem
    · have hpos : 0 < sizeofDirent := by decide
      have hle : off + sizeofDirent ≤ size.toNat := hle
      rw [dirent_single hsb hroom (by omega)]
      exact hentries hdir off hdvd hle

end

/-! ### In memory -/

/-- Within an operation, with one reference to an inode that is in memory. -/
def Volume.opened (V : Volume) (sb : Superblock) (n : UInt32) : Fs where
  store := { Store.boot sb.logstart sb.nlog.toNat (V.blocks sb) with
    log := { start := sb.logstart, size := sb.nlog.toNat, outstanding := 1, committing := false, lh := [] } }
  itable i := { V.dinode n with inum := n, ref := if i.val = 0 then 1 else 0, locked := false, valid := true }
  ftable _ := { type := .none, ref := 0, readable := false, writable := false, ip := ⟨0, NINODE_pos⟩, off := 0, major := 0 }
  proc _ := none

theorem Volume.vol_opened (hsb : sb.Ordered) (hV : V.Bounded sb) (n : UInt32) : (V.opened sb n).vol sb = V :=
  volume_blocks hsb hV

theorem Volume.opened_inv (hsb : sb.Ordered) (hV : V.Bounded sb) (hok : V.Ok sb) (hn : n.toNat < sb.ninodes.toNat)
    (htype : (V.dinode n).type ≠ 0) :
    Inv sb (V.opened sb n) ((V.opened sb n).vol sb) {⟨0, by decide⟩} 0 := by
  rw [vol_opened hsb hV]
  have hopens : (V.opened sb n).opens = 0 := by
    refine Multiset.eq_zero_of_forall_notMem fun i hi => ?_
    obtain ⟨f, hf⟩ := mem_opens.mp hi
    cases hf
  have hfirst : ∀ i : Fin NINODE, 0 < ((V.opened sb n).itable i).ref → i.val = 0 := by
    intro i hi
    by_contra hne
    have hfree : ((V.opened sb n).itable i).ref = 0 := if_neg hne
    omega
  refine ⟨⟨rfl, rfl, rfl, rfl, Nat.zero_le _, ?_, nofun⟩, hok, ⟨fun i => ?_, fun _ _ _ => ⟨rfl, htype⟩, fun i j hi hj _ => ?_,
    fun _ _ => hn, fun _ => rfl, fun _ _ => rfl, fun _ _ h => ?_, fun f h => ?_⟩⟩
  · have := hsb.nlog
    show ((0 : Nat) : Int) ≤ _
    omega
  · rw [hopens, Multiset.add_zero, Multiset.count_singleton]
    by_cases h0 : i = ⟨0, by decide⟩
    · subst h0
      rfl
    · have hne : ¬i.val = 0 := fun h => h0 (Fin.ext h)
      rw [if_neg h0]
      exact if_neg hne
  · exact Fin.ext ((hfirst i hi).trans (hfirst j hj).symm)
  · cases h
  · cases h

/-- A small file system. -/
def Superblock.small : Superblock where
  magic := FSMAGIC
  size := 50
  nblocks := 16
  ninodes := 16
  nlog := 30
  logstart := 2
  inodestart := 32
  bmapstart := 33

theorem Superblock.small_ordered : small.Ordered := by
  constructor <;> decide

end LabSO.Kernel

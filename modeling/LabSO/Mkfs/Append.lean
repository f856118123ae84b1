import LabSO.Kernel.VolumeContent
import LabSO.Mkfs.Image

/-! What `iappend` does to the image, seen as a volume in which the blocks before `freeblock` are in use: the blocks of an
    inode are those that its size needs, they hold what was appended, and no block belongs to two places. -/

namespace LabSO.Mkfs
open Kernel Program Ledger

variable {s₀ s t : Image} {n m : UInt32} {k : Nat} {a b x : BlockNo} {din din' : Dinode} {c : UInt32 → List UInt8}
  {pre q : List UInt8}

theorem sb_ordered : sb.Ordered := by
  constructor <;> decide

/-! ### Blocks of the image -/

/-- The image has all its blocks, those that are not taken are zeros, and the superblock is there. -/
structure Room (s : Image) : Prop where
  length : s.length = FSSIZE
  first : nmeta ≤ s.freeblock.toNat
  last : s.freeblock.toNat ≤ FSSIZE
  fresh : ∀ b : BlockNo, s.freeblock.toNat ≤ b.toNat → b.toNat < FSSIZE → s.file b = .zero
  super : s.file 1 = sbBlock

theorem sector_eq (h : b.toNat ≤ FSSIZE) : sector b = b := by
  have hb : b.toNat ≤ 2000 := h
  have hmul : (b * 1024).toNat = b.toNat * 1024 := by
    rw [UInt32.toNat_mul]
    exact Nat.mod_eq_of_lt (by show b.toNat * 1024 < 2 ^ 32; omega)
  apply UInt32.toNat_inj.mp
  rw [sector, UInt32.toNat_div, hmul]
  exact Nat.mul_div_cancel _ (by decide)

theorem rsect_returns (h : s.length = FSSIZE) (hb : b.toNat < FSSIZE) : Program.Returns (rsect b) s (s.file b) s := by
  have hlt : (sector b).toNat < s.length := by rwa [sector_eq hb.le, h]
  rw [Program.Returns, rsect, if_pos hlt, sector_eq hb.le]

/-- The image with a block overwritten. -/
def Image.set (s : Image) (b : BlockNo) (B : Block) : Image := { s with file := Function.update s.file b B }

theorem wsect_returns (h : s.length = FSSIZE) (hb : b.toNat < FSSIZE) (B : Block) :
    Program.Returns (wsect b B) s () (s.set b B) := by
  have hmax : max s.length (b.toNat + 1) = s.length := by
    rw [h]
    exact Nat.max_eq_left hb
  simp only [Program.Returns, wsect, liftState, sector_eq hb.le, hmax]
  rfl

/-- The block that was taken last lies past the end of the image. -/
structure Past (s : Image) (x : BlockNo) : Prop where
  length : s.length = FSSIZE
  block : x.toNat = FSSIZE
  freeblock : FSSIZE < s.freeblock.toNat

/-- A run breaks off because there are not enough blocks, or because a file of `total` bytes is too long. -/
def Overrun (total : Nat) (_ : Death) (t : Image) : Prop := FSSIZE < t.freeblock.toNat ∨ MAXFILE * BSIZE < total

theorem Past.rsect {Q : Block → Image → Prop} {total : Nat} (h : Past s x) :
    Outcome (rsect x) Q (Overrun total) s := by
  have hnot : ¬(sector x).toNat < s.length := by
    rw [sector_eq h.block.le, h.block, h.length]
    exact Nat.lt_irrefl _
  have hhalts : Halts (Mkfs.rsect x) s (.die "read") s := if_neg hnot
  exact .of_halts hhalts (Or.inl h.freeblock)

/-- The volume that the image holds. -/
def Image.vol (s : Image) : Volume :=
  { volume sb s.file with used := fun b => decide (b.toNat < s.freeblock.toNat) }

theorem data_vol (h : b ∈ sb.dataBlocks) : s.vol.data b = s.file b := if_pos h

theorem vol_set_data (h : a ∈ sb.dataBlocks) (B : Block) : (s.set a B).vol = s.vol.setData a B := by
  have hvol : volume sb (Function.update s.file a B) = _ := volume_setData sb_ordered h
  exact Volume.ext rfl (congrArg Volume.dinode hvol :) (congrArg Volume.data hvol :)

theorem vol_set_dinode (h : n.toNat < NINODES) (d : Dinode) :
    (s.set (IBLOCK n sb) ((s.file (IBLOCK n sb)).setDinode (n.toNat % Kernel.IPB) d)).vol = s.vol.setDinode n d := by
  have hvol : volume sb (Function.update s.file (IBLOCK n sb) ((s.file (IBLOCK n sb)).setDinode (n.toNat % Kernel.IPB) d)) = _ :=
    volume_setDinode sb_ordered h
  exact Volume.ext rfl (congrArg Volume.dinode hvol :) (congrArg Volume.data hvol :)

/-- The volume with the inode `n` as in memory. -/
def Image.cur (s : Image) (n : UInt32) (din : Dinode) : Volume := s.vol.setDinode n din

theorem Room.set (h : Room s) (hb : b.toNat < s.freeblock.toNat) (h1 : b ≠ 1) (B : Block) : Room (s.set b B) where
  length := h.length
  first := h.first
  last := h.last
  fresh c hc hlt := by
    have hne : c ≠ b := by
      rintro rfl
      exact Nat.lt_irrefl _ (hb.trans_le hc)
    exact (Function.update_of_ne hne ..).trans (h.fresh c hc hlt)
  super := (Function.update_of_ne (Ne.symm h1) ..).trans h.super

/-! ### Taking a block -/

def Image.take (s : Image) : Image := { s with freeblock := s.freeblock + 1 }

theorem toNat_take (h : s.freeblock.toNat ≤ FSSIZE) : s.take.freeblock.toNat = s.freeblock.toNat + 1 := by
  have hle : s.freeblock.toNat ≤ 2000 := h
  show (s.freeblock + 1).toNat = _
  rw [UInt32.toNat_add]
  exact Nat.mod_eq_of_lt (by show s.freeblock.toNat + 1 < 2 ^ 32; omega)

theorem Room.take (h : Room s) (hlt : s.freeblock.toNat < FSSIZE) : Room s.take where
  length := h.length
  first := by
    rw [toNat_take h.last]
    exact Nat.le_succ_of_le h.first
  last := by
    rw [toNat_take h.last]
    exact hlt
  fresh b hb := by
    rw [toNat_take h.last] at hb
    exact h.fresh b (Nat.le_of_succ_le hb)
  super := h.super

theorem Room.past (h : Room s) (hge : ¬s.freeblock.toNat < FSSIZE) : Past s.take s.freeblock where
  length := h.length
  block := Nat.le_antisymm h.last (Nat.not_lt.mp hge)
  freeblock := by
    rw [toNat_take h.last]
    exact Nat.lt_succ_of_le (Nat.not_lt.mp hge)

theorem Room.mem (h : Room s) (hlt : s.freeblock.toNat < FSSIZE) : s.freeblock ∈ sb.dataBlocks := ⟨h.first, hlt⟩

theorem vol_take (h : Room s) (hlt : s.freeblock.toNat < FSSIZE) : s.take.vol = s.vol.alloc s.freeblock := by
  refine Volume.ext (funext fun c => ?_) rfl ?_
  · rw [Volume.used_alloc]
    have hiff : c.toNat < s.freeblock.toNat + 1 ↔ c = s.freeblock ∨ c.toNat < s.freeblock.toNat := by
      rw [← UInt32.toNat_inj]
      omega
    show decide (c.toNat < s.take.freeblock.toNat) = (decide _ || decide (c.toNat < s.freeblock.toNat))
    rw [toNat_take h.last, ← Bool.decide_or, decide_eq_decide]
    exact hiff
  · have hzero : s.vol.data s.freeblock = .zero := (data_vol (h.mem hlt)).trans (h.fresh _ (Nat.le_refl _) hlt)
    show s.vol.data = Function.update s.vol.data s.freeblock .zero
    rw [← hzero, Function.update_eq_self]

theorem free_vol (s : Image) (n : UInt32) (din : Dinode) : (s.cur n din).used s.freeblock = false :=
  decide_eq_false (Nat.lt_irrefl _)

/-! ### The blocks of the inode in memory -/

theorem dinode_cur (s : Image) (n : UInt32) (din : Dinode) : (s.cur n din).dinode n = din := Volume.dinode_setDinode _

/-- The place `p` of the inode has a block, a new one where it had none. -/
structure Fills (s : Image) (n : UInt32) (din : Dinode) (p : Place) (t : Image) (din' : Dinode) : Prop where
  room : Room t
  exact : (t.cur n din').BlocksExact sb
  held : (t.cur n din').held p ≠ 0
  maps : ∀ k hk, p = .content n k hk ∨ p = .indirect n → (s.cur n din).Maps (t.cur n din') n k

theorem held_cur_addr (s : Image) (n : UInt32) (din : Dinode) (k : Fin (NDIRECT + 1)) :
    (s.cur n din).held (.addr n k) = getElem din.addrs k (addr_lt k) := by
  rw [Volume.held, dinode_cur]

/-- The block that was taken is at the place. -/
theorem Fills.attached {p : Place} (h : Room t) (hexact : (s.cur n din).BlocksExact sb) (hp : p.inum = n) (htype : din.type ≠ 0)
    (h0 : (s.cur n din).held p = 0) (hx : x ∈ sb.dataBlocks) (hfree : (s.cur n din).used x = false)
    (hatt : Volume.Attached (s.cur n din) (t.cur n din') p x) (hzero : (t.cur n din').data x = .zero) :
    Fills s n din p t din' := by
  have hne := sb_ordered.ne_zero hx
  have htype' : ((s.cur n din).dinode p.inum).type ≠ 0 := by rwa [hp, dinode_cur]
  refine ⟨h, hatt.blocksExact hexact htype' h0 hx hne hfree, ?_, fun k hk hk' => hatt.maps hk' h0 hzero ?_⟩
  · rw [hatt.held p htype', if_pos rfl]
    exact hne
  · rwa [dinode_cur]

theorem fillAddr_spec (h : Room s) (hexact : (s.cur n din).BlocksExact sb) (htype : din.type ≠ 0)
    (k : Fin (NDIRECT + 1)) : ∃ din' t, Program.Returns (fillAddr din k) s din' t ∧
      (Fills s n din (.addr n k) t din' ∨ Past t (getElem din'.addrs k (addr_lt k))) := by
  unfold fillAddr
  by_cases h0 : din.addrs[k] = 0
  · rw [if_pos h0]
    refine ⟨_, s.take, (show Program.Returns nextBlock s s.freeblock s.take from rfl).bind .pure, ?_⟩
    by_cases hlt : s.freeblock.toNat < FSSIZE
    · have hatt := Volume.attached_addr (n := n) hexact (by rwa [dinode_cur]) k (by rwa [dinode_cur]) (free_vol s n din)
      have hcur : s.take.cur n { din with addrs := din.addrs.set k s.freeblock } =
          ((s.cur n din).alloc s.freeblock).setDinode n { din with addrs := din.addrs.set k s.freeblock } := by
        rw [Image.cur, vol_take h hlt, Image.cur, Volume.setDinode_alloc_setDinode]
      rw [dinode_cur, ← hcur] at hatt
      refine Or.inl (.attached (h.take hlt) hexact rfl htype ((held_cur_addr s n din k).trans h0) (h.mem hlt)
        (free_vol s n din) hatt ?_)
      rw [hcur]
      exact Volume.data_setData _
    · refine Or.inr ?_
      simpa using h.past hlt
  · rw [if_neg h0]
    refine ⟨din, s, .pure, Or.inl ⟨h, hexact, ?_, fun k _ _ => .refl _ n k⟩⟩
    rwa [held_cur_addr]

theorem used_cur : (s.cur n din).used b = true ↔ b.toNat < s.freeblock.toNat := decide_eq_true_iff

/-- A block of the inode is a block of the image that was taken. -/
theorem lt_of_held {p : Place} (h : Room s) (hexact : (s.cur n din).BlocksExact sb) (htype : din.type ≠ 0) (hp : p.inum = n)
    (hne : (s.cur n din).held p ≠ 0) : (s.cur n din).held p ∈ sb.dataBlocks ∧
      ((s.cur n din).held p).toNat < s.freeblock.toNat ∧ (s.cur n din).held p ≠ 1 := by
  have htype' : ((s.cur n din).dinode p.inum).type ≠ 0 := by rwa [hp, dinode_cur]
  have hmem := Volume.mem_of_held hexact htype' hne
  refine ⟨hmem, used_cur.mp (Volume.used_of_held hexact htype' hne), fun heq => ?_⟩
  rw [heq] at hmem
  exact absurd hmem.1 (by decide)

theorem fillEntry_spec (h : Room s) (hexact : (s.cur n din).BlocksExact sb) (htype : din.type ≠ 0)
    (hind : getElem din.addrs NDIRECT NDIRECT_lt ≠ 0) (j : Fin NINDIRECT) :
    ∃ y t, Program.Returns (fillEntry (getElem din.addrs NDIRECT NDIRECT_lt) j) s y t ∧
      (Fills s n din (.entry n j) t din ∧ y = (t.cur n din).held (.entry n j) ∨ Past t y) := by
  let a := din.addrs[NDIRECT]
  have ha : (s.cur n din).held (.indirect n) = a := held_cur_addr s n din (Fin.last NDIRECT)
  have hne : (s.cur n din).held (.indirect n) ≠ 0 := ha.symm ▸ hind
  obtain ⟨hmem, hlt, h1⟩ := lt_of_held (p := .indirect n) h hexact htype rfl hne
  rw [ha] at hmem hlt h1
  have hdata : (s.cur n din).data a = s.file a := data_vol hmem
  have hheld : (s.cur n din).held (.entry n j) = (s.file a).word j := by
    rw [Volume.held_entry, if_neg hne, ha, hdata]
  have hread := rsect_returns h.length hmem.2
  by_cases h0 : (s.file a).word j = 0
  · let t := s.take.set a ((s.file a).setWord j s.freeblock)
    have hprog : Program.Returns (fillEntry a j) s s.freeblock t := by
      refine hread.bind ?_
      rw [if_pos h0]
      refine Program.Returns.bind (show Program.Returns nextBlock s s.freeblock s.take from rfl) ?_
      exact Program.Returns.bind (wsect_returns (s := s.take) h.length hmem.2 _) .pure
    refine ⟨_, t, hprog, ?_⟩
    by_cases hfull : s.freeblock.toNat < FSSIZE
    · have hatt := Volume.attached_entry (n := n) hexact (by rwa [dinode_cur]) j hne (hheld.trans h0) (free_vol s n din)
      have hcur : t.cur n din = ((s.cur n din).alloc s.freeblock).setData a ((s.file a).setWord j s.freeblock) := by
        rw [Image.cur, vol_set_data hmem, vol_take h hfull]
        rfl
      rw [ha, hdata, ← hcur] at hatt
      have hother : s.freeblock ≠ a := by
        rintro heq
        exact hlt.ne' (congrArg UInt32.toNat heq)
      have hlt' : a.toNat < s.take.freeblock.toNat := by
        rw [toNat_take h.last]
        exact Nat.lt_succ_of_lt hlt
      have hfills : Fills s n din (.entry n j) t din := by
        refine .attached ((h.take hfull).set hlt' h1 _) hexact rfl htype (hheld.trans h0) (h.mem hfull)
          (free_vol s n din) hatt ?_
        rw [hcur, Volume.data_setData_of_ne _ hother]
        exact Volume.data_setData _
      refine Or.inl ⟨hfills, ?_⟩
      rw [hatt.held (.entry n j) (by rwa [Place.inum, dinode_cur]), if_pos rfl]
    · exact Or.inr ⟨h.length, (h.past hfull).block, (h.past hfull).freeblock⟩
  · refine ⟨_, s, ?_, Or.inl ⟨⟨h, hexact, hheld.symm ▸ h0, fun k _ _ => .refl _ n k⟩, hheld.symm⟩⟩
    refine hread.bind ?_
    rw [if_neg h0]
    exact .pure

/-! ### Appending -/

/-- The `k`th block of the inode's content is there. -/
structure Filled (s : Image) (n : UInt32) (din : Dinode) (k : Nat) (t : Image) (din' : Dinode) : Prop where
  room : Room t
  exact : (t.cur n din').BlocksExact sb
  block : (t.cur n din').block n k ≠ 0
  maps : (s.cur n din).Maps (t.cur n din') n k

theorem Filled.type (h : Filled s n din k t din') : din' = { din with addrs := din'.addrs } := by
  have hsame := h.maps.same
  rwa [dinode_cur, dinode_cur] at hsame

theorem fillBlock_spec {total : Nat} (h : Room s) (hexact : (s.cur n din).BlocksExact sb) (htype : din.type ≠ 0)
    (hk : k < MAXFILE) : Outcome (fillBlock din k)
      (fun r t => Filled s n din k t r.2 ∧ r.1 = (t.cur n r.2).block n k ∨ Past t r.1) (Overrun total) s := by
  unfold fillBlock
  split
  · next hdirect =>
    obtain ⟨din', t, hret, hres⟩ := fillAddr_spec (n := n) h hexact htype ⟨k, Nat.lt_succ_of_lt hdirect⟩
    refine .bind_returns hret (.pure ?_)
    refine hres.imp_left fun hfills => ?_
    have hcontent := Place.content_of_lt (n := n) (h := hk) hdirect
    have hblock : (t.cur n din').block n k = din'.addrs[k] := by
      rw [Volume.block_eq hk, hcontent, held_cur_addr]
      rfl
    refine ⟨⟨hfills.room, hfills.exact, ?_, hfills.maps k hk (Or.inl hcontent.symm)⟩, hblock.symm⟩
    rw [Volume.block_eq hk, hcontent]
    exact hfills.held
  · next hdirect =>
    have hj : k - NDIRECT < NINDIRECT := by
      unfold MAXFILE at hk
      omega
    obtain ⟨din', t, hret, hres⟩ := fillAddr_spec (n := n) h hexact htype (Fin.last NDIRECT)
    refine .bind_returns hret ?_
    rcases hres with hfills | hpast
    · have hmaps := hfills.maps k hk (Or.inr rfl)
      have htype' : din'.type ≠ 0 := by
        have heq := hmaps.type n
        rw [dinode_cur, dinode_cur] at heq
        exact heq ▸ htype
      have hind : din'.addrs[NDIRECT] ≠ 0 := fun h0 => hfills.held ((held_cur_addr t n din' (Fin.last NDIRECT)).trans h0)
      obtain ⟨y, u, hret', hres'⟩ := fillEntry_spec (n := n) hfills.room hfills.exact htype' hind ⟨k - NDIRECT, hj⟩
      refine .bind_returns hret' (.pure ?_)
      refine hres'.imp_left ?_
      rintro ⟨hentry, rfl⟩
      have hcontent := Place.content_of_ge (n := n) (h := hk) hdirect hj
      refine ⟨⟨hentry.room, hentry.exact, ?_, ?_⟩, ?_⟩
      · rw [Volume.block_eq hk, hcontent]
        exact hentry.held
      · exact .trans (by rwa [dinode_cur]) hmaps (hentry.maps k hk (Or.inl hcontent.symm))
      · rw [Volume.block_eq hk, hcontent]
    · exact .bind (.bind (P := fun _ _ => False) hpast.rsect fun _ _ => False.elim) fun _ _ => False.elim

/-- Within `iappend`, when the inode has the bytes `pre`: the inodes but for `n` are those of `s₀`. -/
structure Appending (s₀ s : Image) (n : UInt32) (din : Dinode) (c : UInt32 → List UInt8) (pre : List UInt8) : Prop where
  room : Room s
  exact : (s.cur n din).BlocksExact sb
  type : din.type = (s₀.vol.dinode n).type
  other : ∀ m, m ≠ n → s.vol.dinode m = s₀.vol.dinode m
  self : (s.cur n din).Holds n pre
  rest : ∀ m, m ≠ n → (s₀.vol.dinode m).type ≠ 0 → (s.cur n din).Holds m (c m)

theorem cur_set_data (h : a ∈ sb.dataBlocks) (B : Block) : (s.set a B).cur n din = (s.cur n din).setData a B := by
  rw [Image.cur, vol_set_data h]
  rfl

theorem dinode_cur_of_ne (h : m ≠ n) : (s.cur n din).dinode m = s.vol.dinode m := Volume.dinode_setDinode_of_ne _ h

/-- One turn of the loop: a block is filled, and the next bytes are copied to it. -/
theorem Appending.step (h : Appending s₀ s n din c pre) (hn : (s₀.vol.dinode n).type ≠ 0) (hk : k = pre.length / BSIZE)
    (hfilled : Filled s n din k t din') (hx : x = (t.cur n din').block n k) (hq : q ≠ [])
    (hfits : pre.length + q.length ≤ (k + 1) * BSIZE) :
    x ∈ sb.dataBlocks ∧ Appending s₀ (t.set x ((t.file x).write (pre.length - k * BSIZE) q)) n din' c (pre ++ q) := by
  subst hx
  have hself : ((s.cur n din).dinode n).type ≠ 0 := by rwa [dinode_cur, h.type]
  have hself' : ((t.cur n din').dinode n).type ≠ 0 := by rwa [hfilled.maps.type]
  have htype' : din'.type ≠ 0 := by rwa [dinode_cur] at hself'
  have hkm := Volume.lt_of_block hfilled.block
  have hheld := hfilled.block
  rw [Volume.block_eq hkm] at hheld
  obtain ⟨hmem, hlt, h1⟩ := lt_of_held hfilled.room hfilled.exact htype' Place.inum_content hheld
  rw [← Volume.block_eq hkm] at hmem hlt h1
  have hdata : (t.cur n din').data ((t.cur n din').block n k) = t.file ((t.cur n din').block n k) := data_vol hmem
  refine ⟨hmem, hfilled.room.set hlt h1 _, ?_, ?_, fun m hm => ?_, ?_, fun m hm hm0 => ?_⟩
  · rw [cur_set_data hmem]
    exact hfilled.exact.setData hself' hfilled.block _
  · rw [hfilled.type]
    exact h.type
  · have hafter : (t.cur n din').dinode m = t.vol.dinode m := dinode_cur_of_ne hm
    rw [vol_set_data hmem, Volume.dinode_setData, ← hafter, hfilled.maps.other m hm,
      dinode_cur_of_ne hm]
    exact h.other m hm
  · rw [cur_set_data hmem, ← hdata]
    exact h.self.append hself hk hfilled.maps hfilled.exact hfilled.block hq hfits
  · have hm' : ((s.cur n din).dinode m).type ≠ 0 := by rwa [dinode_cur_of_ne hm, h.other m hm]
    rw [cur_set_data hmem]
    exact (hfilled.maps.holds hm' hm (h.rest m hm hm0)).setData_of_ne hfilled.exact hself'
      (hfilled.maps.type m ▸ hm') hm hfilled.block _

theorem iappendFrom_spec {p : List UInt8} {off total : Nat} (hn : (s₀.vol.dinode n).type ≠ 0) (h : Appending s₀ s n din c pre)
    (hoff : off = pre.length) (htotal : total = off + p.length) :
    Outcome (iappendFrom p off din) (fun r t => r.1 = total ∧ Appending s₀ t n r.2 c (pre ++ p)) (Overrun total) s := by
  induction hlen : p.length using Nat.strong_induction_on generalizing p off pre s din with
  | _ len ih =>
    rw [iappendFrom]
    refine .ite (fun hnil => .pure ?_) fun hne => .ite (fun hk => ?_) fun hk => .halt (Or.inr ?_)
    · subst hnil
      rw [List.append_nil]
      exact ⟨htotal.symm, h⟩
    · have hpos : 0 < p.length := List.length_pos_iff.mpr hne
      have hlt : off < (off / BSIZE + 1) * BSIZE :=
        (Nat.lt_mul_div_succ off (by decide)).trans_eq (Nat.mul_comm ..)
      have htype : din.type ≠ 0 := h.type ▸ hn
      refine .bind (fillBlock_spec h.room h.exact htype hk) ?_
      rintro ⟨x, din'⟩ t (⟨hfilled, hx⟩ | hpast)
      · let n1 := min p.length ((off / BSIZE + 1) * BSIZE - off)
        have hn1 : (p.take n1).length = n1 := List.length_take_of_le (Nat.min_le_left ..)
        have hq : p.take n1 ≠ [] := by
          rw [← List.length_pos_iff, hn1]
          exact Nat.lt_min.mpr ⟨hpos, Nat.sub_pos_of_lt hlt⟩
        have hfits : pre.length + (p.take n1).length ≤ (off / BSIZE + 1) * BSIZE := by
          rw [hn1, ← hoff]
          omega
        obtain ⟨hmem, hnext⟩ := h.step hn (hoff ▸ rfl) hfilled hx hq hfits
        rw [← hoff] at hnext
        refine .bind_returns (rsect_returns hfilled.room.length hmem.2) ?_
        refine .bind_returns (wsect_returns hfilled.room.length hmem.2 _) ?_
        have hrest : (p.drop n1).length = p.length - n1 := List.length_drop ..
        have hlen1 : 0 < n1 := by rwa [← hn1, List.length_pos_iff]
        have hle1 : n1 ≤ p.length := Nat.min_le_left ..
        have hoff' : off + n1 = (pre ++ p.take n1).length := by rw [List.length_append, hn1, hoff]
        have hres := ih (p.drop n1).length (by omega) hnext hoff' (by omega) rfl
        rwa [List.append_assoc, List.take_append_drop] at hres
      · exact .bind hpast.rsect fun _ _ => False.elim
    · rw [htotal]
      have hle := Nat.div_mul_le_self off BSIZE
      have hmul := Nat.mul_le_mul_right BSIZE (Nat.not_lt.mp hk)
      have hpos : 0 < p.length := List.length_pos_iff.mpr hne
      omega

end LabSO.Mkfs

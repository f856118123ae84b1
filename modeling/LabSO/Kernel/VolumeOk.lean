import LabSO.Kernel.Volume

/-! What keeps a volume in agreement with itself: blocks that are attached to a place and detached from it, contents that
    are written, and inodes that change. -/

namespace LabSO.Kernel.Volume
open Ledger

variable {sb : Superblock} {V V' : Volume} {n m : UInt32} {k : Nat} {a b : BlockNo} {p q : Place} {d : Dinode}

/-! ### What references say -/

theorem own_of_held (htype : (V.dinode p.inum).type ≠ 0) (hne : V.held p ≠ 0) : V.own p = some (V.held p) :=
  own_eq_some.mpr ⟨htype, rfl, hne⟩

theorem used_of_held (h : V.BlocksExact sb) (htype : (V.dinode p.inum).type ≠ 0) (hne : V.held p ≠ 0) :
    V.used (V.held p) = true :=
  h.used_of_own (own_of_held htype hne)

theorem held_ne_of_free (h : V.BlocksExact sb) (hfree : V.used b = false) (htype : (V.dinode p.inum).type ≠ 0)
    (hne : V.held p ≠ 0) : V.held p ≠ b := by
  rintro rfl
  rw [used_of_held h htype hne] at hfree
  cases hfree

theorem held_inj (h : V.BlocksExact sb) (hp : (V.dinode p.inum).type ≠ 0) (hq : (V.dinode q.inum).type ≠ 0)
    (hne : V.held p ≠ 0) (heq : V.held q = V.held p) : q = p :=
  h.inj (own_eq_some.mpr ⟨hq, heq, hne⟩) (own_of_held hp hne)

theorem mem_of_held (h : V.BlocksExact sb) (hp : (V.dinode p.inum).type ≠ 0) (hne : V.held p ≠ 0) :
    V.held p ∈ sb.dataBlocks :=
  h.mem (own_of_held hp hne)

/-- The blocks of the inode are data blocks. -/
def Within (V : Volume) (sb : Superblock) (n : UInt32) : Prop :=
  ∀ p : Place, p.inum = n → V.held p ≠ 0 → V.held p ∈ sb.dataBlocks

theorem BlocksExact.within (h : V.BlocksExact sb) (hn : (V.dinode n).type ≠ 0) : V.Within sb n := by
  rintro p rfl
  exact mem_of_held h hn

theorem held_entry (n : UInt32) (j : Fin NINDIRECT) :
    V.held (.entry n j) = if V.held (.indirect n) = 0 then 0 else (V.data (V.held (.indirect n))).word j := rfl

theorem held_congr (haddrs : (V'.dinode p.inum).addrs = (V.dinode p.inum).addrs)
    (hdata : V.held (.indirect p.inum) ≠ 0 → V'.data (V.held (.indirect p.inum)) = V.data (V.held (.indirect p.inum))) :
    V'.held p = V.held p := by
  cases p with
  | addr n k => exact congrArg (·[k]) haddrs
  | entry n j =>
    have hind : V'.held (.indirect n) = V.held (.indirect n) := congrArg (·[NDIRECT]) haddrs
    rw [held_entry, held_entry, hind]
    split
    · rfl
    · next hne => exact congrArg (·.word j) (hdata hne)

theorem block_eq (hk : k < MAXFILE) : V.block n k = V.held (.content n k hk) := dif_pos hk

theorem lt_of_block (h : V.block n k ≠ 0) : k < MAXFILE := by
  by_contra hk
  exact h (dif_neg hk)

theorem Within.mem_of_block (h : V.Within sb n) (hne : V.block n k ≠ 0) : V.block n k ∈ sb.dataBlocks := by
  have hk := lt_of_block hne
  rw [block_eq hk] at hne ⊢
  exact h _ Place.inum_content hne

theorem block_congr (h : ∀ p : Place, p.inum = n → V'.held p = V.held p) (k : Nat) : V'.block n k = V.block n k := by
  unfold block
  split
  · exact h _ Place.inum_content
  · rfl

theorem block_inj {l : Nat} (h : V.BlocksExact sb) (hn : (V.dinode n).type ≠ 0) (hm : (V.dinode m).type ≠ 0)
    (hne : V.block n k ≠ 0) (heq : V.block m l = V.block n k) : m = n ∧ l = k := by
  have hk := lt_of_block hne
  have hl := lt_of_block (heq ▸ hne)
  rw [block_eq hk] at hne
  rw [block_eq hk, block_eq hl] at heq
  refine Place.content_inj (held_inj h ?_ ?_ hne heq)
  · rwa [Place.inum_content]
  · rwa [Place.inum_content]

theorem mem_of_block (h : V.BlocksExact sb) (hn : (V.dinode n).type ≠ 0) (hne : V.block n k ≠ 0) :
    V.block n k ∈ sb.dataBlocks :=
  (h.within hn).mem_of_block hne

theorem indirect_ne_block (h : V.BlocksExact sb) (hn : (V.dinode n).type ≠ 0) (hm : (V.dinode m).type ≠ 0)
    (hne : V.block n k ≠ 0) : V.held (.indirect m) ≠ V.block n k := by
  have hk := lt_of_block hne
  rw [block_eq hk] at hne ⊢
  intro heq
  refine Place.content_ne_indirect (held_inj (q := .indirect m) h ?_ hm hne heq).symm
  rwa [Place.inum_content]

/-! ### Inodes that keep their blocks -/

/-- The blocks and entries that inode `n` had are as before in `V'`. -/
structure Keeps (V V' : Volume) (n : UInt32) : Prop where
  type : (V'.dinode n).type = (V.dinode n).type
  size : (V'.dinode n).size = (V.dinode n).size
  block : ∀ k, V.block n k ≠ 0 → V'.block n k = V.block n k
  data : ∀ k, V.block n k ≠ 0 → V'.data (V.block n k) = V.data (V.block n k)

theorem Keeps.refl (V : Volume) (n : UInt32) : Keeps V V n := ⟨rfl, rfl, fun _ _ => rfl, fun _ _ => rfl⟩

theorem Keeps.trans {W : Volume} (h : Keeps V V' n) (h' : Keeps V' W n) : Keeps V W n where
  type := h'.type.trans h.type
  size := h'.size.trans h.size
  block k hne := by
    have heq := h.block k hne
    rw [h'.block k (heq ▸ hne), heq]
  data k hne := by
    have heq := h.block k hne
    rw [← h.data k hne, ← heq, h'.data k (heq ▸ hne)]

theorem Keeps.dirent {off : Nat} (h : Keeps V V' n) (hne : V.block n (off / BSIZE) ≠ 0) :
    V'.dirent n off = V.dirent n off := by
  rw [Volume.dirent, Volume.dirent, h.block _ hne, h.data _ hne]

theorem Sound.keeps (h : V.Sound sb n) (hkeeps : Keeps V V' n) : V'.Sound sb n where
  noHole k hk hlt := by
    have hne := h.noHole k hk (hkeeps.size ▸ hlt)
    rw [hkeeps.block k hne]
    exact hne
  dirent htype off hdvd hoff hle := by
    rw [hkeeps.size] at hle
    have hpos : 0 < sizeofDirent := by decide
    have hne := h.noHole (off / BSIZE) hoff ((Nat.div_mul_le_self off BSIZE).trans_lt (by omega))
    rw [hkeeps.dirent hne]
    exact h.dirent (hkeeps.type ▸ htype) off hdvd hoff hle

/-! ### A block that is attached -/

/-- `V'` differs from `V` by the block `b`, which was free, all zeros, and is now at the place `p` of an inode. -/
structure Attached (V V' : Volume) (p : Place) (b : BlockNo) : Prop where
  used : ∀ c, V'.used c = (decide (c = b) || V.used c)
  other : ∀ m, m ≠ p.inum → V'.dinode m = V.dinode m
  same : V'.dinode p.inum = { V.dinode p.inum with addrs := (V'.dinode p.inum).addrs }
  held : ∀ q, (V.dinode q.inum).type ≠ 0 → V'.held q = if q = p then b else V.held q
  data : ∀ m k, (V.dinode m).type ≠ 0 → V.block m k ≠ 0 → V'.data (V.block m k) = V.data (V.block m k)

theorem Attached.type (h : Attached V V' p b) (m : UInt32) : (V'.dinode m).type = (V.dinode m).type := by
  by_cases hm : m = p.inum
  · rw [hm, h.same]
  · rw [h.other m hm]

theorem Attached.size (h : Attached V V' p b) (m : UInt32) : (V'.dinode m).size = (V.dinode m).size := by
  by_cases hm : m = p.inum
  · rw [hm, h.same]
  · rw [h.other m hm]

theorem Attached.keeps (h : Attached V V' p b) (hp : V.held p = 0) (hm : (V.dinode m).type ≠ 0) : Keeps V V' m where
  type := h.type m
  size := h.size m
  block k hne := by
    have hk := lt_of_block hne
    rw [block_eq hk] at hne ⊢
    rw [block_eq hk, h.held _ (by rwa [Place.inum_content])]
    refine if_neg ?_
    rintro rfl
    exact hne hp
  data k hne := h.data m k hm hne

theorem Attached.blocksExact (h : Attached V V' p b) (hexact : V.BlocksExact sb) (htype : (V.dinode p.inum).type ≠ 0)
    (hp : V.held p = 0) (hb : b ∈ sb.dataBlocks) (hb0 : b ≠ 0) (hfree : V.used b = false) : V'.BlocksExact sb := by
  refine hexact.attach (p := p) (own_eq_none.mpr (Or.inr hp)) hb (by simp [hfree]) (fun q => ?_) fun c _ => ?_
  · by_cases hq : q = p
    · subst hq
      exact Or.inl ⟨own_eq_some.mpr ⟨(h.type _).symm ▸ htype, (h.held q htype).trans (if_pos rfl), hb0⟩, rfl⟩
    · exact Or.inr ⟨own_congr (h.type _) fun ht => (h.held q ht).trans (if_neg hq), hq⟩
  · simp [h.used]

theorem Attached.ok (h : Attached V V' p b) (hok : V.Ok sb) (htype : (V.dinode p.inum).type ≠ 0) (hp : V.held p = 0)
    (hb : b ∈ sb.dataBlocks) (hb0 : b ≠ 0) (hfree : V.used b = false) : V'.Ok sb where
  exact := h.blocksExact hok.exact htype hp hb hb0 hfree
  marked c hc := by
    rw [h.used, hok.marked c hc, Bool.or_true]
  sound m hm := by
    rw [h.type] at hm
    exact (hok.sound m hm).keeps (h.keeps hp hm)

/-- An address of the inode takes a new block. -/
theorem attached_addr (h : V.BlocksExact sb) (htype : (V.dinode n).type ≠ 0) (i : Fin (NDIRECT + 1))
    (h0 : getElem (V.dinode n).addrs i (addr_lt i) = 0) (hfree : V.used b = false) :
    Attached V ((V.alloc b).setDinode n { V.dinode n with addrs := (V.dinode n).addrs.set i b (addr_lt i) }) (.addr n i) b where
  used c := used_alloc
  other m hm := dinode_setDinode_of_ne _ hm
  same := by simp [Place.inum]
  data m k hm hne := by
    have hk := lt_of_block hne
    rw [block_eq hk] at hne ⊢
    exact data_alloc (held_ne_of_free h hfree (by rwa [Place.inum_content]) hne)
  held q hq := by
    have haddr : ∀ m i', ((V.alloc b).setDinode n { V.dinode n with addrs := (V.dinode n).addrs.set i b }).held
        (.addr m i') = if Place.addr m i' = .addr n i then b else V.held (.addr m i') := by
      intro m i'
      by_cases hm : m = n
      · subst hm
        simp only [held, dinode_setDinode, Place.addr.injEq, true_and, Fin.ext_iff]
        rw [Fin.getElem_fin, Vector.getElem_set]
        simp only [eq_comm]
        rfl
      · rw [if_neg (by simp [hm])]
        simp [held, dinode_setDinode_of_ne _ hm]
    cases q with
    | addr m i' => exact haddr m i'
    | entry m j =>
      rw [if_neg (by simp), held_entry, held_entry, Place.indirect, haddr]
      split
      · next heq =>
        rw [Place.addr.injEq] at heq
        obtain ⟨rfl, rfl⟩ := heq
        have hzero : V.held (.addr m (Fin.last NDIRECT)) = 0 := h0
        rw [if_pos hzero]
        split
        · rfl
        · exact (congrArg (·.word j) (data_setData ..)).trans (Block.word_zero j)
      · next hne =>
        by_cases h0' : V.held (.addr m (Fin.last NDIRECT)) = 0
        · rw [if_pos h0', if_pos h0']
        · rw [if_neg h0', if_neg h0']
          exact congrArg (·.word j) (data_alloc (held_ne_of_free (p := .addr m _) h hfree hq h0'))

/-- An entry of the inode's indirect block takes a new block. -/
theorem attached_entry (h : V.BlocksExact sb) (htype : (V.dinode n).type ≠ 0) (j : Fin NINDIRECT)
    (ha : V.held (.indirect n) ≠ 0) (h0 : V.held (.entry n j) = 0) (hfree : V.used b = false) :
    Attached V ((V.alloc b).setData (V.held (.indirect n)) ((V.data (V.held (.indirect n))).setWord j b)) (.entry n j) b where
  used c := used_alloc
  other m hm := rfl
  same := rfl
  data m k hm hne := by
    have hk := lt_of_block hne
    rw [data_setData_of_ne _ (indirect_ne_block h hm htype hne).symm]
    rw [block_eq hk] at hne ⊢
    exact data_alloc (held_ne_of_free h hfree (by rwa [Place.inum_content]) hne)
  held q hq := by
    cases q with
    | addr m i => rw [if_neg (by simp)]; rfl
    | entry m i =>
      let W := (V.alloc b).setData (V.held (.indirect n)) ((V.data (V.held (.indirect n))).setWord j b)
      have hentry : W.held (.entry m i) =
          if V.held (.indirect m) = 0 then 0 else (W.data (V.held (.indirect m))).word i := rfl
      show W.held (.entry m i) = _
      rw [hentry, held_entry]
      by_cases hzero : V.held (.indirect m) = 0
      · have hmn : m ≠ n := by
          rintro rfl
          exact ha hzero
        rw [if_pos hzero, if_neg (by simp [hmn]), if_pos hzero]
      rw [if_neg hzero, if_neg hzero]
      by_cases hm : m = n
      · subst hm
        have hself : W.data (V.held (.indirect m)) = (V.data (V.held (.indirect m))).setWord j b := data_setData ..
        rw [hself]
        by_cases hi : i = j
        · subst hi
          have hlt : (i : Nat) < NINDIRECT := i.isLt
          rw [if_pos rfl, Block.word_setWord (by simp only [NINDIRECT] at hlt; omega)]
        · rw [if_neg (by simp [hi]), Block.word_setWord_of_ne (fun h => hi (Fin.ext h.symm))]
      · have hne : V.held (.indirect m) ≠ V.held (.indirect n) := fun heq =>
          hm (congrArg Place.inum (held_inj (p := .indirect n) (q := .indirect m) h htype hq ha heq))
        have hother : W.data (V.held (.indirect m)) = V.data (V.held (.indirect m)) :=
          (data_setData_of_ne _ hne).trans (data_alloc (held_ne_of_free (p := .indirect m) h hfree hq hzero))
        rw [if_neg (by simp [hm]), hother]

/-! ### Contents that are written -/

theorem held_setData (h : V.BlocksExact sb) (htype : (V.dinode n).type ≠ 0) (hne : V.block n k ≠ 0) (B : Block)
    (hp : (V.dinode p.inum).type ≠ 0) : (V.setData (V.block n k) B).held p = V.held p :=
  held_congr rfl fun _ => data_setData_of_ne _ (indirect_ne_block h htype hp hne)

theorem block_setData (h : V.BlocksExact sb) (htype : (V.dinode n).type ≠ 0) (hne : V.block n k ≠ 0) (B : Block)
    (hm : (V.dinode m).type ≠ 0) (l : Nat) : (V.setData (V.block n k) B).block m l = V.block m l :=
  block_congr (fun _ hp => held_setData h htype hne B (hp ▸ hm)) l

theorem BlocksExact.setData (h : V.BlocksExact sb) (htype : (V.dinode n).type ≠ 0) (hne : V.block n k ≠ 0) (B : Block) :
    (V.setData (V.block n k) B).BlocksExact sb :=
  h.congr (fun _ => own_congr rfl (held_setData h htype hne B)) fun _ _ => Iff.rfl

/-- A block of an inode's content is overwritten; in a directory, with entries that name inodes that exist. -/
theorem Ok.setData (h : V.Ok sb) (htype : (V.dinode n).type ≠ 0) (hne : V.block n k ≠ 0) (B : Block)
    (hdir : (V.dinode n).type = T_DIR → ∀ off, sizeofDirent ∣ off → off / BSIZE = k →
      off + sizeofDirent ≤ (V.dinode n).size.toNat →
      (Dirent.ofBytes (B.read (off % BSIZE) sizeofDirent)).inum.toNat < sb.ninodes.toNat) :
    (V.setData (V.block n k) B).Ok sb := by
  refine ⟨h.exact.setData htype hne B, h.marked, fun m hm => ⟨?_, ?_⟩⟩
  · intro l hl hlt
    rw [block_setData h.exact htype hne B hm]
    exact (h.sound m hm).noHole l hl hlt
  · intro hT off hdvd hoff hle
    rw [Volume.dirent, block_setData h.exact htype hne B hm]
    by_cases heq : V.block m (off / BSIZE) = V.block n k
    · obtain ⟨rfl, hk⟩ := block_inj h.exact htype hm hne heq
      rw [heq, data_setData]
      exact hdir hT off hdvd hk hle
    · rw [data_setData_of_ne _ heq]
      exact (h.sound m hm).dirent hT off hdvd hoff hle

/-! ### Inodes that change -/

theorem held_setDinode (haddrs : d.addrs = (V.dinode n).addrs) (p : Place) : (V.setDinode n d).held p = V.held p := by
  refine held_congr ?_ fun _ => rfl
  by_cases hp : p.inum = n
  · rw [hp, dinode_setDinode, haddrs]
  · rw [dinode_setDinode_of_ne _ hp]

theorem block_setDinode (haddrs : d.addrs = (V.dinode n).addrs) (m : UInt32) (k : Nat) :
    (V.setDinode n d).block m k = V.block m k :=
  block_congr (fun p _ => held_setDinode haddrs p) k

theorem BlocksExact.setDinode (h : V.BlocksExact sb) (htype : (V.dinode n).type ≠ 0) (htype' : d.type ≠ 0)
    (haddrs : d.addrs = (V.dinode n).addrs) : (V.setDinode n d).BlocksExact sb := by
  refine h.congr (fun p => ?_) fun _ _ => Iff.rfl
  have hheld := held_setDinode (V := V) haddrs p
  by_cases hp : p.inum = n
  · simp only [own, hheld, hp, dinode_setDinode, htype, htype']
  · simp only [own, hheld, dinode_setDinode_of_ne _ hp]

/-- An allocated inode stays so and keeps its addresses. -/
theorem Ok.setDinode (h : V.Ok sb) (htype : (V.dinode n).type ≠ 0) (htype' : d.type ≠ 0)
    (haddrs : d.addrs = (V.dinode n).addrs) (hsound : (V.setDinode n d).Sound sb n) : (V.setDinode n d).Ok sb where
  exact := h.exact.setDinode htype htype' haddrs
  marked := h.marked
  sound m hm := by
    by_cases hmn : m = n
    · exact hmn ▸ hsound
    · rw [dinode_setDinode_of_ne _ hmn] at hm
      refine (h.sound m hm).keeps ⟨?_, ?_, fun k _ => block_setDinode haddrs m k, fun _ _ => rfl⟩
      · rw [dinode_setDinode_of_ne _ hmn]
      · rw [dinode_setDinode_of_ne _ hmn]

theorem sound_setDinode (haddrs : d.addrs = (V.dinode n).addrs) (hsize : d.size = (V.dinode n).size)
    (htype : d.type = (V.dinode n).type) (h : V.Sound sb n) : (V.setDinode n d).Sound sb n := by
  refine h.keeps ⟨?_, ?_, fun k _ => block_setDinode haddrs n k, fun _ _ => rfl⟩
  · rw [dinode_setDinode, htype]
  · rw [dinode_setDinode, hsize]

/-- Its other fields are of no account. -/
theorem Ok.setDinode_same (h : V.Ok sb) (htype : (V.dinode n).type ≠ 0) (haddrs : d.addrs = (V.dinode n).addrs)
    (hsize : d.size = (V.dinode n).size) (htype' : d.type = (V.dinode n).type) : (V.setDinode n d).Ok sb :=
  h.setDinode htype (htype'.symm ▸ htype) haddrs (sound_setDinode haddrs hsize htype' (h.sound n htype))

theorem held_of_empty (h : (V.dinode p.inum).addrs = Vector.replicate _ 0) : V.held p = 0 := by
  cases p with
  | addr n i => simp [held, show (V.dinode n).addrs = Vector.replicate _ 0 from h]
  | entry n j => simp [held, show (V.dinode n).addrs = Vector.replicate _ 0 from h]

theorem own_of_empty (h : (V.dinode n).type = 0 ∨ (V.dinode n).addrs = Vector.replicate _ 0) (hp : p.inum = n) :
    V.own p = none := by
  subst hp
  exact own_eq_none.mpr (h.imp_right held_of_empty)

theorem block_of_empty (h : (V.dinode n).addrs = Vector.replicate _ 0) (k : Nat) : V.block n k = 0 := by
  unfold block
  split
  · exact held_of_empty (by rwa [Place.inum_content])
  · rfl

theorem held_setDinode_of_ne (d : Dinode) (hp : p.inum ≠ n) : (V.setDinode n d).held p = V.held p :=
  held_congr (by rw [dinode_setDinode_of_ne _ hp]) fun _ => rfl

theorem own_setDinode_empty (h : d.type = 0 ∨ d.addrs = Vector.replicate _ 0) (p : Place) :
    (V.setDinode n d).own p = if p.inum = n then none else V.own p := by
  split
  · next hp => exact own_of_empty (by rwa [dinode_setDinode]) hp
  · next hp => exact own_congr (by rw [dinode_setDinode_of_ne _ hp]) fun _ => held_setDinode_of_ne d hp

theorem sound_setDinode_empty (h : d.type = 0 ∨ d.addrs = Vector.replicate _ 0 ∧ d.size = 0)
    (hsound : ∀ m, (V.dinode m).type ≠ 0 → V.Sound sb m) (m : UInt32) (hm : ((V.setDinode n d).dinode m).type ≠ 0) :
    (V.setDinode n d).Sound sb m := by
  by_cases hmn : m = n
  · subst hmn
    rw [dinode_setDinode] at hm
    have hsize : ((V.setDinode m d).dinode m).size.toNat = 0 := by
      rw [dinode_setDinode, (h.resolve_left hm).2]
      rfl
    refine ⟨fun k _ hlt => absurd hlt (by omega), fun _ off _ _ hle => ?_⟩
    have hpos : 0 < sizeofDirent := by decide
    omega
  · have hdinode : (V.setDinode n d).dinode m = V.dinode m := dinode_setDinode_of_ne _ hmn
    rw [hdinode] at hm
    have hblock : ∀ k, (V.setDinode n d).block m k = V.block m k :=
      block_congr fun p hp => held_setDinode_of_ne d (hp ▸ hmn)
    exact (hsound m hm).keeps ⟨by rw [hdinode], by rw [hdinode], fun k _ => hblock k, fun _ _ => rfl⟩

theorem BlocksExact.setDinode_empty (h : V.BlocksExact sb)
    (hbefore : (V.dinode n).type = 0 ∨ (V.dinode n).addrs = Vector.replicate _ 0)
    (hafter : d.type = 0 ∨ d.addrs = Vector.replicate _ 0) : (V.setDinode n d).BlocksExact sb := by
  refine h.congr (fun p => ?_) fun _ _ => Iff.rfl
  rw [own_setDinode_empty hafter]
  split
  · next hp => exact (own_of_empty hbefore hp).symm
  · rfl

/-- An inode without blocks, or that is free, is overwritten by such an inode. -/
theorem Ok.setDinode_empty (h : V.Ok sb) (hbefore : (V.dinode n).type = 0 ∨ (V.dinode n).addrs = Vector.replicate _ 0)
    (hafter : d.type = 0 ∨ d.addrs = Vector.replicate _ 0 ∧ d.size = 0) : (V.setDinode n d).Ok sb :=
  ⟨h.exact.setDinode_empty hbefore (hafter.imp_right And.left), h.marked, sound_setDinode_empty hafter h.sound⟩

/-- An inode all of whose places have given up their blocks is overwritten by one without blocks. -/
theorem Ok.truncate {u : BlockNo → Bool} {l : List Place} (h : V.Ok sb)
    (hexact : Exact sb.dataBlocks (without V.own l) fun b => u b = true)
    (hin : ∀ p ∈ l, p.inum = n) (hall : ∀ p : Place, p.inum = n → without V.own l p = none)
    (hmarked : ∀ b : BlockNo, b.toNat < sb.dataStart → u b = true)
    (hafter : d.addrs = Vector.replicate _ 0 ∧ d.size = 0) : (Volume.setDinode { V with used := u } n d).Ok sb := by
  refine ⟨hexact.congr (fun p => ?_) fun _ _ => Iff.rfl, hmarked, sound_setDinode_empty (Or.inr hafter) fun m hm => ?_⟩
  · rw [own_setDinode_empty (Or.inr hafter.1)]
    split
    · next hp => exact (hall p hp).symm
    · next hp => exact (without_of_notMem fun hmem => hp (hin p hmem)).symm
  · exact (h.sound m hm).keeps ⟨rfl, rfl, fun _ _ => rfl, fun _ _ => rfl⟩

end LabSO.Kernel.Volume

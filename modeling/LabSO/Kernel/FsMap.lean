import LabSO.Kernel.FsInode
import LabSO.Kernel.VolumeContent

/-! `bmap` on any volume in which no two places refer to one block, whatever its directories hold. -/

namespace LabSO.Kernel
open Program Tokens Ledger

variable {sb : Superblock} {s t u : Fs} {st : Store} {V W : Volume} {I J : Multiset (Fin NINODE)}
  {F : Multiset (Fin NFILE)} {i j : Fin NINODE} {a b : BlockNo} {n : UInt32} {bn : Nat} {p : Place}

/-! ### The inode of an entry -/

theorem cur_dinode (s : Fs) (sb : Superblock) (i : Fin NINODE) :
    (s.cur sb i).dinode (s.itable i).inum = (s.itable i).toDinode := Volume.dinode_setDinode _

/-- From `s` to `t` nothing in memory but the addresses of the inode of an entry changed. -/
structure AddrsOnly (s t : Fs) (i : Fin NINODE) : Prop where
  self : t.itable i = { s.itable i with addrs := (t.itable i).addrs }
  other : ∀ j, j ≠ i → t.itable j = s.itable j
  ftable : t.ftable = s.ftable
  proc : t.proc = s.proc

theorem AddrsOnly.refl (s : Fs) (i : Fin NINODE) : AddrsOnly s s i := ⟨rfl, fun _ _ => rfl, rfl, rfl⟩

theorem AddrsOnly.store (s : Fs) (i : Fin NINODE) (store : Store) : AddrsOnly s { s with store } i :=
  ⟨rfl, fun _ _ => rfl, rfl, rfl⟩

theorem AddrsOnly.trans (h : AddrsOnly s t i) (h' : AddrsOnly t u i) : AddrsOnly s u i where
  self := by rw [h'.self, h.self]
  other j hj := (h'.other j hj).trans (h.other j hj)
  ftable := h'.ftable.trans h.ftable
  proc := h'.proc.trans h.proc

theorem AddrsOnly.leaves (h : AddrsOnly s t i) (J : Multiset (Fin NINODE)) : Leaves s t J where
  ftable := h.ftable
  proc := h.proc
  kept j _ := by
    by_cases hj : j = i
    · subst hj
      exact ⟨by rw [h.self], fun hv => by rwa [h.self], fun _ => by rw [h.self]⟩
    · exact .of_eq (h.other j hj)

theorem AddrsOnly.inum (h : AddrsOnly s t i) : (t.itable i).inum = (s.itable i).inum := by rw [h.self]

theorem AddrsOnly.ref (h : AddrsOnly s t i) : (t.itable i).ref = (s.itable i).ref := by rw [h.self]

theorem AddrsOnly.valid (h : AddrsOnly s t i) : (t.itable i).valid = (s.itable i).valid := by rw [h.self]

theorem held_addr_cur (s : Fs) (sb : Superblock) (i : Fin NINODE) (k : Fin (NDIRECT + 1)) :
    (s.cur sb i).held (.addr (s.itable i).inum k) = getElem (s.itable i).addrs k (addr_lt k) := by
  rw [Volume.held, cur_dinode]


theorem cur_resize (s : Fs) (sb : Superblock) (i : Fin NINODE) (z : UInt32) :
    (s.setInode i { s.itable i with size := z }).cur sb i =
      (s.cur sb i).setDinode (s.itable i).inum { (s.itable i).toDinode with size := z } := by
  rw [Fs.cur, Fs.itable_setInode_self, Fs.vol_setInode]
  exact Volume.ext rfl (Function.update_idem ..).symm rfl

/-- The entry is the copy of an inode in use, and no two places refer to one block. -/
structure Usable (sb : Superblock) (s : Fs) (i : Fin NINODE) : Prop where
  log : LogAt sb 1 s.store
  exact : (s.cur sb i).BlocksExact sb
  marked : ∀ b : BlockNo, b.toNat < sb.dataStart → (s.vol sb).used b = true
  type : (s.itable i).type ≠ 0

theorem Inv.usable (h : Inv sb s (s.cur sb i) I F) (hi : 0 < (s.itable i).ref) (hv : (s.itable i).valid = true) :
    Usable sb s i :=
  ⟨h.log, h.ok.exact, h.ok.marked, (h.tables.cached i hi hv).2⟩

theorem Usable.dinode_type (h : Usable sb s i) : ((s.cur sb i).dinode (s.itable i).inum).type ≠ 0 := by
  rw [cur_dinode]
  exact h.type

/-- The blocks of the file system change, and its volume does not. -/
theorem Usable.setStore {store : Store} (h : Usable sb s i) (hlog : LogAt sb 1 store)
    (hvol : volume sb store.bufs = s.vol sb) : Usable sb { s with store } i := by
  have hcur : ({ s with store } : Fs).cur sb i = s.cur sb i := by rw [Fs.cur, Fs.vol, hvol, Fs.cur]
  refine ⟨hlog, hcur ▸ h.exact, fun b hb => ?_, h.type⟩
  show (volume sb store.bufs).used b = true
  rw [hvol]
  exact h.marked b hb

/-- From `s` to `t` free blocks were given to the inode of an entry, one of them perhaps as the block `bn` of its content. -/
structure Mapping (sb : Superblock) (s : Fs) (i : Fin NINODE) (bn : Nat) (t : Fs) : Prop extends AddrsOnly s t i where
  usable : Usable sb t i
  maps : (s.cur sb i).Maps (t.cur sb i) (s.itable i).inum bn

theorem Mapping.refl (h : Usable sb s i) : Mapping sb s i bn s := ⟨.refl s i, h, .refl ..⟩

theorem Mapping.trans (hs : Usable sb s i) (h : Mapping sb s i bn t) (h' : Mapping sb t i bn u) :
    Mapping sb s i bn u where
  toAddrsOnly := h.toAddrsOnly.trans h'.toAddrsOnly
  usable := h'.usable
  maps := h.maps.trans hs.dinode_type (h.inum ▸ h'.maps)

theorem Mapping.setStore {store : Store} (h : Usable sb s i) (hlog : LogAt sb 1 store)
    (hvol : volume sb store.bufs = s.vol sb) : Mapping sb s i bn { s with store } := by
  refine ⟨.store s i store, h.setStore hlog hvol, ?_⟩
  have hcur : ({ s with store } : Fs).cur sb i = s.cur sb i := by rw [Fs.cur, Fs.vol, hvol, Fs.cur]
  rw [hcur]
  exact .refl ..

/-- A free block is attached at a place of the block `bn`, or on the way to it. -/
theorem Mapping.of_attached (hbn : bn < MAXFILE) (h : Usable sb s i)
    (hp : p = .content (s.itable i).inum bn hbn ∨ p = .indirect (s.itable i).inum) (h0 : (s.cur sb i).held p = 0)
    (hatt : (s.cur sb i).Attached (t.cur sb i) p b) (hb : b ∈ sb.dataBlocks) (hb0 : b ≠ 0)
    (hfree : (s.vol sb).used b = false) (hzero : (t.vol sb).data b = .zero) (haddrs : AddrsOnly s t i)
    (hlog : LogAt sb 1 t.store) : Mapping sb s i bn t := by
  have hinum : p.inum = (s.itable i).inum := by
    rcases hp with rfl | rfl
    · exact Place.inum_content
    · rfl
  have htype : ((s.cur sb i).dinode p.inum).type ≠ 0 := hinum ▸ h.dinode_type
  refine ⟨haddrs, ⟨hlog, hatt.blocksExact h.exact htype h0 hb hb0 hfree, fun c hc => ?_, ?_⟩, ?_⟩
  · exact (hatt.used c).trans (by rw [show (s.cur sb i).used c = true from h.marked c hc, Bool.or_true])
  · rw [haddrs.self]
    exact h.type
  · exact hatt.maps hp h0 hzero h.dinode_type

theorem loadAddr_maps (hbn : bn < MAXFILE) (hsb : sb.Ordered) (h : Usable sb s i) (k : Fin (NDIRECT + 1))
    (hp : Place.addr (s.itable i).inum k = .content (s.itable i).inum bn hbn ∨
      Place.addr (s.itable i).inum k = .indirect (s.itable i).inum) :
    Wp Tolerated (loadAddr sb i k) (fun a t => Mapping sb s i bn t ∧
      a = (t.cur sb i).held (.addr (s.itable i).inum k)) s := by
  refine inode_bind (.ite (fun h0 => ?_) fun _ => .pure ⟨.refl h, (held_addr_cur s sb i k).symm⟩)
  refine onStore_bind (balloc_spec hsb h.log h.marked) ?_
  rintro a store ⟨hlog, hres⟩
  refine .ite (fun ha => ?_) fun ha => ?_
  · subst ha
    rcases hres with ⟨-, hvol⟩ | ⟨hmem, -⟩
    · refine .pure ⟨.setStore h hlog hvol, ?_⟩
      rw [held_addr_cur _ _ _ k]
      exact h0.symm
    · exact absurd rfl (hsb.ne_zero hmem)
  · obtain ⟨hmem, hfree, hvol⟩ := hres.resolve_left fun hzero => ha hzero.1
    let x : Inode := { s.itable i with addrs := (s.itable i).addrs.set k a }
    let t : Fs := ({ s with store } : Fs).setInode i x
    let V := s.cur sb i
    have hdinode : V.dinode (s.itable i).inum = (s.itable i).toDinode := cur_dinode s sb i
    have hself : t.itable i = x := Fs.itable_setInode_self ..
    have hvolt : t.vol sb = (s.vol sb).alloc a := hvol
    have hcur : t.cur sb i = (V.alloc a).setDinode (s.itable i).inum
        { V.dinode (s.itable i).inum with addrs := (V.dinode (s.itable i).inum).addrs.set k a } := by
      rw [hdinode, Fs.cur, hself, hvolt]
      exact (Volume.setDinode_alloc_setDinode _ _).symm
    have hatt : V.Attached (t.cur sb i) (.addr (s.itable i).inum k) a := by
      rw [hcur]
      exact Volume.attached_addr h.exact h.dinode_type k (hdinode ▸ h0) hfree
    have hzero : (t.vol sb).data a = .zero := by
      rw [hvolt]
      exact Volume.data_setData _
    have haddrs : AddrsOnly s t i := ⟨by rw [hself], fun j hj => Fs.itable_setInode_of_ne _ _ hj, rfl, rfl⟩
    refine modifyInode_bind (.pure ⟨.of_attached hbn h hp ((held_addr_cur s sb i k).trans h0) hatt hmem (hsb.ne_zero hmem)
      hfree hzero haddrs hlog, ?_⟩)
    rw [hatt.held (.addr _ k) h.dinode_type, if_pos rfl]

/-! ### The indirect block -/

theorem loadEntry_spec (hsb : sb.Ordered) (hlog : LogAt sb 1 st) (ha : a ∈ sb.dataBlocks)
    (hused : (volume sb st.bufs).used a = true)
    (hmarked : ∀ c : BlockNo, c.toNat < sb.dataStart → (volume sb st.bufs).used c = true) (j : Nat) :
    Wp Tolerated (loadEntry sb a j) (fun b st' => LogAt sb 1 st' ∧
      (b = ((volume sb st.bufs).data a).word j ∧ volume sb st'.bufs = volume sb st.bufs ∨
        ((volume sb st.bufs).data a).word j = 0 ∧ b ∈ sb.dataBlocks ∧ (volume sb st.bufs).used b = false ∧
          volume sb st'.bufs = ((volume sb st.bufs).alloc b).setData a (((volume sb st.bufs).data a).setWord j b))) st := by
  have hdata : (volume sb st.bufs).data a = st.bufs a := if_pos ha
  rw [hdata]
  refine .liftState_bind (.ite (fun h0 => ?_) fun _ => .pure ⟨hlog, Or.inl ⟨rfl, rfl⟩⟩)
  refine .bind (balloc_spec hsb hlog hmarked) ?_
  rintro b st' ⟨hlog', hres⟩
  refine .bind (P := fun _ st'' => LogAt sb 1 st'' ∧ _) (.onlyIf (fun hb => ?_) fun hb => ?_) fun _ st'' h => .pure h
  · obtain ⟨hmem, hfree, hvol⟩ := hres.resolve_left fun hzero => hb hzero.1
    have hab : a ≠ b := by
      rintro rfl
      rw [hused] at hfree
      cases hfree
    have hbufs : st'.bufs a = st.bufs a := by
      have heq : (volume sb st'.bufs).data a = (volume sb st.bufs).data a := by rw [hvol, Volume.data_alloc hab]
      rwa [hdata, show (volume sb st'.bufs).data a = st'.bufs a from if_pos ha] at heq
    refine .liftState_bind ((logWrite_spec hsb hlog' (inodestart_le_data hsb ha)).mono fun _ st'' h => ⟨h.1, Or.inr ?_⟩)
    refine ⟨h0, hmem, hfree, ?_⟩
    rw [h.2, volume_setData hsb ha, hvol, hbufs]
  · have hb0 : b = 0 := by simpa using hb
    rcases hres with ⟨-, hvol⟩ | ⟨hmem, -⟩
    · exact ⟨hlog', Or.inl ⟨hb0.trans h0.symm, hvol⟩⟩
    · exact absurd hb0 (hsb.ne_zero hmem)

/-! ### Blocks of the content -/

/-- The block that `bmap` returns is the one that the inode has then. -/
theorem bmap_maps (hsb : sb.Ordered) (h : Usable sb s i) (bn : Nat) :
    Wp Tolerated (bmap sb i bn) (fun a t => Mapping sb s i bn t ∧ a = (t.cur sb i).block (s.itable i).inum bn) s := by
  unfold bmap
  split
  · next hdirect =>
    have hk : bn < MAXFILE := hdirect.trans (by decide)
    have hcontent := Place.content_of_lt (n := (s.itable i).inum) (h := hk) hdirect
    refine (loadAddr_maps hk hsb h _ (Or.inl hcontent.symm)).mono ?_
    rintro a t ⟨ht, ha⟩
    exact ⟨ht, by rw [Volume.block_eq hk, hcontent, ha]⟩
  next hdirect =>
  refine .ite (fun hj => ?_) fun _ => .halt (by simp [Tolerated])
  have hk : bn < MAXFILE := by
    unfold MAXFILE
    omega
  refine .bind (loadAddr_maps hk hsb h _ (Or.inr rfl)) ?_
  rintro a t ⟨ht, ha⟩
  let p := Place.entry (s.itable i).inum ⟨bn - NDIRECT, hj⟩
  have hcontent : Place.content (s.itable i).inum bn hk = p := Place.content_of_ge hdirect hj
  have hblock : ∀ W : Volume, W.block (s.itable i).inum bn = W.held p := fun W => by rw [Volume.block_eq hk, hcontent]
  refine .ite (fun ha0 => .pure ⟨ht, ?_⟩) fun ha0 => ?_
  · rw [hblock, Volume.held_entry]
    exact (if_pos (ha.symm.trans ha0)).symm
  have htype : ((t.cur sb i).dinode (s.itable i).inum).type ≠ 0 := by
    rw [← ht.inum]
    exact ht.usable.dinode_type
  have hne : (t.cur sb i).held (.indirect (s.itable i).inum) ≠ 0 := fun h0 => ha0 (ha.trans h0)
  have hmem : a ∈ sb.dataBlocks := ha ▸ Volume.mem_of_held (p := .indirect _) ht.usable.exact htype hne
  have hused : (t.vol sb).used a = true := ha ▸ Volume.used_of_held (p := .indirect _) ht.usable.exact htype hne
  refine onStore_spec (loadEntry_spec hsb ht.usable.log hmem hused ht.usable.marked _) ?_
  rintro b store ⟨hlog, hres⟩
  have hentry : (t.cur sb i).held p = ((t.vol sb).data a).word (bn - NDIRECT) := by
    rw [Volume.held_entry, if_neg hne, ha]
    rfl
  rcases hres with ⟨hb, hvol⟩ | ⟨h0, hbmem, hfree, hvol⟩
  · refine ⟨ht.trans h (.setStore ht.usable hlog hvol), ?_⟩
    have hcur : ({ t with store } : Fs).cur sb i = t.cur sb i := by
      show (volume sb store.bufs).setDinode _ _ = _
      rw [hvol]
      rfl
    rw [hcur, hblock, hentry]
    exact hb
  · let t' : Fs := { t with store }
    let V := t.cur sb i
    have hcur : t'.cur sb i = (V.alloc b).setData (V.held (.indirect (s.itable i).inum))
        ((V.data (V.held (.indirect (s.itable i).inum))).setWord (bn - NDIRECT) b) := by
      show (volume sb store.bufs).setDinode _ _ = _
      rw [hvol, show V.held (.indirect (s.itable i).inum) = a from ha.symm]
      rfl
    have hzero : V.held p = 0 := hentry.trans h0
    have hatt : V.Attached (t'.cur sb i) p b := by
      rw [hcur]
      exact Volume.attached_entry ht.usable.exact htype ⟨bn - NDIRECT, hj⟩ hne hzero hfree
    have hab : b ≠ a := by
      rintro rfl
      exact absurd (hused.symm.trans hfree) (by rintro ⟨⟩)
    have hdata : (t'.vol sb).data b = .zero := by
      show (volume sb store.bufs).data b = .zero
      rw [hvol, Volume.data_setData_of_ne _ hab]
      exact Volume.data_setData _
    refine ⟨ht.trans h (.of_attached (p := p) hk ht.usable (Or.inl ?_) hzero hatt hbmem (hsb.ne_zero hbmem) hfree hdata
      (.store t i store) hlog), ?_⟩
    · rw [ht.inum]
      exact hcontent.symm
    · show b = (t'.cur sb i).block _ bn
      rw [hblock, hatt.held p htype, if_pos rfl]

end LabSO.Kernel

import LabSO.Kernel.FsContent

/-! Reading and writing the content of an inode: reading changes nothing, since there are no holes, and writing keeps the
    invariant also where it stops early. -/

namespace LabSO.Kernel
open Program Tokens Ledger

variable {sb : Superblock} {s t u : Fs} {V W : Volume} {I J : Multiset (Fin NINODE)} {F : Multiset (Fin NFILE)}
  {i j : Fin NINODE} {n : UInt32} {off left size : Nat}

/-- The blocks of the content that begin before `off` exist. -/
def Volume.Mapped (V : Volume) (n : UInt32) (off : Nat) : Prop := ∀ k, k < MAXFILE → k * BSIZE < off → V.block n k ≠ 0

theorem Volume.Mapped.block_ne (h : V.Mapped n size) (hlt : off < size) (hmax : off / BSIZE < MAXFILE) :
    V.block n (off / BSIZE) ≠ 0 :=
  h _ hmax ((Nat.div_mul_le_self off BSIZE).trans_lt hlt)

theorem toNat_add_of_not_lt {a b : UInt32} (h : ¬a + b < a) : (a + b).toNat = a.toNat + b.toNat := by
  rw [UInt32.lt_iff_toNat_lt, UInt32.toNat_add] at h
  have ha := a.toNat_lt
  have hb := b.toNat_lt
  rw [UInt32.toNat_add]
  omega

/-! ### `readi` -/

theorem bmap_lt (h : Inv sb s (s.cur sb i) I F) (hi : 0 < (s.itable i).ref) (hv : (s.itable i).valid = true)
    (bn : Nat) (hne : bn < MAXFILE → (s.cur sb i).block (s.itable i).inum bn ≠ 0) :
    Wp Tolerated (bmap sb i bn) (fun a t => bn < MAXFILE ∧ a = (s.cur sb i).block (s.itable i).inum bn ∧ t = s) s := by
  by_cases hbn : bn < MAXFILE
  · exact (bmap_mapped h hi hv (hne hbn)).mono fun _ _ ht => ⟨hbn, ht⟩
  · unfold MAXFILE at hbn
    have hdirect : ¬bn < NDIRECT := by omega
    have hindirect : ¬bn - NDIRECT < NINDIRECT := by omega
    rw [bmap, dif_neg hdirect, if_neg hindirect]
    exact .halt (by simp [Tolerated])

theorem readiFrom_spec (h : Inv sb s (s.vol sb) I F) (hi : 0 < (s.itable i).ref) (hv : (s.itable i).valid = true)
    (hmapped : (s.vol sb).Mapped (s.itable i).inum size) (hle : off + left ≤ size) :
    Wp Tolerated (readiFrom sb i off left) (fun bytes t => t = s ∧ (left ≤ BSIZE - off % BSIZE →
      (0 < left → off / BSIZE < MAXFILE) ∧
      bytes = ((s.vol sb).data ((s.vol sb).block (s.itable i).inum (off / BSIZE))).read (off % BSIZE) left)) s := by
  induction left using Nat.strong_induction_on generalizing off with
  | _ left ih =>
    have hcur := h.cur_eq hi hv
    obtain ⟨hcached, htype⟩ := h.tables.cached i hi hv
    rw [readiFrom]
    refine .ite (fun h0 => .pure ⟨rfl, fun _ => ⟨fun hpos => absurd h0 hpos.ne', ?_⟩⟩) fun h0 => ?_
    · rw [h0]
      rfl
    have hoff : off < size := by omega
    have hbmap := bmap_lt (i := i) (hcur ▸ h) hi hv (off / BSIZE) (fun hk => hcur ▸ hmapped.block_ne hoff hk)
    rw [hcur] at hbmap
    refine .bind hbmap ?_
    rintro a _ ⟨hk, rfl, rfl⟩
    have hne := hmapped.block_ne hoff hk
    refine .ite (fun hzero => absurd hzero hne) fun _ => bread_bind ?_
    have hmod : off % BSIZE < BSIZE := Nat.mod_lt _ (by decide)
    have hnext : off + min left (BSIZE - off % BSIZE) + (left - min left (BSIZE - off % BSIZE)) ≤ size := by omega
    refine .bind (ih (left - min left (BSIZE - off % BSIZE)) (by omega) hnext) ?_
    rintro rest s' ⟨rfl, hrest⟩
    refine .pure ⟨rfl, fun hfits => ⟨fun _ => hk, ?_⟩⟩
    have hmin : min left (BSIZE - off % BSIZE) = left := Nat.min_eq_left hfits
    have hnil : rest = [] := by
      rw [hmin, Nat.sub_self] at hrest
      rw [(hrest (Nat.zero_le _)).2]
      rfl
    have hmem := Volume.mem_of_block h.ok.exact (hcached ▸ htype) hne
    rw [hnil, hmin, List.append_nil, vol_data hmem]

/-- A read of an entry, aligned as the entries are. -/
theorem readi_dirent_spec (h : Inv sb s (s.vol sb) I F) (hi : 0 < (s.itable i).ref)
    (hv : (s.itable i).valid = true) {off : UInt32} (hdvd : sizeofDirent ∣ off.toNat) :
    Wp Tolerated (readi sb i off (UInt32.ofNat sizeofDirent)) (fun bytes t => t = s ∧ (bytes.length = sizeofDirent →
      off.toNat / BSIZE < MAXFILE ∧ off.toNat + sizeofDirent ≤ (s.itable i).size.toNat ∧
      Dirent.ofBytes bytes = (s.vol sb).dirent (s.itable i).inum off.toNat)) s := by
  obtain ⟨hcached, htype⟩ := h.tables.cached i hi hv
  have hmapped : (s.vol sb).Mapped (s.itable i).inum (s.itable i).size.toNat := by
    intro k hk hlt
    exact (h.ok.sound _ (hcached ▸ htype)).noHole k hk (hcached ▸ hlt)
  refine inode_bind (.ite (fun _ => .pure ⟨rfl, by rintro ⟨⟩⟩) fun hbounds => ?_)
  rw [not_or] at hbounds
  obtain ⟨hoff, hwrap⟩ := hbounds
  have hadd := toNat_add_of_not_lt hwrap
  have hsixteen : (UInt32.ofNat sizeofDirent).toNat = sizeofDirent := rfl
  have hoff' : off.toNat ≤ (s.itable i).size.toNat := by
    rwa [gt_iff_lt, UInt32.not_lt, UInt32.le_iff_toNat_le] at hoff
  set left := if off + UInt32.ofNat sizeofDirent > (s.itable i).size then (s.itable i).size - off
    else UInt32.ofNat sizeofDirent with hleft
  have hle : off.toNat + left.toNat ≤ (s.itable i).size.toNat ∧ left.toNat ≤ sizeofDirent := by
    rw [hleft]
    split
    · next hpast =>
      rw [gt_iff_lt, UInt32.lt_iff_toNat_lt, hadd] at hpast
      rw [UInt32.toNat_sub_of_le _ _ (UInt32.le_iff_toNat_le.mpr hoff')]
      omega
    · next hpast =>
      rw [gt_iff_lt, UInt32.not_lt, UInt32.le_iff_toNat_le, hadd] at hpast
      exact ⟨hpast, le_rfl⟩
  have hfits : left.toNat ≤ BSIZE - off.toNat % BSIZE := by
    obtain ⟨k, hk⟩ := hdvd
    unfold sizeofDirent DIRSIZ at *
    unfold BSIZE
    omega
  refine (readiFrom_spec h hi hv hmapped hle.1).mono ?_
  rintro bytes t ⟨rfl, hbytes⟩
  obtain ⟨hk, rfl⟩ := hbytes hfits
  refine ⟨rfl, fun hlength => ?_⟩
  rw [Block.length_read] at hlength
  rw [hlength] at hk hle ⊢
  exact ⟨hk (by decide), hle.1, rfl⟩

/-! ### `writei` -/

/-- A block of the content is overwritten while the inode is in use. -/
theorem Inv.setData {store : Store} {k : Nat} {B : Block} (hsb : sb.Ordered) (h : Inv sb s (s.cur sb i) I F)
    (hi : 0 < (s.itable i).ref) (hv : (s.itable i).valid = true) (hne : (s.cur sb i).block (s.itable i).inum k ≠ 0)
    (hlog : LogAt sb 1 store)
    (hbufs : store.bufs = Function.update s.store.bufs ((s.cur sb i).block (s.itable i).inum k) B)
    (hdir : (s.itable i).type = T_DIR → ∀ off, sizeofDirent ∣ off → off / BSIZE = k →
      off + sizeofDirent ≤ (s.itable i).size.toNat →
      (Dirent.ofBytes (B.read (off % BSIZE) sizeofDirent)).inum.toNat < sb.ninodes.toNat) :
    let u : Fs := { s with store }
    Inv sb u (u.cur sb i) I F ∧ (∀ l, (u.cur sb i).block (s.itable i).inum l = (s.cur sb i).block (s.itable i).inum l) ∧
      (u.cur sb i).data ((s.cur sb i).block (s.itable i).inum k) = B := by
  have htype : ((s.cur sb i).dinode (s.itable i).inum).type ≠ 0 := by
    rw [cur_dinode]
    exact (h.tables.cached i hi hv).2
  have hmem := Volume.mem_of_block h.ok.exact htype hne
  let u : Fs := { s with store }
  have hcur : u.cur sb i = (s.cur sb i).setData ((s.cur sb i).block (s.itable i).inum k) B := by
    have hvol : volume sb store.bufs = (s.vol sb).setData ((s.cur sb i).block (s.itable i).inum k) B := by
      rw [hbufs]
      exact volume_setData hsb hmem
    rw [Fs.cur, Fs.vol, hvol]
    rfl
  refine ⟨?_, fun l => ?_, ?_⟩
  · show Inv sb u (u.cur sb i) I F
    rw [hcur]
    refine h.setStore hlog (h.ok.setData htype hne B ?_) rfl
    rwa [cur_dinode]
  · show (u.cur sb i).block _ l = _
    rw [hcur, Volume.block_setData h.ok.exact htype hne B htype]
  · show (u.cur sb i).data _ = B
    rw [hcur, Volume.data_setData]

theorem Grown.mapped (h : Grown sb s t i) (htype : (s.itable i).type ≠ 0)
    (hmapped : (s.cur sb i).Mapped (s.itable i).inum off) : (t.cur sb i).Mapped (s.itable i).inum off := by
  intro k hk hlt
  have hne := hmapped k hk hlt
  rw [(h.keeps _ (by rwa [cur_dinode])).block k hne]
  exact hne

theorem Volume.Mapped.extend {m : Nat} (h : V.Mapped n off) (hne : V.block n (off / BSIZE) ≠ 0) (hm : m ≤ BSIZE - off % BSIZE) :
    V.Mapped n (off + m) := by
  intro k hk hlt
  have hsplit := Nat.div_add_mod off BSIZE
  have hmod : off % BSIZE < BSIZE := Nat.mod_lt _ (by decide)
  rcases lt_trichotomy k (off / BSIZE) with hbefore | rfl | hafter
  · refine h k hk ?_
    calc
      k * BSIZE < off / BSIZE * BSIZE := Nat.mul_lt_mul_of_pos_right hbefore (by decide)
      _ ≤ off := Nat.div_mul_le_self ..
  · exact hne
  · have hle : (off / BSIZE + 1) * BSIZE ≤ k * BSIZE := Nat.mul_le_mul_right _ hafter
    have hcomm : (off / BSIZE + 1) * BSIZE = BSIZE * (off / BSIZE) + BSIZE := by ring
    omega

theorem writeiFrom_spec (hsb : sb.Ordered) {src : Source} {tot n : Nat} (h : Inv sb s (s.cur sb i) I F)
    (hi : 0 < (s.itable i).ref) (hv : (s.itable i).valid = true) (hfile : (s.itable i).type ≠ T_DIR)
    (hmapped : (s.cur sb i).Mapped (s.itable i).inum off) :
    Wp Tolerated (writeiFrom sb i src off tot n) (fun r t => Inv sb t (t.cur sb i) I F ∧ AddrsOnly s t i ∧
      (t.cur sb i).Mapped (s.itable i).inum r.2 ∧ r.2 ≤ off + (n - tot)) s := by
  induction hleft : n - tot using Nat.strong_induction_on generalizing src off tot s with
  | _ left ih =>
    have hstop : ∀ t, Inv sb t (t.cur sb i) I F → AddrsOnly s t i → (t.cur sb i).Mapped (s.itable i).inum off →
        Wp Tolerated (pure (tot, off) : FsProg (Nat × Nat)) (fun r t => Inv sb t (t.cur sb i) I F ∧ AddrsOnly s t i ∧
          (t.cur sb i).Mapped (s.itable i).inum r.2 ∧ r.2 ≤ off + left) t := fun t ht hs hm =>
      .pure ⟨ht, hs, hm, Nat.le_add_right ..⟩
    have htype := (h.tables.cached i hi hv).2
    rw [writeiFrom]
    refine .ite (fun hlt => ?_) fun _ => hstop s h (.refl s i) hmapped
    refine .bind (bmap_spec hsb h hi hv _) ?_
    rintro a t ⟨ht, hgrown, rfl⟩
    have hmapped' := hgrown.mapped htype hmapped
    refine .ite (fun _ => hstop t ht hgrown.toAddrsOnly hmapped') fun hne => bread_bind ?_
    have hself : (t.itable i).inum = (s.itable i).inum := hgrown.inum
    have hi' : 0 < (t.itable i).ref := hgrown.ref ▸ hi
    have hv' : (t.itable i).valid = true := hgrown.valid.trans hv
    have hfile' : (t.itable i).type ≠ T_DIR := by
      rw [hgrown.self]
      exact hfile
    rw [← hself] at hne hmapped' hstop ⊢
    rcases hsrc : src.copyin (min (n - tot) (BSIZE - off % BSIZE)) with ⟨bytes, all⟩
    simp only [hsrc]
    have hmem := Volume.mem_of_block ht.ok.exact (n := (t.itable i).inum) (by rw [cur_dinode]; exact (ht.tables.cached i hi' hv').2) hne
    refine .ite (fun _ => onStore_bind (logWrite_spec hsb ht.log (inodestart_le_data hsb hmem)) ?_) fun _ =>
      onStore_bind (P := fun _ store => LogAt sb 1 store ∧ store.bufs = _) (.liftState ⟨?_, rfl⟩) ?_
    · rintro _ store ⟨hlog, hbufs⟩
      obtain ⟨hu, hblock, -⟩ := ht.setData hsb hi' hv' hne hlog hbufs fun hdir => absurd hdir hfile'
      have hextend : Volume.Mapped _ (t.itable i).inum _ := fun k hk hlt =>
        (hblock k).trans_ne (hmapped'.extend hne (Nat.min_le_right (n - tot) _) k hk hlt)
      refine (ih _ ?_ hu hi' hv' hfile' hextend rfl).mono ?_
      · have hmod : off % BSIZE < BSIZE := Nat.mod_lt _ (by decide)
        omega
      · rintro r u ⟨hu', hs, hm, hle⟩
        exact ⟨hu', hgrown.toAddrsOnly.trans (.trans (.store t i store) hs), hm, by omega⟩
    · exact ⟨ht.log.start, ht.log.size, ht.log.outstanding, ht.log.committing, ht.log.fits⟩
    · rintro _ store ⟨hlog, hbufs⟩
      obtain ⟨hu, hblock, -⟩ := ht.setData hsb hi' hv' hne hlog hbufs fun hdir => absurd hdir hfile'
      exact hstop _ hu (hgrown.toAddrsOnly.trans (.store t i store)) fun k hk hlt => (hblock k).trans_ne (hmapped' k hk hlt)

/-- An entry of a directory is written to one block, and as a whole or not at all. -/
theorem writeiFrom_dirent_spec {de : Dirent} (hsb : sb.Ordered) (h : Inv sb s (s.cur sb i) I F) (hi : 0 < (s.itable i).ref)
    (hv : (s.itable i).valid = true) (hmapped : (s.cur sb i).Mapped (s.itable i).inum off) (hdvd : sizeofDirent ∣ off)
    (hde : de.inum.toNat < sb.ninodes.toNat) :
    Wp Tolerated (writeiFrom sb i (.kernel de.toBytes) off 0 sizeofDirent) (fun r t => Inv sb t (t.cur sb i) I F ∧
      AddrsOnly s t i ∧ (r.2 = off ∨ r.2 = off + sizeofDirent ∧
        (t.cur sb i).Mapped (s.itable i).inum (off + sizeofDirent) ∧ (t.cur sb i).dirent (s.itable i).inum off = de)) s := by
  have htype := (h.tables.cached i hi hv).2
  have hmod : off % BSIZE + sizeofDirent ≤ BSIZE := by
    obtain ⟨k, hk⟩ := hdvd
    unfold sizeofDirent DIRSIZ BSIZE at *
    omega
  rw [writeiFrom, if_pos (by decide)]
  refine .bind (bmap_spec hsb h hi hv _) ?_
  rintro a t ⟨ht, hgrown, rfl⟩
  refine .ite (fun _ => .pure ⟨ht, hgrown.toAddrsOnly, Or.inl rfl⟩) fun hne => bread_bind ?_
  have hmapped' := hgrown.mapped htype hmapped
  have hi' : 0 < (t.itable i).ref := hgrown.ref ▸ hi
  have hv' : (t.itable i).valid = true := hgrown.valid.trans hv
  rw [← hgrown.inum] at hne hmapped' ⊢
  have htype' : ((t.cur sb i).dinode (t.itable i).inum).type ≠ 0 := by
    rw [cur_dinode]
    exact (ht.tables.cached i hi' hv').2
  have hmem := Volume.mem_of_block ht.ok.exact htype' hne
  have hmin : min (sizeofDirent - 0) (BSIZE - off % BSIZE) = sizeofDirent := by omega
  have hbytes : de.toBytes.take sizeofDirent = de.toBytes := List.take_of_length_le de.length_toBytes.le
  simp only [hmin, Source.copyin, hbytes, if_true]
  refine onStore_bind (logWrite_spec hsb ht.log (inodestart_le_data hsb hmem)) ?_
  rintro _ store ⟨hlog, hbufs⟩
  have hfits : off % BSIZE + de.toBytes.length ≤ BSIZE := by rwa [de.length_toBytes]
  have hread := Block.read_write (b := t.store.bufs ((t.cur sb i).block (t.itable i).inum (off / BSIZE))) hfits
  rw [de.length_toBytes] at hread
  have hentries : (t.itable i).type = T_DIR → ∀ o, sizeofDirent ∣ o → o / BSIZE = off / BSIZE →
      o + sizeofDirent ≤ (t.itable i).size.toNat → (Dirent.ofBytes
        (((t.store.bufs ((t.cur sb i).block (t.itable i).inum (off / BSIZE))).write (off % BSIZE) de.toBytes).read
          (o % BSIZE) sizeofDirent)).inum.toNat < sb.ninodes.toNat := by
    intro hdir o ho hk hle
    by_cases heq : o = off
    · rw [heq, hread, Dirent.ofBytes_toBytes]
      exact hde
    · have hapart : o % BSIZE + sizeofDirent ≤ off % BSIZE ∨ off % BSIZE + de.toBytes.length ≤ o % BSIZE := by
        rw [de.length_toBytes]
        obtain ⟨k, hk⟩ := hdvd
        obtain ⟨l, hl⟩ := ho
        unfold sizeofDirent DIRSIZ BSIZE at *
        omega
      rw [Block.read_write_of_disjoint hapart]
      have hold := (ht.ok.sound _ htype').dirent (by rwa [cur_dinode]) o ho (hk ▸ Volume.lt_of_block hne) (by rwa [cur_dinode])
      rw [Volume.dirent, hk] at hold
      rwa [← vol_data (s := t) hmem]
  obtain ⟨hu, hblock, hdata⟩ := ht.setData hsb hi' hv' hne hlog hbufs hentries
  rw [writeiFrom, if_neg (by decide)]
  refine .pure ⟨hu, hgrown.toAddrsOnly.trans (.store t i store), Or.inr ⟨rfl, fun k hk hlt => ?_, ?_⟩⟩
  · exact (hblock k).trans_ne (hmapped'.extend hne (by omega) k hk hlt)
  · rw [Volume.dirent, hblock, hdata, hread, Dirent.ofBytes_toBytes]

theorem Volume.sound_resize {z : UInt32} (hmapped : V.Mapped n z.toNat)
    (hdir : (V.dinode n).type = T_DIR → ∀ o, sizeofDirent ∣ o → o / BSIZE < MAXFILE → o + sizeofDirent ≤ z.toNat →
      (V.dirent n o).inum.toNat < sb.ninodes.toNat) :
    (V.setDinode n { V.dinode n with size := z }).Sound sb n := by
  have hblock : ∀ k, (V.setDinode n { V.dinode n with size := z }).block n k = V.block n k :=
    block_setDinode (d := { V.dinode n with size := z }) rfl n
  refine ⟨fun k hk hlt => ?_, fun hT o ho hk hle => ?_⟩
  · rw [dinode_setDinode] at hlt
    rw [hblock]
    exact hmapped k hk hlt
  · rw [dinode_setDinode] at hT hle
    rw [Volume.dirent, hblock]
    exact hdir hT o ho hk hle

/-- The size grows over content that exists. -/
theorem Inv.resize {z : UInt32} (h : Inv sb s (s.cur sb i) I F) (hi : 0 < (s.itable i).ref) (hv : (s.itable i).valid = true)
    (hmapped : (s.cur sb i).Mapped (s.itable i).inum z.toNat)
    (hdir : (s.itable i).type = T_DIR → ∀ o, sizeofDirent ∣ o → o / BSIZE < MAXFILE → o + sizeofDirent ≤ z.toNat →
      ((s.cur sb i).dirent (s.itable i).inum o).inum.toNat < sb.ninodes.toNat) :
    Inv sb (s.setInode i { s.itable i with size := z }) ((s.setInode i { s.itable i with size := z }).cur sb i) I F := by
  let x : Inode := { s.itable i with size := z }
  have htype := (h.tables.cached i hi hv).2
  have hdinode := cur_dinode s sb i
  have hcur : (s.setInode i x).cur sb i =
      (s.cur sb i).setDinode (s.itable i).inum { (s.cur sb i).dinode (s.itable i).inum with size := z } := by
    rw [hdinode]
    exact cur_resize s sb i z
  rw [← hdinode] at hdir
  refine ⟨h.log, ?_, ?_⟩
  · rw [hcur]
    have hne : ((s.cur sb i).dinode (s.itable i).inum).type ≠ 0 := hdinode ▸ htype
    exact h.ok.setDinode hne hne rfl (Volume.sound_resize hmapped hdir)
  · refine h.tables.update_same hi rfl rfl (fun _ => ⟨?_, htype⟩) (fun m hm => ?_) fun _ => ⟨hv, ?_⟩
    · rw [hcur, Volume.dinode_setDinode, hdinode]
    · rw [hcur, Volume.dinode_setDinode_of_ne _ hm]
    · rw [hcur, Volume.dinode_setDinode]

/-- What `writei` does after its loop, which ended at `z`. -/
theorem writei_end {tot z : Nat} (hsb : sb.Ordered) (h : Inv sb s (s.cur sb i) I F) (hi : 0 < (s.itable i).ref)
    (hv : (s.itable i).valid = true) (hlt : z < 2 ^ 32)
    (hgrown : (s.itable i).size.toNat < z → (s.cur sb i).Mapped (s.itable i).inum z ∧
      ((s.itable i).type = T_DIR → ∀ o, sizeofDirent ∣ o → o / BSIZE < MAXFILE → o + sizeofDirent ≤ z →
        ((s.cur sb i).dirent (s.itable i).inum o).inum.toNat < sb.ninodes.toNat)) :
    Wp Tolerated (do
      modifyInode i fun ip => if z > ip.size.toNat then { ip with size := UInt32.ofNat z } else ip
      iupdate sb i
      return (tot : Int)) (fun _ t => Inv sb t (t.vol sb) I F ∧ ∀ J, Leaves s t J) s := by
  have hz : (UInt32.ofNat z).toNat = z := UInt32.toNat_ofNat_of_lt hlt
  let x : Inode := if z > (s.itable i).size.toNat then { s.itable i with size := UInt32.ofNat z } else s.itable i
  have hx : x = { s.itable i with size := x.size } := by
    unfold x
    split <;> rfl
  have hinv : Inv sb (s.setInode i x) ((s.setInode i x).cur sb i) I F := by
    unfold x
    split
    · next hsize =>
      obtain ⟨hmapped, hdir⟩ := hgrown hsize
      exact h.resize hi hv (hz.symm ▸ hmapped) (hz.symm ▸ hdir)
    · rwa [show s.setInode i (s.itable i) = s by simp [Fs.setInode]]
  have hi' : 0 < ((s.setInode i x).itable i).ref := by
    rw [Fs.itable_setInode_self, hx]
    exact hi
  refine modifyInode_bind (.bind (iupdate_spec hsb hinv hi') ?_)
  rintro _ t ⟨ht, -, hitable, hftable, hproc⟩
  refine .pure ⟨ht, fun J => ⟨hftable, hproc, fun j _ => ?_⟩⟩
  have hkept : Kept s (s.setInode i x) j := .setInode (by rw [hx]) (by rw [hx]; exact id) (by rw [hx]; exact fun _ => rfl)
  exact hkept.trans (.of_eq (congrFun hitable j))

theorem writei_spec {src : Source} {off n : UInt32} (hsb : sb.Ordered) (h : Inv sb s (s.vol sb) I F)
    (hi : 0 < (s.itable i).ref) (hv : (s.itable i).valid = true)
    (hdir : (s.itable i).type = T_DIR → ∃ de : Dirent, src = .kernel de.toBytes ∧ n = UInt32.ofNat sizeofDirent ∧
      sizeofDirent ∣ off.toNat ∧ de.inum.toNat < sb.ninodes.toNat) :
    Wp Tolerated (writei sb i src off n) (fun _ t => Inv sb t (t.vol sb) I F ∧ ∀ J, Leaves s t J) s := by
  have hcur := h.cur_eq hi hv
  obtain ⟨hcached, htype⟩ := h.tables.cached i hi hv
  have hsound : (s.cur sb i).Sound sb (s.itable i).inum := by
    rw [hcur]
    exact h.ok.sound _ (hcached ▸ htype)
  refine inode_bind (.ite (fun _ => .pure ⟨h, .refl s⟩) fun hbounds => .ite (fun _ => .pure ⟨h, .refl s⟩) fun hmax => ?_)
  rw [not_or] at hbounds
  obtain ⟨hoff, hwrap⟩ := hbounds
  have hadd := toNat_add_of_not_lt hwrap
  have hoff' : off.toNat ≤ (s.itable i).size.toNat := by
    rwa [gt_iff_lt, UInt32.not_lt, UInt32.le_iff_toNat_le] at hoff
  rw [hadd] at hmax
  have hmapped : (s.cur sb i).Mapped (s.itable i).inum off.toNat := fun k hk hlt => by
    refine hsound.noHole k hk (hlt.trans_le ?_)
    rwa [cur_dinode]
  have hsmall : off.toNat + n.toNat < 2 ^ 32 := (not_lt.mp hmax).trans_lt (by decide)
  rw [← hcur] at h
  by_cases hT : (s.itable i).type = T_DIR
  · obtain ⟨de, rfl, rfl, hdvd, hde⟩ := hdir hT
    refine .bind (writeiFrom_dirent_spec hsb h hi hv hmapped hdvd hde) ?_
    rintro ⟨tot, z⟩ t ⟨ht, hs, hend⟩
    have hsize : (t.itable i).size = (s.itable i).size := by rw [hs.self]
    refine (writei_end hsb ht (hs.ref ▸ hi) (hs.valid.trans hv) ?_ fun hgrown => ?_).mono
      fun _ u hu => ⟨hu.1, fun J => (hs.leaves J).trans (hu.2 J)⟩
    · rcases hend with rfl | ⟨rfl, -, -⟩
      · exact off.toNat_lt
      · exact hsmall
    rw [hsize] at hgrown
    obtain ⟨rfl, hm, hentry⟩ := hend.resolve_left fun heq => absurd hgrown (heq.trans_le hoff').not_gt
    refine ⟨hs.inum ▸ hm, fun hdir o ho hk hle => ?_⟩
    by_cases hlast : o = off.toNat
    · rw [hlast, hs.inum, hentry]
      exact hde
    · have hbefore : o + sizeofDirent ≤ (t.itable i).size.toNat := by
        obtain ⟨k, hk⟩ := hdvd
        obtain ⟨l, hl⟩ := ho
        rw [hsize]
        unfold sizeofDirent DIRSIZ at *
        omega
      have htype' := cur_dinode t sb i
      refine (ht.ok.sound _ ?_).dirent (htype' ▸ hdir) o ho hk (htype' ▸ hbefore)
      rw [htype']
      exact hdir ▸ by decide
  · refine .bind (writeiFrom_spec hsb h hi hv hT hmapped) ?_
    rintro ⟨tot, z⟩ t ⟨ht, hs, hm, hle⟩
    refine (writei_end hsb ht (hs.ref ▸ hi) (hs.valid.trans hv) ?_ fun _ => ⟨hs.inum ▸ hm, fun hdir => ?_⟩).mono ?_
    · omega
    · rw [hs.self] at hdir
      exact absurd hdir hT
    · exact fun _ u hu => ⟨hu.1, fun J => (hs.leaves J).trans (hu.2 J)⟩

end LabSO.Kernel

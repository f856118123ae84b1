import LabSO.Kernel.FsInv

/-! What the functions of the inode layer do to the invariant, one lemma a function. -/

namespace LabSO.Kernel
open Program Tokens

variable {sb : Superblock} {s t u : Fs} {ino : UInt32 → Dinode} {V : Volume} {I J : Multiset (Fin NINODE)}
  {F : Multiset (Fin NFILE)} {i j : Fin NINODE} {f : Fin NFILE}

/-! ### Parts of the program -/

section
variable {α β : Type} {ok : Stop → Prop} {m : Prog Store Stop α} {g : α → FsProg β} {P : α → Store → Prop}
  {Q : α → Fs → Prop} {R : β → Fs → Prop} {k : Block → FsProg β}

theorem onStore_spec (hm : Wp ok m P s.store) (h : ∀ a store, P a store → Q a { s with store }) :
    Wp ok (onStore m) Q s :=
  .zoom hm h

theorem onStore_bind (hm : Wp ok m P s.store) (h : ∀ a store, P a store → Wp ok (g a) R { s with store }) :
    Wp ok (onStore m >>= g) R s :=
  .bind (P := fun a t => Wp ok (g a) R t) (onStore_spec hm h) fun _ _ => id

/-- A part that changes no block changes nothing. -/
theorem onStore_returns {a : α} (hm : Program.Returns m s.store a s.store) : Program.Returns (onStore m) s a s := by
  rw [Program.Returns, onStore, zoom, hm]

theorem bread_returns {b : BlockNo} : Program.Returns (onStore (bread b)) s (s.store.bufs b) s := onStore_returns rfl

theorem inode_returns : Program.Returns (inode i) s (s.itable i) s := rfl

theorem bread_bind {b : BlockNo} (h : Wp ok (k (s.store.bufs b)) R s) : Wp ok (onStore (bread b) >>= k) R s := by
  refine onStore_bind (P := fun B store => B = s.store.bufs b ∧ store = s.store) (.liftState ⟨rfl, rfl⟩) ?_
  rintro _ _ ⟨rfl, rfl⟩
  exact h

theorem inode_bind {k : Inode → FsProg β} (h : Wp ok (k (s.itable i)) R s) : Wp ok (inode i >>= k) R s :=
  .liftState_bind h

theorem modifyInode_bind {c : Inode → Inode} {k : Unit → FsProg β} (h : Wp ok (k ()) R (s.setInode i (c (s.itable i)))) :
    Wp ok (modifyInode i c >>= k) R s :=
  .liftState_bind h

end

@[simp] theorem Fs.setInode_setInode (s : Fs) (i : Fin NINODE) (x y : Inode) :
    (s.setInode i x).setInode i y = s.setInode i y := by
  simp [setInode]

theorem vol_dinode {n : UInt32} (hn : n.toNat < sb.ninodes.toNat) :
    (s.vol sb).dinode n = (s.store.bufs (IBLOCK n sb)).dinode (n.toNat % IPB) := if_pos hn

/-! ### References and locks -/

theorem Kept.setInode {x : Inode} (hinum : x.inum = (s.itable i).inum) (hvalid : (s.itable i).valid = true → x.valid = true)
    (htype : (s.itable i).valid = true → x.type = (s.itable i).type) : Kept s (s.setInode i x) j := by
  by_cases hj : j = i
  · subst hj
    exact ⟨by simp [hinum], by simpa using hvalid, by simpa using htype⟩
  · exact .of_eq (Fs.itable_setInode_of_ne _ _ hj)

theorem Leaves.setInode {x : Inode} (h : ∀ j ∈ J, Kept s (s.setInode i x) j) : Leaves s (s.setInode i x) J := ⟨rfl, rfl, h⟩

/-- What the blocks were before does not matter. -/
theorem Leaves.of_store {store : Store} (h : Leaves { s with store } t J) : Leaves s t J where
  ftable := h.ftable
  proc := h.proc
  kept i hi :=
    have hk := h.kept i hi
    ⟨hk.inum, hk.valid, hk.type⟩

theorem iget_spec {inum : UInt32} (h : Tables sb s ino I F) (hinum : inum.toNat < sb.ninodes.toNat) :
    Wp Tolerated (iget inum) (fun i t => Tables sb t ino (i ::ₘ I) F ∧ t.store = s.store ∧ (t.itable i).inum = inum ∧
      Leaves s t (I + s.opens)) s := by
  have hcount : ∀ i j : Fin NINODE, j ≠ i → (i ::ₘ I).count j = I.count j := fun i j hj => Multiset.count_cons_of_ne hj _
  rcases hfind : (List.finRange NINODE).find? fun i => 0 < (s.itable i).ref && (s.itable i).inum == inum with _ | i
  · have hnone : ∀ j, 0 < (s.itable j).ref → inum ≠ (s.itable j).inum := by
      intro j hj heq
      have := List.find?_eq_none.mp hfind j (List.mem_finRange j)
      simp [hj, heq] at this
    rcases hempty : (List.finRange NINODE).find? fun i => (s.itable i).ref == 0 with _ | i
    · have hhalt : iget inum s = (.error (.panic "iget: no inodes"), s) := by simp only [iget, hfind, hempty]
      rw [Wp, hhalt]
      simp [Tolerated]
    · have hret : iget inum s = (.ok i, s.setInode i { s.itable i with inum := inum, ref := 1, valid := false }) := by
        simp only [iget, hfind, hempty]
      have hzero : (s.itable i).ref = 0 := by simpa using List.find?_some hempty
      have hnot : i ∉ I + s.opens := fun hmem => by
        have := h.ref_pos.mpr hmem
        omega
      refine .of_returns hret ⟨?_, rfl, by simp, .setInode fun j hj => .of_eq (Fs.itable_setInode_of_ne _ _ ?_)⟩
      · have hcount0 : (I + s.opens).count i = 0 := Multiset.count_eq_zero.mpr hnot
        refine h.update ?_ (hcount i) (fun _ => hinum) (fun _ hv => by cases hv) (fun _ j _ hj => hnone j hj)
          (fun _ _ _ => rfl) fun hmem => absurd (Multiset.mem_add.mpr (Or.inr hmem)) hnot
        simp [hcount0]
      · rintro rfl
        exact hnot hj
  · have hret : iget inum s = (.ok i, s.setInode i { s.itable i with ref := (s.itable i).ref + 1 }) := by
      simp only [iget, hfind]
    have hi : 0 < (s.itable i).ref ∧ (s.itable i).inum = inum := by simpa using List.find?_some hfind
    refine .of_returns hret ⟨?_, rfl, by simpa using hi.2, .setInode fun _ _ => .setInode rfl id fun _ => rfl⟩
    refine h.update ?_ (hcount i) (fun _ => h.inum_lt i hi.1) (fun _ hv => h.cached i hi.1 hv)
      (fun _ j hj hpos heq => hj (h.distinct i j hi.1 hpos heq).symm) (fun _ _ _ => rfl) fun hmem => ?_
    · rw [Multiset.cons_add, Multiset.count_cons_self, h.refs i]
      rfl
    · obtain ⟨f, hf⟩ := mem_opens.mp hmem
      exact ⟨h.opened f i hf, rfl⟩

/-- A second reference is taken by the holder of a first. -/
theorem idup_spec (h : Tables sb s ino I F) (hi : i ∈ I) :
    Wp Tolerated (idup i) (fun k t => k = i ∧ Tables sb t ino (i ::ₘ I) F ∧ t.store = s.store ∧
      Leaves s t (I + s.opens)) s := by
  have hpos := h.ref_pos_of_mem hi
  refine modifyInode_bind (.pure ⟨rfl, ?_, rfl, .setInode fun _ _ => .setInode rfl id fun _ => rfl⟩)
  refine h.update ?_ (fun j hj => Multiset.count_cons_of_ne hj _) (fun _ => h.inum_lt i hpos)
    (fun _ hv => h.cached i hpos hv) (fun _ j hj hpos' heq => hj (h.distinct i j hpos hpos' heq).symm) (fun _ _ _ => rfl)
    fun hmem => ?_
  · rw [Multiset.cons_add, Multiset.count_cons_self, h.refs i]
    rfl
  · obtain ⟨f, hf⟩ := mem_opens.mp hmem
    exact ⟨h.opened f i hf, rfl⟩

/-- The lock of an entry is of no account. -/
theorem Tables.setLocked (h : Tables sb s ino I F) (hi : 0 < (s.itable i).ref) (b : Bool) :
    Tables sb (s.setInode i { s.itable i with locked := b }) ino I F :=
  h.update_same hi rfl rfl (h.cached i hi) (fun _ _ => rfl) fun hv => ⟨hv, rfl⟩

theorem acquiresleep_spec :
    Wp Tolerated (acquiresleep i) (fun _ t => t = s.setInode i { s.itable i with locked := true }) s := by
  refine inode_bind (.ite (fun _ => .halt ?_) fun _ => .liftState rfl)
  simp [Tolerated]

theorem ilock_spec (h : Inv sb s (s.vol sb) I F) (hi : 0 < (s.itable i).ref) :
    Wp Tolerated (ilock sb i) (fun _ t => Inv sb t (t.vol sb) I F ∧ t.store = s.store ∧
      (t.itable i).valid = true ∧ Leaves s t (I + s.opens)) s := by
  refine inode_bind (.ite (fun _ => .halt (by simp [Tolerated])) fun _ => ?_)
  refine .bind acquiresleep_spec ?_
  rintro _ _ rfl
  have htables := h.tables.setLocked hi true
  refine inode_bind (.onlyIf (fun hv => bread_bind (modifyInode_bind (inode_bind (.onlyIf (fun _ => ?_) fun htype => ?_)))) fun hv => ?_)
  · exact .halt (by simp [Tolerated])
  · rw [Fs.itable_setInode_self] at hv
    simp only [Fs.itable_setInode_self, Fs.setInode_setInode] at htype ⊢
    have hdinode := vol_dinode (s := s) (h.tables.inum_lt i hi)
    refine ⟨⟨h.log, h.ok, ?_⟩, rfl, trivial, .setInode fun _ _ => .setInode rfl (fun _ => rfl) ?_⟩
    · exact h.tables.update_same hi rfl rfl (fun _ => ⟨hdinode.symm, htype⟩) (fun _ _ => rfl) fun hv' =>
        absurd (hv.symm.trans hv') (by rintro ⟨⟩)
    · exact fun hv' => absurd (hv.symm.trans hv') (by rintro ⟨⟩)
  · rw [Fs.itable_setInode_self] at hv
    have hvalid : (s.itable i).valid = true := by simpa using hv
    exact ⟨⟨h.log, h.ok, htables⟩, rfl, by simpa using hvalid,
      .setInode fun _ _ => .setInode rfl id fun _ => rfl⟩

theorem iunlock_spec (h : Inv sb s V I F) (hi : 0 < (s.itable i).ref) :
    Wp Tolerated (iunlock i) (fun _ t => Inv sb t V I F ∧ t.store = s.store ∧
      (∀ j, (t.itable j).toDinode = (s.itable j).toDinode ∧ (t.itable j).valid = (s.itable j).valid) ∧
      Leaves s t (I + s.opens)) s := by
  refine inode_bind (.ite (fun _ => .halt (by simp [Tolerated])) fun _ => .liftState ?_)
  refine ⟨⟨h.log, h.ok, h.tables.setLocked hi false⟩, rfl, fun j => ?_,
    .setInode fun _ _ => .setInode rfl id fun _ => rfl⟩
  by_cases hj : j = i
  · subst hj
    simp
  · rw [Fs.itable_setInode_of_ne _ _ hj]
    exact ⟨rfl, rfl⟩

/-! ### Inodes on disk -/

theorem vol_data {a : BlockNo} (ha : a ∈ sb.dataBlocks) : (s.vol sb).data a = s.store.bufs a := if_pos ha

theorem iupdate_volume (hsb : sb.Ordered) (hlog : LogAt sb 1 s.store) (hn : (s.itable i).inum.toNat < sb.ninodes.toNat) :
    Wp Tolerated (iupdate sb i) (fun _ t => LogAt sb 1 t.store ∧ t.vol sb = s.cur sb i ∧ t.itable = s.itable ∧
      t.ftable = s.ftable ∧ t.proc = s.proc) s := by
  refine inode_bind (bread_bind (onStore_spec (logWrite_spec hsb hlog (inodestart_le_IBLOCK hsb hn)) ?_))
  rintro _ store ⟨hlog', hbufs⟩
  have hvol : volume sb store.bufs = s.cur sb i := by
    rw [hbufs]
    exact volume_setDinode hsb hn
  exact ⟨hlog', hvol, rfl, rfl, rfl⟩

theorem iupdate_spec (hsb : sb.Ordered) (h : Inv sb s (s.cur sb i) I F) (hi : 0 < (s.itable i).ref) :
    Wp Tolerated (iupdate sb i) (fun _ t => Inv sb t (t.vol sb) I F ∧ t.vol sb = s.cur sb i ∧ t.itable = s.itable ∧
      t.ftable = s.ftable ∧ t.proc = s.proc) s := by
  refine (iupdate_volume hsb h.log (h.tables.inum_lt i hi)).mono ?_
  rintro _ t ⟨hlog, hvol, hitable, hftable, hproc⟩
  refine ⟨⟨hlog, hvol ▸ h.ok, ?_⟩, hvol, hitable, hftable, hproc⟩
  rw [hvol]
  exact h.tables.congr hitable hftable

/-- Inodes that are not in memory may change. -/
theorem Tables.congr_ino {ino' : UInt32 → Dinode} (h : Tables sb s ino I F)
    (hino : ∀ j, 0 < (s.itable j).ref → (s.itable j).valid = true → ino' (s.itable j).inum = ino (s.itable j).inum) :
    Tables sb s ino' I F where
  refs := h.refs
  cached j hj hv := by
    rw [hino j hj hv]
    exact h.cached j hj hv
  distinct := h.distinct
  inum_lt := h.inum_lt
  frefs := h.frefs
  idle := h.idle
  opened := h.opened
  notDir f hf hw := by
    have hip := inode?_of_ne (s := s) (f := f) (by rw [hf]; rintro ⟨⟩)
    rw [hino _ (h.ref_pos_of_opens (mem_opens.mpr ⟨f, hip⟩)) (h.opened f _ hip)]
    exact h.notDir f hf hw

theorem iallocFrom_spec {type : Int16} (hsb : sb.Ordered) (h : Inv sb s (s.vol sb) I F) {inum : UInt32} {left : Nat}
    (hleft : inum.toNat + left ≤ sb.ninodes.toNat) :
    Wp Tolerated (iallocFrom sb type inum left) (fun r t => (r = none ∧ t = s) ∨
      ∃ i, r = some i ∧ Inv sb t (t.vol sb) (i ::ₘ I) F ∧ ((t.vol sb).dinode (t.itable i).inum).type = type ∧
        Leaves s t (I + s.opens)) s := by
  induction left generalizing inum with
  | zero => exact .pure (Or.inl ⟨rfl, rfl⟩)
  | succ left ih =>
    have hn : inum.toNat < sb.ninodes.toNat := by omega
    refine bread_bind (.ite (fun hfree => ?_) fun _ => ih ?_)
    · refine onStore_bind (logWrite_spec hsb h.log (inodestart_le_IBLOCK hsb hn)) ?_
      rintro _ store ⟨hlog, hbufs⟩
      have hvol : volume sb store.bufs = (s.vol sb).setDinode inum { Dinode.zero with type := type } := by
        rw [hbufs]
        exact volume_setDinode hsb hn
      have hfree' : ((s.vol sb).dinode inum).type = 0 := by
        rw [vol_dinode hn]
        exact hfree
      have hok : (volume sb store.bufs).Ok sb := by
        rw [hvol]
        exact h.ok.setDinode_empty (Or.inl hfree') (Or.inr ⟨rfl, rfl⟩)
      let s' : Fs := { s with store }
      have htables : Tables sb s' (volume sb store.bufs).dinode I F := by
        have hsame : Tables sb s' (s.vol sb).dinode I F := h.tables.congr rfl rfl
        refine hsame.congr_ino fun j hj hv => ?_
        rw [hvol]
        refine Volume.dinode_setDinode_of_ne _ fun heq => ?_
        obtain ⟨hcached, hne⟩ := h.tables.cached j hj hv
        have hcached' : (s.itable j).toDinode = (s.vol sb).dinode inum := heq ▸ hcached
        exact hne ((congrArg Dinode.type hcached').trans hfree')
      refine .bind (iget_spec htables hn) ?_
      rintro i t ⟨ht, hstore, hinum, hleaves⟩
      have hvolt : t.vol sb = volume sb store.bufs := by rw [Fs.vol, hstore]
      have hinv : Inv sb t (t.vol sb) (i ::ₘ I) F := by
        rw [hvolt]
        exact ⟨hstore ▸ hlog, hok, ht⟩
      have htypet : ((t.vol sb).dinode (t.itable i).inum).type = type := by
        rw [hinum, hvolt, hvol, Volume.dinode_setDinode]
      exact .pure (Or.inr ⟨i, rfl, hinv, htypet, hleaves.of_store⟩)
    · have hadd : (inum + 1).toNat = inum.toNat + 1 := by
        have := sb.ninodes.toNat_lt
        rw [UInt32.toNat_add]
        have hone : (1 : UInt32).toNat = 1 := rfl
        omega
      omega

theorem ialloc_spec {type : Int16} (hsb : sb.Ordered) (h : Inv sb s (s.vol sb) I F) :
    Wp Tolerated (ialloc sb type) (fun r t => (r = none ∧ t = s) ∨
      ∃ i, r = some i ∧ Inv sb t (t.vol sb) (i ::ₘ I) F ∧ ((t.vol sb).dinode (t.itable i).inum).type = type ∧
        Leaves s t (I + s.opens)) s := by
  refine iallocFrom_spec hsb h ?_
  have := hsb.root
  have hone : (1 : UInt32).toNat = 1 := rfl
  have hroot : ROOTINO.toNat = 1 := rfl
  omega

end LabSO.Kernel

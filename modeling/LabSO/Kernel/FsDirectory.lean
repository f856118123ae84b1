import LabSO.Kernel.Directory
import LabSO.Kernel.FsReadWrite

/-! What the functions for directories and paths do to the invariant. -/

namespace LabSO.Kernel
open Program Tokens

variable {sb : Superblock} {s t u : Fs} {I J : Multiset (Fin NINODE)} {F : Multiset (Fin NFILE)}
  {i j dp : Fin NINODE} {name path : List UInt8}

/-! ### Directories -/

theorem dvd_toNat_ofNat {off : Nat} (h : sizeofDirent ∣ off) : sizeofDirent ∣ (UInt32.ofNat off).toNat := by
  rw [UInt32.toNat_ofNat']
  exact (Nat.dvd_mod_iff (by decide)).mpr h

theorem scanDirents_spec {msg : String} {stop : Dirent → Bool} {off : Nat} (hmsg : msg ≠ "freeing free block")
    (h : Inv sb s (s.vol sb) I F) (hi : 0 < (s.itable dp).ref) (hv : (s.itable dp).valid = true)
    (hdir : (s.itable dp).type = T_DIR) (hdvd : sizeofDirent ∣ off) :
    Wp Tolerated (scanDirents sb dp msg stop (s.itable dp).size.toNat off) (fun r t => t = s ∧ sizeofDirent ∣ r.1 ∧
      ∀ de, r.2 = some de → stop de = true ∧ de.inum.toNat < sb.ninodes.toNat) s := by
  obtain ⟨hcached, htype⟩ := h.tables.cached dp hi hv
  have hsound := h.ok.sound (s.itable dp).inum (hcached ▸ htype)
  induction off using scanDirents.induct (s.itable dp).size.toNat with
  | case1 off hlt ih =>
    have hoff : (UInt32.ofNat off).toNat = off := UInt32.toNat_ofNat_of_lt (hlt.trans (UInt32.toNat_lt _))
    rw [scanDirents, if_pos hlt]
    refine .bind (readi_dirent_spec h hi hv (dvd_toNat_ofNat hdvd)) ?_
    rintro bytes _ ⟨rfl, hbytes⟩
    refine .ite (fun _ => .halt ?_) fun hlength => .ite (fun hstop => .pure ⟨rfl, hdvd, ?_⟩) fun _ => ?_
    · simpa [Tolerated] using hmsg
    · rintro de hde
      obtain rfl := Option.some.inj hde
      obtain ⟨hk, hle, hentry⟩ := hbytes (not_not.mp hlength)
      rw [hoff] at hk hle hentry
      refine ⟨hstop, ?_⟩
      rw [hentry]
      rw [hcached] at hle hdir
      exact hsound.dirent hdir off hdvd hk hle
    · exact ih (Nat.dvd_add hdvd dvd_rfl)
  | case2 off hge =>
    rw [scanDirents, if_neg hge]
    exact .pure ⟨rfl, hdvd, by rintro _ ⟨⟩⟩

theorem dirlookup_spec (h : Inv sb s (s.vol sb) I F) (hi : 0 < (s.itable dp).ref) (hv : (s.itable dp).valid = true) :
    Wp Tolerated (dirlookup sb dp name) (fun r t => (s.itable dp).type = T_DIR ∧ ((r = none ∧ t = s) ∨
      ∃ i off, r = some (i, off) ∧ Inv sb t (t.vol sb) (i ::ₘ I) F ∧ Leaves s t (I + s.opens) ∧
        sizeofDirent ∣ off.toNat)) s := by
  refine inode_bind (.ite (fun _ => .halt (by simp [Tolerated])) fun hdir => ?_)
  have hdir' := not_not.mp hdir
  refine .bind (scanDirents_spec (by decide) h hi hv hdir' (Nat.dvd_zero _)) ?_
  rintro ⟨off, found⟩ _ ⟨rfl, hdvd, hfound⟩
  cases found with
  | none => exact .pure ⟨hdir', Or.inl ⟨rfl, rfl⟩⟩
  | some de =>
    obtain ⟨-, hinum⟩ := hfound de rfl
    have hde : (UInt32.ofNat de.inum.toNat).toNat < sb.ninodes.toNat := by
      rwa [UInt32.toNat_ofNat_of_lt' (de.inum.toNat_lt.trans (by decide))]
    refine .bind (iget_spec h.tables hde) ?_
    rintro i t ⟨ht, hstore, -, hleaves⟩
    exact .pure ⟨hdir', Or.inr ⟨i, .ofNat off, rfl, Inv.of_store ⟨hstore ▸ h.log, h.ok, ht⟩ hstore, hleaves,
      dvd_toNat_ofNat hdvd⟩⟩

theorem dirlink_spec {inum : UInt32} (hsb : sb.Ordered) (h : Inv sb s (s.vol sb) I F) (hdp : dp ∈ I)
    (hv : (s.itable dp).valid = true) (hinum : inum.toNat < sb.ninodes.toNat) :
    Wp Tolerated (dirlink sb dp name inum) (fun _ t => Inv sb t (t.vol sb) I F ∧ Leaves s t I) s := by
  refine .bind (dirlookup_spec h (h.tables.ref_pos_of_mem hdp) hv) ?_
  rintro _ t ⟨hdir, ⟨rfl, rfl⟩ | ⟨i, off, rfl, ht, hleaves, -⟩⟩
  · have hi := h.tables.ref_pos_of_mem hdp
    refine inode_bind (.bind (scanDirents_spec (by decide) h hi hv hdir (Nat.dvd_zero _)) ?_)
    rintro ⟨off, _⟩ _ ⟨rfl, hdvd, -⟩
    have hde : (Dirent.named name inum).inum.toNat < sb.ninodes.toNat :=
      (UInt32.toNat_toUInt16 inum).trans_lt ((Nat.mod_le ..).trans_lt hinum)
    refine .bind (writei_spec hsb h hi hv fun _ => ⟨_, rfl, rfl, dvd_toNat_ofNat hdvd, hde⟩) fun _ u hu => .pure ⟨hu.1, hu.2 I⟩
  · refine .bind (iput_spec hsb ht) fun _ u hu => .pure ⟨hu.1, .trans (hleaves.mono fun j hj => ?_) hu.2⟩
    exact Multiset.mem_add.mpr (Or.inl hj)

theorem isdirempty_spec (h : Inv sb s (s.vol sb) I F) (hi : 0 < (s.itable dp).ref) (hv : (s.itable dp).valid = true)
    (hdir : (s.itable dp).type = T_DIR) : Wp Tolerated (isdirempty sb dp) (fun _ t => t = s) s :=
  inode_bind (.bind (scanDirents_spec (by decide) h hi hv hdir (Nat.dvd_mul_left ..)) fun _ _ ht => .pure ht.1)

/-! ### Paths -/

theorem namexFrom_spec {parent : Bool} (hsb : sb.Ordered) (h : Inv sb s (s.vol sb) (i ::ₘ I) F) :
    Wp Tolerated (namexFrom sb parent i path) (fun r t => Leaves s t I ∧ ((r = none ∧ Inv sb t (t.vol sb) I F) ∨
      ∃ k name, r = some (k, name) ∧ Inv sb t (t.vol sb) (k ::ₘ I) F)) s := by
  induction hlen : path.length using Nat.strong_induction_on generalizing s i path with
  | _ left ih =>
    rw [namexFrom]
    split
    · refine .ite (fun _ => ?_) fun _ => .pure ⟨.refl s I, Or.inr ⟨i, [], rfl, h⟩⟩
      exact .bind (iput_spec hsb h) fun _ t ht => .pure ⟨ht.2, Or.inl ⟨rfl, ht.1⟩⟩
    next name rest hskip =>
    have hrest : rest.length < left := hlen ▸ skipelem_length_lt hskip
    refine .bind (ilock_spec h (h.tables.ref_pos_of_mem (Multiset.mem_cons_self i I))) ?_
    rintro _ t ⟨ht, -, hv, hleaves⟩
    have hi := ht.tables.ref_pos_of_mem (Multiset.mem_cons_self i I)
    have hI : ∀ u, ∀ j ∈ I, j ∈ i ::ₘ I + u := fun u j hj =>
      Multiset.mem_add.mpr (Or.inl (Multiset.mem_cons_of_mem hj))
    have hleaves' : Leaves s t I := hleaves.mono (hI _)
    have hput : ∀ u, Inv sb u (u.vol sb) (i ::ₘ I) F → Leaves s u I → Wp Tolerated (do
        iunlockput sb i
        return none) (fun (r : Option (Fin NINODE × List UInt8)) t => Leaves s t I ∧ ((r = none ∧ Inv sb t (t.vol sb) I F) ∨
          ∃ k name, r = some (k, name) ∧ Inv sb t (t.vol sb) (k ::ₘ I) F)) u := fun u hu hs =>
      .bind (iunlockput_spec hsb hu) fun _ w hw => .pure ⟨hs.trans hw.2, Or.inl ⟨rfl, hw.1⟩⟩
    refine inode_bind (.ite (fun _ => hput t ht hleaves') fun _ => .ite (fun _ => ?_) fun _ => ?_)
    · refine .bind (iunlock_spec ht hi) ?_
      rintro _ u ⟨hu, hstore, -, hleaves''⟩
      exact .pure ⟨hleaves'.trans (hleaves''.mono (hI _)), Or.inr ⟨i, name, rfl, hu.of_store hstore⟩⟩
    · refine .bind (dirlookup_spec ht hi hv) ?_
      rintro _ u ⟨-, ⟨rfl, rfl⟩ | ⟨next, off, rfl, hu, hleaves'', -⟩⟩
      · exact hput u ht hleaves'
      · rw [Multiset.cons_swap] at hu
        refine .bind (iunlockput_spec hsb hu) ?_
        rintro _ w ⟨hw, hput'⟩
        have hsw : Leaves s w I :=
          (hleaves'.trans (hleaves''.mono (hI _))).trans (hput'.mono fun j hj => Multiset.mem_cons_of_mem hj)
        exact (ih _ hrest hw rfl).mono fun _ x hx => ⟨hsw.trans hx.1, hx.2⟩

theorem namex_spec {parent : Bool} {cwd : Fin NINODE} (hsb : sb.Ordered) (h : Inv sb s (s.vol sb) I F) (hcwd : cwd ∈ I) :
    Wp Tolerated (namex sb cwd path parent) (fun r t => Leaves s t I ∧ ((r = none ∧ Inv sb t (t.vol sb) I F) ∨
      ∃ k name, r = some (k, name) ∧ Inv sb t (t.vol sb) (k ::ₘ I) F)) s := by
  have hroot : ROOTINO.toNat < sb.ninodes.toNat := hsb.root
  have hI : ∀ u, ∀ j ∈ I, j ∈ I + u := fun u j hj => Multiset.mem_add.mpr (Or.inl hj)
  refine .ite (fun _ => .bind (iget_spec h.tables hroot) ?_) fun _ => .bind (idup_spec h.tables hcwd) ?_
  · rintro i t ⟨ht, hstore, -, hleaves⟩
    have hinv : Inv sb t (t.vol sb) (i ::ₘ I) F := Inv.of_store ⟨hstore ▸ h.log, h.ok, ht⟩ hstore
    exact (namexFrom_spec hsb hinv).mono fun _ u hu => ⟨(hleaves.mono (hI _)).trans hu.1, hu.2⟩
  · rintro i t ⟨rfl, ht, hstore, hleaves⟩
    have hinv : Inv sb t (t.vol sb) (i ::ₘ I) F := Inv.of_store ⟨hstore ▸ h.log, h.ok, ht⟩ hstore
    exact (namexFrom_spec hsb hinv).mono fun _ u hu => ⟨(hleaves.mono (hI _)).trans hu.1, hu.2⟩

theorem namei_spec {cwd : Fin NINODE} (hsb : sb.Ordered) (h : Inv sb s (s.vol sb) I F) (hcwd : cwd ∈ I) :
    Wp Tolerated (namei sb cwd path) (fun r t => Leaves s t I ∧ ((r = none ∧ Inv sb t (t.vol sb) I F) ∨
      ∃ k, r = some k ∧ Inv sb t (t.vol sb) (k ::ₘ I) F)) s := by
  refine .bind (namex_spec hsb h hcwd) ?_
  rintro _ t ⟨hleaves, ⟨rfl, ht⟩ | ⟨k, name, rfl, ht⟩⟩
  · exact .pure ⟨hleaves, Or.inl ⟨rfl, ht⟩⟩
  · exact .pure ⟨hleaves, Or.inr ⟨k, rfl, ht⟩⟩

end LabSO.Kernel

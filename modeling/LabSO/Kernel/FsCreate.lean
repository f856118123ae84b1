import LabSO.Kernel.FsDirectory
import LabSO.Kernel.Sysfile

/-! `create` keeps the invariant, also where it fails half-way and gives the new inode back. -/

namespace LabSO.Kernel
open Program Tokens

variable {sb : Superblock} {s t u : Fs} {I J : Multiset (Fin NINODE)} {F : Multiset (Fin NFILE)}
  {i ip dp : Fin NINODE} {name path : List UInt8} {type : Int16}

theorem mem_add_of_mem (hi : i ∈ I) : i ∈ I + J := Multiset.mem_add.mpr (Or.inl hi)

/-- Code that holds more references can rely on the same for those of its caller. -/
theorem Leaves.tail (h : Leaves s t (i ::ₘ I)) : Leaves s t I := h.mono fun _ => Multiset.mem_cons_of_mem

theorem Leaves.head (h : Leaves s t (i ::ₘ I)) : Kept s t i := h.kept i (Multiset.mem_cons_self i I)

theorem Leaves.left (h : Leaves s t (I + J)) : Leaves s t I := h.mono fun _ => mem_add_of_mem

theorem linkDots_spec (hsb : sb.Ordered) (h : Inv sb s (s.vol sb) I F) (hdp : dp ∈ I) (hip : ip ∈ I)
    (hv : (s.itable ip).valid = true) :
    Wp Tolerated (linkDots sb dp ip) (fun _ t => Inv sb t (t.vol sb) I F ∧ Leaves s t I) s := by
  refine inode_bind (.bind (dirlink_spec hsb h hip hv (h.tables.inum_lt ip (h.tables.ref_pos_of_mem hip))) ?_)
  rintro r t ⟨ht, hleaves⟩
  refine .ite (fun _ => .pure ⟨ht, hleaves⟩) fun _ => inode_bind ?_
  have hlt := ht.tables.inum_lt dp (ht.tables.ref_pos_of_mem hdp)
  exact (dirlink_spec hsb ht hip ((hleaves.kept ip hip).valid hv) hlt).mono fun _ u hu => ⟨hu.1, hleaves.trans hu.2⟩

theorem createFail_spec (hsb : sb.Ordered) (h : Inv sb s (s.vol sb) (ip ::ₘ dp ::ₘ I) F)
    (hv : (s.itable ip).valid = true) :
    Wp Tolerated (createFail sb dp ip) (fun r t => Leaves s t I ∧ r = none ∧ Inv sb t (t.vol sb) I F) s := by
  have hip := h.tables.ref_pos_of_mem (Multiset.mem_cons_self ip _)
  refine setFields_bind hsb h hip hv (fun _ => rfl) fun t ht hleaves => ?_
  refine .bind (iunlockput_spec hsb ht) fun _ u hu => ?_
  refine .bind (iunlockput_spec hsb hu.1) fun _ w hw => ?_
  exact .pure ⟨((hleaves I).trans hu.2.tail).trans hw.2, rfl, hw.1⟩

theorem createEntry_spec (hsb : sb.Ordered) (h : Inv sb s (s.vol sb) (ip ::ₘ dp ::ₘ I) F)
    (hip : (s.itable ip).valid = true) (hdp : (s.itable dp).valid = true) :
    Wp Tolerated (createEntry sb dp ip name type) (fun r t => Leaves s t I ∧ ((r = none ∧ Inv sb t (t.vol sb) I F) ∨
      r = some ip ∧ Inv sb t (t.vol sb) (ip ::ₘ I) F ∧ Kept s t ip)) s := by
  have hmem : dp ∈ ip ::ₘ dp ::ₘ I := Multiset.mem_cons_of_mem (Multiset.mem_cons_self dp I)
  have hlt := h.tables.inum_lt ip (h.tables.ref_pos_of_mem (Multiset.mem_cons_self ip _))
  refine inode_bind (.bind (dirlink_spec hsb h hmem hdp hlt) ?_)
  rintro r t ⟨ht, hleaves⟩
  have hdp' := (hleaves.kept dp hmem).valid hdp
  refine .ite (fun _ => ?_) fun _ => .bind (P := fun _ u => Inv sb u (u.vol sb) (ip ::ₘ dp ::ₘ I) F ∧
    Leaves t u (ip ::ₘ I)) (.onlyIf (fun _ => ?_) fun _ => ⟨ht, .refl ..⟩) ?_
  · refine (createFail_spec hsb ht (hleaves.head.valid hip)).mono ?_
    rintro r u ⟨hleaves', rfl, hu⟩
    exact ⟨hleaves.tail.tail.trans hleaves', Or.inl ⟨rfl, hu⟩⟩
  · have hpos := ht.tables.ref_pos_of_mem hmem
    exact (setFields_spec hsb ht hpos hdp' fun _ => rfl).mono fun _ u hu => ⟨hu.1, hu.2 _⟩
  · rintro _ u ⟨hu, hleaves'⟩
    rw [Multiset.cons_swap] at hu
    refine .bind (iunlockput_spec hsb hu) fun _ w hw => .pure ⟨?_, Or.inr ⟨rfl, hw.1, ?_⟩⟩
    · exact (hleaves.tail.tail.trans hleaves'.tail).trans hw.2.tail
    · exact (hleaves.head.trans hleaves'.head).trans hw.2.head

theorem create_spec {cwd : Fin NINODE} {major minor : Int16} (hsb : sb.Ordered) (h : Inv sb s (s.vol sb) I F)
    (hcwd : cwd ∈ I) :
    Wp Tolerated (create sb cwd path type major minor) (fun r t => Leaves s t I ∧ ((r = none ∧ Inv sb t (t.vol sb) I F) ∨
      ∃ ip, r = some ip ∧ Inv sb t (t.vol sb) (ip ::ₘ I) F ∧ (t.itable ip).valid = true ∧
        (type = T_FILE → (t.itable ip).type ≠ T_DIR))) s := by
  refine .bind (namex_spec hsb h hcwd) ?_
  rintro _ t ⟨hst, ⟨rfl, ht⟩ | ⟨dp, name, rfl, ht⟩⟩
  · exact .pure ⟨hst, Or.inl ⟨rfl, ht⟩⟩
  refine .bind (ilock_spec ht (ht.tables.ref_pos_of_mem (Multiset.mem_cons_self dp I))) ?_
  rintro _ u ⟨hu, -, hdp, htu⟩
  have hsu := hst.trans htu.left.tail
  refine .bind (dirlookup_spec hu (hu.tables.ref_pos_of_mem (Multiset.mem_cons_self dp I)) hdp) ?_
  rintro _ w ⟨-, ⟨rfl, rfl⟩ | ⟨ip, off, rfl, hw, huw, -⟩⟩
  · refine .bind (ialloc_spec hsb hu) ?_
    rintro _ w (⟨rfl, rfl⟩ | ⟨ip, rfl, hw, hnew, huw⟩)
    · exact .bind (iunlockput_spec hsb hu) fun _ x hx => .pure ⟨hsu.trans hx.2, Or.inl ⟨rfl, hx.1⟩⟩
    have hmem : ip ∈ ip ::ₘ dp ::ₘ I := Multiset.mem_cons_self ip _
    refine .bind (ilock_spec hw (hw.tables.ref_pos_of_mem hmem)) ?_
    rintro _ x ⟨hx, hstore, hip, hwx⟩
    have hpos := hx.tables.ref_pos_of_mem hmem
    have htypex : (x.itable ip).type = type := by
      have hvol : x.vol sb = w.vol sb := by rw [Fs.vol, hstore, Fs.vol]
      have hdinode := (hx.tables.cached ip hpos hip).1
      rw [hvol, (hwx.left.kept ip hmem).inum] at hdinode
      exact (congrArg Dinode.type hdinode).trans hnew
    refine setFields_bind hsb hx hpos hip (fun _ => rfl) fun y hy hxy => ?_
    have hwy := hwx.left.trans (hxy _)
    have hsy : Leaves s y I := (hsu.trans huw.left.tail).trans hwy.tail.tail
    have hdpy := hwy.tail.head.valid (huw.left.head.valid hdp)
    have hentry : ∀ z, Inv sb z (z.vol sb) (ip ::ₘ dp ::ₘ I) F → Leaves y z (ip ::ₘ dp ::ₘ I) →
        Wp Tolerated (createEntry sb dp ip name type) (fun r t => Leaves s t I ∧ ((r = none ∧ Inv sb t (t.vol sb) I F) ∨
          ∃ ip, r = some ip ∧ Inv sb t (t.vol sb) (ip ::ₘ I) F ∧ (t.itable ip).valid = true ∧
            (type = T_FILE → (t.itable ip).type ≠ T_DIR))) z := by
      intro z hz hyz
      have hkept := ((hxy _).kept ip hmem).trans hyz.head
      refine (createEntry_spec hsb hz (hkept.valid hip) (hyz.tail.head.valid hdpy)).mono ?_
      rintro r a ⟨hza, ⟨rfl, ha⟩ | ⟨rfl, ha, hkept'⟩⟩
      · exact ⟨(hsy.trans hyz.tail.tail).trans hza, Or.inl ⟨rfl, ha⟩⟩
      · refine ⟨(hsy.trans hyz.tail.tail).trans hza, Or.inr ⟨ip, rfl, ha, (hkept.trans hkept').valid hip, ?_⟩⟩
        rintro rfl
        rw [(hkept.trans hkept').type hip, htypex]
        decide
    refine .ite (fun _ => ?_) fun _ => hentry y hy (.refl ..)
    have hmemdp : dp ∈ ip ::ₘ dp ::ₘ I := Multiset.mem_cons_of_mem (Multiset.mem_cons_self dp I)
    refine .bind (linkDots_spec hsb hy hmemdp hmem (((hxy _).kept ip hmem).valid hip)) ?_
    rintro r z ⟨hz, hyz⟩
    refine .ite (fun _ => ?_) fun _ => hentry z hz hyz
    refine (createFail_spec hsb hz (hyz.head.valid (((hxy _).kept ip hmem).valid hip))).mono ?_
    rintro _ a ⟨hza, rfl, ha⟩
    exact ⟨(hsy.trans hyz.tail.tail).trans hza, Or.inl ⟨rfl, ha⟩⟩
  · rw [Multiset.cons_swap] at hw
    refine .bind (iunlockput_spec hsb hw) ?_
    rintro _ x ⟨hx, hwx⟩
    refine .bind (ilock_spec hx (hx.tables.ref_pos_of_mem (Multiset.mem_cons_self ip I))) ?_
    rintro _ y ⟨hy, -, hip, hxy⟩
    have hsy : Leaves s y I := ((hsu.trans huw.left.tail).trans hwx.tail).trans hxy.left.tail
    refine inode_bind (.ite (fun hfile => .pure ⟨hsy, Or.inr ⟨ip, rfl, hy, hip, fun _ => ?_⟩⟩) fun _ => ?_)
    · rcases hfile.2 with heq | heq
      · rw [heq]
        decide
      · rw [heq]
        decide
    · exact .bind (iunlockput_spec hsb hy) fun _ z hz => .pure ⟨hsy.trans hz.2, Or.inl ⟨rfl, hz.1⟩⟩

end LabSO.Kernel

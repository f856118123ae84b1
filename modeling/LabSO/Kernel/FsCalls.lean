import LabSO.Kernel.FsFiles

/-! The system calls that change neither the open files nor the current directory of a process keep the invariant, also
    where they fail half-way. -/

namespace LabSO.Kernel
open Program Tokens

variable {sb : Superblock} {s t u : Fs} {I J : Multiset (Fin NINODE)} {F : Multiset (Fin NFILE)}
  {i ip dp : Fin NINODE} {f : Fin NFILE} {pr : FsProc} {mem : UserMem}

/-- No operation is under way any more, and the processes hold what they held in `s`. -/
def Settled (sb : Superblock) (s : Fs) (I : Multiset (Fin NINODE)) (F : Multiset (Fin NFILE)) (t : Fs) : Prop :=
  Between sb t I F ∧ t.proc = s.proc

theorem failOp_spec (hsb : sb.Ordered) (h : Inv sb t (t.vol sb) I F) (hproc : t.proc = s.proc) :
    Wp Tolerated failOp (fun _ => Settled sb s I F) t :=
  .bind (endOp_spec' hsb h) fun _ _ hu => .pure ⟨hu.1, hu.2.2.2.trans hproc⟩

theorem endOp_settles (hsb : sb.Ordered) (h : Inv sb t (t.vol sb) I F) (hproc : t.proc = s.proc) (r : Int) :
    Wp Tolerated (do
      onStore endOp
      return r) (fun _ => Settled sb s I F) t :=
  .bind (endOp_spec' hsb h) fun _ _ hu => .pure ⟨hu.1, hu.2.2.2.trans hproc⟩

/-- An operation that ends with a locked inode. -/
theorem putOp_spec (hsb : sb.Ordered) (h : Inv sb t (t.vol sb) (ip ::ₘ I) F) (hproc : t.proc = s.proc) :
    Wp Tolerated (do
      iunlockput sb ip
      failOp) (fun _ => Settled sb s I F) t :=
  .bind (iunlockput_spec hsb h) fun _ _ hu => failOp_spec hsb hu.1 (hu.2.proc.trans hproc)

/-! ### Links -/

theorem linkBad_spec (hsb : sb.Ordered) (h : Inv sb t (t.vol sb) (ip ::ₘ I) F) (hproc : t.proc = s.proc) :
    Wp Tolerated (linkBad sb ip) (fun _ => Settled sb s I F) t := by
  refine .bind (ilock_spec h (h.tables.ref_pos_of_mem (Multiset.mem_cons_self ip I))) ?_
  rintro _ u ⟨hu, -, hip, htu⟩
  refine setFields_bind hsb hu (hu.tables.ref_pos_of_mem (Multiset.mem_cons_self ip I)) hip (fun _ => rfl) fun w hw huw => ?_
  exact putOp_spec hsb hw (((huw 0).proc.trans htu.proc).trans hproc)

theorem sysLink_spec {old new : UInt64} (hsb : sb.Ordered) (h : Between sb s I F) (hcwd : pr.cwd ∈ I) :
    Wp Tolerated (sysLink sb pr mem old new) (fun _ => Settled sb s I F) s := by
  unfold sysLink
  split
  · next old new _ _ =>
    refine beginOp_bind h fun store hbegin => .bind (namei_spec hsb hbegin hcwd) ?_
    rintro _ t ⟨hst, ⟨rfl, ht⟩ | ⟨ip, rfl, ht⟩⟩
    · exact failOp_spec hsb ht hst.proc
    have hmem : ∀ J : Multiset (Fin NINODE), ip ∈ ip ::ₘ J := Multiset.mem_cons_self ip
    refine .bind (ilock_spec ht (ht.tables.ref_pos_of_mem (hmem I))) ?_
    rintro _ u ⟨hu, -, hip, htu⟩
    have hsu : u.proc = s.proc := htu.proc.trans hst.proc
    refine inode_bind (.ite (fun _ => putOp_spec hsb hu hsu) fun _ => ?_)
    refine setFields_bind hsb hu (hu.tables.ref_pos_of_mem (hmem I)) hip (fun _ => rfl) fun v hv huv => ?_
    refine .bind (iunlock_spec hv (hv.tables.ref_pos_of_mem (hmem I))) ?_
    rintro _ w ⟨hw, hstore, -, hvw⟩
    have hsw : w.proc = s.proc := (hvw.proc.trans (huv 0).proc).trans hsu
    refine .bind (namex_spec hsb (hw.of_store hstore) (Multiset.mem_cons_of_mem hcwd)) ?_
    rintro _ x ⟨hwx, ⟨rfl, hx⟩ | ⟨dp, name, rfl, hx⟩⟩
    · exact linkBad_spec hsb hx (hwx.proc.trans hsw)
    refine .bind (ilock_spec hx (hx.tables.ref_pos_of_mem (Multiset.mem_cons_self dp _))) ?_
    rintro _ y ⟨hy, -, hdp, hxy⟩
    have hlt := hy.tables.inum_lt ip (hy.tables.ref_pos_of_mem (Multiset.mem_cons_of_mem (hmem I)))
    refine inode_bind (.bind (dirlink_spec hsb hy (Multiset.mem_cons_self dp _) hdp hlt) ?_)
    rintro r z ⟨hz, hyz⟩
    have hsz : z.proc = s.proc := (hyz.proc.trans hxy.proc).trans (hwx.proc.trans hsw)
    refine .ite (fun _ => ?_) fun _ => ?_
    · exact .bind (iunlockput_spec hsb hz) fun _ a ha => linkBad_spec hsb ha.1 (ha.2.proc.trans hsz)
    · refine .bind (iunlockput_spec hsb hz) fun _ a ha => .bind (iput_spec hsb ha.1) fun _ b hb => ?_
      exact endOp_settles hsb hb.1 ((hb.2.proc.trans ha.2.proc).trans hsz) 0
  · exact .pure ⟨h, rfl⟩

/-! ### Removal -/

theorem unlinkable_spec (h : Inv sb s (s.vol sb) I F) (hi : 0 < (s.itable ip).ref) (hv : (s.itable ip).valid = true) :
    Wp Tolerated (unlinkable sb ip) (fun _ t => t = s) s :=
  inode_bind (.ite (fun hdir => isdirempty_spec h hi hv hdir) fun _ => .pure rfl)

theorem unlinkEntry_spec {off : UInt32} (hsb : sb.Ordered) (h : Inv sb t (t.vol sb) (ip ::ₘ dp ::ₘ I) F)
    (hip : (t.itable ip).valid = true) (hdp : (t.itable dp).valid = true) (hoff : sizeofDirent ∣ off.toNat)
    (hproc : t.proc = s.proc) : Wp Tolerated (unlinkEntry sb dp ip off) (fun _ => Settled sb s I F) t := by
  have hmem : dp ∈ ip ::ₘ dp ::ₘ I := Multiset.mem_cons_of_mem (Multiset.mem_cons_self dp I)
  have hzero : Dirent.zero.inum.toNat < sb.ninodes.toNat := (Nat.zero_le _).trans_lt hsb.root
  refine .bind (writei_spec hsb h (h.tables.ref_pos_of_mem hmem) hdp fun _ => ⟨_, rfl, rfl, hoff, hzero⟩) ?_
  rintro r u ⟨hu, htu⟩
  refine .ite (fun _ => .halt (by simp [Tolerated])) fun _ => inode_bind ?_
  have hipu := ((htu _).head (I := I)).valid hip
  have hdpu := ((htu _).head (I := I)).valid hdp
  refine .bind (P := fun _ v => Inv sb v (v.vol sb) (ip ::ₘ dp ::ₘ I) F ∧ ∀ J, Leaves u v J) (.onlyIf (fun _ => ?_)
    fun _ => ⟨hu, .refl u⟩) ?_
  · exact setFields_spec hsb hu (hu.tables.ref_pos_of_mem hmem) hdpu fun _ => rfl
  rintro _ v ⟨hv, huv⟩
  have hipv := ((huv _).head (I := I)).valid hipu
  rw [Multiset.cons_swap] at hv
  refine .bind (iunlockput_spec hsb hv) ?_
  rintro _ w ⟨hw, hvw⟩
  have hsw : w.proc = s.proc := (hvw.proc.trans (huv 0).proc).trans ((htu 0).proc.trans hproc)
  have hpos := hw.tables.ref_pos_of_mem (Multiset.mem_cons_self ip I)
  refine setFields_bind hsb hw hpos (hvw.head.valid hipv) (fun _ => rfl) fun x hx hwx => ?_
  refine .bind (iunlockput_spec hsb hx) fun _ y hy => ?_
  exact endOp_settles hsb hy.1 ((hy.2.proc.trans (hwx 0).proc).trans hsw) 0

theorem sysUnlink_spec {path : UInt64} (hsb : sb.Ordered) (h : Between sb s I F) (hcwd : pr.cwd ∈ I) :
    Wp Tolerated (sysUnlink sb pr mem path) (fun _ => Settled sb s I F) s := by
  unfold sysUnlink
  split
  · exact .pure ⟨h, rfl⟩
  next path _ =>
  refine beginOp_bind h fun store hbegin => .bind (namex_spec hsb hbegin hcwd) ?_
  rintro _ t ⟨hst, ⟨rfl, ht⟩ | ⟨dp, name, rfl, ht⟩⟩
  · exact failOp_spec hsb ht hst.proc
  refine .bind (ilock_spec ht (ht.tables.ref_pos_of_mem (Multiset.mem_cons_self dp I))) ?_
  rintro _ u ⟨hu, -, hdp, htu⟩
  have hsu : u.proc = s.proc := htu.proc.trans hst.proc
  have hpos := hu.tables.ref_pos_of_mem (Multiset.mem_cons_self dp I)
  refine .ite (fun _ => putOp_spec hsb hu hsu) fun _ => .bind (dirlookup_spec hu hpos hdp) ?_
  rintro _ w ⟨-, ⟨rfl, rfl⟩ | ⟨ip, off, rfl, hw, huw, hoff⟩⟩
  · exact putOp_spec hsb hu hsu
  have hmem : ip ∈ ip ::ₘ dp ::ₘ I := Multiset.mem_cons_self ip _
  refine .bind (ilock_spec hw (hw.tables.ref_pos_of_mem hmem)) ?_
  rintro _ x ⟨hx, -, hip, hwx⟩
  have hsx : x.proc = s.proc := (hwx.proc.trans huw.proc).trans hsu
  have hdpx : (x.itable dp).valid = true := hwx.left.tail.head.valid (huw.left.head.valid hdp)
  refine inode_bind (.ite (fun _ => .halt (by simp [Tolerated])) fun _ => ?_)
  refine .bind (unlinkable_spec hx (hx.tables.ref_pos_of_mem hmem) hip) ?_
  rintro ok _ rfl
  refine .ite (fun _ => unlinkEntry_spec hsb hx hip hdpx hoff hsx) fun _ => ?_
  exact .bind (iunlockput_spec hsb hx) fun _ y hy => putOp_spec hsb hy.1 (hy.2.proc.trans hsx)

/-! ### Creation -/

theorem putCreated_spec {new : Option (Fin NINODE)} (hsb : sb.Ordered)
    (h : (new = none ∧ Inv sb t (t.vol sb) I F) ∨ ∃ ip, new = some ip ∧ Inv sb t (t.vol sb) (ip ::ₘ I) F)
    (hproc : t.proc = s.proc) : Wp Tolerated (putCreated sb new) (fun _ => Settled sb s I F) t := by
  rcases h with ⟨rfl, ht⟩ | ⟨ip, rfl, ht⟩
  · exact failOp_spec hsb ht hproc
  · exact .bind (iunlockput_spec hsb ht) fun _ u hu => endOp_settles hsb hu.1 (hu.2.proc.trans hproc) 0

theorem createPut_spec {path : List UInt8} {type major minor : Int16} (hsb : sb.Ordered) (h : Inv sb t (t.vol sb) I F)
    (hcwd : pr.cwd ∈ I) (hproc : t.proc = s.proc) :
    Wp Tolerated (do
      let new ← create sb pr.cwd path type major minor
      putCreated sb new) (fun _ => Settled sb s I F) t := by
  refine .bind (create_spec hsb h hcwd) ?_
  rintro new u ⟨htu, hnew⟩
  refine putCreated_spec hsb (hnew.imp_right ?_) (htu.proc.trans hproc)
  exact fun ⟨ip, hnew, hu, _⟩ => ⟨ip, hnew, hu⟩

theorem sysMkdir_spec {path : UInt64} (hsb : sb.Ordered) (h : Between sb s I F) (hcwd : pr.cwd ∈ I) :
    Wp Tolerated (sysMkdir sb pr mem path) (fun _ => Settled sb s I F) s := by
  refine beginOp_bind h fun store hbegin => ?_
  split
  · exact failOp_spec hsb hbegin rfl
  · exact createPut_spec hsb hbegin hcwd rfl

theorem sysMknod_spec {path : UInt64} {major minor : Int32} (hsb : sb.Ordered) (h : Between sb s I F) (hcwd : pr.cwd ∈ I) :
    Wp Tolerated (sysMknod sb pr mem path major minor) (fun _ => Settled sb s I F) s := by
  refine beginOp_bind h fun store hbegin => ?_
  split
  · exact failOp_spec hsb hbegin rfl
  · exact createPut_spec hsb hbegin hcwd rfl

/-! ### Writing -/

/-- A file that can be written is no directory. -/
theorem Tables.type_ne_dir {ino : UInt32 → Dinode} (h : Tables sb s ino I F) (htype : (s.ftable f).type = .inode)
    (hw : (s.ftable f).writable = true) : 0 < (s.itable (s.ftable f).ip).ref ∧ (s.itable (s.ftable f).ip).valid = true ∧
      (s.itable (s.ftable f).ip).type ≠ T_DIR := by
  have hip : (s.ftable f).inode? = some (s.ftable f).ip := inode?_of_ne (by rw [htype]; rintro ⟨⟩)
  have hpos := h.ref_pos_of_opens (mem_opens.mpr ⟨f, hip⟩)
  have hv := h.opened f _ hip
  refine ⟨hpos, hv, fun hdir => h.notDir f htype hw ?_⟩
  rw [← (h.cached _ hpos hv).1]
  exact hdir

theorem filewriteOp_spec {addr : UInt64} {n k : Nat} (hsb : sb.Ordered) (h : Inv sb s (s.vol sb) I F)
    (htype : (s.ftable f).type = .inode) (hw : (s.ftable f).writable = true) :
    Wp Tolerated (filewriteOp sb f mem addr n k) (fun _ t => Inv sb t (t.vol sb) I F ∧ t.proc = s.proc ∧
      ∃ off, t.ftable f = { s.ftable f with off }) s := by
  refine file_bind ?_
  obtain ⟨hpos, -, -⟩ := h.tables.type_ne_dir htype hw
  refine .bind (ilock_spec h hpos) ?_
  rintro _ t ⟨ht, -, hv, hst⟩
  have hfile : t.ftable f = s.ftable f := congrFun hst.ftable f
  obtain ⟨hpos, -, hdir⟩ := ht.tables.type_ne_dir (hfile ▸ htype) (hfile ▸ hw)
  rw [hfile] at hpos hdir
  refine .bind (writei_spec hsb ht hpos hv fun hd => absurd hd hdir) ?_
  rintro r u ⟨hu, htu⟩
  have hfile' : u.ftable f = s.ftable f := (congrFun (htu 0).ftable f).trans hfile
  have hproc : u.proc = s.proc := (htu 0).proc.trans hst.proc
  refine .bind (P := fun _ v => Inv sb v (v.vol sb) I F ∧ v.proc = s.proc ∧ ∃ off, v.ftable f = { s.ftable f with off })
    (.onlyIf (fun _ => .liftState ⟨⟨hu.log, hu.ok, ?_⟩, hproc, ?_⟩) fun _ => ⟨hu, hproc, _, hfile'⟩) ?_
  · exact hu.tables.setFile rfl (hu.tables.frefs f) (fun _ _ => rfl) (hu.tables.idle f) (fun i => hu.tables.opened f i)
      (hu.tables.notDir f)
  · exact ⟨_, (Fs.ftable_setFile_self ..).trans (by rw [hfile'])⟩
  rintro _ v ⟨hv, hsv, off, hoff⟩
  obtain ⟨hpos, -, -⟩ := hv.tables.type_ne_dir (f := f) (by rw [hoff]; exact htype) (by rw [hoff]; exact hw)
  rw [hoff] at hpos
  refine .bind (iunlock_spec hv hpos) ?_
  rintro _ w ⟨hw, hstore, -, hvw⟩
  exact .pure ⟨hw.of_store hstore, hvw.proc.trans hsv, off, (congrFun hvw.ftable f).trans hoff⟩

theorem filewriteFrom_spec {addr : UInt64} {n k : Nat} (hsb : sb.Ordered) (h : Between sb t I F)
    (htype : (t.ftable f).type = .inode) (hw : (t.ftable f).writable = true) (hproc : t.proc = s.proc) :
    Wp Tolerated (filewriteFrom sb f mem addr n k) (fun _ => Settled sb s I F) t := by
  induction hleft : n - k using Nat.strong_induction_on generalizing k t with
  | _ left ih =>
    rw [filewriteFrom_eq]
    refine .ite (fun hlt => beginOp_bind h fun store hbegin => ?_) fun _ => .pure ⟨h, hproc⟩
    refine .bind (filewriteOp_spec hsb hbegin htype hw) ?_
    rintro r u ⟨hu, htu, off, hoff⟩
    refine .bind (endOp_spec' hsb hu) ?_
    rintro _ v ⟨hv, -, hftable, huv⟩
    have hfile : v.ftable f = { t.ftable f with off } := (congrFun hftable f).trans hoff
    have hsv : v.proc = s.proc := (huv.trans htu).trans hproc
    have hpos : 0 < maxWrite := by decide
    refine .ite (fun _ => .pure ⟨hv, hsv⟩) fun _ => ih _ ?_ hv (by rw [hfile]; exact htype) (by rw [hfile]; exact hw) hsv rfl
    omega

theorem sysWrite_spec {fd n : Int32} {addr : UInt64} (hsb : sb.Ordered) (h : Between sb s I F) :
    Wp Tolerated (sysWrite sb pr mem fd addr n) (fun _ => Settled sb s I F) s := by
  unfold sysWrite
  split
  · exact .pure ⟨h, rfl⟩
  next f _ =>
  refine file_bind (.ite (fun _ => .pure ⟨h, rfl⟩) fun hw => ?_)
  have hw' : (s.ftable f).writable = true := by simpa using hw
  split
  · exact .ite (fun _ => .pure ⟨h, rfl⟩) fun _ => .pure ⟨h, rfl⟩
  · next htype => exact .bind (filewriteFrom_spec hsb h htype hw' rfl) fun _ _ ht => .pure ht
  · exact .halt (by simp [Tolerated])

end LabSO.Kernel

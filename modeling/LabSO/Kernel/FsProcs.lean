import LabSO.Kernel.FsCalls

/-! Between system calls, the references to inodes and to files are those that open files and processes hold. System calls
    that change what a process holds keep this. -/

namespace LabSO.Kernel
open Program Tokens

variable {sb : Superblock} {s t u : Fs} {I J : Multiset (Fin NINODE)} {F G : Multiset (Fin NFILE)}
  {i ip : Fin NINODE} {f : Fin NFILE} {p : Fin NPROC} {pr : FsProc} {mem : UserMem}

/-! ### What processes hold -/

section
variable {κ : Type} {g : FsProc → Multiset κ}

/-- What all processes hold together. -/
def Fs.held (s : Fs) (g : FsProc → Multiset κ) : Multiset κ := ∑ p, (s.proc p).elim 0 g

theorem Fs.held_congr (h : t.proc = s.proc) : t.held g = s.held g := by rw [held, h, held]

theorem Fs.held_setProc (s : Fs) (p : Fin NPROC) (x : Option FsProc) :
    (s.setProc p x).held g + (s.proc p).elim 0 g = s.held g + x.elim 0 g := by
  have hupdate : (fun q => ((s.setProc p x).proc q).elim 0 g) =
      Function.update (fun q => (s.proc q).elim 0 g) p (x.elim 0 g) := by
    funext q
    by_cases hq : q = p
    · subst hq
      simp [setProc]
    · simp [setProc, hq]
  rw [held, hupdate]
  exact sum_update (fun q => (s.proc q).elim 0 g) p (x.elim 0 g)

end

/-- The references that current directories are. -/
def Fs.cwds (s : Fs) : Multiset (Fin NINODE) := s.held fun pr => {pr.cwd}

/-- The references that file descriptors are. -/
def Fs.fds (s : Fs) : Multiset (Fin NFILE) := s.held fun pr => gather pr.ofile

/-- Nothing is under way, and only processes refer to files, and only they and open files to inodes. -/
def Steady (sb : Superblock) (s : Fs) : Prop := Between sb s s.cwds s.fds

theorem Settled.steady (h : Settled sb s s.cwds s.fds t) : Steady sb t := by
  have hcwds : t.cwds = s.cwds := Fs.held_congr h.2
  have hfds : t.fds = s.fds := Fs.held_congr h.2
  rw [Steady, hcwds, hfds]
  exact h.1

theorem cwd_mem (hp : s.proc p = some pr) : pr.cwd ∈ s.cwds :=
  Multiset.mem_sum.mpr ⟨p, Finset.mem_univ p, by rw [hp]; exact Multiset.mem_singleton_self _⟩

/-! ### Updates of a process -/

@[simp] theorem Fs.proc_setProc_self (s : Fs) (p : Fin NPROC) (x : Option FsProc) : (s.setProc p x).proc p = x :=
  Function.update_self ..

theorem Inv.setProc {V : Volume} {x : Option FsProc} (h : Inv sb s V I F) : Inv sb (s.setProc p x) V I F :=
  ⟨h.log, h.ok, h.tables.congr rfl rfl⟩

theorem Between.setProc {x : Option FsProc} (h : Between sb s I F) : Between sb (s.setProc p x) I F :=
  ⟨h.quiet, h.ok, h.tables.congr rfl rfl⟩

/-- The process changes a descriptor. -/
def Fs.setFd (s : Fs) (p : Fin NPROC) (pr : FsProc) (fd : Fin NOFILE) (o : Option (Fin NFILE)) : Fs :=
  s.setProc p (some { pr with ofile := Function.update pr.ofile fd o })

theorem Fs.fds_setFd {fd : Fin NOFILE} (hp : s.proc p = some pr) (o : Option (Fin NFILE)) :
    (s.setFd p pr fd o).fds + token (pr.ofile fd) = s.fds + token o := by
  have hset := s.held_setProc (g := fun pr => gather pr.ofile) p (some { pr with ofile := Function.update pr.ofile fd o })
  rw [hp] at hset
  simp only [Option.elim_some] at hset
  rw [gather_eq pr.ofile fd, gather_update pr.ofile fd o, ← add_assoc, ← add_assoc] at hset
  exact add_right_cancel hset

theorem Fs.cwds_setFd {fd : Fin NOFILE} {o : Option (Fin NFILE)} (hp : s.proc p = some pr) :
    (s.setFd p pr fd o).cwds = s.cwds := by
  have hset := s.held_setProc (g := fun pr => {pr.cwd}) p (some { pr with ofile := Function.update pr.ofile fd o })
  rw [hp] at hset
  exact add_right_cancel hset

section
variable {β : Type} {ok : Stop → Prop} {k : Unit → FsProg β} {R : β → Fs → Prop} {c : FsProc → FsProc}

theorem modifyProc_bind (hp : s.proc p = some pr) (h : Wp ok (k ()) R (s.setProc p (some (c pr)))) :
    Wp ok (modifyProc p c >>= k) R s := by
  refine .liftState_bind ?_
  rw [hp]
  exact h

end

theorem fdalloc_spec (hp : s.proc p = some pr) :
    Wp Tolerated (fdalloc p pr f) (fun r t => (r = none ∧ t = s) ∨
      ∃ fd, r = some fd ∧ pr.ofile fd = none ∧ t = s.setFd p pr fd (some f)) s := by
  unfold fdalloc
  split
  · exact .pure (Or.inl ⟨rfl, rfl⟩)
  · next fd hfind =>
    have hnone : pr.ofile fd = none := by simpa using List.find?_some hfind
    exact modifyProc_bind hp (.pure (Or.inr ⟨fd, rfl, hnone, rfl⟩))

theorem argfd_eq {n : Int32} {fd : Fin NOFILE} (h : argfd pr n = some (fd, f)) : pr.ofile fd = some f := by
  unfold argfd at h
  split at h
  · obtain ⟨f', hf, heq⟩ := Option.map_eq_some_iff.mp h
    obtain ⟨rfl, rfl⟩ := Prod.mk.inj heq
    exact hf
  · cases h

/-! ### Descriptors -/

/-- The file of a descriptor that is cleared has one reference that no process holds. -/
theorem Fs.fds_clear {fd : Fin NOFILE} (hp : s.proc p = some pr) (hf : pr.ofile fd = some f) :
    s.fds = f ::ₘ (s.setFd p pr fd none).fds := by
  have hset : (s.setFd p pr fd none).fds + token (pr.ofile fd) = s.fds + token none := Fs.fds_setFd hp none
  rw [hf, token_some, token_none, add_zero] at hset
  rw [← hset, add_comm, Multiset.singleton_add]

theorem Fs.fds_fill {fd : Fin NOFILE} (hp : s.proc p = some pr) (hnone : pr.ofile fd = none) :
    (s.setFd p pr fd (some f)).fds = f ::ₘ s.fds := by
  have hset : (s.setFd p pr fd (some f)).fds + token (pr.ofile fd) = s.fds + token (some f) := Fs.fds_setFd hp (some f)
  rwa [hnone, token_some, token_none, add_zero, add_comm, Multiset.singleton_add] at hset

theorem sysClose_spec {fd : Int32} (hsb : sb.Ordered) (h : Steady sb s) (hp : s.proc p = some pr) :
    Wp Tolerated (sysClose sb p pr fd) (fun _ => Steady sb) s := by
  unfold sysClose
  split
  · exact .pure h
  next fd f hargfd =>
  let t := s.setFd p pr fd none
  have ht : Between sb t t.cwds (f ::ₘ t.fds) := by
    rw [← Fs.fds_clear hp (argfd_eq hargfd), Fs.cwds_setFd hp]
    exact Between.setProc h
  refine modifyProc_bind hp (.bind (fileclose_spec hsb ht) fun _ u hu => .pure ?_)
  exact Settled.steady hu

theorem sysDup_spec {fd : Int32} (h : Steady sb s) (hp : s.proc p = some pr) :
    Wp Tolerated (sysDup p pr fd) (fun _ => Steady sb) s := by
  unfold sysDup
  split
  · exact .pure h
  next fd f _ =>
  refine .bind (fdalloc_spec hp) ?_
  rintro _ t (⟨rfl, rfl⟩ | ⟨new, rfl, hnone, rfl⟩)
  · exact .pure h
  refine .bind (filedup_spec (Between.setProc h).tables) ?_
  rintro _ u ⟨hu, hstore, hproc⟩
  rw [← Fs.fds_fill hp hnone, ← Fs.cwds_setFd hp] at hu
  have hvol : u.vol sb = s.vol sb := by
    rw [Fs.vol, hstore]
    rfl
  refine .pure (Settled.steady ⟨⟨hstore ▸ h.quiet, hvol ▸ h.ok, ?_⟩, hproc⟩)
  rw [hvol]
  exact hu

/-! ### Opening -/

theorem openInode_spec {cwd : Fin NINODE} {path : List UInt8} {omode : Int32} (hsb : sb.Ordered)
    (h : Inv sb s (s.vol sb) I F) (hcwd : cwd ∈ I) :
    Wp Tolerated (openInode sb cwd path omode) (fun r t => Leaves s t I ∧ ((r = none ∧ Inv sb t (t.vol sb) I F) ∨
      ∃ ip, r = some ip ∧ Inv sb t (t.vol sb) (ip ::ₘ I) F ∧ (t.itable ip).valid = true ∧
        (omode ≠ O_RDONLY → (t.itable ip).type ≠ T_DIR))) s := by
  refine .ite (fun _ => (create_spec hsb h hcwd).mono ?_) fun _ => .bind (namei_spec hsb h hcwd) ?_
  · rintro r t ⟨hst, hr⟩
    exact ⟨hst, hr.imp_right fun ⟨ip, hip, ht, hv, htype⟩ => ⟨ip, hip, ht, hv, fun _ => htype rfl⟩⟩
  rintro _ t ⟨hst, ⟨rfl, ht⟩ | ⟨ip, rfl, ht⟩⟩
  · exact .pure ⟨hst, Or.inl ⟨rfl, ht⟩⟩
  refine .bind (ilock_spec ht (ht.tables.ref_pos_of_mem (Multiset.mem_cons_self ip I))) ?_
  rintro _ u ⟨hu, -, hv, htu⟩
  have hsu := hst.trans htu.left.tail
  refine inode_bind (.ite (fun _ => ?_) fun hmode => .pure ⟨hsu, Or.inr ⟨ip, rfl, hu, hv, fun hne hdir => ?_⟩⟩)
  · exact .bind (iunlockput_spec hsb hu) fun _ w hw => .pure ⟨hsu.trans hw.2, Or.inl ⟨rfl, hw.1⟩⟩
  · exact hmode ⟨hdir, hne⟩

section
variable {fp : File} {x : Inode} {omode : Int32}

/-- A file that can be written was not opened for reading only. -/
theorem File.opened_writable (hw : (fp.opened x ip omode).writable = true) : omode ≠ O_RDONLY := by
  rintro rfl
  have hmode : decide (O_RDONLY &&& O_WRONLY ≠ 0 ∨ O_RDONLY &&& O_RDWR ≠ 0) = true := hw
  exact absurd hmode (by decide)

theorem File.opened_inode? : (fp.opened x ip omode).inode? = some ip := by
  refine if_neg fun heq => ?_
  have htype : (if x.type = T_DEVICE then FileType.device else .inode) = .none := heq
  split at htype <;> cases htype

/-- A file takes over the reference to the inode that it is opened for. -/
theorem Inv.opens (h : Inv sb s (s.vol sb) (ip ::ₘ I) (f ::ₘ F)) (hnone : (s.ftable f).type = .none)
    (hv : (s.itable ip).valid = true) (hmode : omode ≠ O_RDONLY → (s.itable ip).type ≠ T_DIR) :
    Inv sb (s.setFile f ((s.ftable f).opened x ip omode)) (s.vol sb) I (f ::ₘ F) := by
  have hi : 0 < (s.itable ip).ref := h.tables.ref_pos_of_mem (Multiset.mem_cons_self ip I)
  have hinode : (s.ftable f).inode? = none := if_pos hnone
  refine ⟨h.log, h.ok, h.tables.setFile ?_ (h.tables.frefs f) (fun _ _ => rfl) (fun hzero => ?_) (fun i hi => ?_)
    fun _ hw => ?_⟩
  · rw [hinode, File.opened_inode?, token_some, token_none, add_zero, add_comm, Multiset.singleton_add]
  · have hzero' : (s.ftable f).ref = 0 := hzero
    rw [h.tables.frefs f, Multiset.count_cons_self] at hzero'
    omega
  · obtain rfl := Option.some.inj (File.opened_inode?.symm.trans hi)
    exact hv
  · show ((s.vol sb).dinode (s.itable ip).inum).type ≠ T_DIR
    rw [← (h.tables.cached ip hi hv).1]
    exact hmode (File.opened_writable hw)

/-- The end of `sys_open`, which may truncate the inode. -/
theorem openEnd_spec {c : Prop} [Decidable c] {r : Int} (hsb : sb.Ordered) (h : Inv sb t (t.vol sb) (ip ::ₘ I) (f ::ₘ F))
    (hnone : (t.ftable f).type = .none) (hv : (t.itable ip).valid = true)
    (hmode : omode ≠ O_RDONLY → (t.itable ip).type ≠ T_DIR) (hproc : t.proc = s.proc) :
    Wp Tolerated (do
      modifyFile f fun fp => fp.opened x ip omode
      onlyIf c (itrunc sb ip)
      iunlock ip
      onStore endOp
      return r) (fun _ => Settled sb s I (f ::ₘ F)) t := by
  let u := t.setFile f ((t.ftable f).opened x ip omode)
  have hu : Inv sb u (u.vol sb) I (f ::ₘ F) := h.opens hnone hv hmode
  have hpos : ∀ w : Fs, w.ftable = u.ftable → Inv sb w (w.vol sb) I (f ::ₘ F) → 0 < (w.itable ip).ref := by
    intro w hftable hw
    refine hw.tables.ref_pos_of_opens (mem_opens.mpr ⟨f, ?_⟩)
    rw [hftable, Fs.ftable_setFile_self]
    exact File.opened_inode?
  refine modifyFile_bind (.bind (P := fun _ w => Inv sb w (w.vol sb) I (f ::ₘ F) ∧ w.ftable = u.ftable ∧ w.proc = t.proc)
    (.onlyIf (fun _ => ?_) fun _ => ⟨hu, rfl, rfl⟩) ?_)
  · have hcur := hu.cur_eq (hpos u rfl hu) hv
    exact (itrunc_spec hsb (hcur.symm ▸ hu) (hpos u rfl hu) hv).mono fun _ w hw => ⟨hw.1, hw.2.2⟩
  rintro _ w ⟨hw, hftable, htw⟩
  refine .bind (iunlock_spec hw (hpos w hftable hw)) ?_
  rintro _ y ⟨hy, hstore, -, hwy⟩
  exact endOp_settles hsb (hy.of_store hstore) ((hwy.proc.trans htw).trans hproc) r

end

theorem sysOpen_spec {path : UInt64} {omode : Int32} (hsb : sb.Ordered) (h : Steady sb s) (hp : s.proc p = some pr) :
    Wp Tolerated (sysOpen sb p pr mem path omode) (fun _ => Steady sb) s := by
  unfold sysOpen
  split
  · exact .pure h
  next path _ =>
  refine beginOp_bind h fun store hbegin => .bind (openInode_spec hsb hbegin (cwd_mem hp)) ?_
  rintro _ t ⟨hst, ⟨rfl, ht⟩ | ⟨ip, rfl, ht, hv, hmode⟩⟩
  · exact (failOp_spec hsb ht hst.proc).mono fun _ _ => Settled.steady
  refine inode_bind (.ite (fun _ => (putOp_spec hsb ht hst.proc).mono fun _ _ => Settled.steady) fun _ => ?_)
  refine .bind (filealloc_spec ht.tables) ?_
  rintro _ u (⟨rfl, rfl⟩ | ⟨f, rfl, htables, hstore, hitable, hproc, hnone⟩)
  · exact (putOp_spec hsb ht hst.proc).mono fun _ _ => Settled.steady
  have hsu : u.proc = s.proc := hproc.trans hst.proc
  have hup : u.proc p = some pr := (congrFun hsu p).trans hp
  have hu : Inv sb u (u.vol sb) (ip ::ₘ s.cwds) (f ::ₘ s.fds) := Inv.of_store ⟨hstore ▸ ht.log, ht.ok, htables⟩ hstore
  refine .bind (fdalloc_spec hup) ?_
  rintro _ v (⟨rfl, rfl⟩ | ⟨fd, rfl, hfd, rfl⟩)
  · refine .bind (fileclose_unused_spec hu hnone) fun _ w hw => ?_
    exact (putOp_spec hsb hw.1 (hw.2.2.trans hsu)).mono fun _ _ => Settled.steady
  let v := u.setFd p pr fd (some f)
  have hcwds : v.cwds = s.cwds := (Fs.cwds_setFd hup).trans (Fs.held_congr hsu)
  have hfds : v.fds = f ::ₘ s.fds := (Fs.fds_fill hup hfd).trans (congrArg _ (Fs.held_congr hsu))
  have hx : v.itable ip = t.itable ip := congrFun hitable ip
  refine .mono (P := fun _ => Settled sb v v.cwds v.fds) ?_ fun _ _ => Settled.steady
  rw [hcwds, hfds]
  exact openEnd_spec hsb hu.setProc hnone (hx ▸ hv) (hx ▸ hmode) rfl

/-! ### Directories and processes -/

/-- The reference to the current directory of a process, and those of the others. -/
theorem Fs.cwds_setProc (hp : s.proc p = some pr) (x : Option FsProc) :
    (s.setProc p x).cwds + {pr.cwd} = s.cwds + x.elim 0 fun pr => {pr.cwd} := by
  have hset := s.held_setProc (g := fun pr => {pr.cwd}) p x
  rwa [hp] at hset

theorem Fs.fds_setProc (hp : s.proc p = some pr) (x : Option FsProc) :
    (s.setProc p x).fds + gather pr.ofile = s.fds + x.elim 0 fun pr => gather pr.ofile := by
  have hset := s.held_setProc (g := fun pr => gather pr.ofile) p x
  rwa [hp] at hset

theorem sysChdir_spec {path : UInt64} (hsb : sb.Ordered) (h : Steady sb s) (hp : s.proc p = some pr) :
    Wp Tolerated (sysChdir sb p pr mem path) (fun _ => Steady sb) s := by
  refine beginOp_bind h fun store hbegin => ?_
  split
  · exact (failOp_spec hsb hbegin rfl).mono fun _ _ => Settled.steady
  refine .bind (namei_spec hsb hbegin (cwd_mem hp)) ?_
  rintro _ t ⟨hst, ⟨rfl, ht⟩ | ⟨ip, rfl, ht⟩⟩
  · exact (failOp_spec hsb ht hst.proc).mono fun _ _ => Settled.steady
  refine .bind (ilock_spec ht (ht.tables.ref_pos_of_mem (Multiset.mem_cons_self ip _))) ?_
  rintro _ u ⟨hu, -, -, htu⟩
  have hsu : u.proc = s.proc := htu.proc.trans hst.proc
  refine inode_bind (.ite (fun _ => (putOp_spec hsb hu hsu).mono fun _ _ => Settled.steady) fun _ => ?_)
  refine .bind (iunlock_spec hu (hu.tables.ref_pos_of_mem (Multiset.mem_cons_self ip _))) ?_
  rintro _ v ⟨hv, hstore, -, huv⟩
  let pr' : FsProc := { pr with cwd := ip }
  have hcwds : pr.cwd ::ₘ (s.setProc p (some pr')).cwds = ip ::ₘ s.cwds := by
    have hset := Fs.cwds_setProc hp (some pr')
    rwa [Option.elim_some, add_comm, Multiset.singleton_add, add_comm, Multiset.singleton_add] at hset
  have hfds : (s.setProc p (some pr')).fds = s.fds := add_right_cancel (Fs.fds_setProc hp (some pr'))
  rw [← hcwds, ← hfds] at hv
  refine .bind (iput_spec hsb (hv.of_store hstore)) fun _ w hw => .bind (endOp_spec' hsb hw.1) fun _ x hx => ?_
  have hsx : x.proc = s.proc := (hx.2.2.2.trans (hw.2.proc.trans huv.proc)).trans hsu
  have hxp : x.proc p = some pr := (congrFun hsx p).trans hp
  refine modifyProc_bind hxp (.pure (Settled.steady (s := s.setProc p (some pr')) ⟨Between.setProc hx.1, ?_⟩))
  show Function.update x.proc p _ = Function.update s.proc p _
  rw [hsx]

/-- While a process exits, with the descriptors `l` yet to be closed. -/
structure Exiting (sb : Superblock) (p : Fin NPROC) (pr : FsProc) (l : List (Fin NOFILE)) (s : Fs) : Prop where
  nodup : l.Nodup
  steady : Steady sb s
  proc : s.proc p = some { pr with ofile := fun fd => if fd ∈ l then pr.ofile fd else none }

theorem exitFd_spec {fd : Fin NOFILE} {l : List (Fin NOFILE)} (hsb : sb.Ordered) (h : Exiting sb p pr (fd :: l) s) :
    Wp Tolerated (match pr.ofile fd with
      | none => return ()
      | some f => do
        fileclose sb f
        clearfd p fd) (fun _ => Exiting sb p pr l) s := by
  obtain ⟨hnot, hnodup⟩ := List.nodup_cons.mp h.nodup
  let pr' : FsProc := { pr with ofile := fun fd' => if fd' ∈ fd :: l then pr.ofile fd' else none }
  have hfd : pr'.ofile fd = pr.ofile fd := if_pos List.mem_cons_self
  have hupdate : (fun fd' => if fd' ∈ l then pr.ofile fd' else none) = Function.update pr'.ofile fd none := by
    funext fd'
    by_cases heq : fd' = fd
    · subst heq
      rw [Function.update_self, if_neg hnot]
    · rw [Function.update_of_ne heq]
      simp [pr', heq]
  split
  · next hnone =>
    refine .pure ⟨hnodup, h.steady, ?_⟩
    rw [hupdate, ← hfd.trans hnone, Function.update_eq_self]
    exact h.proc
  · next f hf =>
    let t := s.setFd p pr' fd none
    have hs : Between sb s t.cwds (f ::ₘ t.fds) := by
      rw [← Fs.fds_clear h.proc (hfd.trans hf), Fs.cwds_setFd h.proc]
      exact h.steady
    refine .bind (fileclose_spec hsb hs) fun _ u hu => ?_
    have hup : u.proc p = some pr' := (congrFun hu.2 p).trans h.proc
    refine .liftState ⟨hnodup, Settled.steady (s := t) ⟨Between.setProc hu.1, ?_⟩, ?_⟩
    · show Function.update u.proc p _ = Function.update s.proc p _
      rw [hu.2, h.proc]
      rfl
    · rw [hup, Fs.proc_setProc_self, hupdate]
      rfl

theorem exit_spec (hsb : sb.Ordered) (h : Steady sb s) (hp : s.proc p = some pr) :
    Wp Tolerated (Kernel.exit sb p pr) (fun _ => Steady sb) s := by
  refine .ite (fun _ => .halt (by simp [Tolerated])) fun _ => ?_
  have hstart : Exiting sb p pr (List.finRange NOFILE) s := by
    refine ⟨List.nodup_finRange _, h, hp.trans ?_⟩
    simp
  refine .bind (Wp.forEach hstart fun fd l t ht => exitFd_spec hsb ht) fun _ t ht => ?_
  let pr' : FsProc := { pr with ofile := fun fd => if fd ∈ ([] : List (Fin NOFILE)) then pr.ofile fd else none }
  let u := t.setProc p none
  have hcwds : t.cwds = pr.cwd ::ₘ u.cwds := by
    have hset := Fs.cwds_setProc ht.proc none
    rw [Option.elim_none, add_zero] at hset
    rw [← hset, add_comm, Multiset.singleton_add]
  have hfds : t.fds = u.fds := by
    have hnone : gather pr'.ofile = 0 := by
      refine Multiset.eq_zero_of_forall_notMem fun f hf => ?_
      obtain ⟨fd, hfd⟩ := mem_gather.mp hf
      simp [pr'] at hfd
    have hset := Fs.fds_setProc ht.proc none
    rw [Option.elim_none, add_zero] at hset
    rw [← hset, hnone, add_zero]
  have hsteady := ht.steady
  rw [Steady, hcwds, hfds] at hsteady
  refine beginOp_bind hsteady fun store hbegin => .bind (iput_spec hsb hbegin) fun _ v hv => ?_
  refine .bind (endOp_spec' hsb hv.1) fun _ w hw => .liftState (Settled.steady (s := u) ⟨Between.setProc hw.1, ?_⟩)
  show Function.update w.proc p none = Function.update t.proc p none
  rw [hw.2.2.2.trans hv.2.proc]

/-- While a process is forked, with the descriptors `l` yet to be copied. -/
structure Forking (sb : Superblock) (s : Fs) (pr : FsProc) (l : List (Fin NOFILE)) (t : Fs) : Prop where
  refs : ∃ F, Tables sb t (s.vol sb).dinode s.cwds F ∧
    F + (l.map fun fd => token (pr.ofile fd)).sum = s.fds + gather pr.ofile
  store : t.store = s.store
  proc : t.proc = s.proc

theorem forkFd_spec {fd : Fin NOFILE} {l : List (Fin NOFILE)} (h : Forking sb s pr (fd :: l) t) :
    Wp Tolerated (match pr.ofile fd with
      | none => return ()
      | some f => filedup f) (fun _ => Forking sb s pr l) t := by
  obtain ⟨F, hF, hsum⟩ := h.refs
  rw [List.map_cons, List.sum_cons, ← add_assoc] at hsum
  split
  · next hnone =>
    rw [hnone, token_none, add_zero] at hsum
    exact .pure ⟨⟨F, hF, hsum⟩, h.store, h.proc⟩
  · next f hf =>
    rw [hf, token_some, add_comm F, Multiset.singleton_add] at hsum
    exact (filedup_spec hF).mono fun _ u hu => ⟨⟨_, hu.1, hsum⟩, hu.2.1.trans h.store, hu.2.2.trans h.proc⟩

theorem fork_spec {np : Option (Fin NPROC)} (h : Steady sb s) (hp : s.proc p = some pr) :
    Wp Tolerated (Kernel.fork pr np) (fun _ => Steady sb) s := by
  unfold Kernel.fork
  split
  · exact .pure h
  next np =>
  refine .liftState_bind (.onlyIf (fun hnone => ?_) fun _ => h)
  have hnone' : s.proc np = none := by simpa using hnone
  have hstart : Forking sb s pr (List.finRange NOFILE) s := ⟨⟨s.fds, h.tables, by rw [gather_finRange]⟩, rfl, rfl⟩
  refine .bind (Wp.forEach hstart fun fd l t ht => forkFd_spec ht) ?_
  rintro _ t ⟨⟨F, hF, hsum⟩, hstore, hproc⟩
  rw [List.map_nil, List.sum_nil, add_zero] at hsum
  refine .bind (idup_spec hF (cwd_mem hp)) ?_
  rintro _ u ⟨rfl, hu, hstore', htu⟩
  let child : FsProc := { cwd := pr.cwd, ofile := pr.ofile }
  let v := s.setProc np (some child)
  have hcwds : v.cwds = pr.cwd ::ₘ s.cwds := by
    have hset := s.held_setProc (g := fun pr => {pr.cwd}) np (some child)
    rw [hnone', Option.elim_none, add_zero, Option.elim_some, add_comm, Multiset.singleton_add] at hset
    exact hset
  have hfds : v.fds = s.fds + gather pr.ofile := by
    have hset := s.held_setProc (g := fun pr => gather pr.ofile) np (some child)
    rwa [hnone', Option.elim_none, add_zero, Option.elim_some] at hset
  rw [hsum, ← hcwds, ← hfds] at hu
  have hvol : u.vol sb = s.vol sb := by rw [Fs.vol, hstore'.trans hstore, Fs.vol]
  have hbetween : Between sb u v.cwds v.fds := ⟨(hstore'.trans hstore) ▸ h.quiet, hvol ▸ h.ok, hvol ▸ hu⟩
  refine .liftState (Settled.steady (s := v) ⟨hbetween.setProc, ?_⟩)
  show Function.update u.proc np _ = Function.update s.proc np _
  rw [htu.proc.trans hproc]

end LabSO.Kernel

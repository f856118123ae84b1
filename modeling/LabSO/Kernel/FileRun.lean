import LabSO.Kernel.FileRefs

/-! Runs of system calls on open files: every step keeps the invariant, and what it says between calls. -/

namespace LabSO.Files
open Kernel (NPROC NOFILE NFILE)
open Tokens Transition

variable {s t : State} {p q np : Fin NPROC} {f g : FileNo} {fd : Fd} {fds : List Fd} {fs : List FileNo} {kind : Kind}

/-! ### The calls that open files -/

theorem Inv.openFile (hs : Inv s) (hrun : (s.proc p).life = .running) (hpc : (s.proc p).pc = .openFile kind) :
    Inv (s.filealloc p (.openFd kind) (.leave [] [] false)) := by
  have hok : (s.proc p).ofile = (s.proc p).before := by simpa only [Proc.Ok, hpc] using hs.ok p
  refine hs.filealloc (by rw [hpc]; rfl) (fun f hf => ⟨by rw [hpc]; rfl, rfl, ?_⟩) ⟨by rw [hpc]; rfl, rfl, ?_⟩
  · refine hs.next hrun hok (fun g hg => ?_) (by rintro _ _ ⟨⟩)
    obtain rfl := List.mem_singleton.mp hg
    rw [Function.update_self]
    exact ⟨rfl, hs.idle g hf⟩
  · exact hs.next_leave hrun fun _ => by rw [cleared_nil, hok]

theorem Inv.openFd (hs : Inv s) (hrun : (s.proc p).life = .running) (hpc : (s.proc p).pc = .openFd kind f) :
    Inv (s.fdalloc p f (.openSet kind f) (.leave [] [f] false)) := by
  have hok : (s.proc p).ofile = (s.proc p).before := by simpa only [Proc.Ok, hpc] using hs.ok p
  have hfresh := hs.fresh p f (by rw [hpc]; exact List.mem_singleton_self f)
  refine hs.fdalloc (by rw [hpc]; rfl) (fun fd _ => ⟨?_, Or.inl ⟨rfl, by rw [hpc]; rfl⟩⟩) ⟨by rw [hpc]; rfl, rfl, ?_⟩
  · refine hs.next hrun (Function.update_self ..) (fun g hg => ?_) (by rintro _ _ ⟨⟩)
    obtain rfl := List.mem_singleton.mp hg
    exact hfresh
  · exact hs.next_leave hrun fun _ => by rw [cleared_nil, hok]

/-- Files that only this process has a reference to are opened. -/
theorem Inv.openObj (hs : Inv s) {pc : Pc} {file : FileNo → File} {opened : Nat}
    (hnext : Next file s p { s.proc p with pc })
    (hrefs : gather (cleared pc.stale (s.proc p).ofile) + pc.held = (s.proc p).refs)
    (href : ∀ g, (file g).ref = (s.file g).ref) (hsame : ∀ g, g ∉ (s.proc p).pc.fresh → file g = s.file g)
    (hledger : (gather (fun f => (file f).obj) + s.closed).map Obj.id = Multiset.range opened) :
    Inv { s.setPc p pc with file, opened } := by
  refine @Inv.go s p _ hs file opened s.closed hnext (fun g => ?_) (fun g hg => ?_) (fun q hq g hg => ?_) hledger
  · have hpc : Proc.refs { s.proc p with pc } = (s.proc p).refs := hrefs
    rw [hpc, href]
  · rw [href] at hg
    have hfresh : g ∉ (s.proc p).pc.fresh := fun h => absurd hg (by rw [(hs.fresh p g h).1]; decide)
    rw [hsame g hfresh]
    exact hs.idle g hg
  · refine hsame g fun h => hs.notMem_of_fresh hg hq.symm ((hs.ok p).mem_of_fresh h)

/-- The ledger gains the object that a file is opened for. -/
theorem ledger_open {file : FileNo → File} {n : Nat} {closed : List Obj}
    (h : (gather (fun f => (file f).obj) + closed).map Obj.id = Multiset.range n) (hf : (file f).obj = none) :
    (gather (fun g => (Function.update file f { file f with obj := some ⟨kind, n⟩ } g).obj) + closed).map Obj.id =
      Multiset.range (n + 1) := by
  have hold := gather_eq (fun g => (file g).obj) f
  rw [hf, token_none, Multiset.zero_add] at hold
  rw [gather_obj, token_some, ← hold, Multiset.add_assoc, Multiset.map_add, Multiset.map_singleton, h,
    Multiset.singleton_add, Multiset.range_succ]

theorem ref_openObj (s : State) (f : FileNo) (kind : Kind) (g : FileNo) :
    ((s.openObj f kind).file g).ref = (s.file g).ref := by
  show (Function.update s.file f _ g).ref = _
  rcases eq_or_ne g f with rfl | hne
  · rw [Function.update_self]
  · rw [Function.update_of_ne hne]

theorem file_openObj_of_ne (s : State) (kind : Kind) (h : g ≠ f) : (s.openObj f kind).file g = s.file g :=
  Function.update_of_ne h ..

theorem Inv.openSet (hs : Inv s) (hrun : (s.proc p).life = .running) (hpc : (s.proc p).pc = .openSet kind f fd) :
    Inv ((s.openObj f kind).setPc p (.leave [] [] true)) := by
  have hf : f ∈ (s.proc p).pc.fresh := by rw [hpc]; exact List.mem_singleton_self f
  refine hs.openObj (hs.next_leave hrun nofun) ?_ (ref_openObj s f kind) (fun g hg => ?_)
    (ledger_open hs.ledger (hs.fresh p f hf).2)
  · rw [Proc.refs, hpc]
    rfl
  · refine file_openObj_of_ne s kind ?_
    rintro rfl
    exact hg hf

theorem Inv.pipe0 (hs : Inv s) (hrun : (s.proc p).life = .running) (hpc : (s.proc p).pc = .pipe0) :
    Inv (s.filealloc p .pipe1 (.leave [] [] false)) := by
  have hok : (s.proc p).ofile = (s.proc p).before := by simpa only [Proc.Ok, hpc] using hs.ok p
  refine hs.filealloc (by rw [hpc]; rfl) (fun f hf => ⟨by rw [hpc]; rfl, rfl, ?_⟩) ⟨by rw [hpc]; rfl, rfl, ?_⟩
  · refine hs.next hrun hok (fun g hg => ?_) (by rintro _ _ ⟨⟩)
    obtain rfl := List.mem_singleton.mp hg
    rw [Function.update_self]
    exact ⟨rfl, hs.idle g hf⟩
  · exact hs.next_leave hrun fun _ => by rw [cleared_nil, hok]

theorem Inv.pipe1 (hs : Inv s) (hrun : (s.proc p).life = .running) (hpc : (s.proc p).pc = .pipe1 f) :
    Inv (s.filealloc p (.pipeMem f) (.leave [] [f] false)) := by
  have hok : (s.proc p).ofile = (s.proc p).before := by simpa only [Proc.Ok, hpc] using hs.ok p
  have hfresh := hs.fresh p f (by rw [hpc]; exact List.mem_singleton_self f)
  refine hs.filealloc (by rw [hpc]; rfl) (fun g hg => ?_) ⟨by rw [hpc]; rfl, rfl, ?_⟩
  · have hne : f ≠ g := by
      rintro rfl
      omega
    refine ⟨by rw [hpc]; exact Multiset.coe_eq_coe.mpr (List.Perm.swap ..), rfl,
      hs.next hrun ⟨hok, hne⟩ (fun g' hg' => ?_) (by rintro _ _ ⟨⟩)⟩
    rcases List.mem_cons.mp hg' with rfl | hg'
    · rw [Function.update_of_ne hne]
      exact hfresh
    · obtain rfl := List.mem_singleton.mp hg'
      rw [Function.update_self]
      exact ⟨rfl, hs.idle g' hg⟩
  · exact hs.next_leave hrun fun _ => by rw [cleared_nil, hok]

/-- `pipealloc` opens both ends, or gives both files back. -/
theorem Inv.pipeMem (hs : Inv s) (hrun : (s.proc p).life = .running) (hpc : (s.proc p).pc = .pipeMem f g) :
    Inv (((s.openObj f .readEnd).openObj g .writeEnd).setPc p (.pipeFd0 f g)) ∧
      Inv (s.setPc p (.leave [] [f, g] false)) := by
  obtain ⟨hok, hne⟩ : (s.proc p).ofile = (s.proc p).before ∧ f ≠ g := by simpa only [Proc.Ok, hpc] using hs.ok p
  have hfresh : ∀ {h}, h ∈ (s.proc p).pc.fresh ↔ h = f ∨ h = g := by
    intro h
    rw [hpc]
    exact List.mem_pair
  have hf := hs.fresh p f (hfresh.mpr (Or.inl rfl))
  have hg := hs.fresh p g (hfresh.mpr (Or.inr rfl))
  have hrefs : (s.proc p).refs = gather (s.proc p).ofile + ([f, g] : List FileNo) := by
    rw [Proc.refs, hpc]
    exact congrArg (gather · + _) (cleared_nil _)
  refine ⟨?_, ?_⟩
  · refine hs.openObj (hs.next hrun hok (by rintro _ ⟨⟩) (by rintro _ _ ⟨⟩)) ?_ (fun h => ?_) (fun h hh => ?_) ?_
    · rw [hrefs]
      exact congrArg (gather · + _) (cleared_nil _)
    · rw [ref_openObj, ref_openObj]
    · obtain ⟨hhf, hhg⟩ := not_or.mp (mt hfresh.mpr hh)
      rw [file_openObj_of_ne _ _ hhg, file_openObj_of_ne _ _ hhf]
    · refine @ledger_open g .writeEnd _ _ s.closed (ledger_open hs.ledger hf.2) ?_
      rw [file_openObj_of_ne s _ hne.symm]
      exact hg.2
  · refine hs.setPc (hs.next_leave hrun fun _ => by rw [cleared_nil, hok]) ?_
    rw [hrefs]
    exact congrArg (gather · + _) (cleared_nil _)

theorem Inv.pipeFd0 (hs : Inv s) (hrun : (s.proc p).life = .running) (hpc : (s.proc p).pc = .pipeFd0 f g) :
    Inv (s.fdalloc p f (.pipeFd1 f g) (.leave [] [f, g] false)) := by
  have hok : (s.proc p).ofile = (s.proc p).before := by simpa only [Proc.Ok, hpc] using hs.ok p
  refine hs.fdalloc (by rw [hpc]; rfl) (fun fd hfd => ⟨hs.next hrun ⟨Function.update_self .., ?_⟩ (by rintro _ ⟨⟩) (by rintro _ _ ⟨⟩),
    Or.inl ⟨rfl, by rw [hpc]; rfl⟩⟩) ⟨by rw [hpc]; rfl, rfl, ?_⟩
  · show cleared [fd] (Function.update _ fd _) = _
    rw [cleared_singleton, Function.update_idem, ← hfd, Function.update_eq_self, hok]
  · exact hs.next_leave hrun fun _ => by rw [cleared_nil, hok]

theorem Inv.pipeFd1 {fd0 : Fd} (hs : Inv s) (hrun : (s.proc p).life = .running)
    (hpc : (s.proc p).pc = .pipeFd1 f g fd0) :
    Inv (s.fdalloc p g (.pipeCopy f g fd0) (.leave [fd0] [f, g] false)) := by
  obtain ⟨hfd0, hok⟩ : (s.proc p).ofile fd0 = some f ∧ cleared [fd0] (s.proc p).ofile = (s.proc p).before := by
    simpa only [Proc.Ok, hpc] using hs.ok p
  rw [State.fdalloc]
  split
  · next fd hfd =>
    have hnone := freeFd_none hfd
    have hne : fd ≠ fd0 := by
      rintro rfl
      rw [hfd0] at hnone
      cases hnone
    refine hs.stay (hs.next hrun ⟨hne, ?_, Function.update_self .., ?_⟩ (by rintro _ ⟨⟩) (by rintro _ _ ⟨⟩)) ?_
    · exact (Function.update_of_ne hne.symm ..).trans hfd0
    · show cleared [fd0, fd] (Function.update _ fd _) = _
      rw [cleared_cons, cleared_singleton, Function.update_comm hne, Function.update_idem, ← hok, cleared_singleton]
      exact Function.update_eq_self_iff.mpr (by rw [Function.update_of_ne hne, hnone])
    · rw [Proc.refs, Proc.refs, hpc]
      show gather (cleared [] _) + (([] : List FileNo) : Multiset FileNo) = gather (cleared [] _) + ([g] : List FileNo)
      rw [cleared_nil, cleared_nil, gather_set hnone, Multiset.coe_nil, Multiset.add_zero, Multiset.coe_singleton,
        Multiset.add_comm, Multiset.singleton_add]
  · refine hs.setPc (hs.next_leave hrun fun _ => hok) ?_
    rw [Proc.refs, hpc]
    show gather (cleared [fd0] _) + (([f, g] : List FileNo) : Multiset FileNo) = gather (cleared [] _) + ([g] : List FileNo)
    rw [cleared_nil, gather_of_some hfd0, cleared_singleton, ← Multiset.cons_coe, Multiset.add_cons, Multiset.cons_add]

theorem Inv.pipeCopy {fd0 fd1 : Fd} (hs : Inv s) (hrun : (s.proc p).life = .running)
    (hpc : (s.proc p).pc = .pipeCopy f g fd0 fd1) :
    Inv (s.setPc p (.leave [] [] true)) ∧ Inv (s.setPc p (.leave [fd0, fd1] [f, g] false)) := by
  obtain ⟨hne, hfd0, hfd1, hok⟩ : fd1 ≠ fd0 ∧ (s.proc p).ofile fd0 = some f ∧ (s.proc p).ofile fd1 = some g ∧
      cleared [fd0, fd1] (s.proc p).ofile = (s.proc p).before := by
    simpa only [Proc.Ok, hpc] using hs.ok p
  refine ⟨hs.setPc (hs.next_leave hrun (by rintro ⟨⟩)) ?_, hs.setPc (hs.next_leave hrun fun _ => hok) ?_⟩
  · rw [Proc.refs, hpc]
    rfl
  · have hfd1' : Function.update (s.proc p).ofile fd0 none fd1 = some g := by rw [Function.update_of_ne hne, hfd1]
    rw [Proc.refs, hpc]
    show gather (cleared [fd0, fd1] _) + (([f, g] : List FileNo) : Multiset FileNo) =
      gather (cleared [] _) + (([] : List FileNo) : Multiset FileNo)
    rw [cleared_nil, cleared_cons, cleared_singleton, gather_of_some hfd0, gather_of_some hfd1', ← Multiset.cons_coe,
      ← Multiset.cons_coe, Multiset.coe_nil, Multiset.add_zero, Multiset.add_cons, Multiset.add_cons, Multiset.add_zero]

/-! ### The calls that hand on files and close them -/

theorem filedup_eq (h : 1 ≤ (s.file f).ref) : s.filedup f = s.setFile f { s.file f with ref := (s.file f).ref + 1 } :=
  if_neg (by omega)

/-- The file that `filedup` is called for has a reference already. -/
theorem Inv.mem_of_filedup (hs : Inv s) (hpc : (s.proc p).pc = .filedup f fd) : f ∈ (s.proc p).refs := by
  obtain ⟨-, fd', hne, hfd'⟩ : (s.proc p).ofile fd = some f ∧ ∃ fd', fd' ≠ fd ∧ (s.proc p).ofile fd' = some f := by
    simpa only [Proc.Ok, hpc] using hs.ok p
  refine mem_refs_of_slot hfd' ?_
  rw [hpc]
  exact fun h => hne (List.mem_singleton.mp h)

theorem Inv.filedup (hs : Inv s) (hrun : (s.proc p).life = .running) (hpc : (s.proc p).pc = .filedup f fd) :
    Inv ((s.filedup f).setPc p (.leave [] [] true)) := by
  have hmem := hs.mem_of_filedup hpc
  obtain ⟨hfd, -⟩ : (s.proc p).ofile fd = some f ∧ ∃ fd', fd' ≠ fd ∧ (s.proc p).ofile fd' = some f := by
    simpa only [Proc.Ok, hpc] using hs.ok p
  rw [filedup_eq (hs.ref_pos hmem)]
  refine hs.gain rfl (hs.next_leave hrun (by rintro ⟨⟩)) ?_ fun q hq hf => hs.notMem_of_fresh hf hq.symm hmem
  rw [Proc.refs, Proc.refs, hpc]
  show gather (cleared [] (s.proc p).ofile) + (([] : List FileNo) : Multiset FileNo) =
    f ::ₘ (gather (cleared [fd] _) + (([] : List FileNo) : Multiset FileNo))
  rw [cleared_nil, cleared_singleton, gather_of_some hfd, Multiset.cons_add]

theorem Inv.clear {ok : Bool} (hs : Inv s) (hrun : (s.proc p).life = .running)
    (hpc : (s.proc p).pc = .leave (fd :: fds) fs ok) : Inv (s.setFd p fd none (.leave fds fs ok)) := by
  have hok : ok = false → cleared (fd :: fds) (s.proc p).ofile = (s.proc p).before := by
    simpa only [Proc.Ok, hpc] using hs.ok p
  refine hs.stay (hs.next_leave hrun fun h => ?_) ?_
  · rw [← cleared_cons, hok h]
  · rw [Proc.refs, Proc.refs, hpc]
    show gather (cleared fds _) + (fs : Multiset FileNo) = gather (cleared (fd :: fds) _) + (fs : Multiset FileNo)
    rw [cleared_cons]

/-- The file that `fileclose` is called for has a reference. -/
theorem Inv.mem_of_leave {fds : List Fd} {ok : Bool} (hpc : (s.proc p).pc = .leave fds (f :: fs) ok) :
    f ∈ (s.proc p).refs := by
  rw [Proc.refs, hpc]
  exact Multiset.mem_add.mpr (Or.inr List.mem_cons_self)

@[simp] theorem proc_fileclose (s : State) (f : FileNo) : (s.fileclose f).proc = s.proc := by
  rw [State.fileclose]
  split
  · rfl
  · split <;> rfl

theorem setPc_fileclose (s : State) (p : Fin NPROC) (f : FileNo) (pc : Pc) :
    (s.fileclose f).setPc p pc = (s.fileclose f).setProc p { s.proc p with pc } := by
  rw [State.setPc, proc_fileclose]

theorem Inv.close {ok : Bool} (hs : Inv s) (hrun : (s.proc p).life = .running)
    (hpc : (s.proc p).pc = .leave [] (f :: fs) ok) : Inv ((s.fileclose f).setPc p (.leave [] fs ok)) := by
  have hok : ok = false → cleared [] (s.proc p).ofile = (s.proc p).before := by simpa only [Proc.Ok, hpc] using hs.ok p
  rw [setPc_fileclose]
  refine hs.lose (fun file => hs.next_leave hrun hok) ?_
  rw [Proc.refs, Proc.refs, hpc]
  show gather (cleared [] _) + ((f :: fs : List FileNo) : Multiset FileNo) = f ::ₘ (gather (cleared [] _) + (fs : Multiset FileNo))
  rw [← Multiset.cons_coe, Multiset.add_cons]

/-- A call returns. -/
theorem Inv.ret {ok : Bool} (hs : Inv s) (hrun : (s.proc p).life = .running) (hpc : (s.proc p).pc = .leave [] [] ok) :
    Inv (s.setPc p .user) := by
  refine hs.setPc (hs.next hrun trivial nofun nofun) ?_
  rw [Proc.refs, hpc]
  rfl

/-! ### Processes that come and go -/

theorem setProc_comm (s : State) (x y : Proc) (h : p ≠ q) :
    (s.setProc p x).setProc q y = (s.setProc q y).setProc p x := by
  rw [State.setProc, State.setProc, State.setProc, State.setProc]
  exact congrArg (State.mk s.file · s.panicked s.opened s.closed) (Function.update_comm h ..)

/-- A process without a call under way comes or goes. -/
theorem Inv.relife (hs : Inv s) {l : Life} (hpc : (s.proc q).pc = .user) (hl : l ≠ .unused) (hl' : l ≠ .zombie)
    (hforks : ∀ r fds, r ≠ q → (s.proc r).pc = .fork q fds → l = .embryo r) :
    Inv (s.setProc q { s.proc q with life := l }) := by
  refine hs.stay ⟨?_, ?_, fun _ => hpc, ?_, ?_, fun r fds hr h => ⟨hforks r fds hr h, (hs.forked r q fds h).2.2⟩⟩ rfl
  · rw [Proc.Ok]
    simp only [hpc]
  · simp only [hpc]
    rintro _ ⟨⟩
  · rintro (h | h)
    · exact absurd h hl
    · exact absurd h hl'
  · simp only [hpc]
    rintro _ _ ⟨⟩

/-- `allocproc` gives a slot to `fork`. -/
theorem Inv.fork (hs : Inv s) (hrun : (s.proc p).life = .running) (hpc : (s.proc p).pc = .user)
    (hnp : (s.proc np).life = .unused) :
    Inv ((s.setProc np { s.proc np with life := .embryo p }).setPc p (.fork np (List.finRange NOFILE))) := by
  have hne : p ≠ np := by
    rintro rfl
    rw [hrun] at hnp
    cases hnp
  have hembryo : Inv (s.setProc np { s.proc np with life := .embryo p }) := by
    refine hs.relife (hs.still np (by rw [hnp]; nofun)) nofun nofun fun r fds _ h => ?_
    have hr := (hs.forked r np fds h).1
    rw [hnp] at hr
    cases hr
  have hp : (s.setProc np { s.proc np with life := .embryo p }).proc p = s.proc p := proc_setProc_of_ne s _ hne
  refine hembryo.setPc (hembryo.next (by rw [hp, hrun]) trivial nofun ?_) ?_
  · rintro np' fds heq
    cases heq
    rw [proc_setProc_self]
    refine ⟨rfl, List.nodup_finRange _, fun fd _ => ?_⟩
    show (s.proc np).ofile fd = none
    rw [hs.gone np (Or.inl hnp)]
    rfl
  · rw [hp, Proc.refs, hpc]
    rfl

/-- The child gets the file of a descriptor of its parent. -/
theorem Inv.inherit (hs : Inv s) (hmem : f ∈ (s.proc p).refs) (hpc : (s.proc p).pc = .fork np fds) (hfds : fd ∉ fds)
    (hnone : (s.proc np).ofile fd = none) : Inv ((s.filedup f).setFd np fd (some f) (s.proc np).pc) := by
  have hfork := hs.forked p np fds hpc
  have huser := hs.still np (by rw [hfork.1]; rintro ⟨⟩)
  rw [filedup_eq (hs.ref_pos hmem)]
  refine hs.gain rfl ⟨?_, ?_, fun _ => huser, ?_, ?_, fun r fds' hr h => ?_⟩ ?_ fun q hq hf => ?_
  · rw [Proc.Ok]
    simp only [huser]
  · simp only [huser]
    rintro _ ⟨⟩
  · rintro (h | h)
    · exact absurd (hfork.1.symm.trans h) (by rintro ⟨⟩)
    · exact absurd (hfork.1.symm.trans h) (by rintro ⟨⟩)
  · simp only [huser]
    rintro _ _ ⟨⟩
  · have hfork' := hs.forked r np fds' h
    obtain rfl : p = r := Life.embryo.inj (hfork.1.symm.trans hfork'.1)
    obtain rfl : fds = fds' := (Pc.fork.inj (hpc.symm.trans h)).2
    refine ⟨hfork.1, fun fd' hfd' => ?_⟩
    have hne : fd' ≠ fd := by
      rintro rfl
      exact hfds hfd'
    exact (Function.update_of_ne hne ..).trans (hfork.2.2 fd' hfd')
  · rw [Proc.refs, Proc.refs]
    simp only [huser, Pc.stale, cleared_nil]
    show gather (Function.update (s.proc np).ofile fd (some f)) + _ = _
    rw [gather_set hnone, Multiset.cons_add]
  · rcases eq_or_ne p q with rfl | hpq
    · rw [hpc] at hf
      cases hf
    · exact hs.notMem_of_fresh hf hpq hmem

/-- One pass of the loop of `fork`. -/
theorem Inv.forkDup (hs : Inv s) (hrun : (s.proc p).life = .running) (hpc : (s.proc p).pc = .fork np (fd :: fds)) :
    Inv (s.forkDup p np fd fds) ∧ ((s.forkDup p np fd fds).panicked = s.panicked) := by
  obtain ⟨hembryo, hnodup, hnone⟩ := hs.forked p np _ hpc
  obtain ⟨hfd, hnodup⟩ := List.nodup_cons.mp hnodup
  have hpass : Inv (s.setPc p (.fork np fds)) := by
    refine hs.setPc (hs.next hrun trivial nofun ?_) ?_
    · rintro np' fds' heq
      cases heq
      exact ⟨hembryo, hnodup, fun fd' hfd' => hnone fd' (List.mem_cons_of_mem _ hfd')⟩
    · rw [Proc.refs, hpc]
      rfl
  have hne : np ≠ p := by
    rintro rfl
    rw [hrun] at hembryo
    cases hembryo
  rw [State.forkDup]
  split
  · exact ⟨hpass, rfl⟩
  · next f hf =>
    have hmem : f ∈ (s.proc p).refs := mem_refs_of_slot hf (by rw [hpc]; exact List.not_mem_nil)
    have hp : (s.setPc p (.fork np fds)).proc p = { s.proc p with pc := .fork np fds } := proc_setProc_self ..
    have hnp : (s.setPc p (.fork np fds)).proc np = s.proc np := proc_setProc_of_ne s _ hne
    have hmem' : f ∈ ((s.setPc p (.fork np fds)).proc p).refs := by
      rw [hp]
      exact mem_refs_of_slot hf List.not_mem_nil
    have hpc' : ((s.setPc p (.fork np fds)).proc p).pc = .fork np fds := by rw [hp]
    have hchild := hpass.inherit hmem' hpc' hfd (by rw [hnp]; exact hnone fd List.mem_cons_self)
    have hstate : ((s.filedup f).setFd np fd (some f) (s.proc np).pc).setPc p (.fork np fds) =
        ((s.setPc p (.fork np fds)).filedup f).setFd np fd (some f) ((s.setPc p (.fork np fds)).proc np).pc := by
      rw [filedup_eq (hs.ref_pos hmem), filedup_eq (hpass.ref_pos hmem'), State.setPc, State.setFd,
        proc_setProc_of_ne _ _ hne.symm, setProc_comm _ _ _ hne]
      show _ = State.setProc _ np ⟨((s.setPc p (.fork np fds)).proc np).life,
        Function.update ((s.setPc p (.fork np fds)).proc np).ofile fd (some f), ((s.setPc p (.fork np fds)).proc np).pc,
        ((s.setPc p (.fork np fds)).proc np).before⟩
      rw [hnp]
      rfl
    rw [hstate]
    refine ⟨hchild, ?_⟩
    rw [filedup_eq (hpass.ref_pos hmem')]
    rfl

/-- The child of a `fork` may run. -/
theorem Inv.forkEnd (hs : Inv s) (hrun : (s.proc p).life = .running) (hpc : (s.proc p).pc = .fork np []) :
    Inv ((s.setProc np { s.proc np with life := .running }).setPc p .user) := by
  have hembryo := (hs.forked p np [] hpc).1
  have hne : np ≠ p := by
    rintro rfl
    rw [hrun] at hembryo
    cases hembryo
  have huser : Inv (s.setPc p .user) := by
    refine hs.setPc (hs.next hrun trivial (by rintro _ ⟨⟩) (by rintro _ _ ⟨⟩)) ?_
    rw [Proc.refs, hpc]
    rfl
  have hp : (s.setPc p .user).proc p = { s.proc p with pc := .user } := proc_setProc_self ..
  have hnp : (s.setPc p .user).proc np = s.proc np := proc_setProc_of_ne s _ hne
  have hchild := huser.relife (q := np) (l := .running) (by rw [hnp]; exact hs.still np (by rw [hembryo]; rintro ⟨⟩)) (by rintro ⟨⟩)
    (by rintro ⟨⟩) fun r fds _ h => by
      have hr := (huser.forked r np fds h).1
      rw [hnp, hembryo] at hr
      obtain rfl := Life.embryo.inj hr
      rw [hp] at h
      cases h
  rw [hnp] at hchild
  rwa [State.setPc, proc_setProc_of_ne _ _ hne.symm, setProc_comm _ _ _ hne]

/-! ### Processes that exit -/

theorem Inv.exit (hs : Inv s) (hrun : (s.proc p).life = .running) (hpc : (s.proc p).pc = .exit (fd :: fds)) :
    Inv (s.setPc p (match (s.proc p).ofile fd with
      | none => .exit fds
      | some f => .exitClose f fd fds)) := by
  have hok : ∀ fd', (s.proc p).ofile fd' ≠ none → fd' ∈ fd :: fds := by simpa only [Proc.Ok, hpc] using hs.ok p
  split
  · next hnone =>
    refine hs.setPc (hs.next hrun (fun fd' hfd' => ?_) (by rintro _ ⟨⟩) (by rintro _ _ ⟨⟩)) ?_
    · rcases List.mem_cons.mp (hok fd' hfd') with rfl | hmem
      · exact absurd hnone hfd'
      · exact hmem
    · rw [Proc.refs, hpc]
      rfl
  · next f hf =>
    refine hs.setPc (hs.next hrun (fun fd' hfd' => List.mem_cons.mp (hok fd' hfd')) (by rintro _ ⟨⟩) (by rintro _ _ ⟨⟩)) ?_
    rw [Proc.refs, hpc]
    show gather (cleared [fd] _) + (([f] : List FileNo) : Multiset FileNo) =
      gather (cleared [] _) + (([] : List FileNo) : Multiset FileNo)
    rw [cleared_nil, cleared_singleton, gather_of_some hf, Multiset.coe_singleton, Multiset.coe_nil, Multiset.add_zero,
      Multiset.add_comm, Multiset.singleton_add]

theorem Inv.exitClose (hs : Inv s) (hrun : (s.proc p).life = .running) (hpc : (s.proc p).pc = .exitClose f fd fds) :
    Inv ((s.fileclose f).setPc p (.exitClear fd fds)) := by
  have hok : ∀ fd', (s.proc p).ofile fd' ≠ none → fd' = fd ∨ fd' ∈ fds := by simpa only [Proc.Ok, hpc] using hs.ok p
  rw [setPc_fileclose]
  refine hs.lose (fun file => hs.next hrun hok (by rintro _ ⟨⟩) (by rintro _ _ ⟨⟩)) ?_
  rw [Proc.refs, Proc.refs, hpc]
  show gather (cleared [fd] _) + (([f] : List FileNo) : Multiset FileNo) =
    f ::ₘ (gather (cleared [fd] _) + (([] : List FileNo) : Multiset FileNo))
  rw [Multiset.coe_singleton, Multiset.coe_nil, Multiset.add_zero, Multiset.add_comm, Multiset.singleton_add]

theorem Inv.exitClear (hs : Inv s) (hrun : (s.proc p).life = .running) (hpc : (s.proc p).pc = .exitClear fd fds) :
    Inv (s.setFd p fd none (.exit fds)) := by
  have hok : ∀ fd', (s.proc p).ofile fd' ≠ none → fd' = fd ∨ fd' ∈ fds := by simpa only [Proc.Ok, hpc] using hs.ok p
  refine hs.stay (hs.next hrun (fun fd' hfd' => ?_) (by rintro _ ⟨⟩) (by rintro _ _ ⟨⟩)) ?_
  · rcases eq_or_ne fd' fd with rfl | hne
    · exact absurd (Function.update_self ..) hfd'
    · rcases hok fd' (fun h => hfd' ((Function.update_of_ne hne ..).trans h)) with heq | hmem
      · exact absurd heq hne
      · exact hmem
  · rw [Proc.refs, Proc.refs, hpc]
    show gather (cleared [] _) + _ = gather (cleared [fd] _) + _
    rw [cleared_nil, cleared_singleton]
    rfl

theorem Inv.exitEnd (hs : Inv s) (hrun : (s.proc p).life = .running) (hpc : (s.proc p).pc = .exit []) :
    Inv (s.setProc p { s.proc p with life := .zombie, pc := .user }) := by
  have hok : ∀ fd', (s.proc p).ofile fd' ≠ none → fd' ∈ [] := by simpa only [Proc.Ok, hpc] using hs.ok p
  refine hs.stay ⟨trivial, (by rintro _ ⟨⟩), fun _ => rfl, fun _ => ?_, (by rintro _ _ ⟨⟩), fun r fds _ h => ?_⟩ ?_
  · funext fd
    exact not_not.mp fun h => absurd (hok fd h) List.not_mem_nil
  · have hembryo := (hs.forked r p fds h).1
    rw [hrun] at hembryo
    cases hembryo
  · rw [Proc.refs, Proc.refs, hpc]
    rfl

theorem Inv.reap (hs : Inv s) (hlife : (s.proc p).life = .zombie) :
    Inv (s.setProc p { s.proc p with life := .unused }) := by
  have hpc := hs.still p (by rw [hlife]; nofun)
  refine hs.stay ⟨hs.ok p, hs.fresh p, fun _ => hpc, fun _ => hs.gone p (Or.inr hlife), ?_, fun r fds _ h => ?_⟩ rfl
  · simp only [hpc]
    exact nofun
  · have hembryo := (hs.forked r p fds h).1
    rw [hlife] at hembryo
    cases hembryo

end LabSO.Files

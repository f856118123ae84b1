import LabSO.Kernel.FileRun

/-! System calls on open files in any order and at the same time: between calls `ref` counts descriptors, a call that fails
    leaves no trace, and objects are closed once, with their last reference. -/

namespace LabSO.Files
open Kernel (NPROC NOFILE NFILE)
open Tokens Transition

variable {s t u : State} {p q : Fin NPROC} {f g : FileNo} {fd : Fd} {l : Action × Event} {e : Event}
  {ls : List (Action × Event)}

/-! ### Every step -/

theorem Inv.panic (hs : Inv s) (msg : String) : Inv (s.panic msg) :=
  ⟨hs.refs, hs.idle, hs.ok, hs.fresh, hs.still, hs.gone, hs.forked, hs.ledger⟩

theorem Inv.enter (hs : Inv s) (hrun : (s.proc p).life = .running) (hpc : (s.proc p).pc = .user)
    (hbefore : (s.proc p).ofile = (s.proc p).before) (c : Call) : Inv (s.enter p c) := by
  have hrefs : (s.proc p).refs = gather (s.proc p).ofile := by
    rw [Proc.refs, hpc]
    show gather (cleared [] _) + (([] : List FileNo) : Multiset FileNo) = _
    rw [cleared_nil, Multiset.coe_nil, Multiset.add_zero]
  have hstart : ∀ {pc : Pc}, pc.stale = [] → pc.held = [] → gather (cleared pc.stale (s.proc p).ofile) + pc.held =
      (s.proc p).refs := by
    intro pc hstale hheld
    rw [hstale, hheld, cleared_nil, hrefs, Multiset.coe_nil, Multiset.add_zero]
  have hfail : Inv (s.setPc p (.leave [] [] false)) :=
    hs.setPc (hs.next_leave hrun fun _ => by rw [cleared_nil, hbefore]) (hstart rfl rfl)
  cases c with
  | open' found =>
    cases found with
    | none => exact hfail
    | some kind => exact hs.setPc (hs.next hrun hbefore (by rintro _ ⟨⟩) (by rintro _ _ ⟨⟩)) (hstart rfl rfl)
  | dup n =>
    rw [State.enter]
    split
    · exact hfail
    · next fd' f hfd' =>
      refine hs.fdalloc (by rw [hpc]; rfl) (fun fd hfd => ⟨hs.next hrun ⟨Function.update_self .., fd', ?_, ?_⟩ (by rintro _ ⟨⟩) (by rintro _ _ ⟨⟩),
        Or.inr ⟨rfl, by rw [hpc]; rfl⟩⟩) ⟨by rw [hpc]; rfl, rfl, hs.next_leave hrun fun _ => by rw [cleared_nil, hbefore]⟩
      · rintro rfl
        exact absurd (hfd.symm.trans (argfd_some hfd')) (by rintro ⟨⟩)
      · refine (Function.update_of_ne ?_ ..).trans (argfd_some hfd')
        rintro rfl
        exact absurd (hfd.symm.trans (argfd_some hfd')) (by rintro ⟨⟩)
  | pipe => exact hs.setPc (hs.next hrun hbefore (by rintro _ ⟨⟩) (by rintro _ _ ⟨⟩)) (hstart rfl rfl)
  | close n =>
    rw [State.enter]
    split
    · exact hfail
    · next fd f hfd =>
      refine hs.setPc (hs.next_leave hrun (by rintro ⟨⟩)) ?_
      show gather (cleared [fd] _) + (([f] : List FileNo) : Multiset FileNo) = _
      rw [hrefs, cleared_singleton, gather_of_some (argfd_some hfd), Multiset.coe_singleton, Multiset.add_comm,
        Multiset.singleton_add]
  | fork np ok =>
    rw [State.enter]
    split
    · next h => exact hs.fork hrun hpc h.1
    · exact hfail
  | exit =>
    rw [State.enter]
    split
    · exact hs.panic _
    · exact hs.setPc (hs.next hrun (fun fd _ => List.mem_finRange fd) (by rintro _ ⟨⟩) (by rintro _ _ ⟨⟩)) (hstart rfl rfl)

theorem Inv.call (hs : Inv s) (hrun : (s.proc p).life = .running) (hpc : (s.proc p).pc = .user) (c : Call) :
    Inv (s.call p c) := by
  have hok : Proc.Ok ⟨(s.proc p).life, (s.proc p).ofile, (s.proc p).pc, (s.proc p).ofile⟩ := by
    rw [Proc.Ok]
    simp only [hpc]
  have hbefore : Inv (s.setProc p { s.proc p with before := (s.proc p).ofile }) :=
    hs.stay (hs.next hrun hok (by rw [hpc]; rintro _ ⟨⟩) (by rw [hpc]; rintro _ _ ⟨⟩)) rfl
  have hp : (s.setProc p { s.proc p with before := (s.proc p).ofile }).proc p =
      { s.proc p with before := (s.proc p).ofile } := proc_setProc_self ..
  exact hbefore.enter (by rw [hp, hrun]) (by rw [hp, hpc]) (by rw [hp]) c

theorem Inv.continue {ok : Bool} (hs : Inv s) (hrun : (s.proc p).life = .running) (h : s.continue p ok = some (e, t)) :
    Inv t := by
  rw [State.continue] at h
  split at h
  case h_1 => cases h
  case h_2 hpc => cases h; exact hs.openFile hrun hpc
  case h_3 hpc => cases h; exact hs.openFd hrun hpc
  case h_4 hpc => cases h; exact hs.openSet hrun hpc
  case h_5 hpc => cases h; exact hs.filedup hrun hpc
  case h_6 hpc => cases h; exact hs.pipe0 hrun hpc
  case h_7 hpc => cases h; exact hs.pipe1 hrun hpc
  case h_8 hpc =>
    obtain ⟨hgood, hbad⟩ := hs.pipeMem hrun hpc
    split at h <;> cases h
    · exact hgood
    · exact hbad
  case h_9 hpc => cases h; exact hs.pipeFd0 hrun hpc
  case h_10 hpc => cases h; exact hs.pipeFd1 hrun hpc
  case h_11 hpc =>
    obtain ⟨hgood, hbad⟩ := hs.pipeCopy hrun hpc
    cases h
    split
    · exact hgood
    · exact hbad
  case h_12 hpc => cases h; exact hs.clear hrun hpc
  case h_13 hpc => cases h; exact hs.close hrun hpc
  case h_14 hpc => cases h; exact hs.ret hrun hpc
  case h_15 hpc => cases h; exact (hs.forkDup hrun hpc).1
  case h_16 hpc => cases h; exact hs.forkEnd hrun hpc
  case h_17 hpc => cases h; exact hs.exit hrun hpc
  case h_18 hpc => cases h; exact hs.exitClose hrun hpc
  case h_19 hpc => cases h; exact hs.exitClear hrun hpc
  case h_20 hpc => cases h; exact hs.exitEnd hrun hpc

theorem Inv.step (hs : Inv s) (h : Step s l t) : Inv t := by
  obtain ⟨a, e⟩ := l
  have hstep : Files.step s a = some (e, t) := h
  rw [Files.step.eq_def] at hstep
  split at hstep
  · cases hstep
  · split at hstep
    · split at hstep
      · next hp =>
        cases hstep
        exact hs.call hp.1 hp.2 _
      · cases hstep
    · split at hstep
      · exact hs.continue ‹_› hstep
      · cases hstep
    · split at hstep
      · cases hstep
        exact hs.reap ‹_›
      · cases hstep

/-- All steps of a run. -/
theorem inv_run (h : Run Step .init ls t) : Inv t := h.invariant (fun _ _ _ => Inv.step) inv_init

/-! ### What a step does to the files -/

/-- No reference is the last to go, nothing panics, and no call begins. -/
structure Quiet (s t : State) : Prop where
  panicked : t.panicked = s.panicked
  closed : t.closed = s.closed
  refs : ∀ f, 1 ≤ (s.file f).ref → 1 ≤ (t.file f).ref
  before : ∀ p, (t.proc p).before = (s.proc p).before

/-- The last reference to one file goes, and the file's object is closed. -/
structure Closes (f : FileNo) (s t : State) : Prop where
  panicked : t.panicked = s.panicked
  last : (s.file f).ref = 1 ∧ (t.file f).ref = 0
  closed : t.closed = s.closed ++ (s.file f).obj.toList
  others : ∀ g, g ≠ f → t.file g = s.file g
  before : ∀ p, (t.proc p).before = (s.proc p).before

theorem Quiet.refl (s : State) : Quiet s s := ⟨rfl, rfl, fun _ => id, fun _ => rfl⟩

theorem Quiet.trans (h : Quiet s t) (h' : Quiet t u) : Quiet s u :=
  ⟨h'.panicked.trans h.panicked, h'.closed.trans h.closed, fun f hf => h'.refs f (h.refs f hf),
    fun p => (h'.before p).trans (h.before p)⟩

theorem quiet_setProc {x : Proc} (hx : x.before = (s.proc p).before) : Quiet s (s.setProc p x) := by
  refine ⟨rfl, rfl, fun _ => id, fun q => ?_⟩
  rcases eq_or_ne q p with rfl | hne
  · rw [proc_setProc_self, hx]
  · rw [proc_setProc_of_ne s x hne]

theorem quiet_setPc (s : State) (p : Fin NPROC) (pc : Pc) : Quiet s (s.setPc p pc) := quiet_setProc rfl

theorem quiet_setFd (s : State) (p : Fin NPROC) (fd : Fd) (o : Option FileNo) (pc : Pc) : Quiet s (s.setFd p fd o pc) :=
  quiet_setProc rfl

theorem quiet_setFile {y : File} (hy : 1 ≤ (s.file f).ref → 1 ≤ y.ref) : Quiet s (s.setFile f y) := by
  refine ⟨rfl, rfl, fun g hg => ?_, fun _ => rfl⟩
  show 1 ≤ (Function.update s.file f y g).ref
  rcases eq_or_ne g f with rfl | hne
  · rw [Function.update_self]
    exact hy hg
  · rwa [Function.update_of_ne hne]

theorem quiet_filealloc (s : State) (p : Fin NPROC) (found : FileNo → Pc) (failed : Pc) :
    Quiet s (s.filealloc p found failed) := by
  rw [State.filealloc]
  split
  · exact (quiet_setFile fun _ => le_refl _).trans (quiet_setPc ..)
  · exact quiet_setPc ..

theorem quiet_fdalloc (s : State) (p : Fin NPROC) (f : FileNo) (found : Fd → Pc) (failed : Pc) :
    Quiet s (s.fdalloc p f found failed) := by
  rw [State.fdalloc]
  split
  · exact quiet_setFd ..
  · exact quiet_setPc ..

theorem quiet_openObj (s : State) (f : FileNo) (kind : Kind) : Quiet s (s.openObj f kind) :=
  have h : Quiet s (s.setFile f { s.file f with obj := some ⟨kind, s.opened⟩ }) := quiet_setFile id
  ⟨h.panicked, h.closed, h.refs, h.before⟩

theorem quiet_filedup (h : 1 ≤ (s.file f).ref) : Quiet s (s.filedup f) := by
  rw [filedup_eq h]
  refine quiet_setFile fun hf => ?_
  show 1 ≤ (s.file f).ref + 1
  omega

theorem quiet_or_closes_fileclose (h : 1 ≤ (s.file f).ref) : Quiet s (s.fileclose f) ∨ Closes f s (s.fileclose f) := by
  obtain ⟨y, c, heq, href, hcase⟩ := fileclose_eq h
  rw [heq]
  rcases hcase with ⟨hone, -, rfl⟩ | ⟨hmore, -, rfl⟩
  · refine Or.inr ⟨rfl, ⟨hone, ?_⟩, rfl, fun g hg => Function.update_of_ne hg .., fun _ => rfl⟩
    show (Function.update s.file f y f).ref = 0
    rw [Function.update_self]
    omega
  · have hfile : Quiet s (s.setFile f y) := quiet_setFile fun _ => by omega
    refine Or.inl ⟨rfl, List.append_nil _, hfile.refs, fun _ => rfl⟩

theorem Closes.setPc (h : Closes f s t) (pc : Pc) : Closes f s (t.setPc p pc) :=
  ⟨h.panicked, h.last, h.closed, h.others, fun q => ((quiet_setPc t p pc).before q).trans (h.before q)⟩

theorem quiet_or_closes_continue {ok : Bool} (hs : Inv s) (h : s.continue p ok = some (e, t)) :
    Quiet s t ∨ ∃ f, Closes f s t := by
  have hclose : ∀ {f pc}, f ∈ (s.proc p).refs → Quiet s ((s.fileclose f).setPc p pc) ∨
      ∃ g, Closes g s ((s.fileclose f).setPc p pc) := by
    intro f pc hf
    rcases quiet_or_closes_fileclose (hs.ref_pos hf) with hquiet | hcloses
    · exact Or.inl (hquiet.trans (quiet_setPc ..))
    · exact Or.inr ⟨f, hcloses.setPc pc⟩
  rw [State.continue] at h
  split at h
  case h_1 => cases h
  case h_2 | h_6 | h_7 => cases h; exact Or.inl (quiet_filealloc ..)
  case h_3 | h_9 | h_10 => cases h; exact Or.inl (quiet_fdalloc ..)
  case h_4 => cases h; exact Or.inl ((quiet_openObj ..).trans (quiet_setPc ..))
  case h_5 hpc => cases h; exact Or.inl ((quiet_filedup (hs.ref_pos (hs.mem_of_filedup hpc))).trans (quiet_setPc ..))
  case h_8 =>
    split at h <;> cases h
    · exact Or.inl (((quiet_openObj ..).trans (quiet_openObj ..)).trans (quiet_setPc ..))
    · exact Or.inl (quiet_setPc ..)
  case h_11 | h_14 | h_17 => cases h; exact Or.inl (quiet_setPc ..)
  case h_12 | h_19 => cases h; exact Or.inl (quiet_setFd ..)
  case h_13 hpc => cases h; exact hclose (Inv.mem_of_leave hpc)
  case h_15 np fd fds hpc =>
    cases h
    rw [State.forkDup]
    split
    · exact Or.inl (quiet_setPc ..)
    · next f hf =>
      have hmem : f ∈ (s.proc p).refs := mem_refs_of_slot hf (by rw [hpc]; exact List.not_mem_nil)
      exact Or.inl (((quiet_filedup (hs.ref_pos hmem)).trans (quiet_setFd ..)).trans (quiet_setPc ..))
  case h_16 np hpc =>
    cases h
    have hchild : Quiet s (s.setProc np { s.proc np with life := .running }) := quiet_setProc rfl
    exact Or.inl (hchild.trans (quiet_setPc ..))
  case h_18 hpc =>
    cases h
    refine hclose ?_
    rw [Proc.refs, hpc]
    exact Multiset.mem_add.mpr (Or.inr List.mem_cons_self)
  case h_20 => cases h; exact Or.inl (quiet_setProc rfl)

theorem quiet_enter (s : State) (p : Fin NPROC) (c : Call) :
    Quiet s (s.enter p c) ∨ s.enter p c = s.panic "init exiting" := by
  cases c with
  | open' found =>
    cases found with
    | none => exact Or.inl (quiet_setPc ..)
    | some kind => exact Or.inl (quiet_setPc ..)
  | dup n =>
    rw [State.enter]
    split
    · exact Or.inl (quiet_setPc ..)
    · exact Or.inl (quiet_fdalloc ..)
  | pipe => exact Or.inl (quiet_setPc ..)
  | close n =>
    rw [State.enter]
    split <;> exact Or.inl (quiet_setPc ..)
  | fork np ok =>
    rw [State.enter]
    split
    · have hchild : Quiet s (s.setProc np { s.proc np with life := .embryo p }) := quiet_setProc rfl
      exact Or.inl (hchild.trans (quiet_setPc ..))
    · exact Or.inl (quiet_setPc ..)
  | exit =>
    rw [State.enter]
    split
    · exact Or.inr rfl
    · exact Or.inl (quiet_setPc ..)

/-- What the last step of a run from the start does to the references: the last one to a file goes, and the object of
    that file is closed; or no last one goes, and nothing is closed. -/
def Releases (s t : State) : Prop :=
  (∃ f, (s.file f).ref = 1 ∧ (t.file f).ref = 0 ∧ t.closed = s.closed ++ (s.file f).obj.toList ∧
    ∀ g, g ≠ f → t.file g = s.file g) ∨
  t.closed = s.closed ∧ ∀ f, 1 ≤ (s.file f).ref → 1 ≤ (t.file f).ref

structure StepOk (s : State) (a : Action) (t : State) : Prop where
  panicked : t.panicked = none ∨ t.panicked = some "init exiting"
  releases : Releases s t
  before : ∀ p, (∀ c, a ≠ .call p c) → (t.proc p).before = (s.proc p).before

theorem Quiet.stepOk {a : Action} (h : Quiet s t) (hs : s.panicked = none) : StepOk s a t :=
  ⟨Or.inl (h.panicked.trans hs), Or.inr ⟨h.closed, h.refs⟩, fun p _ => h.before p⟩

theorem Inv.stepOk (hs : Inv s) (h : Step s l t) : StepOk s l.1 t := by
  obtain ⟨a, e⟩ := l
  have hstep : Files.step s a = some (e, t) := h
  rw [Files.step.eq_def] at hstep
  split at hstep
  · cases hstep
  · next hnone =>
    have hnone : s.panicked = none := by simpa using hnone
    split at hstep
    · next p c =>
      split at hstep
      · cases hstep
        have hbefore : ∀ q, (∀ c', Action.call p c ≠ .call q c') →
            ((s.setProc p { s.proc p with before := (s.proc p).ofile }).proc q).before = (s.proc q).before := by
          intro q hq
          refine congrArg Proc.before (proc_setProc_of_ne s _ ?_)
          rintro rfl
          exact hq c rfl
        rcases quiet_enter (s.setProc p { s.proc p with before := (s.proc p).ofile }) p c with hquiet | hpanic
        · exact ⟨Or.inl (hquiet.panicked.trans hnone), Or.inr ⟨hquiet.closed, hquiet.refs⟩,
            fun q hq => (hquiet.before q).trans (hbefore q hq)⟩
        · rw [State.call, hpanic]
          exact ⟨Or.inr rfl, Or.inr ⟨rfl, fun _ => id⟩, hbefore⟩
      · cases hstep
    · split at hstep
      · rcases quiet_or_closes_continue hs hstep with hquiet | ⟨f, hcloses⟩
        · exact hquiet.stepOk hnone
        · exact ⟨Or.inl (hcloses.panicked.trans hnone),
            Or.inl ⟨f, hcloses.last.1, hcloses.last.2, hcloses.closed, hcloses.others⟩, fun p _ => hcloses.before p⟩
      · cases hstep
    · next p =>
      split at hstep
      · cases hstep
        have hquiet : Quiet s (s.setProc p { s.proc p with life := .unused }) := quiet_setProc rfl
        exact hquiet.stepOk hnone
      · cases hstep

/-! ### Calls that fail -/

/-- The process is not in a `fork`, and no other process is any different. -/
structure Alone (p : Fin NPROC) (s t : State) : Prop where
  others : ∀ q, q ≠ p → t.proc q = s.proc q
  pc : ∀ np fds, (t.proc p).pc ≠ .fork np fds

theorem alone_setProc {x : Proc} (h : ∀ np fds, x.pc ≠ .fork np fds) : Alone p s (s.setProc p x) :=
  ⟨fun _ hq => proc_setProc_of_ne s x hq, fun np fds => by rw [proc_setProc_self]; exact h np fds⟩

theorem alone_filealloc {found : FileNo → Pc} {failed : Pc} (hfound : ∀ f np fds, found f ≠ .fork np fds)
    (hfailed : ∀ np fds, failed ≠ .fork np fds) : Alone p s (s.filealloc p found failed) := by
  rw [State.filealloc]
  split
  · next f _ =>
    have h := @alone_setProc (s.setFile f { s.file f with ref := 1 }) p { s.proc p with pc := found f } (hfound f)
    exact ⟨h.others, h.pc⟩
  · exact alone_setProc hfailed

theorem alone_fdalloc {found : Fd → Pc} {failed : Pc} (hfound : ∀ fd np fds, found fd ≠ .fork np fds)
    (hfailed : ∀ np fds, failed ≠ .fork np fds) : Alone p s (s.fdalloc p f found failed) := by
  rw [State.fdalloc]
  split
  · exact alone_setProc (hfound _)
  · exact alone_setProc hfailed

theorem alone_of_proc {pc : Pc} (ht : t.proc = s.proc) (h : ∀ np fds, pc ≠ .fork np fds) : Alone p s (t.setPc p pc) := by
  refine ⟨fun q hq => ?_, fun np fds => ?_⟩
  · rw [State.setPc, proc_setProc_of_ne t _ hq, ht]
  · rw [State.setPc, proc_setProc_self]
    exact h np fds

theorem proc_filedup (s : State) (f : FileNo) : (s.filedup f).proc = s.proc := by
  rw [State.filedup]
  split <;> rfl

theorem alone_continue {ok : Bool} (hpc : ∀ np fds, (s.proc p).pc ≠ .fork np fds) (h : s.continue p ok = some (e, t)) :
    Alone p s t := by
  rw [State.continue] at h
  split at h
  case h_1 => cases h
  case h_2 | h_6 | h_7 => cases h; exact alone_filealloc nofun nofun
  case h_3 | h_9 | h_10 => cases h; exact alone_fdalloc nofun nofun
  case h_4 => cases h; exact alone_of_proc rfl nofun
  case h_5 => cases h; exact alone_of_proc (proc_filedup ..) nofun
  case h_8 =>
    split at h <;> cases h
    · exact alone_of_proc rfl nofun
    · exact alone_of_proc rfl nofun
  case h_11 =>
    cases h
    refine alone_setProc ?_
    split <;> nofun
  case h_12 | h_19 => cases h; exact alone_setProc nofun
  case h_13 | h_18 => cases h; exact alone_of_proc (proc_fileclose ..) nofun
  case h_14 => cases h; exact alone_setProc nofun
  case h_15 hp => exact absurd hp (hpc _ _)
  case h_16 hp => exact absurd hp (hpc _ _)
  case h_17 =>
    cases h
    refine alone_setProc ?_
    split <;> nofun
  case h_20 => cases h; exact alone_setProc nofun

theorem alone_enter {c : Call} (hc : ∀ np ok, c ≠ .fork np ok) (hpc : (s.proc p).pc = .user) : Alone p s (s.enter p c) := by
  cases c with
  | open' found =>
    cases found with
    | none => exact alone_setProc nofun
    | some kind => exact alone_setProc nofun
  | dup n =>
    rw [State.enter]
    split
    · exact alone_setProc nofun
    · exact alone_fdalloc nofun nofun
  | pipe => exact alone_setProc nofun
  | close n =>
    rw [State.enter]
    split <;> exact alone_setProc nofun
  | fork np ok => exact absurd rfl (hc np ok)
  | exit =>
    rw [State.enter]
    split
    · refine ⟨fun _ _ => rfl, fun np fds h => ?_⟩
      exact absurd (hpc.symm.trans h) nofun
    · exact alone_setProc nofun

/-- `p` makes a call that fails; the steps up to its return may be those of other processes too. -/
def Fails (p : Fin NPROC) (c : Call) (ms : List (Action × Event)) (s v : State) : Prop :=
  ∃ t u ok, Step s (.call p c, .silent) t ∧ Run Step t ms u ∧ (∀ l ∈ ms, ∀ c', l.1 ≠ .call p c') ∧
    Step u (.next p ok, .returned false) v

theorem call_of_step {c : Call} (h : Step s (.call p c, e) t) :
    (s.proc p).life = .running ∧ (s.proc p).pc = .user ∧ t = s.call p c := by
  have hstep : Files.step s (.call p c) = some (e, t) := h
  rw [Files.step.eq_def] at hstep
  split at hstep
  · cases hstep
  · simp only at hstep
    split at hstep
    · next hp =>
      cases hstep
      exact ⟨hp.1, hp.2, rfl⟩
    · cases hstep

theorem continue_of_step {ok : Bool} (h : Step s (.next p ok, e) t) :
    (s.proc p).life = .running ∧ s.continue p ok = some (e, t) := by
  have hstep : Files.step s (.next p ok) = some (e, t) := h
  rw [Files.step.eq_def] at hstep
  split at hstep
  · cases hstep
  · simp only at hstep
    split at hstep
    · next hp => exact ⟨hp, hstep⟩
    · cases hstep

/-- A call fails at its end. -/
theorem pc_of_failed {ok : Bool} (h : s.continue p ok = some (.returned false, t)) :
    (s.proc p).pc = .leave [] [] false ∧ t = s.setPc p .user := by
  rw [State.continue] at h
  split at h
  case h_1 => cases h
  case h_8 => split at h <;> cases h
  case h_14 hpc =>
    cases h
    exact ⟨hpc, rfl⟩
  all_goals cases h

theorem refs_of_user {x : Proc} (hpc : x.pc = .user) : x.refs = gather x.ofile := by
  rw [Proc.refs, hpc]
  show gather (cleared [] _) + (([] : List FileNo) : Multiset FileNo) = _
  rw [cleared_nil, Multiset.coe_nil, Multiset.add_zero]

theorem before_call (s : State) (p : Fin NPROC) (c : Call) : ((s.call p c).proc p).before = (s.proc p).ofile := by
  have hset : ((s.setProc p { s.proc p with before := (s.proc p).ofile }).proc p).before = (s.proc p).ofile := by
    rw [proc_setProc_self]
  rw [← hset, State.call]
  rcases quiet_enter (s.setProc p { s.proc p with before := (s.proc p).ofile }) p c with hquiet | hpanic
  · exact hquiet.before p
  · rw [hpanic]
    rfl

/-- A process has the descriptors and the references again that it had before a call that fails. -/
theorem Inv.fails {c : Call} {ms : List (Action × Event)} {v : State} (hs : Inv s) (h : Fails p c ms s v) :
    (v.proc p).ofile = (s.proc p).ofile ∧ (v.proc p).refs = (s.proc p).refs := by
  obtain ⟨t, u, ok, hcall, hrun, hms, hret⟩ := h
  obtain ⟨-, hpc, rfl⟩ := call_of_step hcall
  have hmid : Inv u := hrun.invariant (fun _ _ _ => Inv.step) (hs.step hcall)
  have hbefore : (u.proc p).before = (s.proc p).ofile := by
    have hall : AllSteps Step (s.call p c) ms fun _ l => ∀ c', l.1 ≠ .call p c' := .of_mem fun l hl _ => hms l hl
    refine (hall.invariant (P := fun w => Inv w ∧ (w.proc p).before = (s.proc p).ofile) ?_ ?_ hrun).2
    · rintro w l w' ⟨hw, hbefore⟩ hl hstep
      exact ⟨hw.step hstep, ((hw.stepOk hstep).before p hl).trans hbefore⟩
    · exact ⟨hs.step hcall, before_call s p c⟩
  obtain ⟨hleave, rfl⟩ := pc_of_failed (continue_of_step hret).2
  have hok : cleared [] (u.proc p).ofile = (u.proc p).before := by
    have hok := hmid.ok p
    rw [Proc.Ok, hleave] at hok
    exact hok rfl
  have hofile : ((u.setPc p .user).proc p).ofile = (s.proc p).ofile := by
    rw [State.setPc, proc_setProc_self, ← hbefore, ← hok, cleared_nil]
  refine ⟨hofile, ?_⟩
  rw [refs_of_user hpc, refs_of_user (by rw [State.setPc, proc_setProc_self]), hofile]

/-- When only that process takes steps, everything is as before. -/
theorem Inv.fails_alone {c : Call} {ms : List (Action × Event)} {v : State} (hs : Inv s) (h : Fails p c ms s v)
    (hc : ∀ np ok, c ≠ .fork np ok) (hms : ∀ l ∈ ms, ∃ ok, l.1 = .next p ok) :
    (∀ q, (v.proc q).ofile = (s.proc q).ofile) ∧ ∀ f, (v.file f).ref = (s.file f).ref := by
  have hp := hs.fails h
  obtain ⟨t, u, ok, hcall, hrun, -, hret⟩ := h
  obtain ⟨-, hpc, rfl⟩ := call_of_step hcall
  have hbegin : Alone p s (s.call p c) := by
    have hset : (s.setProc p { s.proc p with before := (s.proc p).ofile }).proc p =
        { s.proc p with before := (s.proc p).ofile } := proc_setProc_self ..
    have henter := @alone_enter (s.setProc p { s.proc p with before := (s.proc p).ofile }) p c hc (by rw [hset, hpc])
    exact ⟨fun q hq => (henter.others q hq).trans (proc_setProc_of_ne s _ hq), henter.pc⟩
  have hstay : ∀ {w w' ok e}, Alone p s w → w.continue p ok = some (e, w') → Alone p s w' := by
    intro w w' ok e hw hcont
    have hw' := alone_continue hw.pc hcont
    exact ⟨fun q hq => (hw'.others q hq).trans (hw.others q hq), hw'.pc⟩
  have hmid : Alone p s u := by
    have hall : AllSteps Step (s.call p c) ms fun _ l => ∃ ok, l.1 = .next p ok := .of_mem fun l hl _ => hms l hl
    refine hall.invariant ?_ hbegin hrun
    rintro w ⟨a, e⟩ w' hw ⟨ok, rfl⟩ hstep
    exact hstay hw (continue_of_step hstep).2
  have hend := hstay hmid (continue_of_step hret).2
  have hu : Inv u := hrun.invariant (fun _ _ _ => Inv.step) (hs.step hcall)
  have hv := hu.step hret
  refine ⟨fun q => ?_, fun f => ?_⟩
  · rcases eq_or_ne q p with rfl | hne
    · exact hp.1
    · rw [hend.others q hne]
  · rw [hv.refs, hs.refs, State.total, State.total]
    refine congrArg Nat.cast (Finset.sum_congr rfl fun q _ => ?_)
    rcases eq_or_ne q p with rfl | hne
    · rw [hp.2]
    · rw [hend.others q hne]

/-! ### Between calls, and over whole runs -/

/-- The number of descriptors of all processes that stand for a file. -/
def State.slots (s : State) (f : FileNo) : Nat :=
  (Finset.univ.filter fun x : Fin NPROC × Fd => (s.proc x.1).ofile x.2 = some f).card

theorem total_eq_slots (h : ∀ p, (s.proc p).pc = .user) (f : FileNo) : s.total f = s.slots f := by
  have hcount : ∀ p, (s.proc p).refs.count f = ∑ fd : Fd, if (s.proc p).ofile fd = some f then 1 else 0 := by
    intro p
    rw [refs_of_user (h p), count_gather, Finset.card_filter]
  rw [State.total, State.slots, Finset.card_filter, Finset.sum_congr rfl fun p _ => hcount p, ← Finset.univ_product_univ,
    Finset.sum_product]

/-- Some file is open for the object with a number. -/
def State.IsOpen (s : State) (n : Nat) : Prop := ∃ f, 1 ≤ (s.file f).ref ∧ (s.file f).obj.map Obj.id = some n

theorem Inv.ref_pos_of_obj (hs : Inv s) (h : (s.file f).obj ≠ none) : 1 ≤ (s.file f).ref := by
  have hne : (s.file f).ref ≠ 0 := fun hzero => h (hs.idle f hzero)
  have href := hs.refs f
  omega

/-- Each object is either open or has been closed, once. -/
theorem Inv.closed_once (hs : Inv s) :
    (s.closed.map Obj.id).Nodup ∧ ∀ n < s.opened, n ∈ s.closed.map Obj.id ↔ ¬ s.IsOpen n := by
  have hnodup : ((gather fun f => (s.file f).obj).map Obj.id + (s.closed.map Obj.id : List Nat)).Nodup := by
    rw [← Multiset.map_coe, ← Multiset.map_add, hs.ledger]
    exact Multiset.nodup_range _
  have hmem : ∀ {n}, n ∈ (gather fun f => (s.file f).obj).map Obj.id ↔ s.IsOpen n := by
    intro n
    rw [Multiset.mem_map]
    constructor
    · rintro ⟨o, ho, rfl⟩
      obtain ⟨f, hf⟩ := mem_gather.mp ho
      exact ⟨f, hs.ref_pos_of_obj (by rw [hf]; nofun), by rw [hf]; rfl⟩
    · rintro ⟨f, -, hf⟩
      obtain ⟨o, ho, rfl⟩ := Option.map_eq_some_iff.mp hf
      exact ⟨o, mem_gather.mpr ⟨f, ho⟩, rfl⟩
  obtain ⟨-, hclosed, hdisj⟩ := Multiset.nodup_add.mp hnodup
  refine ⟨hclosed, fun n hn => ⟨fun hin hopen => ?_, fun hopen => ?_⟩⟩
  · exact Multiset.disjoint_left.mp hdisj (hmem.mpr hopen) hin
  · have hall : n ∈ (gather fun f => (s.file f).obj).map Obj.id + (s.closed.map Obj.id : List Nat) := by
      rw [← Multiset.map_coe, ← Multiset.map_add, hs.ledger]
      exact Multiset.mem_range.mpr hn
    rcases Multiset.mem_add.mp hall with hin | hin
    · exact absurd (hmem.mp hin) hopen
    · exact hin

/-- A run of system calls of any processes: nothing panics over a reference; `ref` is the number of references, which
    between calls are the descriptors; whatever was opened is open or has been closed once, and it is closed by the step
    that takes the last reference away; and a call that fails leaves no trace. -/
theorem file_run (h : Run Step .init ls t) :
    (t.panicked ≠ some "filedup" ∧ t.panicked ≠ some "fileclose") ∧
    (∀ f, (t.file f).ref = t.total f) ∧
    ((∀ p, (t.proc p).pc = .user) → ∀ f, (t.file f).ref = t.slots f) ∧
    ((t.closed.map Obj.id).Nodup ∧ ∀ n < t.opened, n ∈ t.closed.map Obj.id ↔ ¬ t.IsOpen n) ∧
    (∀ l u, Step t l u → Releases t u) ∧
    ∀ p c ms u, Fails p c ms t u →
      (u.proc p).ofile = (t.proc p).ofile ∧ (u.proc p).refs = (t.proc p).refs ∧
      ((∀ np ok, c ≠ .fork np ok) → (∀ l ∈ ms, ∃ ok, l.1 = .next p ok) →
        (∀ q, (u.proc q).ofile = (t.proc q).ofile) ∧ ∀ f, (u.file f).ref = (t.file f).ref) := by
  have hinv := inv_run h
  refine ⟨?_, hinv.refs, fun huser f => ?_, hinv.closed_once, fun l u hstep => (hinv.stepOk hstep).releases,
    fun p c ms u hfails => ?_⟩
  · cases h with
    | refl => exact ⟨nofun, nofun⟩
    | tail hrun hstep =>
      rcases ((inv_run hrun).stepOk hstep).panicked with hnone | hinit
      · rw [hnone]
        exact ⟨nofun, nofun⟩
      · rw [hinit]
        exact ⟨by decide, by decide⟩
  · rw [hinv.refs, total_eq_slots huser]
  · obtain ⟨hofile, hrefs⟩ := hinv.fails hfails
    exact ⟨hofile, hrefs, fun hc hms => hinv.fails_alone hfails hc hms⟩

/-- The first process opens a device and duplicates its descriptor, and gets a pipe of which it closes one end. -/
def openPipe : List Action :=
  [.call initproc (.open' (some .device)), .next initproc true, .next initproc true, .next initproc true,
    .next initproc true, .call initproc (.dup 0), .next initproc true, .next initproc true, .call initproc .pipe,
    .next initproc true, .next initproc true, .next initproc true, .next initproc true, .next initproc true,
    .next initproc true, .next initproc true, .call initproc (.close 2), .next initproc true, .next initproc true,
    .next initproc true]

theorem openPipe_runs : (exec step State.init openPipe).isSome := by
  decide

theorem file_run_openPipe :
    ∃ ls t, Run Step .init ls t ∧ t.closed = [⟨.readEnd, 1⟩] ∧ (t.file ⟨0, by decide⟩).ref = 2 ∧
      (t.file ⟨0, by decide⟩).ref = t.slots ⟨0, by decide⟩ ∧ ¬ t.IsOpen 1 := by
  have h := file_run (run_exec openPipe_runs)
  refine ⟨_, _, run_exec openPipe_runs, by decide, by decide, h.2.2.1 (by decide) _, ?_⟩
  exact (h.2.2.2.1.2 1 (by decide)).mp (by decide)

end LabSO.Files

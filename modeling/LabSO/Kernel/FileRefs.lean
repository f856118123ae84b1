import LabSO.Kernel.FileTable
import Mathlib.Algebra.BigOperators.Fin
import Mathlib.Algebra.Order.BigOperators.Group.Finset

/-! The references to open files that each process has, at any time in a system call, and that `ref` is their number. -/

namespace LabSO.Files
open Kernel (NPROC NOFILE NFILE)
open Tokens

variable {s t : State} {p q np : Fin NPROC} {f g : FileNo} {fd : Fd} {fds : List Fd} {fs : List FileNo} {ofile : Table}
  {x : Proc}

/-! ### Tables -/

/-- The table without some of its descriptors. -/
def cleared (fds : List Fd) (ofile : Table) : Table := fun fd => if fd ∈ fds then none else ofile fd

@[simp] theorem cleared_nil (ofile : Table) : cleared [] ofile = ofile := by
  funext fd
  simp [cleared]

theorem cleared_cons (fd : Fd) (fds : List Fd) (ofile : Table) :
    cleared (fd :: fds) ofile = cleared fds (Function.update ofile fd none) := by
  funext fd'
  rcases eq_or_ne fd' fd with rfl | hne
  · simp [cleared]
  · simp [cleared, hne]

theorem cleared_singleton (fd : Fd) (ofile : Table) : cleared [fd] ofile = Function.update ofile fd none := by
  rw [cleared_cons, cleared_nil]

/-- What a table holds, one descriptor apart. -/
theorem gather_of_some (h : ofile fd = some f) : gather ofile = f ::ₘ gather (Function.update ofile fd none) := by
  rw [gather_eq ofile fd, h, token_some, Multiset.singleton_add]

theorem gather_set (h : ofile fd = none) : gather (Function.update ofile fd (some f)) = f ::ₘ gather ofile := by
  rw [gather_update, token_some, Multiset.singleton_add, ← h, Function.update_eq_self]

theorem freeFd_none (h : freeFd ofile = some fd) : ofile fd = none := by
  simpa using List.find?_some h

theorem argfd_some {n : Int32} (h : argfd ofile n = some (fd, f)) : ofile fd = some f := by
  rw [argfd] at h
  split at h
  · obtain ⟨g, hg, heq⟩ := Option.map_eq_some_iff.mp h
    cases heq
    exact hg
  · cases h

/-! ### References -/

/-- The files that a process has a reference to apart from its descriptors. -/
def Pc.held : Pc → List FileNo
  | .openFd _ f | .pipe1 f => [f]
  | .pipeMem rf wf | .pipeFd0 rf wf => [rf, wf]
  | .pipeFd1 _ wf _ => [wf]
  | .leave _ fs _ => fs
  | .exitClose f _ _ => [f]
  | .user | .openFile _ | .openSet _ _ _ | .filedup _ _ | .pipe0 | .pipeCopy _ _ _ _ | .fork _ _ | .exit _
  | .exitClear _ _ => []

/-- The descriptors of a process that stand for no reference. -/
def Pc.stale : Pc → List Fd
  | .filedup _ fd | .exitClose _ fd _ | .exitClear fd _ => [fd]
  | .leave fds _ _ => fds
  | .user | .openFile _ | .openFd _ _ | .openSet _ _ _ | .pipe0 | .pipe1 _ | .pipeMem _ _ | .pipeFd0 _ _ | .pipeFd1 _ _ _
  | .pipeCopy _ _ _ _ | .fork _ _ | .exit _ => []

/-- The files of a process that are not open for anything yet. -/
def Pc.fresh : Pc → List FileNo
  | .openFd _ f | .openSet _ f _ | .pipe1 f => [f]
  | .pipeMem rf wf => [rf, wf]
  | .user | .openFile _ | .filedup _ _ | .pipe0 | .pipeFd0 _ _ | .pipeFd1 _ _ _ | .pipeCopy _ _ _ _ | .leave _ _ _
  | .fork _ _ | .exit _ | .exitClose _ _ _ | .exitClear _ _ => []

/-- The references of a process. -/
def Proc.refs (x : Proc) : Multiset FileNo := gather (cleared x.pc.stale x.ofile) + x.pc.held

/-- The number of references to a file. -/
def State.total (s : State) (f : FileNo) : Nat := ∑ p, (s.proc p).refs.count f

@[simp] theorem proc_setProc_self (s : State) (p : Fin NPROC) (x : Proc) : (s.setProc p x).proc p = x :=
  Function.update_self ..

theorem proc_setProc_of_ne (s : State) (x : Proc) (h : q ≠ p) : (s.setProc p x).proc q = s.proc q :=
  Function.update_of_ne h ..

theorem total_setProc (s : State) (p : Fin NPROC) (x : Proc) (f : FileNo) :
    (s.setProc p x).total f + (s.proc p).refs.count f = s.total f + x.refs.count f := by
  have hrest : ∑ q ∈ Finset.univ.erase p, ((s.setProc p x).proc q).refs.count f =
      ∑ q ∈ Finset.univ.erase p, (s.proc q).refs.count f :=
    Finset.sum_congr rfl fun q hq => by rw [proc_setProc_of_ne s x (Finset.ne_of_mem_erase hq)]
  have hnew := Finset.add_sum_erase Finset.univ (fun q => ((s.setProc p x).proc q).refs.count f) (Finset.mem_univ p)
  have hold := Finset.add_sum_erase Finset.univ (fun q => (s.proc q).refs.count f) (Finset.mem_univ p)
  simp only [proc_setProc_self, hrest] at hnew
  rw [State.total, State.total]
  omega

theorem count_le_total (s : State) (p : Fin NPROC) (f : FileNo) : (s.proc p).refs.count f ≤ s.total f :=
  Finset.single_le_sum (f := fun q => (s.proc q).refs.count f) (fun _ _ => Nat.zero_le _) (Finset.mem_univ p)

theorem count_add_count_le_total (s : State) (f : FileNo) (h : p ≠ q) :
    (s.proc p).refs.count f + (s.proc q).refs.count f ≤ s.total f := by
  have hle := Finset.sum_le_sum_of_subset (f := fun q => (s.proc q).refs.count f) (Finset.subset_univ {p, q})
  rwa [Finset.sum_pair h] at hle

/-! ### The invariant -/

/-- Where a process stands agrees with its descriptors, now and at the start of its call. -/
def Proc.Ok (x : Proc) : Prop :=
  match x.pc with
  | .openFile _ | .openFd _ _ | .pipe0 | .pipe1 _ | .pipeFd0 _ _ => x.ofile = x.before
  | .pipeMem rf wf => x.ofile = x.before ∧ rf ≠ wf
  | .openSet _ f fd => x.ofile fd = some f
  | .filedup f fd => x.ofile fd = some f ∧ ∃ fd', fd' ≠ fd ∧ x.ofile fd' = some f
  | .pipeFd1 rf _ fd0 => x.ofile fd0 = some rf ∧ cleared [fd0] x.ofile = x.before
  | .pipeCopy rf wf fd0 fd1 =>
    fd1 ≠ fd0 ∧ x.ofile fd0 = some rf ∧ x.ofile fd1 = some wf ∧ cleared [fd0, fd1] x.ofile = x.before
  | .leave fds _ ok => ok = false → cleared fds x.ofile = x.before
  | .exit fds => ∀ fd, x.ofile fd ≠ none → fd ∈ fds
  | .exitClose _ fd fds | .exitClear fd fds => ∀ fd', x.ofile fd' ≠ none → fd' = fd ∨ fd' ∈ fds
  | .user | .fork _ _ => True

structure Inv (s : State) : Prop where
  refs : ∀ f, (s.file f).ref = s.total f
  idle : ∀ f, (s.file f).ref = 0 → (s.file f).obj = none
  ok : ∀ p, (s.proc p).Ok
  fresh : ∀ p, ∀ f ∈ (s.proc p).pc.fresh, (s.file f).ref = 1 ∧ (s.file f).obj = none
  still : ∀ p, (s.proc p).life ≠ .running → (s.proc p).pc = .user
  gone : ∀ p, (s.proc p).life = .unused ∨ (s.proc p).life = .zombie → (s.proc p).ofile = noFiles
  forked : ∀ p np fds, (s.proc p).pc = .fork np fds →
    (s.proc np).life = .embryo p ∧ fds.Nodup ∧ ∀ fd ∈ fds, (s.proc np).ofile fd = none
  ledger : (gather (fun f => (s.file f).obj) + s.closed).map Obj.id = Multiset.range s.opened

theorem gather_noFiles : gather noFiles = 0 := by
  refine Multiset.eq_zero_of_forall_notMem fun f hf => ?_
  obtain ⟨fd, hfd⟩ := mem_gather.mp hf
  cases hfd

theorem inv_init : Inv .init where
  refs f := by
    have hzero : ∀ p, (State.init.proc p).refs.count f = 0 := by
      intro p
      simp [State.init, Proc.refs, Pc.stale, Pc.held, gather_noFiles]
    rw [State.total, Finset.sum_eq_zero fun p _ => hzero p]
    rfl
  idle _ _ := rfl
  ok _ := trivial
  fresh _ _ hf := by cases hf
  still _ _ := rfl
  gone _ _ := rfl
  forked _ _ _ h := by cases h
  ledger := by
    have hnone : gather (fun f => (State.init.file f).obj) = 0 := by
      refine Multiset.eq_zero_of_forall_notMem fun o ho => ?_
      obtain ⟨f, hf⟩ := mem_gather.mp ho
      cases hf
    rw [hnone]
    rfl

theorem mem_refs_of_slot (hfd : x.ofile fd = some f) (hstale : fd ∉ x.pc.stale) : f ∈ x.refs := by
  refine Multiset.mem_add.mpr (Or.inl (mem_gather.mpr ⟨fd, ?_⟩))
  rw [cleared, if_neg hstale, hfd]

/-- A file that is not open for anything yet is in the hands of the process that opens it. -/
theorem Proc.Ok.mem_of_fresh (hok : x.Ok) (hf : f ∈ x.pc.fresh) : f ∈ x.refs := by
  have hheld : ∀ {l : List FileNo}, f ∈ l → x.pc.held = l → f ∈ x.refs := by
    rintro l hl rfl
    exact Multiset.mem_add.mpr (Or.inr hl)
  rw [Proc.Ok] at hok
  cases hpc : x.pc with
  | openSet kind g fd =>
    rw [hpc] at hf hok
    obtain rfl := List.mem_singleton.mp hf
    exact mem_refs_of_slot hok (by rw [hpc]; exact List.not_mem_nil)
  | openFd | pipe1 | pipeMem =>
    rw [hpc] at hf
    exact hheld hf (by rw [hpc]; rfl)
  | _ =>
    rw [hpc] at hf
    cases hf

theorem Inv.ref_pos (hs : Inv s) (h : f ∈ (s.proc p).refs) : 1 ≤ (s.file f).ref := by
  have hcount := Multiset.count_pos.mpr h
  have hle := count_le_total s p f
  rw [hs.refs f]
  omega

/-- No other process has a reference to a file that is not open for anything yet. -/
theorem Inv.notMem_of_fresh (hs : Inv s) (hf : f ∈ (s.proc q).pc.fresh) (hpq : p ≠ q) : f ∉ (s.proc p).refs := by
  intro hmem
  have hp := Multiset.count_pos.mpr hmem
  have hq := Multiset.count_pos.mpr ((hs.ok q).mem_of_fresh hf)
  have hle := count_add_count_le_total s f hpq
  have hone := (hs.fresh q f hf).1
  rw [hs.refs f] at hone
  omega

/-! ### Steps -/

/-- What a process may become, the files being as given. -/
structure Next (file : FileNo → File) (s : State) (p : Fin NPROC) (x : Proc) : Prop where
  ok : x.Ok
  fresh : ∀ f ∈ x.pc.fresh, (file f).ref = 1 ∧ (file f).obj = none
  still : x.life ≠ .running → x.pc = .user
  gone : x.life = .unused ∨ x.life = .zombie → x.ofile = noFiles
  forked : ∀ np fds, x.pc = .fork np fds →
    np ≠ p ∧ (s.proc np).life = .embryo p ∧ fds.Nodup ∧ ∀ fd ∈ fds, (s.proc np).ofile fd = none
  forkee : ∀ r fds, r ≠ p → (s.proc r).pc = .fork p fds → x.life = .embryo r ∧ ∀ fd ∈ fds, x.ofile fd = none

/-- A process that runs goes on; it is not being forked. -/
theorem Inv.next (hs : Inv s) (hrun : (s.proc p).life = .running) {file : FileNo → File} {before : Table} {pc : Pc}
    (hok : Proc.Ok ⟨(s.proc p).life, ofile, pc, before⟩)
    (hfresh : ∀ f ∈ pc.fresh, (file f).ref = 1 ∧ (file f).obj = none)
    (hforked : ∀ np fds, pc = .fork np fds →
      (s.proc np).life = .embryo p ∧ fds.Nodup ∧ ∀ fd ∈ fds, (s.proc np).ofile fd = none) :
    Next file s p ⟨(s.proc p).life, ofile, pc, before⟩ where
  ok := hok
  fresh := hfresh
  still h := absurd hrun h
  gone h := by
    simp only [hrun] at h
    rcases h with h | h <;> cases h
  forked np fds h := by
    refine ⟨?_, hforked np fds h⟩
    rintro rfl
    have hembryo := (hforked np fds h).1
    rw [hrun] at hembryo
    cases hembryo
  forkee r fds _ h := by
    have hembryo := (hs.forked r p fds h).1
    rw [hrun] at hembryo
    cases hembryo

/-- A process goes on, or comes or goes, and the references to each file change with its own. -/
theorem Inv.go (hs : Inv s) {file : FileNo → File} {opened : Nat} {closed : List Obj} (hx : Next file s p x)
    (hrefs : ∀ g, (file g).ref + (s.proc p).refs.count g = (s.file g).ref + x.refs.count g)
    (hidle : ∀ g, (file g).ref = 0 → (file g).obj = none)
    (hother : ∀ q, q ≠ p → ∀ g ∈ (s.proc q).pc.fresh, file g = s.file g)
    (hledger : (gather (fun f => (file f).obj) + closed).map Obj.id = Multiset.range opened) :
    Inv { s.setProc p x with file, opened, closed } where
  refs g := by
    have htotal := total_setProc s p x g
    have hg := hrefs g
    have hold := hs.refs g
    show (file g).ref = (s.setProc p x).total g
    omega
  idle := hidle
  ok q := by
    show ((s.setProc p x).proc q).Ok
    rcases eq_or_ne q p with rfl | hne
    · rw [proc_setProc_self]
      exact hx.ok
    · rw [proc_setProc_of_ne s x hne]
      exact hs.ok q
  fresh q := by
    show ∀ g ∈ ((s.setProc p x).proc q).pc.fresh, _
    rcases eq_or_ne q p with rfl | hne
    · rw [proc_setProc_self]
      exact hx.fresh
    · rw [proc_setProc_of_ne s x hne]
      intro g hg
      show (file g).ref = 1 ∧ (file g).obj = none
      rw [hother q hne g hg]
      exact hs.fresh q g hg
  still q := by
    show ((s.setProc p x).proc q).life ≠ .running → ((s.setProc p x).proc q).pc = .user
    rcases eq_or_ne q p with rfl | hne
    · rw [proc_setProc_self]
      exact hx.still
    · rw [proc_setProc_of_ne s x hne]
      exact hs.still q
  gone q := by
    show ((s.setProc p x).proc q).life = _ ∨ ((s.setProc p x).proc q).life = _ → ((s.setProc p x).proc q).ofile = _
    rcases eq_or_ne q p with rfl | hne
    · rw [proc_setProc_self]
      exact hx.gone
    · rw [proc_setProc_of_ne s x hne]
      exact hs.gone q
  forked q np fds h := by
    have hq : ((s.setProc p x).proc q).pc = .fork np fds := h
    show ((s.setProc p x).proc np).life = .embryo q ∧ _ ∧ ∀ fd ∈ fds, ((s.setProc p x).proc np).ofile fd = none
    rcases eq_or_ne q p with rfl | hne
    · rw [proc_setProc_self] at hq
      obtain ⟨hnp, hforked⟩ := hx.forked np fds hq
      rwa [proc_setProc_of_ne s x hnp]
    · rw [proc_setProc_of_ne s x hne] at hq
      have hforked := hs.forked q np fds hq
      rcases eq_or_ne np p with rfl | hnp
      · rw [proc_setProc_self]
        obtain ⟨hlife, hnone⟩ := hx.forkee q fds hne hq
        exact ⟨hlife, hforked.2.1, hnone⟩
      · rwa [proc_setProc_of_ne s x hnp]
  ledger := hledger

theorem Inv.stay (hs : Inv s) (hx : Next s.file s p x) (hrefs : x.refs = (s.proc p).refs) : Inv (s.setProc p x) :=
  hs.go hx (fun g => by rw [hrefs]) hs.idle (fun _ _ _ _ => rfl) hs.ledger

/-- The objects of the files, when one of them changes. -/
theorem gather_obj (file : FileNo → File) (f : FileNo) (y : File) :
    gather (fun g => (Function.update file f y g).obj) =
      token y.obj + gather (Function.update (fun g => (file g).obj) f none) := by
  have hupdate : (fun g => (Function.update file f y g).obj) = Function.update (fun g => (file g).obj) f y.obj := by
    funext g
    rcases eq_or_ne g f with rfl | hne
    · simp
    · simp [hne]
  rw [hupdate, gather_update]

theorem gather_obj_same (file : FileNo → File) (f : FileNo) {y : File} (h : y.obj = (file f).obj) :
    gather (fun g => (Function.update file f y g).obj) = gather fun g => (file g).obj := by
  rw [gather_obj, h, ← gather_eq (fun g => (file g).obj) f]

/-- A process takes one more reference to a file. -/
theorem Inv.gain (hs : Inv s) {n : Int} (hn : n = (s.file f).ref + 1)
    (hx : Next (Function.update s.file f { s.file f with ref := n }) s p x) (hrefs : x.refs = f ::ₘ (s.proc p).refs)
    (hother : ∀ q, q ≠ p → f ∉ (s.proc q).pc.fresh) : Inv ((s.setFile f { s.file f with ref := n }).setProc p x) := by
  have hpos := hs.refs f
  refine @Inv.go s p x hs (Function.update s.file f _) _ _ hx (fun g => ?_) (fun g hg => ?_) (fun q hq g hg => ?_) ?_
  · rcases eq_or_ne g f with rfl | hne
    · rw [Function.update_self, hrefs, Multiset.count_cons_self, hn]
      push_cast
      omega
    · rw [Function.update_of_ne hne, hrefs, Multiset.count_cons_of_ne hne]
  · rcases eq_or_ne g f with rfl | hne
    · rw [Function.update_self] at hg
      simp only at hg
      omega
    · rw [Function.update_of_ne hne] at hg ⊢
      exact hs.idle g hg
  · refine Function.update_of_ne ?_ ..
    rintro rfl
    exact hother q hq hg
  · rw [gather_obj_same s.file f (y := { s.file f with ref := n }) rfl]
    exact hs.ledger

/-- What `fileclose` does to a file with references, and which object it closes. -/
theorem fileclose_eq (h : 1 ≤ (s.file f).ref) :
    ∃ y c, s.fileclose f = { s.setFile f y with closed := s.closed ++ c } ∧ y.ref = (s.file f).ref - 1 ∧
      ((s.file f).ref = 1 ∧ y.obj = none ∧ c = (s.file f).obj.toList ∨ 1 < (s.file f).ref ∧ y.obj = (s.file f).obj ∧ c = []) := by
  rw [State.fileclose, if_neg (by omega)]
  split
  · next hmore =>
    refine ⟨{ s.file f with ref := (s.file f).ref - 1 }, [], ?_, rfl, Or.inr ⟨by omega, rfl, rfl⟩⟩
    rw [List.append_nil]
    rfl
  · next hlast =>
    refine ⟨{ ref := 0, obj := none }, _, rfl, ?_, Or.inl ⟨by omega, rfl, rfl⟩⟩
    show (0 : Int) = _
    omega

theorem coe_toList (o : Option Obj) : ((o.toList : List Obj) : Multiset Obj) = token o := by
  cases o <;> rfl

/-- A process gives up a reference to a file. -/
theorem Inv.lose (hs : Inv s) (hx : ∀ file, Next file s p x)
    (hrefs : (s.proc p).refs = f ::ₘ x.refs) : Inv ((s.fileclose f).setProc p x) := by
  have hmem : f ∈ (s.proc p).refs := hrefs ▸ Multiset.mem_cons_self f _
  have hpos := hs.ref_pos hmem
  obtain ⟨y, c, heq, href, hcase⟩ := fileclose_eq hpos
  rw [heq]
  refine @Inv.go s p x hs (Function.update s.file f y) _ (s.closed ++ c) (hx _) (fun g => ?_) (fun g hg => ?_)
    (fun q hq g hg => ?_) ?_
  · rcases eq_or_ne g f with rfl | hne
    · rw [Function.update_self, hrefs, Multiset.count_cons_self, href]
      push_cast
      omega
    · rw [Function.update_of_ne hne, hrefs, Multiset.count_cons_of_ne hne]
  · rcases eq_or_ne g f with rfl | hne
    · rw [Function.update_self] at hg ⊢
      rcases hcase with ⟨-, hnone, -⟩ | ⟨hmore, -, -⟩
      · exact hnone
      · omega
    · rw [Function.update_of_ne hne] at hg ⊢
      exact hs.idle g hg
  · refine Function.update_of_ne ?_ ..
    rintro rfl
    exact hs.notMem_of_fresh hg hq.symm hmem
  · rcases hcase with ⟨-, hnone, rfl⟩ | ⟨-, hsame, rfl⟩
    · rw [gather_obj, hnone, token_none, Multiset.zero_add, ← Multiset.coe_add, coe_toList, Multiset.add_comm _ (token _),
        ← Multiset.add_assoc, Multiset.add_comm _ (token _), ← gather_eq (fun g => (s.file g).obj) f]
      exact hs.ledger
    · rw [gather_obj_same s.file f hsame, List.append_nil]
      exact hs.ledger

/-! ### Steps of the system calls -/

theorem Inv.next_leave (hs : Inv s) {file : FileNo → File} {ok : Bool} (hrun : (s.proc p).life = .running)
    (hok : ok = false → cleared fds ofile = (s.proc p).before) :
    Next file s p { s.proc p with ofile, pc := .leave fds fs ok } :=
  hs.next hrun hok nofun nofun

theorem refs_of_pc {pc : Pc} (hstale : pc.stale = []) :
    Proc.refs { x with pc } = gather x.ofile + pc.held := by
  rw [Proc.refs, hstale, cleared_nil]

/-- `filealloc`, before which the process holds no slot that is stale. -/
theorem Inv.filealloc (hs : Inv s) {found : FileNo → Pc} {failed : Pc}
    (hstale : (s.proc p).pc.stale = [])
    (hfound : ∀ f, (s.file f).ref = 0 → ((found f).held : Multiset FileNo) = f ::ₘ (s.proc p).pc.held ∧
      (found f).stale = [] ∧ Next (Function.update s.file f { s.file f with ref := 1 }) s p { s.proc p with pc := found f })
    (hfailed : failed.held = (s.proc p).pc.held ∧ failed.stale = [] ∧ Next s.file s p { s.proc p with pc := failed }) :
    Inv (s.filealloc p found failed) := by
  rw [State.filealloc]
  split
  · next f hf =>
    have hzero : (s.file f).ref = 0 := by simpa using List.find?_some hf
    obtain ⟨hheld, hst, hnext⟩ := hfound f hzero
    refine hs.gain (by omega) hnext ?_ fun q _ hq => ?_
    · rw [refs_of_pc hst, hheld, Proc.refs, hstale, cleared_nil, Multiset.add_cons]
      rfl
    · have hone := (hs.fresh q f hq).1
      omega
  · obtain ⟨hheld, hst, hnext⟩ := hfailed
    refine hs.stay hnext ?_
    rw [refs_of_pc hst, hheld, Proc.refs, hstale, cleared_nil]

/-- `fdalloc`: the process gives the reference that it holds to a free descriptor. -/
theorem Inv.fdalloc (hs : Inv s) {found : Fd → Pc} {failed : Pc}
    (hstale : (s.proc p).pc.stale = [])
    (hfound : ∀ fd, (s.proc p).ofile fd = none → Next s.file s p
        { s.proc p with ofile := Function.update (s.proc p).ofile fd (some f), pc := found fd } ∧
      ((found fd).stale = [] ∧ ((f :: (found fd).held : List FileNo) : Multiset FileNo) = (s.proc p).pc.held ∨
        (found fd).stale = [fd] ∧ (found fd).held = (s.proc p).pc.held))
    (hfailed : failed.held = (s.proc p).pc.held ∧ failed.stale = [] ∧ Next s.file s p { s.proc p with pc := failed }) :
    Inv (s.fdalloc p f found failed) := by
  rw [State.fdalloc]
  split
  · next fd hfd =>
    have hnone := freeFd_none hfd
    obtain ⟨hnext, hcase⟩ := hfound fd hnone
    refine hs.stay hnext ?_
    rw [Proc.refs, Proc.refs, hstale, cleared_nil]
    rcases hcase with ⟨hst, hheld⟩ | ⟨hst, hheld⟩
    · show gather (cleared (found fd).stale (Function.update _ fd (some f))) + ((found fd).held : Multiset FileNo) = _
      rw [hst, cleared_nil, gather_set hnone, ← hheld, ← Multiset.cons_coe, Multiset.add_cons, Multiset.cons_add]
    · show gather (cleared (found fd).stale (Function.update _ fd (some f))) + ((found fd).held : Multiset FileNo) = _
      rw [hst, hheld, cleared_singleton, Function.update_idem, ← hnone, Function.update_eq_self]
  · obtain ⟨hheld, hst, hnext⟩ := hfailed
    refine hs.stay hnext ?_
    rw [refs_of_pc hst, hheld, Proc.refs, hstale, cleared_nil]

/-- A process goes on with the same descriptors. -/
theorem Inv.setPc (hs : Inv s) {pc : Pc}
    (hnext : Next s.file s p { s.proc p with pc })
    (hrefs : gather (cleared pc.stale (s.proc p).ofile) + pc.held = (s.proc p).refs) : Inv (s.setPc p pc) :=
  hs.stay hnext hrefs

end LabSO.Files

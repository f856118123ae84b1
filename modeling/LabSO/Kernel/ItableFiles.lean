import LabSO.Kernel.ItableFree
import Mathlib.Data.Fintype.Card

/-! Whether `iget` finds an entry: in any run of the table, and when processes open many files. -/

namespace LabSO.Itable
open Kernel (NINODE NPROC NOFILE NFILE NDEV Dinode)
open Transition

/-! ### Enough entries -/

section
variable {P : Type*} [DecidableEq P] {s t : State P} {a : Action P} {ls : List (Action P × Event)} {disk : Ino → Dinode}

/-- The entries that somebody has a reference to. -/
def State.inUse (s : State P) : Finset (Fin NINODE) := Finset.univ.filter fun i => s.refs i ≠ 0

theorem Move.not_panicked (hr : Refs s) (hroom : ∀ p ino, Gets s a p ino → s.lookup ino = none → s.inUse.card < NINODE)
    (hno : s.panicked ≠ some "iget: no inodes") (h : Move s a t) : t.panicked ≠ some "iget: no inodes" := by
  cases h with
  | @noInodes a p ino hget hmiss hi =>
    have hall : s.inUse = Finset.univ := by
      refine Finset.filter_true_of_mem fun i _ hzero => empty_missed hi i ?_
      rw [hr.count, hzero]
      rfl
    have hlt := hroom p ino hget hmiss
    rw [hall, Finset.card_univ, Fintype.card_fin] at hlt
    exact absurd hlt (lt_irrefl _)
  | panic hmsg => exact fun h => hmsg (Option.some.inj h)
  | noType => exact fun h => absurd (Option.some.inj h) (by decide)
  | _ => exact hno

/-- `iget` panics in no run that asks for an inode without an entry only when fewer than `NINODE` entries are in use. -/
theorem iget_finds (hroom : AllSteps Step (.init disk) ls fun (s : State P) l => ∀ p ino, Gets s l.1 p ino →
    s.lookup ino = none → s.inUse.card < NINODE) :
    AllStates Step (.init disk) ls fun s => s.panicked ≠ some "iget: no inodes" := by
  have hstep : ∀ (s : State P) l t, Refs s ∧ s.panicked ≠ some "iget: no inodes" →
      (∀ p ino, Gets s l.1 p ino → s.lookup ino = none → s.inUse.card < NINODE) → Step s l t →
      Refs t ∧ t.panicked ≠ some "iget: no inodes" := by
    rintro s l t ⟨hr, hno⟩ hroom hstep
    exact ⟨(move_of_step hstep).refs hr, (move_of_step hstep).not_panicked hr hroom hno⟩
  exact (AllSteps.allStates hstep ⟨refs_init disk, nofun⟩ hroom).mono fun s hs => hs.2

theorem iget_finds_allocPut : ∃ ls t, Run Step blank ls t ∧ ls.map Prod.fst = allocPut ∧
    AllStates Step blank ls fun s => s.panicked ≠ some "iget: no inodes" := by
  have hroom : ∀ x ∈ steps step blank allocPut, x.1.inUse.card < NINODE := by decide +kernel
  have hall : AllSteps Step blank ((exec step blank allocPut).get exec_allocPut).1 fun s _ => s.inUse.card < NINODE :=
    allSteps_exec exec_allocPut hroom
  exact ⟨_, _, run_exec exec_allocPut, map_fst_of_exec (Option.some_get exec_allocPut).symm,
    iget_finds fun ms l s hms hs _ _ _ _ => hall ms l s hms hs⟩

end

/-! ### Opening files -/

def ROOTDEV : UInt32 := 1
def ROOTINO : UInt32 := 1
def T_DIR : Int16 := 1
def T_DEVICE : Int16 := 3

/-- What a system call does with the table and the open files, up to its return value. -/
inductive Use
  | done (r : Int)
  | iget (inum : UInt32) (k : Fin NINODE → Use)
  /-- `idup` of the current directory. -/
  | idupCwd (k : Fin NINODE → Use)
  | ilock (i : Fin NINODE) (k : Dinode → Use)
  | iunlock (i : Fin NINODE) (k : Use)
  | iput (i : Fin NINODE) (k : Use)
  /-- The entries in use of a locked directory, as `readi` gives them. -/
  | dirents (i : Fin NINODE) (k : List (List UInt8 × UInt32) → Use)
  | filealloc (k : Option (Fin NFILE) → Use)
  | fdalloc (f : Fin NFILE) (k : Option (Fin NOFILE) → Use)
  /-- The file becomes that of the inode. -/
  | setFile (f : Fin NFILE) (i : Fin NINODE) (k : Use)
  /-- `fileclose` of a file that is not open for an inode yet. -/
  | fileclose (f : Fin NFILE) (k : Use)

def Use.iunlockput (i : Fin NINODE) (k : Use) : Use := .iunlock i (.iput i k)

/-- The loop of `namex` for a path with these elements; without the inode of one of them there is no result. -/
def namexFrom (ip : Fin NINODE) (k : Option (Fin NINODE) → Use) : List (List UInt8) → Use
  | [] => k (some ip)
  | name :: path =>
    .ilock ip fun d =>
      if d.type ≠ T_DIR then .iunlockput ip (k none)
      else
        .dirents ip fun es =>
          match es.lookup name with
          | none => .iunlockput ip (k none)
          | some inum => .iget inum fun next => .iunlockput ip (namexFrom next k path)

/-- Look up and return the inode for a path name. -/
def namei (absolute : Bool) (path : List (List UInt8)) (k : Option (Fin NINODE) → Use) : Use :=
  if absolute then .iget ROOTINO fun ip => namexFrom ip k path else .idupCwd fun ip => namexFrom ip k path

/-- `open(path, O_RDONLY)`. -/
def sysOpen (absolute : Bool) (path : List (List UInt8)) : Use :=
  namei absolute path fun
    | none => .done (-1)
    | some ip =>
      .ilock ip fun d =>
        if d.type = T_DEVICE ∧ (d.major < 0 ∨ d.major ≥ .ofNat NDEV) then .iunlockput ip (.done (-1))
        else
          .filealloc fun
            | none => .iunlockput ip (.done (-1))
            | some f =>
              .fdalloc f fun
                | none => .fileclose f (.iunlockput ip (.done (-1)))
                | some fd => .setFile f ip (.iunlock ip (.done fd))

structure OpenFile where
  ref : Int
  ip : Option (Fin NINODE)

structure FileProc where
  cwd : Fin NINODE
  ofile : Fin NOFILE → Option (Fin NFILE)

/-- The inode table, the directories, the open files and the processes, with what they have still to do in a system call. -/
structure Openers where
  table : State (Fin NPROC)
  dirs : Ino → List (List UInt8 × UInt32)
  ftable : Fin NFILE → OpenFile
  proc : Fin NPROC → Option FileProc
  calls : Fin NPROC → Use

inductive Syscall
  | open' (absolute : Bool) (path : List (List UInt8))
  /-- `allocproc` has found the slot `np`. -/
  | fork (np : Fin NPROC)

inductive OpenersAction
  | call (p : Fin NPROC) (c : Syscall)
  | next (p : Fin NPROC)

def Openers.setCall (s : Openers) (p : Fin NPROC) (use : Use) : Openers := { s with calls := Function.update s.calls p use }

/-- The function of the table that a system call comes to. -/
def Openers.function (s : Openers) (p : Fin NPROC) : Option Call :=
  match s.calls p with
  | .iget inum _ => some (.iget ⟨ROOTDEV, inum⟩)
  | .idupCwd _ => (s.proc p).map fun x => .idup x.cwd
  | .ilock i _ => some (.ilock i)
  | .iunlock i _ => some (.iunlock i)
  | .iput i _ => some (.iput i)
  | .done _ | .dirents _ _ | .filealloc _ | .fdalloc _ _ | .setFile _ _ _ | .fileclose _ _ => none

/-- The function has returned. -/
def Openers.returned (s : Openers) (p : Fin NPROC) (e : Event) : Use :=
  match s.calls p, e with
  | .iget _ k, some i => k i
  | .idupCwd k, _ => match s.proc p with
    | some x => k x.cwd
    | none => .idupCwd k
  | .ilock i k, _ => k (s.table.entry i).toDinode
  | .iunlock _ k, _ | .iput _ k, _ => k
  | use, _ => use

/-- A step of the table, after which the process is in the function still, or goes on in its system call. -/
def Openers.onTable (s : Openers) (p : Fin NPROC) (a : Action (Fin NPROC)) : Option Openers := do
  let (e, table) ← step s.table a
  let s : Openers := { s with table }
  return if table.pc p = .idle then s.setCall p (s.returned p e) else s

/-- What a system call does besides, one step each. -/
def Openers.onFiles (s : Openers) (p : Fin NPROC) : Option Openers := do
  let x ← s.proc p
  match s.calls p with
  | .dirents i k => return s.setCall p (k (s.dirs (s.table.entry i).toIno))
  | .filealloc k =>
    match (List.finRange NFILE).find? fun f => (s.ftable f).ref == 0 with
    | none => return s.setCall p (k none)
    | some f => return { s.setCall p (k (some f)) with ftable := Function.update s.ftable f { s.ftable f with ref := 1 } }
  | .fdalloc f k =>
    match (List.finRange NOFILE).find? fun fd => (x.ofile fd).isNone with
    | none => return s.setCall p (k none)
    | some fd =>
      return { s.setCall p (k (some fd)) with
        proc := Function.update s.proc p (some { x with ofile := Function.update x.ofile fd (some f) }) }
  | .setFile f i k => return { s.setCall p k with ftable := Function.update s.ftable f { s.ftable f with ip := some i } }
  | .fileclose f k => return { s.setCall p k with ftable := Function.update s.ftable f { ref := 0, ip := none } }
  | .done _ | .iget _ _ | .idupCwd _ | .ilock _ _ | .iunlock _ _ | .iput _ _ => none

/-- `fork`: the child has the files of its parent and its current directory. -/
def Openers.fork (s : Openers) (p np : Fin NPROC) : Option Openers := do
  let x ← s.proc p
  if (s.proc np).isSome then none
  else
    let (_, table) ← step s.table (.call p (.idup x.cwd))
    let (_, table) ← step table (.pass p x.cwd np)
    let ftable f := { s.ftable f with ref := (s.ftable f).ref + ((List.finRange NOFILE).countP fun fd => x.ofile fd == some f) }
    return { s with table, ftable, proc := Function.update s.proc np (some x) }

def Openers.step (s : Openers) : OpenersAction → Option Openers
  | .call p c =>
    match s.table.pc p, s.calls p, c with
    | .idle, .done _, .open' absolute path => some (s.setCall p (sysOpen absolute path))
    | .idle, .done _, .fork np => s.fork p np
    | _, _, _ => none
  | .next p =>
    match s.table.pc p, s.function p with
    | .idle, some c => s.onTable p (.call p c)
    | .idle, none => s.onFiles p
    | _, _ => s.onTable p (.next p)

instance : NeZero NPROC := ⟨by decide⟩

/-- The name of a file. -/
def fileName (n : Nat) : List UInt8 := [102, .ofNat (48 + n / 10), .ofNat (48 + n % 10)]

/-- The first process runs in the root directory, which has fifty files. -/
def Openers.boot : Openers where
  table := (State.iget (.init fun ino => if ino.inum = ROOTINO then { Dinode.zero with type := T_DIR, nlink := 1, size := 832 }
    else { Dinode.zero with type := 2, nlink := 1 }) 0 ⟨ROOTDEV, ROOTINO⟩).2
  dirs _ := [([46], ROOTINO), ([46, 46], ROOTINO)] ++ (List.range 50).map fun n => (fileName n, .ofNat (2 + n))
  ftable _ := { ref := 0, ip := none }
  proc p := if p = 0 then some { cwd := 0, ofile := fun _ => none } else none
  calls _ := .done 0

/-- Process `n / 16` opens the file with number `n`. -/
def openFile (n : Nat) : List OpenersAction :=
  .call (.ofNat _ (n / NOFILE)) (.open' true [fileName n]) :: List.replicate 15 (.next (.ofNat _ (n / NOFILE)))

/-- Three forks, and fifty files, up to `iget` of the last one. -/
def openMany : List OpenersAction :=
  [.call 0 (.fork 1), .call 0 (.fork 2), .call 0 (.fork 3)] ++ ((List.range 50).flatMap openFile).take 791

theorem Openers.onTable_table {s t : Openers} {p : Fin NPROC} {a : Action (Fin NPROC)} (h : s.onTable p a = some t) :
    ∃ ls, Run Step s.table ls t.table := by
  obtain ⟨⟨e, table⟩, hstep, heq⟩ := Option.bind_eq_some_iff.mp h
  refine ⟨[(a, e)], .single (hstep.trans ?_)⟩
  simp only at heq
  split at heq <;> cases heq <;> rfl

theorem Openers.onFiles_table {s t : Openers} {p : Fin NPROC} (h : s.onFiles p = some t) : t.table = s.table := by
  obtain ⟨x, -, heq⟩ := Option.bind_eq_some_iff.mp h
  split at heq
  · cases heq
    rfl
  · split at heq <;> cases heq <;> rfl
  · split at heq <;> cases heq <;> rfl
  · cases heq
    rfl
  · cases heq
    rfl
  all_goals cases heq

theorem Openers.fork_table {s t : Openers} {p np : Fin NPROC} (h : s.fork p np = some t) :
    ∃ ls, Run Step s.table ls t.table := by
  obtain ⟨x, -, h⟩ := Option.bind_eq_some_iff.mp h
  split at h
  · cases h
  · obtain ⟨⟨e, table⟩, hidup, h⟩ := Option.bind_eq_some_iff.mp h
    obtain ⟨⟨e', table'⟩, hpass, h⟩ := Option.bind_eq_some_iff.mp h
    cases h
    exact ⟨_, (Run.single (l := (_, e)) hidup).tail (l := (_, e')) hpass⟩

/-- What the system calls do with the table are steps of it. -/
theorem Openers.step_table {s t : Openers} {a : OpenersAction} (h : s.step a = some t) : ∃ ls, Run Step s.table ls t.table := by
  rw [Openers.step.eq_def] at h
  split at h
  · split at h
    · cases h
      exact ⟨[], .refl⟩
    · exact fork_table h
    · cases h
  · split at h
    · exact onTable_table h
    · exact ⟨[], onFiles_table h ▸ .refl⟩
    · exact onTable_table h

/-- When four processes have forty-nine files open between them, `open` of one more panics, though its process has
    descriptors left and the system open files. -/
theorem openers_panic : ∃ s, Run (fun u a v => Openers.step u a = some v) .boot openMany s ∧
    s.table.panicked = some "iget: no inodes" ∧ (∃ f, (s.ftable f).ref = 0) ∧
    ∃ x, s.proc 3 = some x ∧ ∃ fd, x.ofile fd = none := by
  have hpanic : (openMany.foldlM Openers.step .boot).any fun s => s.table.panicked = some "iget: no inodes" &&
      decide (∃ f, (s.ftable f).ref = 0) && (s.proc 3).any fun x => decide (∃ fd, x.ofile fd = none) := by decide +kernel
  obtain ⟨s, hs, hall⟩ := (Option.any_eq_true ..).mp hpanic
  obtain ⟨hall, hproc⟩ := (Bool.and_eq_true ..).mp hall
  obtain ⟨hpanicked, hfile⟩ := (Bool.and_eq_true ..).mp hall
  obtain ⟨x, hx, hfd⟩ := (Option.any_eq_true ..).mp hproc
  exact ⟨s, run_of_foldlM hs, of_decide_eq_true hpanicked, of_decide_eq_true hfile, x, hx, of_decide_eq_true hfd⟩

end LabSO.Itable

import LabSO.Lib.Program
import LabSO.Shell.Command
import Mathlib.Logic.Function.Basic
import Mathlib.Data.List.Range

/-! The system calls of the shell as `tests/syscall_mock.c` models them: a table of descriptors of which `open`
    and `pipe` take the lowest free ones, results of `fork` set up in advance, and a log of the calls. -/

namespace LabSO.Shell
open Program

/-- `mock_file_kind`, less `KIND_CLOSED`. -/
inductive FileKind
  | opened
  | pipe
  | dev
deriving DecidableEq, Repr

/-- `mock_file`. -/
structure MockFile where
  kind : FileKind
  name : Text
  readable : Bool
  writable : Bool
deriving DecidableEq, Repr

inductive AccessMode
  | rdonly
  | wronly
  | rdwr
deriving DecidableEq, Repr

/-- The flags of `open`: the access mode and `O_CREAT`. -/
structure OpenFlags where
  mode : AccessMode
  creat : Bool
deriving DecidableEq, Repr

inductive Stream
  | stdout
  | stderr
deriving DecidableEq, Repr

/-- A call of the process, with its arguments and what it returned. -/
inductive Call
  | fork (result : Int)
  | pipe (result : Option (Int × Int))
  | open (pathname : Text) (flags : OpenFlags) (result : Int)
  | close (fd result : Int)
  | dup2 (oldfd newfd result : Int)
  | waitpid (pid : Int)
  /-- `signal(SIGCHLD, SIG_IGN)`. -/
  | signal
  | chdir (path : Text) (result : Int)
  | execvp (argv : List (Option Text))
  | print (stream : Stream) (text : Text)
deriving DecidableEq, Repr

/-- What each call of a kind gives, counted from 0, where the table of descriptors does not decide it. -/
structure Sys where
  /-- `MOCK_FD_TABLE_SIZE`. -/
  tableSize : Nat
  fork : Nat → Int
  pipeFails : Nat → Bool
  openFails : Nat → Bool
  chdir : Nat → Int
  execFails : Nat → Bool

/-- A descriptor that is not open is `KIND_CLOSED`. -/
abbrev Table := Nat → Option MockFile

structure World where
  fds : Table
  log : List Call

/-- How a process ends, or stops to be this program. -/
inductive Ending
  | exit (status : Int)
  | exec (argv : List (Option Text))
  /-- An assertion failed. -/
  | abort
deriving DecidableEq, Repr

abbrev Process (α : Type) := Prog World Ending α

namespace Call

def isFork : Call → Bool
  | fork _ => true
  | _ => false

def isPipe : Call → Bool
  | pipe _ => true
  | _ => false

def isOpen : Call → Bool
  | .open .. => true
  | _ => false

def isChdir : Call → Bool
  | chdir .. => true
  | _ => false

def isExec : Call → Bool
  | execvp _ => true
  | _ => false

/-- The pid of a child that the call created. -/
def child? : Call → Option Int
  | fork result => if 0 < result then some result else none
  | _ => none

/-- The pid that the call waited for. -/
def waited? : Call → Option Int
  | waitpid pid => some pid
  | _ => none

end Call

namespace World

/-- `mock_counter_fork`. -/
def forks (w : World) : Nat := w.log.countP Call.isFork

/-- `mock_counter_pipe`. -/
def pipes (w : World) : Nat := w.log.countP Call.isPipe

/-- `mock_counter_open`. -/
def opens (w : World) : Nat := w.log.countP Call.isOpen

/-- `mock_counter_execvp`. -/
def execs (w : World) : Nat := w.log.countP Call.isExec

def push (w : World) (call : Call) : World := { w with log := w.log ++ [call] }

def setFd (w : World) (fd : Nat) (file : Option MockFile) : World := { w with fds := Function.update w.fds fd file }

end World

def isFree (fds : Table) (fd : Nat) : Bool := (fds fd).isNone

/-- The first free descriptor. -/
def mockFdLookup (sys : Sys) (fds : Table) : Option Nat := (List.range sys.tableSize).find? (isFree fds)

def mockOpen (sys : Sys) (pathname : Text) (flags : OpenFlags) : Process Int := liftState fun w =>
  match if sys.openFails w.opens then none else mockFdLookup sys w.fds with
  | some fd =>
    let file : MockFile := { kind := .opened, name := pathname, readable := flags.mode != .wronly,
                             writable := flags.mode != .rdonly }
    (fd, (w.setFd fd (some file)).push (.open pathname flags fd))
  | none => (-1, w.push (.open pathname flags (-1)))

/-- Whether a number is an open descriptor. -/
def isOpenFd (sys : Sys) (fds : Table) (fd : Int) : Bool :=
  0 ≤ fd && fd < sys.tableSize && !isFree fds fd.toNat

def mockClose (sys : Sys) (fd : Int) : Process Int := liftState fun w =>
  if isOpenFd sys w.fds fd then (0, (w.setFd fd.toNat none).push (.close fd 0))
  else (-1, w.push (.close fd (-1)))

def mockDup2 (sys : Sys) (oldfd newfd : Int) : Process Int := liftState fun w =>
  if !isOpenFd sys w.fds oldfd then (-1, w.push (.dup2 oldfd newfd (-1)))
  else if newfd < 0 || newfd ≥ sys.tableSize then (-1, w.push (.dup2 oldfd newfd (-1)))
  else if newfd = oldfd then (0, w.push (.dup2 oldfd newfd 0))
  else (newfd, (w.setFd newfd.toNat (w.fds oldfd.toNat)).push (.dup2 oldfd newfd newfd))

/-- The reading and the writing end of the pipe that the call number `k` made. -/
def readEnd (k : Nat) : MockFile := { kind := .pipe, name := (Nat.repr k).toList, readable := true, writable := false }
def writeEnd (k : Nat) : MockFile := { kind := .pipe, name := (Nat.repr k).toList, readable := false, writable := true }

/-- The ends of the new pipe; `none` for -1. -/
def mockPipe (sys : Sys) : Process (Option (Int × Int)) := liftState fun w =>
  match if sys.pipeFails w.pipes then none else mockFdLookup sys w.fds with
  | none => (none, w.push (.pipe none))
  | some rEnd =>
    let fds := Function.update w.fds rEnd (some (readEnd w.pipes))
    match mockFdLookup sys fds with
    | none => (none, w.push (.pipe none))
    | some wEnd =>
      (some (rEnd, wEnd), { fds := Function.update fds wEnd (some (writeEnd w.pipes)),
                            log := w.log ++ [.pipe (some (rEnd, wEnd))] })

def mockFork (sys : Sys) : Process Int := liftState fun w => (sys.fork w.forks, w.push (.fork (sys.fork w.forks)))

def mockWaitpid (pid : Int) : Process Unit := liftState fun w => ((), w.push (.waitpid pid))

def ignoreChildren : Process Unit := liftState fun w => ((), w.push .signal)

def mockChdir (sys : Sys) (path : Text) : Process Int := liftState fun w =>
  let result := sys.chdir (w.log.countP Call.isChdir)
  (result, w.push (.chdir path result))

def print (stream : Stream) (text : String) : Process Unit := liftState fun w => ((), w.push (.print stream text.toList))

/-- Returns only if it fails. -/
def mockExecvp (sys : Sys) (argv : List (Option Text)) : Process Unit := fun w =>
  if sys.execFails w.execs then (.ok (), w.push (.execvp argv))
  else (.error (.exec argv), w.push (.execvp argv))

def mockExit {α : Type} (status : Int) : Process α := halt (.exit status)

/-- The descriptors as `mock_reset_all` leaves them. -/
def mockResetAll : World where
  fds fd :=
    match fd with
    | 0 => some { kind := .dev, name := "ttyin".toList, readable := true, writable := false }
    | 1 => some { kind := .dev, name := "ttyout".toList, readable := false, writable := true }
    | 2 => some { kind := .dev, name := "ttyout".toList, readable := false, writable := true }
    | _ => none
  log := []

/-! ### Free descriptors -/

def free (sys : Sys) (fds : Table) : Nat := (List.range sys.tableSize).countP (isFree fds)

theorem mockFdLookup_eq_none {sys : Sys} {fds : Table} : mockFdLookup sys fds = none ↔ free sys fds = 0 := by
  unfold mockFdLookup free
  rw [List.find?_eq_none, List.countP_eq_zero]

theorem mockFdLookup_some {sys : Sys} {fds : Table} {fd : Nat} (h : mockFdLookup sys fds = some fd) :
    fd < sys.tableSize ∧ fds fd = none := by
  have hmem := List.mem_of_find?_eq_some h
  have hfree := List.find?_some h
  exact ⟨List.mem_range.mp hmem, Option.isNone_iff_eq_none.mp hfree⟩

theorem exists_lookup {sys : Sys} {fds : Table} (h : 0 < free sys fds) : ∃ fd, mockFdLookup sys fds = some fd := by
  cases hlookup : mockFdLookup sys fds with
  | none =>
    rw [mockFdLookup_eq_none.mp hlookup] at h
    cases h
  | some fd => exact ⟨fd, rfl⟩

/-- Opening a free descriptor leaves one free descriptor less. -/
theorem free_update {sys : Sys} {fds : Table} {fd : Nat} (file : MockFile) (hfd : fd < sys.tableSize)
    (hfree : fds fd = none) : free sys (Function.update fds fd (some file)) + 1 = free sys fds := by
  unfold free
  generalize sys.tableSize = size at hfd
  induction size with
  | zero => cases hfd
  | succ size ih =>
    rw [List.range_succ, List.countP_append, List.countP_append, List.countP_singleton, List.countP_singleton]
    by_cases heq : fd = size
    · subst heq
      have hbelow : ∀ j ∈ List.range fd, isFree (Function.update fds fd (some file)) j = isFree fds j := by
        intro j hj
        rw [isFree, Function.update_of_ne (by have := List.mem_range.mp hj; omega)]
        rfl
      rw [List.countP_congr fun j hj => by rw [hbelow j hj]]
      simp [isFree, hfree]
    · have hsize : isFree (Function.update fds fd (some file)) size = isFree fds size := by
        rw [isFree, Function.update_of_ne (Ne.symm heq)]
        rfl
      rw [hsize]
      have := ih (by omega)
      omega

/-! ### What the calls return -/

/-- Two free descriptors, for the ends of a pipe. -/
structure PipeAt (sys : Sys) (fds : Table) (r e : Nat) : Prop where
  ne : r ≠ e
  read_lt : r < sys.tableSize
  write_lt : e < sys.tableSize
  read_free : fds r = none
  write_free : fds e = none

/-- The table with the ends of the pipe number `k`. -/
def withPipe (fds : Table) (r e k : Nat) : Table :=
  Function.update (Function.update fds r (some (readEnd k))) e (some (writeEnd k))

def closed (fds : Table) (r e : Nat) : Table := Function.update (Function.update fds r none) e none

section
variable {sys : Sys} {w : World} {fds : Table} {r e r' e' k k' : Nat}

theorem withPipe_of_ne {fd : Nat} (hr : fd ≠ r) (he : fd ≠ e) : withPipe fds r e k fd = fds fd := by
  rw [withPipe, Function.update_of_ne he, Function.update_of_ne hr]

theorem withPipe_read (hne : r ≠ e) : withPipe fds r e k r = some (readEnd k) := by
  rw [withPipe, Function.update_of_ne hne, Function.update_self]

theorem withPipe_write : withPipe fds r e k e = some (writeEnd k) := Function.update_self ..

theorem PipeAt.free_withPipe (h : PipeAt sys fds r e) : free sys (withPipe fds r e k) + 2 = free sys fds := by
  have hread := free_update (readEnd k) h.read_lt h.read_free
  have hfree : Function.update fds r (some (readEnd k)) e = none := by
    rw [Function.update_of_ne h.ne.symm]
    exact h.write_free
  have hwrite := free_update (writeEnd k) h.write_lt hfree
  unfold withPipe
  omega

/-- The pipe at two descriptors that another one left free. -/
theorem PipeAt.of_withPipe (h' : PipeAt sys (withPipe fds r e k) r' e') (hne : r ≠ e) :
    PipeAt sys fds r' e' ∧ r' ≠ r ∧ r' ≠ e ∧ e' ≠ r ∧ e' ≠ e := by
  have hkept : ∀ fd, withPipe fds r e k fd = none → fds fd = none ∧ fd ≠ r ∧ fd ≠ e := by
    intro fd hfd
    have hr : fd ≠ r := by
      rintro rfl
      rw [withPipe_read hne] at hfd
      cases hfd
    have he : fd ≠ e := by
      rintro rfl
      rw [withPipe_write] at hfd
      cases hfd
    rw [withPipe_of_ne hr he] at hfd
    exact ⟨hfd, hr, he⟩
  obtain ⟨hread, hrr, hre⟩ := hkept r' h'.read_free
  obtain ⟨hwrite, her, hee⟩ := hkept e' h'.write_free
  exact ⟨⟨h'.ne, h'.read_lt, h'.write_lt, hread, hwrite⟩, hrr, hre, her, hee⟩

theorem closed_of_ne {fd : Nat} (hr : fd ≠ r) (he : fd ≠ e) : closed fds r e fd = fds fd := by
  rw [closed, Function.update_of_ne he, Function.update_of_ne hr]

theorem closed_of_eq {fd : Nat} (h : fd = r ∨ fd = e) : closed fds r e fd = none := by
  by_cases he : fd = e
  · rw [closed, he, Function.update_self]
  · rw [closed, Function.update_of_ne he, h.resolve_right he, Function.update_self]

theorem PipeAt.closed_withPipe (h : PipeAt sys fds r e) : closed (withPipe fds r e k) r e = fds := by
  funext fd
  by_cases hfd : fd = r ∨ fd = e
  · rw [closed_of_eq hfd]
    rcases hfd with rfl | rfl
    · exact h.read_free.symm
    · exact h.write_free.symm
  · obtain ⟨hr, he⟩ := not_or.mp hfd
    rw [closed_of_ne hr he, withPipe_of_ne hr he]

/-- Closing the older of two pipes. -/
theorem PipeAt.closed_older (h : PipeAt sys fds r e) (h' : PipeAt sys (withPipe fds r e k) r' e') :
    closed (withPipe (withPipe fds r e k) r' e' k') r e = withPipe fds r' e' k' := by
  obtain ⟨-, hrr, hre, her, hee⟩ := h'.of_withPipe h.ne
  funext fd
  by_cases hfd : fd = r ∨ fd = e
  · rw [closed_of_eq hfd]
    rcases hfd with rfl | rfl
    · rw [withPipe_of_ne hrr.symm her.symm, h.read_free]
    · rw [withPipe_of_ne hre.symm hee.symm, h.write_free]
  · obtain ⟨hr, he⟩ := not_or.mp hfd
    rw [closed_of_ne hr he]
    unfold withPipe
    by_cases he' : fd = e'
    · subst he'
      rw [Function.update_self, Function.update_self]
    · rw [Function.update_of_ne he', Function.update_of_ne he']
      by_cases hr' : fd = r'
      · subst hr'
        rw [Function.update_self, Function.update_self]
      · rw [Function.update_of_ne hr', Function.update_of_ne hr', Function.update_of_ne he, Function.update_of_ne hr]

theorem mockPipe_returns (hok : sys.pipeFails w.pipes = false) (hfree : 2 ≤ free sys w.fds) :
    ∃ r e : Nat, PipeAt sys w.fds r e ∧ Returns (mockPipe sys) w (some (r, e))
      { fds := withPipe w.fds r e w.pipes, log := w.log ++ [.pipe (some (r, e))] } := by
  have hone : 0 < free sys w.fds := by omega
  obtain ⟨r, hr⟩ := exists_lookup hone
  obtain ⟨hrlt, hrfree⟩ := mockFdLookup_some hr
  have hafter := free_update (readEnd w.pipes) hrlt hrfree
  have htwo : 0 < free sys (Function.update w.fds r (some (readEnd w.pipes))) := by omega
  obtain ⟨e, he⟩ := exists_lookup htwo
  obtain ⟨helt, hefree⟩ := mockFdLookup_some he
  have hne : r ≠ e := by
    rintro rfl
    rw [Function.update_self] at hefree
    cases hefree
  rw [Function.update_of_ne hne.symm] at hefree
  refine ⟨r, e, ⟨hne, hrlt, helt, hrfree, hefree⟩, ?_⟩
  simp only [Returns, mockPipe, liftState, hok, hr, he, Bool.false_eq_true, if_false]
  rfl

theorem mockPipe_fails (h : sys.pipeFails w.pipes = true ∨ free sys w.fds < 2) :
    Returns (mockPipe sys) w none (w.push (.pipe none)) := by
  by_cases hfails : sys.pipeFails w.pipes = true
  · simp only [Returns, mockPipe, liftState, hfails, if_true]
  · have hfew := h.resolve_left hfails
    rw [Bool.not_eq_true] at hfails
    cases hr : mockFdLookup sys w.fds with
    | none => simp only [Returns, mockPipe, liftState, hfails, hr, Bool.false_eq_true, if_false]
    | some r =>
      obtain ⟨hrlt, hrfree⟩ := mockFdLookup_some hr
      have hafter := free_update (readEnd w.pipes) hrlt hrfree
      have hnone : mockFdLookup sys (Function.update w.fds r (some (readEnd w.pipes))) = none :=
        mockFdLookup_eq_none.mpr (by omega)
      simp only [Returns, mockPipe, liftState, hfails, hr, hnone, Bool.false_eq_true, if_false]

theorem mockClose_returns {fd : Nat} (hlt : fd < sys.tableSize) (hopen : w.fds fd ≠ none) :
    Returns (mockClose sys fd) w 0 ((w.setFd fd none).push (.close fd 0)) := by
  have hfd : isOpenFd sys w.fds fd = true := by
    simpa [isOpenFd, isFree, hlt] using Option.isSome_iff_ne_none.mpr hopen
  simp [Returns, mockClose, liftState, hfd]

theorem mockDup2_returns {oldfd newfd : Nat} (hold : oldfd < sys.tableSize) (hopen : w.fds oldfd ≠ none)
    (hnew : newfd < sys.tableSize) (hne : newfd ≠ oldfd) :
    Returns (mockDup2 sys oldfd newfd) w newfd ((w.setFd newfd (w.fds oldfd)).push (.dup2 oldfd newfd newfd)) := by
  have hfd : isOpenFd sys w.fds oldfd = true := by
    simpa [isOpenFd, isFree, hold] using Option.isSome_iff_ne_none.mpr hopen
  have hrange : (decide ((newfd : Int) < 0) || decide ((newfd : Int) ≥ sys.tableSize)) = false := by simp [hnew]
  have hother : ¬(newfd : Int) = oldfd := by omega
  simp only [Returns, mockDup2, liftState, hfd, hrange, hother, Bool.not_true, Bool.false_eq_true, if_false]
  rfl

end

end LabSO.Shell

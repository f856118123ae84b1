import LabSO.Kernel.Inode
import LabSO.Lib.Tokens
import LabSO.Lib.Transition

/-! The references to open files: `filealloc`, `filedup` and `fileclose` of `file.c`, and the system calls that take and
    drop references, made by any processes at the same time. One step is a critical section of `ftable.lock`, or what a
    process does with its own descriptors up to the next one.

    What the calls do below the file table is given with the steps: the kind of inode that `sys_open` finds, or that it
    finds none, and whether memory and user pointers are good. -/

namespace LabSO.Files
open Kernel (NPROC NOFILE NFILE)

abbrev Fd := Fin NOFILE
abbrev FileNo := Fin NFILE

/-- `FD_PIPE` for one of the two ends, `FD_INODE` and `FD_DEVICE`. -/
inductive Kind
  | readEnd
  | writeEnd
  | inode
  | device
deriving DecidableEq, Repr

/-- A pipe end or an inode reference that a file was opened for; openings are numbered. -/
structure Obj where
  kind : Kind
  id : Nat
deriving DecidableEq, Repr

/-- `struct file`, as far as references go; without an object it is `FD_NONE`. -/
structure File where
  ref : Int
  obj : Option Obj
deriving DecidableEq, Repr

/-- The descriptors of a process. -/
abbrev Table := Fd → Option FileNo

/-- Where a process stands in a system call. -/
inductive Pc
  | user
  /-- In `sys_open` with an inode, before `filealloc`. -/
  | openFile (kind : Kind)
  | openFd (kind : Kind) (f : FileNo)
  /-- `sys_open` has its file and descriptor. -/
  | openSet (kind : Kind) (f : FileNo) (fd : Fd)
  /-- In `sys_dup`, after `fdalloc`. -/
  | filedup (f : FileNo) (fd : Fd)
  /-- In `pipealloc`. -/
  | pipe0
  | pipe1 (rf : FileNo)
  | pipeMem (rf wf : FileNo)
  /-- In `sys_pipe`, before the first and the second `fdalloc`, and before `copyout`. -/
  | pipeFd0 (rf wf : FileNo)
  | pipeFd1 (rf wf : FileNo) (fd0 : Fd)
  | pipeCopy (rf wf : FileNo) (fd0 fd1 : Fd)
  /-- At the end of a call: the descriptors still to be cleared, the files to be closed, and whether it succeeds. -/
  | leave (fds : List Fd) (fs : List FileNo) (ok : Bool)
  /-- In the loop of `fork`, with the descriptors that are left. -/
  | fork (np : Fin NPROC) (fds : List Fd)
  /-- In the loop of `exit`, with the descriptors that are left. -/
  | exit (fds : List Fd)
  | exitClose (f : FileNo) (fd : Fd) (fds : List Fd)
  | exitClear (fd : Fd) (fds : List Fd)
deriving DecidableEq, Repr

inductive Life
  | unused
  /-- `allocproc` has given the slot to a `fork` of `parent`. -/
  | embryo (parent : Fin NPROC)
  | running
  | zombie
deriving DecidableEq, Repr

/-- A process; `before` is its descriptor table at its last system call, which the code does not look at. -/
structure Proc where
  life : Life
  ofile : Table
  pc : Pc
  before : Table

/-- The file table and the processes. The code does not look at the last two fields: how many objects were opened, and
    those that `pipeclose` and `iput` were called for, in order. -/
structure State where
  file : FileNo → File
  proc : Fin NPROC → Proc
  panicked : Option String
  opened : Nat
  closed : List Obj

/-- A system call. `sys_open` may fail before it has an inode. -/
inductive Call
  | open' (found : Option Kind)
  | dup (fd : Int32)
  | pipe
  | close (fd : Int32)
  /-- `np` is the slot that `allocproc` looks at, and `ok` whether there is memory. -/
  | fork (np : Fin NPROC) (ok : Bool)
  | exit
deriving DecidableEq, Repr

inductive Action
  | call (p : Fin NPROC) (c : Call)
  /-- Process `p` goes on; `ok` is whether `kalloc` or `copyout` succeeds where it calls one. -/
  | next (p : Fin NPROC) (ok : Bool)
  /-- `wait` of the parent frees a zombie. -/
  | reap (p : Fin NPROC)
deriving DecidableEq, Repr

inductive Event
  | silent
  /-- A system call returns; not `ok` is -1. -/
  | returned (ok : Bool)
deriving DecidableEq, Repr

def initproc : Fin NPROC := ⟨0, by decide⟩

def noFiles : Table := fun _ => none

/-- The first process has no open files, and is the only one. -/
def State.init : State where
  file _ := { ref := 0, obj := none }
  proc p := { life := if p = initproc then .running else .unused, ofile := noFiles, pc := .user, before := noFiles }
  panicked := none
  opened := 0
  closed := []

def State.setFile (s : State) (f : FileNo) (x : File) : State := { s with file := Function.update s.file f x }

def State.setProc (s : State) (p : Fin NPROC) (x : Proc) : State := { s with proc := Function.update s.proc p x }

def State.setPc (s : State) (p : Fin NPROC) (pc : Pc) : State := s.setProc p { s.proc p with pc }

/-- `p->ofile[fd] = f`, and go on. -/
def State.setFd (s : State) (p : Fin NPROC) (fd : Fd) (f : Option FileNo) (pc : Pc) : State :=
  s.setProc p { s.proc p with ofile := Function.update (s.proc p).ofile fd f, pc }

def State.panic (s : State) (msg : String) : State := { s with panicked := some msg }

/-- `argfd`: the file of a descriptor. -/
def argfd (ofile : Table) (fd : Int32) : Option (Fd × FileNo) :=
  if h : 0 ≤ fd.toInt ∧ fd.toInt < NOFILE then
    let fd : Fd := ⟨fd.toInt.toNat, by omega⟩
    (ofile fd).map fun f => (fd, f)
  else none

/-- The descriptor that `fdalloc` finds. -/
def freeFd (ofile : Table) : Option Fd := (List.finRange NOFILE).find? fun fd => (ofile fd).isNone

/-- The file that `filealloc` finds. -/
def State.freeFile (s : State) : Option FileNo := (List.finRange NFILE).find? fun f => (s.file f).ref == 0

/-- `filealloc`: the file with its first reference, for which the process goes on; without one it fails. -/
def State.filealloc (s : State) (p : Fin NPROC) (found : FileNo → Pc) (failed : Pc) : State :=
  match s.freeFile with
  | some f => (s.setFile f { s.file f with ref := 1 }).setPc p (found f)
  | none => s.setPc p failed

/-- `fdalloc`. -/
def State.fdalloc (s : State) (p : Fin NPROC) (f : FileNo) (found : Fd → Pc) (failed : Pc) : State :=
  match freeFd (s.proc p).ofile with
  | some fd => s.setFd p fd (some f) (found fd)
  | none => s.setPc p failed

/-- `filedup`. -/
def State.filedup (s : State) (f : FileNo) : State :=
  if (s.file f).ref < 1 then s.panic "filedup" else s.setFile f { s.file f with ref := (s.file f).ref + 1 }

/-- `fileclose`: the last reference takes the object along. -/
def State.fileclose (s : State) (f : FileNo) : State :=
  if (s.file f).ref < 1 then s.panic "fileclose"
  else if (s.file f).ref - 1 > 0 then s.setFile f { s.file f with ref := (s.file f).ref - 1 }
  else { s.setFile f { ref := 0, obj := none } with closed := s.closed ++ (s.file f).obj.toList }

/-- A file becomes that of a newly opened object. -/
def State.openObj (s : State) (f : FileNo) (kind : Kind) : State :=
  { s.setFile f { s.file f with obj := some ⟨kind, s.opened⟩ } with opened := s.opened + 1 }

/-- Into a system call, up to its first critical section. -/
def State.enter (s : State) (p : Fin NPROC) : Call → State
  | .open' none => s.setPc p (.leave [] [] false)
  | .open' (some kind) => s.setPc p (.openFile kind)
  | .dup fd =>
    match argfd (s.proc p).ofile fd with
    | none => s.setPc p (.leave [] [] false)
    | some (_, f) => s.fdalloc p f (.filedup f) (.leave [] [] false)
  | .pipe => s.setPc p .pipe0
  | .close fd =>
    match argfd (s.proc p).ofile fd with
    | none => s.setPc p (.leave [] [] false)
    | some (fd, f) => s.setPc p (.leave [fd] [f] true)
  | .fork np ok =>
    if (s.proc np).life = .unused ∧ ok then
      (s.setProc np { s.proc np with life := .embryo p }).setPc p (.fork np (List.finRange NOFILE))
    else s.setPc p (.leave [] [] false)
  | .exit => if p = initproc then s.panic "init exiting" else s.setPc p (.exit (List.finRange NOFILE))

def State.call (s : State) (p : Fin NPROC) (c : Call) : State :=
  State.enter (s.setProc p { s.proc p with before := (s.proc p).ofile }) p c

/-- One pass of the loop of `fork`. -/
def State.forkDup (s : State) (p np : Fin NPROC) (fd : Fd) (fds : List Fd) : State :=
  match (s.proc p).ofile fd with
  | none => s.setPc p (.fork np fds)
  | some f => ((s.filedup f).setFd np fd (some f) (s.proc np).pc).setPc p (.fork np fds)

/-- How a process goes on in a system call. -/
def State.continue (s : State) (p : Fin NPROC) (ok : Bool) : Option (Event × State) :=
  match (s.proc p).pc with
  | .user => none
  | .openFile kind => some (.silent, s.filealloc p (.openFd kind) (.leave [] [] false))
  | .openFd kind f => some (.silent, s.fdalloc p f (.openSet kind f) (.leave [] [f] false))
  | .openSet kind f _ => some (.silent, (s.openObj f kind).setPc p (.leave [] [] true))
  | .filedup f _ => some (.silent, (s.filedup f).setPc p (.leave [] [] true))
  | .pipe0 => some (.silent, s.filealloc p .pipe1 (.leave [] [] false))
  | .pipe1 rf => some (.silent, s.filealloc p (.pipeMem rf) (.leave [] [rf] false))
  | .pipeMem rf wf =>
    if ok then some (.silent, ((s.openObj rf .readEnd).openObj wf .writeEnd).setPc p (.pipeFd0 rf wf))
    else some (.silent, s.setPc p (.leave [] [rf, wf] false))
  | .pipeFd0 rf wf => some (.silent, s.fdalloc p rf (.pipeFd1 rf wf) (.leave [] [rf, wf] false))
  | .pipeFd1 rf wf fd0 => some (.silent, s.fdalloc p wf (.pipeCopy rf wf fd0) (.leave [fd0] [rf, wf] false))
  | .pipeCopy rf wf fd0 fd1 =>
    some (.silent, s.setPc p (if ok then .leave [] [] true else .leave [fd0, fd1] [rf, wf] false))
  | .leave (fd :: fds) fs ok => some (.silent, s.setFd p fd none (.leave fds fs ok))
  | .leave [] (f :: fs) ok => some (.silent, (s.fileclose f).setPc p (.leave [] fs ok))
  | .leave [] [] ok => some (.returned ok, s.setPc p .user)
  | .fork np (fd :: fds) => some (.silent, s.forkDup p np fd fds)
  | .fork np [] => some (.returned true, (s.setProc np { s.proc np with life := .running }).setPc p .user)
  | .exit (fd :: fds) =>
    some (.silent, s.setPc p (match (s.proc p).ofile fd with
      | none => .exit fds
      | some f => .exitClose f fd fds))
  | .exitClose f fd fds => some (.silent, (s.fileclose f).setPc p (.exitClear fd fds))
  | .exitClear fd fds => some (.silent, s.setFd p fd none (.exit fds))
  | .exit [] => some (.silent, s.setProc p { s.proc p with life := .zombie, pc := .user })

def step (s : State) (a : Action) : Option (Event × State) :=
  if s.panicked.isSome then none
  else
    match a with
    | .call p c => if (s.proc p).life = .running ∧ (s.proc p).pc = .user then some (.silent, s.call p c) else none
    | .next p ok => if (s.proc p).life = .running then s.continue p ok else none
    | .reap p => if (s.proc p).life = .zombie then some (.silent, s.setProc p { s.proc p with life := .unused }) else none

/-- The transitions; a label is an action together with its event. -/
abbrev Step : State → Action × Event → State → Prop := Transition.ofStep step

end LabSO.Files

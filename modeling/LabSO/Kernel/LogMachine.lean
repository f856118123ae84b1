import LabSO.Kernel.Log
import LabSO.Lib.Transition
import Mathlib.Logic.Function.Basic

/-! Processes that bracket their calls of `log_write` with `begin_op` and `end_op`. One step is a critical section of
    `log.lock`, up to where it sleeps, or one pass of a loop of `commit`, which runs without the lock. -/

namespace LabSO.Kernel

/-- Where `commit` stands. -/
inductive CommitAt
  | writeLog (tail : Nat)
  | writeHead
  | install (tail : Nat)
  | clearHead
  /-- The `write_head` that erases the transaction. -/
  | eraseHead
  | returned
deriving DecidableEq

/-- Where a process stands. -/
inductive LogPhase
  | user
  | sleeping
  /-- Woken up in `begin_op`, where it tests again. -/
  | woken
  /-- Between `begin_op` and `end_op`, in the operation with this number. -/
  | inOp (op : Nat)
  /-- In the `commit` of its `end_op`. -/
  | commit (stage : CommitAt)
deriving DecidableEq

inductive LogAction
  /-- The critical section of `begin_op`, up to where it returns or sleeps. -/
  | beginOp
  /-- `log_write` of a buffer in which the caller has left `data`. -/
  | logWrite (blockno : BlockNo) (data : Block)
  /-- The first critical section of `end_op`. -/
  | endOp
  | commit
  /-- The second critical section of `end_op`. -/
  | endCommit
  /-- `kill` wakes a process that sleeps. -/
  | kill
deriving DecidableEq

/-- A call of `log_write`: its operation, its block, and how many commits there were before. -/
structure LogEntry where
  op : Nat
  blockno : BlockNo
  commit : Nat
deriving DecidableEq

/-- The log and the processes. The fields from `ops` on are for statements about runs only: how many operations began and
    how many commits ended, the calls of `log_write`, and which blocks each commit wrote to the log and to their homes. -/
structure LogState (ι : Type) where
  store : Store
  procs : ι → LogPhase
  panicked : Option String
  ops : Nat
  commits : Nat
  logged : List LogEntry
  written : List (Nat × BlockNo)
  installed : List (Nat × BlockNo)

variable {ι : Type}

/-- No process is in an operation, and the log is empty, as after `initlog`. -/
def LogState.init (start : BlockNo) (size : Int) (disk : Disk) : LogState ι where
  store := Store.boot start size disk
  procs _ := .user
  panicked := none
  ops := 0
  commits := 0
  logged := []
  written := []
  installed := []

def LogState.setLog (s : LogState ι) (log : Log) : LogState ι := { s with store := { s.store with log } }

def LogState.wakeup (s : LogState ι) : LogState ι :=
  { s with procs := fun q => if s.procs q = .sleeping then .woken else s.procs q }

/-- One step of `commit`. -/
def LogState.commitStep (s : LogState ι) : CommitAt → Option (CommitAt × LogState ι)
  | .writeLog tail =>
    match s.store.log.lh[tail]? with
    | some b =>
      some (.writeLog (tail + 1), { s with store := s.store.writeLogAt tail b, written := s.written ++ [(s.commits, b)] })
    | none => some (.writeHead, s)
  | .writeHead => some (.install 0, { s with store := s.store.writeHead })
  | .install tail =>
    match s.store.log.lh[tail]? with
    | some b =>
      some (.install (tail + 1),
        { s with store := s.store.installAt false tail b, installed := s.installed ++ [(s.commits, b)] })
    | none => some (.clearHead, s)
  | .clearHead => some (.eraseHead, { s with store := s.store.clearHead })
  | .eraseHead => some (.returned, { s with store := s.store.writeHead })
  | .returned => none

def LogState.logWrite (s : LogState ι) (op : Nat) (blockno : BlockNo) (data : Block) : LogState ι :=
  let store := s.store.setBuf blockno data
  match s.store.log.logWrite blockno with
  | .error msg => { s with store, panicked := some msg }
  | .ok (new, log) =>
    { s with
      store := { (if new then store.bpin blockno else store) with log }
      logged := s.logged ++ [⟨op, blockno, s.commits⟩] }

variable [DecidableEq ι]

def LogState.setPhase (s : LogState ι) (p : ι) (phase : LogPhase) : LogState ι :=
  { s with procs := Function.update s.procs p phase }

def LogState.beginOp (s : LogState ι) (p : ι) : LogState ι :=
  match s.store.log.beginOp with
  | none => s.setPhase p .sleeping
  | some log => { (s.setLog log).setPhase p (.inOp s.ops) with ops := s.ops + 1 }

def LogState.endOp (s : LogState ι) (p : ι) : LogState ι :=
  match s.store.log.endOp with
  | .error msg => { s with panicked := some msg }
  | .ok (true, log) =>
    (s.setLog log).setPhase p (.commit (if log.lh.length > 0 then .writeLog 0 else .returned))
  | .ok (false, log) => ((s.setLog log).setPhase p .user).wakeup

def LogState.endCommit (s : LogState ι) (p : ι) : LogState ι :=
  { ((s.setLog { s.store.log with committing := false }).setPhase p .user).wakeup with commits := s.commits + 1 }

def logStep (s : LogState ι) (l : ι × LogAction) : Option (LogState ι) :=
  if s.panicked.isSome then none
  else
    match s.procs l.1, l.2 with
    | .user, .beginOp | .woken, .beginOp => some (s.beginOp l.1)
    | .inOp op, .logWrite blockno data => some (s.logWrite op blockno data)
    | .inOp _, .endOp => some (s.endOp l.1)
    | .commit stage, .commit => (s.commitStep stage).map fun (next, t) => t.setPhase l.1 (.commit next)
    | .commit .returned, .endCommit => some (s.endCommit l.1)
    | .sleeping, .kill => some (s.setPhase l.1 .woken)
    | _, _ => none

abbrev LogStep (s : LogState ι) (l : ι × LogAction) (t : LogState ι) : Prop := logStep s l = some t

end LabSO.Kernel

import LabSO.Kernel.Semaphore
import LabSO.Lib.Transition
import Mathlib.Logic.Function.Basic

/-! The kernel around `semaphore.c`: processes that run its system calls on any number of CPUs, with
    `sleep`, `wakeup`, `kill`, `yield` and `scheduler` of `proc.c`.

    One step is the acquisition or the release of one lock, a write of `p->chan` or `p->state`, the test
    of one slot of the process table, or what a call does with the semaphore whose lock it holds. A
    process in the kernel without a lock can be preempted at any time. -/

namespace LabSO.Kernel

/-- `enum procstate`. -/
inductive ProcState
  | unused
  | used
  | sleeping
  | runnable
  | running
  | zombie
deriving DecidableEq, Repr

/-- What `struct proc` holds for sleeping and waking. `lock` is the CPU that holds `p->lock`, and `chan` the
    semaphore slept on. -/
structure Proc (κ : Type) where
  lock : Option κ
  state : ProcState
  chan : Option Nat
  killed : Bool
  pid : Int

/-- Who called `sem_open`: a system call, or the loop of `get_sem`. -/
inductive Caller
  | syscall
  | getSem
deriving DecidableEq, Repr

/-- Where a thread stands while it holds no lock: in its program, or before an `acquire`. -/
inductive Point
  | user
  | returned (result : Int)
  | openAcquire (caller : Caller) (sem : Nat) (value : Int)
  | closeAcquire (sem : Nat)
  | upAcquire (sem : Nat)
  | downAcquire (sem : Nat)
  /-- The `acquire(lk)` at the end of `sleep`. -/
  | sleepReacquire (sem : Nat)
  | killAcquire (pid : Int) (j : Nat)
deriving DecidableEq, Repr

/-- Where a thread stands while it holds a lock. -/
inductive Section (n : Nat)
  | openBody (caller : Caller) (sem : Nat) (value : Int)
  | openRelease (caller : Caller) (sem : Nat) (value result : Int)
  | closeBody (sem : Nat)
  | closeRelease (sem : Nat) (result : Int)
  | upBody (sem : Nat)
  /-- The loop of `wakeup`, at slot `j`. -/
  | wakeup (sem j : Nat)
  | wakeupTest (sem : Nat) (q : Fin n)
  | wakeupRelease (sem : Nat) (q : Fin n)
  | upRelease (sem : Nat) (result : Int)
  | downBody (sem : Nat)
  | downLoop (sem : Nat)
  | downRelease (sem : Nat) (result : Int)
  | sleepAcquire (sem : Nat)
  | sleepRelease (sem : Nat)
  | sleepChan (sem : Nat)
  | sleepState (sem : Nat)
  | sleepSched (sem : Nat)
  /-- Where `sleep` goes on after `sched`. -/
  | sleepTidy (sem : Nat)
  | sleepUnlock (sem : Nat)
  | killBody (pid : Int) (q : Fin n)
  | killRelease (pid : Int) (q : Fin n) (found : Bool)
deriving DecidableEq, Repr

/-- Where a thread stands in `yield`. -/
inductive YieldAt
  | acquire
  | state
  | sched
  /-- After `sched`; a new process starts here, with the `release` of `forkret`. -/
  | release
deriving DecidableEq, Repr

inductive Pc (n : Nat)
  | at (point : Point)
  | inside (sec : Section n)
  /-- Preempted at `point`. -/
  | yield (stage : YieldAt) (point : Point)
deriving DecidableEq, Repr

/-- Where a CPU stands: in `scheduler`, or running a process. -/
inductive Cpu (n : Nat)
  | scan (j : Nat)
  | check (q : Fin n)
  | run (p : Fin n)
  /-- After `swtch` came back. -/
  | unlock (q : Fin n)
deriving DecidableEq, Repr

structure State (n : Nat) (κ : Type) where
  sems : Nat → Semaphore
  /-- The CPU that holds the lock of a semaphore. -/
  semLock : Nat → Option κ
  procs : Fin n → Proc κ
  pcs : Fin n → Pc n
  cpus : κ → Cpu n

/-- The system calls, with their arguments as the user passed them. -/
inductive SysCall
  | semOpen (sem value : Int)
  | semClose (sem : Int)
  | semUp (sem : Int)
  | semDown (sem : Int)
  | getSem (value : Int)
  | kill (pid : Int)
deriving DecidableEq, Repr

inductive Action (κ : Type)
  /-- A CPU takes its next step. -/
  | cpu (c : κ)
  /-- The process on a CPU traps into a system call. -/
  | call (c : κ) (sys : SysCall)
  /-- A timer interrupt makes the process on a CPU yield. -/
  | preempt (c : κ)
deriving DecidableEq, Repr

/-- What a step did, for statements about runs. -/
inductive Event (n : Nat)
  | silent
  | opened (p : Fin n) (sem : Nat) (value : Int)
  | closed (p : Fin n) (sem : Nat)
  /-- `sem_up` incremented. -/
  | up (p : Fin n) (sem : Nat)
  /-- `sem_down` found the semaphore open and at 0, and goes to sleep. -/
  | waits (p : Fin n) (sem : Nat)
  /-- `sem_down` decremented, at once or after it slept. -/
  | down (p : Fin n) (sem : Nat) (resumed : Bool)
  | returned (p : Fin n) (result : Int)
deriving DecidableEq, Repr

/-! ### Entering the kernel -/

/-- `argint`: an argument register read as an `int`. -/
def argint (x : Int) : Int := wrap32 x

/-- The semaphore calls return 0 for an index outside the table. -/
def withSem (sem : Int) (point : Nat → Point) : Point :=
  if sem < 0 ∨ sem ≥ N then .returned 0 else point sem.toNat

/-- The loop of `get_sem` at `index`; `sem_open(N, value)` gives 0 and ends it. -/
def getSemLoop (index : Nat) (value : Int) : Point :=
  if index < N then .openAcquire .getSem index value else .returned (-1)

def enter : SysCall → Point
  | .semOpen sem value => withSem (argint sem) fun i => .openAcquire .syscall i (argint value)
  | .semClose sem => withSem (argint sem) .closeAcquire
  | .semUp sem => withSem (argint sem) .upAcquire
  | .semDown sem => withSem (argint sem) .downAcquire
  | .getSem value => getSemLoop 0 (argint value)
  | .kill pid => .killAcquire (argint pid) 0

/-- Where `sem_open` returns to. -/
def openReturn (caller : Caller) (sem : Nat) (value result : Int) : Point :=
  match caller with
  | .syscall => .returned result
  | .getSem => if result ≠ 1 then getSemLoop (sem + 1) value else .returned sem

/-! ### The steps of a thread -/

/-- What an instruction does to the shared state. -/
inductive Effect (n : Nat)
  | skip
  | acquireSem (sem : Nat)
  | releaseSem (sem : Nat)
  | acquireProc (q : Fin n)
  | releaseProc (q : Fin n)
  | setSem (sem : Nat) (value : Semaphore)
  /-- `p->chan`, of the process itself. -/
  | setChan (chan : Option Nat)
  /-- `p->state`, of the process itself. -/
  | setState (state : ProcState)
  /-- Make `q` runnable if it sleeps on the semaphore. -/
  | wake (q : Fin n) (sem : Nat)
  | kill (q : Fin n)
  | swtch
deriving DecidableEq

variable {n : Nat} {κ : Type}

/-- The loop of `sem_down` under the lock. -/
def downLoop (s : State n κ) (p : Fin n) (sem : Nat) (resumed : Bool) : Effect n × Pc n × Event n :=
  match (s.sems sem).downLoop with
  | none => (.skip, .inside (.sleepAcquire sem), if resumed then .silent else .waits p sem)
  | some value => (.setSem sem value, .inside (.downRelease sem 1), .down p sem resumed)

/-- The next instruction of the thread of `p` in the semaphore calls, `sleep`, `wakeup` and `kill`, while it
    holds a lock. -/
def sectionStep (s : State n κ) (p : Fin n) : Section n → Effect n × Pc n × Event n
  | .openBody caller i value =>
    let (result, sem) := (s.sems i).openBody value
    (.setSem i sem, .inside (.openRelease caller i value result),
      if result = 1 then .opened p i value else .silent)
  | .openRelease caller i value result => (.releaseSem i, .at (openReturn caller i value result), .silent)
  | .closeBody i =>
    let (result, sem) := (s.sems i).closeBody
    (.setSem i sem, .inside (.closeRelease i result), if result = 1 then .closed p i else .silent)
  | .closeRelease i result => (.releaseSem i, .at (.returned result), .silent)
  | .upBody i =>
    let (result, sem) := (s.sems i).upBody
    if result = 1 then (.setSem i sem, .inside (.wakeup i 0), .up p i)
    else (.skip, .inside (.upRelease i 0), .silent)
  | .wakeup i j =>
    if h : j < n then
      if ⟨j, h⟩ = p then (.skip, .inside (.wakeup i (j + 1)), .silent)
      else (.acquireProc ⟨j, h⟩, .inside (.wakeupTest i ⟨j, h⟩), .silent)
    else (.skip, .inside (.upRelease i 1), .silent)
  | .wakeupTest i q => (.wake q i, .inside (.wakeupRelease i q), .silent)
  | .wakeupRelease i q => (.releaseProc q, .inside (.wakeup i (q + 1)), .silent)
  | .upRelease i result => (.releaseSem i, .at (.returned result), .silent)
  | .downBody i =>
    if (s.sems i).count = -1 then (.skip, .inside (.downRelease i 0), .silent) else downLoop s p i false
  | .downLoop i => downLoop s p i true
  | .downRelease i result => (.releaseSem i, .at (.returned result), .silent)
  | .sleepAcquire i => (.acquireProc p, .inside (.sleepRelease i), .silent)
  | .sleepRelease i => (.releaseSem i, .inside (.sleepChan i), .silent)
  | .sleepChan i => (.setChan (some i), .inside (.sleepState i), .silent)
  | .sleepState i => (.setState .sleeping, .inside (.sleepSched i), .silent)
  | .sleepSched i => (.swtch, .inside (.sleepTidy i), .silent)
  | .sleepTidy i => (.setChan none, .inside (.sleepUnlock i), .silent)
  | .sleepUnlock i => (.releaseProc p, .at (.sleepReacquire i), .silent)
  | .killBody pid q =>
    if (s.procs q).pid = pid then (.kill q, .inside (.killRelease pid q true), .silent)
    else (.skip, .inside (.killRelease pid q false), .silent)
  | .killRelease pid q found =>
    (.releaseProc q, .at (if found then .returned 0 else .killAcquire pid (q + 1)), .silent)

/-- The next instruction of the thread of `p`; none in its program, where only a system call goes on. -/
def threadStep (s : State n κ) (p : Fin n) : Pc n → Option (Effect n × Pc n × Event n)
  | .at .user => none
  | .at (.returned result) => some (.skip, .at .user, .returned p result)
  | .at (.openAcquire caller i value) => some (.acquireSem i, .inside (.openBody caller i value), .silent)
  | .at (.closeAcquire i) => some (.acquireSem i, .inside (.closeBody i), .silent)
  | .at (.upAcquire i) => some (.acquireSem i, .inside (.upBody i), .silent)
  | .at (.downAcquire i) => some (.acquireSem i, .inside (.downBody i), .silent)
  | .at (.sleepReacquire i) => some (.acquireSem i, .inside (.downLoop i), .silent)
  | .at (.killAcquire pid j) =>
    if h : j < n then some (.acquireProc ⟨j, h⟩, .inside (.killBody pid ⟨j, h⟩), .silent)
    else some (.skip, .at (.returned (-1)), .silent)
  | .inside sec => some (sectionStep s p sec)
  | .yield .acquire k => some (.acquireProc p, .yield .state k, .silent)
  | .yield .state k => some (.setState .runnable, .yield .sched k, .silent)
  | .yield .sched k => some (.swtch, .yield .release k, .silent)
  | .yield .release k => some (.releaseProc p, .at k, .silent)

/-! ### The steps of the machine -/

variable [DecidableEq κ]

def State.setProc (s : State n κ) (q : Fin n) (f : Proc κ → Proc κ) : State n κ :=
  { s with procs := Function.update s.procs q (f (s.procs q)) }

def State.setPc (s : State n κ) (p : Fin n) (pc : Pc n) : State n κ :=
  { s with pcs := Function.update s.pcs p pc }

def State.setCpu (s : State n κ) (c : κ) (cpu : Cpu n) : State n κ :=
  { s with cpus := Function.update s.cpus c cpu }

def State.setSemLock (s : State n κ) (i : Nat) (holder : Option κ) : State n κ :=
  { s with semLock := Function.update s.semLock i holder }

/-- The effect of an instruction that the thread of `p` executes on the CPU `c`; none while a lock it
    acquires is not free. -/
def applyEffect (s : State n κ) (c : κ) (p : Fin n) : Effect n → Option (State n κ)
  | .skip => some s
  | .acquireSem i => if s.semLock i = none then some (s.setSemLock i (some c)) else none
  | .releaseSem i => some (s.setSemLock i none)
  | .acquireProc q =>
    if (s.procs q).lock = none then some (s.setProc q fun x => { x with lock := some c }) else none
  | .releaseProc q => some (s.setProc q fun x => { x with lock := none })
  | .setSem i value => some { s with sems := Function.update s.sems i value }
  | .setChan chan => some (s.setProc p fun x => { x with chan })
  | .setState state => some (s.setProc p fun x => { x with state })
  | .wake q i =>
    some (s.setProc q fun x =>
      if x.state = .sleeping ∧ x.chan = some i then { x with state := .runnable } else x)
  | .kill q =>
    some (s.setProc q fun x =>
      { x with killed := true, state := if x.state = .sleeping then .runnable else x.state })
  | .swtch => some (s.setCpu c (.unlock p))

/-- One step of a CPU: of `scheduler`, or of the process it runs. -/
def cpuStep (s : State n κ) (c : κ) : Option (Event n × State n κ) :=
  match s.cpus c with
  | .scan j =>
    if h : j < n then
      if (s.procs ⟨j, h⟩).lock = none then
        some (.silent, (s.setProc ⟨j, h⟩ fun x => { x with lock := some c }).setCpu c (.check ⟨j, h⟩))
      else none
    else some (.silent, s.setCpu c (.scan 0))
  | .check q =>
    if (s.procs q).state = .runnable then
      some (.silent, (s.setProc q fun x => { x with state := .running }).setCpu c (.run q))
    else some (.silent, s.setCpu c (.unlock q))
  | .unlock q => some (.silent, (s.setProc q fun x => { x with lock := none }).setCpu c (.scan (q + 1)))
  | .run p =>
    match threadStep s p (s.pcs p) with
    | none => none
    | some (effect, pc, event) => (applyEffect s c p effect).map fun t => (event, t.setPc p pc)

def step (s : State n κ) : Action κ → Option (Event n × State n κ)
  | .cpu c => cpuStep s c
  | .call c sys =>
    match s.cpus c with
    | .run p => if s.pcs p = .at .user then some (.silent, s.setPc p (.at (enter sys))) else none
    | _ => none
  | .preempt c =>
    match s.cpus c with
    | .run p =>
      match s.pcs p with
      | .at k => some (.silent, s.setPc p (.yield .acquire k))
      | _ => none
    | _ => none

/-- The transitions of the machine. -/
abbrev Step : State n κ → Action κ × Event n → State n κ → Prop := Transition.ofStep step

/-- A state as after `semaphores_init`: all semaphores are closed, no lock is held, every CPU is in
    `scheduler`, and no slot of the process table is inside a call. -/
structure Boot (s : State n κ) : Prop where
  sems : ∀ i, s.sems i = Semaphore.init
  semLock : ∀ i, s.semLock i = none
  procLock : ∀ q, (s.procs q).lock = none
  state : ∀ q, (s.procs q).state = .unused ∨ (s.procs q).state = .runnable
  pcs : ∀ q, s.pcs q = .yield .release .user
  cpus : ∀ c, ∃ j, s.cpus c = .scan j

/-- The first processes of `n` slots are ready to run, with pids from 1. -/
def boot (n : Nat) (κ : Type) : State n κ where
  sems _ := Semaphore.init
  semLock _ := none
  procs q := { lock := none, state := .runnable, chan := none, killed := false, pid := q + 1 }
  pcs _ := .yield .release .user
  cpus _ := .scan 0

omit [DecidableEq κ] in
theorem boot_boot : Boot (boot n κ) where
  sems _ := rfl
  semLock _ := rfl
  procLock _ := rfl
  state _ := Or.inr rfl
  pcs _ := rfl
  cpus _ := ⟨0, rfl⟩

end LabSO.Kernel

import LabSO.Kernel.SemMachine

/-! `proc.c`: the process table, `fork`, `exit`, `wait`, `kill`, `sleep`, `wakeup`, `yield` and `scheduler` on any number of
    CPUs, with `wait_lock`, the `p->lock` of each slot and other spinlocks.

    One step is the acquisition or the release of one lock, what a thread does between two of them with one slot of the
    table, or one half of `swtch`: registers are saved in one step and loaded in another. Memory, files and directories of
    a process are left out; calls say which allocation fails, if one does. -/

namespace LabSO.Kernel.Procs

/-- The addresses slept on: a slot of the table, in `wait`, or others. -/
inductive Chan (n : Nat)
  | proc (q : Fin n)
  | other (i : Nat)
deriving DecidableEq, Repr

/-- The locks that are taken before any `p->lock`: `wait_lock`, and spinlocks outside `proc.c`. -/
inductive Outer
  | wait
  | other (i : Nat)
deriving DecidableEq, Repr

/-- What `struct proc` holds for life and death, without its lock. -/
structure Proc (n : Nat) where
  state : ProcState
  chan : Option (Chan n)
  killed : Bool
  xstate : Int
  pid : Int
  parent : Option (Fin n)
deriving DecidableEq, Repr

/-- What `freeproc` leaves. -/
def Proc.free (n : Nat) : Proc n := ⟨.unused, none, false, 0, 0, none⟩

/-- Which allocation of `fork` fails, if one does: the trapframe or the page table in `allocproc`, or the copy. -/
inductive Memory
  | enough
  | noTrapframe
  | noPagetable
  | noCopy
deriving DecidableEq, Repr

/-- Who calls `sleep`: `wait`, where `bad` says that the status cannot be copied out, or a holder of another lock. -/
inductive Sleeper
  | wait (bad : Bool)
  | other (i chan : Nat)
deriving DecidableEq, Repr

/-- Who calls `wakeup`: `reparent` at slot `j`, `exit`, or a holder of another lock. -/
inductive Waker
  | reparent (status : Int) (j : Nat)
  | exit (status : Int)
  | other (i : Nat)
deriving DecidableEq, Repr

/-- Where a thread stands while it holds no lock. -/
inductive Point (n : Nat)
  /-- In its program, or in the kernel outside `proc.c`. -/
  | user
  | returned (result : Int)
  | forkScan (mem : Memory) (j : Nat)
  | forkParent (np : Fin n) (pid : Int)
  | forkRunnable (np : Fin n) (pid : Int)
  | exitAcquire (status : Int)
  | waitAcquire (bad : Bool)
  /-- The `acquire(lk)` at the end of `sleep`. -/
  | reacquire (f : Sleeper)
  | killScan (pid : Int) (j : Nat)
  | setkilledAcquire
  | otherAcquire (i : Nat)
deriving DecidableEq, Repr

/-- Where a thread stands while it holds a lock. -/
inductive Section (n : Nat)
  /-- `p->state == UNUSED` in `allocproc`. -/
  | forkCheck (mem : Memory) (np : Fin n)
  | forkSkip (mem : Memory) (np : Fin n)
  /-- `found:`. -/
  | forkFound (mem : Memory) (np : Fin n)
  | forkMemory (mem : Memory) (np : Fin n) (pid : Int)
  | forkContext (mem : Memory) (np : Fin n) (pid : Int)
  | forkCopy (mem : Memory) (np : Fin n) (pid : Int)
  | forkFree (np : Fin n) (pid : Int)
  | forkFail (np : Fin n)
  | forkRelease (np : Fin n) (pid : Int)
  /-- `np->parent = p`. -/
  | forkAdopt (np : Fin n) (pid : Int)
  | forkAdopted (np : Fin n) (pid : Int)
  /-- `np->state = RUNNABLE`. -/
  | forkState (np : Fin n) (pid : Int)
  | forkDone (np : Fin n) (pid : Int)
  /-- The loop of `reparent`. -/
  | exitReparent (status : Int) (j : Nat)
  /-- `wakeup(p->parent)`. -/
  | exitWakeup (status : Int)
  | exitLock (status : Int)
  | exitState (status : Int)
  | exitRelease
  | exitSched
  /-- The loop of `wakeup`, at slot `j`. -/
  | wakeup (chan : Option (Chan n)) (j : Nat) (f : Waker)
  | wakeupTest (chan : Option (Chan n)) (q : Fin n) (f : Waker)
  | wakeupRelease (chan : Option (Chan n)) (q : Fin n) (f : Waker)
  /-- The loop of `wait` over the table. -/
  | waitScan (bad havekids : Bool) (j : Nat)
  | waitCheck (bad : Bool) (pp : Fin n)
  | waitSkip (bad : Bool) (pp : Fin n)
  /-- Release `pp->lock` and return. -/
  | waitFound (pp : Fin n) (result : Int)
  | waitReturn (result : Int)
  /-- `killed(p)`. -/
  | waitKilled (bad : Bool)
  | waitKilledRead (bad : Bool)
  | waitKilledRelease (bad killed : Bool)
  | sleepAcquire (f : Sleeper)
  | sleepRelease (f : Sleeper)
  | sleepMark (f : Sleeper)
  | sleepSched (f : Sleeper)
  /-- Where `sleep` goes on after `sched`. -/
  | sleepTidy (f : Sleeper)
  | sleepUnlock (f : Sleeper)
  | killCheck (pid : Int) (q : Fin n)
  | killRelease (pid : Int) (q : Fin n) (found : Bool)
  | setkilled
  | setkilledRelease
  /-- Outside `proc.c`, with another lock. -/
  | other (i : Nat)
deriving DecidableEq, Repr

/-- Where a thread stands. -/
inductive Pc (n : Nat)
  | at (point : Point n)
  | inside (sec : Section n)
  /-- Preempted at `point`. -/
  | yield (stage : YieldAt) (point : Point n)
  /-- `panic("zombie exit")`. -/
  | zombie
deriving DecidableEq, Repr

/-- A new process starts with the `release` of `forkret`. -/
def forkret {n : Nat} : Pc n := .yield .release .user

/-- Where a CPU stands: in `scheduler`, or in the thread of a process. -/
inductive Cpu (n : Nat)
  | scan (j : Nat)
  | check (q : Fin n)
  /-- `c->proc = p`. -/
  | set (q : Fin n)
  /-- In `swtch`, loading `p->context`. -/
  | restore (q : Fin n)
  | run (p : Fin n) (pc : Pc n)
  /-- In `swtch`, storing `p->context`; the thread goes on at `pc` when it is loaded. -/
  | save (p : Fin n) (pc : Pc n)
  /-- `c->proc = 0`. -/
  | clear (p : Fin n)
  | unlock (q : Fin n)
deriving DecidableEq, Repr

/-- `context` is `p->context`, and `proc` is `c->proc`. `thread` says where the thread of each process stands, wherever its
    registers are; the code does not look at it. -/
structure State (n : Nat) (κ : Type) where
  procs : Fin n → Proc n
  /-- The CPU that holds `p->lock`. -/
  procLock : Fin n → Option κ
  outer : Outer → Option κ
  nextpid : Int
  context : Fin n → Option (Pc n)
  cpus : κ → Cpu n
  proc : κ → Option (Fin n)
  thread : Fin n → Pc n

/-- What a process asks for: a call from its program or from the kernel, or, with another lock held, to sleep, to wake
    sleepers or to release the lock. -/
inductive Request
  | fork (mem : Memory)
  | exit (status : Int)
  | wait (bad : Bool)
  | kill (pid : Int)
  | setkilled
  | lock (i : Nat)
  | sleep (chan : Nat)
  | wakeup (chan : Nat)
  | unlock
deriving DecidableEq, Repr

inductive Action (n : Nat) (κ : Type)
  /-- A CPU takes its next step. -/
  | cpu (c : κ)
  | request (c : κ) (r : Request)
  /-- A timer interrupt makes the process on a CPU yield. -/
  | preempt (c : κ)
  /-- The handler of an interrupt comes to slot `q` in a `wakeup`. -/
  | interrupt (q : Fin n) (chan : Nat)
deriving DecidableEq, Repr

/-- What a step did, for statements about runs. -/
inductive Event (n : Nat)
  | silent
  /-- `p` has a child in slot `np`, which may run now. -/
  | forked (p np : Fin n) (pid : Int)
  | exited (p : Fin n) (status : Int)
  /-- `wait` of `p` frees the slot `pp`, and returns its pid and its status. -/
  | reaped (p pp : Fin n) (pid status : Int)
  | killed (p : Fin n) (pid result : Int)
  | returned (p : Fin n) (result : Int)
deriving DecidableEq, Repr

variable {n : Nat} {κ : Type}

def Sleeper.lk : Sleeper → Outer
  | wait _ => .wait
  | other i _ => .other i

/-- The channel on which `p` sleeps. -/
def Sleeper.chan (p : Fin n) : Sleeper → Chan n
  | wait _ => .proc p
  | other _ chan => .other chan

/-- Where `sleep` returns to. -/
def Sleeper.return : Sleeper → Section n
  | wait bad => .waitScan bad false 0
  | other i _ => .other i

/-- Where `wakeup` returns to. -/
def Waker.return : Waker → Section n
  | reparent status j => .exitReparent status j
  | exit status => .exitLock status
  | other i => .other i

/-- Make a process runnable if it sleeps on the channel. -/
def Proc.wake (x : Proc n) (chan : Option (Chan n)) : Proc n :=
  if x.state = .sleeping ∧ x.chan = chan then { x with state := .runnable } else x

/-- Kill a process, and wake it from `sleep`. -/
def Proc.kill (x : Proc n) : Proc n :=
  { x with killed := true, state := if x.state = .sleeping then .runnable else x.state }

/-! ### The steps of a thread -/

/-- What an instruction does to the shared state. -/
inductive Effect (n : Nat)
  | skip
  | acquire (lk : Outer)
  | release (lk : Outer)
  | acquireProc (q : Fin n)
  | releaseProc (q : Fin n)
  | write (q : Fin n) (x : Proc n)
  /-- `allocpid` as well. -/
  | create (q : Fin n) (x : Proc n)
  /-- `p->context.ra = (uint64)forkret`. -/
  | setup (q : Fin n)
  | swtch
deriving DecidableEq

/-- The next instruction of the thread of `p` where it holds a lock; `init` is `initproc`. -/
def sectionStep (init : Fin n) (s : State n κ) (p : Fin n) : Section n → Option (Effect n × Pc n × Event n)
  | .forkCheck mem np =>
    some (.skip, .inside (if (s.procs np).state = .unused then .forkFound mem np else .forkSkip mem np), .silent)
  | .forkSkip mem np => some (.releaseProc np, .at (.forkScan mem (np + 1)), .silent)
  | .forkFound mem np =>
    some (.create np { s.procs np with pid := s.nextpid, state := .used }, .inside (.forkMemory mem np s.nextpid), .silent)
  | .forkMemory mem np pid =>
    some (.skip, .inside (if mem = .noTrapframe ∨ mem = .noPagetable then .forkFree np pid else .forkContext mem np pid),
      .silent)
  | .forkContext mem np pid => some (.setup np, .inside (.forkCopy mem np pid), .silent)
  | .forkCopy mem np pid =>
    some (.skip, .inside (if mem = .noCopy then .forkFree np pid else .forkRelease np pid), .silent)
  | .forkFree np _ => some (.write np (.free n), .inside (.forkFail np), .silent)
  | .forkFail np => some (.releaseProc np, .at (.returned (-1)), .silent)
  | .forkRelease np pid => some (.releaseProc np, .at (.forkParent np pid), .silent)
  | .forkAdopt np pid => some (.write np { s.procs np with parent := some p }, .inside (.forkAdopted np pid), .silent)
  | .forkAdopted np pid => some (.release .wait, .at (.forkRunnable np pid), .silent)
  | .forkState np pid =>
    some (.write np { s.procs np with state := .runnable }, .inside (.forkDone np pid), .forked p np pid)
  | .forkDone np pid => some (.releaseProc np, .at (.returned pid), .silent)
  | .exitReparent status j =>
    if h : j < n then
      if (s.procs ⟨j, h⟩).parent = some p then
        some (.write ⟨j, h⟩ { s.procs ⟨j, h⟩ with parent := some init },
          .inside (.wakeup (some (.proc init)) 0 (.reparent status (j + 1))), .silent)
      else some (.skip, .inside (.exitReparent status (j + 1)), .silent)
    else some (.skip, .inside (.exitWakeup status), .silent)
  | .exitWakeup status =>
    some (.skip, .inside (.wakeup ((s.procs p).parent.map .proc) 0 (.exit status)), .silent)
  | .exitLock status => some (.acquireProc p, .inside (.exitState status), .silent)
  | .exitState status =>
    some (.write p { s.procs p with xstate := status, state := .zombie }, .inside .exitRelease, .exited p status)
  | .exitRelease => some (.release .wait, .inside .exitSched, .silent)
  | .exitSched => some (.swtch, .zombie, .silent)
  | .wakeup chan j f =>
    if h : j < n then
      if ⟨j, h⟩ = p then some (.skip, .inside (.wakeup chan (j + 1) f), .silent)
      else some (.acquireProc ⟨j, h⟩, .inside (.wakeupTest chan ⟨j, h⟩ f), .silent)
    else some (.skip, .inside f.return, .silent)
  | .wakeupTest chan q f => some (.write q ((s.procs q).wake chan), .inside (.wakeupRelease chan q f), .silent)
  | .wakeupRelease chan q f => some (.releaseProc q, .inside (.wakeup chan (q + 1) f), .silent)
  | .waitScan bad havekids j =>
    if h : j < n then
      if (s.procs ⟨j, h⟩).parent = some p then some (.acquireProc ⟨j, h⟩, .inside (.waitCheck bad ⟨j, h⟩), .silent)
      else some (.skip, .inside (.waitScan bad havekids (j + 1)), .silent)
    else some (.skip, .inside (if havekids then .waitKilled bad else .waitReturn (-1)), .silent)
  | .waitCheck bad pp =>
    if (s.procs pp).state = .zombie then
      if bad then some (.skip, .inside (.waitFound pp (-1)), .silent)
      else
        some (.write pp (.free n), .inside (.waitFound pp (s.procs pp).pid),
          .reaped p pp (s.procs pp).pid (s.procs pp).xstate)
    else some (.skip, .inside (.waitSkip bad pp), .silent)
  | .waitSkip bad pp => some (.releaseProc pp, .inside (.waitScan bad true (pp + 1)), .silent)
  | .waitFound pp result => some (.releaseProc pp, .inside (.waitReturn result), .silent)
  | .waitReturn result => some (.release .wait, .at (.returned result), .silent)
  | .waitKilled bad => some (.acquireProc p, .inside (.waitKilledRead bad), .silent)
  | .waitKilledRead bad => some (.skip, .inside (.waitKilledRelease bad (s.procs p).killed), .silent)
  | .waitKilledRelease bad killed =>
    some (.releaseProc p, .inside (if killed then .waitReturn (-1) else .sleepAcquire (.wait bad)), .silent)
  | .sleepAcquire f => some (.acquireProc p, .inside (.sleepRelease f), .silent)
  | .sleepRelease f => some (.release f.lk, .inside (.sleepMark f), .silent)
  | .sleepMark f =>
    some (.write p { s.procs p with chan := some (f.chan p), state := .sleeping }, .inside (.sleepSched f), .silent)
  | .sleepSched f => some (.swtch, .inside (.sleepTidy f), .silent)
  | .sleepTidy f => some (.write p { s.procs p with chan := none }, .inside (.sleepUnlock f), .silent)
  | .sleepUnlock f => some (.releaseProc p, .at (.reacquire f), .silent)
  | .killCheck pid q =>
    if (s.procs q).pid = pid then some (.write q (s.procs q).kill, .inside (.killRelease pid q true), .silent)
    else some (.skip, .inside (.killRelease pid q false), .silent)
  | .killRelease pid q true => some (.releaseProc q, .at (.returned 0), .killed p pid 0)
  | .killRelease pid q false => some (.releaseProc q, .at (.killScan pid (q + 1)), .silent)
  | .setkilled => some (.write p { s.procs p with killed := true }, .inside .setkilledRelease, .silent)
  | .setkilledRelease => some (.releaseProc p, .at .user, .silent)
  | .other _ => none

/-- The next instruction of the thread of `p`; none where only a request goes on. -/
def threadStep (init : Fin n) (s : State n κ) (p : Fin n) : Pc n → Option (Effect n × Pc n × Event n)
  | .at .user => none
  | .at (.returned result) => some (.skip, .at .user, .returned p result)
  | .at (.forkScan mem j) =>
    if h : j < n then some (.acquireProc ⟨j, h⟩, .inside (.forkCheck mem ⟨j, h⟩), .silent)
    else some (.skip, .at (.returned (-1)), .silent)
  | .at (.forkParent np pid) => some (.acquire .wait, .inside (.forkAdopt np pid), .silent)
  | .at (.forkRunnable np pid) => some (.acquireProc np, .inside (.forkState np pid), .silent)
  | .at (.exitAcquire status) => some (.acquire .wait, .inside (.exitReparent status 0), .silent)
  | .at (.waitAcquire bad) => some (.acquire .wait, .inside (.waitScan bad false 0), .silent)
  | .at (.reacquire f) => some (.acquire f.lk, .inside f.return, .silent)
  | .at (.killScan pid j) =>
    if h : j < n then some (.acquireProc ⟨j, h⟩, .inside (.killCheck pid ⟨j, h⟩), .silent)
    else some (.skip, .at (.returned (-1)), .killed p pid (-1))
  | .at .setkilledAcquire => some (.acquireProc p, .inside .setkilled, .silent)
  | .at (.otherAcquire i) => some (.acquire (.other i), .inside (.other i), .silent)
  | .inside sec => sectionStep init s p sec
  | .yield .acquire k => some (.acquireProc p, .yield .state k, .silent)
  | .yield .state k => some (.write p { s.procs p with state := .runnable }, .yield .sched k, .silent)
  | .yield .sched k => some (.swtch, .yield .release k, .silent)
  | .yield .release k => some (.releaseProc p, .at k, .silent)
  | .zombie => none

/-- Where a request leads; `init` does not exit, as the kernel panics then. -/
def enter (init p : Fin n) : Pc n → Request → Option (Pc n)
  | .at .user, .fork mem => some (.at (.forkScan mem 0))
  | .at .user, .exit status => if p = init then none else some (.at (.exitAcquire status))
  | .at .user, .wait bad => some (.at (.waitAcquire bad))
  | .at .user, .kill pid => some (.at (.killScan (argint pid) 0))
  | .at .user, .setkilled => some (.at .setkilledAcquire)
  | .at .user, .lock i => some (.at (.otherAcquire i))
  | .inside (.other i), .sleep chan => some (.inside (.sleepAcquire (.other i chan)))
  | .inside (.other i), .wakeup chan => some (.inside (.wakeup (some (.other chan)) 0 (.other i)))
  | _, _ => none

/-! ### The steps of the machine -/

variable [DecidableEq κ]

def State.setProc (s : State n κ) (q : Fin n) (x : Proc n) : State n κ := { s with procs := Function.update s.procs q x }

def State.setProcLock (s : State n κ) (q : Fin n) (holder : Option κ) : State n κ :=
  { s with procLock := Function.update s.procLock q holder }

def State.setOuter (s : State n κ) (lk : Outer) (holder : Option κ) : State n κ :=
  { s with outer := Function.update s.outer lk holder }

def State.setContext (s : State n κ) (q : Fin n) (pc : Pc n) : State n κ :=
  { s with context := Function.update s.context q (some pc) }

def State.setThread (s : State n κ) (q : Fin n) (pc : Pc n) : State n κ :=
  { s with thread := Function.update s.thread q pc }

def State.setCpu (s : State n κ) (c : κ) (cpu : Cpu n) : State n κ := { s with cpus := Function.update s.cpus c cpu }

def State.setCurrent (s : State n κ) (c : κ) (p : Option (Fin n)) : State n κ :=
  { s with proc := Function.update s.proc c p }

/-- The effect of an instruction executed on the CPU `c`; none while a lock it acquires is not free. -/
def applyEffect (s : State n κ) (c : κ) : Effect n → Option (State n κ)
  | .skip | .swtch => some s
  | .acquire lk => if s.outer lk = none then some (s.setOuter lk (some c)) else none
  | .release lk => some (s.setOuter lk none)
  | .acquireProc q => if s.procLock q = none then some (s.setProcLock q (some c)) else none
  | .releaseProc q => some (s.setProcLock q none)
  | .write q x => some (s.setProc q x)
  | .create q x => some { s.setProc q x with nextpid := wrap32 (s.nextpid + 1) }
  | .setup q => some ((s.setContext q forkret).setThread q forkret)

/-- Where a CPU stands after an instruction of `p`. -/
def Effect.cpu (p : Fin n) (pc : Pc n) : Effect n → Cpu n
  | .swtch => .save p pc
  | _ => .run p pc

/-- The thread of `p` on the CPU `c` comes to `pc`. -/
def State.goTo (s : State n κ) (c : κ) (p : Fin n) (cpu : Cpu n) (pc : Pc n) : State n κ := (s.setCpu c cpu).setThread p pc

/-- One step of a CPU: of `scheduler`, of `swtch`, or of the process it runs. -/
def cpuStep (init : Fin n) (s : State n κ) (c : κ) : Option (Event n × State n κ) :=
  match s.cpus c with
  | .scan j =>
    if h : j < n then
      if s.procLock ⟨j, h⟩ = none then some (.silent, (s.setProcLock ⟨j, h⟩ (some c)).setCpu c (.check ⟨j, h⟩)) else none
    else some (.silent, s.setCpu c (.scan 0))
  | .check q =>
    if (s.procs q).state = .runnable then
      some (.silent, (s.setProc q { s.procs q with state := .running }).setCpu c (.set q))
    else some (.silent, s.setCpu c (.unlock q))
  | .set q => some (.silent, (s.setCurrent c (some q)).setCpu c (.restore q))
  | .restore q => (s.context q).map fun pc => (.silent, s.setCpu c (.run q pc))
  | .run p pc =>
    match threadStep init s p pc with
    | none => none
    | some (effect, pc', event) => (applyEffect s c effect).map fun t => (event, t.goTo c p (effect.cpu p pc') pc')
  | .save p pc => some (.silent, (s.setContext p pc).setCpu c (.clear p))
  | .clear p => some (.silent, (s.setCurrent c none).setCpu c (.unlock p))
  | .unlock q => some (.silent, (s.setProcLock q none).setCpu c (.scan (q + 1)))

/-- The release of another lock that ends a section outside `proc.c`. -/
def unlockStep (s : State n κ) (c : κ) (p : Fin n) : Pc n → Option (State n κ)
  | .inside (.other i) => some ((s.setOuter (.other i) none).goTo c p (.run p (.at .user)) (.at .user))
  | _ => none

def step (init : Fin n) (s : State n κ) : Action n κ → Option (Event n × State n κ)
  | .cpu c => cpuStep init s c
  | .request c r =>
    match s.cpus c with
    | .run p pc =>
      match r with
      | .unlock => (unlockStep s c p pc).map fun t => (.silent, t)
      | r => (enter init p pc r).map fun pc' => (.silent, s.goTo c p (.run p pc') pc')
    | _ => none
  | .preempt c =>
    match s.cpus c with
    | .run p (.at k) =>
      -- `kerneltrap` tests the state, `usertrap` does not.
      if k = .user ∨ (s.procs p).state = .running then some (.silent, s.goTo c p (.run p (.yield .acquire k)) (.yield .acquire k))
      else none
    | _ => none
  | .interrupt q chan =>
    if s.procLock q = none then some (.silent, s.setProc q ((s.procs q).wake (some (.other chan)))) else none

/-- The transitions of the machine. -/
abbrev Step (init : Fin n) : State n κ → Action n κ × Event n → State n κ → Prop := Transition.ofStep (step init)

/-- After `userinit`: the slot of `initproc` is runnable, all others are unused, and the CPUs start to schedule. -/
structure Boot (init : Fin n) (s : State n κ) : Prop where
  unused : ∀ q, q ≠ init → s.procs q = .free n
  first : s.procs init = { Proc.free n with state := .runnable, pid := 1 }
  procLock : ∀ q, s.procLock q = none
  outer : ∀ lk, s.outer lk = none
  context : ∀ q, s.context q = if q = init then some forkret else none
  cpus : ∀ c, s.cpus c = .scan 0
  proc : ∀ c, s.proc c = none
  thread : ∀ p, s.thread p = forkret

def boot (κ : Type) (init : Fin n) : State n κ where
  procs q := if q = init then { Proc.free n with state := .runnable, pid := 1 } else .free n
  procLock _ := none
  outer _ := none
  nextpid := 2
  context q := if q = init then some forkret else none
  cpus _ := .scan 0
  proc _ := none
  thread _ := forkret

omit [DecidableEq κ] in
theorem boot_boot (init : Fin n) : Boot init (boot κ init) where
  unused _ h := if_neg h
  first := if_pos rfl
  procLock _ := rfl
  outer _ := rfl
  context _ := rfl
  cpus _ := rfl
  proc _ := rfl
  thread _ := rfl

end LabSO.Kernel.Procs

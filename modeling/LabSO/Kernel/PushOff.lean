import LabSO.Kernel.SemMachine
import LabSO.Lib.Transition

/-! `spinlock.c` with the switches of `proc.c`: any number of CPUs, processes and spinlocks, threads that nest `acquire`
    and `push_off` as they like, and interrupts. -/

namespace LabSO.Kernel.PushOff

/-- A spinlock: `p->lock` of a process, or another. -/
inductive Lock (P Λ : Type)
  | proc (p : P)
  | other (l : Λ)
deriving DecidableEq

/-- Who runs on a kernel stack: a process, or the loop of `scheduler` on its CPU. -/
inductive Thread (κ P : Type)
  | proc (p : P)
  | scheduler (c : κ)
deriving DecidableEq

/-- `struct cpu`, with the interrupt bit of the CPU. `proc` is the process whose stack it runs on; `noff` is an `int` that
    does not overflow. -/
structure Cpu (P : Type) where
  noff : Int
  intena : Bool
  /-- `intr_get()`. -/
  intr : Bool
  proc : Option P
deriving DecidableEq

/-- `struct spinlock`. -/
structure Spinlock (κ : Type) where
  locked : Bool
  cpu : Option κ
deriving DecidableEq

inductive Panic
  | acquire
  | release
  /-- `pop_off - interruptible`. -/
  | interruptible
  | popOff
  /-- `sched p->lock`. -/
  | schedLock
  /-- `sched locks`. -/
  | schedLocks
  | schedRunning
  | schedInterruptible
deriving DecidableEq

/-- Where a thread stands. -/
inductive Pc (P Λ : Type)
  /-- Between two calls. -/
  | out
  /-- In `push_off` behind `intr_get`; with `next` it is `acquire` that called it. -/
  | pushOff (old : Bool) (next : Option (Lock P Λ))
  /-- `if(holding(lk))`. -/
  | acquireTest (l : Lock P Λ)
  | acquireSpin (l : Lock P Λ)
  /-- `lk->cpu = mycpu()`. -/
  | acquireOwn (l : Lock P Λ)
  /-- `lk->cpu = 0`. -/
  | releaseClear (l : Lock P Λ)
  | releaseUnlock (l : Lock P Λ)
  | popOff
  /-- In `sched` behind `swtch`. -/
  | restore (intena : Bool)
  | panic (m : Panic)
deriving DecidableEq

/-- A thread: where it stands, where the traps on its stack have interrupted it, and how it has nested: the locks it has
    taken and how often it has called `push_off` itself. -/
structure Kthread (P Λ : Type) where
  pc : Pc P Λ
  below : List (Pc P Λ)
  held : List (Lock P Λ)
  bare : Nat
deriving DecidableEq

structure State (κ P Λ : Type) where
  cpus : κ → Cpu P
  locks : Lock P Λ → Spinlock κ
  threads : Thread κ P → Kthread P Λ
  states : P → ProcState

variable {κ P Λ : Type}

/-- The `push_off` of an `acquire` or a `release` that is under way. -/
def Pc.pending : Pc P Λ → Nat
  | .acquireTest _ | .acquireSpin _ | .acquireOwn _ | .releaseClear _ | .releaseUnlock _ | .popOff | .panic .acquire => 1
  | _ => 0

/-- How many `push_off` of a thread are not undone. -/
def Kthread.depth (t : Kthread P Λ) : Nat := t.held.length + t.bare + t.pc.pending

/-- What `allocproc` leaves: `forkret` runs with `p->lock` held by `scheduler`. -/
def Kthread.fresh (p : P) : Kthread P Λ := ⟨.out, [], [.proc p], 0⟩

def Kthread.goto (t : Kthread P Λ) (k : Pc P Λ) : Kthread P Λ := { t with pc := k }

/-- The thread that a CPU runs. -/
def State.current (s : State κ P Λ) (c : κ) : Thread κ P :=
  match (s.cpus c).proc with
  | some p => .proc p
  | none => .scheduler c

def State.thread (s : State κ P Λ) (c : κ) : Kthread P Λ := s.threads (s.current c)

/-- What a thread can ask for. -/
inductive Request (P Λ : Type)
  | pushOff
  | popOff
  | acquire (l : Lock P Λ)
  | release (l : Lock P Λ)
deriving DecidableEq

inductive Action (κ P Λ : Type)
  | call (c : κ) (r : Request P Λ)
  | advance (c : κ)
  /-- `intr_on` of `scheduler` and `usertrap`, and the way to user space. -/
  | intrOn (c : κ)
  /-- `intr_off` of `usertrapret`, and the way from user space. -/
  | intrOff (c : κ)
  | trap (c : κ)
  | trapret (c : κ)
  /-- `yield`, `sleep` and `exit` say why they are about to call `sched`. -/
  | setState (c : κ) (st : ProcState)
  | sched (c : κ)
  /-- `wakeup`, `kill`, `allocproc`, `fork`, `freeproc` on another process. -/
  | recast (c : κ) (q : P) (st : ProcState)
  /-- `scheduler` switches to a process. -/
  | dispatch (c : κ) (p : P)
deriving DecidableEq

section Step
variable [DecidableEq κ] [DecidableEq P] [DecidableEq Λ]

def Spinlock.holding (lk : Spinlock κ) (c : κ) : Bool := lk.locked && lk.cpu = some c

/-- The CPU and its thread after a step. -/
def State.set (s : State κ P Λ) (c : κ) (u : Cpu P) (t : Kthread P Λ) : State κ P Λ :=
  { s with cpus := Function.update s.cpus c u, threads := Function.update s.threads (s.current c) t }

def State.setLock (s : State κ P Λ) (l : Lock P Λ) (lk : Spinlock κ) : State κ P Λ :=
  { s with locks := Function.update s.locks l lk }

def State.goto (s : State κ P Λ) (c : κ) (k : Pc P Λ) : State κ P Λ := s.set c (s.cpus c) ((s.thread c).goto k)

/-- A process that has said why it leaves keeps its lock until `sched`. -/
def State.mayRelease (s : State κ P Λ) (c : κ) (l : Lock P Λ) : Bool :=
  match (s.cpus c).proc with
  | some p => l ≠ .proc p || s.states p = .running
  | none => true

/-- The first statement of what a thread calls. It gives back only what it has taken. -/
def State.call (s : State κ P Λ) (c : κ) : Request P Λ → Option (State κ P Λ)
  | .pushOff => some (s.goto c (.pushOff (s.cpus c).intr none))
  | .acquire l => some (s.goto c (.pushOff (s.cpus c).intr (some l)))
  | .popOff =>
    if 0 < (s.thread c).bare then
      some (s.set c (s.cpus c) { s.thread c with pc := .popOff, bare := (s.thread c).bare - 1 })
    else none
  | .release l =>
    if l ∈ (s.thread c).held ∧ s.mayRelease c l then
      if (s.locks l).holding c then
        some (s.set c (s.cpus c) { s.thread c with pc := .releaseClear l, held := (s.thread c).held.erase l })
      else some (s.goto c (.panic .release))
    else none

/-- The next statement of `push_off`, `pop_off`, `acquire` or `release`, or the last of `sched`. -/
def State.advance (s : State κ P Λ) (c : κ) : Option (State κ P Λ) :=
  let u := s.cpus c
  let t := s.thread c
  match t.pc with
  | .out | .panic _ => none
  | .pushOff old next =>
    let u' := { u with intr := false, intena := if u.noff = 0 then old else u.intena, noff := u.noff + 1 }
    match next with
    | none => some (s.set c u' { t with pc := .out, bare := t.bare + 1 })
    | some l => some (s.set c u' (t.goto (.acquireTest l)))
  | .acquireTest l => some (s.goto c (if (s.locks l).holding c then .panic .acquire else .acquireSpin l))
  | .acquireSpin l =>
    -- `__sync_lock_test_and_set`
    if (s.locks l).locked then some s
    else some ((s.goto c (.acquireOwn l)).setLock l { s.locks l with locked := true })
  | .acquireOwn l =>
    some ((s.set c u { t with pc := .out, held := l :: t.held }).setLock l { s.locks l with cpu := some c })
  | .releaseClear l => some ((s.goto c (.releaseUnlock l)).setLock l { s.locks l with cpu := none })
  | .releaseUnlock l => some ((s.goto c .popOff).setLock l { s.locks l with locked := false })
  | .popOff =>
    if u.intr then some (s.goto c (.panic .interruptible))
    else if u.noff < 1 then some (s.goto c (.panic .popOff))
    else some (s.set c { u with noff := u.noff - 1, intr := u.noff - 1 = 0 && u.intena } (t.goto .out))
  | .restore intena => some (s.set c { u with intena } (t.goto .out))

/-- `sched` up to `swtch`, which goes on with the `scheduler` of the CPU. -/
def State.sched (s : State κ P Λ) (c : κ) (p : P) : State κ P Λ :=
  let u := s.cpus c
  if !(s.locks (.proc p)).holding c then s.goto c (.panic .schedLock)
  else if u.noff ≠ 1 then s.goto c (.panic .schedLocks)
  else if s.states p = .running then s.goto c (.panic .schedRunning)
  else if u.intr then s.goto c (.panic .schedInterruptible)
  else s.set c { u with proc := none } ((s.thread c).goto (.restore u.intena))

/-- What others make of the state of a process, with its lock held. -/
def mayBecome : ProcState → ProcState → Bool
  | .sleeping, .runnable | .unused, .used | .used, .runnable | .used, .unused | .zombie, .unused => true
  | _, _ => false

def mayLeave (st : ProcState) : Bool := st = .runnable || st = .sleeping || st = .zombie

def step (s : State κ P Λ) : Action κ P Λ → Option (State κ P Λ)
  | .call c r => if (s.thread c).pc = .out then s.call c r else none
  | .advance c => s.advance c
  | .intrOn c =>
    if (s.thread c).pc = .out ∧ (s.thread c).depth = 0 then some (s.set c { s.cpus c with intr := true } (s.thread c)) else none
  | .intrOff c =>
    if (s.thread c).pc = .out ∧ (s.thread c).depth = 0 then some (s.set c { s.cpus c with intr := false } (s.thread c)) else none
  | .trap c =>
    let t := s.thread c
    if (s.cpus c).intr then some (s.set c { s.cpus c with intr := false } { t with pc := .out, below := t.pc :: t.below })
    else none
  | .trapret c =>
    let t := s.thread c
    match t.below with
    | [] => none
    | k :: ks =>
      if t.pc = .out ∧ t.depth = 0 then some (s.set c { s.cpus c with intr := true } { t with pc := k, below := ks }) else none
  | .setState c st =>
    match (s.cpus c).proc with
    | none => none
    | some p =>
      if (s.thread c).pc = .out ∧ .proc p ∈ (s.thread c).held ∧ s.states p = .running ∧ mayLeave st then
        some { s with states := Function.update s.states p st }
      else none
  | .sched c =>
    match (s.cpus c).proc with
    | none => none
    | some p => if (s.thread c).pc = .out then some (s.sched c p) else none
  | .recast c q st =>
    if (s.thread c).pc = .out ∧ .proc q ∈ (s.thread c).held ∧ s.current c ≠ .proc q ∧ mayBecome (s.states q) st then
      some { s with
        states := Function.update s.states q st
        threads := if st = .used then Function.update s.threads (.proc q) (.fresh q) else s.threads }
    else none
  | .dispatch c p =>
    if s.current c = .scheduler c ∧ s.thread c = ⟨.out, [], [.proc p], 0⟩ ∧ s.states p = .runnable then
      some { s with
        states := Function.update s.states p .running
        cpus := Function.update s.cpus c { s.cpus c with proc := some p } }
    else none

abbrev Step (s : State κ P Λ) (a : Action κ P Λ) (t : State κ P Λ) : Prop := step s a = some t

end Step

/-- As the CPUs come to `main`, each on the stack where its `scheduler` will run. -/
def boot : State κ P Λ where
  cpus _ := ⟨0, false, false, none⟩
  locks _ := ⟨false, none⟩
  threads
    | .proc p => .fresh p
    | .scheduler _ => ⟨.out, [], [], 0⟩
  states _ := .unused

end LabSO.Kernel.PushOff

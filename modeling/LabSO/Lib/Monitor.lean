import LabSO.Lib.Transition
import Mathlib.Logic.Function.Basic

/-! Threads that share data under one lock, and that sleep and wake each other on channels: the machine, and the cases
    of its steps.

    A thread is a process, which can sleep, or an interrupt handler, which cannot. Each process has a slot with a lock of
    its own; `sleep` takes it before it releases the shared lock, and keeps it until the process is asleep. -/

namespace LabSO.Monitor

/-- How a process stands to the scheduler. -/
inductive Status
  | running
  | sleeping
  | runnable
deriving DecidableEq, Repr

/-- The slot of a process. `lock` says that the process itself holds the lock of the slot, on its way to sleep; all others
    take that lock for a single step. -/
structure Slot (γ : Type) where
  lock : Bool
  status : Status
  chan : Option γ
  killed : Bool
deriving DecidableEq, Repr

/-- What a thread that holds the lock does next; `π` are the points of its code, `ρ` the results of its calls. -/
inductive Op (γ β π ρ : Type)
  | set (data : β) (next : π)
  | wakeup (chan : γ) (next : π)
  | sleep (chan : γ) (next : π)
  /-- Go on according to whether the process was killed. -/
  | killed (yes no : π)
  | release (result : ρ)
  /-- The thread never goes on. -/
  | stop

/-- Where a thread stands; `next` is the point from which its code goes on. -/
inductive Pc (γ π : Type)
  | out
  | acquire (next : π)
  | at (point : π)
  /-- In the loop of `wakeup`, at slot `j`. -/
  | wakeup (chan : γ) (j : Nat) (next : π)
  | sleepAcquire (chan : γ) (next : π)
  | sleepRelease (chan : γ) (next : π)
  | sleepMark (chan : γ) (next : π)
  | sleepSwitch (chan : γ) (next : π)
  /-- Switched away, until the process is made runnable and scheduled. -/
  | asleep (chan : γ) (next : π)
deriving DecidableEq, Repr

abbrev Thread (n : Nat) (η : Type) : Type := Fin n ⊕ η

/-- The code of the threads, as a function of the data at each point; the calls that threads make, with what a call does
    to the data before it takes the lock, if it takes it; and what the environment does to the data. -/
structure Code (n : Nat) (η γ β π ρ ν ε : Type) where
  op : Thread n η → π → β → Op γ β π ρ
  enter : Thread n η → ν → β → Option (β × Option π)
  env : ε → β → Option β

structure State (n : Nat) (η γ β π : Type) where
  data : β
  /-- The thread that holds the lock. -/
  lock : Option (Thread n η)
  slots : Fin n → Slot γ
  pcs : Thread n η → Pc γ π

inductive Action (n : Nat) (η ν ε : Type)
  | step (a : Thread n η)
  | call (a : Thread n η) (request : ν)
  | kill (p : Fin n)
  | env (e : ε)
deriving DecidableEq, Repr

/-- What a step did, for statements about runs. -/
inductive Event (n : Nat) (η ρ : Type)
  | silent
  | returned (a : Thread n η) (result : ρ)
deriving DecidableEq, Repr

variable {n : Nat} {η γ β π ρ ν ε : Type} [DecidableEq η] [DecidableEq γ]

def State.setPc (s : State n η γ β π) (a : Thread n η) (pc : Pc γ π) : State n η γ β π :=
  { s with pcs := Function.update s.pcs a pc }

def State.setSlot (s : State n η γ β π) (p : Fin n) (x : Slot γ) : State n η γ β π :=
  { s with slots := Function.update s.slots p x }

def State.setLock (s : State n η γ β π) (holder : Option (Thread n η)) : State n η γ β π := { s with lock := holder }

def State.setData (s : State n η γ β π) (data : β) : State n η γ β π := { s with data }

/-- Make a process runnable if it sleeps on the channel. -/
def Slot.wake (x : Slot γ) (chan : γ) : Slot γ :=
  if x.status = .sleeping ∧ x.chan = some chan then { x with status := .runnable } else x

/-- Kill a process, and wake it if it sleeps. -/
def Slot.kill (x : Slot γ) : Slot γ :=
  { x with killed := true, status := if x.status = .sleeping then .runnable else x.status }

variable (code : Code n η γ β π ρ ν ε)

/-- A step of a thread at a point of its code. -/
def opStep (s : State n η γ β π) (a : Thread n η) : Op γ β π ρ → Option (Event n η ρ × State n η γ β π)
  | .set data next => some (.silent, (s.setData data).setPc a (.at next))
  | .wakeup chan next => some (.silent, s.setPc a (.wakeup chan 0 next))
  | .sleep chan next => some (.silent, s.setPc a (.sleepAcquire chan next))
  | .killed yes no =>
    match a with
    | .inl p =>
      if (s.slots p).lock then none else some (.silent, s.setPc a (.at (if (s.slots p).killed then yes else no)))
    | .inr _ => none
  | .release result => some (.returned a result, (s.setLock none).setPc a .out)
  | .stop => none

/-- A step of a process in `sleep`. -/
def sleepStep (s : State n η γ β π) (p : Fin n) : Pc γ π → Option (State n η γ β π)
  | .sleepAcquire chan next =>
    if (s.slots p).lock then none
    else some ((s.setSlot p { s.slots p with lock := true }).setPc (.inl p) (.sleepRelease chan next))
  | .sleepRelease chan next => some ((s.setLock none).setPc (.inl p) (.sleepMark chan next))
  | .sleepMark chan next =>
    some ((s.setSlot p { s.slots p with status := .sleeping, chan := some chan }).setPc (.inl p) (.sleepSwitch chan next))
  | .sleepSwitch chan next =>
    some ((s.setSlot p { s.slots p with lock := false }).setPc (.inl p) (.asleep chan next))
  | .asleep _ next =>
    if (s.slots p).status = .runnable then
      some ((s.setSlot p { s.slots p with status := .running, chan := none }).setPc (.inl p) (.acquire next))
    else none
  | _ => none

/-- A step of the loop of `wakeup`. -/
def wakeupStep (s : State n η γ β π) (a : Thread n η) (chan : γ) (j : Nat) (next : π) : Option (State n η γ β π) :=
  if h : j < n then
    if a = .inl ⟨j, h⟩ then some (s.setPc a (.wakeup chan (j + 1) next))
    else if (s.slots ⟨j, h⟩).lock then none
    else some ((s.setSlot ⟨j, h⟩ ((s.slots ⟨j, h⟩).wake chan)).setPc a (.wakeup chan (j + 1) next))
  else some (s.setPc a (.at next))

def threadStep (s : State n η γ β π) (a : Thread n η) : Option (Event n η ρ × State n η γ β π) :=
  match s.pcs a with
  | .out => none
  | .acquire next => if s.lock = none then some (.silent, (s.setLock (some a)).setPc a (.at next)) else none
  | .at point => opStep s a (code.op a point s.data)
  | .wakeup chan j next => (wakeupStep s a chan j next).map fun t => (.silent, t)
  | pc =>
    match a with
    | .inl p => (sleepStep s p pc).map fun t => (.silent, t)
    | .inr _ => none

def callStep (s : State n η γ β π) (a : Thread n η) (request : ν) : Option (State n η γ β π) :=
  match s.pcs a with
  | .out =>
    match code.enter a request s.data with
    | none => none
    | some (data, none) => some (s.setData data)
    | some (data, some next) => some ((s.setData data).setPc a (.acquire next))
  | _ => none

def step (s : State n η γ β π) : Action n η ν ε → Option (Event n η ρ × State n η γ β π)
  | .step a => threadStep code s a
  | .call a request => (callStep code s a request).map fun t => (.silent, t)
  | .kill p => if (s.slots p).lock then none else some (.silent, s.setSlot p (s.slots p).kill)
  | .env e => (code.env e s.data).map fun data => (.silent, s.setData data)

abbrev Step : State n η γ β π → Action n η ν ε × Event n η ρ → State n η γ β π → Prop := Transition.ofStep (step code)

/-- All threads are outside, and the lock is free. -/
structure Boot (s : State n η γ β π) : Prop where
  lock : s.lock = none
  slotLock : ∀ p, (s.slots p).lock = false
  status : ∀ p, (s.slots p).status ≠ .sleeping
  pcs : ∀ a, s.pcs a = .out

def boot (n : Nat) (η γ : Type) (data : β) : State n η γ β π where
  data := data
  lock := none
  slots _ := { lock := false, status := .running, chan := none, killed := false }
  pcs _ := .out

omit [DecidableEq η] [DecidableEq γ] in
theorem boot_boot (data : β) : Boot (boot n η γ data : State n η γ β π) where
  lock := rfl
  slotLock _ := rfl
  status _ := nofun
  pcs _ := rfl

/-! ### The cases of a step -/

/-- What a thread that holds the lock does without a change of the data, by its code: where it stands then. -/
inductive Passes (s : State n η γ β π) (a : Thread n η) (point : π) : Pc γ π → Prop
  | wakeup {chan : γ} {next : π} (op : code.op a point s.data = .wakeup chan next) : Passes s a point (.wakeup chan 0 next)
  | sleep {chan : γ} {next : π} (op : code.op a point s.data = .sleep chan next) :
    Passes s a point (.sleepAcquire chan next)
  | killed {p : Fin n} {yes no : π} (self : a = .inl p) (op : code.op a point s.data = .killed yes no)
    (free : (s.slots p).lock = false) : Passes s a point (.at (if (s.slots p).killed then yes else no))

inductive StepCase (s : State n η γ β π) : Action n η ν ε × Event n η ρ → State n η γ β π → Prop
  | acquire {a : Thread n η} {next : π} (pc : s.pcs a = .acquire next) (free : s.lock = none) :
    StepCase s (.step a, .silent) ((s.setLock (some a)).setPc a (.at next))
  | set {a : Thread n η} {point next : π} {data : β} (pc : s.pcs a = .at point)
    (op : code.op a point s.data = .set data next) : StepCase s (.step a, .silent) ((s.setData data).setPc a (.at next))
  | passes {a : Thread n η} {point : π} {pc' : Pc γ π} (pc : s.pcs a = .at point) (passes : Passes code s a point pc') :
    StepCase s (.step a, .silent) (s.setPc a pc')
  | release {a : Thread n η} {point : π} {result : ρ} (pc : s.pcs a = .at point)
    (op : code.op a point s.data = .release result) :
    StepCase s (.step a, .returned a result) ((s.setLock none).setPc a .out)
  | wakeupSelf {p : Fin n} {chan : γ} {next : π} (pc : s.pcs (.inl p) = .wakeup chan p next) :
    StepCase s (.step (.inl p), .silent) (s.setPc (.inl p) (.wakeup chan (p + 1) next))
  | wakeupTest {a : Thread n η} {chan : γ} {q : Fin n} {next : π} (pc : s.pcs a = .wakeup chan q next) (other : a ≠ .inl q)
    (free : (s.slots q).lock = false) : StepCase s (.step a, .silent)
      ((s.setSlot q ((s.slots q).wake chan)).setPc a (.wakeup chan (q + 1) next))
  | wakeupEnd {a : Thread n η} {chan : γ} {j : Nat} {next : π} (pc : s.pcs a = .wakeup chan j next) (all : ¬j < n) :
    StepCase s (.step a, .silent) (s.setPc a (.at next))
  | sleepAcquire {p : Fin n} {chan : γ} {next : π} (pc : s.pcs (.inl p) = .sleepAcquire chan next)
    (free : (s.slots p).lock = false) : StepCase s (.step (.inl p), .silent)
      ((s.setSlot p { s.slots p with lock := true }).setPc (.inl p) (.sleepRelease chan next))
  | sleepRelease {p : Fin n} {chan : γ} {next : π} (pc : s.pcs (.inl p) = .sleepRelease chan next) :
    StepCase s (.step (.inl p), .silent) ((s.setLock none).setPc (.inl p) (.sleepMark chan next))
  | sleepMark {p : Fin n} {chan : γ} {next : π} (pc : s.pcs (.inl p) = .sleepMark chan next) :
    StepCase s (.step (.inl p), .silent)
      ((s.setSlot p { s.slots p with status := .sleeping, chan := some chan }).setPc (.inl p) (.sleepSwitch chan next))
  | sleepSwitch {p : Fin n} {chan : γ} {next : π} (pc : s.pcs (.inl p) = .sleepSwitch chan next) :
    StepCase s (.step (.inl p), .silent)
      ((s.setSlot p { s.slots p with lock := false }).setPc (.inl p) (.asleep chan next))
  | resume {p : Fin n} {chan : γ} {next : π} (pc : s.pcs (.inl p) = .asleep chan next)
    (runnable : (s.slots p).status = .runnable) : StepCase s (.step (.inl p), .silent)
      ((s.setSlot p { s.slots p with status := .running, chan := none }).setPc (.inl p) (.acquire next))
  | call {a : Thread n η} {request : ν} {data : β} {next : π} (pc : s.pcs a = .out)
    (enter : code.enter a request s.data = some (data, some next)) :
    StepCase s (.call a request, .silent) ((s.setData data).setPc a (.acquire next))
  | callOut {a : Thread n η} {request : ν} {data : β} (pc : s.pcs a = .out)
    (enter : code.enter a request s.data = some (data, none)) : StepCase s (.call a request, .silent) (s.setData data)
  | kill {p : Fin n} (free : (s.slots p).lock = false) : StepCase s (.kill p, .silent) (s.setSlot p (s.slots p).kill)
  | env {e : ε} {data : β} (env : code.env e s.data = some data) : StepCase s (.env e, .silent) (s.setData data)

variable {code} {s t : State n η γ β π} {a : Thread n η} {event : Event n η ρ}

theorem opStep_inv {point : π} (hpc : s.pcs a = .at point) (h : opStep s a (code.op a point s.data) = some (event, t)) :
    StepCase code s (.step a, event) t := by
  cases hop : code.op a point s.data <;> rw [hop] at h <;> simp only [opStep] at h
  case set data next =>
    cases h
    exact .set hpc hop
  case wakeup chan next =>
    cases h
    exact .passes hpc (.wakeup hop)
  case sleep chan next =>
    cases h
    exact .passes hpc (.sleep hop)
  case killed yes no =>
    cases a with
    | inl p =>
      simp only at h
      split at h
      · cases h
      · next hfree =>
        cases h
        exact .passes hpc (.killed rfl hop (by simpa using hfree))
    | inr _ => cases h
  case release result =>
    cases h
    exact .release hpc hop
  case stop => cases h

theorem wakeupStep_inv {chan : γ} {j : Nat} {next : π} (hpc : s.pcs a = .wakeup chan j next)
    (h : wakeupStep s a chan j next = some t) : StepCase code s (.step a, .silent) t := by
  unfold wakeupStep at h
  split at h
  · next hj =>
    split at h
    · next hself =>
      subst hself
      cases h
      exact .wakeupSelf (p := ⟨j, hj⟩) hpc
    · next hother =>
      split at h
      · cases h
      · next hfree =>
        cases h
        exact .wakeupTest (q := ⟨j, hj⟩) hpc hother (by simpa using hfree)
  · next hall =>
    cases h
    exact .wakeupEnd hpc hall

theorem sleepStep_inv {p : Fin n} {pc : Pc γ π} (hpc : s.pcs (.inl p) = pc) (h : sleepStep s p pc = some t) :
    StepCase code s (.step (.inl p), .silent) t := by
  cases pc <;> simp only [sleepStep] at h
  case sleepAcquire chan next =>
    split at h
    · cases h
    · next hfree =>
      cases h
      exact .sleepAcquire hpc (by simpa using hfree)
  case sleepRelease chan next =>
    cases h
    exact .sleepRelease hpc
  case sleepMark chan next =>
    cases h
    exact .sleepMark hpc
  case sleepSwitch chan next =>
    cases h
    exact .sleepSwitch hpc
  case asleep chan next =>
    split at h
    · next hr =>
      cases h
      exact .resume hpc hr
    · cases h
  all_goals cases h

theorem threadStep_inv (h : threadStep code s a = some (event, t)) : StepCase code s (.step a, event) t := by
  unfold threadStep at h
  split at h
  · cases h
  · next next hpc =>
    split at h
    · next hfree =>
      cases h
      exact .acquire hpc hfree
    · cases h
  · next point hpc => exact opStep_inv hpc h
  · next chan j next hpc =>
    obtain ⟨u, hu, heq⟩ := Option.map_eq_some_iff.mp h
    cases heq
    exact wakeupStep_inv hpc hu
  · cases a with
    | inl p =>
      obtain ⟨u, hu, heq⟩ := Option.map_eq_some_iff.mp h
      cases heq
      exact sleepStep_inv rfl hu
    | inr _ => cases h

theorem step_inv {l : Action n η ν ε × Event n η ρ} (h : Step code s l t) : StepCase code s l t := by
  obtain ⟨action, event⟩ := l
  simp only [Transition.ofStep] at h
  cases action with
  | step a => exact threadStep_inv h
  | call a request =>
    obtain ⟨u, hu, heq⟩ := Option.map_eq_some_iff.mp h
    cases heq
    unfold callStep at hu
    split at hu
    · next hpc =>
      split at hu
      · cases hu
      · next data henter =>
        cases hu
        exact .callOut hpc henter
      · next data next henter =>
        cases hu
        exact .call hpc henter
    · cases hu
  | kill p =>
    simp only [step] at h
    split at h
    · cases h
    · next hfree =>
      cases h
      exact .kill (by simpa using hfree)
  | env e =>
    obtain ⟨data, hdata, heq⟩ := Option.map_eq_some_iff.mp h
    cases heq
    exact .env hdata

/-- Two codes with the same calls make the same step where they agree on what the thread does next. -/
theorem step_congr {code' : Code n η γ β π ρ ν ε} {l : Action n η ν ε}
    (hop : ∀ a k, l = .step a → s.pcs a = .at k → code'.op a k s.data = code.op a k s.data)
    (henter : code'.enter = code.enter) (henv : code'.env = code.env) : step code' s l = step code s l := by
  cases l with
  | step a =>
    show threadStep code' s a = threadStep code s a
    unfold threadStep
    split <;> first | rfl | skip
    next k hk => rw [hop a k rfl hk]
  | call a r =>
    show (callStep code' s a r).map _ = (callStep code s a r).map _
    rw [callStep, callStep, henter]
  | kill p => rfl
  | env e =>
    show (code'.env e s.data).map _ = (code.env e s.data).map _
    rw [henv]

end LabSO.Monitor

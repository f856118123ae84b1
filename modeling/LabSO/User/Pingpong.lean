import LabSO.Kernel.Semaphore
import LabSO.Lib.Transition
import Mathlib.Logic.Function.Basic

/-! `pingpong.c`: any number of runs of the program at a time, each a parent and a child with two semaphores.

    One step is at most one system call. A call on a semaphore is atomic, but a `sem_down` that finds the count
    at 0 sleeps until a `sem_up` wakes it, and then tests the count again. -/

namespace LabSO.User
open Kernel Transition

/-! ### Processes -/

inductive Role
  | parent
  | child
deriving DecidableEq, Repr

/-- Where a process stands in `sem_down`. -/
inductive Down
  | call
  | asleep
  /-- At the next test of the loop. -/
  | woken
deriving DecidableEq, Repr

/-- Where a process stands in `pingpong` once it has its semaphores. -/
inductive Place
  /-- The `sem_down` before the `fork`. -/
  | downFirst (d : Down)
  | fork
  | forkFailed
  | down (i : Nat) (d : Down)
  | print (i : Nat)
  | up (i : Nat)
  | wait
  | close1
  | close2
  | exit
deriving DecidableEq, Repr

inductive Pc
  /-- Not forked yet. -/
  | unborn
  /-- In the loop of `sem_open`, with the indices that it opened in `sems`. -/
  | scan (index : Nat) (sems : List Nat)
  /-- Before the `exit` of a run that has no two semaphores. -/
  | failed
  | body (sem1 sem2 : Nat) (place : Place)
  | exited
deriving DecidableEq, Repr

/-- The test of the `while` loop. -/
def whileLoop (amount i : Nat) : Place := if i < amount then .down i .call else .wait

/-- The semaphore that a process takes in each round. -/
def downIndex (role : Role) (sem1 sem2 : Nat) : Nat :=
  match role with
  | .child => sem1
  | .parent => sem2

/-- The semaphore that a process gives back in each round. -/
def upIndex (role : Role) (sem1 sem2 : Nat) : Nat :=
  match role with
  | .child => sem2
  | .parent => sem1

def pingText : String := "Ping\n"
def pongText : String := "          Pong\n"
def openErrorText : String := "ERROR: sem_open falló\n"
def forkErrorText : String := "ERROR: en proceso hijo \n"

def roundText : Role → String
  | .child => pingText
  | .parent => pongText

/-! ### Steps of a process -/

/-- What a step does to the rest of the system. -/
inductive Event
  | silent
  /-- `sem_open` succeeded and left `sem`. -/
  | opened (i : Nat) (sem : Semaphore)
  /-- `sem_down` on `i` left `sem`; it may go to sleep. -/
  | down (i : Nat) (sem : Semaphore)
  /-- `sem_up` on `i` left `sem`, and wakes the sleepers if it incremented. -/
  | up (i : Nat) (sem : Semaphore) (wakes : Bool)
  | close (i : Nat) (sem : Semaphore)
  | fork (child : Pc)
  | print (text : String)
deriving DecidableEq, Repr

/-- `sem_down` at its call, or at the next test after a sleep: the semaphore that it leaves to return, or `none` to
    sleep. -/
def semDown (sem : Semaphore) : Down → Option Semaphore
  | .call => if sem.count = -1 then some sem else sem.downLoop
  | _ => sem.downLoop

/-- A step of a `sem_down` on `i`; `place` is where the process stands in it, and `next` after it. -/
def downStep (sems : Nat → Semaphore) (i : Nat) (d : Down) (place : Down → Place) (next : Place) :
    Option (Event × Place) :=
  if d = .asleep then none
  else match semDown (sems i) d with
    | some sem => some (.down i sem, next)
    | none => some (.down i (sems i), place .asleep)

/-- The step of a process that has its semaphores; `none` where it sleeps or waits. -/
def bodyStep (amount : Nat) (forkFails : Bool) (sems : Nat → Semaphore) (child : Pc) (role : Role)
    (sem1 sem2 : Nat) : Place → Option (Event × Pc)
  | .downFirst d => (downStep sems sem2 d .downFirst .fork).map fun (event, place) => (event, .body sem1 sem2 place)
  | .fork =>
    let loop := Pc.body sem1 sem2 (whileLoop amount 0)
    if forkFails then some (.silent, .body sem1 sem2 .forkFailed) else some (.fork loop, loop)
  | .forkFailed => some (.print forkErrorText, .body sem1 sem2 (whileLoop amount 0))
  | .down i d => (downStep sems (downIndex role sem1 sem2) d (.down i) (.print i)).map fun (event, place) =>
    (event, .body sem1 sem2 place)
  | .print i => some (.print (roundText role), .body sem1 sem2 (.up i))
  | .up i =>
    let (result, sem) := (sems (upIndex role sem1 sem2)).upBody
    some (.up (upIndex role sem1 sem2) sem (result = 1), .body sem1 sem2 (whileLoop amount (i + 1)))
  | .wait =>
    -- Without a child `wait` returns at once.
    if role = .parent ∧ child ≠ .unborn ∧ child ≠ .exited then none
    else some (.silent, .body sem1 sem2 .close1)
  | .close1 => some (.close sem1 (sems sem1).closeBody.2, .body sem1 sem2 .close2)
  | .close2 => some (.close sem2 (sems sem2).closeBody.2, .body sem1 sem2 .exit)
  | .exit => some (.silent, .exited)

def pcStep (amount : Nat) (forkFails : Bool) (sems : Nat → Semaphore) (child : Pc) (role : Role) :
    Pc → Option (Event × Pc)
  | .unborn => none
  | .scan index opened =>
    if opened.length ≠ 2 ∧ index < 256 then
      let (result, sem) := (sems index).openBody 1
      if result = 1 then some (.opened index sem, .scan (index + 1) (opened ++ [index]))
      else some (.silent, .scan (index + 1) opened)
    else match opened with
      | [sem1, sem2] => some (.silent, .body sem1 sem2 (.downFirst .call))
      | _ => some (.print openErrorText, .failed)
  | .failed => some (.silent, .exited)
  | .body sem1 sem2 place => bodyStep amount forkFails sems child role sem1 sem2 place
  | .exited => none

/-- The semaphore that a process sleeps on. -/
def Pc.chan? (role : Role) : Pc → Option Nat
  | .body _ sem2 (.downFirst .asleep) => some sem2
  | .body sem1 sem2 (.down _ .asleep) => some (downIndex role sem1 sem2)
  | _ => none

def Pc.wake : Pc → Pc
  | .body sem1 sem2 (.downFirst .asleep) => .body sem1 sem2 (.downFirst .woken)
  | .body sem1 sem2 (.down i .asleep) => .body sem1 sem2 (.down i .woken)
  | pc => pc

/-- What `wakeup` on the semaphore `i` makes of a process. -/
def Pc.wakeOn (i : Nat) (role : Role) (pc : Pc) : Pc := if pc.chan? role = some i then pc.wake else pc

/-! ### The system -/

/-- The runs of `pingpong`: the argument of each, and whether its `fork` fails. -/
structure Config (ρ : Type) where
  amount : ρ → Nat
  forkFails : ρ → Bool

structure State (ρ : Type) where
  sems : Nat → Semaphore
  /-- The run that opened a semaphore last; no process reads it. -/
  opener : Nat → Option ρ
  procs : ρ × Role → Pc
  /-- What each run printed. -/
  output : ρ → List String

variable {ρ : Type} [DecidableEq ρ]

def Event.sems (sems : Nat → Semaphore) : Event → Nat → Semaphore
  | opened i sem | down i sem | up i sem _ | close i sem => Function.update sems i sem
  | _ => sems

def Event.opener (r : ρ) (opener : Nat → Option ρ) : Event → Nat → Option ρ
  | opened i _ => Function.update opener i (some r)
  | _ => opener

def Event.procs (r : ρ) (procs : ρ × Role → Pc) : Event → ρ × Role → Pc
  | up i _ true => fun p => (procs p).wakeOn i p.2
  | fork child => Function.update procs (r, .child) child
  | _ => procs

def Event.output (r : ρ) (output : ρ → List String) : Event → ρ → List String
  | print text => Function.update output r (output r ++ [text])
  | _ => output

/-- The next step of the process `p`; `none` while it sleeps or waits, before its fork and after its exit. -/
def step (cfg : Config ρ) (s : State ρ) (p : ρ × Role) : Option (Event × State ρ) :=
  (pcStep (cfg.amount p.1) (cfg.forkFails p.1) s.sems (s.procs (p.1, .child)) p.2 (s.procs p)).map
    fun (event, pc) => (event, {
      sems := event.sems s.sems
      opener := event.opener p.1 s.opener
      procs := event.procs p.1 (Function.update s.procs p pc)
      output := event.output p.1 s.output })

/-- Every run at its start. -/
def start (sems : Nat → Semaphore) : State ρ where
  sems := sems
  opener _ := none
  procs p := if p.2 = .parent then .scan 0 [] else .unborn
  output _ := []

/-- One step of a process; the label says which, and what it did. -/
abbrev Step (cfg : Config ρ) : State ρ → (ρ × Role) × Event → State ρ → Prop := ofStep (step cfg)

end LabSO.User

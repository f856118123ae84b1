import LabSO.Lib.MonitorRules

/-! `pipe.c`: the code of `piperead`, `pipewrite` and `pipeclose` under the lock of a pipe, with the references that
    processes hold to the two files of the pipe.

    A user address range is given by the first offset at which copying fails, if there is one: the copy of a transfer
    goes byte by byte and stops there. -/

namespace LabSO.Pipes
open Monitor

def PIPESIZE : Nat := 512

/-- `struct pipe` without its lock. -/
structure Pipe where
  data : Nat → UInt8
  /-- Number of bytes read. -/
  nread : UInt32
  /-- Number of bytes written. -/
  nwrite : UInt32
  /-- The read fd is still open. -/
  readopen : Bool
  /-- The write fd is still open. -/
  writeopen : Bool

/-- The buffer of `struct pipe` as `pipealloc` leaves it, apart from the bytes that the page happens to hold. -/
def Pipe.alloc (data : Nat → UInt8) : Pipe where
  data := data
  nread := 0
  nwrite := 0
  readopen := true
  writeopen := true

/-- The addresses slept on: `&pi->nread` and `&pi->nwrite`. -/
inductive Chan
  | nread
  | nwrite
deriving DecidableEq, Repr

/-- The two files of a pipe. -/
inductive Side
  | read
  | write
deriving DecidableEq, Repr

/-- A pipe with what surrounds it. `refs` counts the references to its files by process. `added` are the bytes put into
    the buffer so far, each with its writer, `removed` those taken out of it, and `handed` those that a reader got; the
    code does not look at these three. -/
structure Data (n : Nat) where
  pipe : Pipe
  refs : Side → Fin n → Nat
  added : List (Fin n × UInt8)
  removed : List UInt8
  handed : List UInt8

/-- A call of `pipewrite`: the arguments, the bytes at the address, and how many bytes had been put into the pipe when it
    was made. -/
structure WriteCall where
  n : Int
  src : Nat → UInt8
  fault : Option Nat
  start : Nat

/-- A call of `piperead`. -/
structure ReadCall where
  n : Int
  fault : Option Nat
deriving DecidableEq

/-- The places in the three functions, under the lock. -/
inductive Point
  /-- `while(i < n)`. -/
  | writeLoop (w : WriteCall) (i : Nat)
  /-- `pi->readopen == 0 ||`. -/
  | writeOpen (w : WriteCall) (i : Nat)
  /-- `killed(pr)`. -/
  | writeKilled (w : WriteCall) (i : Nat)
  /-- `release(&pi->lock); return -1;`. -/
  | writeFail (w : WriteCall) (i : Nat)
  | writeBody (w : WriteCall) (i : Nat)
  | writeSleep (w : WriteCall) (i : Nat)
  | writeDone (w : WriteCall) (i : Nat)
  | writeReturn (w : WriteCall) (i : Nat)
  /-- `while(pi->nread == pi->nwrite && pi->writeopen)`. -/
  | readLoop (r : ReadCall)
  | readKilled (r : ReadCall)
  | readFail (r : ReadCall)
  | readSleep (r : ReadCall)
  /-- `for(i = 0; i < n; i++)`. -/
  | readCopy (r : ReadCall) (i : Nat)
  | readDone (r : ReadCall) (i : Nat)
  | readReturn (r : ReadCall) (i : Nat)
  | closeBody (side : Side)
  | closeWakeup (side : Side)
  | closeReturn (side : Side)

inductive Result
  | write (w : WriteCall) (value : Int)
  | read (r : ReadCall) (value : Int)
  /-- `pipeclose`, which frees the pipe if both sides are closed. -/
  | close (freed : Bool)

inductive Request (n : Nat)
  | write (len : Int) (src : Nat → UInt8) (fault : Option Nat)
  | read (len : Int) (fault : Option Nat)
  /-- `filedup`: a process gets a reference to a file to which this one has one. -/
  | share (side : Side) (q : Fin n)
  /-- `fileclose`. -/
  | close (side : Side)

/-- The first offset at which the copies of a call fail. -/
def Request.fault {n : Nat} : Request n → Option Nat
  | write _ _ fault | read _ fault => fault
  | _ => none

namespace Pipe

/-- `pi->nwrite == pi->nread + PIPESIZE`. -/
def Full (pi : Pipe) : Prop := pi.nwrite = pi.nread + .ofNat PIPESIZE

/-- `pi->nread == pi->nwrite`. -/
def Empty (pi : Pipe) : Prop := pi.nread = pi.nwrite

instance (pi : Pipe) : Decidable pi.Full := inferInstanceAs (Decidable (_ = _))

instance (pi : Pipe) : Decidable pi.Empty := inferInstanceAs (Decidable (_ = _))

/-- `pi->data[pi->nwrite++ % PIPESIZE] = ch`. -/
def put (pi : Pipe) (ch : UInt8) : Pipe :=
  { pi with data := Function.update pi.data (pi.nwrite.toNat % PIPESIZE) ch, nwrite := pi.nwrite + 1 }

/-- The byte that `pi->data[pi->nread++ % PIPESIZE]` reads. -/
def first (pi : Pipe) : UInt8 := pi.data (pi.nread.toNat % PIPESIZE)

def close (pi : Pipe) : Side → Pipe
  | .write => { pi with writeopen := false }
  | .read => { pi with readopen := false }

end Pipe

/-- Whom `pipeclose` wakes. -/
def Side.wakes : Side → Chan
  | .write => .nread
  | .read => .nwrite

variable {n : Nat}

/-- A byte goes into the buffer. -/
def Data.add (b : Data n) (p : Fin n) (ch : UInt8) : Data n :=
  { b with pipe := b.pipe.put ch, added := b.added ++ [(p, ch)] }

/-- A byte goes out of the buffer, and to the reader if it can be copied. -/
def Data.remove (b : Data n) (copied : Bool) : Data n where
  pipe := { b.pipe with nread := b.pipe.nread + 1 }
  refs := b.refs
  added := b.added
  removed := b.removed ++ [b.pipe.first]
  handed := if copied then b.handed ++ [b.pipe.first] else b.handed

def Data.setRefs (b : Data n) (side : Side) (p : Fin n) (k : Nat) : Data n :=
  { b with refs := Function.update b.refs side (Function.update (b.refs side) p k) }

/-- The next step of a process at each place. -/
def op (p : Fin n) (b : Data n) : Point → Op Chan (Data n) Point Result
  | .writeLoop w i => .set b (if (i : Int) < w.n then .writeOpen w i else .writeDone w i)
  | .writeOpen w i => .set b (if b.pipe.readopen then .writeKilled w i else .writeFail w i)
  | .writeKilled w i => .killed (.writeFail w i) (.writeBody w i)
  | .writeFail w _ => .release (.write w (-1))
  | .writeBody w i =>
    if b.pipe.Full then .wakeup .nread (.writeSleep w i)
    else if w.fault = some i then .set b (.writeDone w i)
    else .set (b.add p (w.src i)) (.writeLoop w (i + 1))
  | .writeSleep w i => .sleep .nwrite (.writeLoop w i)
  | .writeDone w i => .wakeup .nread (.writeReturn w i)
  | .writeReturn w i => .release (.write w i)
  | .readLoop r => .set b (if b.pipe.Empty ∧ b.pipe.writeopen then .readKilled r else .readCopy r 0)
  | .readKilled r => .killed (.readFail r) (.readSleep r)
  | .readFail r => .release (.read r (-1))
  | .readSleep r => .sleep .nread (.readLoop r)
  | .readCopy r i =>
    if (i : Int) < r.n ∧ ¬b.pipe.Empty then
      if r.fault = some i then .set (b.remove false) (.readDone r i) else .set (b.remove true) (.readCopy r (i + 1))
    else .set b (.readDone r i)
  | .readDone r i => .wakeup .nwrite (.readReturn r i)
  | .readReturn r i => .release (.read r i)
  | .closeBody side => .set { b with pipe := b.pipe.close side } (.closeWakeup side)
  | .closeWakeup side => .wakeup side.wakes (.closeReturn side)
  | .closeReturn _ => .release (.close (!b.pipe.readopen && !b.pipe.writeopen))

section
variable {p : Fin n} {b : Data n} {k k' : Point} {c : Chan}

theorem op_wakeup (h : op p b k = .wakeup c k') :
    (∃ w i, k = .writeBody w i ∧ b.pipe.Full ∧ c = .nread ∧ k' = .writeSleep w i) ∨
    (∃ w i, k = .writeDone w i ∧ c = .nread ∧ k' = .writeReturn w i) ∨
    (∃ r i, k = .readDone r i ∧ c = .nwrite ∧ k' = .readReturn r i) ∨
    ∃ side, k = .closeWakeup side ∧ c = side.wakes ∧ k' = .closeReturn side := by
  cases k <;> simp only [op] at h
  case writeBody w i =>
    split at h
    · next hfull =>
      cases h
      exact Or.inl ⟨w, i, rfl, hfull, rfl, rfl⟩
    · split at h <;> cases h
  case writeDone w i =>
    cases h
    exact Or.inr (Or.inl ⟨w, i, rfl, rfl, rfl⟩)
  case readCopy r i => split at h <;> first | cases h | (split at h <;> cases h)
  case readDone r i =>
    cases h
    exact Or.inr (Or.inr (Or.inl ⟨r, i, rfl, rfl, rfl⟩))
  case closeWakeup side =>
    cases h
    exact Or.inr (Or.inr (Or.inr ⟨side, rfl, rfl, rfl⟩))
  all_goals cases h

theorem op_sleep (h : op p b k = .sleep c k') :
    (∃ w i, k = .writeSleep w i ∧ c = .nwrite ∧ k' = .writeLoop w i) ∨
    ∃ r, k = .readSleep r ∧ c = .nread ∧ k' = .readLoop r := by
  cases k <;> simp only [op] at h
  case writeBody w i => split at h <;> first | cases h | (split at h <;> cases h)
  case writeSleep w i =>
    cases h
    exact Or.inl ⟨w, i, rfl, rfl, rfl⟩
  case readSleep r =>
    cases h
    exact Or.inr ⟨r, rfl, rfl, rfl⟩
  case readCopy r i => split at h <;> first | cases h | (split at h <;> cases h)
  all_goals cases h

theorem op_killed {yes no : Point} (h : op p b k = .killed yes no) :
    (∃ w i, k = .writeKilled w i ∧ yes = .writeFail w i ∧ no = .writeBody w i) ∨
    ∃ r, k = .readKilled r ∧ yes = .readFail r ∧ no = .readSleep r := by
  cases k <;> simp only [op] at h
  case writeKilled w i =>
    cases h
    exact Or.inl ⟨w, i, rfl, rfl, rfl⟩
  case writeBody w i => split at h <;> first | cases h | (split at h <;> cases h)
  case readKilled r =>
    cases h
    exact Or.inr ⟨r, rfl, rfl, rfl⟩
  case readCopy r i => split at h <;> first | cases h | (split at h <;> cases h)
  all_goals cases h

theorem op_release {result : Result} (h : op p b k = .release result) :
    (∃ w i, k = .writeFail w i ∧ result = .write w (-1)) ∨ (∃ w i, k = .writeReturn w i ∧ result = .write w i) ∨
    (∃ r, k = .readFail r ∧ result = .read r (-1)) ∨ (∃ r i, k = .readReturn r i ∧ result = .read r i) ∨
    ∃ side freed, k = .closeReturn side ∧ result = .close freed := by
  cases k <;> simp only [op] at h
  case writeFail w i =>
    cases h
    exact Or.inl ⟨w, i, rfl, rfl⟩
  case writeBody w i => split at h <;> first | cases h | (split at h <;> cases h)
  case writeReturn w i =>
    cases h
    exact Or.inr (Or.inl ⟨w, i, rfl, rfl⟩)
  case readFail r =>
    cases h
    exact Or.inr (Or.inr (Or.inl ⟨r, rfl, rfl⟩))
  case readCopy r i => split at h <;> first | cases h | (split at h <;> cases h)
  case readReturn r i =>
    cases h
    exact Or.inr (Or.inr (Or.inr (Or.inl ⟨r, i, rfl, rfl⟩)))
  case closeReturn side =>
    cases h
    exact Or.inr (Or.inr (Or.inr (Or.inr ⟨side, _, rfl, rfl⟩)))
  all_goals cases h

end

/-- The calls that a process can make, with a reference to the file. The last reference that is dropped closes the
    file. -/
def enter (p : Fin n) (b : Data n) : Request n → Option (Data n × Option Point)
  | .write len src fault =>
    if 0 < b.refs .write p then some (b, some (.writeLoop ⟨len, src, fault, b.added.length⟩ 0)) else none
  | .read len fault => if 0 < b.refs .read p then some (b, some (.readLoop ⟨len, fault⟩)) else none
  | .share side q => if 0 < b.refs side p then some (b.setRefs side q (b.refs side q + 1), none) else none
  | .close side =>
    if 0 < b.refs side p then
      let b' := b.setRefs side p (b.refs side p - 1)
      some (b', if ∀ q, b'.refs side q = 0 then some (.closeBody side) else none)
    else none

/-- The processes on one pipe; there are no interrupt handlers, and nobody else touches the pipe. -/
def code (n : Nat) : Code n Empty Chan (Data n) Point Result (Request n) Empty where
  op a k b := match a with | .inl p => op p b k
  enter a r b := match a with | .inl p => enter p b r
  env e _ := nomatch e

abbrev PipeState (n : Nat) : Type := State n Empty Chan (Data n) Point

/-- As `pipealloc` leaves the pipe: nothing has been put in, and each file has a reference. -/
structure Fresh (b : Data n) : Prop where
  pipe : b.pipe = .alloc b.pipe.data
  added : b.added = []
  removed : b.removed = []
  handed : b.handed = []

/-- A pipe that the process `p` has made. -/
def fresh (p : Fin n) : Data n where
  pipe := .alloc fun _ => 5
  refs _ q := if q = p then 1 else 0
  added := []
  removed := []
  handed := []

end LabSO.Pipes

import LabSO.Kernel.Inode
import LabSO.Lib.Transition
import Mathlib.Data.Fintype.Basic
import Mathlib.Data.List.FinRange
import Mathlib.Data.Multiset.AddSub

/-! The inode table of `fs.c`, used by any number of processes. One step is a critical section of `itable.lock`, the taking
    or giving up of a sleep-lock, or a transfer between an entry and the inode on disk, which the lock of a block's buffer
    makes one. -/

namespace LabSO.Itable
open Kernel (NINODE Dinode)

instance : NeZero NINODE := ⟨by decide⟩

/-- An inode number on a device. -/
structure Ino where
  dev : UInt32
  inum : UInt32
deriving DecidableEq, Repr

/-- `struct inode`; `lock` is the holder of the sleep-lock. -/
structure Entry (P : Type*) extends Ino, Dinode where
  ref : Int32
  lock : Option P
  valid : Bool

/-- Where a process stands in the functions. -/
inductive Pc
  | idle
  /-- In `acquiresleep` of `ilock`. -/
  | acquiring (i : Fin NINODE)
  /-- In `ilock` with the lock. -/
  | locked (i : Fin NINODE)
  /-- In `iput`, before `itrunc`. -/
  | trunc (i : Fin NINODE)
  /-- In `iput`, before the type is set to 0 and written. -/
  | free (i : Fin NINODE)
  /-- In `iput`, before the entry is marked invalid and unlocked. -/
  | clear (i : Fin NINODE)
  /-- In `iput`, before its last critical section. -/
  | drop (i : Fin NINODE)
  /-- In `ialloc`, before `iget`. -/
  | getting (ino : Ino)
deriving DecidableEq, Repr

/-- The table, the inodes on disk, and the processes. The code does not look at the fields from `refs` on: who the references
    to each entry were handed out to, whether the fields of an entry changed since they were read or written, and how often
    each inode was allocated and freed. -/
structure State (P : Type*) where
  entry : Fin NINODE → Entry P
  disk : Ino → Dinode
  pc : P → Pc
  panicked : Option String
  refs : Fin NINODE → Multiset P
  changed : Fin NINODE → Bool
  allocs : Ino → Nat
  frees : Ino → Nat

/-- A function that a process calls, or what it does with an inode that it has locked. -/
inductive Call
  | iget (ino : Ino)
  | idup (i : Fin NINODE)
  | ilock (i : Fin NINODE)
  | iunlock (i : Fin NINODE)
  | iput (i : Fin NINODE)
  /-- The loop of `ialloc` comes to a free inode. -/
  | ialloc (ino : Ino) (type : Int16)
  /-- The fields of a locked inode change, its type apart. -/
  | change (i : Fin NINODE) (d : Dinode)
  | iupdate (i : Fin NINODE)
deriving DecidableEq

inductive Action (P : Type*)
  | call (p : P) (c : Call)
  /-- Process `p` goes on. -/
  | next (p : P)
  /-- A reference of process `p` becomes one of process `q`. -/
  | pass (p : P) (i : Fin NINODE) (q : P)
deriving DecidableEq

/-- The entry that `iget` or `ialloc` returns. -/
abbrev Event := Option (Fin NINODE)

/-- After `iinit`: the memory of the table is zero. -/
def State.init {P : Type*} (disk : Ino → Dinode) : State P where
  entry _ := { dev := 0, inum := 0, toDinode := Dinode.zero, ref := 0, lock := none, valid := false }
  disk := disk
  pc _ := .idle
  panicked := none
  refs _ := 0
  changed _ := false
  allocs _ := 0
  frees _ := 0

variable {P : Type*}

/-- Is the inode already in the table? -/
def State.lookup (s : State P) (ino : Ino) : Option (Fin NINODE) :=
  (List.finRange NINODE).find? fun i => 0 < (s.entry i).ref && (s.entry i).toIno == ino

/-- The first empty slot. -/
def State.empty (s : State P) : Option (Fin NINODE) := (List.finRange NINODE).find? fun i => (s.entry i).ref == 0

def State.panic (s : State P) (msg : String) : State P := { s with panicked := some msg }

def State.setEntry (s : State P) (i : Fin NINODE) (x : Entry P) : State P :=
  { s with entry := Function.update s.entry i x }

def State.setRefs (s : State P) (i : Fin NINODE) (m : Multiset P) : State P :=
  { s with refs := Function.update s.refs i m }

def State.setChanged (s : State P) (i : Fin NINODE) (b : Bool) : State P :=
  { s with changed := Function.update s.changed i b }

def State.setDisk (s : State P) (ino : Ino) (d : Dinode) : State P := { s with disk := Function.update s.disk ino d }

/-- `ip->ref++`, for process `p`. -/
def State.addRef (s : State P) (i : Fin NINODE) (p : P) : State P :=
  (s.setEntry i { s.entry i with ref := (s.entry i).ref + 1 }).setRefs i (p ::ₘ s.refs i)

/-- Recycle an inode entry. -/
def State.recycle (s : State P) (i : Fin NINODE) (ino : Ino) (p : P) : State P :=
  ((s.setEntry i { s.entry i with toIno := ino, ref := 1, valid := false }).setRefs i (p ::ₘ s.refs i)).setChanged i false

variable [DecidableEq P]

def State.setPc (s : State P) (p : P) (c : Pc) : State P := { s with pc := Function.update s.pc p c }

/-- `ip->ref--`, of a reference of process `p`. -/
def State.dropRef (s : State P) (i : Fin NINODE) (p : P) : State P :=
  (s.setEntry i { s.entry i with ref := (s.entry i).ref - 1 }).setRefs i ((s.refs i).erase p)

/-- The critical section of `iget`. -/
def State.iget (s : State P) (p : P) (ino : Ino) : Event × State P :=
  match s.lookup ino with
  | some i => (some i, (s.addRef i p).setPc p .idle)
  | none =>
    match s.empty with
    | some i => (some i, (s.recycle i ino p).setPc p .idle)
    | none => (none, s.panic "iget: no inodes")

/-- The entry that a process is busy with. -/
def Pc.uses : Pc → Option (Fin NINODE)
  | .acquiring i | .locked i | .trunc i | .free i | .clear i | .drop i => some i
  | .idle | .getting _ => none

/-- Process `p` has a reference besides the one that it needs for as long as it has the inode locked or is busy with it. -/
def State.Spare (s : State P) (p : P) (i : Fin NINODE) : Prop :=
  (if (s.entry i).lock = some p ∨ (s.pc p).uses = some i then 1 else 0) < (s.refs i).count p

instance (s : State P) (p : P) (i : Fin NINODE) : Decidable (s.Spare p i) := inferInstanceAs (Decidable (_ < _))

/-- The first critical section of `iput`; to wait for a sleep-lock in it is a panic of `sched`. -/
def State.iput (s : State P) (p : P) (i : Fin NINODE) : State P :=
  if (s.entry i).ref = 1 ∧ (s.entry i).valid ∧ (s.entry i).nlink = 0 then
    if (s.entry i).lock = none then (s.setEntry i { s.entry i with lock := some p }).setPc p (.trunc i)
    else s.panic "sched locks"
  else s.dropRef i p

/-- Into a function, up to the end of its first critical section. A process only uses inodes that it has a reference to, and
    only drops references that it has. -/
def State.enter (s : State P) (p : P) : Call → Option (Event × State P)
  | .iget ino => some (s.iget p ino)
  | .idup i => if p ∈ s.refs i then some (none, s.addRef i p) else none
  | .ilock i =>
    if p ∈ s.refs i then some (none, if (s.entry i).ref < 1 then s.panic "ilock" else s.setPc p (.acquiring i))
    else none
  | .iunlock i =>
    some (none, if (s.entry i).lock ≠ some p ∨ (s.entry i).ref < 1 then s.panic "iunlock"
      else s.setEntry i { s.entry i with lock := none })
  | .iput i => if s.Spare p i then some (none, s.iput p i) else none
  | .ialloc ino type =>
    if (s.disk ino).type = 0 ∧ type ≠ 0 then
      some (none, { (s.setDisk ino { Dinode.zero with type }).setPc p (.getting ino) with
        allocs := Function.update s.allocs ino (s.allocs ino + 1) })
    else none
  | .change i d =>
    if (s.entry i).lock = some p then
      some (none, (s.setEntry i { s.entry i with toDinode := { d with type := (s.entry i).type } }).setChanged i true)
    else none
  | .iupdate i =>
    if (s.entry i).lock = some p then
      some (none, (s.setDisk (s.entry i).toIno (s.entry i).toDinode).setChanged i false)
    else none

/-- `itrunc`, and what it writes. -/
def State.itrunc (s : State P) (i : Fin NINODE) : State P :=
  let d := { (s.entry i).toDinode with size := 0, addrs := Vector.replicate _ 0 }
  (s.setEntry i { s.entry i with toDinode := d }).setDisk (s.entry i).toIno d

/-- `ip->type = 0` and `iupdate`. -/
def State.ifree (s : State P) (i : Fin NINODE) : State P :=
  let d := { (s.entry i).toDinode with type := 0 }
  { (s.setEntry i { s.entry i with toDinode := d }).setDisk (s.entry i).toIno d with
    frees := Function.update s.frees (s.entry i).toIno (s.frees (s.entry i).toIno + 1) }

/-- `ilock` reads the inode from disk. -/
def State.load (s : State P) (i : Fin NINODE) : State P :=
  s.setEntry i { s.entry i with toDinode := s.disk (s.entry i).toIno, valid := true }

/-- How a process goes on that is in one of the functions. -/
def State.continue (s : State P) (p : P) : Option (Event × State P) :=
  match s.pc p with
  | .idle => none
  | .acquiring i =>
    if (s.entry i).lock = none then some (none, (s.setEntry i { s.entry i with lock := some p }).setPc p (.locked i)) else none
  | .locked i =>
    some (none, if (s.entry i).valid then s.setPc p .idle
      else if (s.disk (s.entry i).toIno).type = 0 then (s.load i).panic "ilock: no type"
      else (s.load i).setPc p .idle)
  | .trunc i => some (none, (s.itrunc i).setPc p (.free i))
  | .free i => some (none, (s.ifree i).setPc p (.clear i))
  | .clear i => some (none, (s.setEntry i { s.entry i with valid := false, lock := none }).setPc p (.drop i))
  | .drop i => some (none, (s.dropRef i p).setPc p .idle)
  | .getting ino => some (s.iget p ino)

def step (s : State P) (a : Action P) : Option (Event × State P) :=
  if s.panicked.isSome then none
  else
    match a with
    | .call p c => if s.pc p = .idle then s.enter p c else none
    | .next p => s.continue p
    | .pass p i q => if s.Spare p i then some (none, s.setRefs i (q ::ₘ (s.refs i).erase p)) else none

/-- The transitions; a label is an action together with its event. -/
abbrev Step : State P → Action P × Event → State P → Prop := Transition.ofStep step

end LabSO.Itable

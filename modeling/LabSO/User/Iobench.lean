import LabSO.Lib.Transition
import Mathlib.Logic.Function.Basic

/-! `iobench.c`: the files of the processes that run `io_ops`. The files are those of one directory, by their names. -/

namespace LabSO.Iobench
open Transition

def IO_OPSIZE : Nat := 64

def IO_EXPERIMENT_LEN : Nat := 512

abbrev Name := List UInt8

/-- The array `path`: "12iops" with its first two characters replaced. -/
def pathChars (pid : Nat) : List UInt8 := [.ofNat (48 + pid / 10), .ofNat (48 + pid % 10), 105, 111, 112, 115, 0]

/-- The string in `path`. -/
def path (pid : Nat) : Name := (pathChars pid).takeWhile (· ≠ 0)

/-- A single path component. -/
def Component (name : Name) : Prop := name ≠ [] ∧ 47 ∉ name

/-! ### The processes -/

/-- The next call of `io_ops`. -/
inductive Place
  | create
  | write (i : Nat)
  | closeWrite
  | open
  | read (i : Nat)
  | closeRead
  | done
deriving DecidableEq

structure Proc where
  place : Place
  /-- The file that is open, and the offset in it. -/
  fd : Option (Name × Nat)
  /-- The calls of `write` and `read` that did not fail. -/
  performed : Nat

/-- The sizes of the files, and the processes by their ids. -/
structure State where
  files : Name → Option Nat
  procs : Nat → Proc

/-- What a path of at most one component finds in the directory. -/
def lookup (path : Name) : Option Name :=
  let name := path.dropWhile (· = 47)
  if name = [] then none else some name

/-- The files with one that has a size. -/
def setFile (files : Name → Option Nat) (name : Name) (size : Nat) : Name → Option Nat :=
  Function.update files name (some size)

/-- The next call, of the process whose path is given; after the end `io_ops` is called again. -/
def Proc.step (path : Name) (files : Name → Option Nat) (p : Proc) : (Name → Option Nat) × Proc :=
  match p.place with
  | .create =>
    match lookup path with
    | none => (files, { p with place := .write 0 })
    | some name => (setFile files name ((files name).getD 0), { p with place := .write 0, fd := some (name, 0) })
  | .write i =>
    let place := if i + 1 < IO_EXPERIMENT_LEN then .write (i + 1) else .closeWrite
    match p.fd with
    | none => (files, { p with place })
    | some (name, off) =>
      (setFile files name (max ((files name).getD 0) (off + IO_OPSIZE)),
        { place, fd := some (name, off + IO_OPSIZE), performed := p.performed + 1 })
  | .closeWrite => (files, { p with place := .open, fd := none })
  | .open =>
    match (lookup path).filter fun name => (files name).isSome with
    | none => (files, { p with place := .read 0 })
    | some name => (files, { p with place := .read 0, fd := some (name, 0) })
  | .read i =>
    let place := if i + 1 < IO_EXPERIMENT_LEN then .read (i + 1) else .closeRead
    match p.fd with
    | none => (files, { p with place })
    | some (name, off) =>
      (files, { place, fd := some (name, off + min IO_OPSIZE ((files name).getD 0 - off)), performed := p.performed + 1 })
  | .closeRead => (files, { p with place := .done, fd := none })
  | .done => (files, { p with place := .create, performed := 0 })

def step (s : State) (pid : Nat) : State where
  files := ((s.procs pid).step (path pid) s.files).1
  procs := Function.update s.procs pid ((s.procs pid).step (path pid) s.files).2

/-- What `io_ops` returns. -/
def reported : Nat := 2 * IO_EXPERIMENT_LEN

/-- The processes begin, with any files in the directory. -/
def start (files : Name → Option Nat) : State where
  files := files
  procs _ := { place := .create, fd := none, performed := 0 }

/-- The file of a process that is open is its own, and all calls up to here were performed. -/
structure Works (s : State) (pid : Nat) : Prop where
  own : ∀ name off, (s.procs pid).fd = some (name, off) → name = path pid
  count : (s.procs pid).place = .done → (s.procs pid).performed = reported

/-- Of two processes, in any order of their calls, each works on its own file only and performs all that it reports. -/
structure Apart (p q : Nat) : Prop where
  distinct : path p ≠ path q
  left : Component (path p)
  right : Component (path q)
  works : ∀ files ls t, Run (fun s pid t => (pid = p ∨ pid = q) ∧ t = step s pid) (start files) ls t → Works t p ∧ Works t q

/-! ### One process -/

/-- What holds of a process at each place. -/
def Progress (path : Name) (files : Name → Option Nat) : Proc → Prop
  | ⟨.create, fd, performed⟩ => fd = none ∧ performed = 0
  | ⟨.write i, fd, performed⟩ =>
    (∃ off, fd = some (path, off)) ∧ performed = i ∧ i < IO_EXPERIMENT_LEN ∧ (files path).isSome
  | ⟨.closeWrite, fd, performed⟩ =>
    (∃ off, fd = some (path, off)) ∧ performed = IO_EXPERIMENT_LEN ∧ (files path).isSome
  | ⟨.open, fd, performed⟩ => fd = none ∧ performed = IO_EXPERIMENT_LEN ∧ (files path).isSome
  | ⟨.read i, fd, performed⟩ =>
    (∃ off, fd = some (path, off)) ∧ performed = IO_EXPERIMENT_LEN + i ∧ i < IO_EXPERIMENT_LEN
  | ⟨.closeRead, fd, performed⟩ => (∃ off, fd = some (path, off)) ∧ performed = reported
  | ⟨.done, fd, performed⟩ => fd = none ∧ performed = reported

variable {files files' : Name → Option Nat} {name : Name} {s : State} {p : Proc} {pid : Nat}

theorem Progress.own (h : Progress name files p) {name' : Name} {off : Nat} (hfd : p.fd = some (name', off)) : name' = name := by
  obtain ⟨place, fd, performed⟩ := p
  cases place with
  | create | «open» | done =>
    rw [h.1] at hfd
    cases hfd
  | write | closeWrite | read | closeRead =>
    obtain ⟨off', hfd'⟩ := h.1
    rw [hfd'] at hfd
    cases hfd
    rfl

theorem Progress.count (h : Progress name files p) (hplace : p.place = .done) : p.performed = reported := by
  obtain ⟨place, fd, performed⟩ := p
  obtain rfl : place = .done := hplace
  exact h.2

/-- Files are never removed. -/
theorem Progress.mono (h : Progress name files p) (hfiles : (files name).isSome → (files' name).isSome) : Progress name files' p := by
  obtain ⟨place, fd, performed⟩ := p
  cases place with
  | create | read | closeRead | done => exact h
  | write => exact ⟨h.1, h.2.1, h.2.2.1, hfiles h.2.2.2⟩
  | closeWrite | «open» => exact ⟨h.1, h.2.1, hfiles h.2.2⟩

theorem ofNat_eq_iff {n : Nat} {c : UInt8} : UInt8.ofNat n = c ↔ n % 256 = c.toNat := by
  rw [← UInt8.toNat_inj, UInt8.toNat_ofNat']

theorem path_eq (pid : Nat) : path pid = if pid / 10 % 256 = 208 then [] else (pathChars pid).take 6 := by
  have hfirst : UInt8.ofNat (48 + pid / 10) = 0 ↔ pid / 10 % 256 = 208 := by
    rw [ofNat_eq_iff, show (0 : UInt8).toNat = 0 from rfl]
    omega
  have hsecond : UInt8.ofNat (48 + pid % 10) ≠ 0 := by
    rw [ne_eq, ofNat_eq_iff, show (0 : UInt8).toNat = 0 from rfl]
    omega
  unfold path pathChars
  rw [List.takeWhile_cons]
  split
  · next h => simp_all
  · next h => simp_all

end LabSO.Iobench

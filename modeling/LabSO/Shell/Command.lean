import Mathlib.Data.List.Basic

/-! The two data types of `command.c`: simple commands and pipelines. A queue of `glib` is the list of
    its elements, front first, and a C string is the list of its characters. -/

namespace LabSO.Shell

/-- A C string, without its final NUL. -/
abbrev Text := List Char

/-- `struct scommand_s`: the strings of a simple command and its two redirections. -/
structure Scommand where
  command : List Text
  redirOut : Option Text
  redirIn : Option Text
deriving DecidableEq, Repr

/-- `strmerge`; `none` where its assertion fails. -/
def strmerge (s1 s2 : Text) : Option Text :=
  let merge := s1 ++ s2
  if merge.length = s1.length + s2.length then some merge else none

namespace Scommand

def new : Scommand := ⟨[], none, none⟩

def pushBack (self : Scommand) (argument : Text) : Scommand :=
  { self with command := self.command ++ [argument] }

/-- `none` where the assertion on an empty queue fails. -/
def popFront (self : Scommand) : Option Scommand :=
  match self.command with
  | [] => none
  | _ :: rest => some { self with command := rest }

def setRedirIn (self : Scommand) (filename : Option Text) : Scommand := { self with redirIn := filename }
def setRedirOut (self : Scommand) (filename : Option Text) : Scommand := { self with redirOut := filename }

def isEmpty (self : Scommand) : Bool := self.command.isEmpty
def length (self : Scommand) : Nat := self.command.length

/-- `none` where the assertion on an empty queue fails. -/
def front (self : Scommand) : Option Text := self.command.head?

def getRedirIn (self : Scommand) : Option Text := self.redirIn
def getRedirOut (self : Scommand) : Option Text := self.redirOut

/-- `scommand_to_string`: the strings separated by blanks, then `> out`, then `< in`. -/
def toString (self : Scommand) : Text :=
  let result := self.command.head?.getD []
  let result := self.command.tail.foldl (fun result arg => result ++ " ".toList ++ arg) result
  let result := match self.redirOut with
    | some out => result ++ " > ".toList ++ out
    | none => result
  match self.redirIn with
  | some inp => result ++ " < ".toList ++ inp
  | none => result

/-- `scommand_to_string` with its assertions, where the result is `none` if one fails. -/
def toStringChecked (self : Scommand) : Option Text := do
  let result := self.command.head?.getD []
  let result ← self.command.tail.foldlM (fun result arg => do strmerge (← strmerge result " ".toList) arg) result
  let result ← match self.redirOut with
    | some out => do strmerge (← strmerge result " > ".toList) out
    | none => some result
  let result ← match self.redirIn with
    | some inp => do strmerge (← strmerge result " < ".toList) inp
    | none => some result
  if self.isEmpty || self.getRedirIn.isNone || self.getRedirOut.isNone || 0 < result.length then some result else none

theorem strmerge_eq (s1 s2 : Text) : strmerge s1 s2 = some (s1 ++ s2) := by
  simp [strmerge]

theorem foldlM_strmerge (l : List Text) (result : Text) :
    l.foldlM (fun result arg => do strmerge (← strmerge result " ".toList) arg) result =
      some (l.foldl (fun result arg => result ++ " ".toList ++ arg) result) := by
  induction l generalizing result with
  | nil => rfl
  | cons arg l ih =>
    have hmerge : (do strmerge (← strmerge result " ".toList) arg) = some (result ++ " ".toList ++ arg) := by
      rw [strmerge_eq]
      exact strmerge_eq _ _
    rw [List.foldlM_cons, hmerge, List.foldl_cons]
    exact ih _

/-- Printing a command fails no assertion. -/
theorem toStringChecked_eq (self : Scommand) : self.toStringChecked = some self.toString := by
  rw [toStringChecked, foldlM_strmerge, toString]
  rcases hin : self.redirIn with _ | inp <;> rcases hout : self.redirOut with _ | out <;>
    simp [strmerge_eq, getRedirIn, getRedirOut, hin, hout]

end Scommand

/-- `struct pipeline_s`. -/
structure Pipeline where
  scommands : List Scommand
  wait : Bool
deriving DecidableEq, Repr

namespace Pipeline

def new : Pipeline := ⟨[], true⟩

def pushBack (self : Pipeline) (sc : Scommand) : Pipeline :=
  { self with scommands := self.scommands ++ [sc] }

/-- `none` where the assertion on an empty queue fails. -/
def popFront (self : Pipeline) : Option Pipeline :=
  match self.scommands with
  | [] => none
  | _ :: rest => some { self with scommands := rest }

def setWait (self : Pipeline) (w : Bool) : Pipeline := { self with wait := w }

def isEmpty (self : Pipeline) : Bool := self.scommands.isEmpty
def length (self : Pipeline) : Nat := self.scommands.length

/-- `none` where the assertion on an empty queue fails. -/
def front (self : Pipeline) : Option Scommand := self.scommands.head?

def getWait (self : Pipeline) : Bool := self.wait

/-- The loop of `pipeline_destroy`, for `k` commands at most; `none` where an assertion fails. -/
def destroyLoop : Nat → Pipeline → Option Unit
  | 0, self => if self.isEmpty then some () else none
  | k + 1, self => if self.isEmpty then some () else self.popFront.bind (destroyLoop k)

/-- `pipeline_destroy`; the queue has as many commands as its length says. -/
def destroy (self : Pipeline) : Option Unit := destroyLoop self.length self

/-- The loop of `pipeline_to_string` at the command number `i`, of `length` in all. -/
def toStringLoop (length : Nat) : Nat → List Scommand → Text → Text
  | _, [], result => result
  | i, command :: rest, result =>
    let result := result ++ command.toString
    let result := if i ≠ length - 1 then result ++ " | ".toList else result
    toStringLoop length (i + 1) rest result

/-- `pipeline_to_string`. The first command is followed by a pipe in any case. -/
def toString (self : Pipeline) : Text :=
  let result := match self.scommands with
    | [] => []
    | command :: _ => command.toString ++ " | ".toList
  let result := toStringLoop self.scommands.length 1 self.scommands.tail result
  if !self.getWait then result ++ " & ".toList else result

theorem destroyLoop_eq {k : Nat} {p : Pipeline} (h : p.length ≤ k) : destroyLoop k p = some () := by
  obtain ⟨scommands, wait⟩ := p
  induction k generalizing scommands with
  | zero =>
    obtain rfl : scommands = [] := List.length_eq_zero_iff.mp (Nat.le_zero.mp h)
    rfl
  | succ k ih =>
    cases scommands with
    | nil => rfl
    | cons sc rest => exact ih rest (Nat.le_of_succ_le_succ h)

theorem destroy_eq (p : Pipeline) : p.destroy = some () := destroyLoop_eq (Nat.le_refl _)

end Pipeline

end LabSO.Shell

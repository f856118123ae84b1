import Mathlib.Data.List.Basic
import Mathlib.Logic.Function.Basic

/-! `sh.c`: the parser of the shell. A line is in the memory, up to a NUL, and a pointer is the number of a character. The
    functions take a bound on their rounds and calls, and stop when it is too small. -/

namespace LabSO.Sh

abbrev Mem := Nat → Char

def nul : Char := Char.ofNat 0

/-- Why there is no command: `panic`, or the bound. -/
inductive Stop
  | panic (msg : String)
  | rounds
deriving DecidableEq, Repr

def MAXARGS : Nat := 10

def O_RDONLY : Nat := 0x000
def O_WRONLY : Nat := 0x001
def O_CREATE : Nat := 0x200
def O_TRUNC : Nat := 0x400

/-- `struct cmd` with all that it points to. A string is two pointers, to its first character and after its last one; `argv`
    and `eargv` have no final NULL here. -/
inductive Cmd
  | exec (argv : List (Nat × Nat))
  | redir (cmd : Cmd) (file : Nat × Nat) (mode fd : Nat)
  | pipe (left right : Cmd)
  | list (left right : Cmd)
  | back (cmd : Cmd)
deriving Repr

def whitespace : List Char := [' ', '\t', '\r', '\n', Char.ofNat 11]

def symbols : List Char := ['<', '|', '>', '&', ';', '(', ')']

section
variable (mem : Mem)

/-- The loops over characters, for `k` of them at most. -/
def advance (p : Char → Bool) : Nat → Nat → Nat
  | 0, s => s
  | k + 1, s => if p (mem s) then advance p k (s + 1) else s

def skip (es s : Nat) : Nat := advance mem (whitespace.contains ·) (es - s) s

/-- The switch of `gettoken`: the kind of the token at `q`, and the pointer after it. -/
def scan (es q : Nat) : Char × Nat :=
  if mem q = nul then (nul, q)
  else if mem q ∈ ['|', '(', ')', ';', '&', '<'] then (mem q, q + 1)
  else if mem q = '>' then if mem (q + 1) = '>' then ('+', q + 2) else ('>', q + 1)
  else ('a', advance mem (fun c => !whitespace.contains c && !symbols.contains c) (es - q) q)

/-- The kind of the token, its two pointers, and where the text goes on. -/
def gettoken (es s : Nat) : Char × Nat × Nat × Nat :=
  let q := skip mem es s
  let (ret, eq) := scan mem es q
  (ret, q, eq, skip mem es eq)

def peek (es s : Nat) (toks : List Char) : Bool × Nat :=
  let s := skip mem es s
  (mem s ≠ nul && toks.contains (mem s), s)

variable (es : Nat)

def parseredirs : Nat → Cmd → Nat → Except Stop (Cmd × Nat)
  | 0, _, _ => .error .rounds
  | fuel + 1, cmd, s =>
    let (more, s) := peek mem es s ['<', '>']
    if more then
      let (tok, _, _, s) := gettoken mem es s
      let (word, q, eq, s) := gettoken mem es s
      if word ≠ 'a' then .error (.panic "missing file for redirection")
      else
        let cmd :=
          if tok = '<' then .redir cmd (q, eq) O_RDONLY 0
          else if tok = '>' then .redir cmd (q, eq) (O_WRONLY ||| O_CREATE ||| O_TRUNC) 1
          else if tok = '+' then .redir cmd (q, eq) (O_WRONLY ||| O_CREATE) 1
          else cmd
        parseredirs fuel cmd s
    else .ok (cmd, s)

/-- A word more for the simple command that the redirections are around. -/
def Cmd.addArg : Cmd → Nat × Nat → Cmd
  | .exec argv, arg => .exec (argv ++ [arg])
  | .redir cmd file mode fd, arg => .redir (cmd.addArg arg) file mode fd
  | cmd, _ => cmd

/-- The loop of `parseexec`. -/
def parseargs : Nat → Cmd → Nat → Nat → Except Stop (Cmd × Nat)
  | 0, _, _, _ => .error .rounds
  | fuel + 1, ret, argc, s =>
    let (done, s) := peek mem es s ['|', ')', '&', ';']
    if done then .ok (ret, s)
    else
      let (tok, q, eq, s) := gettoken mem es s
      if tok = nul then .ok (ret, s)
      else if tok ≠ 'a' then .error (.panic "syntax")
      else
        let ret := ret.addArg (q, eq)
        if argc + 1 ≥ MAXARGS then .error (.panic "too many args")
        else do
          let (ret, s) ← parseredirs mem es fuel ret s
          parseargs fuel ret (argc + 1) s

/-- The loop of `parseline`. -/
def parsebacks : Nat → Cmd → Nat → Except Stop (Cmd × Nat)
  | 0, _, _ => .error .rounds
  | fuel + 1, cmd, s =>
    let (more, s) := peek mem es s ['&']
    if more then
      let (_, _, _, s) := gettoken mem es s
      parsebacks fuel (.back cmd) s
    else .ok (cmd, s)

mutual

def parseline : Nat → Nat → Except Stop (Cmd × Nat)
  | 0, _ => .error .rounds
  | fuel + 1, s => do
    let (cmd, s) ← parsepipe fuel s
    let (cmd, s) ← parsebacks mem es fuel cmd s
    let (more, s) := peek mem es s [';']
    if more then
      let (_, _, _, s) := gettoken mem es s
      let (right, s) ← parseline fuel s
      return (.list cmd right, s)
    else return (cmd, s)

def parsepipe : Nat → Nat → Except Stop (Cmd × Nat)
  | 0, _ => .error .rounds
  | fuel + 1, s => do
    let (cmd, s) ← parseexec fuel s
    let (more, s) := peek mem es s ['|']
    if more then
      let (_, _, _, s) := gettoken mem es s
      let (right, s) ← parsepipe fuel s
      return (.pipe cmd right, s)
    else return (cmd, s)

def parseblock : Nat → Nat → Except Stop (Cmd × Nat)
  | 0, _ => .error .rounds
  | fuel + 1, s => do
    let (openp, s) := peek mem es s ['(']
    if !openp then .error (.panic "parseblock")
    else
      let (_, _, _, s) := gettoken mem es s
      let (cmd, s) ← parseline fuel s
      let (close, s) := peek mem es s [')']
      if !close then .error (.panic "syntax - missing )")
      else
        let (_, _, _, s) := gettoken mem es s
        parseredirs mem es fuel cmd s

def parseexec : Nat → Nat → Except Stop (Cmd × Nat)
  | 0, _ => .error .rounds
  | fuel + 1, s => do
    let (openp, s) := peek mem es s ['(']
    if openp then parseblock fuel s
    else
      let (ret, s) ← parseredirs mem es fuel (.exec []) s
      parseargs mem es fuel ret 0 s

end

end

/-- NUL-terminate all the counted strings. -/
def nulterminate (mem : Mem) : Cmd → Mem
  | .exec argv => argv.foldl (fun mem arg => Function.update mem arg.2 nul) mem
  | .redir cmd file _ _ => Function.update (nulterminate mem cmd) file.2 nul
  | .pipe left right => nulterminate (nulterminate mem left) right
  | .list left right => nulterminate (nulterminate mem left) right
  | .back cmd => nulterminate mem cmd

def strlen (mem : Mem) (s : Nat) : Nat → Except Stop Nat
  | 0 => .error .rounds
  | fuel + 1 => if mem s = nul then .ok 0 else (strlen mem (s + 1) fuel).map (· + 1)

def parsecmd (fuel : Nat) (mem : Mem) (s : Nat) : Except Stop (Cmd × Mem) := do
  let es := s + (← strlen mem s fuel)
  let (cmd, s) ← parseline mem es fuel s
  let (_, s) := peek mem es s []
  if s ≠ es then .error (.panic "syntax")
  else return (cmd, nulterminate mem cmd)

end LabSO.Sh

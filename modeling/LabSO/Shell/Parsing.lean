import LabSO.Shell.Parser

/-! `parsing.c`: `parse_scommand` and `parse_pipeline` over any parser. The two loops read at least one
    character in each round, so fuel above the length of the unread input is enough for both; running
    out of it is told apart from a failed assertion. -/

namespace LabSO.Shell

/-- Why a function of the model gives no result. -/
inductive Stop
  | assertion
  | fuel
deriving DecidableEq, Repr

variable {σ : Type}

/-- The `while` loop of `parse_scommand`; the result `none` stands for NULL. -/
def parseScommandLoop (L : ParserLib σ) : Nat → σ → Scommand → Except Stop (Option Scommand × σ)
  | 0, _, _ => .error .fuel
  | fuel + 1, p, scom =>
    if L.atEof p then .ok (some scom, p)
    else
      match L.nextArgument p with
      | (some par, .normal, p) => parseScommandLoop L fuel p (scom.pushBack par)
      | (some par, .input, p) => parseScommandLoop L fuel p (scom.setRedirIn (some par))
      | (some par, .output, p) => parseScommandLoop L fuel p (scom.setRedirOut (some par))
      -- A redirection without a file name: the command is given up where the parser stands.
      | (none, .input, p) => .ok (none, p)
      | (none, .output, p) => .ok (none, p)
      | (none, .normal, p) => .ok (some scom, p)

def parseScommand (L : ParserLib σ) (fuel : Nat) (p : σ) : Except Stop (Option Scommand × σ) :=
  parseScommandLoop L fuel p Scommand.new

/-- The `while (another_pipe)` loop of `parse_pipeline`; the result `none` stands for its early return. -/
def parsePipelineLoop (L : ParserLib σ) (fuel : Nat) :
    Nat → σ → Pipeline → Except Stop (Option Pipeline × σ)
  | 0, _, _ => .error .fuel
  | rounds + 1, p, result =>
    match parseScommand L fuel p with
    | .error e => .error e
    | .ok (none, p) => .ok (none, p)
    | .ok (some cmd, p) =>
      let p := L.skipBlanks p
      let result := result.pushBack cmd
      match L.opPipe p with
      | (true, p) => parsePipelineLoop L fuel rounds p result
      | (false, p) => .ok (some result, p)

/-- The pipeline is a single command without strings. -/
def onlyEmpty (result : Pipeline) : Bool :=
  result.length == 1 && (result.front.map (·.length)) == some 0

/-- `parse_pipeline`: the pipeline (`none` for NULL), what was printed, and the parser afterwards. -/
def parsePipeline (L : ParserLib σ) (fuel : Nat) (p : σ) : Except Stop (Option Pipeline × String × σ) :=
  if L.atEof p then .error .assertion
  else
    match parsePipelineLoop L fuel fuel p Pipeline.new with
    | .error e => .error e
    | .ok (none, p) => .ok (none, "error cmd\n", p)
    | .ok (some result, p) =>
      let (wait, p) := L.opBackground p
      let result := result.setWait !wait
      let (gar, p) := L.garbage p
      if onlyEmpty result then .ok (none, "", p)
      else if gar then .ok (none, "Error: invalid command.\n", p)
      else .ok (some result, "", p)

end LabSO.Shell

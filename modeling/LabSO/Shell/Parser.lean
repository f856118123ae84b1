import LabSO.Shell.Command
import Mathlib.Data.List.DropRight

/-! The lexer interface of `parser.h`. Its implementation is a precompiled object, so a parser is a
    record of the functions the shell calls (`ParserLib`), and what `parser.h` promises of them is a
    structure of hypotheses (`ParserLib.Documented`) on the input that is still unread. -/

namespace LabSO.Shell

/-- `arg_kind_t`. -/
inductive ArgKind
  | normal
  | input
  | output
deriving DecidableEq, Repr

/-- The functions of `parser.h`, for parsers with states `σ`. Output parameters are results, and the
    last component of a result is the parser after the call. -/
structure ParserLib (σ : Type) where
  nextArgument : σ → Option Text × ArgKind × σ
  opBackground : σ → Bool × σ
  skipBlanks : σ → σ
  opPipe : σ → Bool × σ
  garbage : σ → Bool × σ
  atEof : σ → Bool

/-! ### Reading texts -/

/-- A space or a tabulator. -/
def isBlank (c : Char) : Bool := c == ' ' || c == '\t'

def isRedir (c : Char) : Bool := c == '<' || c == '>'

/-- The operators of the grammar and the end of a line. -/
def isSpecial (c : Char) : Bool := isRedir c || c == '|' || c == '&' || c == '\n'

/-- What follows the first end of line; nothing where there is none. -/
def afterLine (txt : Text) : Text := (txt.dropWhile (· != '\n')).tail

/-- After any blanks, one word: a maximal run of characters that `word` admits. -/
def readWord (word : Char → Bool) (kind : ArgKind) (txt : Text) : Option Text × ArgKind × Text :=
  let t := txt.dropWhile isBlank
  if t.takeWhile word = [] then (none, kind, t) else (some (t.takeWhile word), kind, t.dropWhile word)

/-- After any blanks, one word, or a redirection symbol with its file name. -/
def readArgument (word : Char → Bool) (txt : Text) : Option Text × ArgKind × Text :=
  match txt.dropWhile isBlank with
  | '<' :: rest => readWord word .input rest
  | '>' :: rest => readWord word .output rest
  | t => readWord word .normal t

/-- The operator `c`, only where it comes next. -/
def readOperator (c : Char) (txt : Text) : Bool × Text :=
  if txt.head? = some c then (true, txt.tail) else (false, txt)

/-- Everything up to the end of the line, which is read as well, and whether it was more than blanks. -/
def readGarbage (txt : Text) : Bool × Text :=
  ((txt.takeWhile (· != '\n')).any fun c => !isBlank c, afterLine txt)

/-! ### Runs of characters -/

theorem head?_dropWhile {p : Char → Bool} {t : Text} : ∀ c ∈ (t.dropWhile p).head?, p c = false := by
  intro c hc
  have h := List.head?_dropWhile_not p t
  rw [Option.mem_def.mp hc] at h
  simpa using h

theorem dropWhile_append_stop {p : Char → Bool} {b rest : Text} (hb : ∀ c ∈ b, p c = true)
    (hrest : ∀ c ∈ rest.head?, p c = false) : (b ++ rest).dropWhile p = rest := by
  rw [List.dropWhile_append_of_pos hb]
  cases rest with
  | nil => rfl
  | cons c rest => rw [List.dropWhile_cons_of_neg (by simp [hrest c rfl])]

theorem takeWhile_append_stop {p : Char → Bool} {b rest : Text} (hb : ∀ c ∈ b, p c = true)
    (hrest : ∀ c ∈ rest.head?, p c = false) : (b ++ rest).takeWhile p = b := by
  rw [List.takeWhile_append_of_pos hb]
  cases rest with
  | nil => simp
  | cons c rest => rw [List.takeWhile_cons_of_neg (by simp [hrest c rfl]), List.append_nil]

/-- What `parser.h` promises of a parser `L` whose input still to be read is `unread`. The characters of
    words are those that `word` admits: neither blanks nor operators nor the end of a line. -/
structure ParserLib.Documented {σ : Type} (L : ParserLib σ) (unread : σ → Text) (word : Char → Bool) :
    Prop where
  word_plain : ∀ c, word c = true → isBlank c = false ∧ isSpecial c = false
  atEof : ∀ p, L.atEof p = true → unread p = []
  nextArgument : ∀ p, ((L.nextArgument p).1, (L.nextArgument p).2.1, unread (L.nextArgument p).2.2) =
    readArgument word (unread p)
  skipBlanks : ∀ p, unread (L.skipBlanks p) = (unread p).dropWhile isBlank
  opPipe : ∀ p, (∀ c ∈ (unread p).head?, isBlank c = false) →
    ((L.opPipe p).1, unread (L.opPipe p).2) = readOperator '|' (unread p)
  opBackground : ∀ p, (∀ c ∈ (unread p).head?, isBlank c = false) →
    ((L.opBackground p).1, unread (L.opBackground p).2) = readOperator '&' (unread p)
  garbage : ∀ p, ((L.garbage p).1, unread (L.garbage p).2) = readGarbage (unread p)

/-- The parser whose state is the unread text itself. -/
def textParser (word : Char → Bool) : ParserLib Text where
  nextArgument := readArgument word
  opBackground := readOperator '&'
  skipBlanks := fun txt => txt.dropWhile isBlank
  opPipe := readOperator '|'
  garbage := readGarbage
  atEof := fun txt => txt.isEmpty

/-- Every character but blanks and operators is part of a word. -/
def plainWord (c : Char) : Bool := !isBlank c && !isSpecial c

theorem textParser_documented {word : Char → Bool}
    (h : ∀ c, word c = true → isBlank c = false ∧ isSpecial c = false) :
    (textParser word).Documented id word where
  word_plain := h
  atEof _ hp := List.isEmpty_iff.mp hp
  nextArgument _ := rfl
  skipBlanks _ := rfl
  opPipe _ _ := rfl
  opBackground _ _ := rfl
  garbage _ := rfl

theorem plainWord_plain (c : Char) (h : plainWord c = true) : isBlank c = false ∧ isSpecial c = false := by
  simpa [plainWord] using h

end LabSO.Shell

import LabSO.User.Grep

/-! `grep.c`: the lines that `grep` writes of a stream of bytes, which `read` delivers in pieces. -/

namespace LabSO.Grep

def nul : Char := Char.ofNat 0

/-- `sizeof(buf)`. -/
def BUFSIZE : Nat := 1024

/-- The number of the first `c` of a string that a NUL may end early. -/
def strchr (c : Char) : List Char → Option Nat
  | [] => none
  | x :: s => if x = nul then none else if x = c then some 0 else (strchr c s).map (· + 1)

theorem lt_of_strchr {c : Char} {s : List Char} {q : Nat} (h : strchr c s = some q) : q < s.length := by
  induction s generalizing q with
  | nil => cases h
  | cons x s ih =>
    rw [strchr] at h
    split at h
    · cases h
    · split at h
      · cases h
        exact Nat.succ_pos _
      · obtain ⟨q', hq', rfl⟩ := Option.map_eq_some_iff.mp h
        exact Nat.succ_lt_succ (ih hq')

/-- The inner loop of `grep` from `p` on: what it writes, and the part of the buffer that it keeps. -/
def grepBuf (pattern p : List Char) : List Char × List Char :=
  match h : strchr '\n' p with
  | none => ([], p)
  | some q =>
    let next := grepBuf pattern (p.drop (q + 1))
    (if match_ pattern (p.take q) then p.take (q + 1) ++ next.1 else next.1, next.2)
termination_by p.length
decreasing_by
  have := lt_of_strchr h
  rw [List.length_drop]
  omega

/-- The loop of `grep`, with `kept` in the buffer, `rest` to read and `k` calls of `read` made: what it writes. -/
def grepFrom (pattern : List Char) (sizes : Nat → Nat) (k : Nat) (kept rest : List Char) : List Char :=
  let n := min (sizes k + 1) (min (BUFSIZE - kept.length - 1) rest.length)
  if n = 0 then []
  else
    let (out, kept) := grepBuf pattern (kept ++ rest.take n)
    out ++ grepFrom pattern sizes (k + 1) kept (rest.drop n)
termination_by rest.length
decreasing_by
  rw [List.length_drop]
  omega

/-- What `grep` writes for a stream of which the `k`th `read` delivers at most `sizes k + 1` bytes. -/
def grep (pattern : List Char) (sizes : Nat → Nat) (text : List Char) : List Char := grepFrom pattern sizes 0 [] text

/-! ### Lines -/

/-- A run of characters between newlines. -/
structure Line where
  text : List Char
  /-- There is a newline after it. -/
  ended : Bool
deriving DecidableEq

def splitLines : List Char → List Line
  | [] => []
  | c :: text =>
    if c = '\n' then ⟨[], true⟩ :: splitLines text
    else
      match splitLines text with
      | [] => [⟨[c], false⟩]
      | line :: rest => ⟨c :: line.text, line.ended⟩ :: rest

/-- The lines of a stream; what follows the last newline is one if it is not empty. -/
def lines (text : List Char) : List (List Char) := (splitLines text).map Line.text

/-- `grep` gets to the end of the line within its buffer. -/
def Line.fits (line : Line) : Bool := line.ended && decide (line.text.length + 1 < BUFSIZE)

/-- The lines from the first on that has no end within the buffer. -/
def lost (text : List Char) : List (List Char) := ((splitLines text).dropWhile Line.fits).map Line.text

/-- The lines of what is written are those of the stream that match. -/
def GrepsLines (pattern text out : List Char) : Prop := lines out = (lines text).filter (match_ pattern)

variable {pattern text line rest kept : List Char}

theorem splitLines_line (h : '\n' ∉ line) (rest : List Char) :
    splitLines (line ++ '\n' :: rest) = ⟨line, true⟩ :: splitLines rest := by
  induction line with
  | nil => simp [splitLines]
  | cons c line ih =>
    rw [List.mem_cons, not_or] at h
    rw [List.cons_append, splitLines, if_neg (Ne.symm h.1), ih h.2]

/-- A beginning without newline belongs to the first line. -/
theorem splitLines_append (h : '\n' ∉ kept) (hne : kept ≠ []) (rest : List Char) :
    ∃ line more, splitLines (kept ++ rest) = line :: more ∧ kept.length ≤ line.text.length := by
  induction kept with
  | nil => exact absurd rfl hne
  | cons c kept ih =>
    rw [List.mem_cons, not_or] at h
    rw [List.cons_append, splitLines, if_neg (Ne.symm h.1)]
    by_cases hk : kept = []
    · subst hk
      cases splitLines ([] ++ rest) with
      | nil => exact ⟨_, _, rfl, Nat.le_refl 1⟩
      | cons line more => exact ⟨_, _, rfl, Nat.succ_le_succ (Nat.zero_le _)⟩
    · obtain ⟨line, more, hsplit, hle⟩ := ih h.2 hk
      rw [hsplit]
      exact ⟨_, _, rfl, Nat.succ_le_succ hle⟩

theorem splitLines_last (h : '\n' ∉ line) (hne : line ≠ []) : splitLines line = [⟨line, false⟩] := by
  induction line with
  | nil => exact absurd rfl hne
  | cons c line ih =>
    rw [List.mem_cons, not_or] at h
    rw [splitLines, if_neg (Ne.symm h.1)]
    by_cases hl : line = []
    · subst hl
      rfl
    · rw [ih h.2 hl]

theorem newline_notMem {line : Line} (h : line ∈ splitLines text) : '\n' ∉ line.text := by
  induction text generalizing line with
  | nil => cases h
  | cons c text ih =>
    rw [splitLines] at h
    split at h
    · rcases List.mem_cons.mp h with rfl | h
      · nofun
      · exact ih h
    · next hc =>
      split at h
      · obtain rfl := List.mem_singleton.mp h
        exact fun hmem => hc (List.mem_singleton.mp hmem).symm
      · next first more hsplit =>
        have hfirst := ih (hsplit ▸ List.mem_cons_self)
        rcases List.mem_cons.mp h with rfl | h
        · rw [List.mem_cons, not_or]
          exact ⟨Ne.symm hc, hfirst⟩
        · exact ih (hsplit ▸ List.mem_cons_of_mem _ h)

/-! ### What is written -/

/-- A line with its newline if it matches. -/
def printed (pattern : List Char) (line : Line) : List Char :=
  if match_ pattern line.text then line.text ++ ['\n'] else []

/-- The lines that match of those before the first that does not fit. -/
def written (pattern text : List Char) : List Char :=
  ((splitLines text).takeWhile Line.fits).flatMap (printed pattern)

theorem strchr_none (h : strchr '\n' text = none) (hnul : nul ∉ text) : '\n' ∉ text := by
  induction text with
  | nil => nofun
  | cons c text ih =>
    rw [List.mem_cons, not_or] at hnul ⊢
    rw [strchr, if_neg (Ne.symm hnul.1)] at h
    split at h
    · cases h
    · next hc => exact ⟨Ne.symm hc, ih (Option.map_eq_none_iff.mp h) hnul.2⟩

theorem strchr_some {q : Nat} (h : strchr '\n' text = some q) :
    '\n' ∉ text.take q ∧ text = text.take q ++ '\n' :: text.drop (q + 1) := by
  induction text generalizing q with
  | nil => cases h
  | cons c text ih =>
    rw [strchr] at h
    split at h
    · cases h
    · split at h
      · next hc =>
        cases h
        exact ⟨nofun, by rw [hc]; rfl⟩
      · next hc =>
        obtain ⟨q, hq, rfl⟩ := Option.map_eq_some_iff.mp h
        obtain ⟨hnot, hsplit⟩ := ih hq
        rw [List.take_succ_cons, List.mem_cons, not_or]
        exact ⟨⟨Ne.symm hc, hnot⟩, by rw [List.cons_append, List.drop_succ_cons, ← hsplit]⟩

theorem written_line (h : '\n' ∉ line) (hlen : line.length + 1 < BUFSIZE) (rest : List Char) :
    written pattern (line ++ '\n' :: rest) = printed pattern ⟨line, true⟩ ++ written pattern rest := by
  have hfits : Line.fits ⟨line, true⟩ = true := by simpa [Line.fits] using hlen
  rw [written, splitLines_line h, List.takeWhile_cons, if_pos hfits]
  rfl

/-- Nothing is written of a line that does not fit. -/
theorem written_kept (h : '\n' ∉ kept) (hfull : rest = [] ∨ BUFSIZE ≤ kept.length + 1) : written pattern (kept ++ rest) = [] := by
  have hempty : ∀ {line more}, splitLines (kept ++ rest) = line :: more → line.fits = false → written pattern (kept ++ rest) = [] := by
    intro line more hsplit hfits
    rw [written, hsplit, List.takeWhile_cons, if_neg (by simp [hfits])]
    rfl
  by_cases hne : kept = []
  · subst hne
    rcases hfull with rfl | hfull
    · rfl
    · exact absurd hfull (by decide)
  rcases hfull with rfl | hfull
  · rw [List.append_nil] at hempty ⊢
    exact hempty (splitLines_last h hne) rfl
  · obtain ⟨line, more, hsplit, hle⟩ := splitLines_append h hne rest
    refine hempty hsplit ?_
    rw [Line.fits, decide_eq_false (by omega), Bool.and_false]

/-- What a pass over the buffer writes, and what it leaves for the next. -/
structure Passed (pattern text out kept : List Char) : Prop where
  written : ∀ rest, written pattern (text ++ rest) = out ++ written pattern (kept ++ rest)
  newline : '\n' ∉ kept
  nul : nul ∉ kept
  length : kept.length ≤ text.length

theorem grepBuf_none (h : strchr '\n' text = none) : grepBuf pattern text = ([], text) := by
  rw [grepBuf]
  split
  · rfl
  · next hsome =>
    rw [h] at hsome
    cases hsome

theorem grepBuf_some {q : Nat} (h : strchr '\n' text = some q) : grepBuf pattern text =
    (printed pattern ⟨text.take q, true⟩ ++ (grepBuf pattern (text.drop (q + 1))).1,
      (grepBuf pattern (text.drop (q + 1))).2) := by
  have hq := lt_of_strchr h
  have htake : text.take (q + 1) = text.take q ++ ['\n'] := by
    conv_lhs => rw [(strchr_some h).2]
    rw [List.take_append, List.length_take, Nat.min_eq_left hq.le, Nat.add_sub_cancel_left,
      List.take_of_length_le (by rw [List.length_take]; omega)]
    rfl
  rw [grepBuf]
  split
  · next hnone =>
    rw [h] at hnone
    cases hnone
  · next hsome =>
    rw [h] at hsome
    cases hsome
    unfold printed
    dsimp only
    split
    · rw [htake]
    · rfl

theorem grepBuf_passed (pattern text : List Char) (hnul : nul ∉ text) (hlen : text.length < BUFSIZE) :
    Passed pattern text (grepBuf pattern text).1 (grepBuf pattern text).2 := by
  induction hn : text.length using Nat.strongRecOn generalizing text with
  | ind n ih =>
    subst hn
    cases hchr : strchr '\n' text with
    | none =>
      rw [grepBuf_none hchr]
      exact ⟨fun _ => rfl, strchr_none hchr hnul, hnul, Nat.le_refl _⟩
    | some q =>
      obtain ⟨hline, hsplit⟩ := strchr_some hchr
      have hq := lt_of_strchr hchr
      have hdrop : (text.drop (q + 1)).length = text.length - (q + 1) := List.length_drop
      have ih := ih _ (by omega) (text.drop (q + 1)) (fun h => hnul (List.mem_of_mem_drop h)) (by omega) rfl
      rw [grepBuf_some hchr]
      refine ⟨fun rest => ?_, ih.newline, ih.nul, ?_⟩
      · have hline' : (text.take q).length + 1 < BUFSIZE := by
          rw [List.length_take]
          omega
        conv_lhs => rw [hsplit, List.append_assoc, List.cons_append]
        rw [written_line hline hline', ih.written, List.append_assoc]
      · have := ih.length
        dsimp only
        omega

theorem grepFrom_eq (sizes : Nat → Nat) (k : Nat) (hkept : '\n' ∉ kept) (hlen : kept.length < BUFSIZE)
    (hnul : nul ∉ kept) (hnul' : nul ∉ rest) : grepFrom pattern sizes k kept rest = written pattern (kept ++ rest) := by
  induction hn : rest.length using Nat.strongRecOn generalizing k kept rest with
  | ind n ih =>
    subst hn
    rw [grepFrom]
    dsimp only
    generalize hm : min (sizes k + 1) (min (BUFSIZE - kept.length - 1) rest.length) = m
    split
    · next h0 =>
      refine (written_kept hkept ?_).symm
      by_cases hrest : rest = []
      · exact Or.inl hrest
      · have := List.length_pos_of_ne_nil hrest
        omega
    · next hpos =>
      have hbuf : nul ∉ kept ++ rest.take m := by
        rw [List.mem_append, not_or]
        exact ⟨hnul, fun h => hnul' (List.mem_of_mem_take h)⟩
      have hpass := grepBuf_passed pattern (kept ++ rest.take m) hbuf (by
        rw [List.length_append, List.length_take]
        omega)
      have hsplit : kept ++ rest = kept ++ rest.take m ++ rest.drop m := by rw [List.append_assoc, List.take_append_drop]
      have hdrop : (rest.drop m).length = rest.length - m := List.length_drop
      have hshort := hpass.length
      rw [List.length_append, List.length_take] at hshort
      rw [hsplit, hpass.written]
      exact congrArg _ (ih (rest.drop m).length (by omega) _ hpass.newline (by omega) hpass.nul
        (fun h => hnul' (List.mem_of_mem_drop h)) rfl)

/-! ### The lines of what is written -/

theorem lines_flatMap {ls : List Line} (h : ∀ line ∈ ls, '\n' ∉ line.text) :
    lines (ls.flatMap (printed pattern)) = (ls.map Line.text).filter (match_ pattern) := by
  induction ls with
  | nil => rfl
  | cons line ls ih =>
    have ih := ih fun l hl => h l (List.mem_cons_of_mem _ hl)
    rw [List.flatMap_cons, List.map_cons, List.filter_cons, printed]
    split
    · rw [List.append_assoc, List.singleton_append, lines, splitLines_line (h line List.mem_cons_self), List.map_cons,
        ← lines, ih]
    · exact ih

/-- `grep` writes exactly the lines that match, if none of them is lost; however `read` splits the stream. -/
theorem grep_iff (pattern text : List Char) (sizes : Nat → Nat) (hnul : nul ∉ text) :
    GrepsLines pattern text (grep pattern sizes text) ↔ ∀ line ∈ lost text, match_ pattern line = false := by
  have hout : grep pattern sizes text = written pattern text := grepFrom_eq sizes 0 nofun (by decide) nofun hnul
  have hgood : ∀ line ∈ (splitLines text).takeWhile Line.fits, '\n' ∉ line.text := fun line hline =>
    newline_notMem ((List.takeWhile_prefix _).subset hline)
  have hlines : lines text = ((splitLines text).takeWhile Line.fits).map Line.text ++ lost text := by
    rw [lost, ← List.map_append, List.takeWhile_append_dropWhile]
    rfl
  rw [GrepsLines, hout, written, lines_flatMap hgood, hlines, List.filter_append, List.self_eq_append_right,
    List.filter_eq_nil_iff]
  simp only [Bool.not_eq_true]

theorem grep_iff_ended : GrepsLines ['a'] ['a', '\n', 'b'] (grep ['a'] (fun _ => 0) ['a', '\n', 'b']) ↔
    ∀ line ∈ lost ['a', '\n', 'b'], match_ ['a'] line = false :=
  grep_iff ['a'] ['a', '\n', 'b'] (fun _ => 0) (by decide)

/-- A last line without newline is not written. -/
theorem not_grepsLines : ¬GrepsLines ['a'] ['a'] (grep ['a'] (fun _ => 0) ['a']) := by
  have hout : grep ['a'] (fun _ => 0) ['a'] = written ['a'] ['a'] :=
    grepFrom_eq (fun _ => 0) 0 nofun (by decide) nofun (by decide)
  have hmatch : match_ ['a'] ['a'] = true := by simp [match_, matchFrom, matchhere]
  rw [GrepsLines, hout]
  simp [written, lines, splitLines, Line.fits, hmatch]

end LabSO.Grep

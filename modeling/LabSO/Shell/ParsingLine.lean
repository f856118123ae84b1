import LabSO.Shell.Parsing

/-! How much input `parse_pipeline` reads. Every call of the parser either reads inside the current line
    or, in `parser_garbage`, the rest of it, so what follows the line (`afterLine`) is the same before and
    after the loops. Only the exit for a redirection without file name leaves the rest of its line. -/

namespace LabSO.Shell

variable {σ : Type} {L : ParserLib σ} {unread : σ → Text} {word : Char → Bool}

/-! ### The input on which the line is read whole -/

/-- A redirection symbol followed by `rest` has its file name, or ends the input. -/
def namedOrLast (word : Char → Bool) (rest : Text) : Bool :=
  match rest.dropWhile isBlank with
  | [] => true
  | c :: _ => word c

/-- Each redirection symbol has its file name or ends the input, up to the first character that ends the
    commands: one that is not a blank, a pipe, a redirection symbol or part of a word. -/
def redirsNamed (word : Char → Bool) : Text → Bool
  | [] => true
  | c :: rest =>
    if isRedir c then namedOrLast word rest && redirsNamed word rest
    else if isBlank c || c == '|' || word c then redirsNamed word rest
    else true

/-- The commands end here: what comes next, after blanks, is neither a word nor a redirection. -/
def AtEnd (word : Char → Bool) (txt : Text) : Prop :=
  ∀ c ∈ (txt.dropWhile isBlank).head?, word c = false ∧ isRedir c = false

/-! ### Texts -/

theorem afterLine_append {u t : Text} (hu : '\n' ∉ u) : afterLine (u ++ t) = afterLine t := by
  unfold afterLine
  rw [List.dropWhile_append_of_pos]
  intro c hc
  have hne : c ≠ '\n' := fun h => hu (h ▸ hc)
  simpa using hne

theorem afterLine_eq_self_iff {t : Text} : afterLine t = t ↔ t = [] := by
  refine ⟨fun h => ?_, fun h => by rw [h]; rfl⟩
  have hle : (t.dropWhile (· != '\n')).length ≤ t.length := (List.dropWhile_sublist _).length_le
  have hlen := congrArg List.length h
  simp only [afterLine, List.length_tail] at hlen
  exact List.length_eq_zero_iff.mp (by omega)

theorem isRedir_ne_newline {c : Char} (h : isRedir c = true) : c ≠ '\n' := by
  rintro rfl
  simp [isRedir] at h

theorem isRedir_eq {c : Char} (h : isRedir c = true) : c = '<' ∨ c = '>' := by
  simpa [isRedir] using h

theorem plain_not_redir (h : L.Documented unread word) {c : Char} (hc : isBlank c = true ∨ c = '|' ∨ word c = true) :
    isRedir c = false ∧ c ≠ '\n' := by
  rcases hc with hc | rfl | hc
  · simp only [isBlank, Bool.or_eq_true, beq_iff_eq] at hc
    rcases hc with rfl | rfl <;> decide
  · decide
  · have := (h.word_plain c hc).2
    simp only [isSpecial, Bool.or_eq_false_iff, beq_eq_false_iff_ne] at this
    exact ⟨this.1.1.1, this.2⟩

/-- Nothing that decides how the line is read lies between `txt` and its ending `rest`. -/
structure Passes (word : Char → Bool) (txt rest : Text) : Prop where
  line : afterLine txt = afterLine rest
  redirs : redirsNamed word txt = redirsNamed word rest
  length : rest.length ≤ txt.length

namespace Passes

theorem refl (txt : Text) : Passes word txt txt := ⟨rfl, rfl, Nat.le_refl _⟩

theorem trans {t u v : Text} (h₁ : Passes word t u) (h₂ : Passes word u v) : Passes word t v :=
  ⟨h₁.line.trans h₂.line, h₁.redirs.trans h₂.redirs, Nat.le_trans h₂.length h₁.length⟩

theorem cons (h : L.Documented unread word) {c : Char} {rest : Text}
    (hc : isBlank c = true ∨ c = '|' ∨ word c = true) : Passes word (c :: rest) rest := by
  obtain ⟨hredir, hnl⟩ := plain_not_redir h hc
  refine ⟨afterLine_append (u := [c]) (by simpa using hnl.symm), ?_, by simp⟩
  have hplain : (isBlank c || c == '|' || word c) = true := by
    simpa [or_assoc] using hc
  rw [redirsNamed, hredir, hplain]
  rfl

theorem append (h : L.Documented unread word) {u rest : Text}
    (hu : ∀ c ∈ u, isBlank c = true ∨ c = '|' ∨ word c = true) : Passes word (u ++ rest) rest := by
  induction u with
  | nil => exact refl rest
  | cons c u ih =>
    exact (cons h (hu c List.mem_cons_self)).trans (ih fun d hd => hu d (List.mem_cons_of_mem c hd))

theorem dropBlanks (h : L.Documented unread word) (txt : Text) : Passes word txt (txt.dropWhile isBlank) := by
  conv => arg 2; rw [← List.takeWhile_append_dropWhile (p := isBlank) (l := txt)]
  exact append h fun c hc => Or.inl (List.mem_takeWhile_imp hc)

theorem dropWord (h : L.Documented unread word) (txt : Text) : Passes word txt (txt.dropWhile word) := by
  conv => arg 2; rw [← List.takeWhile_append_dropWhile (p := word) (l := txt)]
  exact append h fun c hc => Or.inr (Or.inr (List.mem_takeWhile_imp hc))

/-- A redirection symbol with its file name is passed like any word. -/
theorem redir {c : Char} {rest : Text} (hc : isRedir c = true)
    (hrest : namedOrLast word rest = true) : Passes word (c :: rest) rest := by
  refine ⟨afterLine_append (u := [c]) (by simpa using (isRedir_ne_newline hc).symm), ?_, by simp⟩
  rw [redirsNamed, hc, hrest]
  rfl

end Passes

/-! ### What each call reads -/

/-- What a call of `parser_next_argument` that gave the result `r` read of `txt`. -/
def ArgumentRead (word : Char → Bool) (txt : Text) : Option Text × ArgKind × Text → Prop
  | (some _, _, rest) => Passes word txt rest ∧ rest.length < txt.length
  | (none, .normal, rest) => Passes word txt rest ∧ AtEnd word rest
  | (none, _, rest) =>
    afterLine txt = afterLine rest ∧ rest.length ≤ txt.length ∧ (redirsNamed word txt = true ↔ rest = [])

theorem namedOrLast_eq (word : Char → Bool) (rest : Text) :
    namedOrLast word rest = ((rest.dropWhile isBlank).head?.map word).getD true := by
  unfold namedOrLast
  cases rest.dropWhile isBlank <;> rfl

theorem takeWhile_eq_nil_iff {t : Text} : t.takeWhile word = [] ↔ ∀ c ∈ t.head?, word c = false := by
  cases t with
  | nil => simp
  | cons c t => by_cases hc : word c = true <;> simp [hc]

theorem dropWhile_length_lt {t : Text} (ht : t.takeWhile word ≠ []) : (t.dropWhile word).length < t.length := by
  have hlen := congrArg List.length (List.takeWhile_append_dropWhile (p := word) (l := t))
  have hpos := List.length_pos_iff.mpr ht
  rw [List.length_append] at hlen
  omega

/-- Reading at a redirection symbol. -/
theorem redirRead (h : L.Documented unread word) {c : Char} (hc : isRedir c = true) (rest : Text)
    {kind : ArgKind} (hkind : kind ≠ .normal) : ArgumentRead word (c :: rest) (readWord word kind rest) := by
  have hb := Passes.dropBlanks h rest
  unfold readWord
  by_cases hnil : (rest.dropWhile isBlank).takeWhile word = []
  · have hhead := takeWhile_eq_nil_iff.mp hnil
    have hline : afterLine (c :: rest) = afterLine (rest.dropWhile isBlank) :=
      (afterLine_append (u := [c]) (by simpa using (isRedir_ne_newline hc).symm)).trans hb.line
    have hlen : (rest.dropWhile isBlank).length ≤ (c :: rest).length :=
      Nat.le_trans hb.length (by simp)
    have hnamed : redirsNamed word (c :: rest) = true ↔ rest.dropWhile isBlank = [] := by
      rw [redirsNamed, hc, if_pos rfl, hb.redirs, namedOrLast_eq]
      cases ht : rest.dropWhile isBlank with
      | nil => simp [redirsNamed]
      | cons d t => simp [hhead d (by rw [ht]; rfl)]
    rw [if_pos hnil]
    cases kind with
    | normal => exact absurd rfl hkind
    | input => exact ⟨hline, hlen, hnamed⟩
    | output => exact ⟨hline, hlen, hnamed⟩
  · rw [if_neg hnil]
    have hnamed : namedOrLast word rest = true := by
      rw [namedOrLast_eq]
      cases ht : rest.dropWhile isBlank with
      | nil => rfl
      | cons d t =>
        rw [ht] at hnil
        by_cases hd : word d = true
        · simpa using hd
        · simp [hd] at hnil
    have hw := Passes.dropWord h (rest.dropWhile isBlank)
    exact ⟨(Passes.redir hc hnamed).trans (hb.trans hw),
      Nat.lt_of_lt_of_le (dropWhile_length_lt hnil) (Nat.le_trans hb.length (by simp))⟩

theorem argumentRead (h : L.Documented unread word) (txt : Text) :
    ArgumentRead word txt (readArgument word txt) := by
  have hb := Passes.dropBlanks h txt
  have prepend : ∀ {c : Char} {rest : Text} {r : Option Text × ArgKind × Text},
      txt.dropWhile isBlank = c :: rest → ArgumentRead word (c :: rest) r → ArgumentRead word txt r := by
    intro c rest r hdrop hr
    rw [hdrop] at hb
    match r, hr with
    | (some _, _, _), hr => exact ⟨hb.trans hr.1, Nat.lt_of_lt_of_le hr.2 hb.length⟩
    | (none, .normal, _), hr => exact ⟨hb.trans hr.1, hr.2⟩
    | (none, .input, _), hr => exact ⟨hb.line.trans hr.1, Nat.le_trans hr.2.1 hb.length, hb.redirs ▸ hr.2.2⟩
    | (none, .output, _), hr => exact ⟨hb.line.trans hr.1, Nat.le_trans hr.2.1 hb.length, hb.redirs ▸ hr.2.2⟩
  unfold readArgument
  split
  · next rest hdrop => exact prepend hdrop (redirRead h rfl rest (by simp))
  · next rest hdrop => exact prepend hdrop (redirRead h rfl rest (by simp))
  · next t hlt hgt =>
    have hredir : ∀ c ∈ (txt.dropWhile isBlank).head?, isRedir c = false := by
      intro c hc
      obtain ⟨rest, hrest⟩ := List.head?_eq_some_iff.mp hc
      by_contra hne
      rcases isRedir_eq (by simpa using hne) with rfl | rfl
      · exact hlt rest hrest
      · exact hgt rest hrest
    unfold readWord
    rw [List.dropWhile_idempotent]
    by_cases hnil : (txt.dropWhile isBlank).takeWhile word = []
    · rw [if_pos hnil]
      refine ⟨hb, fun c hc => ?_⟩
      rw [List.dropWhile_idempotent] at hc
      exact ⟨takeWhile_eq_nil_iff.mp hnil c hc, hredir c hc⟩
    · rw [if_neg hnil]
      exact ⟨hb.trans (Passes.dropWord h _), Nat.lt_of_lt_of_le (dropWhile_length_lt hnil) hb.length⟩

/-! ### The loops -/

/-- What a parsing loop that gave `r` read of `txt`: when it gave NULL, the line was read well exactly if
    no input is left, and otherwise it has no dangling redirection up to where the loop stopped. -/
def LoopRead (word : Char → Bool) (txt : Text) {α : Type} (r : Option α) (rest : Text) : Prop :=
  afterLine txt = afterLine rest ∧ rest.length ≤ txt.length ∧
    match r with
    | none => redirsNamed word txt = true ↔ rest = []
    | some _ => redirsNamed word txt = redirsNamed word rest

theorem LoopRead.of_passes {α : Type} {r : Option α} {t u rest : Text} (h : Passes word t u)
    (hr : LoopRead word u r rest) : LoopRead word t r rest := by
  obtain ⟨hline, hlen, hmatch⟩ := hr
  refine ⟨h.line.trans hline, Nat.le_trans hlen h.length, ?_⟩
  cases r with
  | none => exact h.redirs ▸ hmatch
  | some _ => exact h.redirs.trans hmatch

theorem parseScommandLoop_read (h : L.Documented unread word) (fuel : Nat) (p : σ) (scom : Scommand)
    (hfuel : (unread p).length < fuel) : ∃ r q, parseScommandLoop L fuel p scom = .ok (r, q) ∧
      LoopRead word (unread p) r (unread q) ∧ (r.isSome → AtEnd word (unread q)) := by
  induction fuel generalizing p scom with
  | zero => omega
  | succ fuel ih =>
    rw [parseScommandLoop]
    by_cases heof : L.atEof p = true
    · rw [if_pos heof]
      have hnil := h.atEof p heof
      exact ⟨_, _, rfl, ⟨rfl, Nat.le_refl _, rfl⟩, fun _ c hc => by simp [hnil] at hc⟩
    · rw [if_neg heof]
      have harg := argumentRead h (unread p)
      rw [← h.nextArgument p] at harg
      -- Each argument that is read is stored, and the loop goes on with less input.
      have next : ∀ (par : Text) (kind : ArgKind) (q : σ) (scom : Scommand),
          ArgumentRead word (unread p) (some par, kind, unread q) →
          ∃ r q', parseScommandLoop L fuel q scom = .ok (r, q') ∧
            LoopRead word (unread p) r (unread q') ∧ (r.isSome → AtEnd word (unread q')) := by
        intro par kind q scom hq
        obtain ⟨r, q', hrun, hread, hend⟩ := ih q scom (by have := hq.2; omega)
        exact ⟨r, q', hrun, hread.of_passes hq.1, hend⟩
      rcases hcall : L.nextArgument p with ⟨_ | par, kind, q⟩ <;> rw [hcall] at harg
      · cases kind with
        | normal => exact ⟨_, _, rfl, ⟨harg.1.line, harg.1.length, harg.1.redirs⟩, fun _ => harg.2⟩
        | input => exact ⟨_, _, rfl, ⟨harg.1, harg.2.1, harg.2.2⟩, by simp⟩
        | output => exact ⟨_, _, rfl, ⟨harg.1, harg.2.1, harg.2.2⟩, by simp⟩
      · cases kind with
        | normal => exact next par _ q _ harg
        | input => exact next par _ q _ harg
        | output => exact next par _ q _ harg

/-- Where the commands end and no pipe follows, no redirection symbol counts any more. -/
theorem redirsNamed_of_atEnd {t : Text} (hend : AtEnd word t) (hpipe : (t.dropWhile isBlank).head? ≠ some '|') :
    redirsNamed word (t.dropWhile isBlank) = true := by
  cases ht : t.dropWhile isBlank with
  | nil => rfl
  | cons c rest =>
    have hc : c ∈ (t.dropWhile isBlank).head? := by rw [ht]; rfl
    have hblank : isBlank c = false := head?_dropWhile c hc
    have hne : c ≠ '|' := fun heq => hpipe (by rw [ht, heq]; rfl)
    obtain ⟨hword, hredir⟩ := hend c hc
    simp [redirsNamed, hblank, hredir, hword, hne]

theorem parsePipelineLoop_read (h : L.Documented unread word) (fuel rounds : Nat) (p : σ) (result : Pipeline)
    (hfuel : (unread p).length < fuel) (hrounds : (unread p).length < rounds) :
    ∃ r q, parsePipelineLoop L fuel rounds p result = .ok (r, q) ∧ LoopRead word (unread p) r (unread q) ∧
      (r.isSome → redirsNamed word (unread q) = true ∧ ∀ c ∈ (unread q).head?, isBlank c = false) := by
  induction rounds generalizing p result with
  | zero => omega
  | succ rounds ih =>
    obtain ⟨r, q, hrun, hread, hend⟩ := parseScommandLoop_read h fuel p Scommand.new hfuel
    rw [parsePipelineLoop, parseScommand, hrun]
    cases r with
    | none => exact ⟨none, q, rfl, hread, by simp⟩
    | some cmd =>
      obtain ⟨hline, hlen, hredirs⟩ := hread
      have hskip := h.skipBlanks q
      have hq : Passes word (unread p) (unread (L.skipBlanks q)) := by
        rw [hskip]
        exact Passes.trans ⟨hline, hredirs, hlen⟩ (Passes.dropBlanks h _)
      have hblank : ∀ c ∈ (unread (L.skipBlanks q)).head?, isBlank c = false := by
        rw [hskip]
        exact head?_dropWhile
      have hop := h.opPipe _ hblank
      unfold readOperator at hop
      dsimp only
      by_cases hpipe : (unread (L.skipBlanks q)).head? = some '|'
      · rw [if_pos hpipe] at hop
        obtain ⟨rest, hrest⟩ := List.head?_eq_some_iff.mp hpipe
        rcases hcall : L.opPipe (L.skipBlanks q) with ⟨piped, q'⟩
        rw [hcall, hrest, List.tail_cons, Prod.mk.injEq] at hop
        obtain ⟨rfl, hq'⟩ := hop
        have hpass : Passes word (unread p) (unread q') := by
          rw [hq']
          exact hq.trans (hrest ▸ Passes.cons h (Or.inr (Or.inl rfl)))
        have hshort : (unread q').length < (unread p).length := by
          have := hq.length
          rw [hrest, List.length_cons] at this
          rw [hq']
          omega
        obtain ⟨r, q'', hrun', hread', hend'⟩ := ih q' (result.pushBack cmd) (by omega) (by omega)
        exact ⟨r, q'', hrun', hread'.of_passes hpass, hend'⟩
      · rw [if_neg hpipe] at hop
        rcases hcall : L.opPipe (L.skipBlanks q) with ⟨piped, q'⟩
        rw [hcall, Prod.mk.injEq] at hop
        obtain ⟨rfl, hq'⟩ := hop
        rw [← hq'] at hq hblank
        refine ⟨some _, q', rfl, ⟨hq.line, hq.length, hq.redirs⟩, fun _ => ⟨?_, hblank⟩⟩
        rw [hq', hskip]
        rw [hskip] at hpipe
        exact redirsNamed_of_atEnd (hend rfl) hpipe

/-! ### The line -/

/-- A call of `parse_pipeline` on `p` returns, and leaves the parser right after the line. -/
def ReadsLine (L : ParserLib σ) (unread : σ → Text) (fuel : Nat) (p : σ) : Prop :=
  ∃ result printed q, parsePipeline L fuel p = .ok (result, printed, q) ∧ unread q = afterLine (unread p)

/-- `parser_op_background` reads inside the line. -/
theorem afterLine_opBackground (h : L.Documented unread word) {q : σ} (hblank : ∀ c ∈ (unread q).head?, isBlank c = false) :
    afterLine (unread (L.opBackground q).2) = afterLine (unread q) := by
  have hop := congrArg Prod.snd (h.opBackground q hblank)
  dsimp only at hop
  rw [hop, readOperator]
  by_cases hamp : (unread q).head? = some '&'
  · obtain ⟨rest, hrest⟩ := List.head?_eq_some_iff.mp hamp
    rw [if_pos hamp, hrest]
    exact (afterLine_append (u := ['&']) (by simp)).symm
  · rw [if_neg hamp]

/-- After the loop, `parser_garbage` leaves what follows the line. -/
theorem unread_garbage (h : L.Documented unread word) {q : σ} (hblank : ∀ c ∈ (unread q).head?, isBlank c = false) :
    unread (L.garbage (L.opBackground q).2).2 = afterLine (unread q) :=
  (congrArg Prod.snd (h.garbage (L.opBackground q).2)).trans (afterLine_opBackground h hblank)

/-- `parse_pipeline` always returns, and its returns through `parser_garbage` leave the parser right after
    the line. -/
theorem parsePipeline_read (h : L.Documented unread word) {fuel : Nat} {p : σ} (heof : L.atEof p = false)
    (hfuel : (unread p).length < fuel) : ∃ result printed q, parsePipeline L fuel p = .ok (result, printed, q) ∧
      (unread q = afterLine (unread p) ↔ redirsNamed word (unread p) = true) := by
  obtain ⟨r, q, hrun, ⟨hline, -, hmatch⟩, hend⟩ :=
    parsePipelineLoop_read h fuel fuel p Pipeline.new hfuel hfuel
  rw [parsePipeline, heof, hrun]
  cases r with
  | none =>
    have hleft : redirsNamed word (unread p) = true ↔ unread q = [] := hmatch
    refine ⟨none, _, q, rfl, ?_⟩
    rw [hline, hleft, eq_comm]
    exact afterLine_eq_self_iff
  | some result =>
    obtain ⟨hnamed, hblank⟩ := hend rfl
    have hgarbage : unread (L.garbage (L.opBackground q).2).2 = afterLine (unread p) :=
      (unread_garbage h hblank).trans hline.symm
    have hiff : unread (L.garbage (L.opBackground q).2).2 = afterLine (unread p) ↔
        redirsNamed word (unread p) = true := by
      simp [hgarbage, hmatch, hnamed]
    simp only [Bool.false_eq_true, if_false]
    split
    · exact ⟨_, _, _, rfl, hiff⟩
    · split
      · exact ⟨_, _, _, rfl, hiff⟩
      · exact ⟨_, _, _, rfl, hiff⟩

/-- The input of a call is read exactly up to the end of its line if and only if each redirection symbol of
    the line's commands has its file name or ends the input. -/
theorem readsLine_iff (h : L.Documented unread word) (fuel : Nat) (p : σ) (heof : L.atEof p = false)
    (hfuel : (unread p).length < fuel) :
    ReadsLine L unread fuel p ↔ redirsNamed word (unread p) = true := by
  obtain ⟨result, printed, q, hrun, hiff⟩ := parsePipeline_read h heof hfuel
  rw [← hiff]
  constructor
  · rintro ⟨result', printed', q', hrun', hq'⟩
    rw [hrun] at hrun'
    cases hrun'
    exact hq'
  · exact fun hq => ⟨result, printed, q, hrun, hq⟩

theorem readsLine_iff_background :
    ReadsLine (textParser plainWord) id 100 "ls -l >f | wc &\nexit\n".toList ↔
      redirsNamed plainWord "ls -l >f | wc &\nexit\n".toList = true :=
  readsLine_iff (textParser_documented plainWord_plain) 100 "ls -l >f | wc &\nexit\n".toList (by decide) (by decide)

/-- After `ls > > f x` the call returns at the second redirection, and leaves `> f x` to be read as the next
    command: not every call reads its line. -/
theorem not_readsLine_dangling : ¬ ∀ (p : Text) (fuel : Nat), (textParser plainWord).atEof p = false →
    p.length < fuel → ReadsLine (textParser plainWord) id fuel p := by
  intro hall
  obtain ⟨result, printed, q, hrun, hq⟩ := hall "ls > > f x\n".toList 12 (by decide) (by decide)
  have hleft : parsePipeline (textParser plainWord) 12 "ls > > f x\n".toList =
      .ok (none, "error cmd\n", "> f x\n".toList) := by rfl
  rw [hleft] at hrun
  cases hrun
  revert hq
  decide

end LabSO.Shell

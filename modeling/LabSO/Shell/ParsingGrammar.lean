import LabSO.Shell.Grammar
import LabSO.Shell.ParsingLine

/-! `parse_pipeline` against the grammar of its lines. It returns a pipeline exactly for the lines of the grammar, and
    the one that the line stands for, unless that is a single command without words. Lines with an empty command among
    several pass as well, although they are no well formed pipelines. -/

namespace LabSO.Shell

variable {σ : Type} {L : ParserLib σ} {unread : σ → Text} {word : Char → Bool}

/-! ### Lines that are read -/

theorem ItemText.ne_nil {item : Item} {t : Text} (h : ItemText word item t) : t ≠ [] := by
  cases h with
  | normal hw => exact hw.1
  | input hb hw => simp
  | output hb hw => simp

theorem ItemsText.eq_nil {glued : Bool} {items : List Item} (h : ItemsText word glued items []) : items = [] := by
  generalize ht : ([] : Text) = t at h
  cases h with
  | done hb => rfl
  | item hb hsep hitem hrest => simp [hitem.ne_nil] at ht

/-- The loop of `parse_scommand` stores the items of a command, and goes on with what follows them. -/
theorem parseScommandLoop_reads (h : L.Documented unread word) {glued : Bool} {items : List Item} {t rest : Text}
    (hitems : ItemsText word glued items t) (hrest : ∀ c ∈ rest.head?, word c = false) (fuel : Nat) (p : σ)
    (scom : Scommand) (hp : unread p = t ++ rest) (hfuel : (unread p).length < fuel) :
    ∃ fuel' b q, parseScommandLoop L fuel p scom = parseScommandLoop L (fuel' + 1) q (items.foldl Scommand.store scom) ∧
      Blanks b ∧ unread q = b ++ rest := by
  induction hitems generalizing fuel p scom with
  | @done glued b hb =>
    cases fuel with
    | zero => omega
    | succ fuel => exact ⟨fuel, b, p, rfl, hb, hp⟩
  | @item glued b t rest' item items hb hsep hitem hitems ih =>
    cases fuel with
    | zero => omega
    | succ fuel =>
      have hne : unread p ≠ [] := by
        rw [hp]
        simp [hitem.ne_nil]
      have harg := h.nextArgument p
      rw [hp, List.append_assoc _ rest', readArgument_item h.word_plain hb hitem
        (hitems.head_not_word h.word_plain hrest)] at harg
      have hlen : (rest' ++ rest).length < fuel := by
        have := List.length_pos_iff.mpr hitem.ne_nil
        rw [hp] at hfuel
        simp only [List.length_append] at hfuel ⊢
        omega
      rcases hcall : L.nextArgument p with ⟨r, kind, q⟩
      rw [hcall] at harg
      obtain ⟨kind', w⟩ := item
      simp only [Prod.mk.injEq] at harg
      obtain ⟨rfl, rfl, hq⟩ := harg
      obtain ⟨fuel', b', q', hrun, hb', hq'⟩ := ih fuel q (scom.store (kind, w)) hq (by rw [hq]; exact hlen)
      refine ⟨fuel', b', q', ?_, hb', hq'⟩
      rw [List.foldl_cons, ← hrun, parseScommandLoop, if_neg fun heof => hne (h.atEof p heof), hcall]
      cases kind <;> rfl

theorem parseScommandLoop_items (h : L.Documented unread word) {glued : Bool} {items : List Item} {t rest : Text}
    (hitems : ItemsText word glued items t) (hrest : Stops word rest) (fuel : Nat) (p : σ) (scom : Scommand)
    (hp : unread p = t ++ rest) (hfuel : (unread p).length < fuel) :
    ∃ q, parseScommandLoop L fuel p scom = .ok (some (items.foldl Scommand.store scom), q) ∧ unread q = rest := by
  obtain ⟨fuel', b, q, hrun, hb, hq⟩ :=
    parseScommandLoop_reads h hitems (fun c hc => (hrest c hc).2.1) fuel p scom hp hfuel
  rw [hrun, parseScommandLoop]
  by_cases heof : L.atEof q = true
  · rw [if_pos heof]
    have hnil := List.append_eq_nil_iff.mp (hq.symm.trans (h.atEof q heof))
    exact ⟨q, rfl, by rw [hq, hnil.1, hnil.2]; rfl⟩
  · rw [if_neg heof]
    have harg := h.nextArgument q
    rw [hq, readArgument_stop hb hrest] at harg
    rcases hcall : L.nextArgument q with ⟨r, kind, q'⟩
    rw [hcall] at harg
    cases harg
    exact ⟨q', rfl, rfl⟩

/-- At a redirection symbol without file name the command is given up. -/
theorem parseScommandLoop_dangling (h : L.Documented unread word) {glued : Bool} {items : List Item} {t tail rest : Text}
    (hitems : ItemsText word glued items t) (htail : Dangling word tail rest) (fuel : Nat) (p : σ) (scom : Scommand)
    (hp : unread p = t ++ tail) (hfuel : (unread p).length < fuel) :
    ∃ q, parseScommandLoop L fuel p scom = .ok (none, q) ∧ unread q = rest := by
  have hhead : ∀ c ∈ tail.head?, word c = false := by
    obtain ⟨c, b, rfl, hc, -⟩ := htail
    intro d hd
    obtain rfl : c = d := Option.some.inj hd
    by_contra hword
    have hspecial := (h.word_plain c (by simpa using hword)).2
    simp [isSpecial, hc] at hspecial
  obtain ⟨fuel', b, q, hrun, hb, hq⟩ := parseScommandLoop_reads h hitems hhead fuel p scom hp hfuel
  have hne : unread q ≠ [] := by
    obtain ⟨c, b', rfl, -⟩ := htail
    simp [hq]
  obtain ⟨kind, hread, hkind⟩ := readArgument_dangling hb htail
  have harg := h.nextArgument q
  rw [hq, hread] at harg
  rcases hcall : L.nextArgument q with ⟨r, kind', q'⟩
  rw [hcall] at harg
  simp only [Prod.mk.injEq] at harg
  obtain ⟨rfl, rfl, hq'⟩ := harg
  rw [hrun, parseScommandLoop, if_neg fun heof => hne (h.atEof q heof), hcall]
  cases kind' with
  | normal => exact absurd rfl hkind
  | input => exact ⟨q', rfl, hq'⟩
  | output => exact ⟨q', rfl, hq'⟩

/-- What comes after the last command: neither a blank nor what could go on with it, nor another pipe. -/
def LineStops (word : Char → Bool) (t : Text) : Prop := Stops word t ∧ t.head? ≠ some '|'

theorem stops_special {c : Char} {t : Text} (hplain : ∀ d, word d = true → isBlank d = false ∧ isSpecial d = false)
    (hblank : isBlank c = false) (hspecial : isSpecial c = true) (hredir : isRedir c = false) : Stops word (c :: t) := by
  intro d hd
  obtain rfl : c = d := Option.some.inj hd
  refine ⟨hblank, ?_, hredir⟩
  by_contra hword
  rw [(hplain c (by simpa using hword)).2] at hspecial
  cases hspecial

/-- The loop of `parse_pipeline` stores a command before a pipe, and goes on after the pipe. -/
theorem parsePipelineLoop_pipe (h : L.Documented unread word) {items : List Item} {t u : Text}
    (hitems : ItemsText word false items t) (fuel rounds : Nat) (p : σ) (result : Pipeline)
    (hp : unread p = t ++ '|' :: u) (hfuel : (unread p).length < fuel) :
    ∃ q, parsePipelineLoop L fuel (rounds + 1) p result =
      parsePipelineLoop L fuel rounds q (result.pushBack (commandOf items)) ∧ unread q = u := by
  have hstop : Stops word ('|' :: u) := stops_special h.word_plain (by decide) (by decide) (by decide)
  obtain ⟨q, hrun, hq⟩ := parseScommandLoop_items h hitems hstop fuel p Scommand.new hp hfuel
  rw [← commandOf_nil, foldl_store] at hrun
  rw [parsePipelineLoop, parseScommand, ← commandOf_nil, hrun]
  have hskip : unread (L.skipBlanks q) = '|' :: u := by
    rw [h.skipBlanks, hq]
    rfl
  have hop := h.opPipe (L.skipBlanks q) (by rw [hskip]; exact fun c hc => (hstop c hc).1)
  rw [hskip] at hop
  rcases hcall : L.opPipe (L.skipBlanks q) with ⟨piped, q'⟩
  rw [hcall] at hop
  simp only [readOperator, List.head?_cons, if_pos, List.tail_cons, Prod.mk.injEq] at hop
  obtain ⟨rfl, hq'⟩ := hop
  dsimp only
  rw [hcall]
  exact ⟨q', rfl, hq'⟩

theorem parsePipelineLoop_text (h : L.Documented unread word) {cmds : List (List Item)} {t rest : Text}
    (hcmds : PipelineText word cmds t) (hrest : LineStops word rest) (fuel rounds : Nat) (p : σ) (result : Pipeline)
    (hp : unread p = t ++ rest) (hfuel : (unread p).length < fuel) (hrounds : (unread p).length < rounds) :
    ∃ q, parsePipelineLoop L fuel rounds p result =
      .ok (some { result with scommands := result.scommands ++ cmds.map commandOf }, q) ∧ unread q = rest := by
  induction hcmds generalizing rounds p result with
  | @last items t hitems =>
    cases rounds with
    | zero => omega
    | succ rounds =>
      obtain ⟨q, hrun, hq⟩ := parseScommandLoop_items h hitems hrest.1 fuel p Scommand.new hp hfuel
      rw [← commandOf_nil, foldl_store] at hrun
      rw [parsePipelineLoop, parseScommand, ← commandOf_nil, hrun]
      have hskip : unread (L.skipBlanks q) = rest := by
        rw [h.skipBlanks, hq]
        exact dropWhile_append_stop (b := []) (by simp) fun c hc => (hrest.1 c hc).1
      have hop := h.opPipe (L.skipBlanks q) (by rw [hskip]; exact fun c hc => (hrest.1 c hc).1)
      rw [hskip, readOperator, if_neg hrest.2] at hop
      rcases hcall : L.opPipe (L.skipBlanks q) with ⟨piped, q'⟩
      rw [hcall] at hop
      cases hop
      dsimp only
      rw [hcall]
      exact ⟨q', rfl, rfl⟩
  | @pipe items cmds t u hitems hcmds ih =>
    cases rounds with
    | zero => omega
    | succ rounds =>
      have hp' : unread p = t ++ '|' :: (u ++ rest) := by rw [hp, List.append_assoc, List.cons_append]
      obtain ⟨q, hrun, hq⟩ := parsePipelineLoop_pipe h hitems fuel rounds p result hp' hfuel
      have hlen : (unread q).length < (unread p).length := by
        rw [hq, hp']
        simp only [List.length_append, List.length_cons]
        omega
      obtain ⟨q', hrun', hq'⟩ := ih rounds q (result.pushBack (commandOf items)) hq (by omega) (by omega)
      refine ⟨q', hrun.trans ?_, hq'⟩
      simpa [Pipeline.pushBack] using hrun'

/-- One command given up gives up the pipeline. -/
theorem parsePipelineLoop_dangling (h : L.Documented unread word) {cmds : List (List Item)} {t tail rest : Text}
    (hcmds : PipelineText word cmds t) (htail : Dangling word tail rest) (fuel rounds : Nat) (p : σ) (result : Pipeline)
    (hp : unread p = t ++ tail) (hfuel : (unread p).length < fuel) (hrounds : (unread p).length < rounds) :
    ∃ q, parsePipelineLoop L fuel rounds p result = .ok (none, q) ∧ unread q = rest := by
  induction hcmds generalizing rounds p result with
  | @last items t hitems =>
    cases rounds with
    | zero => omega
    | succ rounds =>
      obtain ⟨q, hrun, hq⟩ := parseScommandLoop_dangling h hitems htail fuel p Scommand.new hp hfuel
      rw [parsePipelineLoop, parseScommand, hrun]
      exact ⟨q, rfl, hq⟩
  | @pipe items cmds t u hitems hcmds ih =>
    cases rounds with
    | zero => omega
    | succ rounds =>
      have hp' : unread p = t ++ '|' :: (u ++ tail) := by rw [hp, List.append_assoc, List.cons_append]
      obtain ⟨q, hrun, hq⟩ := parsePipelineLoop_pipe h hitems fuel rounds p result hp' hfuel
      have hlen : (unread q).length < (unread p).length := by
        rw [hq, hp']
        simp only [List.length_append, List.length_cons]
        omega
      obtain ⟨q', hrun', hq'⟩ := ih rounds q (result.pushBack (commandOf items)) hq (by omega) (by omega)
      exact ⟨q', hrun.trans hrun', hq'⟩

theorem readGarbage_end {b e rest : Text} (hb : Blanks b) (he : LineEnd e rest) : readGarbage (b ++ e) = (false, rest) := by
  have hne : ∀ c ∈ b, (c != '\n') = true := by
    intro c hc
    have hblank := hb c hc
    rw [bne_iff_ne]
    rintro rfl
    cases hblank
  have hhead : ∀ c ∈ e.head?, (c != '\n') = false := by
    intro c hc
    cases he with
    | newline rest =>
      obtain rfl : '\n' = c := Option.some.inj hc
      rfl
    | eof => cases hc
  have hafter : e.tail = rest := by cases he <;> rfl
  have hany : (b.any fun c => !isBlank c) = false := by
    rw [List.any_eq_false]
    intro c hc
    simp [hb c hc]
  rw [readGarbage, afterLine, takeWhile_append_stop hne hhead, dropWhile_append_stop hne hhead, hafter, hany]

/-- A line is a pipeline, and then what `parser_op_background` and `parser_garbage` read. -/
theorem lineText_parts (hplain : ∀ d, word d = true → isBlank d = false ∧ isSpecial d = false)
    {cmds : List (List Item)} {background : Bool} {txt rest : Text} (h : LineText word cmds background txt rest) :
    ∃ t tail b e, txt = t ++ tail ∧ PipelineText word cmds t ∧ LineStops word tail ∧
      readOperator '&' tail = (background, b ++ e) ∧ Blanks b ∧ LineEnd e rest := by
  cases h with
  | foreground hcmds he =>
    refine ⟨_, _, [], _, rfl, hcmds, ?_, ?_, by simp [Blanks], he⟩
    · cases he with
      | newline rest => exact ⟨stops_special hplain (by decide) (by decide) (by decide), by simp⟩
      | eof => exact ⟨fun c hc => by simp at hc, by simp⟩
    · cases he <;> rfl
  | background hcmds hb he =>
    exact ⟨_, _, _, _, rfl, hcmds, ⟨stops_special hplain (by decide) (by decide) (by decide), by simp⟩, rfl, hb, he⟩

theorem lineText_of_parts {cmds : List (List Item)} {background : Bool} {t tail b e rest : Text}
    (hcmds : PipelineText word cmds t) (hstop : LineStops word tail) (hback : readOperator '&' tail = (background, b ++ e))
    (hb : Blanks b) (he : LineEnd e rest) : LineText word cmds background (t ++ tail) rest := by
  rw [readOperator] at hback
  by_cases hamp : tail.head? = some '&'
  · rw [if_pos hamp] at hback
    obtain ⟨tail', rfl⟩ := List.head?_eq_some_iff.mp hamp
    obtain ⟨rfl, rfl⟩ := Prod.mk.inj hback
    exact .background hcmds hb he
  · rw [if_neg hamp] at hback
    obtain ⟨rfl, rfl⟩ := Prod.mk.inj hback
    -- No blank is left before the end.
    cases b with
    | nil => exact .foreground hcmds he
    | cons c b =>
      have hblank := (hstop.1 c rfl).1
      rw [hb c List.mem_cons_self] at hblank
      cases hblank

theorem parsePipeline_line (h : L.Documented unread word) {cmds : List (List Item)} {background : Bool} {rest : Text}
    {fuel : Nat} {p : σ} (hline : LineText word cmds background (unread p) rest) (heof : L.atEof p = false)
    (hfuel : (unread p).length < fuel) : ∃ q, unread q = rest ∧ parsePipeline L fuel p =
      .ok (if onlyEmpty (pipelineOf cmds background) then none else some (pipelineOf cmds background), "", q) := by
  obtain ⟨t, tail, b, e, htxt, hcmds, hstop, hback, hb, he⟩ := lineText_parts h.word_plain hline
  obtain ⟨q, hrun, hq⟩ := parsePipelineLoop_text h hcmds hstop fuel fuel p Pipeline.new htxt hfuel hfuel
  have hop := h.opBackground q (by rw [hq]; exact fun c hc => (hstop.1 c hc).1)
  rw [hq, hback, Prod.mk.injEq] at hop
  obtain ⟨hamp, hleft⟩ := hop
  have hgar := h.garbage (L.opBackground q).2
  rw [hleft, readGarbage_end hb he, Prod.mk.injEq] at hgar
  obtain ⟨hclean, hrest⟩ := hgar
  refine ⟨_, hrest, ?_⟩
  rw [parsePipeline, heof, hrun]
  simp only [hamp, hclean, Bool.false_eq_true, if_false]
  show (if onlyEmpty (pipelineOf cmds background) = true then _ else _) = _
  split <;> rfl

/-! ### Lines that are accepted -/

/-- What the loop of `parse_scommand` found after the items: for a command, what ends it and is left to be read, and
    for NULL a redirection without file name. -/
def CommandEnd (word : Char → Bool) (scom : Scommand) (items : List Item) (tail rest : Text) : Option Scommand → Prop
  | some sc => tail = rest ∧ Stops word rest ∧ sc = items.foldl Scommand.store scom
  | none => Dangling word tail rest

theorem parseScommandLoop_inv (h : L.Documented unread word) (fuel : Nat) {p q : σ} {scom : Scommand}
    {r : Option Scommand} (hrun : parseScommandLoop L fuel p scom = .ok (r, q)) (glued : Bool)
    (hglued : glued = true → ∀ c ∈ (unread p).head?, word c = false) :
    ∃ items t tail, ItemsText word glued items t ∧ unread p = t ++ tail ∧
      CommandEnd word scom items tail (unread q) r := by
  induction fuel generalizing p scom glued with
  | zero => cases hrun
  | succ fuel ih =>
    rw [parseScommandLoop] at hrun
    by_cases heof : L.atEof p = true
    · rw [if_pos heof] at hrun
      cases hrun
      exact ⟨[], [], _, .done (by simp [Blanks]), rfl, rfl, fun c hc => by simp [h.atEof _ heof] at hc, rfl⟩
    · rw [if_neg heof] at hrun
      have hread := readArgument_read word (unread p)
      have hcalled := h.nextArgument p
      rw [← hcalled] at hread
      -- An argument goes to the command, and the rest of the items follow it.
      have next : ∀ (w : Text) (kind : ArgKind) (p' : σ), ItemRead word (unread p) (some w, kind, unread p') →
          parseScommandLoop L fuel p' (scom.store (kind, w)) = .ok (r, q) →
          ∃ items t tail, ItemsText word glued items t ∧ unread p = t ++ tail ∧
            CommandEnd word scom items tail (unread q) r := by
        rintro w kind p' ⟨⟨b, t, hp, hb, hitem⟩, hhead⟩ hrun'
        obtain ⟨items, t', tail, hitems, hp', hend⟩ := ih hrun' true fun _ => hhead
        refine ⟨(kind, w) :: items, b ++ t ++ t', tail, .item hb (fun hglue hkind => ?_) hitem hitems, ?_, ?_⟩
        · rintro rfl
          obtain rfl : kind = .normal := hkind
          cases hitem with
          | normal hw =>
            obtain ⟨c, hc, hword⟩ := hw.head (unread p')
            have hfalse := hglued hglue c (by rw [hp]; exact hc)
            rw [hword] at hfalse
            cases hfalse
        · rw [hp, hp', ← List.append_assoc]
        · cases r <;> exact hend
      -- Without an argument the blanks before it count as the end of the items.
      have missing : ∀ (kind : ArgKind), (none, kind, unread q) = readArgument word (unread p) → kind ≠ .normal →
          ∃ items t tail, ItemsText word glued items t ∧ unread p = t ++ tail ∧
            CommandEnd word scom items tail (unread q) none := by
        intro kind heq hkind
        obtain ⟨b, t, hp, hb, hdangling⟩ := dangling_of_readArgument heq.symm hkind
        exact ⟨[], b, t, .done hb, hp, hdangling⟩
      rcases hcall : L.nextArgument p with ⟨_ | w, kind, p'⟩ <;> rw [hcall] at hread hcalled hrun
      · cases kind with
        | normal =>
          cases hrun
          obtain ⟨b, hp, hb, hstop⟩ := hread
          exact ⟨[], b, _, .done hb, hp, rfl, hstop, rfl⟩
        | input =>
          cases hrun
          exact missing _ hcalled (by rintro ⟨⟩)
        | output =>
          cases hrun
          exact missing _ hcalled (by rintro ⟨⟩)
      · cases kind with
        | normal => exact next w _ p' hread hrun
        | input => exact next w _ p' hread hrun
        | output => exact next w _ p' hread hrun

/-- The same for the loop of `parse_pipeline` and the commands. -/
def PipelineEnd (word : Char → Bool) (result : Pipeline) (cmds : List (List Item)) (tail rest : Text) :
    Option Pipeline → Prop
  | some r => tail = rest ∧ LineStops word rest ∧
      r = { result with scommands := result.scommands ++ cmds.map commandOf }
  | none => Dangling word tail rest

theorem parsePipelineLoop_inv (h : L.Documented unread word) (fuel rounds : Nat) {p q : σ} {result : Pipeline}
    {r : Option Pipeline} (hrun : parsePipelineLoop L fuel rounds p result = .ok (r, q)) :
    ∃ cmds t tail, PipelineText word cmds t ∧ unread p = t ++ tail ∧ PipelineEnd word result cmds tail (unread q) r := by
  induction rounds generalizing p result with
  | zero => cases hrun
  | succ rounds ih =>
    rw [parsePipelineLoop] at hrun
    rcases hcmd : parseScommand L fuel p with stop | ⟨_ | cmd, p₁⟩ <;> rw [hcmd] at hrun
    · cases hrun
    · obtain ⟨items, t, tail, hitems, hp, hdangling⟩ := parseScommandLoop_inv h fuel hcmd false (by rintro ⟨⟩)
      cases hrun
      exact ⟨[items], t, tail, .last hitems, hp, hdangling⟩
    · obtain ⟨items, t, _, hitems, hp, rfl, hstop, rfl⟩ := parseScommandLoop_inv h fuel hcmd false (by rintro ⟨⟩)
      rw [← commandOf_nil, foldl_store, List.nil_append] at hrun
      have hskip : unread (L.skipBlanks p₁) = unread p₁ := by
        rw [h.skipBlanks]
        exact dropWhile_append_stop (b := []) (by simp) fun c hc => (hstop c hc).1
      have hop := h.opPipe (L.skipBlanks p₁) (by rw [hskip]; exact fun c hc => (hstop c hc).1)
      rw [hskip, readOperator] at hop
      rcases hcall : L.opPipe (L.skipBlanks p₁) with ⟨piped, p₂⟩
      rw [hcall] at hop
      dsimp only at hrun
      rw [hcall] at hrun
      by_cases hpipe : (unread p₁).head? = some '|'
      · rw [if_pos hpipe] at hop
        obtain ⟨rest, hrest⟩ := List.head?_eq_some_iff.mp hpipe
        rw [hrest, List.tail_cons, Prod.mk.injEq] at hop
        obtain ⟨rfl, hp₂⟩ := hop
        obtain ⟨cmds, u, tail, hcmds, hp', hend⟩ := ih hrun
        refine ⟨items :: cmds, t ++ '|' :: u, tail, .pipe hitems hcmds, ?_, ?_⟩
        · rw [hp, hrest, ← hp₂, hp']
          simp
        · cases r with
          | none => exact hend
          | some r => simpa [PipelineEnd, Pipeline.pushBack] using hend
      · rw [if_neg hpipe, Prod.mk.injEq] at hop
        obtain ⟨rfl, hp₂⟩ := hop
        cases hrun
        exact ⟨[items], t, _, .last hitems, hp, hp₂.symm, by rw [hp₂]; exact ⟨hstop, hpipe⟩, rfl⟩

theorem lineEnd_of_garbage {t : Text} (hgar : (readGarbage t).1 = false) :
    ∃ b e, t = b ++ e ∧ Blanks b ∧ LineEnd e (readGarbage t).2 := by
  refine ⟨t.takeWhile (· != '\n'), t.dropWhile (· != '\n'), List.takeWhile_append_dropWhile.symm, fun c hc => ?_, ?_⟩
  · have hnone := List.any_eq_false.mp hgar c hc
    simpa using hnone
  · have hhead : ∀ c ∈ (t.dropWhile (· != '\n')).head?, (c != '\n') = false := head?_dropWhile
    simp only [readGarbage, afterLine]
    cases hdrop : t.dropWhile (· != '\n') with
    | nil => exact .eof
    | cons c rest =>
      have hc := hhead c (by rw [hdrop]; rfl)
      obtain rfl : c = '\n' := by simpa using hc
      exact .newline rest

theorem parsePipeline_inv (h : L.Documented unread word) {fuel : Nat} {p q : σ} {r : Pipeline} {printed : String}
    (hrun : parsePipeline L fuel p = .ok (some r, printed, q)) : ∃ cmds background,
      LineText word cmds background (unread p) (unread q) ∧ r = pipelineOf cmds background ∧ onlyEmpty r = false := by
  rw [parsePipeline] at hrun
  by_cases heof : L.atEof p = true
  · rw [if_pos heof] at hrun
    cases hrun
  · rw [if_neg heof] at hrun
    rcases hloop : parsePipelineLoop L fuel fuel p Pipeline.new with stop | ⟨_ | result, p₁⟩ <;> rw [hloop] at hrun
    · cases hrun
    · cases hrun
    · obtain ⟨cmds, t, _, hcmds, hp, rfl, hstop, rfl⟩ := parsePipelineLoop_inv h fuel fuel hloop
      have hop := h.opBackground p₁ fun c hc => (hstop.1 c hc).1
      have hback : unread (L.opBackground p₁).2 = (readOperator '&' (unread p₁)).2 := congrArg Prod.snd hop
      have hgar := h.garbage (L.opBackground p₁).2
      rw [hback] at hgar
      simp only at hrun
      split at hrun
      · cases hrun
      · next honly =>
        split at hrun
        · cases hrun
        · next hclean =>
          cases hrun
          have hfalse : (readGarbage (readOperator '&' (unread p₁)).2).1 = false := by
            rw [← hgar]
            simpa using hclean
          obtain ⟨b, e, htail, hb, he⟩ := lineEnd_of_garbage hfalse
          rw [← hgar] at he
          refine ⟨cmds, (L.opBackground p₁).1, ?_, rfl, by simpa using honly⟩
          rw [hp]
          exact lineText_of_parts hcmds hstop (Prod.ext (congrArg Prod.fst hop).symm htail) hb he

/-! ### What `parse_pipeline` returns -/

theorem onlyEmpty_pipelineOf_iff {cmds : List (List Item)} {background : Bool} :
    onlyEmpty (pipelineOf cmds background) = true ↔ ∃ items, cmds = [items] ∧ ¬HasWord items := by
  cases cmds with
  | nil => simp [onlyEmpty, pipelineOf, Pipeline.length]
  | cons items rest =>
    cases rest with
    | nil =>
      have hlen := commandOf_length_eq_zero_iff items
      simp only [onlyEmpty, pipelineOf, Pipeline.length, Pipeline.front, List.map_cons, List.map_nil, List.length_cons,
        List.length_nil, List.head?_cons, Option.map_some, beq_self_eq_true, Bool.true_and, beq_iff_eq,
        Option.some.injEq, hlen, List.cons.injEq, and_true, exists_eq_left']
    | cons items' rest => simp [onlyEmpty, pipelineOf, Pipeline.length]

theorem LineText.cmds_ne_nil {cmds : List (List Item)} {background : Bool} {txt rest : Text}
    (h : LineText word cmds background txt rest) : cmds ≠ [] := by
  cases h with
  | foreground hcmds he => exact hcmds.ne_nil
  | background hcmds hb he => exact hcmds.ne_nil

theorem LineText.ne_nil {cmds : List (List Item)} {background : Bool} {txt rest : Text}
    (h : LineText word cmds background txt rest) (hwords : ∀ items ∈ cmds, HasWord items) : txt ≠ [] := by
  have htext : ∀ {t : Text}, PipelineText word cmds t → t ≠ [] := by
    intro t hcmds hnil
    cases hcmds with
    | last hitems =>
      rw [hnil] at hitems
      obtain ⟨item, hmem, -⟩ := hwords _ List.mem_cons_self
      simp [hitems.eq_nil] at hmem
    | pipe hitems hrest => simp at hnil
  cases h with
  | foreground hcmds he => simp [htext hcmds]
  | background hcmds hb he => simp

/-- On a line of the grammar whose commands all have a word, `parse_pipeline` returns the pipeline that the line stands
    for, and leaves the parser after the line. -/
theorem parsePipeline_of_line (h : L.Documented unread word) {cmds : List (List Item)} {background : Bool}
    {rest : Text} {fuel : Nat} {p : σ} (hline : LineText word cmds background (unread p) rest)
    (hwords : ∀ items ∈ cmds, HasWord items) (hfuel : (unread p).length < fuel) :
    ∃ q, parsePipeline L fuel p = .ok (some (pipelineOf cmds background), "", q) ∧ unread q = rest := by
  have hne : unread p ≠ [] := hline.ne_nil hwords
  obtain ⟨q, hq, hrun⟩ := parsePipeline_line h hline (by simpa using fun heof => hne (h.atEof p heof)) hfuel
  have honly : ¬onlyEmpty (pipelineOf cmds background) = true := by
    rw [onlyEmpty_pipelineOf_iff]
    rintro ⟨items, rfl, hempty⟩
    exact hempty (hwords items List.mem_cons_self)
  rw [if_neg honly] at hrun
  exact ⟨q, hrun, hq⟩

/-- `ls -l <a>f<b |wc &` with two input redirections. -/
def lsItems : List Item :=
  [(.normal, "ls".toList), (.normal, "-l".toList), (.input, "a".toList), (.output, "f".toList), (.input, "b".toList)]

def wcItems : List Item := [(.normal, "wc".toList)]

theorem lsItems_text : ItemsText plainWord false lsItems "ls -l <a>f< b ".toList :=
  .first (b := []) (by decide) (.normal (w := "ls".toList) (by decide))
    (.item (b := [' ']) (by decide) (by decide) (.normal (w := "-l".toList) (by decide))
      (.item (b := [' ']) (by decide) (by decide) (.input (b := []) (w := "a".toList) (by decide) (by decide))
        (.item (b := []) (by decide) (by decide) (.output (b := []) (w := "f".toList) (by decide) (by decide))
          (.item (b := []) (by decide) (by decide) (.input (b := [' ']) (w := "b".toList) (by decide) (by decide))
            (.done (b := [' ']) (by decide))))))

theorem wcItems_text : ItemsText plainWord false wcItems "wc ".toList :=
  .first (b := []) (by decide) (.normal (w := "wc".toList) (by decide)) (.done (b := [' ']) (by decide))

theorem background_text : LineText plainWord [lsItems, wcItems] true "ls -l <a>f< b |wc & \nexit\n".toList "exit\n".toList :=
  .background (b := [' ']) (.pipe lsItems_text (.last wcItems_text)) (by decide) (.newline _)

theorem parsePipeline_of_line_background : ∃ q, parsePipeline (textParser plainWord) 100
    "ls -l <a>f< b |wc & \nexit\n".toList = .ok (some (pipelineOf [lsItems, wcItems] true), "", q) ∧
      q = "exit\n".toList :=
  parsePipeline_of_line (textParser_documented plainWord_plain) background_text (by decide) (by decide)

/-- The line is a pipeline of commands that each have a word. -/
def WellFormedLine (word : Char → Bool) (txt : Text) : Prop :=
  ∃ cmds background rest, LineText word cmds background txt rest ∧ ∀ items ∈ cmds, HasWord items

/-- The line is a pipeline of two or more commands, some of which have no word. -/
def HasGap (word : Char → Bool) (txt : Text) : Prop :=
  ∃ cmds background rest, LineText word cmds background txt rest ∧ 2 ≤ cmds.length ∧ ∃ items ∈ cmds, ¬HasWord items

/-- A call on a line that is not well formed gives NULL, and a pipeline that a call gives has commands, none of them
    empty. -/
def RejectsMalformed (L : ParserLib σ) (unread : σ → Text) (word : Char → Bool) (fuel : Nat) (p : σ) : Prop :=
  (¬WellFormedLine word (unread p) → ∃ printed q, parsePipeline L fuel p = .ok (none, printed, q)) ∧
  ∀ r printed q, parsePipeline L fuel p = .ok (some r, printed, q) →
    1 ≤ r.length ∧ ∀ sc ∈ r.scommands, sc.isEmpty = false

theorem isEmpty_commandOf {items : List Item} : (commandOf items).isEmpty = false ↔ HasWord items := by
  have hlen := commandOf_length_eq_zero_iff items
  rw [← not_iff_not, Bool.not_eq_false, ← hlen]
  simp [Scommand.isEmpty, Scommand.length]

/-- Malformed lines are rejected unless they leave out a command of a longer pipeline. -/
theorem rejectsMalformed_iff (h : L.Documented unread word) (fuel : Nat) (p : σ) (heof : L.atEof p = false)
    (hfuel : (unread p).length < fuel) :
    RejectsMalformed L unread word fuel p ↔ ¬HasGap word (unread p) := by
  constructor
  · rintro ⟨-, hresult⟩ ⟨cmds, background, rest, hline, hlen, items, hmem, hempty⟩
    obtain ⟨q, -, hrun⟩ := parsePipeline_line h hline heof hfuel
    have honly : ¬onlyEmpty (pipelineOf cmds background) = true := by
      rw [onlyEmpty_pipelineOf_iff]
      rintro ⟨items', rfl, -⟩
      simp at hlen
    rw [if_neg honly] at hrun
    have hsc := (hresult _ _ _ hrun).2 (commandOf items) (List.mem_map_of_mem hmem)
    exact hempty (isEmpty_commandOf.mp hsc)
  · intro hgap
    have hwords : ∀ {r printed q}, parsePipeline L fuel p = .ok (some r, printed, q) →
        ∃ cmds background, LineText word cmds background (unread p) (unread q) ∧ r = pipelineOf cmds background ∧
          cmds ≠ [] ∧ ∀ items ∈ cmds, HasWord items := by
      intro r printed q hrun
      obtain ⟨cmds, background, hline, rfl, honly⟩ := parsePipeline_inv h hrun
      have hne : cmds ≠ [] := hline.cmds_ne_nil
      refine ⟨cmds, background, hline, rfl, hne, fun items hmem => ?_⟩
      by_contra hempty
      -- A single command without words is found out, and among several there is none.
      have hshort : ¬2 ≤ cmds.length := fun hlen => hgap ⟨cmds, background, _, hline, hlen, items, hmem, hempty⟩
      obtain ⟨items', rfl⟩ := List.length_eq_one_iff.mp
        (by have := List.length_pos_iff.mpr hne; omega : cmds.length = 1)
      obtain rfl := List.mem_singleton.mp hmem
      rw [onlyEmpty_pipelineOf_iff.mpr ⟨_, rfl, hempty⟩] at honly
      cases honly
    refine ⟨fun hmalformed => ?_, fun r printed q hrun => ?_⟩
    · obtain ⟨r, printed, q, hrun, -⟩ := parsePipeline_read h heof hfuel
      cases r with
      | none => exact ⟨printed, q, hrun⟩
      | some r =>
        obtain ⟨cmds, background, hline, -, -, hall⟩ := hwords hrun
        exact absurd ⟨cmds, background, _, hline, hall⟩ hmalformed
    · obtain ⟨cmds, background, -, rfl, hne, hall⟩ := hwords hrun
      refine ⟨?_, fun sc hsc => ?_⟩
      · rw [pipelineOf, Pipeline.length, List.length_map]
        exact List.length_pos_iff.mpr hne
      · obtain ⟨items, hmem, rfl⟩ := List.mem_map.mp hsc
        exact isEmpty_commandOf.mpr (hall items hmem)

theorem rejectsMalformed_iff_text : RejectsMalformed (textParser plainWord) id plainWord 20 "ls > f x\n".toList ↔
    ¬HasGap plainWord "ls > f x\n".toList :=
  rejectsMalformed_iff (textParser_documented plainWord_plain) 20 "ls > f x\n".toList (by decide) (by decide)

/-- `ls |` is taken for a pipeline with an empty second command. -/
theorem not_rejectsMalformed_trailing : ¬∀ (p : Text) (fuel : Nat), (textParser plainWord).atEof p = false →
    p.length < fuel → RejectsMalformed (textParser plainWord) id plainWord fuel p := by
  intro hall
  obtain ⟨-, hresult⟩ := hall "ls |\n".toList 10 (by decide) (by decide)
  have hrun : parsePipeline (textParser plainWord) 10 "ls |\n".toList =
      .ok (some ⟨[⟨["ls".toList], none, none⟩, Scommand.new], true⟩, "", []) := by rfl
  have hempty := (hresult _ _ _ hrun).2 Scommand.new (by simp)
  cases hempty

end LabSO.Shell

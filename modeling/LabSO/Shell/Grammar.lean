import LabSO.Shell.Parser

/-! The lines of the shell as a grammar over characters: items (words and redirections), commands, pipelines, the
    background operator and the end of the line. A derivation records what was written between the blanks. The
    grammar also has the commands without words, which `parse_pipeline` reads like any other. -/

namespace LabSO.Shell

/-- One word, or the file name of one redirection. -/
abbrev Item := ArgKind × Text

def Blanks (t : Text) : Prop := ∀ c ∈ t, isBlank c = true

def IsWord (word : Char → Bool) (t : Text) : Prop := t ≠ [] ∧ ∀ c ∈ t, word c = true

/-- How an item is written. -/
inductive ItemText (word : Char → Bool) : Item → Text → Prop
  | normal {w : Text} (hw : IsWord word w) : ItemText word (.normal, w) w
  | input {b w : Text} (hb : Blanks b) (hw : IsWord word w) : ItemText word (.input, w) ('<' :: b ++ w)
  | output {b w : Text} (hb : Blanks b) (hw : IsWord word w) : ItemText word (.output, w) ('>' :: b ++ w)

/-- How the items of a command are written, with blanks anywhere. `glued` says that the text follows a word, so that
    blanks have to come before another one. -/
inductive ItemsText (word : Char → Bool) : Bool → List Item → Text → Prop
  | done {glued : Bool} {b : Text} (hb : Blanks b) : ItemsText word glued [] b
  | item {glued : Bool} {b t rest : Text} {item : Item} {items : List Item} (hb : Blanks b)
    (hsep : glued = true → item.1 = .normal → b ≠ []) (hitem : ItemText word item t)
    (hrest : ItemsText word true items rest) : ItemsText word glued (item :: items) (b ++ t ++ rest)

/-- How the commands of a pipeline are written. -/
inductive PipelineText (word : Char → Bool) : List (List Item) → Text → Prop
  | last {items : List Item} {t : Text} (hitems : ItemsText word false items t) : PipelineText word [items] t
  | pipe {items : List Item} {cmds : List (List Item)} {t u : Text} (hitems : ItemsText word false items t)
    (hcmds : PipelineText word cmds u) : PipelineText word (items :: cmds) (t ++ '|' :: u)

/-- A newline, or the end of the input, before what is left of it. -/
inductive LineEnd : Text → Text → Prop
  | newline (rest : Text) : LineEnd ('\n' :: rest) rest
  | eof : LineEnd [] []

/-- How a line is written: its commands, whether they run in the background, and what is left of the input. -/
inductive LineText (word : Char → Bool) : List (List Item) → Bool → Text → Text → Prop
  | foreground {cmds : List (List Item)} {t e rest : Text} (hcmds : PipelineText word cmds t)
    (he : LineEnd e rest) : LineText word cmds false (t ++ e) rest
  | background {cmds : List (List Item)} {t b e rest : Text} (hcmds : PipelineText word cmds t) (hb : Blanks b)
    (he : LineEnd e rest) : LineText word cmds true (t ++ '&' :: (b ++ e)) rest

/-- The command has a word. -/
def HasWord (items : List Item) : Prop := ∃ item ∈ items, item.1 = .normal

/-- The strings of one kind, in order. -/
def texts (kind : ArgKind) (items : List Item) : List Text :=
  items.filterMap fun item => if item.1 = kind then some item.2 else none

/-- The command that the items stand for: its words in order, and the last redirection each way. -/
def commandOf (items : List Item) : Scommand where
  command := texts .normal items
  redirOut := (texts .output items).getLast?
  redirIn := (texts .input items).getLast?

/-- The pipeline that a line stands for. -/
def pipelineOf (cmds : List (List Item)) (background : Bool) : Pipeline where
  scommands := cmds.map commandOf
  wait := !background

/-- Nothing that belongs to a command comes next. -/
def Stops (word : Char → Bool) (t : Text) : Prop :=
  ∀ c ∈ t.head?, isBlank c = false ∧ word c = false ∧ isRedir c = false

/-- A redirection symbol comes next, without a file name, and `rest` after its blanks. -/
def Dangling (word : Char → Bool) (t rest : Text) : Prop :=
  ∃ c b, t = c :: (b ++ rest) ∧ isRedir c = true ∧ Blanks b ∧ ∀ d ∈ rest.head?, isBlank d = false ∧ word d = false

instance (t : Text) : Decidable (Blanks t) := List.decidableBAll (fun c => isBlank c = true) t

instance (word : Char → Bool) (t : Text) : Decidable (IsWord word t) :=
  have := List.decidableBAll (fun c => word c = true) t
  instDecidableAnd

instance (items : List Item) : Decidable (HasWord items) := List.decidableBEx (fun item : Item => item.1 = .normal) items

/-! ### What the items stand for -/

theorem texts_snoc (kind : ArgKind) (items : List Item) (item : Item) :
    texts kind (items ++ [item]) = texts kind items ++ if item.1 = kind then [item.2] else [] := by
  unfold texts
  rw [List.filterMap_append]
  by_cases h : item.1 = kind <;> simp [h]

theorem commandOf_nil : commandOf [] = Scommand.new := rfl

/-- One argument stored in a command, as the loop of `parse_scommand` does. -/
def Scommand.store (self : Scommand) (item : Item) : Scommand :=
  match item.1 with
  | .normal => self.pushBack item.2
  | .input => self.setRedirIn (some item.2)
  | .output => self.setRedirOut (some item.2)

theorem commandOf_snoc (items : List Item) (item : Item) : commandOf (items ++ [item]) = (commandOf items).store item := by
  obtain ⟨kind, w⟩ := item
  cases kind <;> simp [commandOf, texts_snoc, Scommand.store, Scommand.pushBack, Scommand.setRedirIn, Scommand.setRedirOut]

theorem foldl_store (done items : List Item) : items.foldl Scommand.store (commandOf done) = commandOf (done ++ items) := by
  induction items generalizing done with
  | nil => rw [List.append_nil, List.foldl_nil]
  | cons item rest ih =>
    rw [List.foldl_cons, ← commandOf_snoc, ih, List.append_assoc]
    rfl

theorem commandOf_length_eq_zero_iff (items : List Item) : (commandOf items).length = 0 ↔ ¬HasWord items := by
  unfold HasWord
  simp only [Scommand.length, commandOf, texts, List.length_eq_zero_iff, List.filterMap_eq_nil_iff,
    ite_eq_right_iff, reduceCtorEq, imp_false, not_exists, not_and]

/-- The first item of a command needs no blank before it. -/
theorem ItemsText.first {word : Char → Bool} {b t rest : Text} {item : Item} {items : List Item} (hb : Blanks b)
    (hitem : ItemText word item t) (hrest : ItemsText word true items rest) :
    ItemsText word false (item :: items) (b ++ t ++ rest) := .item hb nofun hitem hrest

theorem PipelineText.ne_nil {word : Char → Bool} {cmds : List (List Item)} {t : Text} (h : PipelineText word cmds t) :
    cmds ≠ [] := by
  cases h <;> simp

/-! ### Where a command ends -/

section
variable {word : Char → Bool}

theorem IsWord.head {w : Text} (h : IsWord word w) (rest : Text) : ∃ c, (w ++ rest).head? = some c ∧ word c = true := by
  obtain ⟨hne, hw⟩ := h
  obtain ⟨c, w', rfl⟩ := List.exists_cons_of_ne_nil hne
  exact ⟨c, rfl, hw c List.mem_cons_self⟩

/-- Whether the text after a word goes on with the word is seen from its first character. -/
theorem ItemsText.head_not_word {items : List Item} {t rest : Text} (h : ItemsText word true items t)
    (hplain : ∀ c, word c = true → isBlank c = false ∧ isSpecial c = false) (hrest : ∀ c ∈ rest.head?, word c = false) :
    ∀ c ∈ (t ++ rest).head?, word c = false := by
  have hblank : ∀ {b u : Text}, Blanks b → b ≠ [] → ∀ c ∈ (b ++ u).head?, word c = false := by
    intro b u hb hne c hc
    obtain ⟨d, b', rfl⟩ := List.exists_cons_of_ne_nil hne
    obtain rfl : d = c := Option.some.inj hc
    have := hb d List.mem_cons_self
    by_contra hword
    rw [(hplain d (by simpa using hword)).1] at this
    cases this
  cases h with
  | @done _ b hb =>
    by_cases hnil : t = []
    · rw [hnil]
      exact hrest
    · exact hblank hb hnil
  | @item _ b t' rest' item items hb hsep hitem hrest' =>
    by_cases hnil : b = []
    · subst hnil
      intro c hc
      cases hitem with
      | normal hw => exact absurd rfl (hsep rfl rfl)
      | input hb' hw =>
        obtain rfl : '<' = c := Option.some.inj hc
        by_contra hword
        cases (hplain '<' (by simpa using hword)).2
      | output hb' hw =>
        obtain rfl : '>' = c := Option.some.inj hc
        by_contra hword
        cases (hplain '>' (by simpa using hword)).2
    · rw [List.append_assoc, List.append_assoc]
      exact hblank hb hnil

/-! ### Reading an item -/

theorem readWord_word (kind : ArgKind) {b w rest : Text} (hplain : ∀ c, word c = true → isBlank c = false)
    (hb : Blanks b) (hw : IsWord word w) (hrest : ∀ c ∈ rest.head?, word c = false) :
    readWord word kind (b ++ (w ++ rest)) = (some w, kind, rest) := by
  have hhead : ∀ c ∈ (w ++ rest).head?, isBlank c = false := by
    intro c hc
    obtain ⟨d, hd, hword⟩ := hw.head rest
    rw [hd] at hc
    cases hc
    exact hplain c hword
  simp only [readWord, dropWhile_append_stop hb hhead, takeWhile_append_stop hw.2 hrest,
    dropWhile_append_stop hw.2 hrest, if_neg hw.1]

theorem readArgument_item {b t rest : Text} {item : Item}
    (hplain : ∀ c, word c = true → isBlank c = false ∧ isSpecial c = false) (hb : Blanks b)
    (hitem : ItemText word item t) (hrest : ∀ c ∈ rest.head?, word c = false) :
    readArgument word (b ++ t ++ rest) = (some item.2, item.1, rest) := by
  have hblank := fun c hc => (hplain c hc).1
  unfold readArgument
  cases hitem with
  | normal hw =>
    have hhead : ∀ c ∈ (t ++ rest).head?, isBlank c = false ∧ isRedir c = false := by
      intro c hc
      obtain ⟨d, hd, hword⟩ := hw.head rest
      rw [hd] at hc
      cases hc
      obtain ⟨hb, hs⟩ := hplain c hword
      simp only [isSpecial, Bool.or_eq_false_iff] at hs
      exact ⟨hb, hs.1.1.1⟩
    rw [List.append_assoc, dropWhile_append_stop hb fun c hc => (hhead c hc).1]
    have hread := readWord_word .normal (b := []) hblank (by simp [Blanks]) hw hrest
    split
    · next heq =>
      have := (hhead '<' (by rw [heq]; rfl)).2
      cases this
    · next heq =>
      have := (hhead '>' (by rw [heq]; rfl)).2
      cases this
    · exact hread
  | @input b' w hb' hw =>
    rw [List.append_assoc, dropWhile_append_stop hb (by simp [isBlank])]
    have hread := readWord_word .input hblank hb' hw hrest
    simpa using hread
  | @output b' w hb' hw =>
    rw [List.append_assoc, dropWhile_append_stop hb (by simp [isBlank])]
    have hread := readWord_word .output hblank hb' hw hrest
    simpa using hread

theorem readArgument_stop {b rest : Text} (hb : Blanks b) (hrest : Stops word rest) :
    readArgument word (b ++ rest) = (none, .normal, rest) := by
  have hdrop : ∀ u : Text, Blanks u → (u ++ rest).dropWhile isBlank = rest := fun u hu =>
    dropWhile_append_stop hu fun c hc => (hrest c hc).1
  unfold readArgument
  rw [hdrop b hb]
  split
  · exact absurd (hrest '<' rfl).2.2 (by simp [isRedir])
  · exact absurd (hrest '>' rfl).2.2 (by simp [isRedir])
  · have hnil : rest.dropWhile isBlank = rest := hdrop [] (by simp [Blanks])
    have htake : rest.takeWhile word = [] := by
      cases rest with
      | nil => rfl
      | cons c rest => rw [List.takeWhile_cons_of_neg (by simp [(hrest c rfl).2.1])]
    simp only [readWord, hnil, htake, if_pos]

theorem readArgument_dangling {b t rest : Text} (hb : Blanks b) (ht : Dangling word t rest) :
    ∃ kind, readArgument word (b ++ t) = (none, kind, rest) ∧ kind ≠ .normal := by
  obtain ⟨c, b', rfl, hc, hb', hrest⟩ := ht
  have hread : ∀ kind, readWord word kind (b' ++ rest) = (none, kind, rest) := by
    intro kind
    have htake : rest.takeWhile word = [] := by
      cases rest with
      | nil => rfl
      | cons d rest => rw [List.takeWhile_cons_of_neg (by simp [(hrest d rfl).2])]
    rw [readWord, dropWhile_append_stop hb' fun d hd => (hrest d hd).1, if_pos htake]
  have hdrop : (b ++ c :: (b' ++ rest)).dropWhile isBlank = c :: (b' ++ rest) := by
    refine dropWhile_append_stop hb fun d hd => ?_
    obtain rfl : c = d := Option.some.inj hd
    rcases Bool.or_eq_true_iff.mp hc with hlt | hgt
    · rw [beq_iff_eq.mp hlt]
      rfl
    · rw [beq_iff_eq.mp hgt]
      rfl
  unfold readArgument
  rw [hdrop]
  rcases Bool.or_eq_true_iff.mp hc with hlt | hgt
  · rw [beq_iff_eq.mp hlt]
    exact ⟨.input, hread _, nofun⟩
  · rw [beq_iff_eq.mp hgt]
    exact ⟨.output, hread _, nofun⟩

/-- What `parser_next_argument` read is one item, or the blanks before the end of the command. -/
def ItemRead (word : Char → Bool) (txt : Text) : Option Text × ArgKind × Text → Prop
  | (some w, kind, rest) => (∃ b t, txt = b ++ t ++ rest ∧ Blanks b ∧ ItemText word (kind, w) t) ∧
      ∀ c ∈ rest.head?, word c = false
  | (none, .normal, rest) => ∃ b, txt = b ++ rest ∧ Blanks b ∧ Stops word rest
  | (none, _, _) => True

theorem blanks_takeWhile (t : Text) : Blanks (t.takeWhile isBlank) := fun _ hc => List.mem_takeWhile_imp hc

theorem isWord_takeWhile {t : Text} (h : t.takeWhile word ≠ []) : IsWord word (t.takeWhile word) :=
  ⟨h, fun _ hc => List.mem_takeWhile_imp hc⟩

/-- The blanks, the word and what follows it. -/
theorem readWord_parts (word : Char → Bool) (t : Text) : t = t.takeWhile isBlank ++ ((t.dropWhile isBlank).takeWhile word ++
    (t.dropWhile isBlank).dropWhile word) := by
  rw [List.takeWhile_append_dropWhile, List.takeWhile_append_dropWhile]

/-- An argument is missing only after a redirection symbol. -/
theorem dangling_of_readArgument {txt rest : Text} {kind : ArgKind} (h : readArgument word txt = (none, kind, rest))
    (hkind : kind ≠ .normal) : ∃ b t, txt = b ++ t ∧ Blanks b ∧ Dangling word t rest := by
  have hsplit : txt = txt.takeWhile isBlank ++ txt.dropWhile isBlank := (List.takeWhile_append_dropWhile).symm
  refine ⟨txt.takeWhile isBlank, txt.dropWhile isBlank, hsplit, blanks_takeWhile txt, ?_⟩
  have hword : ∀ {c : Char} {u : Text} {k : ArgKind}, isRedir c = true → readWord word k u = (none, kind, rest) →
      Dangling word (c :: u) rest := by
    intro c u k hc hu
    unfold readWord at hu
    by_cases hnil : (u.dropWhile isBlank).takeWhile word = []
    · rw [if_pos hnil] at hu
      obtain rfl : u.dropWhile isBlank = rest := congrArg (fun r => r.2.2) hu
      refine ⟨c, u.takeWhile isBlank, by rw [List.takeWhile_append_dropWhile], hc, blanks_takeWhile u, fun d hd => ?_⟩
      refine ⟨head?_dropWhile d hd, ?_⟩
      by_contra hword
      obtain ⟨v, hv⟩ := List.head?_eq_some_iff.mp hd
      simp [hv, hword] at hnil
    · rw [if_neg hnil] at hu
      cases hu
  unfold readArgument at h
  split at h
  · next u hdrop =>
    rw [hdrop]
    exact hword rfl h
  · next u hdrop =>
    rw [hdrop]
    exact hword rfl h
  · simp only [readWord] at h
    split at h
    · cases h
      exact absurd rfl hkind
    · cases h

theorem readArgument_read (word : Char → Bool) (txt : Text) : ItemRead word txt (readArgument word txt) := by
  have hsplit : txt = txt.takeWhile isBlank ++ txt.dropWhile isBlank := (List.takeWhile_append_dropWhile).symm
  unfold readArgument
  split
  · next rest hdrop =>
    unfold readWord
    by_cases hnil : (rest.dropWhile isBlank).takeWhile word = []
    · rw [if_pos hnil]
      trivial
    · rw [if_neg hnil]
      refine ⟨⟨txt.takeWhile isBlank, _, ?_, blanks_takeWhile txt,
        .input (blanks_takeWhile rest) (isWord_takeWhile hnil)⟩, head?_dropWhile⟩
      conv => lhs; rw [hsplit, hdrop, readWord_parts word rest]
      simp
  · next rest hdrop =>
    unfold readWord
    by_cases hnil : (rest.dropWhile isBlank).takeWhile word = []
    · rw [if_pos hnil]
      trivial
    · rw [if_neg hnil]
      refine ⟨⟨txt.takeWhile isBlank, _, ?_, blanks_takeWhile txt,
        .output (blanks_takeWhile rest) (isWord_takeWhile hnil)⟩, head?_dropWhile⟩
      conv => lhs; rw [hsplit, hdrop, readWord_parts word rest]
      simp
  · next hlt hgt =>
    unfold readWord
    rw [List.dropWhile_idempotent]
    by_cases hnil : (txt.dropWhile isBlank).takeWhile word = []
    · rw [if_pos hnil]
      refine ⟨txt.takeWhile isBlank, hsplit, blanks_takeWhile txt, fun c hc => ⟨head?_dropWhile c hc, ?_, ?_⟩⟩
      · cases ht : txt.dropWhile isBlank with
        | nil => simp [ht] at hc
        | cons d t =>
          rw [ht] at hc hnil
          obtain rfl : d = c := Option.some.inj hc
          by_contra hword
          simp [hword] at hnil
      · obtain ⟨rest, hrest⟩ := List.head?_eq_some_iff.mp hc
        by_contra hredir
        simp only [isRedir, Bool.not_eq_false, Bool.or_eq_true, beq_iff_eq] at hredir
        rcases hredir with rfl | rfl
        · exact hlt rest hrest
        · exact hgt rest hrest
    · rw [if_neg hnil]
      refine ⟨⟨txt.takeWhile isBlank, _, ?_, blanks_takeWhile txt, .normal (isWord_takeWhile hnil)⟩, head?_dropWhile⟩
      rw [List.append_assoc]
      exact readWord_parts word txt

end

end LabSO.Shell

import LabSO.Shell.ParsingGrammar
import Mathlib

/-! `scommand_to_string` and `pipeline_to_string` against the grammar: what they print of commands made of plain words
    is a line that stands for these commands, so `parse_pipeline` gives them back. -/

namespace LabSO.Shell

variable {σ : Type} {L : ParserLib σ} {unread : σ → Text}

/-- A command that can be read back: it has strings, and all its strings and file names are words. -/
structure Printable (sc : Scommand) : Prop where
  nonempty : sc.command ≠ []
  command : ∀ s ∈ sc.command, IsWord plainWord s
  redirOut : ∀ s ∈ sc.redirOut, IsWord plainWord s
  redirIn : ∀ s ∈ sc.redirIn, IsWord plainWord s

/-- The items of a command in the order in which it is printed. -/
def itemsOf (sc : Scommand) : List Item :=
  sc.command.map (Prod.mk .normal) ++ sc.redirOut.toList.map (Prod.mk .output) ++ sc.redirIn.toList.map (Prod.mk .input)

def printItem : Item → Text
  | (.normal, w) => w
  | (.input, w) => "< ".toList ++ w
  | (.output, w) => "> ".toList ++ w

/-- Items after a word. -/
def printItems (items : List Item) : Text := items.flatMap fun item => ' ' :: printItem item

/-! ### Commands -/

theorem texts_append (kind : ArgKind) (items items' : List Item) :
    texts kind (items ++ items') = texts kind items ++ texts kind items' := List.filterMap_append

theorem texts_map (kind kind' : ArgKind) (l : List Text) :
    texts kind (l.map (Prod.mk kind')) = if kind' = kind then l else [] := by
  induction l with
  | nil => simp [texts]
  | cons w l ih =>
    unfold texts at ih ⊢
    rw [List.map_cons, List.filterMap_cons, ih]
    by_cases h : kind' = kind <;> simp [h]

theorem commandOf_itemsOf (sc : Scommand) : commandOf (itemsOf sc) = sc := by
  have hlast : ∀ o : Option Text, o.toList.getLast? = o := by
    intro o
    cases o <;> rfl
  simp [commandOf, itemsOf, texts_append, texts_map, hlast]

theorem itemText_printItem {item : Item} (h : IsWord plainWord item.2) : ItemText plainWord item (printItem item) := by
  obtain ⟨kind, w⟩ := item
  cases kind with
  | normal => exact .normal h
  | input => exact .input (b := [' ']) (by decide) h
  | output => exact .output (b := [' ']) (by decide) h

theorem itemsText_printItems {items : List Item} {b : Text} (h : ∀ item ∈ items, IsWord plainWord item.2) (hb : Blanks b) :
    ItemsText plainWord true items (printItems items ++ b) := by
  induction items with
  | nil => exact .done hb
  | cons item items ih =>
    have hitem := itemText_printItem (h item List.mem_cons_self)
    have hrest := ih fun item' hmem => h item' (List.mem_cons_of_mem _ hmem)
    have htext : ItemsText plainWord true (item :: items) ([' '] ++ printItem item ++ (printItems items ++ b)) :=
      .item (by decide) (by simp) hitem hrest
    simpa [printItems] using htext

theorem foldl_strings (l : List Text) (result : Text) :
    l.foldl (fun result arg => result ++ " ".toList ++ arg) result = result ++ printItems (l.map (Prod.mk .normal)) := by
  induction l generalizing result with
  | nil => simp [printItems]
  | cons w l ih =>
    rw [List.foldl_cons, ih]
    simp [printItems, printItem]

/-- What is printed of a command, as its first string and the items after it. -/
theorem toString_cons {sc : Scommand} {w : Text} {l : List Text} (h : sc.command = w :: l) :
    sc.toString = printItem (.normal, w) ++ printItems (l.map (Prod.mk .normal) ++ sc.redirOut.toList.map (Prod.mk .output) ++
      sc.redirIn.toList.map (Prod.mk .input)) := by
  rw [Scommand.toString, h]
  simp only [List.head?_cons, Option.getD_some, List.tail_cons, foldl_strings]
  cases sc.redirOut <;> cases sc.redirIn <;> simp [printItems, printItem]

theorem itemsText_toString {sc : Scommand} {b e : Text} (h : Printable sc) (hb : Blanks b) (he : Blanks e) :
    ItemsText plainWord false (itemsOf sc) (b ++ sc.toString ++ e) := by
  obtain ⟨w, l, hcommand⟩ := List.exists_cons_of_ne_nil h.nonempty
  have hwords : ∀ item ∈ itemsOf sc, IsWord plainWord item.2 := by
    intro item hmem
    simp only [itemsOf, List.mem_append, List.mem_map, Option.mem_toList] at hmem
    rcases hmem with (⟨s, hs, rfl⟩ | ⟨s, hs, rfl⟩) | ⟨s, hs, rfl⟩
    · exact h.command s hs
    · exact h.redirOut s hs
    · exact h.redirIn s hs
  rw [toString_cons hcommand]
  simp only [itemsOf, hcommand, List.map_cons, List.cons_append] at hwords ⊢
  have hrest := itemsText_printItems (fun item hmem => hwords item (List.mem_cons_of_mem _ hmem)) he
  have htext := ItemsText.first hb (itemText_printItem (hwords _ List.mem_cons_self)) hrest
  simpa using htext

/-! ### Pipelines -/

/-- The commands with a pipe between each two. -/
def printCommands : List Scommand → Text
  | [] => []
  | [sc] => sc.toString
  | sc :: rest => sc.toString ++ " | ".toList ++ printCommands rest

theorem toStringLoop_eq (length i : Nat) (sc : Scommand) (rest : List Scommand) (result : Text)
    (h : i + rest.length + 1 = length) :
    Pipeline.toStringLoop length i (sc :: rest) result = result ++ printCommands (sc :: rest) := by
  induction rest generalizing i sc result with
  | nil =>
    have hlast : i = length - 1 := by simp at h; omega
    simp [Pipeline.toStringLoop, printCommands, hlast]
  | cons sc' rest ih =>
    have hlast : i ≠ length - 1 := by simp at h; omega
    rw [Pipeline.toStringLoop, ih]
    · simp [printCommands, hlast]
    · simp at h
      omega

theorem pipeline_toString {p : Pipeline} (h : 2 ≤ p.length) :
    p.toString = printCommands p.scommands ++ if p.wait then [] else " & ".toList := by
  obtain ⟨scommands, wait⟩ := p
  match scommands, h with
  | sc :: sc' :: rest, _ =>
    have hloop := toStringLoop_eq (rest.length + 2) 1 sc' rest (sc.toString ++ " | ".toList) (by omega)
    have hprint : (⟨sc :: sc' :: rest, wait⟩ : Pipeline).toString =
        let result := Pipeline.toStringLoop (rest.length + 2) 1 (sc' :: rest) (sc.toString ++ " | ".toList)
        if !wait then result ++ " & ".toList else result := rfl
    rw [hprint, hloop]
    cases wait <;> simp [printCommands]

/-! ### Separators -/

/-- What stands between two commands. -/
def separator : Text := " | ".toList

/-- The commands in order with a separator between each two, and the background operator if the shell does not wait. -/
def joined (p : Pipeline) : Text :=
  separator.intercalate (p.scommands.map Scommand.toString) ++ if p.wait then [] else " & ".toList

/-- As many pipes as there are in the commands and in `k` separators. -/
def HasSeparators (p : Pipeline) (k : Nat) : Prop :=
  p.toString.count '|' = (p.scommands.map fun sc => sc.toString.count '|').sum + k

theorem printCommands_eq (scs : List Scommand) : printCommands scs = separator.intercalate (scs.map Scommand.toString) := by
  induction scs with
  | nil => rfl
  | cons sc rest ih =>
    cases rest with
    | nil => exact List.intercalate_singleton.symm
    | cons sc' rest =>
      have hjoin : separator.intercalate (sc.toString :: sc'.toString :: rest.map Scommand.toString) =
          sc.toString ++ separator ++ separator.intercalate (sc'.toString :: rest.map Scommand.toString) :=
        List.intercalate_cons_cons
      rw [printCommands, ih]
      · exact hjoin.symm
      · simp

theorem count_printCommands (scs : List Scommand) :
    (printCommands scs).count '|' = (scs.map fun sc => sc.toString.count '|').sum + (scs.length - 1) := by
  induction scs with
  | nil => rfl
  | cons sc rest ih =>
    cases rest with
    | nil => simp [printCommands]
    | cons sc' rest =>
      have hsep : " | ".toList.count '|' = 1 := by decide
      rw [printCommands, List.count_append, List.count_append, ih, hsep]
      · simp only [List.map_cons, List.sum_cons, List.length_cons]
        omega
      · simp

theorem toString_single (sc : Scommand) (wait : Bool) :
    (⟨[sc], wait⟩ : Pipeline).toString = sc.toString ++ separator ++ if wait then [] else " & ".toList := by
  cases wait <;> simp [Pipeline.toString, Pipeline.toStringLoop, Pipeline.getWait, separator]

/-- `pipeline_to_string` joins the commands with the separators between them, and emits one less than there are commands,
    exactly where the pipeline is not a single command. -/
theorem toString_eq_joined_iff (p : Pipeline) :
    (p.toString = joined p ↔ p.length ≠ 1) ∧ (HasSeparators p (p.length - 1) ↔ p.length ≠ 1) := by
  have hback : (if p.wait then [] else " & ".toList).count '|' = 0 := by cases p.wait <;> decide
  by_cases hone : p.length = 1
  · obtain ⟨scommands, wait⟩ := p
    obtain ⟨sc, rfl⟩ := List.length_eq_one_iff.mp hone
    have hjoined : joined ⟨[sc], wait⟩ = sc.toString ++ if wait then [] else " & ".toList :=
      congrArg (· ++ _) List.intercalate_singleton
    have hcount : " | ".toList.count '|' = 1 := by decide
    refine ⟨iff_of_false (fun heq => ?_) (not_not.mpr hone), iff_of_false (fun hsep => ?_) (not_not.mpr hone)⟩
    · have hlen := congrArg List.length (heq.symm.trans (toString_single sc wait))
      have hthree : separator.length = 3 := rfl
      rw [hjoined, List.length_append, List.length_append, List.length_append] at hlen
      omega
    · rw [HasSeparators, toString_single, List.count_append, List.count_append, hback, separator, hcount] at hsep
      simp [Pipeline.length] at hsep
  · have heq : p.toString = printCommands p.scommands ++ if p.wait then [] else " & ".toList := by
      by_cases hnil : p.length = 0
      · obtain ⟨scommands, wait⟩ := p
        obtain rfl := List.length_eq_zero_iff.mp hnil
        cases wait <;> rfl
      · exact pipeline_toString (by omega)
    refine ⟨iff_of_true ?_ hone, iff_of_true ?_ hone⟩
    · rw [heq, printCommands_eq, joined]
    · rw [HasSeparators, heq, List.count_append, count_printCommands, hback]
      rfl

/-- `ls` alone is printed with a pipe after it. -/
theorem not_joined_single : ¬∀ p : Pipeline, p.toString = joined p := by
  intro h
  have heq := h ⟨[⟨["ls".toList], none, none⟩], true⟩
  revert heq
  decide

/-! ### What is read back -/

theorem pipelineText_printCommands {scs : List Scommand} {b e : Text} (hne : scs ≠ []) (h : ∀ sc ∈ scs, Printable sc)
    (hb : Blanks b) (he : Blanks e) :
    PipelineText plainWord (scs.map itemsOf) (b ++ printCommands scs ++ e) := by
  induction scs generalizing b with
  | nil => exact absurd rfl hne
  | cons sc rest ih =>
    have hsc := h sc List.mem_cons_self
    cases rest with
    | nil => exact .last (itemsText_toString hsc hb he)
    | cons sc' rest =>
      have hrest := ih (b := [' ']) (by simp) (fun sc'' hmem => h sc'' (List.mem_cons_of_mem _ hmem)) (by decide)
      have htext := PipelineText.pipe (itemsText_toString (e := [' ']) hsc hb (by decide)) hrest
      simpa [printCommands] using htext

theorem lineText_toString {p : Pipeline} (hlen : 2 ≤ p.length) (h : ∀ sc ∈ p.scommands, Printable sc) (rest : Text) :
    LineText plainWord (p.scommands.map itemsOf) (!p.wait) (p.toString ++ '\n' :: rest) rest := by
  have hne : p.scommands ≠ [] := by
    rintro hnil
    simp [Pipeline.length, hnil] at hlen
  rw [pipeline_toString hlen]
  cases p.wait with
  | true =>
    have htext := pipelineText_printCommands (b := []) (e := []) hne h (by decide) (by decide)
    have hline := LineText.foreground htext (.newline rest)
    simpa using hline
  | false =>
    have htext := pipelineText_printCommands (b := []) (e := [' ']) hne h (by decide) (by decide)
    have hline := LineText.background (b := [' ']) htext (by decide) (.newline rest)
    simpa using hline

theorem hasWord_itemsOf {sc : Scommand} (h : Printable sc) : HasWord (itemsOf sc) := by
  obtain ⟨w, l, hcommand⟩ := List.exists_cons_of_ne_nil h.nonempty
  exact ⟨(.normal, w), by simp [itemsOf, hcommand], rfl⟩

theorem pipelineOf_itemsOf (scs : List Scommand) (wait : Bool) : pipelineOf (scs.map itemsOf) (!wait) = ⟨scs, wait⟩ := by
  simp [pipelineOf, Function.comp_def, commandOf_itemsOf]

/-- Printing and then parsing gives back a command, as a pipeline of its own, and a pipeline of two or more. -/
theorem parsePipeline_toString (h : L.Documented unread plainWord) (fuel : Nat) (p : σ) (rest : Text)
    (hfuel : (unread p).length < fuel) :
    (∀ sc, Printable sc → unread p = sc.toString ++ '\n' :: rest →
      ∃ q, parsePipeline L fuel p = .ok (some ⟨[sc], true⟩, "", q) ∧ unread q = rest) ∧
    ∀ pl : Pipeline, 2 ≤ pl.length → (∀ sc ∈ pl.scommands, Printable sc) → unread p = pl.toString ++ '\n' :: rest →
      ∃ q, parsePipeline L fuel p = .ok (some pl, "", q) ∧ unread q = rest := by
  refine ⟨fun sc hsc hp => ?_, fun pl hlen hall hp => ?_⟩
  · have htext := itemsText_toString (b := []) (e := []) hsc (by decide) (by decide)
    have hline : LineText plainWord [itemsOf sc] false (unread p) rest := by
      rw [hp]
      simpa using LineText.foreground (.last htext) (.newline rest)
    have hwords : ∀ items ∈ [itemsOf sc], HasWord items := by
      intro items hmem
      obtain rfl := List.mem_singleton.mp hmem
      exact hasWord_itemsOf hsc
    have hrun := parsePipeline_of_line h hline hwords hfuel
    have hpipeline : pipelineOf [itemsOf sc] false = ⟨[sc], true⟩ := pipelineOf_itemsOf [sc] true
    rwa [hpipeline] at hrun
  · have hline := lineText_toString hlen hall rest
    rw [← hp] at hline
    have hwords : ∀ items ∈ pl.scommands.map itemsOf, HasWord items := by
      intro items hmem
      obtain ⟨sc, hsc, rfl⟩ := List.mem_map.mp hmem
      exact hasWord_itemsOf (hall sc hsc)
    have hrun := parsePipeline_of_line h hline hwords hfuel
    rwa [pipelineOf_itemsOf] at hrun

/-- `cat < a`. -/
def cat : Scommand := ⟨["cat".toList], none, some "a".toList⟩

/-- `cat < a | wc -l > n &`. -/
def catWc : Pipeline := ⟨[cat, ⟨["wc".toList, "-l".toList], some "n".toList, none⟩], false⟩

theorem cat_printable : Printable cat := ⟨by decide, by decide, by decide, by decide⟩

theorem catWc_printable : ∀ sc ∈ catWc.scommands, Printable sc := by
  intro sc hmem
  rcases List.mem_cons.mp hmem with rfl | hmem
  · exact cat_printable
  · obtain rfl := List.mem_singleton.mp hmem
    exact ⟨by decide, by decide, by decide, by decide⟩

theorem parsePipeline_toString_catWc :
    (∃ q, parsePipeline (textParser plainWord) 100 (cat.toString ++ '\n' :: "ls\n".toList) = .ok (some ⟨[cat], true⟩, "", q) ∧
      q = "ls\n".toList) ∧
    ∃ q, parsePipeline (textParser plainWord) 100 (catWc.toString ++ '\n' :: "ls\n".toList) = .ok (some catWc, "", q) ∧
      q = "ls\n".toList :=
  ⟨(parsePipeline_toString (textParser_documented plainWord_plain) 100 _ _ (by decide)).1 cat cat_printable rfl,
    (parsePipeline_toString (textParser_documented plainWord_plain) 100 _ _ (by decide)).2 catWc (by decide)
      catWc_printable rfl⟩

end LabSO.Shell

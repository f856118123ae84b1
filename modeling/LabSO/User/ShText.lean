import LabSO.User.ShForms
import Mathlib.Data.List.GetD

/-! A line is parsed back to its tree, and after `nulterminate` the tree has its words as C strings in the line. -/

namespace LabSO.Sh
open Rounds

/-! ### A line for each tree -/

/-- Simple commands with words, but not with too many, and words and files that can stand in a line. -/
def Tree.Plain : Tree → Prop
  | .exec words => words ≠ [] ∧ words.length < MAXARGS ∧ ∀ w ∈ words, Sh.Plain w
  | .redir t _ file => t.Plain ∧ Sh.Plain file
  | .pipe l r => l.Plain ∧ r.Plain
  | .list l r => l.Plain ∧ r.Plain
  | .back t => t.Plain

def parens (b : Bool) (toks : List Tok) : List Tok :=
  if b then .symbol '(' :: (toks ++ [.symbol ')']) else toks

/-- The tokens of a tree, in parentheses if it is not a simple command or not a pipeline where one must be. -/
def Tree.toks : Tree → Pos → List Tok
  | .exec words, _ => words.map .word
  | .redir t kind file, _ => t.toks .simple ++ [kind.tok, .word file]
  | .pipe l r, p => parens (p = .simple) (l.toks .simple ++ .symbol '|' :: r.toks .pipe)
  | .list l r, p => parens (p ≠ .line) (l.toks .back ++ .symbol ';' :: r.toks .line)
  | .back t, p => parens (p = .simple ∨ p = .pipe) (t.toks .back ++ [.symbol '&'])

/-- With a blank before each token. -/
def Tree.text (t : Tree) : List Char := (t.toks .line).flatMap fun tok => ' ' :: tok.chars

variable {mem mem' : Mem} {es s : Nat} {c : Cmd} {t : Tree} {toks : List Tok} {text w : List Char} {p : Pos}

theorem Form.redir (h : Form .simple t toks) (kind : Kind) (file : List Char) :
    Form .simple (.redir t kind file) (toks ++ [kind.tok, .word file]) := by
  cases h with
  | exec items hpos hmax =>
    have hcount : (items ++ [Item.redir kind file]).countP Item.isWord = items.countP Item.isWord := by simp [Item.isWord]
    have hexec := Form.exec (items ++ [Item.redir kind file]) (by rwa [hcount]) (by rwa [hcount])
    rw [List.foldl_append, List.flatMap_append, List.flatMap_singleton] at hexec
    exact hexec
  | block h rs =>
    have hblock := h.block (rs ++ [(kind, file)])
    rw [List.foldl_append, List.flatMap_append, List.flatMap_singleton] at hblock
    simpa using hblock

theorem Form.of_simple (h : Form .simple t toks) (p : Pos) : Form p t toks := by
  have hback : Form .back t toks := by simpa using h.simple.back 0
  cases p with
  | simple => exact h
  | pipe => exact h.simple
  | back => exact hback
  | line => exact hback.item

theorem Form.parens (h : Form .line t toks) (p : Pos) : Form p t (.symbol '(' :: (toks ++ [.symbol ')'])) :=
  (h.block []).of_simple p

theorem Form.succ (h : Form .back t toks) : Form .back (.back t) (toks ++ [.symbol '&']) := by
  cases h with
  | back h n =>
    have hsucc := h.back (n + 1)
    rw [Function.iterate_succ_apply', List.replicate_succ', ← List.append_assoc] at hsucc
    exact hsucc

theorem form_exec {words : List (List Char)} (hpos : words ≠ []) (hmax : words.length < MAXARGS) :
    Form .simple (.exec words) (words.map .word) := by
  have htree : ∀ (ws vs : List (List Char)), (ws.map Item.word).foldl Item.add (.exec vs) = .exec (vs ++ ws) := by
    intro ws
    induction ws with
    | nil => exact fun vs => by rw [List.append_nil]; rfl
    | cons w ws ih =>
      intro vs
      rw [List.map_cons, List.foldl_cons]
      show (ws.map Item.word).foldl Item.add (.exec (vs ++ [w])) = _
      rw [ih, List.append_assoc, List.singleton_append]
  have htoks : (words.map Item.word).flatMap Item.toks = words.map .word := by
    rw [List.flatMap_map, List.map_eq_flatMap]
    rfl
  have hcount : (words.map Item.word).countP Item.isWord = words.length := by
    rw [List.countP_map]
    exact congrFun List.countP_true words
  have hexec := Form.exec (words.map Item.word) (by rw [hcount]; exact List.length_pos_iff.mpr hpos) (by rwa [hcount])
  rwa [htree, htoks] at hexec

/-- Each tree has a form in each place. -/
theorem form_toks (t : Tree) (ht : t.Plain) (p : Pos) : Form p t (t.toks p) := by
  induction t generalizing p with
  | exec words => exact (form_exec ht.1 ht.2.1).of_simple p
  | redir t kind file ih => exact ((ih ht.1 .simple).redir kind file).of_simple p
  | pipe l r ihl ihr =>
    have hpipe := (ihl ht.1 .simple).pipe (ihr ht.2 .pipe)
    have hback : Form .back (.pipe l r) _ := hpipe.back 0
    rw [List.replicate_zero, List.append_nil] at hback
    cases p with
    | simple => exact hback.item.parens .simple
    | pipe => exact hpipe
    | back => exact hback
    | line => exact hback.item
  | list l r ihl ihr =>
    have hlist := (ihl ht.1 .back).list (ihr ht.2 .line)
    cases p with
    | line => exact hlist
    | _ => exact hlist.parens _
  | back t ih =>
    have hback := (ih ht .back).succ
    cases p with
    | simple => exact hback.item.parens .simple
    | pipe => exact hback.item.parens .pipe
    | back => exact hback
    | line => exact hback.item

theorem ok_parens {b : Bool} (h : ∀ tok ∈ toks, tok.Ok) : ∀ tok ∈ Sh.parens b toks, tok.Ok := by
  have hopen : (Tok.symbol '(').Ok := show '(' ∈ symbols by decide
  have hclose : (Tok.symbol ')').Ok := show ')' ∈ symbols by decide
  cases b with
  | false => exact h
  | true =>
    intro tok htok
    rcases List.mem_cons.mp htok with rfl | htok
    · exact hopen
    · rcases List.mem_append.mp htok with htok | htok
      · exact h tok htok
      · obtain rfl := List.mem_singleton.mp htok
        exact hclose

theorem ok_append {l m : List Tok} (hl : ∀ tok ∈ l, tok.Ok) (hm : ∀ tok ∈ m, tok.Ok) : ∀ tok ∈ l ++ m, tok.Ok :=
  fun tok htok => (List.mem_append.mp htok).elim (hl tok) (hm tok)

theorem ok_cons {tok : Tok} (htok : tok.Ok) (h : ∀ tok ∈ toks, tok.Ok) : ∀ tok' ∈ tok :: toks, tok'.Ok :=
  List.forall_mem_cons.mpr ⟨htok, h⟩

theorem Kind.tok_ok (kind : Kind) : kind.tok.Ok := by
  cases kind
  · exact show '<' ∈ symbols by decide
  · exact show '>' ∈ symbols by decide
  · exact trivial

theorem ok_toks (t : Tree) (ht : t.Plain) (p : Pos) : ∀ tok ∈ t.toks p, tok.Ok := by
  induction t generalizing p with
  | exec words =>
    intro tok htok
    obtain ⟨w, hw, rfl⟩ := List.mem_map.mp htok
    exact ht.2.2 w hw
  | redir t kind file ih => exact ok_append (ih ht.1 .simple) (ok_cons kind.tok_ok (ok_cons ht.2 nofun))
  | pipe l r ihl ihr => exact ok_parens (ok_append (ihl ht.1 _) (ok_cons (show '|' ∈ symbols by decide) (ihr ht.2 _)))
  | list l r ihl ihr => exact ok_parens (ok_append (ihl ht.1 _) (ok_cons (show ';' ∈ symbols by decide) (ihr ht.2 _)))
  | back t ih => exact ok_parens (ok_append (ih ht _) (ok_cons (show '&' ∈ symbols by decide) nofun))

/-- Tokens with a blank before each of them. -/
theorem spell_blanks (h : ∀ tok ∈ toks, tok.Ok) : Spell toks (toks.flatMap fun tok => ' ' :: tok.chars) := by
  induction toks with
  | nil => exact .nil nofun
  | cons tok toks ih =>
    obtain ⟨hok, hrest⟩ := List.forall_mem_cons.mp h
    have hends : tok.Ends (toks.flatMap fun tok => ' ' :: tok.chars) := by
      cases tok with
      | word w => cases toks <;> simp [Tok.Ends, plain, whitespace]
      | symbol c => cases toks <;> simp [Tok.Ends, nul]
      | append => exact trivial
    exact .cons (show ∀ c ∈ [' '], c ∈ whitespace from forall_of_all rfl) hok hends (ih hrest)

theorem spell_text (ht : t.Plain) : Spell (t.toks .line) t.text := spell_blanks (ok_toks t ht .line)

/-! ### The strings of the tree -/

/-- At `q` there is `w`, and then a NUL. -/
structure CString (mem : Mem) (q : Nat) (w : List Char) : Prop where
  chars : ∀ i (hi : i < w.length), mem (q + i) = w[i]
  stop : mem (q + w.length) = nul
  nul_notMem : nul ∉ w

/-- Where `nulterminate` writes. -/
def Cmd.ends : Cmd → List Nat
  | .exec argv => argv.map Prod.snd
  | .redir cmd file _ _ => file.2 :: cmd.ends
  | .pipe left right => left.ends ++ right.ends
  | .list left right => left.ends ++ right.ends
  | .back cmd => cmd.ends

theorem foldl_update (argv : List (Nat × Nat)) (mem : Mem) (x : Nat) :
    argv.foldl (fun mem arg => Function.update mem arg.2 nul) mem x = if x ∈ argv.map Prod.snd then nul else mem x := by
  induction argv generalizing mem with
  | nil => rfl
  | cons arg argv ih =>
    rw [List.foldl_cons, ih, List.map_cons]
    rcases eq_or_ne x arg.2 with rfl | hne
    · rw [Function.update_self, ite_self, if_pos List.mem_cons_self]
    · rw [Function.update_of_ne hne]
      simp only [List.mem_cons, hne, false_or]

theorem nulterminate_eq (mem : Mem) (c : Cmd) (x : Nat) : nulterminate mem c x = if x ∈ c.ends then nul else mem x := by
  have hboth : ∀ (l m : List Nat) (a : Char),
      (if x ∈ m then nul else if x ∈ l then nul else a) = if x ∈ l ++ m then nul else a := by
    intro l m a
    by_cases hl : x ∈ l <;> by_cases hm : x ∈ m <;> simp [hl, hm]
  induction c generalizing mem with
  | exec argv => exact foldl_update argv mem x
  | redir cmd file mode fd ih =>
    rw [nulterminate, Cmd.ends]
    rcases eq_or_ne x file.2 with rfl | hne
    · rw [Function.update_self, if_pos List.mem_cons_self]
    · rw [Function.update_of_ne hne, ih]
      simp only [List.mem_cons, hne, false_or]
  | pipe left right ihl ihr => rw [nulterminate, ihr, ihl, Cmd.ends, hboth]
  | list left right ihl ihr => rw [nulterminate, ihr, ihl, Cmd.ends, hboth]
  | back cmd ih => exact ih mem

theorem Word.cstring {a : Nat × Nat} (h : Word mem a w) (hsame : ∀ x, Sh.plain (mem x) = true → mem' x = mem x)
    (hend : mem' a.2 = nul) : CString mem' a.1 w := by
  refine ⟨fun i hi => ?_, ?_, fun hmem => ?_⟩
  · have hplain : Sh.plain (mem (a.1 + i)) = true := by
      rw [h.chars i hi]
      exact h.plain.2 _ (List.getElem_mem hi)
    rw [hsame _ hplain]
    exact h.chars i hi
  · rw [← h.stop]
    exact hend
  · exact absurd (h.plain.2 nul hmem) (by decide)

/-- No character of a word is written to. -/
theorem ends_not_plain (h : Matches (Word mem) c t) : ∀ x ∈ c.ends, plain (mem x) = false := by
  induction h with
  | exec h =>
    obtain ⟨hall, -⟩ := (List.forall₂_and_left _ _).mp (h.imp fun a w hw => ⟨(hw.ends : plain (mem a.2) = false), hw⟩)
    exact List.forall_mem_map.mpr hall
  | redir _ hfile ih => exact List.forall_mem_cons.mpr ⟨hfile.ends, ih⟩
  | pipe _ _ ihl ihr => exact fun x hx => (List.mem_append.mp hx).elim (ihl x) (ihr x)
  | list _ _ ihl ihr => exact fun x hx => (List.mem_append.mp hx).elim (ihl x) (ihr x)
  | back _ ih => exact ih

theorem matches_cstring (h : Matches (Word mem) c t) (hsame : ∀ x, plain (mem x) = true → mem' x = mem x)
    (hend : ∀ x ∈ c.ends, mem' x = nul) : Matches (fun a w => CString mem' a.1 w) c t := by
  induction h with
  | exec h =>
    have hall := (List.forall₂_and_left _ _).mpr ⟨List.forall_mem_map.mp hend, h⟩
    exact .exec (hall.imp fun a w hw => hw.2.cstring hsame hw.1)
  | redir _ hfile ih =>
    obtain ⟨hlast, hrest⟩ := List.forall_mem_cons.mp hend
    exact (ih hrest).redir (hfile.cstring hsame hlast)
  | pipe _ _ ihl ihr =>
    exact (ihl fun x hx => hend x (List.mem_append_left _ hx)).pipe (ihr fun x hx => hend x (List.mem_append_right _ hx))
  | list _ _ ihl ihr =>
    exact (ihl fun x hx => hend x (List.mem_append_left _ hx)).list (ihr fun x hx => hend x (List.mem_append_right _ hx))
  | back _ ih => exact (ih hend).back

theorem matches_nulterminate (h : Matches (Word mem) c t) :
    Matches (fun a w => CString (nulterminate mem c) a.1 w) c t := by
  refine matches_cstring h (fun x hx => ?_) fun x hx => ?_
  · have hne : x ∉ c.ends := fun hmem => Bool.false_ne_true ((ends_not_plain h x hmem).symm.trans hx)
    rw [nulterminate_eq, if_neg hne]
  · rw [nulterminate_eq, if_pos hx]

/-! ### The whole line -/

theorem CString.holds (h : CString mem s text) : Holds mem (s + text.length) s text := by
  obtain ⟨hchars, hstop, -⟩ := h
  induction text generalizing s with
  | nil => exact ⟨rfl, hstop⟩
  | cons c text ih =>
    have hlength : s + (c :: text).length = s + 1 + text.length := by
      rw [List.length_cons]
      omega
    rw [hlength] at hstop ⊢
    refine ⟨hchars 0 (Nat.succ_pos _), ih (fun i hi => ?_) hstop⟩
    have hchar := hchars (i + 1) (Nat.succ_lt_succ hi)
    rwa [← Nat.add_assoc, Nat.add_right_comm] at hchar

theorem strlen_eq (h : Holds mem es s text) (hnul : nul ∉ text) : Eventually (strlen mem s) text.length := by
  induction text generalizing s with
  | nil =>
    refine (Eventually.pure 0).succ fun n => ?_
    rw [strlen, if_pos (show mem s = nul from h.head)]
  | cons c text ih =>
    obtain ⟨hc, hrest⟩ := List.mem_cons.not.mp hnul |> not_or.mp
    refine ((ih h.2 hrest).bind (g := fun _ k => .ok (k + 1)) (Eventually.pure _)).succ fun n => ?_
    rw [strlen, if_neg (by rw [h.1]; exact fun heq => hc heq.symm)]
    cases strlen mem (s + 1) n <;> rfl

/-- Each tree has a line, and `parsecmd` gives back the tree from each of its lines. -/
theorem parsecmd_text (t : Tree) (ht : t.Plain) :
    (Form .line t (t.toks .line) ∧ Spell (t.toks .line) t.text) ∧
      ∀ (toks : List Tok) (text : List Char) (mem : Mem) (s : Nat), Form .line t toks → Spell toks text → CString mem s text →
        ∃ c mem', Eventually (parsecmd · mem s) (c, mem') ∧ Matches (fun a w => CString mem' a.1 w) c t := by
  refine ⟨⟨form_toks t ht .line, spell_text ht⟩, fun toks text mem s hform hspell hstr => ?_⟩
  have hat : At mem (s + text.length) s (toks ++ []) := ⟨text, hstr.holds, by rwa [List.append_nil]⟩
  obtain ⟨c, s', hline, hmatch, hat'⟩ := parse_form hform hat (show nul ∈ Pos.line.follow by decide)
  have hpeek := peek_false [] hat' nofun List.not_mem_nil
  refine ⟨c, nulterminate mem c, (strlen_eq hstr.holds hstr.nul_notMem).bind (Eventually.bind hline ?_), matches_nulterminate hmatch⟩
  simp only [hpeek, (skip_nil hat').1, ne_eq, not_true_eq_false, if_false]
  exact Eventually.pure _

/-- A memory with nothing but a line. -/
def memOf (text : List Char) : Mem := fun x => text.getD x nul

theorem cstring_memOf (h : nul ∉ text) : CString (memOf text) 0 text := by
  refine ⟨fun i hi => ?_, ?_, h⟩
  · rw [Nat.zero_add, memOf, List.getD_eq_getElem _ _ hi]
  · rw [Nat.zero_add, memOf, List.getD_eq_default _ _ (Nat.le_refl _)]

/-- `cat < f | wc l >> g & ; ls`. -/
def sample : Tree :=
  .list (.back (.pipe (.redir (.exec [['c', 'a', 't']]) .input ['f']) (.redir (.exec [['w', 'c'], ['l']]) .append ['g'])))
    (.exec [['l', 's']])

theorem parsecmd_text_sample : ∃ c mem', Eventually (parsecmd · (memOf sample.text) 0) (c, mem') ∧
    Matches (fun a w => CString mem' a.1 w) c sample := by
  have hplain : sample.Plain := by
    simp only [sample, Tree.Plain]
    exact ⟨⟨⟨⟨by decide, by decide, by decide⟩, by decide⟩, ⟨by decide, by decide, by decide⟩, by decide⟩, by decide, by decide,
      by decide⟩
  obtain ⟨⟨hform, hspell⟩, hparse⟩ := parsecmd_text sample hplain
  exact hparse _ _ _ 0 hform hspell (cstring_memOf hspell.nul_notMem)

end LabSO.Sh

import LabSO.Lib.Rounds
import LabSO.User.ShTokens
import Mathlib.Data.List.Forall2
import Mathlib.Logic.Function.Iterate

/-! Trees of commands, the lines that stand for them, and what the parser makes of such a line. -/

namespace LabSO.Sh
open Rounds

inductive Kind
  | input
  | output
  | append
deriving DecidableEq, Repr

namespace Kind

def tok : Kind → Tok
  | input => .symbol '<'
  | output => .symbol '>'
  | append => .append

def mode : Kind → Nat
  | input => O_RDONLY
  | output => O_WRONLY ||| O_CREATE ||| O_TRUNC
  | append => O_WRONLY ||| O_CREATE

def fd : Kind → Nat
  | input => 0
  | _ => 1

end Kind

/-- A command, with its words. -/
inductive Tree
  | exec (words : List (List Char))
  | redir (cmd : Tree) (kind : Kind) (file : List Char)
  | pipe (left right : Tree)
  | list (left right : Tree)
  | back (cmd : Tree)
deriving DecidableEq, Repr

/-- The two have the same shape, with the same redirections, and their strings are related by `R`. -/
inductive Matches (R : Nat × Nat → List Char → Prop) : Cmd → Tree → Prop
  | exec {argv : List (Nat × Nat)} {words : List (List Char)} (h : List.Forall₂ R argv words) : Matches R (.exec argv) (.exec words)
  | redir {cmd : Cmd} {t : Tree} {file : Nat × Nat} {kind : Kind} {w : List Char} (h : Matches R cmd t) (hfile : R file w) :
      Matches R (.redir cmd file kind.mode kind.fd) (.redir t kind w)
  | pipe {left right : Cmd} {l r : Tree} (hl : Matches R left l) (hr : Matches R right r) : Matches R (.pipe left right) (.pipe l r)
  | list {left right : Cmd} {l r : Tree} (hl : Matches R left l) (hr : Matches R right r) : Matches R (.list left right) (.list l r)
  | back {cmd : Cmd} {t : Tree} (h : Matches R cmd t) : Matches R (.back cmd) (.back t)

/-! ### The lines for a tree -/

/-- A word more for the simple command that the redirections are around. -/
def Tree.addWord : Tree → List Char → Tree
  | .exec words, w => .exec (words ++ [w])
  | .redir t kind file, w => .redir (t.addWord w) kind file
  | t, _ => t

/-- What a simple command consists of; redirections may come between its words. -/
inductive Item
  | word (w : List Char)
  | redir (kind : Kind) (file : List Char)

namespace Item

def toks : Item → List Tok
  | word w => [.word w]
  | redir kind file => [kind.tok, .word file]

def add (t : Tree) : Item → Tree
  | word w => t.addWord w
  | redir kind file => .redir t kind file

def isWord : Item → Bool
  | word _ => true
  | redir _ _ => false

end Item

/-- The places in a line: what `parseexec`, `parsepipe` and `parseline` read, and before a `;`. -/
inductive Pos
  | simple
  | pipe
  | back
  | line
deriving DecidableEq, Repr

/-- The lists of tokens that stand for a tree in a place. A sub-tree may be in parentheses anywhere, and it is where it is no
    form of the place. -/
inductive Form : Pos → Tree → List Tok → Prop
  | exec (items : List Item) (hpos : 0 < items.countP Item.isWord) (hmax : items.countP Item.isWord < MAXARGS) :
      Form .simple (items.foldl Item.add (.exec [])) (items.flatMap Item.toks)
  | block {t : Tree} {toks : List Tok} (h : Form .line t toks) (rs : List (Kind × List Char)) :
      Form .simple (rs.foldl (fun t r => .redir t r.1 r.2) t)
        (.symbol '(' :: (toks ++ .symbol ')' :: rs.flatMap fun r => [r.1.tok, .word r.2]))
  | simple {t : Tree} {toks : List Tok} (h : Form .simple t toks) : Form .pipe t toks
  | pipe {l r : Tree} {ls rs : List Tok} (hl : Form .simple l ls) (hr : Form .pipe r rs) :
      Form .pipe (.pipe l r) (ls ++ .symbol '|' :: rs)
  | back {t : Tree} {toks : List Tok} (h : Form .pipe t toks) (n : Nat) :
      Form .back (Tree.back^[n] t) (toks ++ List.replicate n (.symbol '&'))
  | item {t : Tree} {toks : List Tok} (h : Form .back t toks) : Form .line t toks
  | list {l r : Tree} {ls rs : List Tok} (hl : Form .back l ls) (hr : Form .line r rs) :
      Form .line (.list l r) (ls ++ .symbol ';' :: rs)

/-! ### What the parser makes of them -/

variable {mem : Mem} {es s s₁ s₂ : Nat} {c c' : Cmd} {t : Tree} {tok : Tok} {toks rest : List Tok} {R : Nat × Nat → List Char → Prop}
  {a : Nat × Nat} {w : List Char}

theorem Matches.addArg (h : Matches R c t) (ha : R a w) : Matches R (c.addArg a) (t.addWord w) := by
  induction h with
  | exec h => exact .exec (List.rel_append h (.cons ha .nil))
  | redir _ hfile ih => exact .redir ih hfile
  | pipe hl hr => exact .pipe hl hr
  | list hl hr => exact .list hl hr
  | back h => exact .back h

theorem At.eq_nil (h : At mem es s toks) (hfirst : first toks = nul) : toks = [] := by
  cases toks with
  | nil => rfl
  | cons tok toks =>
    obtain ⟨l, -, hok, -⟩ := skip_cons h
    exact absurd hfirst (Tok.first_ne hok).1

theorem At.word_notMem {set : List Char} (h : At mem es s (.word w :: toks)) (hset : set ⊆ symbols) :
    first (.word w :: toks) ∉ set := by
  obtain ⟨l, -, hok, -⟩ := skip_cons h
  obtain ⟨c, w, rfl⟩ := List.exists_cons_of_ne_nil hok.1
  obtain ⟨-, -, hsym⟩ := plain_iff.mp (hok.2 c List.mem_cons_self)
  exact fun hmem => hsym (hset hmem)

theorem follow_notMem : ∀ c ∈ [nul, '|', ')', '&', ';'], c ∉ ['<', '>'] := forall_of_all rfl

theorem Kind.first_tok (kind : Kind) : kind.tok.first = '<' ∨ kind.tok.first = '>' := by
  cases kind
  · exact .inl rfl
  · exact .inr rfl
  · exact .inr rfl

/-- One redirection. -/
theorem parseredirs_cons (kind : Kind) (file : List Char) (hat : At mem es s (kind.tok :: .word file :: toks)) :
    ∃ a s', Word mem a file ∧ At mem es s' toks ∧
      ∀ n c, parseredirs mem es (n + 1) c s = parseredirs mem es n (.redir c a kind.mode kind.fd) s' := by
  obtain ⟨hskip, -⟩ := skip_at hat
  obtain ⟨q₁, eq₁, s₁, htok, hat₁, -⟩ := gettoken_cons hskip
  obtain ⟨q, eq, s', hword, hat', hw⟩ := gettoken_cons hat₁
  refine ⟨(q, eq), s', hw file rfl, hat', fun n c => ?_⟩
  have hpeek := peek_at ['<', '>'] hat (by decide)
  have hmore : ['<', '>'].contains (first (kind.tok :: .word file :: toks)) = true := by
    rcases kind.first_tok with h | h <;> simp [first, h]
  rw [parseredirs, hpeek, hmore]
  simp only [if_true, htok, hword]
  cases kind <;> rfl

theorem parseredirs_nil (hat : At mem es s toks) (hfirst : first toks ∉ ['<', '>']) (n : Nat) (c : Cmd) :
    parseredirs mem es (n + 1) c s = .ok (c, skip mem es s) := by
  have hpeek := peek_at ['<', '>'] hat (by decide)
  rw [parseredirs, hpeek]
  simp [hfirst]

/-- The redirections after a block. -/
theorem parseredirs_form (rs : List (Kind × List Char)) (hat : At mem es s ((rs.flatMap fun r => [r.1.tok, .word r.2]) ++ rest))
    (hrest : first rest ∉ ['<', '>']) (hc : Matches (Word mem) c t) :
    ∃ c' s', Eventually (parseredirs mem es · c s) (c', s') ∧ Matches (Word mem) c' (rs.foldl (fun t r => .redir t r.1 r.2) t) ∧
      At mem es s' rest := by
  induction rs generalizing s c t with
  | nil =>
    refine ⟨c, skip mem es s, (Eventually.pure _).succ fun n => parseredirs_nil hat hrest n c, hc, (skip_at hat).1⟩
  | cons r rs ih =>
    obtain ⟨a, s₁, hword, hat₁, hstep⟩ := parseredirs_cons r.1 r.2 hat
    obtain ⟨c', s', hev, hmatch, hat'⟩ := ih hat₁ (hc.redir hword)
    exact ⟨c', s', hev.succ fun n => hstep n c, hmatch, hat'⟩

/-- One word of a simple command; it is not the one too many. -/
theorem parseargs_cons (hat : At mem es s (.word w :: toks)) :
    ∃ a s', Word mem a w ∧ At mem es s' toks ∧ ∀ n c argc, argc + 1 < MAXARGS →
      parseargs mem es (n + 1) c argc s = parseredirs mem es n (c.addArg a) s' >>= fun r => parseargs mem es n r.1 (argc + 1) r.2 := by
  obtain ⟨q, eq, s', htok, hat', hw⟩ := gettoken_cons (skip_at hat).1
  refine ⟨(q, eq), s', hw w rfl, hat', fun n c argc hargc => ?_⟩
  have hpeek := peek_at ['|', ')', '&', ';'] hat (by decide)
  have hgo : ['|', ')', '&', ';'].contains (first (.word w :: toks)) = false :=
    Bool.eq_false_iff.mpr fun hmem => hat.word_notMem (by decide) (List.contains_iff_mem.mp hmem)
  rw [parseargs, hpeek, hgo]
  have hcode : (Tok.word w).code = 'a' := rfl
  simp only [htok, hcode, if_neg (show ¬('a' = nul) by decide), if_neg (show ¬(argc + 1 ≥ MAXARGS) by omega)]
  rfl

/-- The tokens after a simple command. -/
theorem parseargs_nil (hat : At mem es s toks) (hfirst : first toks ∈ [nul, '|', ')', '&', ';']) (c : Cmd) (argc : Nat) :
    ∃ s', At mem es s' toks ∧ ∀ n, parseargs mem es (n + 1) c argc s = .ok (c, s') := by
  have hpeek := peek_at ['|', ')', '&', ';'] hat (by decide)
  rcases List.mem_cons.mp hfirst with hnul | hmem
  · obtain rfl := hat.eq_nil hnul
    have hat₁ := (skip_at hat).1
    refine ⟨es, ⟨[], ⟨rfl, (skip_nil hat).2⟩, .nil nofun⟩, fun n => ?_⟩
    have hdone : ['|', ')', '&', ';'].contains (first []) = false := by decide
    rw [parseargs, hpeek, hdone]
    simp only [gettoken_nil hat₁, if_true]
    rfl
  · refine ⟨skip mem es s, (skip_at hat).1, fun n => ?_⟩
    rw [parseargs, hpeek, List.contains_iff_mem.mpr hmem]
    rfl

/-- The words of a simple command, and the redirections between them. -/
theorem parseargs_form (items : List Item) {argc : Nat} (hat : At mem es s (items.flatMap Item.toks ++ rest))
    (hrest : first rest ∈ [nul, '|', ')', '&', ';']) (hargc : argc + items.countP Item.isWord < MAXARGS)
    (hc : Matches (Word mem) c t) :
    ∃ c₁ s₁ c' s', Eventually (parseredirs mem es · c s) (c₁, s₁) ∧ Eventually (parseargs mem es · c₁ argc s₁) (c', s') ∧
      Matches (Word mem) c' (items.foldl Item.add t) ∧ At mem es s' rest := by
  induction items generalizing s c t argc with
  | nil =>
    have hnot : first rest ∉ ['<', '>'] := follow_notMem _ hrest
    have hat₁ := (skip_at hat).1
    obtain ⟨s', hat', hend⟩ := parseargs_nil hat₁ hrest c argc
    exact ⟨c, skip mem es s, c, s', (Eventually.pure _).succ fun n => parseredirs_nil hat hnot n c,
      (Eventually.pure _).succ hend, hc, hat'⟩
  | cons item items ih =>
    cases item with
    | redir kind file =>
      obtain ⟨a, s₂, hword, hat₂, hstep⟩ := parseredirs_cons _ _ hat
      obtain ⟨c₁, s₁, c', s', hredirs, hargs, hmatch, hat'⟩ := ih hat₂ hargc (hc.redir hword)
      exact ⟨c₁, s₁, c', s', hredirs.succ fun n => hstep n c, hargs, hmatch, hat'⟩
    | word w =>
      have hnot : first (.word w :: (items.flatMap Item.toks ++ rest)) ∉ ['<', '>'] := hat.word_notMem (by decide)
      have hat₁ := (skip_at hat).1
      obtain ⟨a, s₂, hword, hat₂, hstep⟩ := parseargs_cons hat₁
      have hcount : argc + 1 + items.countP Item.isWord < MAXARGS := by
        have hone : (Item.word w :: items).countP Item.isWord = items.countP Item.isWord + 1 := List.countP_cons_of_pos rfl
        omega
      obtain ⟨c₁, s₁, c', s', hredirs, hargs, hmatch, hat'⟩ := ih hat₂ hcount (hc.addArg hword)
      exact ⟨c, skip mem es s, c', s', (Eventually.pure _).succ fun n => parseredirs_nil hat hnot n c,
        (hredirs.bind hargs).succ fun n => hstep n c argc (by omega), hmatch, hat'⟩

/-! ### Every place -/

/-- What can come after a form, by the first characters. -/
def Pos.follow : Pos → List Char
  | .simple => [nul, '|', ')', '&', ';']
  | .pipe => [nul, ')', '&', ';']
  | .back => [nul, ')', ';']
  | .line => [nul, ')']

/-- The parser of a place has the result `r`, with enough rounds. -/
def Pos.Parses (mem : Mem) (es s : Nat) (r : Cmd × Nat) : Pos → Prop
  | .simple => Eventually (parseexec mem es · s) r
  | .pipe => Eventually (parsepipe mem es · s) r
  | .back => ∃ c s₁, Eventually (parsepipe mem es · s) (c, s₁) ∧ Eventually (parsebacks mem es · c s₁) r
  | .line => Eventually (parseline mem es · s) r

theorem peek_true (set : List Char) (hat : At mem es s toks) (hset : set ⊆ symbols) (hmem : first toks ∈ set) :
    peek mem es s set = (true, skip mem es s) := by
  rw [peek_at set hat hset, List.contains_iff_mem.mpr hmem]

theorem peek_false (set : List Char) (hat : At mem es s toks) (hset : set ⊆ symbols) (hmem : first toks ∉ set) :
    peek mem es s set = (false, skip mem es s) := by
  rw [peek_at set hat hset, Bool.eq_false_iff.mpr fun h => hmem (List.contains_iff_mem.mp h)]

theorem parsebacks_form (n : Nat) (hat : At mem es s (List.replicate n (.symbol '&') ++ rest)) (hrest : first rest ≠ '&')
    (hc : Matches R c t) :
    ∃ c' s', Eventually (parsebacks mem es · c s) (c', s') ∧ Matches R c' (Tree.back^[n] t) ∧ At mem es s' rest := by
  induction n generalizing s c t with
  | zero =>
    have hpeek := peek_false ['&'] hat (by decide) (mt List.mem_singleton.mp hrest)
    refine ⟨c, skip mem es s, (Eventually.pure _).succ fun n => ?_, hc, (skip_at hat).1⟩
    rw [parsebacks, hpeek]
    rfl
  | succ n ih =>
    have hpeek := peek_true ['&'] hat (by decide) (List.mem_singleton_self '&')
    obtain ⟨q, eq, s₁, htok, hat₁, -⟩ := gettoken_cons (skip_at hat).1
    obtain ⟨c', s', hev, hmatch, hat'⟩ := ih hat₁ hc.back
    refine ⟨c', s', hev.succ fun n => ?_, hmatch, hat'⟩
    rw [parsebacks, hpeek]
    simp only [if_true, htok]

theorem parsepipe_simple (hexec : Eventually (parseexec mem es · s) (c, s₁)) (hat : At mem es s₁ toks) (hfirst : first toks ≠ '|') :
    Eventually (parsepipe mem es · s) (c, skip mem es s₁) := by
  have hpeek := peek_false ['|'] hat (by decide) (mt List.mem_singleton.mp hfirst)
  refine Eventually.succ (hexec.bind ?_) fun n => parsepipe.eq_2 mem es s n
  simp only [hpeek]
  exact Eventually.pure _

theorem parsepipe_pipe (hexec : Eventually (parseexec mem es · s) (c, s₁)) (hat : At mem es s₁ (.symbol '|' :: toks)) :
    ∃ s₂, At mem es s₂ toks ∧ ∀ c' s', Eventually (parsepipe mem es · s₂) (c', s') →
      Eventually (parsepipe mem es · s) (.pipe c c', s') := by
  have hpeek := peek_true ['|'] hat (by decide) (List.mem_singleton_self '|')
  obtain ⟨q, eq, s₂, htok, hat₂, -⟩ := gettoken_cons (skip_at hat).1
  refine ⟨s₂, hat₂, fun c' s' hpipe => ?_⟩
  refine Eventually.succ (hexec.bind ?_) fun n => parsepipe.eq_2 mem es s n
  simp only [hpeek, htok, if_true]
  exact hpipe.bind (Eventually.pure _)

theorem parseline_item (hback : Pos.back.Parses mem es s (c, s₁)) (hat : At mem es s₁ toks) (hfirst : first toks ≠ ';') :
    Eventually (parseline mem es · s) (c, skip mem es s₁) := by
  obtain ⟨c₀, s₀, hpipe, hbacks⟩ := hback
  have hpeek := peek_false [';'] hat (by decide) (mt List.mem_singleton.mp hfirst)
  refine Eventually.succ (hpipe.bind (hbacks.bind ?_)) fun n => parseline.eq_2 mem es s n
  simp only [hpeek]
  exact Eventually.pure _

theorem parseline_list (hback : Pos.back.Parses mem es s (c, s₁)) (hat : At mem es s₁ (.symbol ';' :: toks)) :
    ∃ s₂, At mem es s₂ toks ∧ ∀ c' s', Eventually (parseline mem es · s₂) (c', s') →
      Eventually (parseline mem es · s) (.list c c', s') := by
  obtain ⟨c₀, s₀, hpipe, hbacks⟩ := hback
  have hpeek := peek_true [';'] hat (by decide) (List.mem_singleton_self ';')
  obtain ⟨q, eq, s₂, htok, hat₂, -⟩ := gettoken_cons (skip_at hat).1
  refine ⟨s₂, hat₂, fun c' s' hline => ?_⟩
  refine Eventually.succ (hpipe.bind (hbacks.bind ?_)) fun n => parseline.eq_2 mem es s n
  simp only [hpeek, htok, if_true]
  exact hline.bind (Eventually.pure _)

theorem parseexec_exec (items : List Item) (hat : At mem es s (items.flatMap Item.toks ++ rest))
    (hrest : first rest ∈ Pos.simple.follow) (hpos : 0 < items.countP Item.isWord) (hmax : items.countP Item.isWord < MAXARGS) :
    ∃ c s', Eventually (parseexec mem es · s) (c, s') ∧ Matches (Word mem) c (items.foldl Item.add (.exec [])) ∧
      At mem es s' rest := by
  have hfirst : first (items.flatMap Item.toks ++ rest) ∉ ['('] := by
    cases items with
    | nil => exact absurd hpos (Nat.lt_irrefl 0)
    | cons item items =>
      cases item with
      | word w => exact hat.word_notMem (by decide)
      | redir kind file =>
        have hkind := kind.first_tok
        intro hmem
        have hopen : kind.tok.first = '(' := List.mem_singleton.mp hmem
        rw [hopen] at hkind
        exact absurd hkind (by decide)
  have hpeek := peek_false ['('] hat (by decide) hfirst
  obtain ⟨c₁, s₁, c', s', hredirs, hargs, hmatch, hat'⟩ := parseargs_form items (skip_at hat).1 hrest
    (show 0 + items.countP Item.isWord < MAXARGS by rwa [Nat.zero_add]) (Matches.exec .nil)
  refine ⟨c', s', Eventually.succ ?_ fun n => parseexec.eq_2 mem es s n, hmatch, hat'⟩
  simp only [hpeek]
  exact hredirs.bind hargs

/-- What is between parentheses, and then the redirections after them. -/
theorem parseexec_block (hat : At mem es s (.symbol '(' :: toks)) :
    ∃ s₁, At mem es s₁ toks ∧ ∀ c s₂ rest, Eventually (parseline mem es · s₁) (c, s₂) → At mem es s₂ (.symbol ')' :: rest) →
      ∃ s₃, At mem es s₃ rest ∧ ∀ r, Eventually (parseredirs mem es · c s₃) r → Eventually (parseexec mem es · s) r := by
  have hat' := (skip_at hat).1
  have hopen := peek_true ['('] hat (by decide) (List.mem_singleton_self '(')
  have hopen' := peek_true ['('] hat' (by decide) (List.mem_singleton_self '(')
  obtain ⟨q₁, eq₁, s₁, htok₁, hat₁, -⟩ := gettoken_cons (skip_at hat').1
  refine ⟨s₁, hat₁, fun c s₂ rest hline hat₂ => ?_⟩
  have hclose := peek_true [')'] hat₂ (by decide) (List.mem_singleton_self ')')
  obtain ⟨q₃, eq₃, s₃, htok₃, hat₃, -⟩ := gettoken_cons (skip_at hat₂).1
  refine ⟨s₃, hat₃, fun r hredirs => ?_⟩
  have hblock : Eventually (parseblock mem es · (skip mem es s)) r := by
    refine Eventually.succ ?_ fun n => parseblock.eq_2 mem es (skip mem es s) n
    simp only [hopen', Bool.not_true, Bool.false_eq_true, if_false, htok₁]
    refine hline.bind ?_
    simp only [hclose, Bool.not_true, Bool.false_eq_true, if_false, htok₃]
    exact hredirs
  refine Eventually.succ ?_ fun n => parseexec.eq_2 mem es s n
  simp only [hopen, if_true]
  exact hblock

/-- The parser of a place reads each form of the place, and gives back its tree. -/
theorem parse_form {pos : Pos} (h : Form pos t toks) (hat : At mem es s (toks ++ rest)) (hrest : first rest ∈ pos.follow) :
    ∃ c s', pos.Parses mem es s (c, s') ∧ Matches (Word mem) c t ∧ At mem es s' rest := by
  induction h generalizing s rest with
  | exec items hpos hmax => exact parseexec_exec items hat hrest hpos hmax
  | block h rs ih =>
    rw [List.cons_append, List.append_assoc, List.cons_append] at hat
    obtain ⟨s₁, hat₁, hblock⟩ := parseexec_block hat
    obtain ⟨c, s₂, hline, hmatch, hat₂⟩ := ih hat₁ (show ')' ∈ Pos.line.follow by decide)
    obtain ⟨s₃, hat₃, hredirs⟩ := hblock c s₂ _ hline hat₂
    obtain ⟨c', s', hev, hmatch', hat'⟩ := parseredirs_form rs hat₃ (follow_notMem _ hrest) hmatch
    exact ⟨c', s', hredirs _ hev, hmatch', hat'⟩
  | simple h ih =>
    have hfollow : ∀ c ∈ Pos.pipe.follow, c ∈ Pos.simple.follow ∧ c ≠ '|' := forall_of_all rfl
    obtain ⟨hmem, hne⟩ := hfollow _ hrest
    obtain ⟨c, s₁, hexec, hmatch, hat₁⟩ := ih hat hmem
    exact ⟨c, skip mem es s₁, parsepipe_simple hexec hat₁ hne, hmatch, (skip_at hat₁).1⟩
  | pipe hl hr ihl ihr =>
    rw [List.append_assoc] at hat
    obtain ⟨c, s₁, hexec, hmatch, hat₁⟩ := ihl hat (show '|' ∈ Pos.simple.follow by decide)
    obtain ⟨s₂, hat₂, hpipe⟩ := parsepipe_pipe hexec hat₁
    obtain ⟨c', s', hev, hmatch', hat'⟩ := ihr hat₂ hrest
    exact ⟨.pipe c c', s', hpipe c' s' hev, hmatch.pipe hmatch', hat'⟩
  | back h n ih =>
    rw [List.append_assoc] at hat
    have hfollow : ∀ c ∈ Pos.back.follow, c ∈ Pos.pipe.follow ∧ c ≠ '&' := forall_of_all rfl
    have hmem : first (List.replicate n (.symbol '&') ++ rest) ∈ Pos.pipe.follow := by
      cases n with
      | zero => exact (hfollow _ hrest).1
      | succ n => exact show '&' ∈ Pos.pipe.follow by decide
    obtain ⟨c, s₁, hpipe, hmatch, hat₁⟩ := ih hat hmem
    obtain ⟨c', s', hbacks, hmatch', hat'⟩ := parsebacks_form n hat₁ (hfollow _ hrest).2 hmatch
    exact ⟨c', s', ⟨c, s₁, hpipe, hbacks⟩, hmatch', hat'⟩
  | item h ih =>
    have hfollow : ∀ c ∈ Pos.line.follow, c ∈ Pos.back.follow ∧ c ≠ ';' := forall_of_all rfl
    obtain ⟨hmem, hne⟩ := hfollow _ hrest
    obtain ⟨c, s₁, hback, hmatch, hat₁⟩ := ih hat hmem
    exact ⟨c, skip mem es s₁, parseline_item hback hat₁ hne, hmatch, (skip_at hat₁).1⟩
  | list hl hr ihl ihr =>
    rw [List.append_assoc] at hat
    obtain ⟨c, s₁, hback, hmatch, hat₁⟩ := ihl hat (show ';' ∈ Pos.back.follow by decide)
    obtain ⟨s₂, hat₂, hline⟩ := parseline_list hback hat₁
    obtain ⟨c', s', hev, hmatch', hat'⟩ := ihr hat₂ hrest
    exact ⟨.list c c', s', hline c' s' hev, hmatch.list hmatch', hat'⟩

end LabSO.Sh

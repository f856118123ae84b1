import LabSO.User.Sh

/-! The tokens of a line, the texts that spell them with any whitespace between them, and how `peek` and `gettoken` read such
    a text. -/

namespace LabSO.Sh

variable {mem : Mem} {es s q : Nat} {l m ws w set : List Char} {p : Char → Bool}

/-! ### Texts in the memory -/

/-- From `s` to `es` there is `l`, and then a NUL. -/
def Holds (mem : Mem) (es : Nat) : Nat → List Char → Prop
  | s, [] => s = es ∧ mem es = nul
  | s, c :: l => mem s = c ∧ Holds mem es (s + 1) l

theorem Holds.length (h : Holds mem es s l) : es = s + l.length := by
  induction l generalizing s with
  | nil => exact h.1.symm
  | cons c l ih =>
    have hes := ih h.2
    rw [List.length_cons]
    omega

theorem Holds.append (h : Holds mem es s (l ++ m)) : Holds mem es (s + l.length) m := by
  induction l generalizing s with
  | nil => exact h
  | cons c l ih =>
    rw [List.length_cons, Nat.add_comm l.length, ← Nat.add_assoc]
    exact ih h.2

theorem Holds.get (h : Holds mem es s (l ++ m)) : ∀ i (hi : i < l.length), mem (s + i) = l[i] := by
  induction l generalizing s with
  | nil => exact fun i hi => absurd hi (Nat.not_lt_zero i)
  | cons c l ih =>
    intro i hi
    cases i with
    | zero => exact h.1
    | succ i =>
      rw [← Nat.add_assoc, Nat.add_right_comm]
      exact ih h.2 i (Nat.lt_of_succ_lt_succ hi)

/-- What is at `s`; a NUL is at the end. -/
theorem Holds.head (h : Holds mem es s l) : mem s = l.headD nul := by
  cases l with
  | nil =>
    obtain ⟨rfl, hnul⟩ := h
    exact hnul
  | cons c l => exact h.1

theorem advance_eq (h : Holds mem es s (l ++ m)) (hl : ∀ c ∈ l, p c = true) (hm : ∀ c ∈ m.head?, p c = false) :
    advance mem p (es - s) s = s + l.length := by
  induction l generalizing s with
  | nil =>
    cases m with
    | nil =>
      obtain ⟨rfl, -⟩ := h
      rw [Nat.sub_self]
      rfl
    | cons c m =>
      have hes := h.length
      obtain ⟨k, hk⟩ : ∃ k, es - s = k + 1 := ⟨m.length, by rw [hes, List.nil_append, List.length_cons]; omega⟩
      rw [hk, advance, h.1, if_neg (by rw [hm c rfl]; exact Bool.false_ne_true)]
      rfl
  | cons c l ih =>
    have hes := h.length
    obtain ⟨k, hk⟩ : ∃ k, es - s = k + 1 := ⟨es - s - 1, by rw [List.cons_append, List.length_cons] at hes; omega⟩
    rw [hk, advance, h.1, if_pos (hl c List.mem_cons_self), show k = es - (s + 1) by omega,
      ih h.2 fun c hc => hl c (List.mem_cons_of_mem _ hc), List.length_cons]
    omega

/-! ### Tokens -/

/-- No whitespace, no symbol and no NUL. -/
def plain (c : Char) : Bool := c != nul && !whitespace.contains c && !symbols.contains c

theorem forall_of_all {p : Char → Prop} [DecidablePred p] {l : List Char} (h : (l.all fun c => p c) = true) : ∀ c ∈ l, p c :=
  fun c hc => of_decide_eq_true (List.all_eq_true.mp h c hc)

/-- A word that can stand in a line. -/
def Plain (w : List Char) : Prop := w ≠ [] ∧ ∀ c ∈ w, plain c = true

instance (w : List Char) : Decidable (Plain w) :=
  decidable_of_iff (w ≠ [] ∧ w.all plain = true) (and_congr_right fun _ => List.all_eq_true)

inductive Tok
  | word (w : List Char)
  | symbol (c : Char)
  | append
deriving DecidableEq, Repr

namespace Tok

def chars : Tok → List Char
  | .word w => w
  | .symbol c => [c]
  | .append => ['>', '>']

/-- What `gettoken` returns for it. -/
def code : Tok → Char
  | .word _ => 'a'
  | .symbol c => c
  | .append => '+'

def Ok : Tok → Prop
  | .word w => Plain w
  | .symbol c => c ∈ symbols
  | .append => True

/-- The token does not go on into the text after it. -/
def Ends : Tok → List Char → Prop
  | .word _, l => ∀ c ∈ l.head?, plain c = false
  | .symbol c, l => c = '>' → l.headD nul ≠ '>'
  | .append, _ => True

def first (tok : Tok) : Char := tok.chars.headD nul

end Tok

/-- The texts of a list of tokens. -/
inductive Spell : List Tok → List Char → Prop
  | nil {ws : List Char} (hws : ∀ c ∈ ws, c ∈ whitespace) : Spell [] ws
  | cons {ws l : List Char} {tok : Tok} {toks : List Tok} (hws : ∀ c ∈ ws, c ∈ whitespace) (hok : tok.Ok) (hends : tok.Ends l)
      (h : Spell toks l) : Spell (tok :: toks) (ws ++ (tok.chars ++ l))

variable {tok : Tok} {toks : List Tok}

/-- At `s` there are these tokens, up to `es`. -/
def At (mem : Mem) (es s : Nat) (toks : List Tok) : Prop := ∃ l, Holds mem es s l ∧ Spell toks l

/-- The first character of the tokens, or NUL. -/
def first : List Tok → Char
  | [] => nul
  | tok :: _ => tok.first

theorem plain_iff {c : Char} : plain c = true ↔ c ≠ nul ∧ c ∉ whitespace ∧ c ∉ symbols := by
  simp [plain, and_assoc]

theorem Tok.chars_eq (h : tok.Ok) : ∃ l, tok.chars = tok.first :: l := by
  cases tok with
  | word w =>
    cases w with
    | nil => exact absurd rfl h.1
    | cons c w => exact ⟨w, rfl⟩
  | symbol c => exact ⟨[], rfl⟩
  | append => exact ⟨['>'], rfl⟩

/-- A token begins with a symbol, or it is a word. -/
theorem Tok.first_ok (h : tok.Ok) : tok.first ∈ symbols ∨ plain tok.first = true ∧ ∃ w, tok = .word w := by
  cases tok with
  | word w =>
    cases w with
    | nil => exact absurd rfl h.1
    | cons c w => exact .inr ⟨h.2 c List.mem_cons_self, _, rfl⟩
  | symbol c => exact .inl h
  | append => exact .inl (by decide)

theorem nul_or_symbol : ∀ c ∈ symbols, c ≠ nul ∧ c ∉ whitespace := forall_of_all rfl

theorem Tok.first_ne (h : tok.Ok) : tok.first ≠ nul ∧ tok.first ∉ whitespace := by
  rcases Tok.first_ok h with hsym | ⟨hplain, -⟩
  · exact nul_or_symbol _ hsym
  · obtain ⟨hnul, hws, -⟩ := plain_iff.mp hplain
    exact ⟨hnul, hws⟩

/-- What is left once whitespace is skipped. -/
theorem skip_cons (h : At mem es s (tok :: toks)) :
    ∃ l, Holds mem es (skip mem es s) (tok.chars ++ l) ∧ tok.Ok ∧ tok.Ends l ∧ Spell toks l := by
  obtain ⟨_, hholds, hspell⟩ := h
  cases hspell with
  | @cons ws l _ _ hws hok hends hspell =>
    refine ⟨l, ?_, hok, hends, hspell⟩
    rw [skip, advance_eq hholds (fun c hc => List.contains_iff_mem.mpr (hws c hc))]
    · exact hholds.append
    · intro c hc
      obtain ⟨l', hl'⟩ := Tok.chars_eq hok
      rw [hl'] at hc
      obtain rfl : tok.first = c := Option.some.inj hc
      exact Bool.eq_false_iff.mpr fun hmem => (Tok.first_ne hok).2 (List.contains_iff_mem.mp hmem)

theorem skip_nil (h : At mem es s []) : skip mem es s = es ∧ mem es = nul := by
  obtain ⟨ws, hholds, hspell⟩ := h
  cases hspell with
  | nil hws =>
    have hlength := hholds.length
    have hend : Holds mem es (s + ws.length) [] := Holds.append (by rwa [List.append_nil])
    rw [← List.append_nil ws] at hholds
    rw [skip, advance_eq hholds (fun c hc => List.contains_iff_mem.mpr (hws c hc)) nofun]
    exact hend

theorem skip_at (h : At mem es s toks) : At mem es (skip mem es s) toks ∧ mem (skip mem es s) = first toks := by
  cases toks with
  | nil =>
    obtain ⟨hskip, hnul⟩ := skip_nil h
    rw [hskip]
    exact ⟨⟨[], ⟨rfl, hnul⟩, .nil nofun⟩, hnul⟩
  | cons tok toks =>
    obtain ⟨l, hholds, hok, hends, hspell⟩ := skip_cons h
    refine ⟨⟨[] ++ (tok.chars ++ l), hholds, .cons nofun hok hends hspell⟩, ?_⟩
    obtain ⟨l', hl'⟩ := Tok.chars_eq hok
    rw [hholds.head, hl']
    rfl

theorem peek_at (set : List Char) (h : At mem es s toks) (hset : set ⊆ symbols) :
    peek mem es s set = (set.contains (first toks), skip mem es s) := by
  rw [peek, (skip_at h).2]
  by_cases hmem : first toks ∈ set
  · have hnul := (nul_or_symbol _ (hset hmem)).1
    simp [hnul, hmem]
  · simp [hmem]

/-- The pointers of a word: it is at the first, and the second is to the character after it. -/
structure Word (mem : Mem) (a : Nat × Nat) (w : List Char) : Prop where
  plain : Plain w
  stop : a.2 = a.1 + w.length
  chars : ∀ i (hi : i < w.length), mem (a.1 + i) = w[i]
  ends : Sh.plain (mem a.2) = false

theorem gettoken_nil (h : At mem es s []) : gettoken mem es s = (nul, es, es, es) := by
  obtain ⟨hskip, hnul⟩ := skip_nil h
  have hend : skip mem es es = es := by
    rw [skip, Nat.sub_self]
    rfl
  have hscan : scan mem es es = (nul, es) := if_pos hnul
  simp only [gettoken, hskip, hscan, hend]

theorem Spell.nul_notMem (h : Spell toks l) : nul ∉ l := by
  have hwhite : ∀ c ∈ whitespace, c ≠ nul := forall_of_all rfl
  induction h with
  | nil hws => exact fun hmem => hwhite _ (hws _ hmem) rfl
  | @cons ws l tok toks hws hok _ _ ih =>
    intro hmem
    rcases List.mem_append.mp hmem with hmem | hmem
    · exact hwhite _ (hws _ hmem) rfl
    · rcases List.mem_append.mp hmem with hmem | hmem
      · cases tok with
        | word w => exact (plain_iff.mp (hok.2 _ hmem)).1 rfl
        | symbol c => exact (nul_or_symbol c hok).1 (List.mem_singleton.mp hmem).symm
        | append => exact absurd hmem (by decide)
      · exact ih hmem

/-- The end of a word. -/
theorem advance_word {w : List Char} (hholds : Holds mem es q (w ++ l)) (hplain : Plain w) (hends : ∀ c ∈ l.head?, plain c = false)
    (hnul : nul ∉ l) :
    advance mem (fun c => !whitespace.contains c && !symbols.contains c) (es - q) q = q + w.length := by
  refine advance_eq hholds (fun c hc => ?_) fun c hc => ?_
  · obtain ⟨-, hws, hsym⟩ := plain_iff.mp (hplain.2 c hc)
    simp [hws, hsym]
  · have hne : c ≠ nul := by
      rintro rfl
      exact hnul (List.mem_of_mem_head? hc)
    have hend := hends c hc
    simpa [plain, hne] using hend

theorem scan_word {w : List Char} (hholds : Holds mem es q (w ++ l)) (hok : Plain w) (hends : ∀ c ∈ l.head?, plain c = false)
    (hnul : nul ∉ l) : scan mem es q = ('a', q + w.length) := by
  have hadvance := advance_word hholds hok hends hnul
  obtain ⟨c, w, rfl⟩ := List.exists_cons_of_ne_nil hok.1
  obtain ⟨hc, -, hsym⟩ := plain_iff.mp (hok.2 c List.mem_cons_self)
  have hhead : mem q = c := hholds.1
  have hsub : ['|', '(', ')', ';', '&', '<'] ⊆ symbols := by decide
  have hone : c ∉ ['|', '(', ')', ';', '&', '<'] := fun hmem => hsym (hsub hmem)
  have hgt : c ≠ '>' := by
    rintro rfl
    exact hsym (by decide)
  rw [scan, hhead, if_neg hc, if_neg hone, if_neg hgt, hadvance]

theorem scan_symbol {c : Char} (hholds : Holds mem es q (c :: l)) (hc : c ∈ symbols) (hends : c = '>' → l.headD nul ≠ '>') :
    scan mem es q = (c, q + 1) := by
  have hnext : mem (q + 1) = l.headD nul := hholds.2.head
  rw [scan, hholds.1, if_neg (nul_or_symbol c hc).1]
  by_cases hgt : c = '>'
  · rw [if_neg (by rw [hgt]; decide), if_pos hgt, hnext, if_neg (hends hgt), hgt]
  · have hone : ∀ c ∈ symbols, c ≠ '>' → c ∈ ['|', '(', ')', ';', '&', '<'] := forall_of_all rfl
    rw [if_pos (hone c hc hgt)]

theorem scan_append (hholds : Holds mem es q ('>' :: '>' :: l)) : scan mem es q = ('+', q + 2) := by
  rw [scan, hholds.1, if_neg (by decide), if_neg (by decide), if_pos rfl, hholds.2.1, if_pos rfl]

theorem scan_tok (hholds : Holds mem es q (tok.chars ++ l)) (hok : tok.Ok) (hends : tok.Ends l) (hnul : nul ∉ l) :
    scan mem es q = (tok.code, q + tok.chars.length) := by
  cases tok with
  | word w => exact scan_word hholds hok hends hnul
  | symbol c => exact scan_symbol hholds hok hends
  | append => exact scan_append hholds

theorem gettoken_cons (h : At mem es s (tok :: toks)) :
    ∃ q eq s', gettoken mem es s = (tok.code, q, eq, s') ∧ At mem es s' toks ∧ ∀ w, tok = .word w → Word mem (q, eq) w := by
  obtain ⟨l, hholds, hok, hends, hspell⟩ := skip_cons h
  have hrest := hholds.append
  have hscan := scan_tok hholds hok hends hspell.nul_notMem
  refine ⟨skip mem es s, skip mem es s + tok.chars.length, skip mem es (skip mem es s + tok.chars.length), ?_,
    (skip_at ⟨l, hrest, hspell⟩).1, fun w hw => ?_⟩
  · simp only [gettoken, hscan]
  · subst hw
    have hend : mem (skip mem es s + w.length) = l.headD nul := Holds.head hrest
    refine ⟨hok, rfl, hholds.get, ?_⟩
    show plain (mem (skip mem es s + w.length)) = false
    rw [hend]
    cases l with
    | nil => rfl
    | cons c l => exact hends c rfl

end LabSO.Sh

import Mathlib.Computability.Language

/-! `grep.c`: the matcher of patterns, and what a pattern means as a language. A string is the list of its characters, without
    the final NUL. -/

namespace LabSO.Grep
open scoped Computability

/-! ### The matcher -/

mutual

/-- Search for `re` at the beginning of `text`. -/
def matchhere : List Char → List Char → Bool
  | [], _ => true
  | c :: '*' :: re, text => matchstar c re text
  | c :: re, text =>
    if c = '$' ∧ re = [] then text.isEmpty
    else
      match text with
      | [] => false
      | t :: text => (c = '.' || c = t) && matchhere re text
termination_by re text => (re.length, text.length, 0)

/-- Search for `c*re` at the beginning of `text`. -/
def matchstar (c : Char) (re : List Char) : List Char → Bool
  | [] => matchhere re []
  | t :: text => matchhere re (t :: text) || ((t = c || c = '.') && matchstar c re text)
termination_by text => (re.length, text.length, 1)

end

/-- The loop of `match`. -/
def matchFrom (re : List Char) : List Char → Bool
  | [] => matchhere re []
  | t :: text => matchhere re (t :: text) || matchFrom re text

def match_ (re text : List Char) : Bool :=
  match re with
  | '^' :: re => matchhere re text
  | re => matchFrom re text

/-! ### What a pattern means -/

/-- The character of a pattern stands for the character of a text. -/
def Stands (c t : Char) : Prop := c = '.' ∨ c = t

/-- The words of one character that a character of a pattern stands for. -/
def letter (c : Char) : Language Char := {w | ∃ t, w = [t] ∧ Stands c t}

inductive Item
  | one (c : Char)
  | star (c : Char)

def Item.language : Item → Language Char
  | one c => letter c
  | star c => (letter c)∗

/-- The items of a pattern one after the other. -/
def itemsLanguage : List Item → Language Char
  | [] => 1
  | item :: items => item.language * itemsLanguage items

/-- A pattern without its `^`: its items, and whether it ends in an anchor. -/
def readItems : List Char → List Item × Bool
  | [] => ([], false)
  | [c] => if c = '$' then ([], true) else ([.one c], false)
  | c :: d :: re =>
    if d = '*' then (.star c :: (readItems re).1, (readItems re).2)
    else (.one c :: (readItems (d :: re)).1, (readItems (d :: re)).2)

/-- A pattern, read from left to right. -/
structure Pattern where
  /-- A leading `^`. -/
  start : Bool
  items : List Item
  /-- A final `$`. -/
  stop : Bool

def readPattern : List Char → Pattern
  | '^' :: re => ⟨true, (readItems re).1, (readItems re).2⟩
  | re => ⟨false, (readItems re).1, (readItems re).2⟩

/-- Some substring of the text is in the language of the pattern, at the start or at the end where that is asked for. -/
def Pattern.Finds (p : Pattern) (text : List Char) : Prop :=
  ∃ before word after, text = before ++ word ++ after ∧ word ∈ itemsLanguage p.items ∧ (p.start = true → before = []) ∧
    (p.stop = true → after = [])

/-! ### Words at the beginning of a text -/

variable {c t : Char} {re text : List Char} {items : List Item} {stop : Bool}

/-- The text begins with a word of the items, and is no more than that if there is an anchor. -/
def Begins (p : List Item × Bool) (text : List Char) : Prop :=
  ∃ word after, text = word ++ after ∧ word ∈ itemsLanguage p.1 ∧ (p.2 = true → after = [])

theorem mem_kstar_letter {word : List Char} : word ∈ (letter c)∗ ↔ ∀ t ∈ word, Stands c t := by
  constructor
  · rintro ⟨parts, rfl, hparts⟩ t ht
    obtain ⟨part, hpart, htpart⟩ := List.mem_flatten.mp ht
    obtain ⟨t', rfl, hstands⟩ := hparts part hpart
    rwa [List.mem_singleton.mp htpart]
  · intro h
    refine ⟨word.map fun t => [t], (List.flatMap_singleton' word).symm, fun part hpart => ?_⟩
    obtain ⟨t, ht, rfl⟩ := List.mem_map.mp hpart
    exact ⟨t, rfl, h t ht⟩

theorem begins_nil (text : List Char) : Begins ([], stop) text ↔ (stop = true → text = []) := by
  constructor
  · rintro ⟨word, after, rfl, hword, hstop⟩ h
    obtain rfl : word = [] := hword
    rw [hstop h]
    rfl
  · intro h
    exact ⟨[], text, rfl, rfl, h⟩

theorem begins_one : Begins (.one c :: items, stop) text ↔
    ∃ t rest, text = t :: rest ∧ Stands c t ∧ Begins (items, stop) rest := by
  constructor
  · rintro ⟨word, after, rfl, hword, hstop⟩
    obtain ⟨first, ⟨t, rfl, hstands⟩, rest, hrest, rfl⟩ := Language.mem_mul.mp hword
    exact ⟨t, rest ++ after, rfl, hstands, rest, after, rfl, hrest, hstop⟩
  · rintro ⟨t, _, rfl, hstands, rest, after, rfl, hrest, hstop⟩
    have hfirst : [t] ∈ letter c := ⟨t, rfl, hstands⟩
    exact ⟨[t] ++ rest, after, rfl, Language.append_mem_mul hfirst hrest, hstop⟩

theorem begins_star : Begins (.star c :: items, stop) text ↔
    ∃ letters rest, text = letters ++ rest ∧ (∀ t ∈ letters, Stands c t) ∧ Begins (items, stop) rest := by
  constructor
  · rintro ⟨word, after, rfl, hword, hstop⟩
    obtain ⟨letters, hletters, rest, hrest, rfl⟩ := Language.mem_mul.mp hword
    exact ⟨letters, rest ++ after, List.append_assoc .., mem_kstar_letter.mp hletters, rest, after, rfl, hrest, hstop⟩
  · rintro ⟨letters, _, rfl, hletters, rest, after, rfl, hrest, hstop⟩
    have hfirst : letters ∈ (letter c)∗ := mem_kstar_letter.mpr hletters
    exact ⟨letters ++ rest, after, (List.append_assoc ..).symm, Language.append_mem_mul hfirst hrest, hstop⟩

/-! ### The matcher decides it -/

theorem stands_iff : (decide (t = c) || decide (c = '.')) = true ↔ Stands c t := by
  rw [Bool.or_eq_true, decide_eq_true_iff, decide_eq_true_iff, eq_comm, or_comm]
  rfl

/-- An item of one character. -/
theorem matchhere_one (hlast : ¬(c = '$' ∧ re = [])) (hstar : ∀ re', re ≠ '*' :: re') :
    matchhere (c :: re) text = true ↔ ∃ t rest, text = t :: rest ∧ Stands c t ∧ matchhere re rest = true := by
  cases text with
  | nil =>
    rw [matchhere, if_neg hlast]
    · simp
    · exact hstar
  | cons t text =>
    rw [matchhere, if_neg hlast]
    · simp [Stands]
    · exact hstar

theorem matchstar_iff {p : List Item × Bool} (h : ∀ text, matchhere re text = true ↔ Begins p text) (text : List Char) :
    matchstar c re text = true ↔ ∃ letters rest, text = letters ++ rest ∧ (∀ t ∈ letters, Stands c t) ∧ Begins p rest := by
  induction text with
  | nil =>
    rw [matchstar, h]
    constructor
    · intro hbegins
      exact ⟨[], [], rfl, nofun, hbegins⟩
    · rintro ⟨letters, rest, hsplit, -, hbegins⟩
      rwa [(List.append_eq_nil_iff.mp hsplit.symm).2] at hbegins
  | cons t text ih =>
    rw [matchstar, Bool.or_eq_true, h, Bool.and_eq_true, ih]
    constructor
    · rintro (hbegins | ⟨hstands, letters, rest, rfl, hletters, hbegins⟩)
      · exact ⟨[], t :: text, rfl, nofun, hbegins⟩
      · refine ⟨t :: letters, rest, rfl, fun t' ht' => ?_, hbegins⟩
        rcases List.mem_cons.mp ht' with rfl | ht'
        · exact stands_iff.mp hstands
        · exact hletters t' ht'
    · rintro ⟨letters, rest, hsplit, hletters, hbegins⟩
      cases letters with
      | nil =>
        rw [List.nil_append] at hsplit
        exact Or.inl (hsplit ▸ hbegins)
      | cons t' letters =>
        obtain ⟨rfl, rfl⟩ := List.cons.inj hsplit
        exact Or.inr ⟨stands_iff.mpr (hletters t List.mem_cons_self), letters, rest, rfl,
          fun t' ht' => hletters t' (List.mem_cons_of_mem _ ht'), hbegins⟩

theorem matchhere_iff (re text : List Char) : matchhere re text = true ↔ Begins (readItems re) text := by
  induction re using readItems.induct generalizing text with
  | case1 => simp [matchhere, readItems, begins_nil]
  | case2 =>
    rw [matchhere.eq_def]
    simp [readItems, begins_nil]
  | case3 c hc =>
    have hlast : ¬(c = '$' ∧ ([] : List Char) = []) := fun h => hc h.1
    have hstar : ∀ re', ([] : List Char) ≠ '*' :: re' := nofun
    rw [matchhere_one hlast hstar, readItems, if_neg hc, begins_one]
    simp [matchhere, begins_nil]
  | case4 c re ih =>
    rw [matchhere]
    simp only [readItems, if_pos, begins_star]
    exact matchstar_iff ih text
  | case5 c d re hd ih =>
    have hlast : ¬(c = '$' ∧ d :: re = []) := fun h => List.cons_ne_nil d re h.2
    have hstar : ∀ re', d :: re ≠ '*' :: re' := fun re' h => hd (List.cons.inj h).1
    rw [matchhere_one hlast hstar, readItems, if_neg hd, begins_one]
    simp only [ih]

theorem matchFrom_iff : matchFrom re text = true ↔ ∃ before rest, text = before ++ rest ∧ matchhere re rest = true := by
  induction text with
  | nil =>
    rw [matchFrom]
    constructor
    · intro h
      exact ⟨[], [], rfl, h⟩
    · rintro ⟨before, rest, hsplit, h⟩
      rwa [(List.append_eq_nil_iff.mp hsplit.symm).2] at h
  | cons t text ih =>
    rw [matchFrom, Bool.or_eq_true, ih]
    constructor
    · rintro (h | ⟨before, rest, rfl, h⟩)
      · exact ⟨[], t :: text, rfl, h⟩
      · exact ⟨t :: before, rest, rfl, h⟩
    · rintro ⟨before, rest, hsplit, h⟩
      cases before with
      | nil =>
        rw [List.nil_append] at hsplit
        exact Or.inl (hsplit ▸ h)
      | cons t' before => exact Or.inr ⟨before, rest, (List.cons.inj hsplit).2, h⟩

/-- `match` finds a text exactly if a substring of it is in the language of the pattern. -/
theorem match_iff (re text : List Char) : match_ re text = true ↔ (readPattern re).Finds text := by
  unfold match_ readPattern
  split
  · next re =>
    rw [matchhere_iff]
    constructor
    · rintro ⟨word, after, rfl, hword, hstop⟩
      exact ⟨[], word, after, rfl, hword, fun _ => rfl, hstop⟩
    · rintro ⟨before, word, after, rfl, hword, hstart, hstop⟩
      rw [hstart rfl]
      exact ⟨word, after, rfl, hword, hstop⟩
  · simp only [matchFrom_iff, matchhere_iff]
    constructor
    · rintro ⟨before, rest, rfl, word, after, rfl, hword, hstop⟩
      exact ⟨before, word, after, (List.append_assoc ..).symm, hword, nofun, hstop⟩
    · rintro ⟨before, word, after, rfl, hword, -, hstop⟩
      exact ⟨before, word ++ after, List.append_assoc .., word, after, rfl, hword, hstop⟩

end LabSO.Grep

import LabSO.Shell.ParsingGrammar

/-! The lines that `parse_pipeline` gives up: some command of theirs has a redirection symbol without a file name. The
    rest of such a line is left to be read. -/

namespace LabSO.Shell

variable {σ : Type} {L : ParserLib σ} {unread : σ → Text} {word : Char → Bool}

/-- A redirection symbol of the commands has no file name; `rest` is what comes after it and its blanks. -/
def GivenUp (word : Char → Bool) (txt rest : Text) : Prop :=
  ∃ cmds t tail, PipelineText word cmds t ∧ txt = t ++ tail ∧ Dangling word tail rest

theorem GivenUp.ne_nil {txt rest : Text} (h : GivenUp word txt rest) : txt ≠ [] := by
  obtain ⟨cmds, t, tail, -, rfl, c, b, rfl, -⟩ := h
  simp

theorem GivenUp.length_lt {txt rest : Text} (h : GivenUp word txt rest) : rest.length < txt.length := by
  obtain ⟨cmds, t, tail, -, rfl, c, b, rfl, -⟩ := h
  simp only [List.length_append, List.length_cons]
  omega

/-- The loop of `parse_pipeline` gives NULL on the lines that are given up, and leaves the rest of them. -/
theorem parsePipelineLoop_none_iff (h : L.Documented unread word) {fuel rounds : Nat} {p : σ} {result : Pipeline}
    {rest : Text} (hfuel : (unread p).length < fuel) (hrounds : (unread p).length < rounds) :
    (∃ q, parsePipelineLoop L fuel rounds p result = .ok (none, q) ∧ unread q = rest) ↔
      GivenUp word (unread p) rest := by
  constructor
  · rintro ⟨q, hrun, rfl⟩
    obtain ⟨cmds, t, tail, hcmds, hp, htail⟩ := parsePipelineLoop_inv h fuel rounds hrun
    exact ⟨cmds, t, tail, hcmds, hp, htail⟩
  · rintro ⟨cmds, t, tail, hcmds, hp, htail⟩
    exact parsePipelineLoop_dangling h hcmds htail fuel rounds p result hp hfuel hrounds

/-- The loop of `parse_pipeline` either gives the line up, or reads all its commands. -/
theorem parsePipelineLoop_cases (h : L.Documented unread word) {fuel : Nat} {p : σ} (hfuel : (unread p).length < fuel) :
    (∃ q, parsePipelineLoop L fuel fuel p Pipeline.new = .ok (none, q) ∧ GivenUp word (unread p) (unread q)) ∨
    (∃ cmds t q, parsePipelineLoop L fuel fuel p Pipeline.new = .ok (some (pipelineOf cmds false), q) ∧
      PipelineText word cmds t ∧ unread p = t ++ unread q ∧ LineStops word (unread q)) := by
  obtain ⟨r, q, hrun, -, -⟩ := parsePipelineLoop_read h fuel fuel p Pipeline.new hfuel hfuel
  obtain ⟨cmds, t, tail, hcmds, hp, hend⟩ := parsePipelineLoop_inv h fuel fuel hrun
  cases r with
  | none => exact Or.inl ⟨q, hrun, cmds, t, tail, hcmds, hp, hend⟩
  | some r =>
    obtain ⟨rfl, hstop, rfl⟩ := hend
    exact Or.inr ⟨cmds, t, q, hrun, hcmds, hp, hstop⟩

/-- Only one of the two happens to a line. -/
theorem PipelineText.not_givenUp (h : L.Documented unread word) {fuel : Nat} {p q : σ} {r : Pipeline}
    (hrun : parsePipelineLoop L fuel fuel p Pipeline.new = .ok (some r, q)) (hfuel : (unread p).length < fuel)
    (rest : Text) : ¬GivenUp word (unread p) rest := by
  intro hgiven
  obtain ⟨q', hrun', -⟩ := (parsePipelineLoop_none_iff h hfuel hfuel).mpr hgiven
  rw [hrun] at hrun'
  cases hrun'

/-- What a call of `parse_pipeline` leaves of its input: the rest of a line that is given up, and otherwise what follows
    the line. -/
def Leaves (word : Char → Bool) (txt rest : Text) : Prop :=
  GivenUp word txt rest ∨ (¬∃ u, GivenUp word txt u) ∧ rest = afterLine txt

theorem leaves_iff (h : L.Documented unread word) {fuel : Nat} {p q : σ} {r : Option Pipeline} {printed : String}
    (hrun : parsePipeline L fuel p = .ok (r, printed, q)) (hfuel : (unread p).length < fuel) (rest : Text) :
    Leaves word (unread p) rest ↔ unread q = rest := by
  have heof : L.atEof p ≠ true := by
    intro heof
    rw [parsePipeline, if_pos heof] at hrun
    cases hrun
  rw [parsePipeline, if_neg heof] at hrun
  rcases parsePipelineLoop_cases h hfuel with ⟨q', hloop, hgiven⟩ | ⟨cmds, t, q', hloop, -⟩
  · rw [hloop] at hrun
    cases hrun
    constructor
    · rintro (hrest | ⟨hnone, -⟩)
      · obtain ⟨q'', hloop', rfl⟩ := (parsePipelineLoop_none_iff h hfuel hfuel).mpr hrest
        rw [hloop] at hloop'
        cases hloop'
        rfl
      · exact absurd ⟨_, hgiven⟩ hnone
    · rintro rfl
      exact Or.inl hgiven
  · obtain ⟨r', q'', hloop', ⟨hline, -⟩, hend⟩ := parsePipelineLoop_read h fuel fuel p Pipeline.new hfuel hfuel
    rw [hloop] at hloop'
    cases hloop'
    have hq : unread q = afterLine (unread p) := by
      have hgarbage := unread_garbage h (hend rfl).2
      rw [hloop] at hrun
      dsimp only at hrun
      split at hrun
      · cases hrun
        rw [hgarbage, hline]
      · split at hrun <;> cases hrun <;> rw [hgarbage, hline]
    have hgiven : ¬∃ u, GivenUp word (unread p) u := by
      rintro ⟨u, hu⟩
      exact PipelineText.not_givenUp h hloop hfuel u hu
    rw [hq]
    constructor
    · rintro (hrest | ⟨-, rfl⟩)
      · exact absurd ⟨_, hrest⟩ hgiven
      · rfl
    · rintro rfl
      exact Or.inr ⟨hgiven, rfl⟩

end LabSO.Shell

import Mathlib.Data.Set.Basic
import Mathlib.Logic.Function.Basic

/-! Resources that places hold: a place holds at most one, no resource is held twice, and those in use are those held. -/

namespace LabSO.Ledger

variable {P B : Type*} {D : Set B} {own own' : P → Option B} {used used' : B → Prop} {p : P} {b : B}

/-- The resources of `D` in use are those that some place holds, and no two places hold the same. -/
structure Exact (D : Set B) (own : P → Option B) (used : B → Prop) : Prop where
  mem : ∀ {p b}, own p = some b → b ∈ D
  inj : ∀ {p q b}, own p = some b → own q = some b → p = q
  used_iff : ∀ {b}, b ∈ D → (used b ↔ ∃ p, own p = some b)

theorem Exact.used_of_own (h : Exact D own used) (hp : own p = some b) : used b := (h.used_iff (h.mem hp)).mpr ⟨p, hp⟩

theorem Exact.ne_of_not_used (h : Exact D own used) (hb : ¬used b) : own p ≠ some b := fun hp => hb (h.used_of_own hp)

theorem Exact.congr (h : Exact D own used) (hown : ∀ q, own' q = own q) (hused : ∀ c ∈ D, used' c ↔ used c) :
    Exact D own' used' := by
  obtain rfl : own' = own := funext hown
  exact ⟨h.mem, h.inj, fun hb => (hused _ hb).trans (h.used_iff hb)⟩

/-- A place takes a resource that is not in use. -/
theorem Exact.attach (h : Exact D own used) (hp : own p = none) (hb : b ∈ D) (hfree : ¬used b)
    (hown : ∀ q, own' q = some b ∧ q = p ∨ own' q = own q ∧ q ≠ p) (hused : ∀ c ∈ D, used' c ↔ c = b ∨ used c) :
    Exact D own' used' where
  mem {q c} hq := by
    rcases hown q with ⟨heq, -⟩ | ⟨heq, -⟩
    · obtain rfl : c = b := Option.some.inj (hq.symm.trans heq)
      exact hb
    · exact h.mem (heq.symm.trans hq)
  inj {q r c} hq hr := by
    rcases hown q with ⟨heq, rfl⟩ | ⟨heq, hne⟩ <;> rcases hown r with ⟨heq', rfl⟩ | ⟨heq', hne'⟩
    · rfl
    · obtain rfl : c = b := Option.some.inj (hq.symm.trans heq)
      exact absurd (heq'.symm.trans hr) (h.ne_of_not_used hfree)
    · obtain rfl : c = b := Option.some.inj (hr.symm.trans heq')
      exact absurd (heq.symm.trans hq) (h.ne_of_not_used hfree)
    · exact h.inj (heq.symm.trans hq) (heq'.symm.trans hr)
  used_iff {c} hc := by
    rw [hused c hc, h.used_iff hc]
    constructor
    · rintro (rfl | ⟨q, hq⟩)
      · obtain ⟨heq, -⟩ | ⟨-, hne⟩ := hown p
        · exact ⟨p, heq⟩
        · exact absurd rfl hne
      · obtain ⟨-, rfl⟩ | ⟨heq, -⟩ := hown q
        · exact absurd (hp.symm.trans hq) nofun
        · exact ⟨q, heq.trans hq⟩
    · rintro ⟨q, hq⟩
      rcases hown q with ⟨heq, -⟩ | ⟨heq, -⟩
      · exact Or.inl (Option.some.inj (hq.symm.trans heq))
      · exact Or.inr ⟨q, heq.symm.trans hq⟩

/-- A place gives its resource back. -/
theorem Exact.detach (h : Exact D own used) (hp : own p = some b)
    (hown : ∀ q, own' q = none ∧ q = p ∨ own' q = own q ∧ q ≠ p) (hused : ∀ c ∈ D, used' c ↔ c ≠ b ∧ used c) :
    Exact D own' used' where
  mem {q c} hq := by
    rcases hown q with ⟨heq, -⟩ | ⟨heq, -⟩
    · exact absurd (heq.symm.trans hq) nofun
    · exact h.mem (heq.symm.trans hq)
  inj {q r c} hq hr := by
    rcases hown q with ⟨heq, -⟩ | ⟨heq, -⟩
    · exact absurd (heq.symm.trans hq) nofun
    rcases hown r with ⟨heq', -⟩ | ⟨heq', -⟩
    · exact absurd (heq'.symm.trans hr) nofun
    exact h.inj (heq.symm.trans hq) (heq'.symm.trans hr)
  used_iff {c} hc := by
    rw [hused c hc, h.used_iff hc]
    constructor
    · rintro ⟨hne, q, hq⟩
      rcases hown q with ⟨-, rfl⟩ | ⟨heq, -⟩
      · exact absurd (Option.some.inj (hq.symm.trans hp)) hne
      · exact ⟨q, heq.trans hq⟩
    · rintro ⟨q, hq⟩
      rcases hown q with ⟨heq, -⟩ | ⟨heq, hne⟩
      · exact absurd (heq.symm.trans hq) nofun
      · refine ⟨?_, q, heq.symm.trans hq⟩
        rintro rfl
        exact hne (h.inj (heq.symm.trans hq) hp)

/-! ### Places that give up what they hold one after the other -/

/-- The places of the list hold nothing any more. -/
def without [DecidableEq P] (own : P → Option B) (l : List P) : P → Option B :=
  fun p => if p ∈ l then none else own p

variable [DecidableEq P] {l : List P}

theorem without_of_notMem (hp : p ∉ l) : without own l p = own p := if_neg hp

theorem Exact.without_cons (h : Exact D (without own l) used) (hp : p ∉ l)
    (hused : ∀ c ∈ D, used' c ↔ own p ≠ some c ∧ used c) : Exact D (without own (p :: l)) used' := by
  have hq : ∀ q, q ≠ p → without own (p :: l) q = without own l q := by
    intro q hne
    unfold without
    simp only [List.mem_cons, hne, false_or]
  have hself : without own (p :: l) p = none := if_pos List.mem_cons_self
  cases hown : own p with
  | none =>
    refine h.congr (fun q => ?_) fun c hc => ?_
    · by_cases hne : q = p
      · rw [hne, hself, without_of_notMem hp, hown]
      · exact hq q hne
    · simp [hused c hc, hown]
  | some b =>
    refine h.detach (p := p) (b := b) (by rw [without_of_notMem hp, hown]) (fun q => ?_) fun c hc => ?_
    · by_cases hne : q = p
      · exact Or.inl ⟨hne ▸ hself, hne⟩
      · exact Or.inr ⟨hq q hne, hne⟩
    · simp [hused c hc, hown, eq_comm]

end LabSO.Ledger

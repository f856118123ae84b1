import Mathlib.Data.List.Basic
import Mathlib.Tactic.Common

/-! Tables of slots that are searched from the beginning. Slots without a key are free; where no two slots have one key, the
    table is a finite map. -/

namespace LabSO.Slots

variable {α κ : Type*}

/-- The first slot that satisfies `stop`, with its index, in a list that begins at the index `n`. -/
def firstFrom (stop : α → Bool) : Nat → List α → Option (Nat × α)
  | _, [] => none
  | n, a :: l => if stop a then some (n, a) else firstFrom stop (n + 1) l

section
variable {stop stop' : α → Bool} {n i j : Nat} {l : List α} {a : α}

theorem firstFrom_congr (h : ∀ a, stop' a = stop a) : firstFrom stop' n l = firstFrom stop n l := by
  rw [funext h]

theorem firstFrom_some (h : firstFrom stop n l = some (i, a)) : ∃ j, i = n + j ∧ l[j]? = some a ∧ stop a = true := by
  induction l generalizing n with
  | nil => cases h
  | cons b l ih =>
    rw [firstFrom] at h
    split at h
    · next hb =>
      cases h
      exact ⟨0, rfl, rfl, hb⟩
    · obtain ⟨j, rfl, hj, ha⟩ := ih h
      exact ⟨j + 1, by omega, hj, ha⟩

theorem firstFrom_none : firstFrom stop n l = none ↔ ∀ (j : Nat) a, l[j]? = some a → stop a = false := by
  induction l generalizing n with
  | nil => simp [firstFrom]
  | cons b l ih =>
    rw [firstFrom]
    constructor
    · intro h
      split at h
      · cases h
      · next hb =>
        intro j a hj
        cases j with
        | zero =>
          cases hj
          exact Bool.eq_false_iff.mpr hb
        | succ j => exact ih.mp h j a hj
    · intro h
      have hb := h 0 b rfl
      rw [if_neg (by simp [hb])]
      exact ih.mpr fun j a hj => h (j + 1) a hj

end

section Keys
variable [DecidableEq κ] (key : α → Option κ)

/-- The first slot with a key. -/
def find (k : κ) (l : List α) : Option (Nat × α) := firstFrom (fun a => key a = some k) 0 l

/-- No two slots have one key. -/
def Distinct (l : List α) : Prop :=
  ∀ (i j : Nat) a b k, l[i]? = some a → l[j]? = some b → key a = some k → key b = some k → i = j

variable {key} {l : List α} {i j : Nat} {a b : α} {k k' : κ}

theorem find_some (h : find key k l = some (i, a)) : l[i]? = some a ∧ key a = some k := by
  obtain ⟨j, rfl, hj, ha⟩ := firstFrom_some h
  rw [Nat.zero_add]
  exact ⟨hj, of_decide_eq_true ha⟩

theorem find_none : find key k l = none ↔ ∀ (j : Nat) a, l[j]? = some a → key a ≠ some k := by
  rw [find, firstFrom_none]
  refine forall_congr' fun j => forall_congr' fun a => imp_congr_right fun _ => ?_
  exact decide_eq_false_iff_not

theorem Distinct.find_eq (h : Distinct key l) : find key k l = some (i, a) ↔ l[i]? = some a ∧ key a = some k := by
  refine ⟨find_some, fun ⟨hi, ha⟩ => ?_⟩
  cases hfind : find key k l with
  | none => exact absurd ha (find_none.mp hfind i a hi)
  | some x =>
    obtain ⟨hj, hb⟩ := find_some (a := x.2) (i := x.1) hfind
    obtain rfl := h _ _ _ _ _ hj hi hb ha
    rw [hi, Option.some.injEq] at hj
    rw [hj]

/-- A slot is written; at the end, there is one slot more. -/
def put (l : List α) (i : Nat) (a : α) : List α := l.take i ++ a :: l.drop (i + 1)

theorem getElem?_put (hi : i ≤ l.length) (j : Nat) : (put l i a)[j]? = if j = i then some a else l[j]? := by
  have hlen : (l.take i).length = i := List.length_take_of_le hi
  rw [put]
  by_cases hlt : j < i
  · rw [List.getElem?_append_left (by omega), List.getElem?_take_of_lt hlt, if_neg (by omega)]
  · rw [List.getElem?_append_right (by omega), hlen]
    split
    · next heq => rw [heq, Nat.sub_self, List.getElem?_cons_zero]
    · next hne =>
      obtain ⟨m, hm⟩ : ∃ m, j - i = m + 1 := ⟨j - i - 1, by omega⟩
      rw [hm, List.getElem?_cons_succ, List.getElem?_drop]
      congr 1
      omega

theorem Distinct.put (h : Distinct key l) (hi : i ≤ l.length) (hnew : ∀ k, key a = some k → find key k l = none) :
    Distinct key (put l i a) := by
  intro m n b c k hm hn hb hc
  rw [getElem?_put hi] at hm hn
  split at hm <;> split at hn
  · next h1 h2 => rw [h1, h2]
  · cases hm
    exact absurd hc (find_none.mp (hnew k hb) n c hn)
  · cases hn
    exact absurd hb (find_none.mp (hnew k hc) m b hm)
  · exact h m n b c k hm hn hb hc

/-- A new key is found where it is put, and what there was is still found. -/
theorem Distinct.find_put (h : Distinct key l) (hi : i ≤ l.length) (hfree : ∀ b, l[i]? = some b → key b = none)
    (ha : key a = some k) (hnew : find key k l = none) :
    find key k' (Slots.put l i a) = if k' = k then some (i, a) else find key k' l := by
  have hdistinct : Distinct key (Slots.put l i a) := by
    refine h.put hi fun k₁ hk₁ => ?_
    rw [ha, Option.some.injEq] at hk₁
    rw [← hk₁, hnew]
  split
  · next heq =>
    subst heq
    exact hdistinct.find_eq.mpr ⟨by rw [getElem?_put hi, if_pos rfl], ha⟩
  · next hne =>
    refine Option.ext fun x => ?_
    obtain ⟨j, b⟩ := x
    rw [hdistinct.find_eq, h.find_eq, getElem?_put hi]
    split
    · next hj =>
      subst hj
      constructor
      · rintro ⟨hb, hkey⟩
        cases hb
        rw [ha, Option.some.injEq] at hkey
        exact absurd hkey.symm hne
      · rintro ⟨hb, hkey⟩
        rw [hfree b hb] at hkey
        cases hkey
    · rfl

/-- Where a slot becomes free, its key is no longer found. -/
theorem Distinct.find_free (h : Distinct key l) (hb : l[i]? = some b) (hk : key b = some k) (ha : key a = none) :
    find key k' (Slots.put l i a) = if k' = k then none else find key k' l := by
  obtain ⟨hlt, -⟩ := List.getElem?_eq_some_iff.mp hb
  have hi : i ≤ l.length := Nat.le_of_lt hlt
  have hdistinct : Distinct key (Slots.put l i a) := h.put hi fun k₁ hk₁ => by
    rw [ha] at hk₁
    cases hk₁
  refine Option.ext fun x => ?_
  obtain ⟨j, c⟩ := x
  rw [hdistinct.find_eq, getElem?_put hi]
  by_cases heq : k' = k
  · subst heq
    rw [if_pos rfl]
    refine ⟨fun ⟨hc, hkey⟩ => ?_, nofun⟩
    split at hc
    · cases hc
      rw [ha] at hkey
      cases hkey
    · next hne => exact absurd (h _ _ _ _ _ hc hb hkey hk) hne
  · rw [if_neg heq, h.find_eq]
    split
    · next hj =>
      subst hj
      constructor
      · rintro ⟨hc, hkey⟩
        cases hc
        rw [ha] at hkey
        cases hkey
      · rintro ⟨hc, hkey⟩
        rw [hb, Option.some.injEq] at hc
        rw [← hc, hk, Option.some.injEq] at hkey
        exact absurd hkey.symm heq
    · rfl

end Keys

end LabSO.Slots

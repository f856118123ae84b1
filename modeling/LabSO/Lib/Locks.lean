import Mathlib.Logic.Function.Basic

/-! Locks and their holders: each agent holds at most one lock of a table, and the table says who holds it. -/

namespace LabSO.Locks

variable {κ α : Type*} {held : κ → Option α} {lock : α → Option κ} {c c' : κ} {a : α}

/-- Each agent has the lock it holds in its name. -/
def Owned (held : κ → Option α) (lock : α → Option κ) : Prop := ∀ c a, held c = some a → lock a = some c

theorem Owned.unique (h : Owned held lock) (hc : held c = some a) (hc' : held c' = some a) : c = c' :=
  Option.some.inj ((h c a hc).symm.trans (h c' a hc'))

theorem Owned.not_free (h : Owned held lock) (hfree : lock a = none) : held c ≠ some a := by
  intro hc
  rw [h c a hc] at hfree
  cases hfree

/-- Each lock that is taken is held by the agent in whose name it is. -/
def Backed (held : κ → Option α) (lock : α → Option κ) : Prop := ∀ c a, lock a = some c → held c = some a

variable [DecidableEq κ] [DecidableEq α]

theorem Owned.acquire (h : Owned held lock) (hfree : lock a = none) :
    Owned (Function.update held c (some a)) (Function.update lock a (some c)) := by
  intro d b hd
  by_cases hdc : d = c
  · subst hdc
    rw [Function.update_self] at hd
    cases hd
    rw [Function.update_self]
  · rw [Function.update_of_ne hdc] at hd
    have hba : b ≠ a := by
      rintro rfl
      exact h.not_free hfree hd
    rw [Function.update_of_ne hba]
    exact h d b hd

theorem Owned.release (h : Owned held lock) (hc : held c = some a) :
    Owned (Function.update held c none) (Function.update lock a none) := by
  intro d b hd
  by_cases hdc : d = c
  · subst hdc
    rw [Function.update_self] at hd
    cases hd
  · rw [Function.update_of_ne hdc] at hd
    have hba : b ≠ a := by
      rintro rfl
      exact hdc (h.unique hd hc)
    rw [Function.update_of_ne hba]
    exact h d b hd

theorem Backed.acquire (h : Backed held lock) (hc : held c = none) :
    Backed (Function.update held c (some a)) (Function.update lock a (some c)) := by
  intro d b hd
  by_cases hba : b = a
  · subst hba
    rw [Function.update_self] at hd
    cases hd
    rw [Function.update_self]
  · rw [Function.update_of_ne hba] at hd
    have hdc : d ≠ c := by
      rintro rfl
      rw [h d b hd] at hc
      cases hc
    rw [Function.update_of_ne hdc]
    exact h d b hd

theorem Backed.release (h : Backed held lock) (hc : held c = some a) :
    Backed (Function.update held c none) (Function.update lock a none) := by
  intro d b hd
  by_cases hba : b = a
  · subst hba
    rw [Function.update_self] at hd
    cases hd
  · rw [Function.update_of_ne hba] at hd
    have hdc : d ≠ c := by
      rintro rfl
      rw [h d b hd] at hc
      exact hba (Option.some.inj hc)
    rw [Function.update_of_ne hdc]
    exact h d b hd

end LabSO.Locks

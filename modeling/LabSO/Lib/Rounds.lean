import Mathlib.Tactic.Common

/-! Computations with a bound on their rounds, whose result does not depend on the bound once it is large enough. -/

namespace LabSO.Rounds

universe u

variable {ε : Type*} {α β : Type u} {f g : Nat → Except ε α} {a : α} {b : β}

/-- The result is `a` for all bounds from some number on. -/
def Eventually (f : Nat → Except ε α) (a : α) : Prop := ∃ n, ∀ m, n ≤ m → f m = .ok a

theorem Eventually.pure (a : α) : Eventually (fun _ => (.ok a : Except ε α)) a := ⟨0, fun _ _ => rfl⟩

theorem Eventually.congr (h : Eventually f a) (hfg : ∀ n, g n = f n) : Eventually g a := by
  obtain ⟨n, hn⟩ := h
  exact ⟨n, fun m hm => (hfg m).trans (hn m hm)⟩

/-- A function that calls others with one round less. -/
theorem Eventually.succ (h : Eventually f a) (hfg : ∀ n, g (n + 1) = f n) : Eventually g a := by
  obtain ⟨n, hn⟩ := h
  refine ⟨n + 1, fun m hm => ?_⟩
  obtain ⟨k, rfl⟩ := Nat.exists_eq_add_of_le' hm
  rw [← Nat.add_assoc, hfg]
  exact hn _ (Nat.le_add_left n k)

theorem Eventually.bind {g : Nat → α → Except ε β} (hf : Eventually f a) (hg : Eventually (fun n => g n a) b) :
    Eventually (fun n => f n >>= g n) b := by
  obtain ⟨n, hn⟩ := hf
  obtain ⟨m, hm⟩ := hg
  refine ⟨max n m, fun k hk => ?_⟩
  show f k >>= g k = _
  rw [hn k (by omega)]
  exact hm k (by omega)

end LabSO.Rounds

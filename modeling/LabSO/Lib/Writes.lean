import Mathlib.Logic.Function.Basic
import Mathlib.Data.List.Infix

/-! Sequences of single writes to a map, and what holds after any part of such a sequence that was done in order. -/

namespace LabSO.Writes

variable {κ β : Type*} [DecidableEq κ] {d : κ → β} {ws ws' : List (κ × β)} {P Q : (κ → β) → Prop}

/-- The map after the writes, done in order. -/
def apply (d : κ → β) (ws : List (κ × β)) : κ → β :=
  ws.foldl (fun d w => Function.update d w.1 w.2) d

@[simp] theorem apply_nil (d : κ → β) : apply d [] = d := rfl

@[simp] theorem apply_cons (d : κ → β) (w : κ × β) (ws : List (κ × β)) :
    apply d (w :: ws) = apply (Function.update d w.1 w.2) ws := rfl

theorem apply_append (d : κ → β) (ws ws' : List (κ × β)) : apply d (ws ++ ws') = apply (apply d ws) ws' :=
  List.foldl_append

/-- What is not written stays. -/
theorem apply_of_notMem {k : κ} (hk : k ∉ ws.map Prod.fst) : apply d ws k = d k := by
  induction ws generalizing d with
  | nil => rfl
  | cons w ws ih =>
    rw [List.map_cons, List.mem_cons, not_or] at hk
    rw [apply_cons, ih hk.2, Function.update_of_ne hk.1]

/-- Where every write is one of the values of a function, what is written has its value. -/
theorem apply_of_mem {f : κ → β} {k : κ} (hf : ∀ w ∈ ws, w.2 = f w.1) (hk : k ∈ ws.map Prod.fst) :
    apply d ws k = f k := by
  induction ws generalizing d with
  | nil => nomatch hk
  | cons w ws ih =>
    rw [apply_cons]
    by_cases hmem : k ∈ ws.map Prod.fst
    · exact ih (fun w' hw' => hf w' (List.mem_cons_of_mem _ hw')) hmem
    · obtain rfl : k = w.1 := (List.mem_cons.mp hk).resolve_right hmem
      rw [apply_of_notMem hmem, Function.update_self, hf w List.mem_cons_self]

/-! ### After any part of the writes -/

/-- `P` holds of the map after each part of the writes that was done in order, none and all of them included. -/
def Throughout (P : (κ → β) → Prop) (d : κ → β) (ws : List (κ × β)) : Prop :=
  ∀ vs, vs <+: ws → P (apply d vs)

theorem Throughout.start (h : Throughout P d ws) : P d := h [] List.nil_prefix

theorem Throughout.all (h : Throughout P d ws) : P (apply d ws) := h ws (List.prefix_refl ws)

theorem Throughout.mono (h : Throughout P d ws) (hPQ : ∀ d, P d → Q d) : Throughout Q d ws :=
  fun vs hvs => hPQ _ (h vs hvs)

theorem Throughout.nil (hd : P d) : Throughout P d [] := by
  intro vs hvs
  obtain rfl := List.prefix_nil.mp hvs
  exact hd

theorem Throughout.cons {w : κ × β} (hd : P d) (h : Throughout P (Function.update d w.1 w.2) ws) :
    Throughout P d (w :: ws) := by
  intro vs hvs
  cases vs with
  | nil => exact hd
  | cons v vs =>
    obtain ⟨rfl, hvs'⟩ := List.cons_prefix_cons.mp hvs
    exact h vs hvs'

theorem Throughout.tail {w : κ × β} (h : Throughout P d (w :: ws)) : Throughout P (Function.update d w.1 w.2) ws :=
  fun vs hvs => h (w :: vs) (List.cons_prefix_cons.mpr ⟨rfl, hvs⟩)

theorem Throughout.append (h : Throughout P d ws) (h' : Throughout P (apply d ws) ws') : Throughout P d (ws ++ ws') := by
  induction ws generalizing d with
  | nil => exact h'
  | cons w ws ih => exact .cons h.start (ih h.tail h')

/-- An invariant of the single writes holds throughout. -/
theorem Throughout.of_preserved (hd : P d) (hP : ∀ d, ∀ w ∈ ws, P d → P (Function.update d w.1 w.2)) :
    Throughout P d ws := by
  induction ws generalizing d with
  | nil => exact .nil hd
  | cons w ws ih =>
    exact .cons hd (ih (hP d w List.mem_cons_self hd) fun d w' hw' => hP d w' (List.mem_cons_of_mem _ hw'))

end LabSO.Writes

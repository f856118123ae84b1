import Mathlib.Tactic.Common

/-! Programs over a state that may halt early: the monad, what a program returns or halts with from a state, and
    the rules that compose the two. -/

namespace LabSO.Program

/-- A program that reads and writes a state `σ`, and returns a value or halts. -/
def Prog (σ ε α : Type) : Type := σ → Except ε α × σ

variable {σ ε α β : Type}

instance : Monad (Prog σ ε) where
  pure a := fun s => (.ok a, s)
  bind m f := fun s =>
    match m s with
    | (.ok a, t) => f a t
    | (.error e, t) => (.error e, t)

/-- Go on from a function of the state. -/
def liftState (f : σ → α × σ) : Prog σ ε α := fun s => (.ok (f s).1, (f s).2)

def halt (e : ε) : Prog σ ε α := fun s => (.error e, s)

/-- The value of an expression that may fail to have one. -/
def orHalt (e : ε) : Option α → Prog σ ε α
  | some a => pure a
  | none => halt e

/-- A statement under an `if` without `else`. -/
def onlyIf (c : Prop) [Decidable c] (m : Prog σ ε Unit) : Prog σ ε Unit := if c then m else pure ()

/-- Do the same for each element of a list, in order. -/
def forEach {κ : Type} (f : κ → Prog σ ε Unit) : List κ → Prog σ ε Unit
  | [] => pure ()
  | x :: xs => do
    f x
    forEach f xs

/-- From `s` the program returns `a` in the state `t`. -/
def Returns (m : Prog σ ε α) (s : σ) (a : α) (t : σ) : Prop := m s = (.ok a, t)

/-- From `s` the program halts with `e` in the state `t`. -/
def Halts (m : Prog σ ε α) (s : σ) (e : ε) (t : σ) : Prop := m s = (.error e, t)

/-- From no state the program halts with `e`. -/
def Avoids (m : Prog σ ε α) (e : ε) : Prop := ∀ s, (m s).1 ≠ .error e

section
variable {m : Prog σ ε α} {f : α → Prog σ ε β} {s t u : σ} {a : α} {b : β} {e : ε} {c : Prop} [Decidable c]

theorem Returns.pure : Returns (pure a : Prog σ ε α) s a s := rfl

theorem Halts.halt : Halts (halt e : Prog σ ε α) s e s := rfl

/-- After a part that returns, the rest goes on from there. -/
theorem Returns.bind_eq (hm : Returns m s a t) : (m >>= f) s = f a t := by
  show (match m s with | (.ok a, t) => f a t | (.error e, t) => (.error e, t)) = _
  rw [hm]

theorem Returns.bind (hm : Returns m s a t) (hf : Returns (f a) t b u) : Returns (m >>= f) s b u :=
  hm.bind_eq.trans hf

theorem Returns.bind_halts (hm : Returns m s a t) (hf : Halts (f a) t e u) : Halts (m >>= f) s e u :=
  hm.bind_eq.trans hf

theorem Prog.bind_assoc {γ : Type} {g : β → Prog σ ε γ} : (m >>= f) >>= g = m >>= fun a => f a >>= g := by
  funext s
  show (match (match m s with | (.ok a, t) => f a t | (.error e, t) => (.error e, t)) with
    | (.ok b, t) => g b t
    | (.error e, t) => (.error e, t)) = (match m s with | (.ok a, t) => (f a >>= g) t | (.error e, t) => (.error e, t))
  rcases m s with ⟨e | a, t⟩ <;> rfl

theorem Returns.det (h : Returns m s a t) {a' : α} {t' : σ} (h' : Returns m s a' t') : a = a' ∧ t = t' := by
  have heq : (Except.ok a, t) = (Except.ok a', t') := h.symm.trans h'
  cases heq
  exact ⟨rfl, rfl⟩

theorem Returns.of_toBool (h : (m s).1.toBool = true) : ∃ a t, Returns m s a t := by
  rcases hms : m s with ⟨e | a, t⟩
  · rw [hms] at h
    cases h
  · exact ⟨a, t, hms⟩

theorem Halts.not_returns (h : Halts m s e t) : ¬Returns m s a u := by
  intro h'
  have heq : (Except.error e, t) = (Except.ok a, u) := h.symm.trans h'
  cases heq

theorem Halts.bind (hm : Halts m s e t) : Halts (m >>= f) s e t := by
  show (match m s with | (.ok a, t) => f a t | (.error e, t) => (.error e, t)) = _
  rw [hm]

theorem Returns.onlyIf {m : Prog σ ε Unit} (hc : c) (hm : Returns m s () t) : Returns (onlyIf c m) s () t := by
  rw [Program.onlyIf, if_pos hc]
  exact hm

theorem Returns.onlyIf_not {m : Prog σ ε Unit} (hc : ¬c) : Returns (Program.onlyIf c m) s () s := by
  rw [Program.onlyIf, if_neg hc]
  exact .pure

theorem Halts.onlyIf {m : Prog σ ε Unit} (hc : c) (hm : Halts m s e t) : Halts (Program.onlyIf c m) s e t := by
  rw [Program.onlyIf, if_pos hc]
  exact hm

theorem Avoids.pure : Avoids (Pure.pure a : Prog σ ε α) e := fun _ => nofun

theorem Avoids.bind (hm : Avoids m e) (hf : ∀ a, Avoids (f a) e) : Avoids (m >>= f) e := by
  intro s
  show (match m s with | (.ok a, t) => f a t | (.error e, t) => (.error e, t)).1 ≠ .error e
  rcases hms : m s with ⟨e' | a, t⟩
  · intro heq
    cases heq
    exact hm s (by rw [hms])
  · exact hf a t

theorem Avoids.liftState {f : σ → α × σ} : Avoids (Program.liftState f : Prog σ ε α) e := fun _ => nofun

theorem Avoids.halt {e' : ε} (h : e' ≠ e) : Avoids (Program.halt e' : Prog σ ε α) e :=
  fun _ heq => h (Except.error.inj heq)

theorem Avoids.onlyIf {m : Prog σ ε Unit} (hm : c → Avoids m e) : Avoids (Program.onlyIf c m) e := by
  unfold Program.onlyIf
  split
  · next hc => exact hm hc
  · exact .pure

/-- An expression that has a value does not halt. -/
theorem Avoids.orHalt_bind {o : Option α} {e' : ε} (ho : o = some a) (hf : Avoids (f a) e) :
    Avoids (Program.orHalt e' o >>= f) e := by
  rw [ho]
  exact hf

theorem Returns.orHalt {o : Option α} (ho : o = some a) : Returns (orHalt e o : Prog σ ε α) s a s := by
  rw [ho]
  exact .pure

end

/-! ### Preconditions -/

/-- From `s` the program returns with `Q`, or halts in a way that `ok` allows. -/
def Wp (ok : ε → Prop) (m : Prog σ ε α) (Q : α → σ → Prop) (s : σ) : Prop :=
  match m s with
  | (.ok a, t) => Q a t
  | (.error e, _) => ok e

/-- Run a program on a part of the state. -/
def zoom {τ : Type} (get : σ → τ) (set : τ → σ → σ) (m : Prog τ ε α) : Prog σ ε α := fun s =>
  ((m (get s)).1, set (m (get s)).2 s)

namespace Wp
variable {τ : Type} {ok : ε → Prop} {m : Prog σ ε α} {f : α → Prog σ ε β} {s t : σ} {a : α} {e : ε} {c : Prop} [Decidable c]
  {P Q : α → σ → Prop} {R : β → σ → Prop}

theorem pure (h : Q a s) : Wp ok (Pure.pure a) Q s := h

theorem halt (h : ok e) : Wp ok (Program.halt e : Prog σ ε α) Q s := h

theorem of_returns (hm : Returns m s a t) (h : Q a t) : Wp ok m Q s := by
  rw [Wp, hm]
  exact h

theorem mono (hm : Wp ok m P s) (h : ∀ a t, P a t → Q a t) : Wp ok m Q s := by
  unfold Wp at *
  split
  · next a t heq => exact h a t (by rwa [heq] at hm)
  · next e t heq => rwa [heq] at hm

theorem of_halts (hm : Halts m s e t) (h : ok e) : Wp ok m Q s := by
  rw [Wp, hm]
  exact h

/-- Go on from what the first part leaves. -/
theorem bind (hm : Wp ok m P s) (hf : ∀ a t, P a t → Wp ok (f a) R t) : Wp ok (m >>= f) R s := by
  rcases hms : m s with ⟨e | a, t⟩
  · have hok : ok e := by rwa [Wp, hms] at hm
    have hhalt : Halts (m >>= f) s e t := Halts.bind hms
    rw [Wp, hhalt]
    exact hok
  · have hP : P a t := by rwa [Wp, hms] at hm
    have heq : (m >>= f) s = f a t := Returns.bind_eq hms
    rw [Wp, heq]
    exact hf a t hP

/-- The rest goes on from wherever the first part ends. -/
theorem seq (hm : Wp ok m (fun a t => Wp ok (f a) R t) s) : Wp ok (m >>= f) R s := hm.bind fun _ _ h => h

theorem liftState {g : σ → α × σ} (h : Q (g s).1 (g s).2) : Wp ok (Program.liftState g) Q s := h

theorem liftState_bind {g : σ → α × σ} (h : Wp ok (f (g s).1) R (g s).2) : Wp ok (Program.liftState g >>= f) R s := h

theorem ite {m' : Prog σ ε α} (hm : c → Wp ok m Q s) (hm' : ¬c → Wp ok m' Q s) : Wp ok (if c then m else m') Q s := by
  by_cases h : c
  · rw [if_pos h]
    exact hm h
  · rw [if_neg h]
    exact hm' h

theorem onlyIf {m : Prog σ ε Unit} {Q : Unit → σ → Prop} (hm : c → Wp ok m Q s) (h : ¬c → Q () s) :
    Wp ok (Program.onlyIf c m) Q s := ite hm h

theorem zoom {get : σ → τ} {set : τ → σ → σ} {m : Prog τ ε α} {P : α → τ → Prop} (hm : Wp ok m P (get s))
    (h : ∀ a t, P a t → Q a (set t s)) : Wp ok (Program.zoom get set m) Q s := by
  rcases hms : m (get s) with ⟨e | a, t⟩
  · have hok : ok e := by rwa [Wp, hms] at hm
    simpa [Wp, Program.zoom, hms] using hok
  · have hP : P a t := by rwa [Wp, hms] at hm
    simpa [Wp, Program.zoom, hms] using h a t hP

/-- The invariant of a loop says what holds when the elements of a list are left. -/
theorem forEach {κ : Type} {f : κ → Prog σ ε Unit} {I : List κ → σ → Prop} {l : List κ} (h : I l s)
    (hstep : ∀ x xs t, I (x :: xs) t → Wp ok (f x) (fun _ => I xs) t) :
    Wp ok (Program.forEach f l) (fun _ => I []) s := by
  induction l generalizing s with
  | nil => exact h
  | cons x xs ih => exact (hstep x xs s h).bind fun _ _ ht => ih ht

/-- What is true of the way in which a program from `s` ends. -/
theorem not_halts (hm : Wp ok m Q s) (h : Halts m s e t) : ok e := by
  rw [Wp, h] at hm
  exact hm

theorem post (hm : Wp ok m Q s) (h : Returns m s a t) : Q a t := by
  rw [Wp, h] at hm
  exact hm

/-- A program that may not halt returns. -/
theorem returns (hm : Wp ok m Q s) (h : ∀ e, ¬ok e) : ∃ a t, Returns m s a t ∧ Q a t := by
  rcases hms : m s with ⟨e | a, t⟩
  · rw [Wp, hms] at hm
    exact absurd hm (h e)
  · rw [Wp, hms] at hm
    exact ⟨a, t, hms, hm⟩

end Wp

/-! ### Conditions on both ends -/

/-- From `s` the program returns with `Q`, or halts with `E`. -/
def Outcome (m : Prog σ ε α) (Q : α → σ → Prop) (E : ε → σ → Prop) (s : σ) : Prop :=
  match m s with
  | (.ok a, t) => Q a t
  | (.error e, t) => E e t

namespace Outcome
variable {m : Prog σ ε α} {f : α → Prog σ ε β} {s t : σ} {a : α} {e : ε} {c : Prop} [Decidable c]
  {P Q : α → σ → Prop} {R : β → σ → Prop} {E : ε → σ → Prop}

theorem pure (h : Q a s) : Outcome (Pure.pure a) Q E s := h

theorem halt (h : E e s) : Outcome (Program.halt e : Prog σ ε α) Q E s := h

theorem liftState {g : σ → α × σ} (h : Q (g s).1 (g s).2) : Outcome (Program.liftState g) Q E s := h

theorem of_returns (hm : Returns m s a t) (h : Q a t) : Outcome m Q E s := by
  rw [Outcome, hm]
  exact h

theorem of_halts (hm : Halts m s e t) (h : E e t) : Outcome m Q E s := by
  rw [Outcome, hm]
  exact h

theorem mono (hm : Outcome m P E s) (h : ∀ a t, P a t → Q a t) : Outcome m Q E s := by
  unfold Outcome at *
  split
  · next a t heq => exact h a t (by rwa [heq] at hm)
  · next e t heq => rwa [heq] at hm

theorem weaken {E' : ε → σ → Prop} (hm : Outcome m Q E s) (h : ∀ e t, E e t → E' e t) : Outcome m Q E' s := by
  unfold Outcome at *
  split
  · next a t heq => rwa [heq] at hm
  · next e t heq => exact h e t (by rwa [heq] at hm)

theorem and {E' : ε → σ → Prop} (hm : Outcome m P E s) (hm' : Outcome m Q E' s) :
    Outcome m (fun a t => P a t ∧ Q a t) E s := by
  unfold Outcome at *
  split
  · next a t heq =>
    rw [heq] at hm hm'
    exact ⟨hm, hm'⟩
  · next e t heq => rwa [heq] at hm

theorem bind (hm : Outcome m P E s) (hf : ∀ a t, P a t → Outcome (f a) R E t) : Outcome (m >>= f) R E s := by
  rcases hms : m s with ⟨e | a, t⟩
  · have hE : E e t := by rwa [Outcome, hms] at hm
    exact of_halts (Halts.bind hms) hE
  · have hP : P a t := by rwa [Outcome, hms] at hm
    have heq : (m >>= f) s = f a t := Returns.bind_eq hms
    rw [Outcome, heq]
    exact hf a t hP

theorem bind_returns (hm : Returns m s a t) (hf : Outcome (f a) R E t) : Outcome (m >>= f) R E s :=
  bind (P := fun a' t' => a' = a ∧ t' = t) (of_returns hm ⟨rfl, rfl⟩) fun _ _ h => h.1 ▸ h.2 ▸ hf

theorem ite {m' : Prog σ ε α} (hm : c → Outcome m Q E s) (hm' : ¬c → Outcome m' Q E s) :
    Outcome (if c then m else m') Q E s := by
  by_cases h : c
  · rw [if_pos h]
    exact hm h
  · rw [if_neg h]
    exact hm' h

theorem liftState_bind {g : σ → α × σ} (h : Outcome (f (g s).1) R E (g s).2) :
    Outcome (Program.liftState g >>= f) R E s := h

theorem onlyIf {m : Prog σ ε Unit} {Q : Unit → σ → Prop} (hm : c → Outcome m Q E s) (h : ¬c → Q () s) :
    Outcome (Program.onlyIf c m) Q E s := ite hm h

theorem zoom {τ : Type} {get : σ → τ} {set : τ → σ → σ} {m : Prog τ ε α} {P : α → τ → Prop} {E' : ε → τ → Prop}
    (hm : Outcome m P E' (get s)) (h : ∀ a t, P a t → Q a (set t s)) (hE : ∀ e t, E' e t → E e (set t s)) :
    Outcome (Program.zoom get set m) Q E s := by
  rcases hms : m (get s) with ⟨e | a, t⟩
  · have hE' : E' e t := by rwa [Outcome, hms] at hm
    simpa [Outcome, Program.zoom, hms] using hE e t hE'
  · have hP : P a t := by rwa [Outcome, hms] at hm
    simpa [Outcome, Program.zoom, hms] using h a t hP

/-- The invariant of a loop says what holds when the elements of a list are left. -/
theorem forEach {κ : Type} {f : κ → Prog σ ε Unit} {I : List κ → σ → Prop} {l : List κ} (h : I l s)
    (hstep : ∀ x xs t, I (x :: xs) t → Outcome (f x) (fun _ => I xs) E t) :
    Outcome (Program.forEach f l) (fun _ => I []) E s := by
  induction l generalizing s with
  | nil => exact h
  | cons x xs ih => exact (hstep x xs s h).bind fun _ _ ht => ih ht

theorem post (hm : Outcome m Q E s) (h : Returns m s a t) : Q a t := by
  rw [Outcome, h] at hm
  exact hm

/-- A program that does not end with `E` returns with `Q`. -/
theorem returns (hm : Outcome m Q E s) (h : ∀ e, ¬E e (m s).2) : ∃ a t, Returns m s a t ∧ Q a t := by
  rcases hms : m s with ⟨e | a, t⟩
  · rw [Outcome, hms] at hm
    rw [hms] at h
    exact absurd hm (h e)
  · rw [Outcome, hms] at hm
    exact ⟨a, t, hms, hm⟩

end Outcome

-- The rules above are what there is to know about `Wp` and `Outcome`; unfolding them would run the program.
attribute [irreducible] Wp Outcome

end LabSO.Program

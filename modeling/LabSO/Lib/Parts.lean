import LabSO.Lib.Program

/-! Programs that run alike from a state, and what is known in two ways of how a program ends. -/

namespace LabSO.Program

variable {σ ε α : Type} {ok : ε → Prop} {m m' : Prog σ ε α} {s : σ} {P Q : α → σ → Prop} {E : ε → σ → Prop}

/-- What is true of a program is true of one that does the same from this state. -/
theorem Wp.congr (h : m s = m' s) (hm : Wp ok m' Q s) : Wp ok m Q s := by
  unfold Wp at *
  rwa [h]

theorem Outcome.congr (h : m s = m' s) (hm : Outcome m' Q E s) : Outcome m Q E s := by
  unfold Outcome at *
  rwa [h]

theorem Wp.of_outcome (hm : Outcome m Q E s) (h : ∀ e t, E e t → ok e) : Wp ok m Q s := by
  unfold Outcome at hm
  unfold Wp
  split
  · next a t heq => rwa [heq] at hm
  · next e t heq => exact h e t (by rwa [heq] at hm)

theorem Outcome.and_wp (hm : Outcome m P E s) (hm' : Wp ok m Q s) : Outcome m (fun a t => P a t ∧ Q a t) E s := by
  unfold Outcome at *
  unfold Wp at hm'
  split
  · next a t heq =>
    rw [heq] at hm hm'
    exact ⟨hm, hm'⟩
  · next e t heq => rwa [heq] at hm

end LabSO.Program

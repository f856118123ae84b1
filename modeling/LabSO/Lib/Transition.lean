import Mathlib.Data.List.Induction
import Mathlib.Tactic.Common

/-! Finite runs of labelled transition systems, the states and the steps along them, and the induction
    rules for invariants and for measures. -/

namespace LabSO.Transition

variable {σ ℓ α ε : Type*}

/-- `Run T s ls t`: from `s`, transitions of `T` with the labels `ls` in order lead to `t`. -/
inductive Run (T : σ → ℓ → σ → Prop) (s : σ) : List ℓ → σ → Prop
  | refl : Run T s [] s
  | tail {ls : List ℓ} {t : σ} {l : ℓ} {u : σ} : Run T s ls t → T t l u → Run T s (ls ++ [l]) u

namespace Run
variable {T : σ → ℓ → σ → Prop} {s t u : σ} {ls ms : List ℓ} {l : ℓ}

theorem trans (h₁ : Run T s ls t) (h₂ : Run T t ms u) : Run T s (ls ++ ms) u := by
  induction h₂ with
  | refl => rwa [List.append_nil]
  | tail _ hstep ih =>
    rw [← List.append_assoc]
    exact ih.tail hstep

theorem mono {T' : σ → ℓ → σ → Prop} (hTT' : ∀ s l t, T s l t → T' s l t) (h : Run T s ls t) : Run T' s ls t := by
  induction h with
  | refl => exact .refl
  | tail _ hstep ih => exact ih.tail (hTT' _ _ _ hstep)

theorem single (h : T s l t) : Run T s [l] t := Run.refl.tail h

theorem snoc_inv (h : Run T s (ls ++ [l]) u) : ∃ t, Run T s ls t ∧ T t l u := by
  generalize hms : ls ++ [l] = ms at h
  cases h with
  | refl => simp at hms
  | tail hrun hstep =>
    obtain ⟨rfl, hl⟩ := List.append_inj' hms rfl
    obtain rfl : l = _ := by simpa using hl
    exact ⟨_, hrun, hstep⟩

theorem nil_inv (h : Run T s [] t) : t = s := by
  generalize hls : ([] : List ℓ) = ls at h
  cases h with
  | refl => rfl
  | tail _ _ => simp at hls

theorem append_inv (h : Run T s (ls ++ ms) u) : ∃ t, Run T s ls t ∧ Run T t ms u := by
  induction ms using List.reverseRecOn generalizing u with
  | nil => exact ⟨u, by rwa [List.append_nil] at h, .refl⟩
  | append_singleton ms l ih =>
    rw [← List.append_assoc] at h
    obtain ⟨v, hv, hstep⟩ := h.snoc_inv
    obtain ⟨t, ht, htv⟩ := ih hv
    exact ⟨t, ht, htv.tail hstep⟩

theorem cons_inv (h : Run T s (l :: ls) u) : ∃ t, T s l t ∧ Run T t ls u := by
  have happ : Run T s ([l] ++ ls) u := h
  obtain ⟨t, hl, hrest⟩ := happ.append_inv
  have hsnoc : Run T s ([] ++ [l]) t := hl
  obtain ⟨s', hs', hstep⟩ := hsnoc.snoc_inv
  rw [hs'.nil_inv] at hstep
  exact ⟨t, hstep, hrest⟩

theorem det (hdet : ∀ s l t u, T s l t → T s l u → t = u) (h : Run T s ls t) (h' : Run T s ls u) : t = u := by
  induction h generalizing u with
  | refl => exact h'.nil_inv.symm
  | tail _ hstep ih =>
    obtain ⟨v, hv, hstep'⟩ := h'.snoc_inv
    obtain rfl := ih hv
    exact hdet _ _ _ _ hstep hstep'

theorem invariant {I : σ → Prop} (hstep : ∀ t l u, I t → T t l u → I u) (hs : I s) (h : Run T s ls t) : I t := by
  induction h with
  | refl => exact hs
  | tail _ hT ih => exact hstep _ _ _ ih hT

/-- Transitions that a measure counts down can only be taken as often as the measure allows. -/
theorem countP_le {I : σ → Prop} {m : σ → Nat} {p : ℓ → Bool} (hI : ∀ t l u, I t → T t l u → I u)
    (hm : ∀ t l u, I t → T t l u → m u + (if p l then 1 else 0) ≤ m t) (hs : I s) (h : Run T s ls t) :
    ls.countP p + m t ≤ m s := by
  induction h with
  | refl => simp
  | tail hrun hT ih =>
    have := hm _ _ _ (hrun.invariant hI hs) hT
    rw [List.countP_append, List.countP_singleton]
    omega

/-- Where a measure can always be taken down until `F` holds, a run to a state of `F` exists. -/
theorem exists_of_measure {I F : σ → Prop} {m : σ → Nat}
    (hstep : ∀ t, I t → ¬F t → ∃ l u, T t l u ∧ I u ∧ m u < m t) (hs : I s) : ∃ ls t, Run T s ls t ∧ F t := by
  generalize hn : m s = n
  induction n using Nat.strongRecOn generalizing s with
  | ind n ih =>
    by_cases hF : F s
    · exact ⟨[], s, .refl, hF⟩
    · obtain ⟨l, u, hT, hu, hless⟩ := hstep s hs hF
      obtain ⟨ls, t, hrun, ht⟩ := ih (m u) (hn ▸ hless) hu rfl
      exact ⟨[l] ++ ls, t, (Run.single hT).trans hrun, ht⟩

end Run

/-! ### Along a run -/

/-- `P` holds in every state that a run from `s` with the labels `ls` goes through. -/
def AllStates (T : σ → ℓ → σ → Prop) (s : σ) (ls : List ℓ) (P : σ → Prop) : Prop :=
  ∀ ms t, ms <+: ls → Run T s ms t → P t

/-- `C` holds of every step of a run from `s` with the labels `ls`: of the state before it and its label. -/
def AllSteps (T : σ → ℓ → σ → Prop) (s : σ) (ls : List ℓ) (C : σ → ℓ → Prop) : Prop :=
  ∀ ms l t, ms ++ [l] <+: ls → Run T s ms t → C t l

section Along
variable {T : σ → ℓ → σ → Prop} {s t : σ} {ls ms : List ℓ} {P Q : σ → Prop} {C : σ → ℓ → Prop}

theorem AllSteps.of_prefix (h : AllSteps T s ls C) (hms : ms <+: ls) : AllSteps T s ms C :=
  fun _ _ _ hns hrun => h _ _ _ (hns.trans hms) hrun

theorem AllSteps.of_mem (h : ∀ l ∈ ls, ∀ t, C t l) : AllSteps T s ls C :=
  fun ms l t hms _ => h l (hms.subset (by simp)) t

theorem AllSteps.and {D : σ → ℓ → Prop} (h : AllSteps T s ls C) (h' : AllSteps T s ls D) :
    AllSteps T s ls fun t l => C t l ∧ D t l :=
  fun ms l t hms hrun => ⟨h ms l t hms hrun, h' ms l t hms hrun⟩

/-- An invariant of the steps that meet a condition holds after a run of such steps. -/
theorem AllSteps.invariant (hstep : ∀ t l u, P t → C t l → T t l u → P u) (hs : P s) (hall : AllSteps T s ls C)
    (h : Run T s ls t) : P t := by
  induction h with
  | refl => exact hs
  | tail hrun hT ih =>
    exact hstep _ _ _ (ih (hall.of_prefix (List.prefix_append _ _))) (hall _ _ _ (List.prefix_refl _) hrun) hT

/-- An invariant of the steps that meet a condition holds all along a run of such steps. -/
theorem AllSteps.allStates (hstep : ∀ t l u, P t → C t l → T t l u → P u) (hs : P s)
    (hall : AllSteps T s ls C) : AllStates T s ls P :=
  fun _ _ hms hrun => (hall.of_prefix hms).invariant hstep hs hrun

theorem AllStates.mono (h : AllStates T s ls P) (hPQ : ∀ t, P t → Q t) : AllStates T s ls Q :=
  fun ms t hms hrun => hPQ t (h ms t hms hrun)

theorem AllStates.and (h : AllStates T s ls P) (h' : AllStates T s ls Q) : AllStates T s ls fun t => P t ∧ Q t :=
  fun ms t hms hrun => ⟨h ms t hms hrun, h' ms t hms hrun⟩

/-- An invariant holds all along a run. -/
theorem AllStates.of_invariant (hstep : ∀ t l u, P t → T t l u → P u) (hs : P s) : AllStates T s ls P :=
  fun _ _ _ hrun => hrun.invariant hstep hs

theorem AllStates.nil (hs : P s) : AllStates T s [] P := by
  intro ms t hms hrun
  obtain rfl := List.prefix_nil.mp hms
  rwa [hrun.nil_inv]

theorem AllStates.tail {l : ℓ} {u : σ} (hdet : ∀ s l t u, T s l t → T s l u → t = u) (hall : AllStates T s ls P)
    (h : Run T s ls t) (hstep : T t l u) (hu : P u) : AllStates T s (ls ++ [l]) P := by
  intro ms v hms hrun
  rcases List.prefix_concat_iff.mp hms with rfl | hms
  · rwa [hrun.det hdet (h.tail hstep)]
  · exact hall ms v hms hrun

theorem AllStates.append {u : σ} (hdet : ∀ s l t u, T s l t → T s l u → t = u) (hall : AllStates T s ls P)
    (h : Run T s ls t) (hall' : AllStates T t ms P) (h' : Run T t ms u) : AllStates T s (ls ++ ms) P := by
  induction h' with
  | refl => rwa [List.append_nil]
  | tail hrun hstep ih =>
    rw [← List.append_assoc]
    refine (ih fun ns v hns => hall' ns v (hns.trans (List.prefix_append _ _))).tail hdet (h.trans hrun) hstep ?_
    exact hall' _ _ (List.prefix_refl _) (hrun.tail hstep)

/-- The run as one of the transitions that meet the condition. -/
theorem AllSteps.restrict (hall : AllSteps T s ls C) (h : Run T s ls t) :
    Run (fun u l v => T u l v ∧ C u l) s ls t := by
  induction h with
  | refl => exact .refl
  | tail hrun hT ih =>
    exact (ih (hall.of_prefix (List.prefix_append _ _))).tail ⟨hT, hall _ _ _ (List.prefix_refl _) hrun⟩

/-- Where the steps are determined by their labels, a run goes on from each state along it by the label that follows. -/
theorem Run.step_of_prefix (hdet : ∀ s l t u, T s l t → T s l u → t = u) (h : Run T s ls t) {l : ℓ} {u : σ}
    (hms : ms ++ [l] <+: ls) (hrun : Run T s ms u) : ∃ v, T u l v := by
  obtain ⟨ns, rfl⟩ := hms
  obtain ⟨w, hw, -⟩ := h.append_inv
  obtain ⟨v, hv, hT⟩ := hw.snoc_inv
  obtain rfl := hv.det hdet hrun
  exact ⟨w, hT⟩

/-- What holds before every step and at the end holds all along. -/
theorem AllSteps.states (hdet : ∀ s l t u, T s l t → T s l u → t = u) (hall : AllSteps T s ls fun u _ => P u)
    (h : Run T s ls t) (ht : P t) : AllStates T s ls P := by
  rintro ms u ⟨ns, rfl⟩ hrun
  cases ns with
  | nil =>
    rw [List.append_nil] at h
    rwa [hrun.det hdet h]
  | cons l ns => exact hall ms l u ⟨ns, by rw [List.append_assoc, List.singleton_append]⟩ hrun

/-- Where the steps are determined by their labels, what the states after them show holds of the steps. -/
theorem AllStates.allSteps (hdet : ∀ s l t u, T s l t → T s l u → t = u)
    (hstep : ∀ t l u, P t → P u → T t l u → C t l) (hall : AllStates T s ls P) (h : Run T s ls t) :
    AllSteps T s ls C := by
  intro ms l u hms hrun
  obtain ⟨v, hT⟩ := h.step_of_prefix hdet hms hrun
  exact hstep _ _ _ (hall _ _ ((List.prefix_append _ _).trans hms) hrun) (hall _ _ hms (hrun.tail hT)) hT

end Along

/-! ### Step functions -/

/-- The transitions of a step function; a label is an action together with the event it made. -/
def ofStep (step : σ → α → Option (ε × σ)) : σ → α × ε → σ → Prop :=
  fun s l t => step s l.1 = some (l.2, t)

theorem ofStep_det {step : σ → α → Option (ε × σ)} {s t u : σ} {l : α × ε} (h : ofStep step s l t)
    (h' : ofStep step s l u) : t = u := by
  have heq : some (l.2, t) = some (l.2, u) := h.symm.trans h'
  exact (Prod.mk.inj (Option.some.inj heq)).2

/-- Take the actions in order. -/
def exec (step : σ → α → Option (ε × σ)) : σ → List α → Option (List (α × ε) × σ)
  | s, [] => some ([], s)
  | s, a :: rest =>
    match step s a with
    | none => none
    | some (e, t) =>
      match exec step t rest with
      | none => none
      | some (ls, u) => some ((a, e) :: ls, u)

theorem run_of_exec {step : σ → α → Option (ε × σ)} {s t : σ} {as : List α} {ls : List (α × ε)}
    (h : exec step s as = some (ls, t)) : Run (ofStep step) s ls t := by
  induction as generalizing s ls with
  | nil =>
    simp only [exec, Option.some.injEq, Prod.mk.injEq] at h
    obtain ⟨rfl, rfl⟩ := h
    exact .refl
  | cons a rest ih =>
    rw [exec] at h
    split at h
    · cases h
    · next e u hstep =>
      split at h
      · cases h
      · next ms v hexec =>
        cases h
        exact (Run.single (l := (a, e)) hstep).trans (ih hexec)

theorem map_fst_of_exec {step : σ → α → Option (ε × σ)} {s t : σ} {as : List α} {ls : List (α × ε)}
    (h : exec step s as = some (ls, t)) : ls.map Prod.fst = as := by
  induction as generalizing s ls with
  | nil =>
    cases h
    rfl
  | cons a rest ih =>
    rw [exec] at h
    split at h
    · cases h
    · split at h
      · cases h
      · cases h
        rw [List.map_cons, ih ‹_›]

theorem run_exec {step : σ → α → Option (ε × σ)} {s : σ} {as : List α} (h : (exec step s as).isSome) :
    Run (ofStep step) s ((exec step s as).get h).1 ((exec step s as).get h).2 :=
  run_of_exec (Option.some_get h).symm

theorem run_of_foldlM {step : σ → α → Option σ} {s t : σ} {as : List α} (h : as.foldlM step s = some t) :
    Run (fun u a v => step u a = some v) s as t := by
  induction as generalizing s with
  | nil =>
    cases h
    exact .refl
  | cons a rest ih =>
    rw [List.foldlM_cons] at h
    obtain ⟨u, hstep, hrest⟩ := Option.bind_eq_some_iff.mp h
    have hfirst : Run (fun u a v => step u a = some v) s [a] u := .single hstep
    exact hfirst.trans (ih hrest)

/-- The steps that the actions take, each with the state before it. -/
def steps (step : σ → α → Option (ε × σ)) : σ → List α → List (σ × α × ε)
  | _, [] => []
  | s, a :: rest =>
    match step s a with
    | none => []
    | some (e, t) => (s, a, e) :: steps step t rest

theorem allSteps_of_exec {step : σ → α → Option (ε × σ)} {s t : σ} {as : List α} {ls : List (α × ε)}
    {C : σ → α × ε → Prop} (h : exec step s as = some (ls, t)) (hC : ∀ x ∈ steps step s as, C x.1 x.2) :
    AllSteps (ofStep step) s ls C := by
  induction as generalizing s ls with
  | nil =>
    simp only [exec, Option.some.injEq, Prod.mk.injEq] at h
    obtain ⟨rfl, rfl⟩ := h
    intro ms l u hms
    simp at hms
  | cons a rest ih =>
    rw [exec] at h
    split at h
    · cases h
    · next e u hstep =>
      split at h
      · cases h
      · next ms v hexec =>
        cases h
        rw [steps, hstep] at hC
        have hrest := ih hexec fun x hx => hC x (List.mem_cons_of_mem _ hx)
        have hfirst : C s (a, e) := hC (s, a, e) List.mem_cons_self
        intro ns l w hns hrun
        cases ns with
        | nil =>
          obtain rfl := hrun.nil_inv
          obtain ⟨rfl, -⟩ := List.cons_prefix_cons.mp hns
          exact hfirst
        | cons l' ns =>
          obtain ⟨rfl, hns'⟩ := List.cons_prefix_cons.mp hns
          obtain ⟨u', hu', hrun'⟩ := hrun.cons_inv
          obtain rfl := ofStep_det hu' hstep
          exact hrest ns l w hns' hrun'

/-- What holds of all steps of a run that the actions take holds of each of them. -/
theorem AllSteps.of_exec {step : σ → α → Option (ε × σ)} {s t : σ} {as : List α} {ls : List (α × ε)}
    {C : σ → α × ε → Prop} (hall : AllSteps (ofStep step) s ls C) (h : exec step s as = some (ls, t)) :
    ∀ x ∈ steps step s as, C x.1 x.2 := by
  induction as generalizing s ls with
  | nil => simp [steps]
  | cons a rest ih =>
    rw [exec] at h
    split at h
    · cases h
    · next e u hstep =>
      split at h
      · cases h
      · next ms v hexec =>
        cases h
        rw [steps, hstep]
        intro x hx
        rcases List.mem_cons.mp hx with rfl | hx
        · exact hall [] _ s (by simp) .refl
        · refine ih (fun ns l w hns hrun => ?_) hexec x hx
          exact hall ((a, e) :: ns) l w (List.cons_prefix_cons.mpr ⟨rfl, hns⟩) ((Run.single (l := (a, e)) hstep).trans hrun)

theorem allSteps_exec {step : σ → α → Option (ε × σ)} {s : σ} {as : List α} {C : σ → α × ε → Prop}
    (h : (exec step s as).isSome) (hC : ∀ x ∈ steps step s as, C x.1 x.2) :
    AllSteps (ofStep step) s ((exec step s as).get h).1 C :=
  allSteps_of_exec (Option.some_get h).symm hC

/-- The steps that the actions take by a step function without events, each with the state before it. -/
def trail (step : σ → α → Option σ) : σ → List α → List (σ × α)
  | _, [] => []
  | s, a :: rest =>
    (s, a) :: match step s a with
      | none => []
      | some t => trail step t rest

theorem allSteps_of_trail {step : σ → α → Option σ} {s : σ} {as : List α} {C : σ → α → Prop}
    (hC : ∀ x ∈ trail step s as, C x.1 x.2) : AllSteps (fun u a v => step u a = some v) s as C := by
  induction as generalizing s with
  | nil =>
    intro ms l u hms
    simp at hms
  | cons a rest ih =>
    intro ms l u hms hrun
    cases ms with
    | nil =>
      obtain rfl := hrun.nil_inv
      obtain ⟨rfl, -⟩ := List.cons_prefix_cons.mp hms
      exact hC (u, l) List.mem_cons_self
    | cons b ms =>
      obtain ⟨rfl, hms'⟩ := List.cons_prefix_cons.mp hms
      obtain ⟨t, ht, hrun'⟩ := hrun.cons_inv
      refine ih (fun x hx => hC x ?_) ms l u hms' hrun'
      rw [trail, ht]
      exact List.mem_cons_of_mem _ hx

/-! ### The sizes of the systems that are run -/

/-- As a local instance it gives the literals of `Fin 1` a proof with a name. -/
theorem neZero_one : @NeZero Nat Zero.ofOfNat0 1 := ⟨Nat.one_ne_zero⟩

/-- As a local instance it gives the literals of `Fin 2` a proof with a name. -/
theorem neZero_two : @NeZero Nat Zero.ofOfNat0 2 := ⟨Nat.succ_ne_zero 1⟩

end LabSO.Transition

import LabSO.User.PingpongAlone
import Mathlib.Data.Finset.Card

/-! A single run of `pingpong` from any state of the semaphores, with a `fork` that may fail. With one free semaphore
    it exits and leaves that one open; where the `fork` fails, the parent waits for ever for the unit that it took
    itself. -/

namespace LabSO.User
open Kernel Transition

variable {cfg : Config Unit} {s t : State Unit} {p : Unit × Role} {amount index i : Nat} {opened : List Nat}
  {first sems : Nat → Semaphore} {forkFails : Bool} {role : Role} {c pc pc' : Pc} {e : Event} {out : List String}

/-- From every state that the run reaches all its processes can still come to their exit, and when they have, the
    semaphores that were open at the start are open and no others. -/
structure Tidy (cfg : Config Unit) (sems : Nat → Semaphore) : Prop where
  ends : ∀ ls t, Run (Step cfg) (start sems) ls t → ∃ ms u, Run (Step cfg) t ms u ∧ Ended u ()
  closes : ∀ ls t, Run (Step cfg) (start sems) ls t → Ended t () →
    ∀ i < N, (t.sems i).count ≠ -1 ↔ (sems i).count ≠ -1

/-- The closed semaphores. -/
def closedSems (sems : Nat → Semaphore) : Finset Nat := {i ∈ Finset.range N | (sems i).count = -1}

theorem mem_closedSems : i ∈ closedSems sems ↔ i < N ∧ (sems i).count = -1 := by
  rw [closedSems, Finset.mem_filter, Finset.mem_range]

/-! ### The search -/

/-- What the search has found below `index`, where it started with the semaphores `first`. -/
structure Found (first sems : Nat → Semaphore) (index : Nat) (opened : List Nat) : Prop where
  few : opened.length ≤ 2
  nodup : opened.Nodup
  below : ∀ i ∈ opened, i < index
  units : ∀ i ∈ opened, sems i = withUnit
  closed : ∀ i ∈ opened, i ∈ closedSems first
  rest : ∀ i, i ∉ opened → sems i = first i
  all : opened.length = 2 ∨ ∀ i ∈ closedSems first, i < index → i ∈ opened

theorem Found.start : Found first first 0 [] where
  few := Nat.zero_le 2
  nodup := List.nodup_nil
  below := nofun
  units := nofun
  closed := nofun
  rest _ _ := rfl
  all := Or.inr fun _ _ h => absurd h (Nat.not_lt_zero _)

theorem Found.length_le (h : Found first sems index opened) : opened.length ≤ (closedSems first).card := by
  rw [← List.toFinset_card_of_nodup h.nodup]
  exact Finset.card_le_card fun i hi => h.closed i (List.mem_toFinset.mp hi)

/-- A search that has seen every semaphore and found less than two has opened every closed one. -/
theorem Found.length_eq (h : Found first sems index opened) (few : opened.length ≠ 2) (hall : ¬index < 256) :
    opened.length = (closedSems first).card := by
  refine Nat.le_antisymm h.length_le ?_
  have hsub : closedSems first ⊆ opened.toFinset := by
    intro i hi
    have hlt : i < N := (mem_closedSems.mp hi).1
    rcases h.all with htwo | hmem
    · exact absurd htwo few
    · exact List.mem_toFinset.mpr (hmem i hi (hlt.trans_le (Nat.not_lt.mp hall)))
  exact (Finset.card_le_card hsub).trans (List.toFinset_card_le opened)

/-- A semaphore that the search has not come to is as it was. -/
theorem Found.not_mem (h : Found first sems index opened) : index ∉ opened :=
  fun hmem => Nat.lt_irrefl _ (h.below index hmem)

theorem Found.skip (h : Found first sems index opened) (isOpen : (sems index).count ≠ -1) :
    Found first sems (index + 1) opened where
  few := h.few
  nodup := h.nodup
  below i hi := Nat.lt_succ_of_lt (h.below i hi)
  units := h.units
  closed := h.closed
  rest := h.rest
  all := by
    refine h.all.imp_right fun hmem i hi hlt => ?_
    rcases Nat.lt_succ_iff_lt_or_eq.mp hlt with hlt | rfl
    · exact hmem i hi hlt
    · rw [h.rest i h.not_mem] at isOpen
      exact absurd (mem_closedSems.mp hi).2 isOpen

theorem Found.open (h : Found first sems index opened) (few : opened.length ≠ 2) (more : index < 256)
    (isClosed : (sems index).count = -1) :
    Found first (Function.update sems index withUnit) (index + 1) (opened ++ [index]) where
  few := by
    have := h.few
    rw [List.length_append, List.length_singleton]
    omega
  nodup := by
    refine List.nodup_append.mpr ⟨h.nodup, List.nodup_singleton _, ?_⟩
    rintro i hi j hj rfl
    rw [List.mem_singleton.mp hj] at hi
    exact h.not_mem hi
  below := by
    simp only [List.forall_mem_append, List.forall_mem_singleton]
    exact ⟨fun i hi => Nat.lt_succ_of_lt (h.below i hi), Nat.lt_succ_self _⟩
  units := by
    simp only [List.forall_mem_append, List.forall_mem_singleton, Function.update_self, and_true]
    intro i hi
    have hne : i ≠ index := fun heq => h.not_mem (heq ▸ hi)
    rw [Function.update_of_ne hne]
    exact h.units i hi
  closed := by
    simp only [List.forall_mem_append, List.forall_mem_singleton]
    refine ⟨h.closed, mem_closedSems.mpr ⟨more, ?_⟩⟩
    rwa [← h.rest index h.not_mem]
  rest i hi := by
    rw [List.mem_append, List.mem_singleton, not_or] at hi
    rw [Function.update_of_ne hi.2]
    exact h.rest i hi.1
  all := by
    refine Or.inr fun i hi hlt => ?_
    rcases h.all with htwo | hmem
    · exact absurd htwo few
    · rcases Nat.lt_succ_iff_lt_or_eq.mp hlt with hlt | rfl
      · exact List.mem_append_left _ (hmem i hi hlt)
      · exact List.mem_append_right _ List.mem_cons_self

/-- A step of the search: it goes on, it has its two semaphores, or it ends with less. -/
theorem Found.step (h : Found first sems index opened)
    (hstep : pcStep amount forkFails sems c .parent (.scan index opened) = some (e, pc')) :
    (∃ opened', pc' = .scan (index + 1) opened' ∧ Found first (e.sems sems) (index + 1) opened' ∧
      ∀ role q, e.afterPc role q = q) ∨
    (∃ a b, opened = [a, b] ∧ e = .silent ∧ pc' = .body a b (.downFirst .call)) ∨
    (opened.length ≠ 2 ∧ opened.length = (closedSems first).card ∧ e = .print openErrorText ∧ pc' = .failed) := by
  by_cases hopens : ∃ sem, e = .opened index sem
  · obtain ⟨sem, rfl⟩ := hopens
    -- `sem_open` succeeds on a closed semaphore only.
    have isClosed : (sems index).count = -1 := by
      by_contra hcount
      unfold pcStep at hstep
      dsimp only at hstep
      split at hstep
      · rw [Semaphore.openBody, if_pos hcount] at hstep
        cases hstep
      · split at hstep <;> cases hstep
    cases pcStep_cases hstep with
    | opened few more => exact Or.inl ⟨_, rfl, h.open few more isClosed, fun _ _ => rfl⟩
  · cases pcStep_cases hstep with
    | opened => exact absurd ⟨_, rfl⟩ hopens
    | openFails few more isOpen => exact Or.inl ⟨_, rfl, h.skip isOpen, fun _ _ => rfl⟩
    | found => exact Or.inr (Or.inl ⟨_, _, rfl, rfl, rfl⟩)
    | notFound few all => exact Or.inr (Or.inr ⟨few, h.length_eq few all, rfl, rfl⟩)

/-! ### Runs without a child -/

/-- The parent has no child, and with the semaphores it stands as `P` says. -/
def Childless (P : (Nat → Semaphore) → Pc → Prop) (s : State Unit) : Prop :=
  s.procs ((), .child) = .unborn ∧ P s.sems (s.procs ((), .parent))

/-- A step of the parent where it neither forks nor wakes anyone. -/
theorem Childless.step {P : (Nat → Semaphore) → Pc → Prop}
    (hP : ∀ {sems pc e pc'}, P sems pc →
      pcStep (cfg.amount ()) (cfg.forkFails ()) sems .unborn .parent pc = some (e, pc') →
      P (e.sems sems) pc' ∧ ∀ role q, e.afterPc role q = q)
    (h : Childless P s) (hstep : Step cfg s (p, e) t) : Childless P t := by
  obtain ⟨pc', hpc, rfl⟩ := step_inv hstep
  obtain ⟨⟨⟩, role⟩ := p
  rw [h.1] at hpc
  cases role with
  | child =>
    rw [h.1] at hpc
    cases hpc
  | parent =>
    obtain ⟨hP', hsame⟩ := hP h.2 hpc
    constructor
    · refine procs_own.trans ?_
      rw [hsame, Function.update_of_ne (by simp), h.1]
    · show P (e.sems s.sems) (e.procs () _ ((), .parent))
      rw [procs_own, hsame, Function.update_self]
      exact hP'

/-- The search ends without two semaphores. -/
inductive Lacking (first sems : Nat → Semaphore) : Pc → Prop
  | scan {index : Nat} {opened : List Nat} (found : Found first sems index opened) :
    Lacking first sems (.scan index opened)
  | failed {index : Nat} {opened : List Nat} (found : Found first sems index opened)
    (all : opened.length = (closedSems first).card) : Lacking first sems .failed
  | exited {index : Nat} {opened : List Nat} (found : Found first sems index opened)
    (all : opened.length = (closedSems first).card) : Lacking first sems .exited

theorem Lacking.step (few : (closedSems first).card < 2) (h : Lacking first sems pc)
    (hstep : pcStep amount forkFails sems c .parent pc = some (e, pc')) :
    Lacking first (e.sems sems) pc' ∧ ∀ role q, e.afterPc role q = q := by
  cases h with
  | scan found =>
    rcases found.step hstep with ⟨opened', rfl, found', hsame⟩ | ⟨a, b, rfl, -⟩ | ⟨-, hall, rfl, rfl⟩
    · exact ⟨.scan found', hsame⟩
    · exact absurd found.length_le (Nat.not_le_of_lt few)
    · exact ⟨.failed found hall, fun _ _ => rfl⟩
  | failed found all =>
    cases hstep
    exact ⟨.exited found all, fun _ _ => rfl⟩
  | exited => cases hstep

/-- The parent takes the unit of its second semaphore, has no child that could give it back, and waits for it. -/
inductive Stalled (first sems : Nat → Semaphore) : Pc → Prop
  | scan {index : Nat} {opened : List Nat} (found : Found first sems index opened) :
    Stalled first sems (.scan index opened)
  | ready {a b : Nat} (sem2 : sems b = withUnit) : Stalled first sems (.body a b (.downFirst .call))
  | fork {a b : Nat} (sem2 : sems b = noUnit) : Stalled first sems (.body a b .fork)
  | forkFailed {a b : Nat} (sem2 : sems b = noUnit) : Stalled first sems (.body a b .forkFailed)
  | down {a b : Nat} {d : Down} (sem2 : sems b = noUnit) : Stalled first sems (.body a b (.down 0 d))

theorem Stalled.step (hamount : 0 < amount) (two : 2 ≤ (closedSems first).card) (h : Stalled first sems pc)
    (hstep : pcStep amount true sems c .parent pc = some (e, pc')) :
    Stalled first (e.sems sems) pc' ∧ ∀ role q, e.afterPc role q = q := by
  cases h with
  | scan found =>
    rcases found.step hstep with ⟨opened', rfl, found', hsame⟩ | ⟨a, b, rfl, rfl, rfl⟩ | ⟨hne, hall, -⟩
    · exact ⟨.scan found', hsame⟩
    · exact ⟨.ready (found.units b (by simp)), fun _ _ => rfl⟩
    · have := found.few
      omega
  | ready sem2 =>
    rw [pcStep, bodyStep, downStep_takes (by simp) sem2] at hstep
    cases hstep
    exact ⟨.fork (Function.update_self ..), fun _ _ => rfl⟩
  | fork sem2 =>
    cases hstep
    exact ⟨.forkFailed sem2, fun _ _ => rfl⟩
  | forkFailed sem2 =>
    cases hstep
    rw [whileLoop, if_pos hamount]
    exact ⟨.down sem2, fun _ _ => rfl⟩
  | down sem2 =>
    obtain ⟨rfl, rfl, hsame⟩ := down_sleeps sem2 hstep
    rw [hsame]
    exact ⟨.down sem2, fun _ _ => rfl⟩

/-! ### Runs that find two semaphores and fork -/

theorem closeBody_count (sem : Semaphore) : sem.closeBody.2.count = -1 := by
  unfold Semaphore.closeBody
  split
  · assumption
  · rfl

theorem whileLoop_before {k : Nat} : whileLoop amount k ≠ .close2 ∧ whileLoop amount k ≠ .exit := by
  unfold whileLoop
  split <;> simp

theorem closed_close {b : Nat} (i : Nat) (h : (sems b).count = -1) :
    (Function.update sems i (sems i).closeBody.2 b).count = -1 := by
  by_cases hb : b = i
  · subst hb
    rw [Function.update_self, closeBody_count]
  · rwa [Function.update_of_ne hb]

/-- The parent leaves all semaphores alone but its own, and has closed these when it is done. -/
inductive Tidied (first sems : Nat → Semaphore) : Pc → Prop
  | scan {index : Nat} {opened : List Nat} (found : Found first sems index opened) :
    Tidied first sems (.scan index opened)
  | body {a b : Nat} {place : Place} (sem1 : a ∈ closedSems first) (sem2 : b ∈ closedSems first)
    (rest : ∀ i, i ≠ a → i ≠ b → sems i = first i) (close2 : place = .close2 → (sems a).count = -1)
    (exit : place = .exit → (sems a).count = -1 ∧ (sems b).count = -1) : Tidied first sems (.body a b place)
  | exited (same : ∀ i, (sems i).count = -1 ↔ (first i).count = -1) : Tidied first sems .exited

/-- A process that has its semaphores changes no other one. -/
theorem body_sems {a b : Nat} {place : Place}
    (hstep : pcStep amount forkFails sems c role (.body a b place) = some (e, pc')) (ha : i ≠ a) (hb : i ≠ b) :
    e.sems sems i = sems i := by
  refine sems_of_ne ?_ fun hacts => ?_
  · cases pcStep_cases hstep <;> nofun
  · exact (uses_body ((pcStep_uses hstep).acts i hacts)).elim ha hb

theorem Tidied.parent_step (two : 2 ≤ (closedSems first).card) (h : Tidied first sems pc)
    (hstep : pcStep amount false sems c .parent pc = some (e, pc')) :
    Tidied first (e.sems sems) pc' := by
  cases h with
  | scan found =>
    rcases found.step hstep with ⟨opened', rfl, found', -⟩ | ⟨a, b, rfl, rfl, rfl⟩ | ⟨hne, hall, -⟩
    · exact .scan found'
    · refine .body (found.closed a (by simp)) (found.closed b (by simp)) (fun i ha hb => ?_) nofun nofun
      exact found.rest i (by simp [ha, hb])
    · have := found.few
      omega
  | @body a b place sem1 sem2 rest close2 exit =>
    have hrest : ∀ i, i ≠ a → i ≠ b → e.sems sems i = first i :=
      fun i ha hb => (body_sems hstep ha hb).trans (rest i ha hb)
    have hgo : ∀ {place'}, place' ≠ .close2 ∧ place' ≠ .exit → Tidied first (e.sems sems) (.body a b place') :=
      fun hne => .body sem1 sem2 hrest (fun h => absurd h hne.1) (fun h => absurd h hne.2)
    cases place with
    | close1 =>
      cases hstep
      refine .body sem1 sem2 hrest (fun _ => ?_) nofun
      exact (congrArg _ (Function.update_self ..)).trans (closeBody_count _)
    | close2 =>
      cases hstep
      refine .body sem1 sem2 hrest nofun fun _ => ?_
      exact ⟨closed_close _ (close2 rfl), (congrArg _ (Function.update_self ..)).trans (closeBody_count _)⟩
    | exit =>
      cases hstep
      refine .exited fun i => ?_
      by_cases ha : i = a
      · subst ha
        exact iff_of_true (exit rfl).1 (mem_closedSems.mp sem1).2
      · by_cases hb : i = b
        · subst hb
          exact iff_of_true (exit rfl).2 (mem_closedSems.mp sem2).2
        · rw [hrest i ha hb]
    | fork =>
      cases pcStep_cases hstep with
      | fork => exact hgo whileLoop_before
      | forkFails => exact hgo (by simp)
    | forkFailed | up k =>
      cases pcStep_cases hstep
      exact hgo whileLoop_before
    | _ => cases pcStep_cases hstep <;> exact hgo (by simp)
  | exited => cases hstep

/-- Waking a process changes its place in a `sem_down` at most. -/
theorem wakeOn_cases (i : Nat) (role : Role) (pc : Pc) : pc.wakeOn i role = pc ∨
    ∃ a b place place', pc = .body a b place ∧ pc.wakeOn i role = .body a b place' ∧ place' ≠ .close2 ∧
      place' ≠ .exit := by
  unfold Pc.wakeOn Pc.wake
  split
  · split
    · exact Or.inr ⟨_, _, _, _, rfl, rfl, by simp⟩
    · exact Or.inr ⟨_, _, _, _, rfl, rfl, by simp⟩
    · exact Or.inl rfl
  · exact Or.inl rfl

theorem Tidied.afterPc (h : Tidied first sems pc) (e : Event) : Tidied first sems (e.afterPc .parent pc) := by
  cases e with
  | up i sem wakes =>
    rw [afterPc_up]
    split
    · rcases wakeOn_cases i .parent pc with hsame | ⟨a, b, place, place', rfl, hwake, hclose2, hexit⟩
      · rwa [hsame]
      · rw [hwake]
        cases h with
        | body sem1 sem2 rest =>
          exact .body sem1 sem2 rest (fun h => absurd h hclose2) (fun h => absurd h hexit)
    · exact h
  | _ => exact h

/-- While the child takes steps, its parent has not come to the end. -/
theorem RunOk.child_body (h : RunOk amount sems pc c out) (hstep : pcStep amount false sems c .child c = some (e, pc')) :
    ∃ a b place place', pc = .body a b place ∧ c = .body a b place' ∧ place ≠ .close2 ∧ place ≠ .exit := by
  cases h with
  | scan | ready | forking | closing | finished => cases hstep
  | lastTurn last parent child | lastPrint last child | lastUp last child | waiting child =>
    cases child with
    | exited => cases hstep
    | _ => exact ⟨_, _, _, _, rfl, rfl, by simp⟩
  | _ => exact ⟨_, _, _, _, rfl, rfl, by simp⟩

theorem Tidied.child_step (h : Tidied first sems pc) (hrun : RunOk amount sems pc c out)
    (hstep : pcStep amount false sems c .child c = some (e, pc')) : Tidied first (e.sems sems) pc := by
  obtain ⟨a, b, place, place', rfl, rfl, hclose2, hexit⟩ := hrun.child_body hstep
  cases h with
  | body sem1 sem2 rest close2 exit =>
    refine .body sem1 sem2 (fun i ha hb => ?_) (fun h => absurd h hclose2) (fun h => absurd h hexit)
    exact (body_sems hstep ha hb).trans (rest i ha hb)

/-- The processes of the run are in step with each other, and the parent keeps the semaphores in order. -/
structure Orderly (cfg : Config Unit) (first : Nat → Semaphore) (s : State Unit) : Prop where
  inv : Inv cfg s
  tidied : Tidied first s.sems (s.procs ((), .parent))

theorem orderly_start : Orderly cfg sems (start sems) := ⟨inv_start, .scan .start⟩

theorem Orderly.step (hfork : cfg.forkFails () = false) (two : 2 ≤ (closedSems first).card) (h : Orderly cfg first s)
    (hstep : Step cfg s (p, e) t) : Orderly cfg first t := by
  constructor
  · refine h.inv.step (fun _ => hfork) (alone_apart h.inv (fun index opened hscan hlen => ?_) hstep) hstep
    have htidied := h.tidied
    rw [hscan] at htidied
    cases htidied with
    | scan found =>
      by_contra hall
      have := found.length_eq hlen hall
      have := found.few
      omega
  · obtain ⟨pc', hpc, rfl⟩ := step_inv hstep
    obtain ⟨⟨⟩, role⟩ := p
    rw [hfork] at hpc
    show Tidied first (e.sems s.sems) (e.procs () _ ((), .parent))
    rw [procs_own]
    refine Tidied.afterPc ?_ e
    cases role with
    | parent =>
      rw [Function.update_self]
      exact h.tidied.parent_step two hpc
    | child =>
      rw [Function.update_of_ne (by simp)]
      exact h.tidied.child_step (h.inv.runs ()) hpc

/-! ### When the run is tidy -/

/-- An invariant that lets the parent and the child come to their exit. -/
theorem ends_of_invariant {I : State Unit → Prop} {m : State Unit → Nat} (hinv : ∀ s l t, I s → Step cfg s l t → I t)
    (hs : I (start sems)) (hgo : ∀ s, I s → ¬Ended s () → ∃ l t, Step cfg s l t)
    (hless : ∀ s l t, I s → Step cfg s l t → m t < m s) (ls : List ((Unit × Role) × Event)) (t : State Unit)
    (hrun : Run (Step cfg) (start sems) ls t) : ∃ ms u, Run (Step cfg) t ms u ∧ Ended u () := by
  refine Run.exists_of_measure (I := I) (m := m) (fun s hI hleft => ?_) (hrun.invariant hinv hs)
  obtain ⟨l, u, hstep⟩ := hgo s hI hleft
  exact ⟨l, u, hstep, hinv s l u hI hstep, hless s l u hI hstep⟩

theorem Childless.start {P : (Nat → Semaphore) → Pc → Prop} (h : P sems (.scan 0 [])) :
    Childless P (LabSO.User.start sems) := ⟨rfl, h⟩

theorem Childless.weight_step {P : (Nat → Semaphore) → Pc → Prop} (h : Childless P s)
    (hresumes : (s.procs ((), .parent)).Resumes s.sems .parent) (hstep : Step cfg s (p, e) t) :
    (t.procs ((), .parent)).weight (cfg.amount ()) < (s.procs ((), .parent)).weight (cfg.amount ()) := by
  obtain ⟨pc', hpc, rfl⟩ := step_inv hstep
  obtain ⟨⟨⟩, role⟩ := p
  cases role with
  | child =>
    rw [h.1] at hpc
    cases hpc
  | parent =>
    have hafter := afterPc_weight (cfg.amount ()) .parent pc' e
    have hless := pcStep_weight hresumes hpc
    rw [if_neg (by simp)] at hafter
    show (e.procs () _ ((), .parent)).weight _ < _
    rw [procs_own, Function.update_self]
    exact hafter.trans_lt ((Nat.le_add_right _ _).trans_lt hless)

theorem Lacking.go (h : Childless (Lacking first) s) (hleft : ¬Ended s ()) : ∃ l t, Step cfg s l t := by
  have hsome : (pcStep (cfg.amount ()) (cfg.forkFails ()) s.sems (s.procs ((), .child)) .parent
      (s.procs ((), .parent))).isSome := by
    obtain ⟨hchild, hparent⟩ := h
    generalize hpc : s.procs ((), .parent) = pc at hparent
    cases hparent with
    | scan => exact scan_isSome
    | failed => rfl
    | exited =>
      refine absurd (fun role => ?_) hleft
      cases role with
      | parent => exact Or.inr hpc
      | child => exact Or.inl hchild
  obtain ⟨⟨e, pc⟩, hpc⟩ := Option.isSome_iff_exists.mp hsome
  exact ⟨(((), .parent), e), _, Option.map_eq_some_iff.mpr ⟨(e, pc), hpc, rfl⟩⟩

theorem Lacking.resumes (h : Lacking first sems pc) : pc.Resumes sems .parent := by cases h <;> trivial

/-- The end of a run that lacks a semaphore: what it has opened is left open. -/
theorem Lacking.ended (h : Childless (Lacking first) s) (hended : Ended s ()) :
    ∃ index opened, Found first s.sems index opened ∧ opened.length = (closedSems first).card := by
  obtain ⟨-, hparent⟩ := h
  have hend := hended .parent
  generalize s.procs ((), .parent) = pc at hparent hend
  cases hparent with
  | exited found all => exact ⟨_, _, found, all⟩
  | scan | failed => simp at hend

theorem lacking_tidy (few : (closedSems sems).card < 2) (h : (closedSems sems).card = 0) : Tidy cfg sems := by
  have hinv : ∀ s l t, Childless (Lacking sems) s → Step cfg s l t → Childless (Lacking sems) t :=
    fun s l t hs hstep => hs.step (fun h hpc => h.step few hpc) hstep
  have hstart : Childless (Lacking sems) (start sems) := .start (.scan .start)
  constructor
  · exact ends_of_invariant hinv hstart (fun s hs hleft => Lacking.go hs hleft)
      fun s l t hs hstep => hs.weight_step hs.2.resumes hstep
  · intro ls t hrun hended i hi
    obtain ⟨index, opened, found, hall⟩ := Lacking.ended (hrun.invariant hinv hstart) hended
    rw [h, List.length_eq_zero_iff] at hall
    rw [found.rest i (by simp [hall])]

/-- With one free semaphore the run leaves it open. -/
theorem not_tidy_of_one (h : (closedSems sems).card = 1) : ¬Tidy cfg sems := by
  intro htidy
  have hinv : ∀ s l t, Childless (Lacking sems) s → Step cfg s l t → Childless (Lacking sems) t :=
    fun s l t hs hstep => hs.step (fun hl hpc => hl.step (by omega) hpc) hstep
  obtain ⟨ls, t, hrun, hended⟩ := htidy.ends [] _ .refl
  obtain ⟨index, opened, found, hall⟩ := Lacking.ended (hrun.invariant hinv (.start (.scan .start))) hended
  obtain ⟨i, rfl⟩ := List.length_eq_one_iff.mp (hall.trans h)
  obtain ⟨hi, hclosed⟩ := mem_closedSems.mp (found.closed i (by simp))
  refine (htidy.closes ls t hrun hended i hi).mp ?_ hclosed
  rw [found.units i (by simp)]
  decide

/-- Where two semaphores are free and the `fork` fails, the parent never comes to its exit. -/
theorem not_tidy_of_stalled (hamount : 0 < cfg.amount ()) (two : 2 ≤ (closedSems sems).card)
    (hfork : cfg.forkFails () = true) : ¬Tidy cfg sems := by
  intro htidy
  have hinv : ∀ s l t, Childless (Stalled sems) s → Step cfg s l t → Childless (Stalled sems) t :=
    fun s l t hs hstep => hs.step (fun hl hpc => hl.step hamount two (hfork ▸ hpc)) hstep
  obtain ⟨ls, t, hrun, hended⟩ := htidy.ends [] _ .refl
  obtain ⟨-, hparent⟩ : Childless (Stalled sems) t := hrun.invariant hinv (.start (.scan .start))
  have hend := hended .parent
  generalize t.procs ((), .parent) = pc at hparent hend
  cases hparent <;> simp at hend

theorem orderly_tidy (two : 2 ≤ (closedSems sems).card) (hfork : cfg.forkFails () = false) : Tidy cfg sems := by
  have hinv : ∀ s l t, Orderly cfg sems s → Step cfg s l t → Orderly cfg sems t :=
    fun s l t hs hstep => hs.step hfork two hstep
  constructor
  · refine ends_of_invariant hinv orderly_start (fun s hs hleft => ?_) (m := fun s => s.weight cfg ()) ?_
    · obtain ⟨role, e, t, hstep⟩ := (hs.inv.independent fun _ => hfork).live () hleft
      exact ⟨_, t, hstep⟩
    · intro s l t hs hstep
      have := weight_step hfork hs.inv hstep ()
      rwa [if_pos (Subsingleton.elim _ _)] at this
  · intro ls t hrun hended i hi
    have hs := hrun.invariant hinv orderly_start
    have htidied := hs.tidied
    rcases hended .parent with hparent | hparent
    · have hrun := hs.inv.runs ()
      rw [hparent] at hrun
      cases hrun
    · rw [hparent] at htidied
      cases htidied with
      | exited same => exact not_congr (same i)

/-- A run with at least one round is tidy exactly where it finds no semaphore at all, or two and its `fork` succeeds. -/
theorem tidy_iff (hamount : 0 < cfg.amount ()) : Tidy cfg sems ↔
    (closedSems sems).card = 0 ∨ 2 ≤ (closedSems sems).card ∧ cfg.forkFails () = false := by
  constructor
  · intro htidy
    by_cases two : 2 ≤ (closedSems sems).card
    · refine Or.inr ⟨two, ?_⟩
      by_contra hfork
      exact not_tidy_of_stalled hamount two (by simpa using hfork) htidy
    · by_contra hne
      exact not_tidy_of_one (by omega) htidy
  · rintro (hnone | ⟨two, hfork⟩)
    · exact lacking_tidy (by omega) hnone
    · exact orderly_tidy two hfork

/-- Only the semaphore 5 is free. -/
def onlyFive (i : Nat) : Semaphore := if i = 5 then .init else withUnit

/-- A run with one round whose `fork` fails. -/
def forkRefused : Config Unit where
  amount _ := 1
  forkFails _ := true

theorem card_closed_init : 2 ≤ (closedSems fun _ => .init).card := by decide +kernel

theorem tidy_iff_oneRound : Tidy oneRound (fun _ => .init) := (tidy_iff Nat.one_pos).mpr (Or.inr ⟨card_closed_init, rfl⟩)

/-- A run that leaves a semaphore open, and one that waits for ever. -/
theorem not_tidy_onlyFive : ¬Tidy oneRound onlyFive ∧ ¬Tidy forkRefused fun _ => .init :=
  ⟨not_tidy_of_one (by decide +kernel), not_tidy_of_stalled Nat.one_pos card_closed_init rfl⟩

end LabSO.User

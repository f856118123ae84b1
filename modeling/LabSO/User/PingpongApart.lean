import LabSO.User.PingpongRun
import Mathlib.Data.Fintype.Prod

/-! Several runs of `pingpong` at a time. Both processes of a run close its semaphores at the end, and the first that
    does lets another run open them again while the second still uses them. Where that does not happen, every run
    keeps to its own semaphores and comes to its end. -/

namespace LabSO.User
open Kernel Transition

variable {ρ : Type} [DecidableEq ρ] {cfg : Config ρ} {s t : State ρ} {p : ρ × Role} {r : ρ} {role : Role}
  {amount i : Nat} {forkFails : Bool} {sems sems' : Nat → Semaphore} {procs : ρ × Role → Pc} {c pc pc' : Pc} {e : Event}
  {out : List String}

instance : Fintype Role := ⟨{.parent, .child}, fun role => by cases role <;> decide⟩

/-! ### The semaphores of a process -/

/-- The process may still pass `i` to `sem_down`, `sem_up` or `sem_close`. -/
def Pc.Uses (i : Nat) : Pc → Prop
  | .scan _ opened => i ∈ opened
  | .body sem1 sem2 place => place ≠ .exit ∧ (i = sem1 ∧ place ≠ .close2 ∨ i = sem2)
  | _ => False

instance (i : Nat) : (pc : Pc) → Decidable (pc.Uses i)
  | .scan _ opened => inferInstanceAs (Decidable (i ∈ opened))
  | .body sem1 sem2 place => inferInstanceAs (Decidable (place ≠ .exit ∧ (i = sem1 ∧ place ≠ .close2 ∨ i = sem2)))
  | .unborn | .failed | .exited => inferInstanceAs (Decidable False)

/-- The semaphore that a step opens. -/
def Event.opens? : Event → Option Nat
  | opened i _ => some i
  | _ => none

/-- The semaphore that a step takes, gives back or closes. -/
def Event.acts? : Event → Option Nat
  | down i _ | up i _ _ | close i _ => some i
  | _ => none

theorem sems_of_ne (hopens : e.opens? ≠ some i) (hacts : e.acts? ≠ some i) : e.sems sems i = sems i := by
  cases e with
  | opened j sem => exact Function.update_of_ne (fun heq => hopens (congrArg some heq.symm)) _ _
  | down j sem | up j sem wakes | close j sem =>
    exact Function.update_of_ne (fun heq => hacts (congrArg some heq.symm)) _ _
  | silent | fork | print => rfl

theorem wakeOn_uses {j : Nat} : (pc.wakeOn i role).Uses j ↔ pc.Uses j := by
  unfold Pc.wakeOn Pc.wake
  split
  · split <;> simp [Pc.Uses]
  · rfl

theorem chan_uses (h : pc.chan? role = some i) : pc.Uses i := by
  unfold Pc.chan? at h
  split at h
  · cases h
    exact ⟨by simp, Or.inr rfl⟩
  · cases h
    cases role with
    | parent => exact ⟨by simp, Or.inr rfl⟩
    | child => exact ⟨by simp, Or.inl ⟨rfl, by simp⟩⟩
  · cases h

/-- What a process has left to use after a step, and what the step acts on. -/
structure UsesOf (pc pc' : Pc) (e : Event) : Prop where
  kept : ∀ i, pc'.Uses i → pc.Uses i ∨ e.opens? = some i
  acts : ∀ i, e.acts? = some i → pc.Uses i
  fork : ∀ child, e = .fork child → ∀ i, child.Uses i → pc.Uses i

/-- A process uses both its semaphores until it closes the first. -/
theorem body_uses {a b : Nat} {place : Place} (hexit : place ≠ .exit) (hclose : place ≠ .close2) (h : i = a ∨ i = b) :
    (Pc.body a b place).Uses i :=
  ⟨hexit, h.imp_left fun ha => ⟨ha, hclose⟩⟩

theorem uses_body {a b : Nat} {place : Place} (h : (Pc.body a b place).Uses i) : i = a ∨ i = b := h.2.imp And.left id

theorem pcStep_uses (hstep : pcStep amount forkFails sems c role pc = some (e, pc')) : UsesOf pc pc' e := by
  cases pcStep_cases hstep with
  | opened =>
    refine ⟨fun i hi => ?_, (by rintro _ ⟨⟩), by rintro _ ⟨⟩⟩
    rcases List.mem_append.mp hi with hi | hi
    · exact Or.inl hi
    · exact Or.inr (by rw [List.mem_singleton.mp hi]; rfl)
  | openFails => exact ⟨fun _ h => Or.inl h, (by rintro _ ⟨⟩), by rintro _ ⟨⟩⟩
  | found => exact ⟨fun i hi => Or.inl (by simpa [Pc.Uses] using uses_body hi), (by rintro _ ⟨⟩), by rintro _ ⟨⟩⟩
  | notFound | failed | exit => exact ⟨fun _ h => h.elim, (by rintro _ ⟨⟩), by rintro _ ⟨⟩⟩
  | downFirst | downFirstSleeps =>
    refine ⟨fun i hi => Or.inl (body_uses (by rintro ⟨⟩) (by rintro ⟨⟩) (uses_body hi)), fun i hi => ?_, by rintro _ ⟨⟩⟩
    cases hi
    exact body_uses (by rintro ⟨⟩) (by rintro ⟨⟩) (Or.inr rfl)
  | down | downSleeps =>
    refine ⟨fun i hi => Or.inl (body_uses (by rintro ⟨⟩) (by rintro ⟨⟩) (uses_body hi)), fun i hi => ?_, by rintro _ ⟨⟩⟩
    cases hi
    exact body_uses (by rintro ⟨⟩) (by rintro ⟨⟩) (by cases role <;> simp [downIndex])
  | fork =>
    refine ⟨fun i hi => Or.inl (body_uses (by rintro ⟨⟩) (by rintro ⟨⟩) (uses_body hi)), (by rintro _ ⟨⟩), fun child h i hi => ?_⟩
    cases h
    exact body_uses (by rintro ⟨⟩) (by rintro ⟨⟩) (uses_body hi)
  | forkFails | forkFailed | print | wait =>
    exact ⟨fun i hi => Or.inl (body_uses (by rintro ⟨⟩) (by rintro ⟨⟩) (uses_body hi)), (by rintro _ ⟨⟩), by rintro _ ⟨⟩⟩
  | up =>
    refine ⟨fun i hi => Or.inl (body_uses (by rintro ⟨⟩) (by rintro ⟨⟩) (uses_body hi)), fun i hi => ?_, by rintro _ ⟨⟩⟩
    cases hi
    exact body_uses (by rintro ⟨⟩) (by rintro ⟨⟩) (by cases role <;> simp [upIndex])
  | close1 =>
    refine ⟨fun i hi => Or.inl (body_uses (by rintro ⟨⟩) (by rintro ⟨⟩) (uses_body hi)), fun i hi => ?_, by rintro _ ⟨⟩⟩
    cases hi
    exact body_uses (by rintro ⟨⟩) (by rintro ⟨⟩) (Or.inl rfl)
  | close2 =>
    refine ⟨fun i hi => absurd rfl hi.1, fun i hi => ?_, by rintro _ ⟨⟩⟩
    cases hi
    exact ⟨(by rintro ⟨⟩), Or.inr rfl⟩

/-! ### The invariant -/

/-- A run depends on the semaphores that its parent uses only. -/
theorem RunOk.congr (h : RunOk amount sems pc c out) (hsame : ∀ i, pc.Uses i → sems' i = sems i) :
    RunOk amount sems' pc c out := by
  have hsem1 : ∀ {a b : Nat} {place : Place} {sem : Semaphore}, pc = .body a b place → place ≠ .exit →
      place ≠ .close2 → sems a = sem → sems' a = sem := by
    rintro a b place sem rfl hexit hclose rfl
    exact hsame a ⟨hexit, Or.inl ⟨rfl, hclose⟩⟩
  have hsem2 : ∀ {a b : Nat} {place : Place} {sem : Semaphore}, pc = .body a b place → place ≠ .exit →
      sems b = sem → sems' b = sem := by
    rintro a b place sem rfl hexit rfl
    exact hsame b ⟨hexit, Or.inr rfl⟩
  cases h with
  | scan few nodup below units =>
    refine .scan few nodup below fun i hi => ?_
    rw [hsame i hi]
    exact units i hi
  | ready ne sem1 sem2 => exact .ready ne (hsem1 rfl (by simp) (by simp) sem1) (hsem2 rfl (by simp) sem2)
  | forking ne sem1 sem2 => exact .forking ne (hsem1 rfl (by simp) (by simp) sem1) (hsem2 rfl (by simp) sem2)
  | childTurn ne more parent child sem1 sem2 =>
    exact .childTurn ne more parent child (hsem1 rfl (by simp) (by simp) sem1) (hsem2 rfl (by simp) sem2)
  | childPrint ne more parent sem1 sem2 =>
    exact .childPrint ne more parent (hsem1 rfl (by simp) (by simp) sem1) (hsem2 rfl (by simp) sem2)
  | childUp ne more parent sem1 sem2 =>
    exact .childUp ne more parent (hsem1 rfl (by simp) (by simp) sem1) (hsem2 rfl (by simp) sem2)
  | parentTurn ne more parent child sem1 sem2 =>
    exact .parentTurn ne more parent child (hsem1 rfl (by simp) (by simp) sem1) (hsem2 rfl (by simp) sem2)
  | parentPrint ne more child sem1 sem2 =>
    exact .parentPrint ne more child (hsem1 rfl (by simp) (by simp) sem1) (hsem2 rfl (by simp) sem2)
  | parentUp ne more child sem1 sem2 =>
    exact .parentUp ne more child (hsem1 rfl (by simp) (by simp) sem1) (hsem2 rfl (by simp) sem2)
  | lastTurn last parent child sem2 =>
    refine .lastTurn last parent child ?_
    rw [hsem2 rfl (by simp) rfl]
    exact sem2
  | lastPrint last child => exact .lastPrint last child
  | lastUp last child => exact .lastUp last child
  | waiting child => exact .waiting child
  | closing at_end => exact .closing at_end
  | finished => exact .finished

/-- What a process may still use its run opened last, and every run is as if it were alone. -/
structure Inv (cfg : Config ρ) (s : State ρ) : Prop where
  owned : ∀ p i, (s.procs p).Uses i → s.opener i = some p.1
  runs : ∀ r, RunOk (cfg.amount r) s.sems (s.procs (r, .parent)) (s.procs (r, .child)) (s.output r)

/-- The step opens no semaphore that a process of another run still uses, and it is not the end of a search that
    found less than two. -/
def Apart (s : State ρ) (l : (ρ × Role) × Event) : Prop :=
  (∀ i ∈ l.2.opens?, ∀ p : ρ × Role, p.1 ≠ l.1.1 → ¬(s.procs p).Uses i) ∧ l.2 ≠ .print openErrorText

instance [Fintype ρ] (s : State ρ) (l : (ρ × Role) × Event) : Decidable (Apart s l) :=
  inferInstanceAs (Decidable ((∀ i ∈ l.2.opens?, ∀ p : ρ × Role, p.1 ≠ l.1.1 → ¬(s.procs p).Uses i) ∧ _))

omit [DecidableEq ρ] in
theorem inv_start : Inv cfg (start sems) where
  owned := by
    rintro ⟨r, role⟩ i h
    cases role with
    | parent => cases h
    | child => cases h
  runs _ := .scan (Nat.zero_le 2) List.nodup_nil nofun nofun

theorem step_inv (h : Step cfg s (p, e) t) : ∃ pc,
    pcStep (cfg.amount p.1) (cfg.forkFails p.1) s.sems (s.procs (p.1, .child)) p.2 (s.procs p) = some (e, pc) ∧
      t = { sems := e.sems s.sems
            opener := e.opener p.1 s.opener
            procs := e.procs p.1 (Function.update s.procs p pc)
            output := e.output p.1 s.output } := by
  obtain ⟨⟨e, pc⟩, hstep, heq⟩ := Option.map_eq_some_iff.mp h
  cases heq
  exact ⟨pc, hstep, rfl⟩

theorem procs_uses (h : (e.procs r procs p).Uses i) :
    (procs p).Uses i ∨ ∃ child, e = .fork child ∧ p = (r, .child) ∧ child.Uses i := by
  cases e with
  | up j sem wakes =>
    cases wakes with
    | true => exact Or.inl (wakeOn_uses.mp h)
    | false => exact Or.inl h
  | fork child =>
    by_cases hp : p = (r, .child)
    · rw [Event.procs, hp, Function.update_self] at h
      exact Or.inr ⟨child, rfl, hp, h⟩
    · rw [Event.procs, Function.update_of_ne hp] at h
      exact Or.inl h
  | _ => exact Or.inl h

theorem procs_own : e.procs r procs (r, role) = e.afterPc role (procs (r, role)) := by
  cases e with
  | up j sem wakes => cases wakes <;> rfl
  | fork child =>
    cases role with
    | child => exact Function.update_self ..
    | parent => exact Function.update_of_ne (by simp) _ _
  | _ => rfl

/-- A step leaves a process of another run as it was, unless that sleeps on the semaphore of the step. -/
theorem procs_other (hr : p.1 ≠ r) (hchan : ∀ i, e.acts? = some i → (procs p).chan? p.2 ≠ some i) :
    e.procs r procs p = procs p := by
  cases e with
  | up j sem wakes =>
    cases wakes with
    | true => exact if_neg (hchan j rfl)
    | false => rfl
  | fork child => exact Function.update_of_ne (fun heq => hr (congrArg Prod.fst heq)) _ _
  | _ => rfl

theorem output_own : e.output r s.output r = e.afterOutput (s.output r) := by
  cases e with
  | print text => exact Function.update_self ..
  | _ => rfl

theorem output_other {r' : ρ} (hr : r' ≠ r) : e.output r s.output r' = s.output r' := by
  cases e with
  | print text => exact Function.update_of_ne hr _ _
  | _ => rfl

omit [DecidableEq ρ] in
theorem opener_of_ne {opener : Nat → Option ρ} (h : e.opens? ≠ some i) : e.opener r opener i = opener i := by
  cases e with
  | opened j sem => exact Function.update_of_ne (fun heq => h (congrArg some heq.symm)) _ _
  | _ => rfl

omit [DecidableEq ρ] in
theorem opener_of_opens {opener : Nat → Option ρ} (h : e.opens? = some i) : e.opener r opener i = some r := by
  cases e with
  | opened j sem =>
    cases h
    exact Function.update_self ..
  | _ => cases h

theorem Inv.owned_step (inv : Inv cfg s) (hapart : Apart s (p, e)) (hstep : Step cfg s (p, e) t) :
    ∀ q i, (t.procs q).Uses i → t.opener i = some q.1 := by
  obtain ⟨pc, hpc, rfl⟩ := step_inv hstep
  have uses := pcStep_uses hpc
  intro q i hq
  show e.opener p.1 s.opener i = some q.1
  -- The process used the semaphore before, or its run has just opened it.
  have hbefore : (∃ q', q'.1 = q.1 ∧ (s.procs q').Uses i) ∨ (q.1 = p.1 ∧ e.opens? = some i) := by
    rcases procs_uses hq with hq | ⟨child, hfork, rfl, hchild⟩
    · by_cases hqp : q = p
      · subst hqp
        rw [Function.update_self] at hq
        rcases uses.kept i hq with hq | hopens
        · exact Or.inl ⟨q, rfl, hq⟩
        · exact Or.inr ⟨rfl, hopens⟩
      · rw [Function.update_of_ne hqp] at hq
        exact Or.inl ⟨q, rfl, hq⟩
    · exact Or.inl ⟨p, rfl, uses.fork child hfork i hchild⟩
  rcases hbefore with ⟨q', hrun, huses⟩ | ⟨hrun, hopens⟩
  · by_cases hopens : e.opens? = some i
    · by_cases hother : q'.1 = p.1
      · rw [opener_of_opens hopens, ← hrun, hother]
      · exact absurd huses (hapart.1 i hopens q' hother)
    · rw [opener_of_ne hopens, inv.owned q' i huses, hrun]
  · rw [opener_of_opens hopens, hrun]

/-- The run of a step. -/
theorem Inv.own_step (inv : Inv cfg s) (hfork : cfg.forkFails p.1 = false) (hapart : Apart s (p, e))
    (hstep : Step cfg s (p, e) t) :
    RunOk (cfg.amount p.1) t.sems (t.procs (p.1, .parent)) (t.procs (p.1, .child)) (t.output p.1) := by
  obtain ⟨pc, hpc, rfl⟩ := step_inv hstep
  have hrun := inv.runs p.1
  obtain ⟨r, role⟩ := p
  rw [hfork] at hpc
  show RunOk (cfg.amount r) (e.sems s.sems) (e.procs r _ (r, .parent)) (e.procs r _ (r, .child)) (e.output r s.output r)
  rw [procs_own, procs_own, output_own]
  cases role with
  | parent =>
    rw [Function.update_self, Function.update_of_ne (by simp)]
    exact hrun.parent_step hpc hapart.2
  | child =>
    rw [Function.update_self, Function.update_of_ne (by simp)]
    exact hrun.child_step hpc

/-- The other runs: a step touches nothing that they use. -/
theorem Inv.other_step (inv : Inv cfg s) (hapart : Apart s (p, e)) (hstep : Step cfg s (p, e) t) {r : ρ}
    (hr : r ≠ p.1) : RunOk (cfg.amount r) t.sems (t.procs (r, .parent)) (t.procs (r, .child)) (t.output r) := by
  obtain ⟨pc, hpc, rfl⟩ := step_inv hstep
  have uses := pcStep_uses hpc
  have hacts : ∀ q : ρ × Role, q.1 = r → ∀ i, (s.procs q).Uses i → e.acts? ≠ some i := by
    rintro q rfl i huses heq
    have howner := inv.owned p i (uses.acts i heq)
    rw [inv.owned q i huses] at howner
    exact hr (Option.some.inj howner)
  have hprocs : ∀ role, e.procs p.1 (Function.update s.procs p pc) (r, role) = s.procs (r, role) := by
    intro role
    have hne : ((r, role) : ρ × Role) ≠ p := fun heq => hr (congrArg Prod.fst heq)
    rw [procs_other hr, Function.update_of_ne hne]
    intro i hi hchan
    rw [Function.update_of_ne hne] at hchan
    exact hacts (r, role) rfl i (chan_uses hchan) hi
  show RunOk (cfg.amount r) (e.sems s.sems) (e.procs p.1 _ (r, .parent)) (e.procs p.1 _ (r, .child))
    (e.output p.1 s.output r)
  rw [hprocs, hprocs, output_other hr]
  refine (inv.runs r).congr fun i hi => sems_of_ne (fun hopens => ?_) (hacts _ rfl i hi)
  exact hapart.1 i hopens (r, .parent) hr hi

theorem Inv.step (hforks : ∀ r, cfg.forkFails r = false) (inv : Inv cfg s) (hapart : Apart s (p, e))
    (hstep : Step cfg s (p, e) t) : Inv cfg t where
  owned := inv.owned_step hapart hstep
  runs r := by
    by_cases hr : r = p.1
    · subst hr
      exact inv.own_step (hforks _) hapart hstep
    · exact inv.other_step hapart hstep hr

/-! ### The steps that a run has left -/

/-- A bound on the steps that the processes of a run still take. -/
def State.weight (cfg : Config ρ) (s : State ρ) (r : ρ) : Nat :=
  (s.procs (r, .parent)).weight (cfg.amount r) + (s.procs (r, .child)).weight (cfg.amount r)

theorem afterPc_weight (amount : Nat) (role : Role) (pc : Pc) (e : Event) :
    (e.afterPc role pc).weight amount ≤ pc.weight amount + if role = .child then e.forkWeight amount else 0 := by
  cases e with
  | up j sem wakes =>
    rw [afterPc_up]
    split
    · rw [wakeOn_weight]
      exact Nat.le_add_right _ _
    · exact Nat.le_add_right _ _
  | fork child =>
    cases role with
    | child => exact Nat.le_add_left _ _
    | parent => exact Nat.le_add_right _ _
  | _ => exact Nat.le_add_right _ _

theorem procs_weight (hr : p.1 ≠ r) : (e.procs r procs p).weight amount = (procs p).weight amount := by
  cases e with
  | up j sem wakes =>
    cases wakes with
    | true => exact wakeOn_weight
    | false => rfl
  | fork child =>
    rw [Event.procs, Function.update_of_ne fun heq => hr (congrArg Prod.fst heq)]
  | _ => rfl

theorem weight_step (hfork : cfg.forkFails p.1 = false) (inv : Inv cfg s) (hstep : Step cfg s (p, e) t) (r : ρ) :
    t.weight cfg r + (if p.1 = r then 1 else 0) ≤ s.weight cfg r := by
  obtain ⟨pc, hpc, rfl⟩ := step_inv hstep
  by_cases hr : p.1 = r
  · obtain ⟨r, role⟩ := p
    obtain rfl : r = _ := hr
    rw [hfork] at hpc
    obtain ⟨hparent, hchild⟩ := (inv.runs r).resumes
    have hafterParent := afterPc_weight (cfg.amount r) .parent (Function.update s.procs (r, role) pc (r, .parent)) e
    have hafterChild := afterPc_weight (cfg.amount r) .child (Function.update s.procs (r, role) pc (r, .child)) e
    rw [if_neg (by simp)] at hafterParent
    rw [if_pos rfl] at hafterChild
    rw [if_pos rfl]
    show (e.procs r _ (r, .parent)).weight _ + (e.procs r _ (r, .child)).weight _ + 1 ≤ s.weight cfg r
    rw [procs_own, procs_own, State.weight]
    cases role with
    | parent =>
      have hless := pcStep_weight hparent hpc
      rw [Function.update_self] at hafterParent ⊢
      rw [Function.update_of_ne (by simp)] at hafterChild ⊢
      dsimp only at hless hafterParent hafterChild ⊢
      omega
    | child =>
      have hless := pcStep_weight hchild hpc
      rw [Function.update_self] at hafterChild ⊢
      rw [Function.update_of_ne (by simp)] at hafterParent ⊢
      dsimp only at hless hafterParent hafterChild ⊢
      omega
  · have hsame : ∀ role, (e.procs p.1 (Function.update s.procs p pc) (r, role)).weight (cfg.amount r) =
        (s.procs (r, role)).weight (cfg.amount r) := by
      intro role
      have hne : ((r, role) : ρ × Role) ≠ p := fun heq => hr (congrArg Prod.fst heq).symm
      rw [procs_weight (Ne.symm hr), Function.update_of_ne hne]
    rw [if_neg hr]
    show _ + _ + 0 ≤ _
    rw [hsame, hsame]
    exact Nat.le_refl _

/-! ### Runs that stay apart -/

/-- No process of the run is left. -/
def Ended (s : State ρ) (r : ρ) : Prop := ∀ role, s.procs (r, role) = .unborn ∨ s.procs (r, role) = .exited

/-- Every process acts on semaphores that its own run opened, every run that has ended has printed its rounds, and
    every other one can go on. -/
structure Independent (cfg : Config ρ) (s : State ρ) : Prop where
  own : ∀ p e t i, Step cfg s (p, e) t → e.acts? = some i → s.opener i = some p.1
  printed : ∀ r, Ended s r →
    (s.output r).count pingText = cfg.amount r ∧ (s.output r).count pongText = cfg.amount r
  live : ∀ r, ¬Ended s r → ∃ role e t, Step cfg s ((r, role), e) t

theorem RunOk.exited_of_ended (h : RunOk amount sems pc c out) (hended : pc = .unborn ∨ pc = .exited) :
    out = rounds amount := by
  rcases hended with rfl | rfl
  · cases h
  · exact h.output_of_exited.2

theorem Inv.independent (hforks : ∀ r, cfg.forkFails r = false) (inv : Inv cfg s) : Independent cfg s where
  own := by
    intro p e t i hstep hi
    obtain ⟨pc, hpc, -⟩ := step_inv hstep
    exact inv.owned p i ((pcStep_uses hpc).acts i hi)
  printed r hended := by
    rw [(inv.runs r).exited_of_ended (hended .parent)]
    exact rounds_count _
  live r hlive := by
    have hsome : ∀ role, (pcStep (cfg.amount r) false s.sems (s.procs (r, .child)) role (s.procs (r, role))).isSome →
        ∃ role e t, Step cfg s ((r, role), e) t := by
      intro role h
      obtain ⟨⟨e, pc⟩, hpc⟩ := Option.isSome_iff_exists.mp h
      rw [← hforks r] at hpc
      exact ⟨role, e, _, Option.map_eq_some_iff.mpr ⟨(e, pc), hpc, rfl⟩⟩
    rcases (inv.runs r).progress with ⟨hparent, hchild⟩ | hparent | hchild
    · refine absurd (fun role => Or.inr ?_) hlive
      cases role with
      | parent => exact hparent
      | child => exact hchild
    · exact hsome .parent hparent
    · exact hsome .child hchild

/-- Where no run opens a semaphore that another one still uses and each finds two, every state of the system keeps
    the runs independent, and no run takes more steps than its argument allows. -/
theorem runs_independent {ls : List ((ρ × Role) × Event)} (hforks : ∀ r, cfg.forkFails r = false)
    (hrun : Run (Step cfg) (start sems) ls t) (hapart : AllSteps (Step cfg) (start sems) ls Apart) :
    Independent cfg t ∧ ∀ r, ls.countP (fun l => l.1.1 = r) ≤ 8 * cfg.amount r + 268 := by
  have hinv : ∀ s l t, Inv cfg s → Step cfg s l t ∧ Apart s l → Inv cfg t :=
    fun s l t inv hstep => inv.step hforks hstep.2 hstep.1
  have hrun' := hapart.restrict hrun
  refine ⟨(hrun'.invariant hinv inv_start).independent hforks, fun r => ?_⟩
  have hcount := hrun'.countP_le (m := fun s => s.weight cfg r) (p := fun l => l.1.1 = r) hinv
    (fun s l t inv hstep => by simpa using weight_step (hforks _) inv hstep.1 r) inv_start
  have hstart : (start sems : State ρ).weight cfg r = 8 * cfg.amount r + 268 := by
    show 2 * (4 * cfg.amount r + 4) + 4 + (256 - 0) + 0 = _
    omega
  omega

/-- Two runs with one round each. -/
def twoRuns : Config Bool where
  amount _ := 1
  forkFails _ := false

/-- The first run gets the semaphores 0 and 1 and the second one 2 and 3; both are in their round. -/
def sideBySide : List (Bool × Role) :=
  List.replicate 5 (false, .parent) ++ List.replicate 7 (true, .parent) ++
    [(true, .child), (false, .child), (true, .child), (false, .child)]

theorem runs_independent_two : ∃ ls t, Run (Step twoRuns) (start fun _ => .init) ls t ∧ Independent twoRuns t ∧
    ∀ r, ls.countP (fun l => l.1.1 = r) ≤ 8 * 1 + 268 := by
  have hsome : (exec (step twoRuns) (start fun _ => .init) sideBySide).isSome := by decide +kernel
  have hapart : ∀ x ∈ steps (step twoRuns) (start fun _ => .init) sideBySide, Apart x.1 x.2 := by decide +kernel
  exact ⟨_, _, run_exec hsome, runs_independent (fun _ => rfl) (run_exec hsome) (allSteps_exec hsome hapart)⟩

/-- The child of the first run has closed the semaphores 0 and 1 and the second run has opened them again, before the
    first parent's turn. -/
def reopened : List (Bool × Role) :=
  List.replicate 5 (false, .parent) ++ List.replicate 7 (false, .child) ++ List.replicate 5 (true, .parent)

/-- The first parent takes the unit that the second child gave to its own parent. -/
def stolen : List (Bool × Role) :=
  [(false, .parent)] ++ List.replicate 3 (true, .child) ++ [(false, .parent), (true, .parent)] ++
    List.replicate 4 (true, .child) ++ List.replicate 6 (false, .parent)

theorem reopened_isSome : (exec (step twoRuns) (start fun _ => .init) reopened).isSome := by decide +kernel

def reopenedState : State Bool := ((exec (step twoRuns) (start fun _ => .init) reopened).get reopened_isSome).2

theorem stolen_isSome : (exec (step twoRuns) reopenedState stolen).isSome := by decide +kernel

def stolenState : State Bool := ((exec (step twoRuns) reopenedState stolen).get stolen_isSome).2

/-- The first parent's next call acts on the semaphore of the second run, and the second parent sleeps for ever. -/
theorem not_independent_reopened : (∃ ls ms, Run (Step twoRuns) (start fun _ => .init) ls reopenedState ∧
      Run (Step twoRuns) reopenedState ms stolenState) ∧
    (∃ e v, Step twoRuns reopenedState ((false, .parent), e) v ∧ e.acts? = some 1) ∧
    reopenedState.opener 1 = some true ∧ ¬Ended stolenState true ∧ (∀ p, step twoRuns stolenState p = none) ∧
    ¬Independent twoRuns reopenedState ∧ ¬Independent twoRuns stolenState := by
  have hnext : (step twoRuns reopenedState (false, .parent)).isSome := by decide +kernel
  obtain ⟨⟨e, v⟩, hstep⟩ := Option.isSome_iff_exists.mp hnext
  have hacts : ∀ x ∈ step twoRuns reopenedState (false, .parent), x.1.acts? = some 1 := by decide +kernel
  have hopener : reopenedState.opener 1 = some true := by decide +kernel
  have hleft : ¬Ended stolenState true := by
    intro hended
    exact absurd (hended .parent) (by decide +kernel)
  have hblocked : ∀ p, step twoRuns stolenState p = none := by
    have hnone : ∀ p, (step twoRuns stolenState p).isNone := by decide +kernel
    exact fun p => Option.isNone_iff_eq_none.mp (hnone p)
  refine ⟨⟨_, _, run_exec reopened_isSome, run_exec stolen_isSome⟩, ⟨e, v, hstep, hacts _ hstep⟩, hopener, hleft,
    hblocked, ?_, ?_⟩
  · intro h
    have hown := h.own _ _ _ _ hstep (hacts _ hstep)
    rw [hopener] at hown
    cases hown
  · intro h
    obtain ⟨role, e, v, hgo⟩ := h.live true hleft
    rw [Step, ofStep, hblocked] at hgo
    cases hgo

end LabSO.User

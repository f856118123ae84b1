import LabSO.Kernel.SemSteps
import Mathlib.Data.Finset.Card
import Mathlib.Algebra.BigOperators.Group.Finset.Piecewise
import Mathlib.Algebra.Order.BigOperators.Group.Finset

/-! The counter of a semaphore along a run. `sem_down` tests after `sleep` only for `count == 0`, so the
    counter of a closed semaphore is safe exactly as long as no sleeper goes on while it is closed. While a
    semaphore stays open, its units are conserved. -/

namespace LabSO.Kernel
open Transition

variable {n : Nat} {κ : Type}

/-! ### The values passed to `sem_open` -/

/-- The value that a call of `sem_open` still has to use. -/
def Point.value? : Point → Option Int
  | .openAcquire _ _ value => some value
  | _ => none

def Pc.value? : Pc n → Option Int
  | .at k => k.value?
  | .yield _ k => k.value?
  | .inside (.openBody _ _ value) => some value
  | .inside (.openRelease _ _ value _) => some value
  | .inside _ => none

def SysCall.value? : SysCall → Option Int
  | .semOpen _ value => some value
  | .getSem value => some value
  | _ => none

theorem withSem_value {sem : Int} {point : Nat → Point} {value : Int}
    (h : (withSem sem point).value? = some value) : ∃ i, (point i).value? = some value := by
  unfold withSem at h
  split at h
  · cases h
  · exact ⟨_, h⟩

theorem getSemLoop_value {index : Nat} {value value' : Int} (h : (getSemLoop index value).value? = some value') :
    value' = value := by
  unfold getSemLoop at h
  split at h
  · exact (Option.some.inj h).symm
  · cases h

theorem enter_value {sys : SysCall} {value : Int} (h : (enter sys).value? = some value) :
    ∃ x, sys.value? = some x ∧ value = argint x := by
  cases sys with
  | semOpen sem x =>
    obtain ⟨i, hi⟩ : ∃ i, (Point.openAcquire .syscall i (argint x)).value? = some value := withSem_value h
    exact ⟨x, rfl, (Option.some.inj hi).symm⟩
  | getSem x => exact ⟨x, rfl, getSemLoop_value h⟩
  | semClose sem | semUp sem | semDown sem =>
    obtain ⟨i, hi⟩ := withSem_value h
    cases hi
  | kill pid => cases h

theorem openReturn_value {caller : Caller} {i : Nat} {value value' result : Int}
    (h : (openReturn caller i value result).value? = some value') : value' = value := by
  cases caller with
  | syscall => cases h
  | getSem =>
    simp only [openReturn] at h
    split at h
    · exact getSemLoop_value h
    · cases h

theorem threadStep_value {s : State n κ} {p : Fin n} {pc pc' : Pc n} {effect : Effect n} {event : Event n}
    {value : Int} (h : threadStep s p pc = some (effect, pc', event)) (hv : pc'.value? = some value) :
    pc.value? = some value := by
  cases threadStep_instr h with
  | openRelease => exact congrArg some (openReturn_value hv).symm
  | @killRelease pid q found => cases found <;> cases hv
  | opened | openFails | openAcquire | yieldAcquire | yieldState | yieldSched | yieldRelease => exact hv
  | _ => cases hv

/-- Every value that a call of `sem_open` still has to use meets `P`. -/
def ValuesMeet (P : Int → Prop) (s : State n κ) : Prop := ∀ p value, (s.pcs p).value? = some value → P value

variable [DecidableEq κ]

omit [DecidableEq κ] in
theorem valuesMeet_boot {P : Int → Prop} {s : State n κ} (h : Boot s) : ValuesMeet P s := by
  intro p value hv
  rw [h.pcs] at hv
  cases hv

omit [DecidableEq κ] in
theorem valuesMeet_setPc {P : Int → Prop} {s : State n κ} {p : Fin n} {pc : Pc n} (h : ValuesMeet P s)
    (hpc : ∀ value, pc.value? = some value → P value) : ValuesMeet P (s.setPc p pc) := by
  intro q value hv
  rw [State.setPc_pcs] at hv
  by_cases hq : q = p
  · subst hq
    rw [Function.update_self] at hv
    exact hpc value hv
  · rw [Function.update_of_ne hq] at hv
    exact h q value hv

theorem valuesMeet_step {P : Int → Prop} {s t : State n κ} {l : Action κ × Event n} (h : ValuesMeet P s)
    (hcall : ∀ c sys value, l.1 = .call c sys → sys.value? = some value → P (argint value)) (hstep : Step s l t) :
    ValuesMeet P t := by
  cases step_inv hstep with
  | @thread c p effect pc event u cpu instr applied =>
    have hu : ValuesMeet P u := fun q value hv => h q value (by rwa [applyEffect_pcs applied] at hv)
    exact valuesMeet_setPc hu fun value hv => h p value (threadStep_value instr hv)
  | call cpu user =>
    refine valuesMeet_setPc h fun value hv => ?_
    obtain ⟨x, hx, rfl⟩ := enter_value hv
    exact hcall _ _ x rfl hx
  | preempt cpu point => exact valuesMeet_setPc h fun value hv => h _ value (by rw [point]; exact hv)
  | _ => exact h

/-- What every `int` is. -/
def IsInt (x : Int) : Prop := -2 ^ 31 ≤ x ∧ x < 2 ^ 31

theorem isInt_wrap32 (x : Int) : IsInt (wrap32 x) := by
  have hle := Int.le_bmod (x := x) (m := 2 ^ 32) (by decide)
  have hlt := Int.bmod_lt (x := x) (m := 2 ^ 32) (by decide)
  constructor <;> unfold wrap32 <;> omega

theorem valuesMeet_isInt {s t : State n κ} {ls : List (Action κ × Event n)} (hboot : Boot s)
    (h : Run Step s ls t) : ValuesMeet IsInt t :=
  h.invariant (fun _ _ _ hs hstep => valuesMeet_step hs (fun _ _ _ _ _ => isInt_wrap32 _) hstep)
    (valuesMeet_boot hboot)

theorem opened_value {s t : State n κ} {l : Action κ × Event n} {p : Fin n} {i : Nat} {value : Int}
    {P : Int → Prop} (h : ValuesMeet P s) (hstep : Step s l t) (hl : l.2 = .opened p i value) : P value := by
  rcases step_made hstep with hsilent | ⟨c, q, -, -, hmade⟩
  · rw [hl] at hsilent
    cases hsilent
  · rw [hl] at hmade
    generalize hpc : s.pcs q = pc at hmade
    cases hmade
    exact h _ value (by rw [hpc]; rfl)

theorem opened_sem {s t : State n κ} {a : Action κ} {p : Fin n} {i : Nat} {value : Int}
    (hstep : Step s (a, .opened p i value) t) : t.sems i = ⟨value, value⟩ := by
  rcases step_sem hstep i with ⟨-, hch⟩ | ⟨hev, -⟩
  · generalize t.sems i = sem at hch
    cases hch
    rfl
  · exact absurd rfl hev

theorem count_of_opened {s t : State n κ} {l : Action κ × Event n} {p : Fin n} {i : Nat} {value : Int}
    (hstep : Step s l t) (hl : l.2 = .opened p i value) : (s.sems i).count = -1 := by
  rcases step_sem hstep i with ⟨-, hch⟩ | ⟨hev, -⟩
  · rw [hl] at hch
    generalize t.sems i = sem at hch
    cases hch with
    | opened closed => exact closed
  · rw [hl] at hev
    exact absurd rfl hev

/-! ### The range of a counter -/

/-- A counter is -1 while the semaphore is closed, and between 0 and the bound while it is open. -/
def Semaphore.InRange (sem : Semaphore) : Prop := sem.count = -1 ∨ 0 ≤ sem.count ∧ sem.count ≤ sem.bound

/-- Each semaphore whose lock is free is in range, and no counter is below -1. -/
def CountsInRange (s : State n κ) : Prop :=
  ∀ i, (s.semLock i = none → (s.sems i).InRange) ∧ -1 ≤ (s.sems i).count

/-- No value below 0 is passed to `sem_open`. -/
def Action.OpensNonneg : Action κ → Prop
  | .call _ sys => ∀ value ∈ sys.value?, 0 ≤ argint value
  | _ => True

instance (a : Action κ) : Decidable a.OpensNonneg := by
  unfold Action.OpensNonneg
  split <;> infer_instance

/-- The semaphore that the loop of `sem_down` tests again after `sleep`, where that is the next step. -/
def State.retests (s : State n κ) : Action κ → Option Nat
  | .cpu c =>
    match s.cpus c with
    | .run p =>
      match s.pcs p with
      | .inside (.downLoop i) => some i
      | _ => none
    | _ => none
  | _ => none

/-- The step is not the test of a closed semaphore by a woken sleeper. -/
def NoClosedRetest (s : State n κ) (l : Action κ × Event n) : Prop :=
  ∀ i ∈ s.retests l.1, (s.sems i).count ≠ -1

instance (s : State n κ) (l : Action κ × Event n) : Decidable (NoClosedRetest s l) := by
  unfold NoClosedRetest
  infer_instance

/-- `InRange`, with a bound that is an `int`. -/
def Semaphore.Sound (sem : Semaphore) : Prop :=
  sem.count = -1 ∨ 0 ≤ sem.count ∧ sem.count ≤ sem.bound ∧ sem.bound < 2 ^ 31

theorem sound_change {sem sem' : Semaphore} {event : Event n} (h : SemChange sem event sem') (hs : sem.Sound)
    (hopen : ∀ p i value, event = .opened p i value → 0 ≤ value ∧ value < 2 ^ 31)
    (hdown : ∀ p i, event = .down p i true → sem.count ≠ -1) : sem'.Sound := by
  unfold Semaphore.Sound at hs ⊢
  cases h with
  | opened closed =>
    have := hopen _ _ _ rfl
    exact Or.inr ⟨this.1, le_refl _, this.2⟩
  | closed isOpen => exact Or.inl rfl
  | up isOpen below =>
    right
    simp only
    rw [wrap32_of_range] <;> omega
  | @down p i resumed nonzero isOpen =>
    have hne : sem.count ≠ -1 := by
      cases resumed with
      | false => exact isOpen rfl
      | true => exact hdown _ _ rfl
    right
    simp only
    rw [wrap32_of_range] <;> omega

theorem not_closed_of_retest {s t : State n κ} {l : Action κ × Event n} {p : Fin n} {i : Nat}
    (hno : NoClosedRetest s l) (hstep : Step s l t) (hl : l.2 = .down p i true) : (s.sems i).count ≠ -1 := by
  rcases step_made hstep with hsilent | ⟨c, q, hcpu, hact, hmade⟩
  · rw [hl] at hsilent
    cases hsilent
  · rw [hl] at hmade
    generalize hpc : s.pcs q = pc at hmade
    cases hmade
    refine hno i ?_
    rw [hact]
    simp only [State.retests, hcpu, hpc, Option.mem_some_iff]

/-- What the steps that are no retest of a closed semaphore keep. -/
structure Counted (s : State n κ) : Prop where
  ints : ValuesMeet IsInt s
  nonneg : ValuesMeet (fun value => 0 ≤ value) s
  sound : ∀ i, (s.sems i).Sound

theorem counted_step {s t : State n κ} {l : Action κ × Event n} (h : Counted s)
    (hl : l.1.OpensNonneg ∧ NoClosedRetest s l) (hstep : Step s l t) : Counted t where
  ints := valuesMeet_step h.ints (fun _ _ _ _ _ => isInt_wrap32 _) hstep
  nonneg := by
    refine valuesMeet_step h.nonneg (fun c sys value hact hv => ?_) hstep
    have hopens := hl.1
    rw [hact] at hopens
    exact hopens value hv
  sound i := by
    rcases step_sem hstep i with ⟨hev, hch⟩ | ⟨-, heq⟩
    · refine sound_change hch (h.sound i) (fun p j value ho => ?_) fun p j hd => ?_
      · exact ⟨opened_value h.nonneg hstep ho, (opened_value h.ints hstep ho).2⟩
      · rw [hd] at hev
        cases hev
        exact not_closed_of_retest hl.2 hstep hd
    · rw [heq]
      exact h.sound i

omit [DecidableEq κ] in
theorem counted_boot {s : State n κ} (h : Boot s) : Counted s where
  ints := valuesMeet_boot h
  nonneg := valuesMeet_boot h
  sound i := by
    rw [h.sems]
    exact Or.inl rfl

omit [DecidableEq κ] in
theorem Counted.inRange {s : State n κ} (h : Counted s) : CountsInRange s := by
  intro i
  have := h.sound i
  unfold Semaphore.Sound at this
  constructor
  · intro _
    unfold Semaphore.InRange
    omega
  · omega

omit [DecidableEq κ] in
theorem retests_inv {s : State n κ} {a : Action κ} {i : Nat} (h : i ∈ s.retests a) :
    ∃ c p, a = .cpu c ∧ s.cpus c = .run p ∧ s.pcs p = .inside (.downLoop i) := by
  unfold State.retests at h
  split at h
  · next c =>
    split at h
    · next p hcpu =>
      split at h
      · next j hpc =>
        cases h
        exact ⟨c, p, rfl, hcpu, hpc⟩
      · cases h
    · cases h
  · cases h

/-- A retest of a closed semaphore takes its counter to -2. -/
theorem retest_closed {s t : State n κ} {l : Action κ × Event n} {i : Nat} (hstep : Step s l t)
    (hretest : i ∈ s.retests l.1) (hclosed : (s.sems i).count = -1) : (t.sems i).count = -2 := by
  obtain ⟨c, p, hact, hcpu, hpc⟩ := retests_inv hretest
  obtain ⟨a, event⟩ := l
  obtain rfl := hact
  have h : cpuStep s c = some (event, t) := hstep
  simp only [cpuStep, hcpu, hpc, threadStep, sectionStep, downLoop, Semaphore.downLoop, hclosed] at h
  cases h
  simp [wrap32]

/-- The counters are in range all along a run exactly if no sleeper goes on in a closed semaphore. -/
theorem countsInRange_iff {s t : State n κ} {ls : List (Action κ × Event n)} (hboot : Boot s)
    (hrun : Run Step s ls t) (hopens : ∀ l ∈ ls, l.1.OpensNonneg) :
    AllStates Step s ls CountsInRange ↔ AllSteps Step s ls NoClosedRetest := by
  constructor
  · intro hall
    refine hall.allSteps (fun _ _ _ _ => ofStep_det) (fun u l v _ hv hstep => ?_) hrun
    intro i hretest hclosed
    have hlow := (hv i).2
    rw [retest_closed hstep hretest hclosed] at hlow
    omega
  · intro hall
    have hcounted : AllStates Step s ls Counted :=
      ((AllSteps.of_mem fun l hl _ => hopens l hl).and hall).allStates
        (fun _ _ _ hs hl hstep => counted_step hs hl hstep) (counted_boot hboot)
    exact hcounted.mono fun _ => Counted.inRange

def cpuSteps (c : Fin 2) (k : Nat) : List (Action (Fin 2)) := List.replicate k (.cpu c)

/-- Process 1 opens semaphore 0 with no unit, and process 2 goes to sleep in `sem_down(0)`. -/
def goToSleep : List (Action (Fin 2)) :=
  cpuSteps 0 3 ++ cpuSteps 1 6 ++ .call 0 (.semOpen 0 0) :: cpuSteps 0 4 ++ .call 1 (.semDown 0) :: cpuSteps 1 9

def sleepThenClose : List (Action (Fin 2)) := goToSleep ++ .call 0 (.semClose 0) :: cpuSteps 0 4

/-- The sleeper is killed, and goes on. -/
def closedUnderSleeper : List (Action (Fin 2)) :=
  sleepThenClose ++ .call 0 (.kill 2) :: cpuSteps 0 7 ++ cpuSteps 1 10

theorem closedUnderSleeper_runs : (exec step (boot 2 (Fin 2)) closedUnderSleeper).isSome := by decide

theorem countsInRange_iff_sleeper :
    let ls := ((exec step (boot 2 (Fin 2)) closedUnderSleeper).get closedUnderSleeper_runs).1
    AllStates Step (boot 2 (Fin 2)) ls CountsInRange ↔ AllSteps Step (boot 2 (Fin 2)) ls NoClosedRetest :=
  countsInRange_iff boot_boot (run_exec closedUnderSleeper_runs) (by decide)

theorem not_countsInRange_sleeper : ¬∀ (s t : State 2 (Fin 2)) (ls : List (Action (Fin 2) × Event 2)), Boot s →
    Run Step s ls t → (∀ l ∈ ls, l.1.OpensNonneg) → CountsInRange t := by
  intro h
  have hrange := h _ _ _ boot_boot (run_exec closedUnderSleeper_runs) (by decide) 0
  -- The sleeper took -1 for a free unit: the counter is -2.
  rcases hrange.1 (by decide) with hclosed | ⟨hopen, -⟩
  · exact absurd hclosed (by decide)
  · exact absurd hopen (by decide)

/-! ### The units of an open semaphore -/

/-- The process that took a unit of the semaphore. -/
def Event.downOf (i : Nat) : Event n → Option (Fin n)
  | .down p j _ => if j = i then some p else none
  | _ => none

/-- The process that gave a unit to the semaphore. -/
def Event.upOf (i : Nat) : Event n → Option (Fin n)
  | .up p j => if j = i then some p else none
  | _ => none

def downs (i : Nat) (ls : List (Action κ × Event n)) : Nat := ls.countP fun l => (l.2.downOf i).isSome

def ups (i : Nat) (ls : List (Action κ × Event n)) : Nat := ls.countP fun l => (l.2.upOf i).isSome

def downsBy (q : Fin n) (i : Nat) (ls : List (Action κ × Event n)) : Nat := ls.countP fun l => l.2.downOf i = some q

def upsBy (q : Fin n) (i : Nat) (ls : List (Action κ × Event n)) : Nat := ls.countP fun l => l.2.upOf i = some q

theorem sum_countP_eq {α : Type*} (f : α → Option (Fin n)) (ls : List α) :
    ∑ q, ls.countP (fun l => f l = some q) = ls.countP fun l => (f l).isSome := by
  induction ls with
  | nil => simp
  | cons l rest ih =>
    simp only [List.countP_cons, Finset.sum_add_distrib, ih]
    congr 1
    cases f l with
    | none => simp
    | some p => simp [Finset.sum_ite_eq]

omit [DecidableEq κ] in
theorem sum_downsBy (i : Nat) (ls : List (Action κ × Event n)) : ∑ q, downsBy q i ls = downs i ls := sum_countP_eq _ ls

omit [DecidableEq κ] in
theorem sum_upsBy (i : Nat) (ls : List (Action κ × Event n)) : ∑ q, upsBy q i ls = ups i ls := sum_countP_eq _ ls

omit [DecidableEq κ] in
theorem downs_snoc (i : Nat) (ls : List (Action κ × Event n)) (l : Action κ × Event n) :
    downs i (ls ++ [l]) = downs i ls + if (l.2.downOf i).isSome then 1 else 0 := by
  simp [downs, List.countP_append, List.countP_singleton]

omit [DecidableEq κ] in
theorem ups_snoc (i : Nat) (ls : List (Action κ × Event n)) (l : Action κ × Event n) :
    ups i (ls ++ [l]) = ups i ls + if (l.2.upOf i).isSome then 1 else 0 := by
  simp [ups, List.countP_append, List.countP_singleton]

/-- A semaphore opened with `value`, after the labels `ls`. -/
def Semaphore.Holds (sem : Semaphore) (value : Int) (i : Nat) (ls : List (Action κ × Event n)) : Prop :=
  sem.bound = value ∧ sem.count = value - downs i ls + ups i ls ∧ 0 ≤ sem.count ∧ sem.count ≤ value

omit [DecidableEq κ] in
theorem holds_change {sem sem' : Semaphore} {value : Int} {i : Nat} {ls : List (Action κ × Event n)} {a : Action κ}
    {event : Event n} (h : sem.Holds value i ls) (hv : value < 2 ^ 31) (hclosed : ∀ q, event ≠ .closed q i)
    (hev : event.sem? = some i) (hch : SemChange sem event sem') : sem'.Holds value i (ls ++ [(a, event)]) := by
  unfold Semaphore.Holds at h ⊢
  rw [downs_snoc, ups_snoc]
  cases hch with
  | opened closed => omega
  | closed isOpen =>
    cases hev
    exact absurd rfl (hclosed _)
  | @up q j isOpen below =>
    cases hev
    have hd : (Event.up q i).downOf i = none := rfl
    have hu : (Event.up q i).upOf i = some q := if_pos rfl
    rw [hd, hu, wrap32_of_range] <;> simp <;> omega
  | @down q j resumed nonzero isOpen =>
    cases hev
    have hd : (Event.down q i resumed).downOf i = some q := if_pos rfl
    have hu : (Event.down q i resumed).upOf i = none := rfl
    rw [hd, hu, wrap32_of_range] <;> simp <;> omega

omit [DecidableEq κ] in
theorem holds_same {sem : Semaphore} {value : Int} {i : Nat} {ls : List (Action κ × Event n)}
    {l : Action κ × Event n} (h : sem.Holds value i ls) (hev : l.2.sem? ≠ some i) : sem.Holds value i (ls ++ [l]) := by
  have hdown : l.2.downOf i = none := by
    unfold Event.downOf
    split
    · next heq =>
      rw [heq] at hev
      exact if_neg fun hj => hev (congrArg some hj)
    · rfl
  have hup : l.2.upOf i = none := by
    unfold Event.upOf
    split
    · next heq =>
      rw [heq] at hev
      exact if_neg fun hj => hev (congrArg some hj)
    · rfl
  unfold Semaphore.Holds at h ⊢
  rw [downs_snoc, ups_snoc, hdown, hup]
  exact h

/-- While a semaphore stays open, its counter is the value it was opened with less the units taken and not given. -/
theorem holds_run {s t : State n κ} {ls : List (Action κ × Event n)} {value : Int} {i : Nat}
    (hs : s.sems i = ⟨value, value⟩) (hnonneg : 0 ≤ value) (hv : value < 2 ^ 31) (hrun : Run Step s ls t)
    (hclosed : ∀ l ∈ ls, ∀ q, l.2 ≠ .closed q i) : (t.sems i).Holds value i ls := by
  induction hrun with
  | refl =>
    rw [hs]
    exact ⟨rfl, by simp [downs, ups], hnonneg, le_refl _⟩
  | @tail ms u l w hrun hstep ih =>
    have hms := ih fun l' hl' => hclosed l' (List.mem_append_left _ hl')
    rcases step_sem hstep i with ⟨hev, hch⟩ | ⟨hev, heq⟩
    · exact holds_change hms hv (hclosed l (by simp)) hev hch
    · rw [heq]
      exact holds_same hms hev

/-- Each unit is given by a process that took one before and did not give it since. -/
def UpsFollowDowns (i : Nat) (ls : List (Action κ × Event n)) : Prop :=
  ∀ ms l q, ms ++ [l] <+: ls → l.2.upOf i = some q → upsBy q i ms < downsBy q i ms

/-- The processes that took more units than they gave. -/
def takers (i : Nat) (ls : List (Action κ × Event n)) : Finset (Fin n) := {q | upsBy q i ls < downsBy q i ls}

omit [DecidableEq κ] in
theorem upsBy_le_downsBy {i : Nat} {ls : List (Action κ × Event n)} (h : UpsFollowDowns i ls) (q : Fin n) :
    upsBy q i ls ≤ downsBy q i ls := by
  induction ls using List.reverseRecOn with
  | nil => simp [upsBy]
  | append_singleton ms l ih =>
    have hms := ih fun ns l' r hns => h ns l' r (hns.trans (List.prefix_append _ _))
    have hlast := h ms l q (List.prefix_refl _)
    unfold upsBy downsBy at hms hlast ⊢
    rw [List.countP_append, List.countP_append, List.countP_singleton, List.countP_singleton]
    by_cases hup : l.2.upOf i = some q
    · have := hlast hup
      simp only [hup, decide_true, if_pos]
      omega
    · simp only [hup, decide_false]
      simp only [Bool.false_eq_true, if_false]
      omega

omit [DecidableEq κ] in
theorem card_takers_le {i : Nat} {ls : List (Action κ × Event n)} (h : UpsFollowDowns i ls) :
    (takers i ls).card + ups i ls ≤ downs i ls := by
  have hterm : ∀ q, (if q ∈ takers i ls then 1 else 0) + upsBy q i ls ≤ downsBy q i ls := by
    intro q
    have hle := upsBy_le_downsBy h q
    split
    · next hq =>
      have hlt : upsBy q i ls < downsBy q i ls := by simpa [takers] using hq
      omega
    · omega
  have hsum := Finset.sum_le_sum fun q (_ : q ∈ Finset.univ) => hterm q
  rw [Finset.sum_add_distrib, sum_upsBy, sum_downsBy] at hsum
  simpa using hsum

/-- From the step that opens a semaphore to the step that closes it, its units are conserved. If every unit is
    given by a process that took it, no more processes than the value hold one. -/
theorem units_of_opening {s₀ s₁ s₂ s₃ : State n κ} {ls ms : List (Action κ × Event n)} {a : Action κ} {p : Fin n}
    {i : Nat} {value : Int} (hboot : Boot s₀) (hrun : Run Step s₀ ls s₁) (hopen : Step s₁ (a, .opened p i value) s₂)
    (hvalue : 0 ≤ value) (hafter : Run Step s₂ ms s₃) (hclosed : ∀ l ∈ ms, ∀ q, l.2 ≠ .closed q i) :
    ((s₃.sems i).count = value - downs i ms + ups i ms ∧ 0 ≤ (s₃.sems i).count ∧ (s₃.sems i).count ≤ value) ∧
    (UpsFollowDowns i ms →
      (takers i ms).card ≤ value ∧ (value = 1 → ∀ q ∈ takers i ms, ∀ r ∈ takers i ms, q = r)) := by
  have hv := (opened_value (valuesMeet_isInt hboot hrun) hopen rfl).2
  obtain ⟨-, hcount, hlow, hhigh⟩ := holds_run (opened_sem hopen) hvalue hv hafter hclosed
  refine ⟨⟨hcount, hlow, hhigh⟩, fun hups => ?_⟩
  have hcard := card_takers_le hups
  have hle : ((takers i ms).card : Int) ≤ value := by omega
  refine ⟨hle, fun hone q hq r hr => ?_⟩
  exact Finset.card_le_one.mp (by omega) q hq r hr

/-- Process 1 opens semaphore 0 with one unit, and takes it. -/
def openOne : List (Action (Fin 2)) := cpuSteps 0 3 ++ .call 0 (.semOpen 0 1) :: cpuSteps 0 1

def takeOne : List (Action (Fin 2)) := cpuSteps 0 2 ++ .call 0 (.semDown 0) :: cpuSteps 0 3

theorem openOne_runs : (exec step (boot 2 (Fin 2)) openOne).isSome := by decide

def opening : State 2 (Fin 2) := ((exec step (boot 2 (Fin 2)) openOne).get openOne_runs).2

def openedOne : State 2 (Fin 2) := { opening with
  sems := Function.update opening.sems 0 ⟨1, 1⟩
  pcs := Function.update opening.pcs 0 (.inside (.openRelease .syscall 0 1 1)) }

theorem takeOne_runs : (exec step openedOne takeOne).isSome := by decide

theorem units_of_opening_one :
    let (ms, s) := (exec step openedOne takeOne).get takeOne_runs
    ((s.sems 0).count = 1 - downs 0 ms + ups 0 ms ∧ 0 ≤ (s.sems 0).count ∧ (s.sems 0).count ≤ 1) ∧
    (UpsFollowDowns 0 ms →
      (takers 0 ms).card ≤ (1 : Int) ∧ ((1 : Int) = 1 → ∀ q ∈ takers 0 ms, ∀ r ∈ takers 0 ms, q = r)) :=
  units_of_opening boot_boot (run_exec openOne_runs) (a := .cpu 0) (p := 0) rfl (by decide)
    (run_exec takeOne_runs) (by decide)

end LabSO.Kernel

import Mathlib.Tactic.Common
import LabSO.Kernel.SemMachine

/-! What one step of the semaphore machine does: the cases of an instruction (`Instr`) and of a step (`StepCase`), and
    how a step changes a semaphore (`SemChange`). Only the steps whose event names the semaphore change it. -/

namespace LabSO.Kernel

variable {n : Nat} {κ : Type}

/-! ### The fields that a step writes -/

namespace State

section
variable (s : State n κ) (q p : Fin n) (f : Proc κ → Proc κ) (pc : Pc n) (i : Nat) (holder : Option κ)

@[simp] theorem setProc_sems : (s.setProc q f).sems = s.sems := rfl
@[simp] theorem setProc_semLock : (s.setProc q f).semLock = s.semLock := rfl
@[simp] theorem setProc_procs : (s.setProc q f).procs = Function.update s.procs q (f (s.procs q)) := rfl
@[simp] theorem setProc_pcs : (s.setProc q f).pcs = s.pcs := rfl
@[simp] theorem setProc_cpus : (s.setProc q f).cpus = s.cpus := rfl
@[simp] theorem setPc_sems : (s.setPc p pc).sems = s.sems := rfl
@[simp] theorem setPc_semLock : (s.setPc p pc).semLock = s.semLock := rfl
@[simp] theorem setPc_procs : (s.setPc p pc).procs = s.procs := rfl
@[simp] theorem setPc_pcs : (s.setPc p pc).pcs = Function.update s.pcs p pc := rfl
@[simp] theorem setPc_cpus : (s.setPc p pc).cpus = s.cpus := rfl
@[simp] theorem setSemLock_sems : (s.setSemLock i holder).sems = s.sems := rfl
@[simp] theorem setSemLock_semLock : (s.setSemLock i holder).semLock = Function.update s.semLock i holder := rfl
@[simp] theorem setSemLock_procs : (s.setSemLock i holder).procs = s.procs := rfl
@[simp] theorem setSemLock_pcs : (s.setSemLock i holder).pcs = s.pcs := rfl
@[simp] theorem setSemLock_cpus : (s.setSemLock i holder).cpus = s.cpus := rfl

end

section
variable [DecidableEq κ] (s : State n κ) (c : κ) (cpu : Cpu n)

@[simp] theorem setCpu_sems : (s.setCpu c cpu).sems = s.sems := rfl
@[simp] theorem setCpu_semLock : (s.setCpu c cpu).semLock = s.semLock := rfl
@[simp] theorem setCpu_procs : (s.setCpu c cpu).procs = s.procs := rfl
@[simp] theorem setCpu_pcs : (s.setCpu c cpu).pcs = s.pcs := rfl
@[simp] theorem setCpu_cpus : (s.setCpu c cpu).cpus = Function.update s.cpus c cpu := rfl

end

end State

/-! ### The instructions of a thread -/

/-- The instructions, each with what it found: where the thread stood, what the instruction does to the shared state,
    where the thread stands then, and the event. -/
inductive Instr (s : State n κ) (p : Fin n) : Pc n → Effect n → Pc n → Event n → Prop
  | returned {result : Int} : Instr s p (.at (.returned result)) .skip (.at .user) (.returned p result)
  | openAcquire {caller : Caller} {i : Nat} {value : Int} : Instr s p (.at (.openAcquire caller i value))
    (.acquireSem i) (.inside (.openBody caller i value)) .silent
  | closeAcquire {i : Nat} : Instr s p (.at (.closeAcquire i)) (.acquireSem i) (.inside (.closeBody i)) .silent
  | upAcquire {i : Nat} : Instr s p (.at (.upAcquire i)) (.acquireSem i) (.inside (.upBody i)) .silent
  | downAcquire {i : Nat} : Instr s p (.at (.downAcquire i)) (.acquireSem i) (.inside (.downBody i)) .silent
  | sleepReacquire {i : Nat} : Instr s p (.at (.sleepReacquire i)) (.acquireSem i) (.inside (.downLoop i)) .silent
  | killAcquire {pid : Int} {q : Fin n} : Instr s p (.at (.killAcquire pid q)) (.acquireProc q)
    (.inside (.killBody pid q)) .silent
  | killNone {pid : Int} {j : Nat} : Instr s p (.at (.killAcquire pid j)) .skip (.at (.returned (-1))) .silent
  | opened {caller : Caller} {i : Nat} {value : Int} (closed : (s.sems i).count = -1) :
    Instr s p (.inside (.openBody caller i value)) (.setSem i ⟨value, value⟩)
      (.inside (.openRelease caller i value 1)) (.opened p i value)
  | openFails {caller : Caller} {i : Nat} {value : Int} (isOpen : (s.sems i).count ≠ -1) :
    Instr s p (.inside (.openBody caller i value)) (.setSem i (s.sems i))
      (.inside (.openRelease caller i value 0)) .silent
  | openRelease {caller : Caller} {i : Nat} {value result : Int} :
    Instr s p (.inside (.openRelease caller i value result)) (.releaseSem i)
      (.at (openReturn caller i value result)) .silent
  | closed {i : Nat} (isOpen : (s.sems i).count ≠ -1) : Instr s p (.inside (.closeBody i))
    (.setSem i { s.sems i with count := -1 }) (.inside (.closeRelease i 1)) (.closed p i)
  | closeFails {i : Nat} (closed : (s.sems i).count = -1) : Instr s p (.inside (.closeBody i))
    (.setSem i (s.sems i)) (.inside (.closeRelease i 0)) .silent
  | closeRelease {i : Nat} {result : Int} :
    Instr s p (.inside (.closeRelease i result)) (.releaseSem i) (.at (.returned result)) .silent
  | up {i : Nat} (isOpen : (s.sems i).count ≠ -1) (below : (s.sems i).count ≠ (s.sems i).bound) :
    Instr s p (.inside (.upBody i)) (.setSem i { s.sems i with count := wrap32 ((s.sems i).count + 1) })
      (.inside (.wakeup i 0)) (.up p i)
  | upFails {i : Nat} : Instr s p (.inside (.upBody i)) .skip (.inside (.upRelease i 0)) .silent
  | wakeupSelf {i j : Nat} (self : j = p) :
    Instr s p (.inside (.wakeup i j)) .skip (.inside (.wakeup i (j + 1))) .silent
  | wakeupAcquire {i : Nat} {q : Fin n} :
    Instr s p (.inside (.wakeup i q)) (.acquireProc q) (.inside (.wakeupTest i q)) .silent
  | wakeupEnd {i j : Nat} (all : ¬j < n) :
    Instr s p (.inside (.wakeup i j)) .skip (.inside (.upRelease i 1)) .silent
  | wakeupTest {i : Nat} {q : Fin n} :
    Instr s p (.inside (.wakeupTest i q)) (.wake q i) (.inside (.wakeupRelease i q)) .silent
  | wakeupRelease {i : Nat} {q : Fin n} :
    Instr s p (.inside (.wakeupRelease i q)) (.releaseProc q) (.inside (.wakeup i (q + 1))) .silent
  | upRelease {i : Nat} {result : Int} :
    Instr s p (.inside (.upRelease i result)) (.releaseSem i) (.at (.returned result)) .silent
  | downFails {i : Nat} (closed : (s.sems i).count = -1) :
    Instr s p (.inside (.downBody i)) .skip (.inside (.downRelease i 0)) .silent
  | downSleeps {i : Nat} (zero : (s.sems i).count = 0) :
    Instr s p (.inside (.downBody i)) .skip (.inside (.sleepAcquire i)) (.waits p i)
  | down {i : Nat} (isOpen : (s.sems i).count ≠ -1) (nonzero : (s.sems i).count ≠ 0) :
    Instr s p (.inside (.downBody i)) (.setSem i { s.sems i with count := wrap32 ((s.sems i).count - 1) })
      (.inside (.downRelease i 1)) (.down p i false)
  | resumedSleeps {i : Nat} (zero : (s.sems i).count = 0) :
    Instr s p (.inside (.downLoop i)) .skip (.inside (.sleepAcquire i)) .silent
  | resumed {i : Nat} (nonzero : (s.sems i).count ≠ 0) :
    Instr s p (.inside (.downLoop i)) (.setSem i { s.sems i with count := wrap32 ((s.sems i).count - 1) })
      (.inside (.downRelease i 1)) (.down p i true)
  | downRelease {i : Nat} {result : Int} :
    Instr s p (.inside (.downRelease i result)) (.releaseSem i) (.at (.returned result)) .silent
  | sleepAcquire {i : Nat} :
    Instr s p (.inside (.sleepAcquire i)) (.acquireProc p) (.inside (.sleepRelease i)) .silent
  | sleepRelease {i : Nat} :
    Instr s p (.inside (.sleepRelease i)) (.releaseSem i) (.inside (.sleepChan i)) .silent
  | sleepChan {i : Nat} :
    Instr s p (.inside (.sleepChan i)) (.setChan (some i)) (.inside (.sleepState i)) .silent
  | sleepState {i : Nat} :
    Instr s p (.inside (.sleepState i)) (.setState .sleeping) (.inside (.sleepSched i)) .silent
  | sleepSched {i : Nat} : Instr s p (.inside (.sleepSched i)) .swtch (.inside (.sleepTidy i)) .silent
  | sleepTidy {i : Nat} : Instr s p (.inside (.sleepTidy i)) (.setChan none) (.inside (.sleepUnlock i)) .silent
  | sleepUnlock {i : Nat} :
    Instr s p (.inside (.sleepUnlock i)) (.releaseProc p) (.at (.sleepReacquire i)) .silent
  | kill {pid : Int} {q : Fin n} :
    Instr s p (.inside (.killBody pid q)) (.kill q) (.inside (.killRelease pid q true)) .silent
  | killOther {pid : Int} {q : Fin n} :
    Instr s p (.inside (.killBody pid q)) .skip (.inside (.killRelease pid q false)) .silent
  | killRelease {pid : Int} {q : Fin n} {found : Bool} : Instr s p (.inside (.killRelease pid q found))
    (.releaseProc q) (.at (if found then .returned 0 else .killAcquire pid (q + 1))) .silent
  | yieldAcquire {k : Point} : Instr s p (.yield .acquire k) (.acquireProc p) (.yield .state k) .silent
  | yieldState {k : Point} : Instr s p (.yield .state k) (.setState .runnable) (.yield .sched k) .silent
  | yieldSched {k : Point} : Instr s p (.yield .sched k) .swtch (.yield .release k) .silent
  | yieldRelease {k : Point} : Instr s p (.yield .release k) (.releaseProc p) (.at k) .silent

theorem downLoop_instr {s : State n κ} {p : Fin n} {i : Nat} {resumed : Bool} {effect : Effect n} {pc : Pc n}
    {event : Event n} (h : downLoop s p i resumed = (effect, pc, event)) :
    ((s.sems i).count = 0 ∧ effect = .skip ∧ pc = .inside (.sleepAcquire i) ∧
      event = if resumed then .silent else .waits p i) ∨
    ((s.sems i).count ≠ 0 ∧ effect = .setSem i { s.sems i with count := wrap32 ((s.sems i).count - 1) } ∧
      pc = .inside (.downRelease i 1) ∧ event = .down p i resumed) := by
  unfold downLoop Semaphore.downLoop at h
  by_cases hz : (s.sems i).count = 0
  · rw [if_pos hz] at h
    cases h
    exact Or.inl ⟨hz, rfl, rfl, rfl⟩
  · rw [if_neg hz] at h
    cases h
    exact Or.inr ⟨hz, rfl, rfl, rfl⟩

theorem sectionStep_instr {s : State n κ} {p : Fin n} {sec : Section n} {pc : Pc n} {effect : Effect n}
    {event : Event n} (h : sectionStep s p sec = (effect, pc, event)) : Instr s p (.inside sec) effect pc event := by
  cases sec with
  | openBody caller i value =>
    simp only [sectionStep, Semaphore.openBody] at h
    by_cases hc : (s.sems i).count = -1
    · simp only [hc, ne_eq, not_true, if_false] at h
      cases h
      exact .opened hc
    · simp only [hc, ne_eq, not_false_iff, if_true] at h
      cases h
      exact .openFails hc
  | closeBody i =>
    simp only [sectionStep, Semaphore.closeBody] at h
    by_cases hc : (s.sems i).count = -1
    · simp only [hc, if_true] at h
      cases h
      exact .closeFails hc
    · simp only [hc, if_false] at h
      cases h
      exact .closed hc
  | upBody i =>
    simp only [sectionStep, Semaphore.upBody] at h
    by_cases hc : (s.sems i).count = -1
    · simp only [hc, if_true] at h
      cases h
      exact .upFails
    · simp only [hc, if_false] at h
      by_cases hb : (s.sems i).count = (s.sems i).bound
      · simp only [hb, if_true] at h
        cases h
        exact .upFails
      · simp only [hb, if_false, if_true] at h
        cases h
        exact .up hc hb
  | wakeup i j =>
    simp only [sectionStep] at h
    split at h
    · next hj =>
      split at h
      · next hself =>
        cases h
        exact .wakeupSelf (congrArg Fin.val hself)
      · cases h
        exact .wakeupAcquire (q := ⟨j, hj⟩)
    · next hall =>
      cases h
      exact .wakeupEnd hall
  | downBody i =>
    simp only [sectionStep] at h
    split at h
    · next hc =>
      cases h
      exact .downFails hc
    · next hc =>
      obtain ⟨hz, rfl, rfl, rfl⟩ | ⟨hz, rfl, rfl, rfl⟩ := downLoop_instr h
      · exact .downSleeps hz
      · exact .down hc hz
  | downLoop i =>
    obtain ⟨hz, rfl, rfl, rfl⟩ | ⟨hz, rfl, rfl, rfl⟩ := downLoop_instr h
    · exact .resumedSleeps hz
    · exact .resumed hz
  | killBody pid q =>
    simp only [sectionStep] at h
    split at h
    · cases h
      exact .kill
    · cases h
      exact .killOther
  | _ =>
    cases h
    constructor

theorem threadStep_instr {s : State n κ} {p : Fin n} {pc pc' : Pc n} {effect : Effect n} {event : Event n}
    (h : threadStep s p pc = some (effect, pc', event)) : Instr s p pc effect pc' event := by
  cases pc with
  | «at» k =>
    cases k with
    | user => cases h
    | killAcquire pid j =>
      simp only [threadStep] at h
      split at h
      · next hj =>
        cases h
        exact .killAcquire (q := ⟨j, hj⟩)
      · cases h
        exact .killNone
    | _ =>
      cases h
      constructor
  | inside sec => exact sectionStep_instr (Option.some.inj h)
  | yield stage k => cases stage <;> cases h <;> constructor

variable [DecidableEq κ]

/-! ### The cases -/

/-- The cases of a step. -/
inductive StepCase (s : State n κ) : Action κ × Event n → State n κ → Prop
  | scan {c : κ} {q : Fin n} (cpu : s.cpus c = .scan q) (free : (s.procs q).lock = none) :
    StepCase s (.cpu c, .silent) ((s.setProc q fun x => { x with lock := some c }).setCpu c (.check q))
  | rescan {c : κ} {j : Nat} (cpu : s.cpus c = .scan j) : StepCase s (.cpu c, .silent) (s.setCpu c (.scan 0))
  | dispatch {c : κ} {q : Fin n} (cpu : s.cpus c = .check q) (runnable : (s.procs q).state = .runnable) :
    StepCase s (.cpu c, .silent) ((s.setProc q fun x => { x with state := .running }).setCpu c (.run q))
  | pass {c : κ} {q : Fin n} (cpu : s.cpus c = .check q) (not_runnable : (s.procs q).state ≠ .runnable) :
    StepCase s (.cpu c, .silent) (s.setCpu c (.unlock q))
  | unlock {c : κ} {q : Fin n} (cpu : s.cpus c = .unlock q) :
    StepCase s (.cpu c, .silent) ((s.setProc q fun x => { x with lock := none }).setCpu c (.scan (q + 1)))
  | thread {c : κ} {p : Fin n} {effect : Effect n} {pc : Pc n} {event : Event n} {t : State n κ}
    (cpu : s.cpus c = .run p) (instr : threadStep s p (s.pcs p) = some (effect, pc, event))
    (applied : applyEffect s c p effect = some t) : StepCase s (.cpu c, event) (t.setPc p pc)
  | call {c : κ} {p : Fin n} {sys : SysCall} (cpu : s.cpus c = .run p) (user : s.pcs p = .at .user) :
    StepCase s (.call c sys, .silent) (s.setPc p (.at (enter sys)))
  | preempt {c : κ} {p : Fin n} {k : Point} (cpu : s.cpus c = .run p) (point : s.pcs p = .at k) :
    StepCase s (.preempt c, .silent) (s.setPc p (.yield .acquire k))

theorem cpuStep_inv {s t : State n κ} {c : κ} {event : Event n} (h : cpuStep s c = some (event, t)) :
    StepCase s (.cpu c, event) t := by
  unfold cpuStep at h
  split at h
  · next j hc =>
    split at h
    · next hj =>
      split at h
      · next hfree =>
        cases h
        exact .scan (q := ⟨j, hj⟩) hc hfree
      · cases h
    · cases h
      exact .rescan hc
  · next q hc =>
    split at h
    · next hr =>
      cases h
      exact .dispatch hc hr
    · next hr =>
      cases h
      exact .pass hc hr
  · next q hc =>
    cases h
    exact .unlock hc
  · next p hc =>
    split at h
    · cases h
    · next effect pc event' hi =>
      obtain ⟨u, hu, heq⟩ := Option.map_eq_some_iff.mp h
      cases heq
      exact .thread hc hi hu

theorem step_inv {s t : State n κ} {l : Action κ × Event n} (h : Step s l t) : StepCase s l t := by
  obtain ⟨a, event⟩ := l
  cases a with
  | cpu c => exact cpuStep_inv h
  | call c sys =>
    simp only [Transition.ofStep, step] at h
    split at h
    · next p hc =>
      split at h
      · next hu =>
        cases h
        exact .call hc hu
      · cases h
    · cases h
  | preempt c =>
    simp only [Transition.ofStep, step] at h
    split at h
    · next p hc =>
      split at h
      · next k hk =>
        cases h
        exact .preempt hc hk
      · cases h
    · cases h

theorem applyEffect_pcs {s t : State n κ} {c : κ} {p : Fin n} {effect : Effect n}
    (h : applyEffect s c p effect = some t) : t.pcs = s.pcs := by
  cases effect <;> simp only [applyEffect, Option.some.injEq, Option.ite_none_right_eq_some] at h <;>
    first
      | (subst h; rfl)
      | (obtain ⟨-, rfl⟩ := h; rfl)

/-- How a step moves a thread: not at all, by its own instruction, or from a place outside the locks. -/
theorem step_pcs {s t : State n κ} {l : Action κ × Event n} (h : Step s l t) (p : Fin n) :
    t.pcs p = s.pcs p ∨
    (∃ c effect pc u, s.cpus c = .run p ∧ threadStep s p (s.pcs p) = some (effect, pc, l.2) ∧
      applyEffect s c p effect = some u ∧ t = u.setPc p pc) ∨
    ((∃ k, s.pcs p = .at k) ∧ ((∃ k, t.pcs p = .at k) ∨ ∃ k, t.pcs p = .yield .acquire k)) := by
  cases step_inv h with
  | @thread c q effect pc event u cpu instr applied =>
    by_cases hp : p = q
    · subst hp
      exact Or.inr (Or.inl ⟨c, effect, pc, u, cpu, instr, applied, rfl⟩)
    · left
      rw [State.setPc_pcs, Function.update_of_ne hp, applyEffect_pcs applied]
  | @call c q sys cpu user =>
    by_cases hp : p = q
    · subst hp
      exact Or.inr (Or.inr ⟨⟨_, user⟩, Or.inl ⟨enter sys, by rw [State.setPc_pcs, Function.update_self]⟩⟩)
    · exact Or.inl (by rw [State.setPc_pcs, Function.update_of_ne hp])
  | @preempt c q k cpu point =>
    by_cases hp : p = q
    · subst hp
      exact Or.inr (Or.inr ⟨⟨k, point⟩, Or.inr ⟨k, by rw [State.setPc_pcs, Function.update_self]⟩⟩)
    · exact Or.inl (by rw [State.setPc_pcs, Function.update_of_ne hp])
  | _ => exact Or.inl rfl

/-- How a step concerns one process: not at all, or as its instruction, its preemption or its system call. -/
theorem step_place {s t : State n κ} {l : Action κ × Event n} (h : Step s l t) (p : Fin n) :
    (t.pcs p = s.pcs p ∧ ∀ c, l.1 = .cpu c → s.cpus c ≠ .run p) ∨
    (∃ c effect pc u, s.cpus c = .run p ∧ l.1 = .cpu c ∧ threadStep s p (s.pcs p) = some (effect, pc, l.2) ∧
      applyEffect s c p effect = some u ∧ t = u.setPc p pc) ∨
    (∃ c k, s.cpus c = .run p ∧ l = (.preempt c, .silent) ∧ s.pcs p = .at k ∧ t = s.setPc p (.yield .acquire k)) ∨
    ∃ c sys, s.cpus c = .run p ∧ l = (.call c sys, .silent) ∧ s.pcs p = .at .user ∧ t = s.setPc p (.at (enter sys)) := by
  have hother : ∀ {c : κ} {q : Fin n}, s.cpus c = .run q → p ≠ q → ∀ d, Action.cpu c = .cpu d → s.cpus d ≠ .run p := by
    rintro c q hc hp d hd hrun
    cases hd
    rw [hc] at hrun
    cases hrun
    exact hp rfl
  cases step_inv h with
  | @thread c q effect pc event u cpu instr applied =>
    by_cases hp : p = q
    · subst hp
      exact Or.inr (Or.inl ⟨c, effect, pc, u, cpu, rfl, instr, applied, rfl⟩)
    · refine Or.inl ⟨?_, hother cpu hp⟩
      rw [State.setPc_pcs, Function.update_of_ne hp, applyEffect_pcs applied]
  | @call c q sys cpu user =>
    by_cases hp : p = q
    · subst hp
      exact Or.inr (Or.inr (Or.inr ⟨c, sys, cpu, rfl, user, rfl⟩))
    · exact Or.inl ⟨by rw [State.setPc_pcs, Function.update_of_ne hp], nofun⟩
  | @preempt c q k cpu point =>
    by_cases hp : p = q
    · subst hp
      exact Or.inr (Or.inr (Or.inl ⟨c, k, cpu, rfl, point, rfl⟩))
    · exact Or.inl ⟨by rw [State.setPc_pcs, Function.update_of_ne hp], nofun⟩
  | scan cpu free | rescan cpu | dispatch cpu runnable | pass cpu not_runnable | unlock cpu =>
    refine Or.inl ⟨rfl, ?_⟩
    rintro d hd hrun
    cases hd
    rw [cpu] at hrun
    cases hrun

/-! ### Where a thread stands when it makes an event -/

/-- The thread of a process makes an event at this place only. -/
inductive Made (p : Fin n) : Pc n → Event n → Prop
  | silent {pc : Pc n} : Made p pc .silent
  | opened {caller : Caller} {i : Nat} {value : Int} :
    Made p (.inside (.openBody caller i value)) (.opened p i value)
  | closed {i : Nat} : Made p (.inside (.closeBody i)) (.closed p i)
  | up {i : Nat} : Made p (.inside (.upBody i)) (.up p i)
  | waits {i : Nat} : Made p (.inside (.downBody i)) (.waits p i)
  | down {i : Nat} : Made p (.inside (.downBody i)) (.down p i false)
  | resumed {i : Nat} : Made p (.inside (.downLoop i)) (.down p i true)
  | returned {result : Int} : Made p (.at (.returned result)) (.returned p result)

omit [DecidableEq κ] in
theorem threadStep_made {s : State n κ} {p : Fin n} {pc pc' : Pc n} {effect : Effect n} {event : Event n}
    (h : threadStep s p pc = some (effect, pc', event)) : Made p pc event := by
  cases threadStep_instr h <;> constructor

theorem step_made {s t : State n κ} {l : Action κ × Event n} (h : Step s l t) :
    l.2 = .silent ∨ ∃ c p, s.cpus c = .run p ∧ l.1 = .cpu c ∧ Made p (s.pcs p) l.2 := by
  cases step_inv h with
  | thread cpu instr applied => exact Or.inr ⟨_, _, cpu, rfl, threadStep_made instr⟩
  | _ => exact Or.inl rfl

/-! ### How a step changes a semaphore -/

/-- The semaphore whose counter the step with this event changed. -/
def Event.sem? : Event n → Option Nat
  | .opened _ i _ => some i
  | .closed _ i => some i
  | .up _ i => some i
  | .down _ i _ => some i
  | _ => none

/-- How the step with an event changed the semaphore it names. -/
inductive SemChange : Semaphore → Event n → Semaphore → Prop
  | opened {sem : Semaphore} {p : Fin n} {i : Nat} {value : Int} (closed : sem.count = -1) :
    SemChange sem (.opened p i value) ⟨value, value⟩
  | closed {sem : Semaphore} {p : Fin n} {i : Nat} (isOpen : sem.count ≠ -1) :
    SemChange sem (.closed p i) { sem with count := -1 }
  | up {sem : Semaphore} {p : Fin n} {i : Nat} (isOpen : sem.count ≠ -1) (below : sem.count ≠ sem.bound) :
    SemChange sem (.up p i) { sem with count := wrap32 (sem.count + 1) }
  | down {sem : Semaphore} {p : Fin n} {i : Nat} {resumed : Bool} (nonzero : sem.count ≠ 0)
    (isOpen : resumed = false → sem.count ≠ -1) :
    SemChange sem (.down p i resumed) { sem with count := wrap32 (sem.count - 1) }

/-- What an instruction does to the semaphores. -/
def Effect.SemSpec (s : State n κ) (effect : Effect n) (event : Event n) : Prop :=
  (∃ i value, effect = .setSem i value ∧
    (event.sem? = some i ∧ SemChange (s.sems i) event value ∨ event.sem? = none ∧ value = s.sems i)) ∨
  (∀ i value, effect ≠ .setSem i value) ∧ event.sem? = none

omit [DecidableEq κ] in
theorem threadStep_sem {s : State n κ} {p : Fin n} {pc pc' : Pc n} {effect : Effect n} {event : Event n}
    (h : threadStep s p pc = some (effect, pc', event)) : effect.SemSpec s event := by
  cases threadStep_instr h with
  | opened closed => exact Or.inl ⟨_, _, rfl, Or.inl ⟨rfl, .opened closed⟩⟩
  | closed isOpen => exact Or.inl ⟨_, _, rfl, Or.inl ⟨rfl, .closed isOpen⟩⟩
  | up isOpen below => exact Or.inl ⟨_, _, rfl, Or.inl ⟨rfl, .up isOpen below⟩⟩
  | down isOpen nonzero => exact Or.inl ⟨_, _, rfl, Or.inl ⟨rfl, .down nonzero fun _ => isOpen⟩⟩
  | resumed nonzero => exact Or.inl ⟨_, _, rfl, Or.inl ⟨rfl, .down nonzero nofun⟩⟩
  | openFails | closeFails => exact Or.inl ⟨_, _, rfl, Or.inr ⟨rfl, rfl⟩⟩
  | _ => exact Or.inr ⟨nofun, rfl⟩

theorem applyEffect_sems {s t : State n κ} {c : κ} {p : Fin n} {effect : Effect n}
    (h : applyEffect s c p effect = some t) (hne : ∀ i value, effect ≠ .setSem i value) : t.sems = s.sems := by
  cases effect <;> simp only [applyEffect, Option.some.injEq, Option.ite_none_right_eq_some] at h
  case setSem i value => exact absurd rfl (hne i value)
  all_goals
    first
      | (subst h; rfl)
      | (obtain ⟨-, rfl⟩ := h; rfl)

/-- A step changes the semaphore its event names, and no other. -/
theorem step_sem {s t : State n κ} {l : Action κ × Event n} (h : Step s l t) (i : Nat) :
    l.2.sem? = some i ∧ SemChange (s.sems i) l.2 (t.sems i) ∨ l.2.sem? ≠ some i ∧ t.sems i = s.sems i := by
  cases step_inv h with
  | @thread c p effect pc event u cpu instr applied =>
    rcases threadStep_sem instr with ⟨j, value, rfl, hj⟩ | ⟨hne, hnone⟩
    · cases applied
      by_cases hij : i = j
      · subst hij
        rcases hj with ⟨hev, hch⟩ | ⟨hev, rfl⟩
        · exact Or.inl ⟨hev, by simpa using hch⟩
        · exact Or.inr ⟨by simp [hev], by simp⟩
      · have hev : event.sem? ≠ some i := by
          rcases hj with ⟨hev, -⟩ | ⟨hev, -⟩
          · rw [hev]
            exact fun heq => hij (Option.some.inj heq).symm
          · simp [hev]
        exact Or.inr ⟨hev, by simp [hij]⟩
    · exact Or.inr ⟨by simp [hnone], by simp [applyEffect_sems applied hne]⟩
  | _ => exact Or.inr ⟨by simp [Event.sem?], rfl⟩

end LabSO.Kernel

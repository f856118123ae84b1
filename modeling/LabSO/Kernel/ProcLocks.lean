import LabSO.Kernel.ProcSteps
import LabSO.Lib.Locks

/-! Which locks a CPU holds: at most one `p->lock` and one lock taken before, as the place of its thread in the code says.
    A thread that is switched away from holds its own `p->lock` only, and its CPU gives it up in `scheduler`. -/

namespace LabSO.Kernel.Procs
open Transition Locks

variable {n : Nat} {κ : Type}

def Waker.lk : Waker → Outer
  | reparent .. => .wait
  | exit _ => .wait
  | other i => .other i

/-! ### The locks that a place in the code holds -/

def Section.heldProc (p : Fin n) : Section n → Option (Fin n)
  | .forkCheck _ q | .forkSkip _ q | .forkFound _ q | .forkMemory _ q _ | .forkContext _ q _ | .forkCopy _ q _
  | .forkFree q _ | .forkFail q | .forkRelease q _ | .forkState q _ | .forkDone q _ | .wakeupTest _ q _
  | .wakeupRelease _ q _ | .waitCheck _ q | .waitSkip _ q | .waitFound q _ | .killCheck _ q | .killRelease _ q _ => some q
  | .exitState _ | .exitRelease | .exitSched | .waitKilledRead _ | .waitKilledRelease .. | .sleepRelease _ | .sleepMark _
  | .sleepSched _ | .sleepTidy _ | .sleepUnlock _ | .setkilled | .setkilledRelease => some p
  | _ => none

def Section.heldOuter : Section n → Option Outer
  | .forkAdopt .. | .forkAdopted .. | .exitReparent .. | .exitWakeup _ | .exitLock _ | .exitState _ | .exitRelease
  | .waitScan .. | .waitCheck .. | .waitSkip .. | .waitFound .. | .waitReturn _ | .waitKilled _ | .waitKilledRead _
  | .waitKilledRelease .. => some .wait
  | .wakeup _ _ f | .wakeupTest _ _ f | .wakeupRelease _ _ f => some f.lk
  | .sleepAcquire f | .sleepRelease f => some f.lk
  | .other i => some (.other i)
  | _ => none

def Pc.heldProc (p : Fin n) : Pc n → Option (Fin n)
  | .inside sec => sec.heldProc p
  | .yield .state _ | .yield .sched _ | .yield .release _ | .zombie => some p
  | _ => none

def Pc.heldOuter : Pc n → Option Outer
  | .inside sec => sec.heldOuter
  | _ => none

/-- Where a thread goes on after `sched`. -/
def Pc.Parked : Pc n → Prop
  | .inside (.sleepTidy _) => True
  | .yield .release _ => True
  | .zombie => True
  | _ => False

def Cpu.heldProc : Cpu n → Option (Fin n)
  | .scan _ => none
  | .check q | .set q | .restore q | .save q _ | .clear q | .unlock q => some q
  | .run p pc => pc.heldProc p

def Cpu.heldOuter : Cpu n → Option Outer
  | .run _ pc => pc.heldOuter
  | _ => none

/-- What `c->proc` is. -/
def Cpu.current : Cpu n → Option (Fin n)
  | .restore q | .run q _ | .save q _ | .clear q => some q
  | _ => none

theorem held_of_parked {p : Fin n} {pc : Pc n} (h : pc.Parked) : pc.heldOuter = none ∧ pc.heldProc p = some p := by
  cases pc with
  | «at» k => cases h
  | inside sec => cases sec <;> first | exact ⟨rfl, rfl⟩ | cases h
  | yield stage k => cases stage <;> first | exact ⟨rfl, rfl⟩ | cases h
  | zombie => exact ⟨rfl, rfl⟩

/-- The `p->lock` that a thread holds after an instruction. -/
def Effect.heldProc (before : Option (Fin n)) : Effect n → Option (Fin n)
  | .acquireProc q => some q
  | .releaseProc _ => none
  | _ => before

def Effect.heldOuter (before : Option Outer) : Effect n → Option Outer
  | .acquire lk => some lk
  | .release _ => none
  | _ => before

/-- An instruction keeps to the locks: it gives up what it holds, and the next place in the code holds what it left. -/
structure Disciplined (p : Fin n) (pc : Pc n) (effect : Effect n) (pc' : Pc n) : Prop where
  release : ∀ lk, effect = .release lk → pc.heldOuter = some lk
  releaseProc : ∀ q, effect = .releaseProc q → pc.heldProc p = some q
  heldProc : (effect.cpu p pc').heldProc = effect.heldProc (pc.heldProc p)
  heldOuter : (effect.cpu p pc').heldOuter = effect.heldOuter pc.heldOuter
  parked : effect = .swtch → pc'.Parked

theorem SectionInstr.disciplined {init p : Fin n} {s : State n κ} {sec : Section n} {effect : Effect n} {pc' : Pc n}
    {event : Event n} (h : SectionInstr init s p sec effect pc' event) : Disciplined p (.inside sec) effect pc' := by
  cases h with
  | @wakeupEnd chan j f => cases f <;> exact ⟨by simp, by simp, rfl, rfl, by simp⟩
  | sleepSched | exitSched => exact ⟨by simp, by simp, rfl, rfl, fun _ => trivial⟩
  | _ => exact ⟨by simp [Pc.heldOuter, Section.heldOuter], by simp [Pc.heldProc, Section.heldProc], rfl, rfl, by simp⟩

theorem Instr.disciplined {init p : Fin n} {s : State n κ} {pc pc' : Pc n} {effect : Effect n} {event : Event n}
    (h : Instr init s p pc effect pc' event) : Disciplined p pc effect pc' := by
  cases h with
  | inside instr => exact instr.disciplined
  | @reacquire f => cases f <;> exact ⟨by simp, by simp, rfl, rfl, by simp⟩
  | yieldSched => exact ⟨by simp, by simp, rfl, rfl, fun _ => trivial⟩
  | _ => exact ⟨by simp, by simp [Pc.heldProc], rfl, rfl, by simp⟩

theorem Enters.held {init p : Fin n} {pc pc' : Pc n} (h : Enters init p pc pc') :
    pc'.heldProc p = pc.heldProc p ∧ pc'.heldOuter = pc.heldOuter := by
  cases h <;> exact ⟨rfl, rfl⟩

/-! ### The locks of a state -/

def State.heldProc (s : State n κ) (c : κ) : Option (Fin n) := (s.cpus c).heldProc

def State.heldOuter (s : State n κ) (c : κ) : Option Outer := (s.cpus c).heldOuter

/-- The locks are in the names of those who hold them, `c->proc` is the process the CPU is on, and what is saved is the
    place after a `sched`. -/
structure Locked (s : State n κ) : Prop where
  proc : Owned s.heldProc s.procLock
  outer : Owned s.heldOuter s.outer
  current : ∀ c, s.proc c = (s.cpus c).current
  context : ∀ q pc, s.context q = some pc → pc.Parked
  save : ∀ c p pc, s.cpus c = .save p pc → pc.Parked

theorem Boot.locked {init : Fin n} {s : State n κ} (h : Boot init s) : Locked s where
  proc c q hc := by
    rw [State.heldProc, h.cpus] at hc
    cases hc
  outer c lk hc := by
    rw [State.heldOuter, h.cpus] at hc
    cases hc
  current c := by rw [h.cpus, h.proc]; rfl
  context q pc hq := by
    rw [h.context] at hq
    split at hq <;> cases hq
    trivial
  save c p pc hc := by
    rw [h.cpus] at hc
    cases hc

variable [DecidableEq κ]

theorem heldProc_setCpu (s : State n κ) (c : κ) (cpu : Cpu n) :
    (s.setCpu c cpu).heldProc = Function.update s.heldProc c cpu.heldProc := by
  funext d
  by_cases hd : d = c
  · subst hd
    simp [State.heldProc]
  · simp [State.heldProc, hd]

theorem heldOuter_setCpu (s : State n κ) (c : κ) (cpu : Cpu n) :
    (s.setCpu c cpu).heldOuter = Function.update s.heldOuter c cpu.heldOuter := by
  funext d
  by_cases hd : d = c
  · subst hd
    simp [State.heldOuter]
  · simp [State.heldOuter, hd]

/-- A step of the CPU `c` that keeps to the locks. -/
theorem Locked.setCpu {s t : State n κ} {c : κ} {cpu : Cpu n} (h : Locked s) (hcpus : t.cpus = Function.update s.cpus c cpu)
    (hproc : Owned (Function.update s.heldProc c cpu.heldProc) t.procLock)
    (houter : Owned (Function.update s.heldOuter c cpu.heldOuter) t.outer)
    (hcurrent : t.proc = Function.update s.proc c cpu.current)
    (hcontext : ∀ q pc, t.context q = some pc → s.context q = some pc ∨ pc.Parked)
    (hsave : ∀ p pc, cpu = .save p pc → pc.Parked) : Locked t := by
  have hself : t.cpus c = cpu := by rw [hcpus, Function.update_self]
  have hother : ∀ d, d ≠ c → t.cpus d = s.cpus d := fun d hd => by rw [hcpus, Function.update_of_ne hd]
  refine ⟨?_, ?_, fun d => ?_, fun q pc hq => (hcontext q pc hq).elim (h.context q pc) id, fun d p pc hd => ?_⟩
  · convert hproc using 1
    rw [← heldProc_setCpu]
    funext d
    simp [State.heldProc, hcpus]
  · convert houter using 1
    rw [← heldOuter_setCpu]
    funext d
    simp [State.heldOuter, hcpus]
  · rw [hcurrent]
    by_cases hdc : d = c
    · subst hdc
      rw [Function.update_self, hself]
    · rw [Function.update_of_ne hdc, h.current, hother d hdc]
  · by_cases hdc : d = c
    · subst hdc
      exact hsave p pc (hself.symm.trans hd)
    · exact h.save d p pc ((hother d hdc).symm.trans hd)

theorem Locked.keepProc {s : State n κ} {c : κ} {held : Option (Fin n)} (h : Locked s) (hc : (s.cpus c).heldProc = held) :
    Owned (Function.update s.heldProc c held) s.procLock := by
  have heq : s.heldProc c = held := hc
  rw [← heq, Function.update_eq_self]
  exact h.proc

theorem Locked.keepOuter {s : State n κ} {c : κ} {held : Option Outer} (h : Locked s) (hc : (s.cpus c).heldOuter = held) :
    Owned (Function.update s.heldOuter c held) s.outer := by
  have heq : s.heldOuter c = held := hc
  rw [← heq, Function.update_eq_self]
  exact h.outer

theorem Locked.keepCurrent {s : State n κ} {c : κ} {p : Option (Fin n)} (h : Locked s) (hc : (s.cpus c).current = p) :
    s.proc = Function.update s.proc c p := by
  rw [← hc, ← h.current, Function.update_eq_self]

section Thread
variable {s t : State n κ} {c : κ} {p : Fin n} {effect : Effect n} {pc pc' : Pc n}

/-- What an instruction leaves of the locks. -/
theorem applyEffect_locks (ha : applyEffect s c effect = some t) (hp : Owned s.heldProc s.procLock)
    (ho : Owned s.heldOuter s.outer) (hcpu : s.cpus c = .run p pc) (hd : Disciplined p pc effect pc') :
    Owned (Function.update s.heldProc c (effect.cpu p pc').heldProc) t.procLock ∧
    Owned (Function.update s.heldOuter c (effect.cpu p pc').heldOuter) t.outer := by
  have hheld : s.heldProc c = pc.heldProc p := by rw [State.heldProc, hcpu]; rfl
  have houter : s.heldOuter c = pc.heldOuter := by rw [State.heldOuter, hcpu]; rfl
  rw [hd.heldProc, hd.heldOuter, ← hheld, ← houter]
  cases effect with
  | acquire lk =>
    obtain ⟨hfree, ht⟩ := Option.ite_none_right_eq_some.mp ha
    cases ht
    exact ⟨by simpa [Effect.heldProc] using hp, ho.acquire hfree⟩
  | release lk =>
    cases ha
    exact ⟨by simpa [Effect.heldProc] using hp, ho.release (houter.trans (hd.release lk rfl))⟩
  | acquireProc q =>
    obtain ⟨hfree, ht⟩ := Option.ite_none_right_eq_some.mp ha
    cases ht
    exact ⟨hp.acquire hfree, by simpa [Effect.heldOuter] using ho⟩
  | releaseProc q =>
    cases ha
    exact ⟨hp.release (hheld.trans (hd.releaseProc q rfl)), by simpa [Effect.heldOuter] using ho⟩
  | _ =>
    cases ha
    exact ⟨by simpa [Effect.heldProc] using hp, by simpa [Effect.heldOuter] using ho⟩

omit [DecidableEq κ] in
theorem applyEffect_cpus (ha : applyEffect s c effect = some t) : t.cpus = s.cpus ∧ t.proc = s.proc := by
  cases effect <;> simp only [applyEffect, Option.some.injEq, Option.ite_none_right_eq_some] at ha <;>
    first
      | (subst ha; exact ⟨rfl, rfl⟩)
      | (obtain ⟨-, rfl⟩ := ha; exact ⟨rfl, rfl⟩)

omit [DecidableEq κ] in
theorem applyEffect_context (ha : applyEffect s c effect = some t) {q : Fin n} {k : Pc n} (hq : t.context q = some k) :
    s.context q = some k ∨ k = forkret := by
  cases effect with
  | setup np =>
    cases ha
    by_cases hnp : q = np
    · subst hnp
      rw [State.setThread_context, State.setContext_context, Function.update_self] at hq
      exact Or.inr (Option.some.inj hq).symm
    · rw [State.setThread_context, State.setContext_context, Function.update_of_ne hnp] at hq
      exact Or.inl hq
  | acquire | acquireProc =>
    obtain ⟨-, ht⟩ := Option.ite_none_right_eq_some.mp ha
    cases ht
    exact Or.inl hq
  | _ =>
    cases ha
    exact Or.inl hq

omit [DecidableEq κ] in
theorem Effect.current_cpu : (effect.cpu p pc').current = some p := by cases effect <;> rfl

theorem Locked.thread (h : Locked s) (hcpu : s.cpus c = .run p pc) (hd : Disciplined p pc effect pc')
    (ha : applyEffect s c effect = some t) : Locked (t.goTo c p (effect.cpu p pc') pc') := by
  obtain ⟨hcpus, hproc⟩ := applyEffect_cpus ha
  obtain ⟨hlock, houter⟩ := applyEffect_locks ha h.proc h.outer hcpu hd
  refine h.setCpu (c := c) ?_ hlock houter ?_ ?_ ?_
  · rw [State.goTo_cpus, hcpus]
  · rw [State.goTo_proc, hproc, Effect.current_cpu]
    exact h.keepCurrent (by rw [hcpu]; rfl)
  · intro q k hq
    refine (applyEffect_context ha hq).imp_right fun hk => ?_
    rw [hk]
    trivial
  · intro q k hq
    cases effect <;> cases hq
    exact hd.parked rfl

end Thread

theorem locked_step {init : Fin n} {s t : State n κ} {l : Action n κ × Event n} (h : Locked s) (hstep : Step init s l t) :
    Locked t := by
  have hcontext : ∀ q pc, s.context q = some pc → s.context q = some pc ∨ pc.Parked := fun _ _ => Or.inl
  cases step_inv hstep with
  | @scan c q cpu free =>
    exact h.setCpu rfl (h.proc.acquire free) (h.keepOuter (by rw [cpu]; rfl)) (h.keepCurrent (by rw [cpu]; rfl)) hcontext
      (by simp)
  | wrap cpu | choose cpu | pass cpu =>
    exact h.setCpu rfl (h.keepProc (by rw [cpu]; rfl)) (h.keepOuter (by rw [cpu]; rfl)) (h.keepCurrent (by rw [cpu]; rfl))
      hcontext (by simp)
  | set cpu =>
    exact h.setCpu rfl (h.keepProc (by rw [cpu]; rfl)) (h.keepOuter (by rw [cpu]; rfl)) rfl hcontext (by simp)
  | @restore c q pc cpu context =>
    obtain ⟨houter, hproc⟩ := held_of_parked (p := q) (h.context q pc context)
    exact h.setCpu rfl (h.keepProc (by rw [cpu]; exact hproc.symm)) (h.keepOuter (by rw [cpu]; exact houter.symm))
      (h.keepCurrent (by rw [cpu]; rfl)) hcontext (by simp)
  | thread cpu instr apply => exact h.thread cpu instr.disciplined apply
  | @save c p pc cpu =>
    refine h.setCpu rfl (h.keepProc (by rw [cpu]; rfl)) (h.keepOuter (by rw [cpu]; rfl)) (h.keepCurrent (by rw [cpu]; rfl))
      (fun q k hq => ?_) (by simp)
    by_cases hqp : q = p
    · subst hqp
      rw [State.setCpu_context, State.setContext_context, Function.update_self] at hq
      cases hq
      exact Or.inr (h.save c q pc cpu)
    · rw [State.setCpu_context, State.setContext_context, Function.update_of_ne hqp] at hq
      exact Or.inl hq
  | clear cpu =>
    exact h.setCpu rfl (h.keepProc (by rw [cpu]; rfl)) (h.keepOuter (by rw [cpu]; rfl)) rfl hcontext (by simp)
  | unlock cpu =>
    exact h.setCpu rfl (h.proc.release (by rw [State.heldProc, cpu]; rfl)) (h.keepOuter (by rw [cpu]; rfl))
      (h.keepCurrent (by rw [cpu]; rfl)) hcontext (by simp)
  | enters cpu enters =>
    obtain ⟨hproc, houter⟩ := enters.held
    exact h.setCpu rfl (h.keepProc (by rw [cpu]; exact hproc.symm)) (h.keepOuter (by rw [cpu]; exact houter.symm))
      (h.keepCurrent (by rw [cpu]; rfl)) hcontext (by simp)
  | unlockOther cpu =>
    exact h.setCpu rfl (h.keepProc (by rw [cpu]; rfl)) (h.outer.release (by rw [State.heldOuter, cpu]; rfl))
      (h.keepCurrent (by rw [cpu]; rfl)) hcontext (by simp)
  | interrupt free => exact ⟨h.proc, h.outer, h.current, h.context, h.save⟩

end LabSO.Kernel.Procs

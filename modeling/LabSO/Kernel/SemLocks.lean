import LabSO.Kernel.SemSteps
import LabSO.Lib.Locks

/-! Who holds the locks. A thread holds at most the lock of one semaphore and one `p->lock`, as its place in
    the code says, and only a thread that `swtch` left behind is on no CPU. -/

namespace LabSO.Kernel
open Transition Locks

variable {n : Nat} {κ : Type}

/-! ### The locks that a place in the code holds -/

def Section.heldSem : Section n → Option Nat
  | .openBody _ i _ | .openRelease _ i _ _ | .closeBody i | .closeRelease i _ | .upBody i | .wakeup i _
  | .wakeupTest i _ | .wakeupRelease i _ | .upRelease i _ | .downBody i | .downLoop i | .downRelease i _
  | .sleepAcquire i | .sleepRelease i => some i
  | _ => none

def Section.heldProc (p : Fin n) : Section n → Option (Fin n)
  | .wakeupTest _ q | .wakeupRelease _ q | .killBody _ q | .killRelease _ q _ => some q
  | .sleepRelease _ | .sleepChan _ | .sleepState _ | .sleepSched _ | .sleepTidy _ | .sleepUnlock _ => some p
  | _ => none

def Pc.heldSem : Pc n → Option Nat
  | .inside sec => sec.heldSem
  | _ => none

def Pc.heldProc (p : Fin n) : Pc n → Option (Fin n)
  | .inside sec => sec.heldProc p
  | .yield .state _ | .yield .sched _ | .yield .release _ => some p
  | _ => none

/-- Where a thread goes on after `sched`. -/
def Pc.Parked : Pc n → Prop
  | .inside (.sleepTidy _) => True
  | .yield .release _ => True
  | _ => False

/-- Where a thread is about to call `swtch`. -/
def Pc.Leaving : Pc n → Prop
  | .inside (.sleepSched _) => True
  | .yield .sched _ => True
  | _ => False

/-- What a thread has to hold for an instruction. -/
def Effect.Needs (p : Fin n) (pc : Pc n) : Effect n → Prop
  | .skip => True
  | .acquireSem _ => True
  | .releaseSem i => pc.heldSem = some i
  | .acquireProc _ => True
  | .releaseProc q => pc.heldProc p = some q
  | .setSem i _ => pc.heldSem = some i
  | .setChan _ => pc.heldProc p = some p
  | .setState _ => pc.heldProc p = some p
  | .wake q _ => pc.heldProc p = some q
  | .kill q => pc.heldProc p = some q
  | .swtch => pc.heldSem = none ∧ pc.heldProc p = some p

/-- What a thread holds after an instruction. -/
def Effect.heldSem (pc : Pc n) : Effect n → Option Nat
  | .acquireSem i => some i
  | .releaseSem _ => none
  | _ => pc.heldSem

def Effect.heldProc (p : Fin n) (pc : Pc n) : Effect n → Option (Fin n)
  | .acquireProc q => some q
  | .releaseProc _ => none
  | _ => pc.heldProc p

/-- An instruction keeps to the locks: it writes under the lock it needs, and the next place in the code holds
    what it left. -/
structure Disciplined (p : Fin n) (pc : Pc n) (effect : Effect n) (pc' : Pc n) : Prop where
  needs : effect.Needs p pc
  heldSem : pc'.heldSem = effect.heldSem pc
  heldProc : pc'.heldProc p = effect.heldProc p pc
  parked : pc'.Parked ↔ effect = .swtch
  leaving : pc.Leaving ↔ effect = .swtch
  state : ∀ st, effect = .setState st → pc'.Leaving ∧ (st = .sleeping → ∃ i, pc' = .inside (.sleepSched i))

theorem threadStep_disciplined {s : State n κ} {p : Fin n} {pc pc' : Pc n} {effect : Effect n} {event : Event n}
    (h : threadStep s p pc = some (effect, pc', event)) : Disciplined p pc effect pc' := by
  cases threadStep_instr h with
  | @sleepState i =>
    exact ⟨rfl, rfl, rfl, by simp [Pc.Parked], by simp [Pc.Leaving], fun _ _ => ⟨trivial, fun _ => ⟨i, rfl⟩⟩⟩
  | yieldState =>
    refine ⟨rfl, rfl, rfl, by simp [Pc.Parked], by simp [Pc.Leaving], fun st hst => ⟨trivial, fun hsleep => ?_⟩⟩
    cases hst
    cases hsleep
  | sleepSched | yieldSched =>
    exact ⟨⟨rfl, rfl⟩, rfl, rfl, by simp [Pc.Parked], by simp [Pc.Leaving], by simp⟩
  | _ =>
    exact ⟨by first | exact rfl | trivial, rfl, rfl, by simp [Pc.Parked], by simp [Pc.Leaving], by simp⟩

/-! ### Into `sleep` -/

/-- How a thread comes to a place in `sleep`. -/
def Section.Entered (s : State n κ) (p : Fin n) (pc : Pc n) (effect : Effect n) : Section n → Prop
  | .sleepAcquire i => (s.sems i).count = 0 ∧ effect = .skip
  | .sleepRelease i => pc = .inside (.sleepAcquire i) ∧ effect = .acquireProc p
  | .sleepChan i => pc = .inside (.sleepRelease i) ∧ effect = .releaseSem i
  | .sleepState i => pc = .inside (.sleepChan i) ∧ effect = .setChan (some i)
  | .sleepSched i => pc = .inside (.sleepState i) ∧ effect = .setState .sleeping
  | .sleepTidy i => pc = .inside (.sleepSched i) ∧ effect = .swtch
  | _ => True

theorem threadStep_entered {s : State n κ} {p : Fin n} {pc : Pc n} {effect : Effect n} {sec : Section n}
    {event : Event n} (h : threadStep s p pc = some (effect, .inside sec, event)) : sec.Entered s p pc effect := by
  cases threadStep_instr h with
  | downSleeps zero | resumedSleeps zero => exact ⟨zero, rfl⟩
  | sleepAcquire | sleepRelease | sleepChan | sleepState | sleepSched => exact ⟨rfl, rfl⟩
  | _ => trivial

/-! ### The locks of a state -/

def State.heldSem (s : State n κ) (c : κ) : Option Nat :=
  match s.cpus c with
  | .run p => (s.pcs p).heldSem
  | _ => none

def State.heldProc (s : State n κ) (c : κ) : Option (Fin n) :=
  match s.cpus c with
  | .scan _ => none
  | .check q => some q
  | .run p => (s.pcs p).heldProc p
  | .unlock q => some q

def State.procLock (s : State n κ) (q : Fin n) : Option κ := (s.procs q).lock

/-- The locks, and what `p->state` and `p->chan` say under them. -/
structure Locked (s : State n κ) : Prop where
  sem : Owned s.heldSem s.semLock
  proc : Owned s.heldProc s.procLock
  alone : ∀ c c' p, s.cpus c = .run p → s.cpus c' = .run p → c = c'
  running : ∀ c p, s.cpus c = .run p → (s.procs p).state = .running ∨ (s.pcs p).Leaving
  parked : ∀ p, (∀ c, s.cpus c ≠ .run p) → (s.pcs p).Parked
  sleeping : ∀ p, (s.procs p).state = .sleeping →
    ∃ i, s.pcs p = .inside (.sleepSched i) ∨ s.pcs p = .inside (.sleepTidy i)
  chan : ∀ p i, s.pcs p = .inside (.sleepState i) ∨ s.pcs p = .inside (.sleepSched i) ∨
    s.pcs p = .inside (.sleepTidy i) → (s.procs p).chan = some i

theorem Locked.boot {s : State n κ} (h : Boot s) : Locked s where
  sem c i hc := by
    obtain ⟨j, hj⟩ := h.cpus c
    simp [State.heldSem, hj] at hc
  proc c q hc := by
    obtain ⟨j, hj⟩ := h.cpus c
    simp [State.heldProc, hj] at hc
  alone c c' p hc _ := by
    obtain ⟨j, hj⟩ := h.cpus c
    rw [hj] at hc
    cases hc
  running c p hc := by
    obtain ⟨j, hj⟩ := h.cpus c
    rw [hj] at hc
    cases hc
  parked p _ := by
    rw [h.pcs]
    trivial
  sleeping p hp := by rcases h.state p with hs | hs <;> rw [hs] at hp <;> cases hp
  chan p i hp := by rcases hp with hp | hp | hp <;> rw [h.pcs] at hp <;> cases hp

/-- A thread that is not parked is on a CPU. -/
theorem Locked.on_cpu {s : State n κ} (h : Locked s) {p : Fin n} (hp : ¬(s.pcs p).Parked) :
    ∃ c, s.cpus c = .run p := by
  by_contra hnone
  exact hp (h.parked p fun c hc => hnone ⟨c, hc⟩)

theorem heldSem_of_run {s : State n κ} {c : κ} {p : Fin n} (h : s.cpus c = .run p) :
    s.heldSem c = (s.pcs p).heldSem := by simp [State.heldSem, h]

theorem heldProc_of_run {s : State n κ} {c : κ} {p : Fin n} (h : s.cpus c = .run p) :
    s.heldProc c = (s.pcs p).heldProc p := by simp [State.heldProc, h]

theorem heldProc_of_leaving {p : Fin n} {pc : Pc n} (h : pc.Leaving) : pc.heldProc p = some p := by
  cases pc with
  | «at» k => cases h
  | inside sec => cases sec <;> first | rfl | cases h
  | yield stage k => cases stage <;> first | rfl | cases h

theorem held_of_parked {p : Fin n} {pc : Pc n} (h : pc.Parked) : pc.heldSem = none ∧ pc.heldProc p = some p := by
  cases pc with
  | «at» k => cases h
  | inside sec => cases sec <;> first | exact ⟨rfl, rfl⟩ | cases h
  | yield stage k => cases stage <;> first | exact ⟨rfl, rfl⟩ | cases h

/-- Only one thread holds the lock of a semaphore. -/
theorem Locked.sem_unique {s : State n κ} (h : Locked s) {p q : Fin n} {i : Nat} (hp : (s.pcs p).heldSem = some i)
    (hq : (s.pcs q).heldSem = some i) : p = q := by
  have hrun : ∀ r, (s.pcs r).heldSem = some i → ∃ c, s.cpus c = .run r := fun r hr =>
    h.on_cpu fun hparked => by
      rw [(held_of_parked (p := r) hparked).1] at hr
      cases hr
  obtain ⟨c, hc⟩ := hrun p hp
  obtain ⟨d, hd⟩ := hrun q hq
  rw [← heldSem_of_run hc] at hp
  rw [← heldSem_of_run hd] at hq
  obtain rfl := h.sem.unique hp hq
  rw [hc] at hd
  cases hd
  rfl

variable [DecidableEq κ]

/-! ### A step of one CPU -/

/-- What the other CPUs run is as before. -/
def Elsewhere (s t : State n κ) (c : κ) : Prop :=
  ∀ d, d ≠ c → t.cpus d = s.cpus d ∧ ∀ p, s.cpus d = .run p → t.pcs p = s.pcs p

theorem Elsewhere.heldSem {s t : State n κ} {c : κ} (h : Elsewhere s t c) {held : Option Nat}
    (hc : t.heldSem c = held) : t.heldSem = Function.update s.heldSem c held := by
  funext d
  by_cases hd : d = c
  · subst hd
    rw [Function.update_self, hc]
  · rw [Function.update_of_ne hd]
    obtain ⟨hcpu, hpcs⟩ := h d hd
    unfold State.heldSem
    rw [hcpu]
    split
    · next p hrun => rw [hpcs p hrun]
    · rfl

theorem Elsewhere.heldProc {s t : State n κ} {c : κ} (h : Elsewhere s t c) {held : Option (Fin n)}
    (hc : t.heldProc c = held) : t.heldProc = Function.update s.heldProc c held := by
  funext d
  by_cases hd : d = c
  · subst hd
    rw [Function.update_self, hc]
  · rw [Function.update_of_ne hd]
    obtain ⟨hcpu, hpcs⟩ := h d hd
    unfold State.heldProc
    rw [hcpu]
    split
    · rfl
    · rfl
    · next p hrun => rw [hpcs p hrun]
    · rfl

omit [DecidableEq κ] in
theorem Locked.elsewhere_setPc {s t : State n κ} {c : κ} {p : Fin n} (h : Locked s) (hc : s.cpus c = .run p)
    (hcpus : ∀ d, d ≠ c → t.cpus d = s.cpus d) (hpcs : ∀ q, q ≠ p → t.pcs q = s.pcs q) : Elsewhere s t c := by
  refine fun d hd => ⟨hcpus d hd, fun q hq => hpcs q ?_⟩
  rintro rfl
  exact hd (h.alone _ _ _ hq hc)

theorem applyEffect_cpus {s t : State n κ} {c : κ} {p : Fin n} {effect : Effect n}
    (h : applyEffect s c p effect = some t) :
    t.cpus = if effect = .swtch then Function.update s.cpus c (.unlock p) else s.cpus := by
  cases effect <;> simp only [applyEffect, Option.some.injEq, Option.ite_none_right_eq_some] at h <;>
    first
      | (subst h; rfl)
      | (obtain ⟨-, rfl⟩ := h; rfl)

section Thread
variable {s t : State n κ} {c : κ} {p : Fin n} {effect : Effect n} {pc : Pc n}

theorem thread_cpu (hc : s.cpus c = .run p) (ha : applyEffect s c p effect = some t) (hne : effect ≠ .swtch) :
    (t.setPc p pc).cpus c = .run p := by
  rw [State.setPc_cpus, applyEffect_cpus ha, if_neg hne]
  exact hc

theorem thread_cpu_swtch (ha : applyEffect s c p .swtch = some t) : (t.setPc p pc).cpus c = .unlock p := by
  rw [State.setPc_cpus, applyEffect_cpus ha, if_pos rfl, Function.update_self]

theorem thread_elsewhere (h : Locked s) (hc : s.cpus c = .run p) (ha : applyEffect s c p effect = some t) :
    Elsewhere s (t.setPc p pc) c := by
  refine h.elsewhere_setPc hc (fun d hd => ?_) fun q hq => ?_
  · rw [State.setPc_cpus, applyEffect_cpus ha]
    split
    · exact Function.update_of_ne hd _ _
    · rfl
  · rw [State.setPc_pcs, Function.update_of_ne hq, applyEffect_pcs ha]

theorem thread_heldSem (hc : s.cpus c = .run p) (hd : Disciplined p (s.pcs p) effect pc)
    (ha : applyEffect s c p effect = some t) : (t.setPc p pc).heldSem c = effect.heldSem (s.pcs p) := by
  by_cases hne : effect = .swtch
  · subst hne
    have hnone : Effect.heldSem (s.pcs p) .swtch = none := hd.needs.1
    rw [hnone, State.heldSem, thread_cpu_swtch ha]
  · rw [heldSem_of_run (thread_cpu hc ha hne), State.setPc_pcs, Function.update_self, hd.heldSem]

theorem thread_heldProc (hc : s.cpus c = .run p) (hd : Disciplined p (s.pcs p) effect pc)
    (ha : applyEffect s c p effect = some t) : (t.setPc p pc).heldProc c = effect.heldProc p (s.pcs p) := by
  by_cases hne : effect = .swtch
  · subst hne
    have hself : Effect.heldProc p (s.pcs p) .swtch = some p := hd.needs.2
    rw [hself, State.heldProc, thread_cpu_swtch ha]
  · rw [heldProc_of_run (thread_cpu hc ha hne), State.setPc_pcs, Function.update_self, hd.heldProc]

theorem thread_sem (h : Locked s) (hc : s.cpus c = .run p) (hd : Disciplined p (s.pcs p) effect pc)
    (ha : applyEffect s c p effect = some t) : Owned (t.setPc p pc).heldSem t.semLock := by
  rw [(thread_elsewhere h hc ha).heldSem (thread_heldSem hc hd ha)]
  have hkeep : Owned (Function.update s.heldSem c (s.pcs p).heldSem) s.semLock := by
    rw [← heldSem_of_run hc, Function.update_eq_self]
    exact h.sem
  cases effect with
  | acquireSem i =>
    obtain ⟨hfree, ht⟩ := Option.ite_none_right_eq_some.mp ha
    cases ht
    exact h.sem.acquire hfree
  | releaseSem i =>
    cases ha
    refine h.sem.release ?_
    rw [heldSem_of_run hc]
    exact hd.needs
  | acquireProc q =>
    obtain ⟨-, ht⟩ := Option.ite_none_right_eq_some.mp ha
    cases ht
    exact hkeep
  | _ =>
    cases ha
    exact hkeep

omit [DecidableEq κ] in
theorem procLock_setProc (s : State n κ) (q : Fin n) (f : Proc κ → Proc κ) :
    (s.setProc q f).procLock = Function.update s.procLock q (f (s.procs q)).lock := by
  funext r
  by_cases hr : r = q
  · subst hr
    simp [State.procLock]
  · simp [State.procLock, hr]

theorem thread_proc (h : Locked s) (hc : s.cpus c = .run p) (hd : Disciplined p (s.pcs p) effect pc)
    (ha : applyEffect s c p effect = some t) : Owned (t.setPc p pc).heldProc t.procLock := by
  rw [(thread_elsewhere h hc ha).heldProc (thread_heldProc hc hd ha)]
  have hkeep : Owned (Function.update s.heldProc c ((s.pcs p).heldProc p)) s.procLock := by
    rw [← heldProc_of_run hc, Function.update_eq_self]
    exact h.proc
  cases effect with
  | acquireProc q =>
    obtain ⟨hfree, ht⟩ := Option.ite_none_right_eq_some.mp ha
    cases ht
    rw [procLock_setProc]
    exact h.proc.acquire hfree
  | releaseProc q =>
    cases ha
    rw [procLock_setProc]
    refine h.proc.release ?_
    rw [heldProc_of_run hc]
    exact hd.needs
  | acquireSem i =>
    obtain ⟨-, ht⟩ := Option.ite_none_right_eq_some.mp ha
    cases ht
    exact hkeep
  | setChan chan | setState st | kill q =>
    cases ha
    rw [procLock_setProc, show ∀ x, Function.update s.procLock x (s.procs x).lock = s.procLock from
      fun x => Function.update_eq_self x _]
    exact hkeep
  | wake q i =>
    cases ha
    rw [procLock_setProc]
    have hlock : ∀ x : Proc κ, (if x.state = .sleeping ∧ x.chan = some i then { x with state := .runnable } else x).lock =
        x.lock := fun x => by split <;> rfl
    rw [hlock, show Function.update s.procLock q (s.procs q).lock = s.procLock from Function.update_eq_self q _]
    exact hkeep
  | _ =>
    cases ha
    exact hkeep

/-- How an instruction changes `p->state`: `wakeup` and `kill` only make sleepers runnable. -/
theorem applyEffect_state (ha : applyEffect s c p effect = some t) (q : Fin n) :
    (q = p ∧ effect = .setState (t.procs q).state) ∨ (t.procs q).state = (s.procs q).state ∨
    (s.procs q).state = .sleeping ∧ (t.procs q).state = .runnable := by
  cases effect with
  | acquireSem i =>
    obtain ⟨-, ht⟩ := Option.ite_none_right_eq_some.mp ha
    cases ht
    exact Or.inr (Or.inl rfl)
  | acquireProc r =>
    obtain ⟨-, ht⟩ := Option.ite_none_right_eq_some.mp ha
    cases ht
    by_cases hq : q = r
    · subst hq
      simp
    · simp [hq]
  | setState st =>
    cases ha
    by_cases hq : q = p
    · subst hq
      simp
    · simp [hq]
  | wake r i =>
    cases ha
    by_cases hq : q = r
    · subst hq
      simp only [State.setProc_procs, Function.update_self]
      split
      · next hsleep => exact Or.inr (Or.inr ⟨hsleep.1, rfl⟩)
      · exact Or.inr (Or.inl rfl)
    · simp [hq]
  | kill r =>
    cases ha
    by_cases hq : q = r
    · subst hq
      simp only [State.setProc_procs, Function.update_self]
      split
      · next hsleep => exact Or.inr (Or.inr ⟨hsleep, rfl⟩)
      · exact Or.inr (Or.inl rfl)
    · simp [hq]
  | releaseProc r =>
    cases ha
    by_cases hq : q = r
    · subst hq
      simp
    · simp [hq]
  | setChan chan =>
    cases ha
    by_cases hq : q = p
    · subst hq
      simp
    · simp [hq]
  | _ =>
    cases ha
    exact Or.inr (Or.inl rfl)

theorem applyEffect_chan (ha : applyEffect s c p effect = some t) (q : Fin n) :
    (q = p ∧ effect = .setChan (t.procs q).chan) ∨ (t.procs q).chan = (s.procs q).chan := by
  have hset : ∀ r f, (∀ x : Proc κ, (f x).chan = x.chan) → ((s.setProc r f).procs q).chan = (s.procs q).chan := by
    intro r f hf
    by_cases hq : q = r
    · subst hq
      simp [hf]
    · simp [hq]
  cases effect with
  | acquireSem i =>
    obtain ⟨-, ht⟩ := Option.ite_none_right_eq_some.mp ha
    cases ht
    exact Or.inr rfl
  | acquireProc r =>
    obtain ⟨-, ht⟩ := Option.ite_none_right_eq_some.mp ha
    cases ht
    exact Or.inr (hset _ _ fun _ => rfl)
  | setChan chan =>
    cases ha
    by_cases hq : q = p
    · subst hq
      simp
    · simp [hq]
  | setState st | releaseProc r | kill r =>
    cases ha
    exact Or.inr (hset _ _ fun _ => rfl)
  | wake r i =>
    cases ha
    exact Or.inr (hset _ _ fun _ => by split <;> rfl)
  | _ =>
    cases ha
    exact Or.inr rfl

theorem thread_run (ha : applyEffect s c p effect = some t) {d : κ} {q : Fin n}
    (hd : (t.setPc p pc).cpus d = .run q) : s.cpus d = .run q ∧ (d = c → effect ≠ .swtch) := by
  rw [State.setPc_cpus, applyEffect_cpus ha] at hd
  split at hd
  · by_cases hdc : d = c
    · subst hdc
      rw [Function.update_self] at hd
      cases hd
    · rw [Function.update_of_ne hdc] at hd
      exact ⟨hd, fun heq => absurd heq hdc⟩
  · next hne => exact ⟨hd, fun _ => hne⟩

theorem thread_pcs (ha : applyEffect s c p effect = some t) {q : Fin n} (hq : q ≠ p) :
    (t.setPc p pc).pcs q = s.pcs q := by
  rw [State.setPc_pcs, Function.update_of_ne hq, applyEffect_pcs ha]

omit [DecidableEq κ] in
theorem thread_pcs_self : (t.setPc p pc).pcs p = pc := by rw [State.setPc_pcs, Function.update_self]

theorem thread_running (h : Locked s) (hc : s.cpus c = .run p) (hd : Disciplined p (s.pcs p) effect pc)
    (ha : applyEffect s c p effect = some t) {d : κ} {q : Fin n} (hq : (t.setPc p pc).cpus d = .run q) :
    (t.procs q).state = .running ∨ ((t.setPc p pc).pcs q).Leaving := by
  obtain ⟨hrun, hne⟩ := thread_run ha hq
  by_cases hqp : q = p
  · subst hqp
    obtain rfl := h.alone _ _ _ hrun hc
    rw [thread_pcs_self]
    rcases applyEffect_state ha q with ⟨-, hst⟩ | hst | ⟨hsleep, -⟩
    · exact Or.inr (hd.state _ hst).1
    · rcases h.running _ _ hrun with hrunning | hleaving
      · exact Or.inl (hst.trans hrunning)
      · exact absurd (hd.leaving.mp hleaving) (hne rfl)
    · rcases h.running _ _ hrun with hrunning | hleaving
      · rw [hsleep] at hrunning
        cases hrunning
      · exact absurd (hd.leaving.mp hleaving) (hne rfl)
  · rw [thread_pcs ha hqp]
    rcases h.running _ _ hrun with hrunning | hleaving
    · rcases applyEffect_state ha q with ⟨heq, -⟩ | hst | ⟨hsleep, -⟩
      · exact absurd heq hqp
      · exact Or.inl (hst.trans hrunning)
      · rw [hsleep] at hrunning
        cases hrunning
    · exact Or.inr hleaving

theorem thread_parked (h : Locked s) (hc : s.cpus c = .run p) (hd : Disciplined p (s.pcs p) effect pc)
    (ha : applyEffect s c p effect = some t) {q : Fin n} (hq : ∀ d, (t.setPc p pc).cpus d ≠ .run q) :
    ((t.setPc p pc).pcs q).Parked := by
  by_cases hqp : q = p
  · subst hqp
    rw [thread_pcs_self, hd.parked]
    by_contra hne
    exact hq c (thread_cpu hc ha hne)
  · rw [thread_pcs ha hqp]
    refine h.parked q fun d hrun => hq d ?_
    have hdc : d ≠ c := by
      rintro rfl
      rw [hrun] at hc
      cases hc
      exact hqp rfl
    rw [(thread_elsewhere h hc ha d hdc).1]
    exact hrun

theorem thread_sleeping {event : Event n} (h : Locked s) (hc : s.cpus c = .run p)
    (hi : threadStep s p (s.pcs p) = some (effect, pc, event)) (ha : applyEffect s c p effect = some t) {q : Fin n}
    (hq : (t.procs q).state = .sleeping) :
    ∃ i, (t.setPc p pc).pcs q = .inside (.sleepSched i) ∨ (t.setPc p pc).pcs q = .inside (.sleepTidy i) := by
  have hd := threadStep_disciplined hi
  have hbefore : (q = p ∧ effect = .setState .sleeping) ∨ (s.procs q).state = .sleeping := by
    rcases applyEffect_state ha q with ⟨hqp, hst⟩ | hst | ⟨hsleep, -⟩
    · exact Or.inl ⟨hqp, by rw [hst, hq]⟩
    · exact Or.inr (hst ▸ hq)
    · exact Or.inr hsleep
  rcases hbefore with ⟨rfl, heff⟩ | hsleep
  · obtain ⟨i, hi⟩ := (hd.state _ heff).2 rfl
    exact ⟨i, Or.inl (by rw [thread_pcs_self, hi])⟩
  · obtain ⟨i, hpc⟩ := h.sleeping q hsleep
    by_cases hqp : q = p
    · subst hqp
      rcases h.running _ _ hc with hrunning | hleaving
      · rw [hsleep] at hrunning
        cases hrunning
      · rcases hpc with hpc | hpc
        · rw [hpc] at hi
          cases hi
          exact ⟨i, Or.inr thread_pcs_self⟩
        · rw [hpc] at hleaving
          cases hleaving
    · rw [thread_pcs ha hqp]
      exact ⟨i, hpc⟩

theorem thread_chan {event : Event n} (h : Locked s)
    (hi : threadStep s p (s.pcs p) = some (effect, pc, event)) (ha : applyEffect s c p effect = some t) {q : Fin n}
    {i : Nat} (hq : (t.setPc p pc).pcs q = .inside (.sleepState i) ∨ (t.setPc p pc).pcs q = .inside (.sleepSched i) ∨
      (t.setPc p pc).pcs q = .inside (.sleepTidy i)) : (t.procs q).chan = some i := by
  by_cases hqp : q = p
  · subst hqp
    rw [thread_pcs_self] at hq
    have hkept : (∀ chan, effect ≠ .setChan chan) → (t.procs q).chan = (s.procs q).chan := by
      intro hne
      rcases applyEffect_chan ha q with ⟨-, heff⟩ | hchan
      · exact absurd heff (hne _)
      · exact hchan
    rcases hq with rfl | rfl | rfl
    · obtain ⟨-, rfl⟩ := threadStep_entered hi
      cases ha
      simp
    · obtain ⟨hpc, rfl⟩ := threadStep_entered hi
      rw [hkept (by simp)]
      exact h.chan q i (Or.inl hpc)
    · obtain ⟨hpc, rfl⟩ := threadStep_entered hi
      rw [hkept (by simp)]
      exact h.chan q i (Or.inr (Or.inl hpc))
  · rw [thread_pcs ha hqp] at hq
    rcases applyEffect_chan ha q with ⟨heq, -⟩ | hchan
    · exact absurd heq hqp
    · rw [hchan]
      exact h.chan q i hq

end Thread

theorem Locked.thread {s t : State n κ} {c : κ} {p : Fin n} {effect : Effect n} {pc : Pc n} {event : Event n}
    (h : Locked s) (hc : s.cpus c = .run p) (hi : threadStep s p (s.pcs p) = some (effect, pc, event))
    (ha : applyEffect s c p effect = some t) : Locked (t.setPc p pc) where
  sem := thread_sem h hc (threadStep_disciplined hi) ha
  proc := thread_proc h hc (threadStep_disciplined hi) ha
  alone _ _ _ hd he := h.alone _ _ _ (thread_run ha hd).1 (thread_run ha he).1
  running _ _ hq := thread_running h hc (threadStep_disciplined hi) ha hq
  parked _ hq := thread_parked h hc (threadStep_disciplined hi) ha hq
  sleeping _ hq := thread_sleeping h hc hi ha hq
  chan _ _ hq := thread_chan h hi ha hq

/-- The `p->lock` that a CPU holds in `scheduler`. -/
def Cpu.heldProc : Cpu n → Option (Fin n)
  | .check q => some q
  | .unlock q => some q
  | _ => none

omit [DecidableEq κ] in
theorem heldProc_of_idle {s : State n κ} {c : κ} (h : ∀ p, s.cpus c ≠ .run p) :
    s.heldProc c = (s.cpus c).heldProc := by
  unfold State.heldProc Cpu.heldProc
  split
  · next hcpu => rw [hcpu]
  · next hcpu => rw [hcpu]
  · next p hcpu => exact absurd hcpu (h p)
  · next hcpu => rw [hcpu]

/-- A step of `scheduler` that runs no process. -/
theorem Locked.idle {s u : State n κ} {c : κ} {cpu : Cpu n} (h : Locked s) (hc : ∀ p, s.cpus c ≠ .run p)
    (hcpu : ∀ p, cpu ≠ .run p) (hcpus : u.cpus = s.cpus) (hpcs : u.pcs = s.pcs) (hlock : u.semLock = s.semLock)
    (hproc : Owned (Function.update s.heldProc c cpu.heldProc) u.procLock)
    (hprocs : ∀ q, (u.procs q).state = (s.procs q).state ∧ (u.procs q).chan = (s.procs q).chan) :
    Locked (u.setCpu c cpu) := by
  have hself : (u.setCpu c cpu).cpus c = cpu := by rw [State.setCpu_cpus, Function.update_self]
  have hother : ∀ d, d ≠ c → (u.setCpu c cpu).cpus d = s.cpus d := fun d hd => by
    rw [State.setCpu_cpus, Function.update_of_ne hd, hcpus]
  have hrun : ∀ d p, (u.setCpu c cpu).cpus d = .run p ↔ s.cpus d = .run p := by
    intro d p
    by_cases hd : d = c
    · subst hd
      rw [hself]
      exact ⟨fun heq => absurd heq (hcpu p), fun heq => absurd heq (hc p)⟩
    · rw [hother d hd]
  have helse : Elsewhere s (u.setCpu c cpu) c := fun d hd => ⟨hother d hd, fun p _ => congrFun hpcs p⟩
  refine ⟨fun d i hd => ?_, ?_, fun c c' p => ?_, fun c p => ?_, fun p hp => ?_, fun p => ?_, fun p i => ?_⟩
  · rw [State.setCpu_semLock, hlock]
    refine h.sem d i ?_
    unfold State.heldSem at hd
    split at hd
    · next p hp =>
      rw [heldSem_of_run ((hrun d p).mp hp), ← hpcs]
      exact hd
    · cases hd
  · have hafter : (u.setCpu c cpu).heldProc c = cpu.heldProc := by
      rw [heldProc_of_idle (by simpa [hself] using hcpu), hself]
    rw [helse.heldProc hafter]
    exact hproc
  · rw [hrun, hrun]
    exact h.alone c c' p
  · rw [hrun, State.setCpu_procs, (hprocs p).1, State.setCpu_pcs, hpcs]
    exact h.running c p
  · rw [State.setCpu_pcs, hpcs]
    exact h.parked p fun d hd => hp d ((hrun d p).mpr hd)
  · rw [State.setCpu_procs, (hprocs p).1, State.setCpu_pcs, hpcs]
    exact h.sleeping p
  · rw [State.setCpu_procs, (hprocs p).2, State.setCpu_pcs, hpcs]
    exact h.chan p i

/-- A step that moves a thread from one place outside the locks to another. -/
theorem Locked.repoint {s : State n κ} {c : κ} {p : Fin n} {k : Point} {pc : Pc n} (h : Locked s)
    (hc : s.cpus c = .run p) (hk : s.pcs p = .at k)
    (hpc : (∃ k', pc = .at k') ∨ ∃ k', pc = .yield .acquire k') : Locked (s.setPc p pc) := by
  have helse : Elsewhere s (s.setPc p pc) c :=
    h.elsewhere_setPc hc (fun _ _ => rfl) fun q hq => by rw [State.setPc_pcs, Function.update_of_ne hq]
  have hheld : pc.heldSem = none ∧ pc.heldProc p = none := by rcases hpc with ⟨k', rfl⟩ | ⟨k', rfl⟩ <;> exact ⟨rfl, rfl⟩
  have hout : ∀ sec, pc ≠ .inside sec := by rcases hpc with ⟨k', rfl⟩ | ⟨k', rfl⟩ <;> simp
  have hother : ∀ q, q ≠ p → (s.setPc p pc).pcs q = s.pcs q := fun q hq => by
    rw [State.setPc_pcs, Function.update_of_ne hq]
  have hself : (s.setPc p pc).pcs p = pc := by rw [State.setPc_pcs, Function.update_self]
  refine ⟨?_, ?_, h.alone, fun d q hd => ?_, fun q hq => ?_, fun q hq => ?_, fun q i hq => ?_⟩
  · have hnone : s.heldSem c = none := by rw [heldSem_of_run hc, hk]; rfl
    have hafter : (s.setPc p pc).heldSem c = none := by rw [heldSem_of_run (s := s.setPc p pc) hc, hself, hheld.1]
    rw [helse.heldSem hafter, ← hnone, Function.update_eq_self]
    exact h.sem
  · have hnone : s.heldProc c = none := by rw [heldProc_of_run hc, hk]; rfl
    have hafter : (s.setPc p pc).heldProc c = none := by rw [heldProc_of_run (s := s.setPc p pc) hc, hself, hheld.2]
    rw [helse.heldProc hafter, ← hnone, Function.update_eq_self]
    exact h.proc
  · rcases h.running d q hd with hrunning | hleaving
    · exact Or.inl hrunning
    · have hqp : q ≠ p := by
        rintro rfl
        rw [hk] at hleaving
        cases hleaving
      rw [hother q hqp]
      exact Or.inr hleaving
  · have hqp : q ≠ p := by
      rintro rfl
      exact hq c hc
    rw [hother q hqp]
    exact h.parked q hq
  · obtain ⟨i, hi⟩ := h.sleeping q hq
    have hqp : q ≠ p := by
      rintro rfl
      rw [hk] at hi
      rcases hi with hi | hi <;> cases hi
    exact ⟨i, by rwa [hother q hqp]⟩
  · have hqp : q ≠ p := by
      rintro rfl
      rw [hself] at hq
      rcases hq with hq | hq | hq <;> exact hout _ hq
    rw [hother q hqp] at hq
    exact h.chan q i hq

omit [DecidableEq κ] in
/-- No CPU runs a process that `scheduler` finds runnable: it would be running, or hold its `p->lock`. -/
theorem Locked.runnable_off {s : State n κ} {c : κ} {q : Fin n} (h : Locked s) (hc : s.cpus c = .check q)
    (hq : (s.procs q).state = .runnable) (d : κ) : s.cpus d ≠ .run q := by
  have hlock : s.procLock q = some c := h.proc c q (by simp [State.heldProc, hc])
  intro hd
  rcases h.running d q hd with hrunning | hleaving
  · rw [hq] at hrunning
    cases hrunning
  · have hown := h.proc d q (by rw [heldProc_of_run hd]; exact heldProc_of_leaving hleaving)
    rw [hlock] at hown
    obtain rfl := Option.some.inj hown
    rw [hc] at hd
    cases hd

/-- `scheduler` switches to a runnable process. -/
theorem Locked.dispatch {s : State n κ} {c : κ} {q : Fin n} (h : Locked s) (hc : s.cpus c = .check q)
    (hq : (s.procs q).state = .runnable) :
    Locked ((s.setProc q fun x => { x with state := .running }).setCpu c (.run q)) := by
  have hoff := h.runnable_off hc hq
  have hparked := held_of_parked (p := q) (h.parked q hoff)
  set t := (s.setProc q fun x => { x with state := .running }).setCpu c (.run q) with ht
  have hcpu : t.cpus c = .run q := by rw [ht, State.setCpu_cpus, Function.update_self]
  have hcpus : ∀ d, d ≠ c → t.cpus d = s.cpus d := fun d hd => by
    rw [ht, State.setCpu_cpus, Function.update_of_ne hd, State.setProc_cpus]
  have helse : Elsewhere s t c := fun d hd => ⟨hcpus d hd, fun _ _ => rfl⟩
  have hrun : ∀ d p, t.cpus d = .run p → d = c ∧ p = q ∨ d ≠ c ∧ s.cpus d = .run p := by
    intro d p hd
    by_cases hdc : d = c
    · subst hdc
      rw [hcpu] at hd
      cases hd
      exact Or.inl ⟨rfl, rfl⟩
    · exact Or.inr ⟨hdc, hcpus d hdc ▸ hd⟩
  have hstate : ∀ p, (t.procs p).state = if p = q then .running else (s.procs p).state := by
    intro p
    by_cases hp : p = q
    · subst hp
      simp [ht]
    · simp [ht, hp]
  have hchan : ∀ p, (t.procs p).chan = (s.procs p).chan := by
    intro p
    by_cases hp : p = q
    · subst hp
      simp [ht]
    · simp [ht, hp]
  refine ⟨?_, ?_, fun d d' p hd hd' => ?_, fun d p hd => ?_, fun p hp => ?_, fun p hp => ?_, fun p i hp => ?_⟩
  · have hnone : s.heldSem c = none := by simp [State.heldSem, hc]
    have hafter : t.heldSem c = none := by
      rw [heldSem_of_run hcpu]
      exact hparked.1
    rw [helse.heldSem hafter, ← hnone, Function.update_eq_self]
    exact h.sem
  · have hsome : s.heldProc c = some q := by simp [State.heldProc, hc]
    have hafter : t.heldProc c = some q := by
      rw [heldProc_of_run hcpu]
      exact hparked.2
    rw [helse.heldProc hafter, ← hsome, Function.update_eq_self, ht]
    have hsame : (s.setProc q fun x => { x with state := .running }).procLock = s.procLock := by
      rw [procLock_setProc]
      exact Function.update_eq_self q _
    exact hsame ▸ h.proc
  · rcases hrun d p hd with ⟨hdc, hpq⟩ | ⟨-, hbefore⟩ <;> rcases hrun d' p hd' with ⟨hdc', hpq'⟩ | ⟨-, hbefore'⟩
    · exact hdc.trans hdc'.symm
    · exact absurd (hpq ▸ hbefore') (hoff d')
    · exact absurd (hpq' ▸ hbefore) (hoff d)
    · exact h.alone _ _ _ hbefore hbefore'
  · rw [hstate]
    rcases hrun d p hd with ⟨-, hpq⟩ | ⟨-, hbefore⟩
    · exact Or.inl (if_pos hpq)
    · have hne : p ≠ q := fun hpq => hoff d (hpq ▸ hbefore)
      rw [if_neg hne]
      exact h.running d p hbefore
  · refine h.parked p fun d hd => ?_
    by_cases hdc : d = c
    · rw [hdc, hc] at hd
      cases hd
    · exact hp d (by rw [hcpus d hdc, hd])
  · rw [hstate] at hp
    split at hp
    · cases hp
    · exact h.sleeping p hp
  · rw [hchan]
    exact h.chan p i hp

omit [DecidableEq κ] in
theorem setProc_state_chan (s : State n κ) (q : Fin n) (f : Proc κ → Proc κ)
    (hf : ∀ x, (f x).state = x.state ∧ (f x).chan = x.chan) (r : Fin n) :
    ((s.setProc q f).procs r).state = (s.procs r).state ∧ ((s.setProc q f).procs r).chan = (s.procs r).chan := by
  by_cases hr : r = q
  · subst hr
    simp [hf]
  · simp [hr]

theorem locked_step {s t : State n κ} {l : Action κ × Event n} (h : Locked s) (hstep : Step s l t) : Locked t := by
  have hkeep : ∀ {c}, (∀ p, s.cpus c ≠ .run p) →
      Owned (Function.update s.heldProc c (s.cpus c).heldProc) s.procLock := by
    intro c hc
    rw [← heldProc_of_idle hc, Function.update_eq_self]
    exact h.proc
  cases step_inv hstep with
  | @scan c q cpu free =>
    refine h.idle (by simp [cpu]) (by simp) rfl rfl rfl ?_ (setProc_state_chan s q _ ?_)
    · rw [procLock_setProc]
      exact h.proc.acquire free
    · exact fun _ => ⟨rfl, rfl⟩
  | @rescan c j cpu =>
    have hidle : ∀ p, s.cpus c ≠ .run p := by simp [cpu]
    refine h.idle hidle (by simp) rfl rfl rfl ?_ fun _ => ⟨rfl, rfl⟩
    have hproc := hkeep hidle
    rw [cpu] at hproc
    exact hproc
  | dispatch cpu runnable => exact h.dispatch cpu runnable
  | @pass c q cpu not_runnable =>
    have hidle : ∀ p, s.cpus c ≠ .run p := by simp [cpu]
    refine h.idle hidle (by simp) rfl rfl rfl ?_ fun _ => ⟨rfl, rfl⟩
    have hproc := hkeep hidle
    rw [cpu] at hproc
    exact hproc
  | @unlock c q cpu =>
    have hidle : ∀ p, s.cpus c ≠ .run p := by simp [cpu]
    refine h.idle hidle (by simp) rfl rfl rfl ?_ (setProc_state_chan s q _ ?_)
    · rw [procLock_setProc]
      refine h.proc.release ?_
      rw [heldProc_of_idle hidle, cpu]
      rfl
    · exact fun _ => ⟨rfl, rfl⟩
  | thread cpu instr applied => exact h.thread cpu instr applied
  | call cpu user => exact h.repoint cpu user (Or.inl ⟨_, rfl⟩)
  | preempt cpu point => exact h.repoint cpu point (Or.inr ⟨_, rfl⟩)

theorem locked_run {s t : State n κ} {ls : List (Action κ × Event n)} (hboot : Boot s) (h : Run Step s ls t) :
    Locked t :=
  h.invariant (fun _ _ _ => locked_step) (.boot hboot)

end LabSO.Kernel

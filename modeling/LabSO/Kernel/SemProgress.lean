import LabSO.Kernel.SemClosing

/-! The locks of the semaphore calls cannot deadlock. A thread that holds a `p->lock` acquires no other lock before
    it releases it, and one that holds the lock of a semaphore acquires only a `p->lock`: so a process on a CPU that
    stands inside the kernel can always be brought to take its next step, by steps of the other CPUs. -/

namespace LabSO.Kernel
open Transition Locks

variable {n : Nat} {κ : Type}

/-! ### Every lock that is taken has a holder -/

/-- The locks are taken by the CPUs that hold them. -/
structure Held (s : State n κ) : Prop where
  sem : Backed s.heldSem s.semLock
  proc : Backed s.heldProc s.procLock

theorem Held.boot {s : State n κ} (h : Boot s) : Held s where
  sem c i hi := by
    rw [h.semLock] at hi
    cases hi
  proc c q hq := by
    have hfree : s.procLock q = none := h.procLock q
    rw [hfree] at hq
    cases hq

/-- What a thread does not hold when it acquires. -/
theorem acquires_without {s : State n κ} {p : Fin n} {pc pc' : Pc n} {effect : Effect n} {event : Event n}
    (h : threadStep s p pc = some (effect, pc', event)) :
    (∀ i, effect = .acquireSem i → pc.heldSem = none ∧ pc.heldProc p = none) ∧
    ∀ q, effect = .acquireProc q → pc.heldProc p = none := by
  cases threadStep_instr h <;> exact ⟨by simp [Pc.heldSem, Pc.heldProc], by simp [Pc.heldProc, Section.heldProc]⟩

variable [DecidableEq κ]

section Thread
variable {s t : State n κ} {c : κ} {p : Fin n} {effect : Effect n} {pc : Pc n} {event : Event n}

theorem thread_backed_sem (hl : Locked s) (h : Held s) (hc : s.cpus c = .run p)
    (hi : threadStep s p (s.pcs p) = some (effect, pc, event)) (ha : applyEffect s c p effect = some t) :
    Backed (t.setPc p pc).heldSem t.semLock := by
  have hd := threadStep_disciplined hi
  rw [(thread_elsewhere hl hc ha).heldSem (thread_heldSem hc hd ha)]
  have hkeep : Backed (Function.update s.heldSem c (s.pcs p).heldSem) s.semLock := by
    rw [← heldSem_of_run hc, Function.update_eq_self]
    exact h.sem
  cases effect with
  | acquireSem i =>
    obtain ⟨-, ht⟩ := Option.ite_none_right_eq_some.mp ha
    cases ht
    refine h.sem.acquire ?_
    rw [heldSem_of_run hc]
    exact ((acquires_without hi).1 i rfl).1
  | releaseSem i =>
    cases ha
    refine h.sem.release ?_
    rw [heldSem_of_run hc]
    exact hd.needs
  | acquireProc q =>
    obtain ⟨-, ht⟩ := Option.ite_none_right_eq_some.mp ha
    cases ht
    exact hkeep
  | _ =>
    cases ha
    exact hkeep

/-- An instruction that neither acquires nor releases a `p->lock` leaves them. -/
theorem applyEffect_procLock (ha : applyEffect s c p effect = some t) :
    (∃ q, effect = .acquireProc q ∧ t.procLock = Function.update s.procLock q (some c)) ∨
    (∃ q, effect = .releaseProc q ∧ t.procLock = Function.update s.procLock q none) ∨
    ((∀ q, effect ≠ .acquireProc q) ∧ (∀ q, effect ≠ .releaseProc q) ∧ t.procLock = s.procLock) := by
  have hset : ∀ r f, (∀ x : Proc κ, (f x).lock = x.lock) → (s.setProc r f).procLock = s.procLock := by
    intro r f hf
    rw [procLock_setProc, hf]
    exact Function.update_eq_self r s.procLock
  cases effect with
  | acquireProc q =>
    obtain ⟨-, ht⟩ := Option.ite_none_right_eq_some.mp ha
    cases ht
    exact Or.inl ⟨q, rfl, procLock_setProc ..⟩
  | releaseProc q =>
    cases ha
    exact Or.inr (Or.inl ⟨q, rfl, procLock_setProc ..⟩)
  | acquireSem i =>
    obtain ⟨-, ht⟩ := Option.ite_none_right_eq_some.mp ha
    cases ht
    exact Or.inr (Or.inr ⟨nofun, nofun, rfl⟩)
  | setChan chan | setState st | kill q =>
    cases ha
    exact Or.inr (Or.inr ⟨nofun, nofun, hset _ _ fun _ => rfl⟩)
  | wake q i =>
    cases ha
    exact Or.inr (Or.inr ⟨nofun, nofun, hset _ _ fun _ => by split <;> rfl⟩)
  | _ =>
    cases ha
    exact Or.inr (Or.inr ⟨nofun, nofun, rfl⟩)

theorem thread_backed_proc (hl : Locked s) (h : Held s) (hc : s.cpus c = .run p)
    (hi : threadStep s p (s.pcs p) = some (effect, pc, event)) (ha : applyEffect s c p effect = some t) :
    Backed (t.setPc p pc).heldProc t.procLock := by
  have hd := threadStep_disciplined hi
  rw [(thread_elsewhere hl hc ha).heldProc (thread_heldProc hc hd ha)]
  rcases applyEffect_procLock ha with ⟨q, rfl, hlock⟩ | ⟨q, rfl, hlock⟩ | ⟨hacq, hrel, hlock⟩
  · rw [hlock]
    refine h.proc.acquire ?_
    rw [heldProc_of_run hc]
    exact (acquires_without hi).2 q rfl
  · rw [hlock]
    refine h.proc.release ?_
    rw [heldProc_of_run hc]
    exact hd.needs
  · have hsame : effect.heldProc p (s.pcs p) = (s.pcs p).heldProc p := by
      cases effect with
      | acquireProc q => exact absurd rfl (hacq q)
      | releaseProc q => exact absurd rfl (hrel q)
      | _ => rfl
    rw [hlock, hsame, ← heldProc_of_run hc, Function.update_eq_self]
    exact h.proc

end Thread

/-- A step of `scheduler` that runs no process. -/
theorem Held.idle {s u : State n κ} {c : κ} {cpu : Cpu n} (h : Held s) (hc : ∀ p, s.cpus c ≠ .run p)
    (hcpu : ∀ p, cpu ≠ .run p) (hcpus : u.cpus = s.cpus) (hpcs : u.pcs = s.pcs) (hlock : u.semLock = s.semLock)
    (hproc : Backed (Function.update s.heldProc c cpu.heldProc) u.procLock) : Held (u.setCpu c cpu) := by
  have hself : (u.setCpu c cpu).cpus c = cpu := by rw [State.setCpu_cpus, Function.update_self]
  have helse : Elsewhere s (u.setCpu c cpu) c := fun d hd =>
    ⟨by rw [State.setCpu_cpus, Function.update_of_ne hd, hcpus], fun p _ => congrFun hpcs p⟩
  constructor
  · have hbefore : s.heldSem c = none := by
      unfold State.heldSem
      split
      · next p hp => exact absurd hp (hc p)
      · rfl
    have hafter : (u.setCpu c cpu).heldSem c = none := by
      unfold State.heldSem
      rw [hself]
      split
      · next p => exact absurd rfl (hcpu p)
      · rfl
    rw [helse.heldSem hafter, ← hbefore, Function.update_eq_self, State.setCpu_semLock, hlock]
    exact h.sem
  · have hafter : (u.setCpu c cpu).heldProc c = cpu.heldProc := by
      rw [heldProc_of_idle (by simpa [hself] using hcpu), hself]
    rw [helse.heldProc hafter]
    exact hproc

theorem Held.dispatch {s : State n κ} {c : κ} {q : Fin n} (hl : Locked s) (h : Held s) (hc : s.cpus c = .check q)
    (hq : (s.procs q).state = .runnable) :
    Held ((s.setProc q fun x => { x with state := .running }).setCpu c (.run q)) := by
  have hparked := held_of_parked (p := q) (hl.parked q (hl.runnable_off hc hq))
  set t := (s.setProc q fun x => { x with state := .running }).setCpu c (.run q) with ht
  have hcpu : t.cpus c = .run q := by rw [ht, State.setCpu_cpus, Function.update_self]
  have helse : Elsewhere s t c := fun d hd =>
    ⟨by rw [ht, State.setCpu_cpus, Function.update_of_ne hd, State.setProc_cpus], fun _ _ => rfl⟩
  constructor
  · have hnone : s.heldSem c = none := by simp [State.heldSem, hc]
    have hafter : t.heldSem c = none := by
      rw [heldSem_of_run hcpu]
      exact hparked.1
    rw [helse.heldSem hafter, ← hnone, Function.update_eq_self]
    exact h.sem
  · have hsome : s.heldProc c = some q := by simp [State.heldProc, hc]
    have hafter : t.heldProc c = some q := by
      rw [heldProc_of_run hcpu]
      exact hparked.2
    have hsame : t.procLock = s.procLock := by
      have hset := procLock_setProc s q fun x => { x with state := .running }
      exact hset.trans (Function.update_eq_self q s.procLock)
    rw [helse.heldProc hafter, ← hsome, Function.update_eq_self, hsame]
    exact h.proc

theorem Held.repoint {s : State n κ} {c : κ} {p : Fin n} {k : Point} {pc : Pc n} (hl : Locked s) (h : Held s)
    (hc : s.cpus c = .run p) (hk : s.pcs p = .at k)
    (hpc : (∃ k', pc = .at k') ∨ ∃ k', pc = .yield .acquire k') : Held (s.setPc p pc) := by
  have helse : Elsewhere s (s.setPc p pc) c :=
    hl.elsewhere_setPc hc (fun _ _ => rfl) fun q hq => by rw [State.setPc_pcs, Function.update_of_ne hq]
  have hheld : pc.heldSem = none ∧ pc.heldProc p = none := by rcases hpc with ⟨k', rfl⟩ | ⟨k', rfl⟩ <;> exact ⟨rfl, rfl⟩
  have hself : (s.setPc p pc).pcs p = pc := by rw [State.setPc_pcs, Function.update_self]
  constructor
  · have hnone : s.heldSem c = none := by rw [heldSem_of_run hc, hk]; rfl
    have hafter : (s.setPc p pc).heldSem c = none := by rw [heldSem_of_run (s := s.setPc p pc) hc, hself, hheld.1]
    rw [helse.heldSem hafter, ← hnone, Function.update_eq_self]
    exact h.sem
  · have hnone : s.heldProc c = none := by rw [heldProc_of_run hc, hk]; rfl
    have hafter : (s.setPc p pc).heldProc c = none := by rw [heldProc_of_run (s := s.setPc p pc) hc, hself, hheld.2]
    rw [helse.heldProc hafter, ← hnone, Function.update_eq_self]
    exact h.proc

theorem held_step {s t : State n κ} {l : Action κ × Event n} (hl : Locked s) (h : Held s) (hstep : Step s l t) :
    Held t := by
  cases step_inv hstep with
  | @scan c q cpu free =>
    refine h.idle (by simp [cpu]) (by simp) rfl rfl rfl ?_
    rw [procLock_setProc]
    exact h.proc.acquire (by simp [State.heldProc, cpu])
  | @rescan c j cpu =>
    refine h.idle (by simp [cpu]) (by simp) rfl rfl rfl ?_
    have hnone : Cpu.heldProc (.scan 0 : Cpu n) = s.heldProc c := by simp [State.heldProc, cpu, Cpu.heldProc]
    rw [hnone, Function.update_eq_self]
    exact h.proc
  | dispatch cpu runnable => exact h.dispatch hl cpu runnable
  | @pass c q cpu not_runnable =>
    refine h.idle (by simp [cpu]) (by simp) rfl rfl rfl ?_
    have hsome : Cpu.heldProc (.unlock q) = s.heldProc c := by simp [State.heldProc, cpu, Cpu.heldProc]
    rw [hsome, Function.update_eq_self]
    exact h.proc
  | @unlock c q cpu =>
    refine h.idle (by simp [cpu]) (by simp) rfl rfl rfl ?_
    rw [procLock_setProc]
    exact h.proc.release (by simp [State.heldProc, cpu])
  | @thread c p effect pc event u cpu instr applied =>
    exact ⟨thread_backed_sem hl h cpu instr applied, thread_backed_proc hl h cpu instr applied⟩
  | call cpu user => exact h.repoint hl cpu user (Or.inl ⟨_, rfl⟩)
  | preempt cpu point => exact h.repoint hl cpu point (Or.inr ⟨_, rfl⟩)

theorem locked_held_run {s t : State n κ} {ls : List (Action κ × Event n)} (hl : Locked s) (hh : Held s)
    (hrun : Run Step s ls t) : Locked t ∧ Held t :=
  hrun.invariant (I := fun u => Locked u ∧ Held u)
    (fun _ _ _ h hstep => ⟨locked_step h.1 hstep, held_step h.1 h.2 hstep⟩) ⟨hl, hh⟩

theorem held_run {s t : State n κ} {ls : List (Action κ × Event n)} (hboot : Boot s) (hrun : Run Step s ls t) :
    Held t := (locked_held_run (.boot hboot) (.boot hboot) hrun).2

/-! ### What a thread does before it releases a lock -/

/-- The instruction may have to wait for a lock. -/
def Effect.Acquires : Effect n → Prop
  | .acquireSem _ | .acquireProc _ => True
  | _ => False

/-- The steps until the thread has released the `p->lock` that it holds. -/
def Pc.procDelay : Pc n → Nat
  | .inside (.sleepRelease _) => 5
  | .inside (.sleepChan _) => 4
  | .inside (.sleepState _) | .yield .state _ => 3
  | .inside (.sleepSched _) | .yield .sched _ => 2
  | .inside (.sleepTidy _) | .inside (.wakeupTest _ _) | .inside (.killBody _ _) => 2
  | .inside (.sleepUnlock _) | .inside (.wakeupRelease _ _) | .inside (.killRelease _ _ _) | .yield .release _ => 1
  | _ => 0

/-- The steps until the thread has released the lock of a semaphore that it holds; each slot takes `wakeup` three. -/
def Pc.semDelay : Pc n → Nat
  | .inside (.upBody _) => 3 * n + 3
  | .inside (.wakeup _ j) => 3 * (n - j) + 2
  | .inside (.wakeupTest _ q) => 3 * (n - q) + 1
  | .inside (.wakeupRelease _ q) => 3 * (n - q)
  | .inside (.downBody _) | .inside (.downLoop _) => 3
  | .inside (.openBody _ _ _) | .inside (.closeBody _) | .inside (.sleepAcquire _) => 2
  | .inside _ => 1
  | _ => 0

section
omit [DecidableEq κ]

theorem threadStep_some {s : State n κ} {p : Fin n} {pc : Pc n} (h : pc ≠ .at .user) :
    ∃ effect pc' event, threadStep s p pc = some (effect, pc', event) := by
  cases pc with
  | «at» k =>
    cases k with
    | user => exact absurd rfl h
    | killAcquire pid j =>
      rw [threadStep]
      split <;> exact ⟨_, _, _, rfl⟩
    | _ => exact ⟨_, _, _, rfl⟩
  | inside sec => exact ⟨_, _, _, rfl⟩
  | yield stage k => cases stage <;> exact ⟨_, _, _, rfl⟩

/-- What a thread acquires next does not depend on the shared state. -/
theorem threadStep_acquires {s : State n κ} {p : Fin n} {pc pc' : Pc n} {effect : Effect n} {event : Event n}
    (h : threadStep s p pc = some (effect, pc', event)) (ha : effect.Acquires) (t : State n κ) :
    threadStep t p pc = some (effect, pc', event) := by
  cases threadStep_instr h <;> first | exact h | cases ha

theorem instr_procDelay {s : State n κ} {p r : Fin n} {pc pc' : Pc n} {effect : Effect n} {event : Event n}
    (h : threadStep s p pc = some (effect, pc', event)) (hr : pc.heldProc p = some r) :
    ¬effect.Acquires ∧ (effect = .releaseProc r ∨ effect = .swtch ∧ r = p ∧ 1 < pc.procDelay ∨
      effect ≠ .swtch ∧ pc'.heldProc p = some r ∧ pc'.procDelay < pc.procDelay) := by
  cases threadStep_instr h with
  | sleepSched | yieldSched =>
    cases hr
    exact ⟨not_false, Or.inr (Or.inl ⟨rfl, rfl, Nat.one_lt_two⟩)⟩
  | wakeupRelease | sleepUnlock | killRelease | yieldRelease =>
    cases hr
    exact ⟨not_false, Or.inl rfl⟩
  | wakeupTest | kill | killOther | sleepRelease | sleepChan | sleepState | sleepTidy | yieldState =>
    exact ⟨not_false, Or.inr (Or.inr ⟨nofun, hr, by simp [Pc.procDelay]⟩)⟩
  | _ => cases hr

theorem instr_semDelay {s : State n κ} {p : Fin n} {pc pc' : Pc n} {effect : Effect n} {event : Event n} {i : Nat}
    (h : threadStep s p pc = some (effect, pc', event)) (hi : pc.heldSem = some i) :
    (∀ j, effect ≠ .acquireSem j) ∧
    (effect = .releaseSem i ∨ effect ≠ .swtch ∧ pc'.heldSem = some i ∧ pc'.semDelay < pc.semDelay) := by
  cases threadStep_instr h with
  | openRelease | closeRelease | upRelease | downRelease | sleepRelease =>
    cases hi
    exact ⟨nofun, Or.inl rfl⟩
  | opened | openFails | closed | closeFails | downFails | downSleeps | down | resumedSleeps | resumed | sleepAcquire =>
    exact ⟨nofun, Or.inr ⟨nofun, hi, by simp [Pc.semDelay]⟩⟩
  | up | upFails | wakeupEnd => exact ⟨nofun, Or.inr ⟨nofun, hi, by simp [Pc.semDelay]⟩⟩
  | wakeupSelf self =>
    have hlt := p.isLt
    exact ⟨nofun, Or.inr ⟨nofun, hi, by simp only [Pc.semDelay]; omega⟩⟩
  | @wakeupAcquire j q | @wakeupTest j q | @wakeupRelease j q =>
    have hlt := q.isLt
    exact ⟨nofun, Or.inr ⟨nofun, hi, by simp only [Pc.semDelay]; omega⟩⟩
  | _ => cases hi

end

theorem applyEffect_some {s : State n κ} {c : κ} {p : Fin n} {effect : Effect n} (h : ¬effect.Acquires) :
    ∃ t, applyEffect s c p effect = some t := by
  cases effect with
  | acquireSem i | acquireProc q => exact absurd trivial h
  | _ => exact ⟨_, rfl⟩

/-! ### The lock that a process waits for is released -/

/-- What a CPU runs is as before. -/
def Undisturbed (s t : State n κ) (d : κ) : Prop :=
  t.cpus d = s.cpus d ∧ ∀ p, s.cpus d = .run p → t.pcs p = s.pcs p

section
omit [DecidableEq κ]
variable {s t u : State n κ} {c d : κ}

theorem Undisturbed.refl : Undisturbed s s d := ⟨rfl, fun _ _ => rfl⟩

theorem Undisturbed.trans (h : Undisturbed s t d) (h' : Undisturbed t u d) : Undisturbed s u d :=
  ⟨h'.1.trans h.1, fun p hp => (h'.2 p (h.1.trans hp)).trans (h.2 p hp)⟩

theorem Undisturbed.heldSem (h : Undisturbed s t d) : t.heldSem d = s.heldSem d := by
  unfold State.heldSem
  rw [h.1]
  split
  · next p hp => rw [h.2 p hp]
  · rfl

theorem Undisturbed.heldProc (h : Undisturbed s t d) : t.heldProc d = s.heldProc d := by
  unfold State.heldProc
  rw [h.1]
  split
  · rfl
  · rfl
  · next p hp => rw [h.2 p hp]
  · rfl

end

/-- The steps until a CPU has released the `p->lock` that it holds. -/
def State.procDelay (s : State n κ) (c : κ) : Nat :=
  match s.cpus c with
  | .scan _ => 0
  | .check _ => 3
  | .unlock _ => 1
  | .run p => (s.pcs p).procDelay

omit [DecidableEq κ] in
theorem procDelay_of_parked {pc : Pc n} (h : pc.Parked) : pc.procDelay < 3 := by
  cases pc with
  | «at» k => cases h
  | inside sec => cases sec <;> first | exact False.elim h | simp [Pc.procDelay]
  | yield stage k => cases stage <;> first | exact False.elim h | simp [Pc.procDelay]

/-- A CPU that holds a `p->lock` goes on, and releases it or comes closer to that. -/
theorem procLock_step {s : State n κ} {c : κ} {r : Fin n} (hl : Locked s) (hr : s.heldProc c = some r) :
    ∃ l t, Step s l t ∧ Elsewhere s t c ∧
      (t.procLock r = none ∨ t.heldProc c = some r ∧ t.procDelay c < s.procDelay c) := by
  cases hc : s.cpus c with
  | scan j => simp [State.heldProc, hc] at hr
  | check q =>
    obtain rfl : q = r := by simpa [State.heldProc, hc] using hr
    have helse : ∀ (u : State n κ) cpu, u.cpus = s.cpus → u.pcs = s.pcs → Elsewhere s (u.setCpu c cpu) c :=
      fun u cpu hcpus hpcs d hd =>
        ⟨by rw [State.setCpu_cpus, Function.update_of_ne hd, hcpus], fun p _ => congrFun hpcs p⟩
    by_cases hrun : (s.procs q).state = .runnable
    · have hparked := hl.parked q (hl.runnable_off hc hrun)
      have hstep : Step s (.cpu c, .silent) ((s.setProc q fun x => { x with state := .running }).setCpu c (.run q)) := by
        simp [ofStep, step, cpuStep, hc, hrun]
      refine ⟨_, _, hstep, helse _ _ rfl rfl, Or.inr ⟨?_, ?_⟩⟩
      · simpa [State.heldProc] using (held_of_parked (p := q) hparked).2
      · simpa [State.procDelay, hc] using procDelay_of_parked hparked
    · have hstep : Step s (.cpu c, .silent) (s.setCpu c (.unlock q)) := by simp [ofStep, step, cpuStep, hc, hrun]
      refine ⟨_, _, hstep, helse _ _ rfl rfl, Or.inr ⟨?_, ?_⟩⟩
      · simp [State.heldProc]
      · simp [State.procDelay, hc]
  | unlock q =>
    obtain rfl : q = r := by simpa [State.heldProc, hc] using hr
    have hstep : Step s (.cpu c, .silent)
        ((s.setProc q fun x => { x with lock := none }).setCpu c (.scan (q + 1))) := by simp [ofStep, step, cpuStep, hc]
    refine ⟨_, _, hstep, fun d hd => ⟨?_, fun p _ => rfl⟩, Or.inl ?_⟩
    · rw [State.setCpu_cpus, Function.update_of_ne hd, State.setProc_cpus]
    · simp [State.procLock]
  | run p =>
    rw [heldProc_of_run hc] at hr
    have hp : s.pcs p ≠ .at .user := by
      intro huser
      rw [huser] at hr
      cases hr
    obtain ⟨effect, pc, event, hi⟩ := threadStep_some (s := s) (p := p) hp
    obtain ⟨hready, hcases⟩ := instr_procDelay hi hr
    obtain ⟨u, hu⟩ := applyEffect_some (s := s) (c := c) (p := p) hready
    refine ⟨_, _, step_of_thread hc hi hu, thread_elsewhere hl hc hu, ?_⟩
    rcases hcases with rfl | ⟨rfl, rfl, hdelay⟩ | ⟨hne, hr', hdelay⟩
    · cases hu
      exact Or.inl (by simp [State.procLock])
    · cases hu
      exact Or.inr ⟨by simp [State.heldProc], by simpa [State.procDelay, hc] using hdelay⟩
    · have hcpu : (u.setPc p pc).cpus c = .run p := thread_cpu hc hu hne
      refine Or.inr ⟨?_, ?_⟩
      · rw [heldProc_of_run hcpu, thread_pcs_self]
        exact hr'
      · simpa only [State.procDelay, hcpu, hc, thread_pcs_self] using hdelay

/-- A `p->lock` becomes free, while the CPUs that do not hold it stand still. -/
theorem procLock_freed {s : State n κ} (hl : Locked s) (hh : Held s) (r : Fin n) :
    ∃ ls t, Run Step s ls t ∧ t.procLock r = none ∧ ∀ d, s.heldProc d ≠ some r → Undisturbed s t d := by
  cases hlock : s.procLock r with
  | none => exact ⟨[], s, .refl, hlock, fun _ _ => .refl⟩
  | some c =>
    have hr := hh.proc c r hlock
    clear hlock
    induction hdelay : s.procDelay c using Nat.strong_induction_on generalizing s with
    | _ m ih =>
      obtain ⟨l, t, hstep, helse, hcases⟩ := procLock_step hl hr
      have hothers : ∀ d, s.heldProc d ≠ some r → Undisturbed s t d := fun d hd =>
        helse d (by rintro rfl; exact hd hr)
      rcases hcases with hfree | ⟨hr', hlt⟩
      · exact ⟨[l], t, .single hstep, hfree, hothers⟩
      · obtain ⟨ls, u, hrun, hfree, hstill⟩ := ih _ (hdelay ▸ hlt) (locked_step hl hstep) (held_step hl hh hstep) hr' rfl
        refine ⟨l :: ls, u, (Run.single hstep).trans hrun, hfree, fun d hd => ?_⟩
        have hd' := hothers d hd
        exact hd'.trans (hstill d (by rwa [hd'.heldProc]))

/-- A thread that waits for no semaphore can take its next step, once the other CPUs have gone on. -/
theorem thread_goes {s : State n κ} {c : κ} {p : Fin n} {effect : Effect n} {pc : Pc n} {event : Event n}
    (hl : Locked s) (hh : Held s) (hc : s.cpus c = .run p)
    (hi : threadStep s p (s.pcs p) = some (effect, pc, event)) (hsem : ∀ i, effect ≠ .acquireSem i) :
    ∃ ls t u, Run Step s ls t ∧ threadStep t p (t.pcs p) = some (effect, pc, event) ∧
      applyEffect t c p effect = some u ∧ Step t (.cpu c, event) (u.setPc p pc) ∧
      ∀ d, d = c ∨ s.heldProc d = none → Undisturbed s t d := by
  by_cases hacq : effect.Acquires
  · cases effect with
    | acquireProc r =>
      have hnone : s.heldProc c = none := by
        rw [heldProc_of_run hc]
        exact (acquires_without hi).2 r rfl
      obtain ⟨ls, t, hrun, hfree, hstill⟩ := procLock_freed hl hh r
      have hothers : ∀ d, d = c ∨ s.heldProc d = none → Undisturbed s t d := by
        rintro d (rfl | hd)
        · exact hstill d (by simp [hnone])
        · exact hstill d (by simp [hd])
      obtain ⟨hcpu, hpcs⟩ := hothers c (Or.inl rfl)
      have hi' : threadStep t p (t.pcs p) = some (.acquireProc r, pc, event) := by
        rw [hpcs p hc]
        exact threadStep_acquires hi trivial t
      have hu : applyEffect t c p (.acquireProc r) = some (t.setProc r fun x => { x with lock := some c }) :=
        if_pos hfree
      exact ⟨ls, t, _, hrun, hi', hu, step_of_thread (hcpu.trans hc) hi' hu, hothers⟩
    | acquireSem i => exact absurd rfl (hsem i)
    | _ => exact absurd hacq not_false
  · obtain ⟨u, hu⟩ := applyEffect_some (s := s) (c := c) (p := p) hacq
    exact ⟨[], s, u, .refl, hi, hu, step_of_thread hc hi hu, fun _ _ => .refl⟩

/-- The lock of a semaphore becomes free, while the CPUs that hold no lock stand still. -/
theorem semLock_freed {s : State n κ} (hl : Locked s) (hh : Held s) (i : Nat) :
    ∃ ls t, Run Step s ls t ∧ t.semLock i = none ∧
      ∀ d, s.heldSem d = none → s.heldProc d = none → Undisturbed s t d := by
  cases hlock : s.semLock i with
  | none => exact ⟨[], s, .refl, hlock, fun _ _ _ => .refl⟩
  | some c =>
    have hi := hh.sem c i hlock
    obtain ⟨p, hc⟩ : ∃ p, s.cpus c = .run p := by
      unfold State.heldSem at hi
      split at hi
      · next p hc => exact ⟨p, hc⟩
      · cases hi
    rw [heldSem_of_run hc] at hi
    clear hlock
    induction hdelay : (s.pcs p).semDelay using Nat.strong_induction_on generalizing s with
    | _ m ih =>
      have hp : s.pcs p ≠ .at .user := by
        intro huser
        rw [huser] at hi
        cases hi
      obtain ⟨effect, pc, event, hinstr⟩ := threadStep_some (s := s) (p := p) hp
      obtain ⟨hsem, hcases⟩ := instr_semDelay hinstr hi
      obtain ⟨ls, t, u, hrun, hinstr', hu, hstep, hstill⟩ := thread_goes hl hh hc hinstr hsem
      obtain ⟨hlt, hht⟩ := locked_held_run hl hh hrun
      have hct : t.cpus c = .run p := (hstill c (Or.inl rfl)).1.trans hc
      have hothers : ∀ d, s.heldSem d = none → s.heldProc d = none → Undisturbed s (u.setPc p pc) d := by
        intro d hd hd'
        have hst := hstill d (Or.inr hd')
        have hdc : d ≠ c := by
          rintro rfl
          rw [heldSem_of_run hc, hi] at hd
          cases hd
        exact hst.trans (thread_elsewhere hlt hct hu d hdc)
      rcases hcases with rfl | ⟨hne, hi', hlt'⟩
      · cases hu
        exact ⟨ls ++ [_], _, hrun.tail hstep, by simp, hothers⟩
      · obtain ⟨ms, v, hrun', hfree, hstill'⟩ := ih _ (hdelay ▸ hlt') (locked_step hlt hstep)
          (held_step hlt hht hstep) (by rwa [thread_pcs_self]) (thread_cpu hct hu hne) (by rw [thread_pcs_self])
        refine ⟨ls ++ [_] ++ ms, v, (hrun.tail hstep).trans hrun', hfree, fun d hd hd' => ?_⟩
        have hd'' := hothers d hd hd'
        exact hd''.trans (hstill' d (by rwa [hd''.heldSem]) (by rwa [hd''.heldProc]))

/-- A process on a CPU that stands in the kernel can take its next step, once the other CPUs have gone on. -/
theorem can_step {s : State n κ} {c : κ} {p : Fin n} (hl : Locked s) (hh : Held s) (hc : s.cpus c = .run p)
    (hp : s.pcs p ≠ .at .user) :
    ∃ ls t effect pc event u, Run Step s ls t ∧ threadStep t p (s.pcs p) = some (effect, pc, event) ∧
      applyEffect t c p effect = some u ∧ Step t (.cpu c, event) (u.setPc p pc) ∧ t.cpus c = .run p ∧
      t.pcs p = s.pcs p := by
  obtain ⟨effect, pc, event, hi⟩ := threadStep_some (s := s) (p := p) hp
  by_cases hsem : ∃ i, effect = .acquireSem i
  · obtain ⟨i, rfl⟩ := hsem
    obtain ⟨ls, t, hrun, hfree, hstill⟩ := semLock_freed hl hh i
    obtain ⟨hnone, hnone'⟩ := (acquires_without hi).1 i rfl
    obtain ⟨hcpu, hpcs⟩ := hstill c (by rwa [heldSem_of_run hc]) (by rwa [heldProc_of_run hc])
    have hct := hcpu.trans hc
    have hpt := hpcs p hc
    have hi' := threadStep_acquires hi trivial t
    have hu : applyEffect t c p (.acquireSem i) = some (t.setSemLock i (some c)) := if_pos hfree
    exact ⟨ls, t, _, _, _, _, hrun, hi', hu, step_of_thread hct (hpt.symm ▸ hi') hu, hct, hpt⟩
  · obtain ⟨ls, t, u, hrun, hi', hu, hstep, hstill⟩ := thread_goes hl hh hc hi fun i hi => hsem ⟨i, hi⟩
    obtain ⟨hcpu, hpcs⟩ := hstill c (Or.inl rfl)
    exact ⟨ls, t, _, _, _, _, hrun, hpcs p hc ▸ hi', hu, hstep, hcpu.trans hc, hpcs p hc⟩

/-- Where every instruction of a process either returns from its call or goes on among the places `P` and lowers a
    measure, the process can return. -/
theorem can_return (P : Pc n → Prop) (measure : Pc n → Nat) {s : State n κ} {c : κ} {p : Fin n}
    (hP : ∀ (t : State n κ) pc effect pc' event, P pc → threadStep t p pc = some (effect, pc', event) →
      (∃ r, event = .returned p r) ∨ effect ≠ .swtch ∧ P pc' ∧ measure pc' < measure pc)
    (huser : ¬P (.at .user)) (hl : Locked s) (hh : Held s) (hc : s.cpus c = .run p) (hp : P (s.pcs p)) :
    ∃ ls t a r, Run Step s ls t ∧ (a, .returned p r) ∈ ls := by
  induction hm : measure (s.pcs p) using Nat.strong_induction_on generalizing s with
  | _ m ih =>
    obtain ⟨ls, t, effect, pc, event, u, hrun, hi, hu, hstep, hct, hpt⟩ :=
      can_step hl hh hc (fun h => huser (h ▸ hp))
    obtain ⟨hlt, hht⟩ := locked_held_run hl hh hrun
    rcases hP t _ _ _ _ hp hi with ⟨r, rfl⟩ | ⟨hne, hpc, hlt'⟩
    · exact ⟨ls ++ [_], _, .cpu c, r, hrun.tail hstep, by simp⟩
    · obtain ⟨ms, v, a, r, hrun', hmem⟩ := ih _ (hm ▸ hlt') (locked_step hlt hstep) (held_step hlt hht hstep)
        (thread_cpu hct hu hne) (by rwa [thread_pcs_self]) (by rw [thread_pcs_self])
      exact ⟨ls ++ [_] ++ ms, v, a, r, (hrun.tail hstep).trans hrun', List.mem_append_right _ hmem⟩

/-! ### The rest of a call that has its result -/

/-- Where the value that a call returns is settled. -/
def Pc.Returning (result : Int) : Pc n → Prop
  | .inside (.wakeup _ _) | .inside (.wakeupTest _ _) | .inside (.wakeupRelease _ _) => result = 1
  | .inside (.killRelease _ _ true) => result = 0
  | .inside (.openRelease .syscall _ _ r) | .inside (.closeRelease _ r) | .inside (.upRelease _ r)
  | .inside (.downRelease _ r) | .at (.returned r) | .yield _ (.returned r) => r = result
  | _ => False

/-- The instructions until the call has returned, if it is not preempted. -/
def Pc.returnLeft : Pc n → Nat
  | .inside (.wakeup _ j) => 3 * (n - j) + 3
  | .inside (.wakeupTest _ q) => 3 * (n - q) + 2
  | .inside (.wakeupRelease _ q) => 3 * (n - q) + 1
  | .inside _ => 2
  | .at _ => 1
  | .yield _ _ => 0

section
omit [DecidableEq κ]
variable {s : State n κ} {p : Fin n} {pc pc' : Pc n} {effect : Effect n} {event : Event n} {result : Int}

theorem instr_returning (hpc : pc.Returning result) (h : threadStep s p pc = some (effect, pc', event)) :
    event = .returned p result ∨ pc'.Returning result := by
  cases threadStep_instr h with
  | returned =>
    obtain rfl := hpc
    exact Or.inl rfl
  | @openRelease caller i value r =>
    cases caller with
    | syscall => exact Or.inr hpc
    | getSem => exact False.elim hpc
  | wakeupSelf | wakeupAcquire | wakeupTest | wakeupRelease | closeRelease | upRelease | downRelease => exact Or.inr hpc
  | wakeupEnd => exact Or.inr (Eq.symm hpc)
  | @killRelease pid q found =>
    cases found with
    | true => exact Or.inr (Eq.symm hpc)
    | false => exact False.elim hpc
  | @yieldAcquire k | @yieldState k | @yieldSched k | @yieldRelease k =>
    right
    cases k <;> exact hpc
  | _ => exact False.elim hpc

theorem instr_returnLeft (hpc : pc.Returning result ∧ ∀ stage k, pc ≠ .yield stage k)
    (h : threadStep s p pc = some (effect, pc', event)) :
    (∃ r, event = .returned p r) ∨
    effect ≠ .swtch ∧ (pc'.Returning result ∧ ∀ stage k, pc' ≠ .yield stage k) ∧ pc'.returnLeft < pc.returnLeft := by
  rcases instr_returning hpc.1 h with hev | hpc'
  · exact Or.inl ⟨_, hev⟩
  · right
    cases threadStep_instr h with
    | wakeupSelf self =>
      have hlt := p.isLt
      exact ⟨nofun, ⟨hpc', nofun⟩, by simp only [Pc.returnLeft]; omega⟩
    | @wakeupAcquire j q | @wakeupTest j q | @wakeupRelease j q =>
      have hlt := q.isLt
      exact ⟨nofun, ⟨hpc', nofun⟩, by simp only [Pc.returnLeft]; omega⟩
    | wakeupEnd | killRelease | openRelease | closeRelease | upRelease | downRelease =>
      exact ⟨nofun, ⟨hpc', nofun⟩, by simp [Pc.returnLeft]⟩
    | yieldAcquire | yieldState | yieldSched | yieldRelease => exact absurd rfl (hpc.2 _ _)
    | returned => exact False.elim hpc'
    | _ => exact False.elim hpc.1

end

theorem made_returned {s t : State n κ} {l : Action κ × Event n} {p : Fin n} {r : Int} (hstep : Step s l t)
    (hl : l.2 = .returned p r) : s.pcs p = .at (.returned r) := by
  rcases step_made hstep with hsilent | ⟨c, q, -, -, hmade⟩
  · rw [hl] at hsilent
    cases hsilent
  · rw [hl] at hmade
    generalize hpc : s.pcs q = pc at hmade
    cases hmade
    exact hpc

/-- A process whose result is settled keeps it until it returns. -/
theorem returning_step {s t : State n κ} {l : Action κ × Event n} {q : Fin n} {result : Int}
    (h : (s.pcs q).Returning result) (hl : ∀ r, l.2 ≠ .returned q r) (hstep : Step s l t) :
    (t.pcs q).Returning result := by
  rcases step_place hstep q with ⟨hsame, -⟩ | ⟨c, effect, pc, u, -, -, hi, -, rfl⟩ | ⟨c, k, -, -, hk, rfl⟩ |
    ⟨c, sys, -, -, huser, -⟩
  · rwa [hsame]
  · rw [thread_pcs_self]
    rcases instr_returning h hi with hev | hpc
    · exact absurd hev (hl _)
    · exact hpc
  · rw [hk] at h
    rw [thread_pcs_self]
    cases k <;> exact h
  · rw [huser] at h
    cases h

/-- The call that a process is in returns with one value only, and can return. -/
structure Returns (s : State n κ) (q : Fin n) (result : Int) : Prop where
  value : ∀ ls t a r, Run Step s (ls ++ [(a, .returned q r)]) t → (∀ l ∈ ls, ∀ r', l.2 ≠ .returned q r') → r = result
  can : ∃ ls t a r, Run Step s ls t ∧ (a, .returned q r) ∈ ls

theorem returns_of_returning {s : State n κ} {c : κ} {q : Fin n} {result : Int} (hl : Locked s) (hh : Held s)
    (hc : s.cpus c = .run q) (hq : (s.pcs q).Returning result) (hq' : ∀ stage k, s.pcs q ≠ .yield stage k) :
    Returns s q result where
  value ls t a r hrun hfirst := by
    obtain ⟨u, hu, hstep⟩ := hrun.snoc_inv
    have hall : AllSteps Step s ls fun _ l => ∀ r', l.2 ≠ .returned q r' := AllSteps.of_mem fun l hl _ => hfirst l hl
    have hkeep : ∀ (v : State n κ) (l : Action κ × Event n) w, (v.pcs q).Returning result →
        (∀ r', l.2 ≠ .returned q r') → Step v l w → (w.pcs q).Returning result :=
      fun v l w hv hl hstep => returning_step hv hl hstep
    have hpc := hall.invariant hkeep hq hu
    rw [made_returned hstep rfl] at hpc
    exact hpc
  can := can_return (fun pc => pc.Returning result ∧ ∀ stage k, pc ≠ .yield stage k) Pc.returnLeft
    (fun _ _ _ _ _ hpc h => instr_returnLeft hpc h) (fun h => h.1) hl hh hc ⟨hq, hq'⟩

end LabSO.Kernel

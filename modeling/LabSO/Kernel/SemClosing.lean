import LabSO.Kernel.SemWakeup

/-! What `sem_close` leaves behind. It wakes no process, and every way to wake one on the semaphore goes through
    another call: so exactly the processes that are asleep, or on their way into `sleep`, when the semaphore is closed
    are left asleep on it. -/

namespace LabSO.Kernel
open Transition

variable {n : Nat} {κ : Type}

/-- Asleep on the semaphore, as `wakeup` tests it. -/
def SleepsOn (s : State n κ) (p : Fin n) (i : Nat) : Prop :=
  (s.procs p).state = .sleeping ∧ (s.procs p).chan = some i

/-- A process is set to sleep before it goes to `sched`. -/
def SchedAsleep (s : State n κ) : Prop :=
  ∀ p i, s.pcs p = .inside (.sleepSched i) → (s.procs p).state = .sleeping

theorem drowsy_of_sleepsOn {s : State n κ} {p : Fin n} {i : Nat} (hl : Locked s) (h : SleepsOn s p i) :
    Drowsy s p i := by
  obtain ⟨j, hpc⟩ := hl.sleeping p h.1
  have hj := hl.chan p j (Or.inr hpc)
  rw [h.2] at hj
  obtain rfl := Option.some.inj hj
  rcases hpc with hpc | hpc
  · exact Or.inl (by rw [hpc]; rfl)
  · exact Or.inr ⟨hpc, h.1⟩

variable [DecidableEq κ]

/-- The step closes no semaphore that a process sleeps on, or is about to. -/
def ClosesUnslept (s : State n κ) (l : Action κ × Event n) : Prop :=
  ∀ q i, l.2 = .closed q i → ∀ p, ¬Drowsy s p i

/-- After the labels `ls` from `s`, in the state `t`, a process sleeps on the semaphore that was already in this sleep
    in the state `s`. -/
structure LeftAsleep (s : State n κ) (ls : List (Action κ × Event n)) (t : State n κ) (p : Fin n) (i : Nat) : Prop where
  asleep : SleepsOn t p i
  since : AllStates Step s ls fun u => Drowsy u p i

/-! ### What a step does -/

/-- The process that holds the lock of a semaphore makes the steps that change it. -/
theorem sem_maker {s t : State n κ} {l : Action κ × Event n} {p : Fin n} {i : Nat} (hl : Locked s) (hstep : Step s l t)
    (hev : l.2.sem? = some i) (hp : (s.pcs p).heldSem = some i) : Made p (s.pcs p) l.2 := by
  rcases step_made hstep with hsilent | ⟨c, q, -, -, hmade⟩
  · rw [hsilent] at hev
    cases hev
  · obtain rfl := hl.sem_unique hp (made_heldSem hmade hev)
    exact hmade

theorem not_made_sleepRelease {s t : State n κ} {l : Action κ × Event n} {p : Fin n} {i : Nat} (hl : Locked s)
    (hstep : Step s l t) (hp : s.pcs p = .inside (.sleepRelease i)) : l.2.sem? ≠ some i := by
  intro hev
  have hmade := sem_maker hl hstep hev (by rw [hp]; rfl)
  generalize l.2 = event at hmade hev
  rw [hp] at hmade
  cases hmade
  cases hev

theorem not_made_covers {s t : State n κ} {l : Action κ × Event n} {p w : Fin n} {i : Nat} (hl : Locked s)
    (hstep : Step s l t) (hw : (s.pcs w).Covers i p) : l.2.sem? ≠ some i := by
  intro hev
  have hmade := sem_maker hl hstep hev (covers_heldSem hw).1
  generalize l.2 = event at hmade hev
  generalize s.pcs w = pc at hw hmade
  cases hmade <;> cases hev <;> cases hw

/-- Only a thread that holds the lock of a sleeper wakes it. -/
theorem thread_wakes {s t : State n κ} {c : κ} {p q : Fin n} {effect : Effect n} {pc : Pc n}
    (hd : Disciplined p (s.pcs p) effect pc) (ha : applyEffect s c p effect = some t) (hne : q ≠ p)
    (hs : (s.procs q).state = .sleeping) (hheld : (s.pcs p).heldProc p ≠ some q) : (t.procs q).state = .sleeping := by
  have hother : ∀ r f, (∀ x : Proc κ, (f x).state = x.state) ∨ q ≠ r →
      ((s.setProc r f).procs q).state = .sleeping := by
    intro r f hf
    by_cases hqr : q = r
    · subst hqr
      simp [hf.resolve_right fun h => h rfl, hs]
    · simp [hqr, hs]
  have hneeds := hd.needs
  cases effect with
  | wake r i | kill r =>
    cases ha
    refine hother r _ (Or.inr ?_)
    rintro rfl
    exact hheld hneeds
  | acquireProc r =>
    obtain ⟨-, ht⟩ := Option.ite_none_right_eq_some.mp ha
    cases ht
    exact hother r _ (Or.inl fun _ => rfl)
  | releaseProc r =>
    cases ha
    exact hother r _ (Or.inl fun _ => rfl)
  | setState st | setChan chan =>
    cases ha
    exact hother p _ (Or.inr hne)
  | acquireSem i =>
    obtain ⟨-, ht⟩ := Option.ite_none_right_eq_some.mp ha
    cases ht
    exact hs
  | _ =>
    cases ha
    exact hs

theorem schedAsleep_step {s t : State n κ} {l : Action κ × Event n} (hl : Locked s) (h : SchedAsleep s)
    (hstep : Step s l t) : SchedAsleep t := by
  intro p i hp
  have hpark : ∀ {c q}, s.cpus c = .check q → s.pcs p = .inside (.sleepSched i) → p ≠ q := by
    rintro c q hc hpc rfl
    obtain ⟨d, hd⟩ := hl.on_cpu (p := p) (by rw [hpc]; exact not_false)
    have hlock := hl.proc.unique (a := p) (by rw [heldProc_of_run hd, hpc]; rfl)
      (show s.heldProc c = some p by simp [State.heldProc, hc])
    rw [hlock, hc] at hd
    cases hd
  cases step_inv hstep with
  | @scan c q cpu free =>
    exact (setProc_state_chan s q (fun x => { x with lock := some c }) (fun _ => ⟨rfl, rfl⟩) p).1.trans (h p i hp)
  | @unlock c q cpu =>
    exact (setProc_state_chan s q (fun x => { x with lock := none }) (fun _ => ⟨rfl, rfl⟩) p).1.trans (h p i hp)
  | @dispatch c q cpu runnable =>
    rw [State.setCpu_procs, State.setProc_procs, Function.update_of_ne (hpark cpu hp)]
    exact h p i hp
  | @thread c q effect pc event u cpu instr applied =>
    rw [State.setPc_procs]
    by_cases hpq : p = q
    · subst hpq
      rw [thread_pcs_self] at hp
      subst hp
      obtain ⟨-, rfl⟩ := threadStep_entered instr
      cases applied
      simp
    · rw [thread_pcs applied hpq] at hp
      refine thread_wakes (threadStep_disciplined instr) applied hpq (h p i hp) fun hheld => ?_
      -- The process still holds its own lock.
      obtain ⟨d, hd⟩ := hl.on_cpu (p := p) (by rw [hp]; exact not_false)
      rw [← heldProc_of_run cpu] at hheld
      have hown : s.heldProc d = some p := by
        rw [heldProc_of_run hd, hp]
        rfl
      obtain rfl := hl.proc.unique hheld hown
      rw [cpu] at hd
      cases hd
      exact hpq rfl
  | @call c q sys cpu user =>
    by_cases hpq : p = q
    · subst hpq
      rw [State.setPc_pcs, Function.update_self] at hp
      cases hp
    · rw [State.setPc_pcs, Function.update_of_ne hpq] at hp
      exact h p i hp
  | @preempt c q k cpu point =>
    by_cases hpq : p = q
    · subst hpq
      rw [State.setPc_pcs, Function.update_self] at hp
      cases hp
    · rw [State.setPc_pcs, Function.update_of_ne hpq] at hp
      exact h p i hp
  | _ => exact h p i hp

theorem close_inv {s t : State n κ} {l : Action κ × Event n} {q : Fin n} {i : Nat} (hstep : Step s l t)
    (hclose : l.2 = .closed q i) : ∃ c, s.cpus c = .run q ∧ s.pcs q = .inside (.closeBody i) ∧
      t = State.setPc { s with sems := Function.update s.sems i { s.sems i with count := -1 } } q
        (.inside (.closeRelease i 1)) := by
  cases step_inv hstep with
  | @thread c p effect pc event u cpu instr applied =>
    obtain rfl : event = .closed q i := hclose
    have hi := threadStep_instr instr
    generalize hpc : s.pcs p = pc' at hi
    cases hi
    cases applied
    exact ⟨c, cpu, hpc, rfl⟩
  | _ => cases hclose

theorem step_of_thread {s u : State n κ} {c : κ} {p : Fin n} {effect : Effect n} {pc : Pc n} {event : Event n}
    (hc : s.cpus c = .run p) (hi : threadStep s p (s.pcs p) = some (effect, pc, event))
    (ha : applyEffect s c p effect = some u) : Step s (.cpu c, event) (u.setPc p pc) := by
  simp [ofStep, step, cpuStep, hc, hi, ha]

omit [DecidableEq κ] in
theorem drowsy_congr {s t : State n κ} {p : Fin n} {i : Nat} (hpc : t.pcs p = s.pcs p) (hproc : t.procs p = s.procs p)
    (h : Drowsy s p i) : Drowsy t p i := by
  unfold Drowsy at h ⊢
  rwa [hpc, hproc]

omit [DecidableEq κ] in
theorem not_drowsy_inside {s : State n κ} {p : Fin n} {i : Nat} {sec : Section n} (hpc : s.pcs p = .inside sec)
    (hsec : sec.heldSem ≠ none) : ¬Drowsy s p i := by
  rintro (hdoze | ⟨htidy, -⟩)
  · rcases dozing_cases hdoze with h | h | h <;> rw [hpc] at h <;> cases h <;> exact hsec rfl
  · rw [hpc] at htidy
    cases htidy
    exact hsec rfl

/-! ### A closed semaphore without sleepers stays so -/

/-- Whoever sleeps on a semaphore finds it open. -/
structure Unstranded (s : State n κ) (i : Nat) : Prop where
  wakeup : NoLostWakeup s i
  isOpen : (s.sems i).count = -1 → ∀ p, ¬Drowsy s p i

theorem drowsy_count {s t : State n κ} {l : Action κ × Event n} {p : Fin n} {i : Nat} (hl : Locked s)
    (hfound : FoundNone s) (h : NoLostWakeup s i) (hstep : Step s l t) (hp : Drowsy t p i) :
    (s.sems i).count = 0 ∨ l.2.sem? ≠ some i ∧ Drowsy s p i := by
  rcases drowsy_before hstep hp with hdrowsy | hrelease
  · rcases h p hdrowsy with hzero | ⟨w, hw⟩
    · exact Or.inl hzero
    · exact Or.inr ⟨not_made_covers hl hstep hw, hdrowsy⟩
  · exact Or.inl (hfound p i (Or.inr hrelease))

theorem unstranded_step {s t : State n κ} {l : Action κ × Event n} {i : Nat} (hl : Locked s) (hfound : FoundNone s)
    (h : Unstranded s i) (hcloses : ClosesUnslept s l) (hstep : Step s l t) : Unstranded t i := by
  by_cases hclosed : ∃ q, l.2 = .closed q i
  · -- A process before the release of the lock holds it, and does not let `sem_close` in.
    obtain ⟨q, hq⟩ := hclosed
    have hnone : ∀ p, ¬Drowsy t p i := by
      intro p hp
      rcases drowsy_before hstep hp with hdrowsy | hrelease
      · exact hcloses q i hq p hdrowsy
      · exact not_made_sleepRelease hl hstep hrelease (by rw [hq]; rfl)
    exact ⟨fun p hp => absurd hp (hnone p), fun _ => hnone⟩
  · refine ⟨noLostWakeup_step hl hfound h.wakeup (fun q hq => hclosed ⟨q, hq⟩) hstep, fun hcount p hp => ?_⟩
    have hcases := drowsy_count hl hfound h.wakeup hstep hp
    rcases step_sem hstep i with ⟨hev, hch⟩ | ⟨-, heq⟩
    · have hzero := hcases.resolve_right fun hr => hr.1 hev
      generalize hevent : l.2 = event at hev hch
      generalize t.sems i = sem at hch hcount
      cases hch with
      | opened closed =>
        rw [hzero] at closed
        cases closed
      | closed isOpen =>
        cases hev
        exact hclosed ⟨_, hevent⟩
      | up isOpen below =>
        rw [hzero] at hcount
        cases hcount
      | down nonzero isOpen => exact nonzero hzero
    · rw [heq] at hcount
      rcases hcases with hzero | ⟨-, hdrowsy⟩
      · rw [hzero] at hcount
        cases hcount
      · exact h.isOpen hcount p hdrowsy

theorem unstranded_run {s t : State n κ} {ls : List (Action κ × Event n)} (hboot : Boot s) (hrun : Run Step s ls t)
    (hall : AllSteps Step s ls ClosesUnslept) (i : Nat) : Unstranded t i := by
  have hnone : ∀ p, ¬Drowsy s p i := by
    rintro p (hdoze | ⟨htidy, -⟩)
    · rw [hboot.pcs] at hdoze
      cases hdoze
    · rw [hboot.pcs] at htidy
      cases htidy
  induction hrun with
  | refl => exact ⟨fun p hp => absurd hp (hnone p), fun _ => hnone⟩
  | tail hrun hstep ih =>
    exact unstranded_step (locked_run hboot hrun) (foundNone_run hboot hrun)
      (ih (hall.of_prefix (List.prefix_append _ _))) (hall _ _ _ (List.prefix_refl _) hrun) hstep

/-! ### A sleeper of a semaphore that is closed -/

theorem schedAsleep_run {s t : State n κ} {ls : List (Action κ × Event n)} (hboot : Boot s) (hrun : Run Step s ls t) :
    SchedAsleep t := by
  have hboth : Locked t ∧ SchedAsleep t :=
    hrun.invariant (I := fun u => Locked u ∧ SchedAsleep u)
      (fun _ _ _ h hstep => ⟨locked_step h.1 hstep, schedAsleep_step h.1 h.2 hstep⟩)
      ⟨.boot hboot, fun p i hp => by rw [hboot.pcs] at hp; cases hp⟩
  exact hboth.2

/-- A run through which the process waits for a wakeup, to a state in which it sleeps. -/
def FallsAsleep (s : State n κ) (p : Fin n) (i : Nat) : Prop :=
  ∃ ls t, Run Step s ls t ∧ LeftAsleep s ls t p i

theorem FallsAsleep.head {s t : State n κ} {l : Action κ × Event n} {p : Fin n} {i : Nat} (hs : Drowsy s p i)
    (hstep : Step s l t) (h : FallsAsleep t p i) : FallsAsleep s p i := by
  obtain ⟨ls, u, hrun, hasleep, hsince⟩ := h
  have ht : Drowsy t p i := hsince [] t List.nil_prefix .refl
  have hfirst : AllStates Step s ([] ++ [l]) fun v => Drowsy v p i :=
    AllStates.tail (fun _ _ _ _ => ofStep_det) (.nil hs) .refl hstep ht
  have hall : AllStates Step s ([] ++ [l] ++ ls) fun v => Drowsy v p i :=
    hfirst.append (fun _ _ _ _ => ofStep_det) (Run.refl.tail hstep) hsince hrun
  exact ⟨l :: ls, u, (Run.single hstep).trans hrun, hasleep, hall⟩

theorem fallsAsleep_of_sleepSched {s : State n κ} {p : Fin n} {i : Nat} (hl : Locked s) (hsched : SchedAsleep s)
    (hpc : s.pcs p = .inside (.sleepSched i)) : FallsAsleep s p i :=
  ⟨[], s, .refl, ⟨hsched p i hpc, hl.chan p i (Or.inr (Or.inl hpc))⟩, .nil (Or.inl (by rw [hpc]; rfl))⟩

theorem fallsAsleep_of_sleepState {s : State n κ} {p : Fin n} {i : Nat} (hl : Locked s) (hsched : SchedAsleep s)
    (hpc : s.pcs p = .inside (.sleepState i)) : FallsAsleep s p i := by
  obtain ⟨c, hc⟩ := hl.on_cpu (p := p) (by rw [hpc]; exact not_false)
  have hstep := step_of_thread hc (by rw [hpc]; rfl) rfl
  refine FallsAsleep.head (Or.inl (by rw [hpc]; rfl)) hstep ?_
  exact fallsAsleep_of_sleepSched (locked_step hl hstep) (schedAsleep_step hl hsched hstep) thread_pcs_self

theorem fallsAsleep_of_sleepChan {s : State n κ} {p : Fin n} {i : Nat} (hl : Locked s) (hsched : SchedAsleep s)
    (hpc : s.pcs p = .inside (.sleepChan i)) : FallsAsleep s p i := by
  obtain ⟨c, hc⟩ := hl.on_cpu (p := p) (by rw [hpc]; exact not_false)
  have hstep := step_of_thread hc (by rw [hpc]; rfl) rfl
  refine FallsAsleep.head (Or.inl (by rw [hpc]; rfl)) hstep ?_
  exact fallsAsleep_of_sleepState (locked_step hl hstep) (schedAsleep_step hl hsched hstep) thread_pcs_self

theorem fallsAsleep {s : State n κ} {p : Fin n} {i : Nat} (hl : Locked s) (hsched : SchedAsleep s)
    (hp : Drowsy s p i) : FallsAsleep s p i := by
  rcases hp with hdoze | ⟨htidy, hsleep⟩
  · rcases dozing_cases hdoze with hpc | hpc | hpc
    · exact fallsAsleep_of_sleepChan hl hsched hpc
    · exact fallsAsleep_of_sleepState hl hsched hpc
    · exact fallsAsleep_of_sleepSched hl hsched hpc
  · exact ⟨[], s, .refl, ⟨hsleep, hl.chan p i (Or.inr (Or.inr htidy))⟩, .nil (Or.inr ⟨htidy, hsleep⟩)⟩

theorem closeRelease_returns {s : State n κ} {c : κ} {q : Fin n} {i : Nat} (hc : s.cpus c = .run q)
    (hpc : s.pcs q = .inside (.closeRelease i 1)) : ∃ t u, Step s (.cpu c, .silent) t ∧
      Step t (.cpu c, .returned q 1) u ∧ ∀ p, p ≠ q → Drowsy s p i → Drowsy t p i ∧ Drowsy u p i := by
  have hrelease := step_of_thread hc (by rw [hpc]; rfl) rfl
  have hreturn := step_of_thread (s := (s.setSemLock i none).setPc q (.at (.returned 1))) hc
    (by rw [thread_pcs_self]; rfl) rfl
  refine ⟨_, _, hrelease, hreturn, fun p hne hp => ⟨drowsy_congr (s := s) ?_ rfl hp, drowsy_congr (s := s) ?_ rfl hp⟩⟩
  · simp [hne]
  · simp [hne]

/-- The closing process can return without any process being woken. -/
theorem leftAsleep_of_close {s t : State n κ} {l : Action κ × Event n} {p q : Fin n} {i : Nat} (hl : Locked s)
    (hsched : SchedAsleep s) (hstep : Step s l t) (hclose : l.2 = .closed q i) (hp : Drowsy s p i) :
    ∃ ms u a, Run Step t ms u ∧ (a, .returned q 1) ∈ ms ∧ LeftAsleep t ms u p i := by
  obtain ⟨c, hc, hpc, ht⟩ := close_inv hstep hclose
  have hne : p ≠ q := by
    rintro rfl
    exact not_drowsy_inside hpc (by simp [Section.heldSem]) hp
  have hpt : Drowsy t p i := drowsy_congr (by simp [ht, hne]) (by rw [ht]; rfl) hp
  obtain ⟨u, v, hu, hv, hdrowsy⟩ := closeRelease_returns (s := t) (i := i) (by rw [ht]; exact hc)
    (by rw [ht, thread_pcs_self])
  obtain ⟨hpu, hpv⟩ := hdrowsy p hne hpt
  have hlu := locked_step (locked_step hl hstep) hu
  have hsu := schedAsleep_step (locked_step hl hstep) (schedAsleep_step hl hsched hstep) hu
  obtain ⟨ms, w, hms, hasleep, hsince⟩ := fallsAsleep (locked_step hlu hv) (schedAsleep_step hlu hsu hv) hpv
  have hreturned : Run Step t ([] ++ [(.cpu c, .silent)] ++ [(.cpu c, .returned q 1)]) v := (Run.refl.tail hu).tail hv
  have hall : AllStates Step t ([] ++ [(.cpu c, .silent)] ++ [(.cpu c, .returned q 1)]) fun x => Drowsy x p i :=
    AllStates.tail (fun _ _ _ _ => ofStep_det) (AllStates.tail (fun _ _ _ _ => ofStep_det) (.nil hpt) .refl hu hpu)
      (Run.refl.tail hu) hv hpv
  exact ⟨_, w, .cpu c, hreturned.trans hms, by simp, hasleep,
    hall.append (fun _ _ _ _ => ofStep_det) hreturned hsince hms⟩

/-- Where no semaphore is closed on its sleepers, no process sleeps on a closed one; and a close leaves no process
    asleep, however the run goes on until it has returned, exactly if no process slept on the semaphore. -/
theorem sem_close_strands_none {s₀ s : State n κ} {ls : List (Action κ × Event n)} (hboot : Boot s₀)
    (hls : Run Step s₀ ls s) :
    (AllSteps Step s₀ ls ClosesUnslept → ∀ p i, (s.sems i).count = -1 → ¬SleepsOn s p i) ∧
    ∀ l t q i, Step s l t → l.2 = .closed q i →
      ((∀ ms u a p, Run Step t ms u → (a, .returned q 1) ∈ ms → ¬LeftAsleep t ms u p i) ↔ ∀ p, ¬Drowsy s p i) := by
  have hl := locked_run hboot hls
  refine ⟨fun hall p i hcount hsleep => ?_, fun l t q i hstep hclose => ⟨fun hnone p hp => ?_, ?_⟩⟩
  · exact (unstranded_run hboot hls hall i).isOpen hcount p (drowsy_of_sleepsOn hl hsleep)
  · obtain ⟨ms, u, a, hrun, hreturned, hleft⟩ := leftAsleep_of_close hl (schedAsleep_run hboot hls) hstep hclose hp
    exact hnone ms u a p hrun hreturned hleft
  · intro hnone ms u a p hrun _ hleft
    have hpt : Drowsy t p i := hleft.since [] t List.nil_prefix .refl
    rcases drowsy_before hstep hpt with hp | hrelease
    · exact hnone p hp
    · exact not_made_sleepRelease hl hstep hrelease (by rw [hclose]; rfl)

attribute [local instance] Transition.neZero_two

/-- Process 2 sleeps on semaphore 0, and process 1 holds its lock in `sem_close(0)`. -/
def sleepBeforeClose : List (Action (Fin 2)) := goToSleep ++ .call 0 (.semClose 0) :: cpuSteps 0 1

theorem sleepBeforeClose_runs : (exec step (boot 2 (Fin 2)) sleepBeforeClose).isSome := by decide

def beforeClose : State 2 (Fin 2) := ((exec step (boot 2 (Fin 2)) sleepBeforeClose).get sleepBeforeClose_runs).2

def beforeCloseLabels : List (Action (Fin 2) × Event 2) :=
  ((exec step (boot 2 (Fin 2)) sleepBeforeClose).get sleepBeforeClose_runs).1

theorem sem_close_strands_none_sleeper :
    (AllSteps Step (boot 2 (Fin 2)) beforeCloseLabels ClosesUnslept →
      ∀ p i, (beforeClose.sems i).count = -1 → ¬SleepsOn beforeClose p i) ∧
    ∀ l t q i, Step beforeClose l t → l.2 = .closed q i →
      ((∀ ms u a p, Run Step t ms u → (a, .returned q 1) ∈ ms → ¬LeftAsleep t ms u p i) ↔
        ∀ p, ¬Drowsy beforeClose p i) :=
  sem_close_strands_none boot_boot (run_exec sleepBeforeClose_runs)

theorem not_sem_close_strands_none : ¬∀ (s₀ s t u : State 2 (Fin 2)) (ls ms : List (Action (Fin 2) × Event 2))
    (l : Action (Fin 2) × Event 2) (a : Action (Fin 2)) (q : Fin 2) (i : Nat), Boot s₀ → Run Step s₀ ls s →
    Step s l t → l.2 = .closed q i → Run Step t ms u → (a, .returned q 1) ∈ ms → ∀ p, ¬LeftAsleep t ms u p i := by
  intro h
  have hls : Run Step (boot 2 (Fin 2)) beforeCloseLabels beforeClose := run_exec sleepBeforeClose_runs
  obtain ⟨t, hstep⟩ : ∃ t, Step beforeClose (.cpu 0, .closed 0 0) t := ⟨_, step_of_thread (p := 0) (by decide) rfl rfl⟩
  have hdrowsy : Drowsy beforeClose 1 0 := Or.inr ⟨by decide, by decide⟩
  obtain ⟨ms, u, a, hms, hreturned, hleft⟩ :=
    leftAsleep_of_close (locked_run boot_boot hls) (schedAsleep_run boot_boot hls) hstep rfl hdrowsy
  exact h _ _ _ _ _ _ _ _ 0 0 boot_boot hls hstep rfl hms hreturned 1 hleft

end LabSO.Kernel

import LabSO.Kernel.SemProgress

/-! A process that is killed in `sem_down`. `kill` makes it runnable once, and the loop of `sem_down` tests only the
    counter: it leaves the loop exactly if it finds a unit each time it comes back to the test. -/

namespace LabSO.Kernel
open Transition

variable {n : Nat} {κ : Type}

/-- Asleep in `sem_down`, or on the way into `sleep`. -/
def GoesToSleep (s : State n κ) (p : Fin n) (i : Nat) : Prop :=
  s.pcs p = .inside (.sleepAcquire i) ∨ s.pcs p = .inside (.sleepRelease i) ∨ Drowsy s p i

/-- On the way from `sleep` to the return of `sem_down`. -/
def Point.LeavesDown (i : Nat) : Point → Prop
  | .sleepReacquire j => j = i
  | .returned _ => True
  | _ => False

def Pc.LeavesDown (i : Nat) : Pc n → Prop
  | .at k | .yield _ k => k.LeavesDown i
  | .inside (.sleepTidy j) | .inside (.sleepUnlock j) | .inside (.downLoop j) | .inside (.downRelease j _) => j = i
  | _ => False

/-- Woken in `sem_down`. -/
structure Roused (s : State n κ) (p : Fin n) (i : Nat) : Prop where
  leaves : (s.pcs p).LeavesDown i
  awake : (s.procs p).state ≠ .sleeping

theorem Roused.not_goesToSleep {s : State n κ} {p : Fin n} {i j : Nat} (h : Roused s p i) : ¬GoesToSleep s p j := by
  have hleaves := h.leaves
  rintro (hpc | hpc | hdoze | ⟨-, hsleep⟩)
  · rw [hpc] at hleaves
    cases hleaves
  · rw [hpc] at hleaves
    cases hleaves
  · rcases dozing_cases hdoze with hpc | hpc | hpc <;> rw [hpc] at hleaves <;> cases hleaves
  · exact h.awake hsleep

/-- Where the next step is the test of the process in the loop of `sem_down`, it finds a unit. -/
def RetestsUnit (p : Fin n) (i : Nat) (s : State n κ) (l : Action κ × Event n) : Prop :=
  ∀ c, l.1 = .cpu c → s.cpus c = .run p → s.pcs p = .inside (.downLoop i) → (s.sems i).count ≠ 0

theorem instr_leavesDown {s : State n κ} {p : Fin n} {pc pc' : Pc n} {effect : Effect n} {event : Event n} {i : Nat}
    (h : threadStep s p pc = some (effect, pc', event)) (hpc : pc.LeavesDown i)
    (hunit : pc = .inside (.downLoop i) → (s.sems i).count ≠ 0) :
    (∃ r, event = .returned p r) ∨ pc'.LeavesDown i ∧ effect ≠ .setState .sleeping := by
  cases threadStep_instr h with
  | @returned r => exact Or.inl ⟨r, rfl⟩
  | resumedSleeps zero =>
    obtain rfl := hpc
    exact absurd zero (hunit rfl)
  | downRelease => exact Or.inr ⟨trivial, nofun⟩
  | sleepTidy | sleepUnlock | sleepReacquire | resumed | yieldAcquire | yieldSched | yieldRelease =>
    exact Or.inr ⟨hpc, nofun⟩
  | yieldState => exact Or.inr ⟨hpc, by simp⟩
  | _ => exact False.elim hpc

variable [DecidableEq κ]

/-- A woken process stays awake until it returns, while its tests find a unit. -/
theorem roused_step {s t : State n κ} {l : Action κ × Event n} {p : Fin n} {i : Nat} (h : Roused s p i)
    (hunit : RetestsUnit p i s l) (hl : ∀ r, l.2 ≠ .returned p r) (hstep : Step s l t) : Roused t p i := by
  constructor
  · have hleaves := h.leaves
    rcases step_place hstep p with ⟨hsame, -⟩ | ⟨c, effect, pc, u, hc, hact, hi, -, rfl⟩ | ⟨c, k, -, -, hk, rfl⟩ |
      ⟨c, sys, -, -, huser, -⟩
    · rwa [hsame]
    · rw [thread_pcs_self]
      rcases instr_leavesDown hi hleaves (hunit c hact hc) with ⟨r, hev⟩ | ⟨hpc, -⟩
      · exact absurd hev (hl r)
      · exact hpc
    · rw [hk] at hleaves
      rw [thread_pcs_self]
      exact hleaves
    · rw [huser] at hleaves
      cases hleaves
  · cases step_inv hstep with
    | @scan c q cpu free =>
      have hsame := (setProc_state_chan s q (fun x => { x with lock := some c }) (fun _ => ⟨rfl, rfl⟩) p).1
      exact fun hsleep => h.awake (hsame.symm.trans hsleep)
    | @unlock c q cpu =>
      have hsame := (setProc_state_chan s q (fun x => { x with lock := none }) (fun _ => ⟨rfl, rfl⟩) p).1
      exact fun hsleep => h.awake (hsame.symm.trans hsleep)
    | @dispatch c q cpu runnable =>
      rw [State.setCpu_procs, State.setProc_procs]
      by_cases hpq : p = q
      · subst hpq
        simp
      · rw [Function.update_of_ne hpq]
        exact h.awake
    | @thread c q effect pc event u cpu instr applied =>
      rw [State.setPc_procs]
      intro hsleep
      rcases applyEffect_state applied p with ⟨rfl, heff⟩ | hstate | ⟨-, hstate⟩
      · rw [hsleep] at heff
        rcases instr_leavesDown instr h.leaves (hunit c rfl cpu) with ⟨r, hev⟩ | ⟨-, hne⟩
        · exact hl r hev
        · exact hne heff
      · exact h.awake (hstate.symm.trans hsleep)
      · rw [hsleep] at hstate
        cases hstate
    | _ => exact h.awake

/-- The `kill` that finds a sleeper. -/
theorem kill_rouses {s t : State n κ} {c : κ} {k p : Fin n} {pid : Int} {i : Nat} {event : Event n} (hl : Locked s)
    (hp : SleepsOn s p i) (hc : s.cpus c = .run k) (hk : s.pcs k = .inside (.killBody pid p))
    (hpid : (s.procs p).pid = pid) (hstep : Step s (.cpu c, event) t) :
    Roused t p i ∧ (t.procs p).killed = true ∧ t.cpus c = .run k ∧ t.pcs k = .inside (.killRelease pid p true) := by
  have hkp : p ≠ k := by
    rintro rfl
    obtain ⟨j, hpc⟩ := hl.sleeping p hp.1
    rcases hpc with hpc | hpc <;> rw [hk] at hpc <;> cases hpc
  have htidy : s.pcs p = .inside (.sleepTidy i) := by
    obtain ⟨j, hpc⟩ := hl.sleeping p hp.1
    have hj := hl.chan p j (Or.inr hpc)
    rw [hp.2] at hj
    obtain rfl := Option.some.inj hj
    rcases hpc with hpc | hpc
    · -- Before `swtch` the process holds its own lock.
      obtain ⟨d, hd⟩ := hl.on_cpu (p := p) (by rw [hpc]; exact not_false)
      have hown : s.heldProc d = some p := by
        rw [heldProc_of_run hd, hpc]
        rfl
      have hheld : s.heldProc c = some p := by
        rw [heldProc_of_run hc, hk]
        rfl
      obtain rfl := hl.proc.unique hheld hown
      rw [hc] at hd
      cases hd
      exact absurd rfl hkp
    · exact hpc
  have hinstr : threadStep s k (s.pcs k) = some (.kill p, .inside (.killRelease pid p true), .silent) := by
    rw [hk]
    simp [threadStep, sectionStep, hpid]
  have happly : applyEffect s c k (.kill p) = some (s.setProc p fun x =>
      { x with killed := true, state := if x.state = .sleeping then .runnable else x.state }) := rfl
  have hkill := step_of_thread hc hinstr happly
  have h : cpuStep s c = some (event, t) := hstep
  have h' : cpuStep s c = some (.silent, _) := hkill
  rw [h'] at h
  cases h
  refine ⟨⟨?_, ?_⟩, ?_, hc, thread_pcs_self⟩
  · rw [thread_pcs happly hkp, htidy]
    exact rfl
  · simp [hp.1]
  · simp

/-- A `kill` that finds a process asleep in `sem_down` returns 0, and until it returns from the call the process does
    not go to sleep again exactly if each of its tests finds a unit. -/
theorem killed_stays_awake_iff {s₀ s t u : State n κ} {ls ms : List (Action κ × Event n)} {c : κ} {k p : Fin n}
    {pid : Int} {i : Nat} {event : Event n} (hboot : Boot s₀) (hls : Run Step s₀ ls s) (hp : SleepsOn s p i)
    (hc : s.cpus c = .run k) (hk : s.pcs k = .inside (.killBody pid p)) (hpid : (s.procs p).pid = pid)
    (hkill : Step s (.cpu c, event) t) (hms : Run Step t ms u) (hcall : ∀ l ∈ ms, ∀ r, l.2 ≠ .returned p r) :
    (t.procs p).killed = true ∧ Returns t k 0 ∧
    (AllStates Step t ms (fun v => ¬GoesToSleep v p i) ↔ AllSteps Step t ms (RetestsUnit p i)) := by
  have hl := locked_run hboot hls
  obtain ⟨hroused, hkilled, hct, hkt⟩ := kill_rouses hl hp hc hk hpid hkill
  refine ⟨hkilled, ?_, fun hall => ?_, fun hall => ?_⟩
  · exact returns_of_returning (locked_step hl hkill) (held_step hl (held_run hboot hls) hkill) hct
      (by rw [hkt]; exact rfl) (by simp [hkt])
  · refine hall.allSteps (fun _ _ _ _ => ofStep_det) (fun v l w _ hw hstep => ?_) hms
    intro d hact hd hpc hzero
    refine hw (Or.inl ?_)
    obtain ⟨a, event'⟩ := l
    obtain rfl := hact
    have h : cpuStep v d = some (event', w) := hstep
    simp only [cpuStep, hd, hpc, threadStep, sectionStep, downLoop, Semaphore.downLoop, hzero] at h
    cases h
    exact thread_pcs_self
  · have hreturns : AllSteps Step t ms fun _ l => ∀ r, l.2 ≠ .returned p r := AllSteps.of_mem fun l hl _ => hcall l hl
    have hawake : AllStates Step t ms fun v => Roused v p i :=
      (hall.and hreturns).allStates (fun v l w hv hl hstep => roused_step hv hl.1 hl.2 hstep) hroused
    exact hawake.mono fun _ hv => hv.not_goesToSleep

attribute [local instance] Transition.neZero_two

/-- Process 2 sleeps on semaphore 0, and process 1 is about to find it in `kill(2)`. -/
def killSleeper : List (Action (Fin 2)) := goToSleep ++ .call 0 (.kill 2) :: cpuSteps 0 4

theorem killSleeper_runs : (exec step (boot 2 (Fin 2)) killSleeper).isSome := by decide

def beforeKill : State 2 (Fin 2) := ((exec step (boot 2 (Fin 2)) killSleeper).get killSleeper_runs).2

theorem beforeKill_kills : (step beforeKill (.cpu 0)).isSome := by decide

def afterKill : State 2 (Fin 2) := ((step beforeKill (.cpu 0)).get beforeKill_kills).2

/-- `kill` returns, and the killed process finds no unit. -/
def sleepsAgain : List (Action (Fin 2)) := cpuSteps 0 2 ++ cpuSteps 1 13

theorem sleepsAgain_runs : (exec step afterKill sleepsAgain).isSome := by decide

def Event.returner? : Event n → Option (Fin n)
  | .returned p _ => some p
  | _ => none

theorem sleepsAgain_stays : ∀ l ∈ ((exec step afterKill sleepsAgain).get sleepsAgain_runs).1, ∀ r, l.2 ≠ .returned 1 r := by
  have hnone : ∀ l ∈ ((exec step afterKill sleepsAgain).get sleepsAgain_runs).1, l.2.returner? ≠ some 1 := by decide
  intro l hl r hev
  exact hnone l hl (by rw [hev]; rfl)

theorem killed_stays_awake_iff_sleeper :
    let ms := ((exec step afterKill sleepsAgain).get sleepsAgain_runs).1
    (afterKill.procs 1).killed = true ∧ Returns afterKill 0 0 ∧
    (AllStates Step afterKill ms (fun v => ¬GoesToSleep v 1 0) ↔ AllSteps Step afterKill ms (RetestsUnit 1 0)) :=
  killed_stays_awake_iff boot_boot (run_exec killSleeper_runs) ⟨by decide, by decide⟩ (by decide)
    (show beforeKill.pcs 0 = .inside (.killBody 2 1) by decide) (by decide) (Option.some_get beforeKill_kills).symm
    (run_exec sleepsAgain_runs) sleepsAgain_stays

theorem not_killed_stays_awake : ¬∀ (s₀ s t u : State 2 (Fin 2)) (ls ms : List (Action (Fin 2) × Event 2)) (a : Action (Fin 2))
    (c k p : Fin 2) (pid : Int) (i : Nat) (event : Event 2), Boot s₀ → Run Step s₀ ls s → SleepsOn s p i →
    s.cpus c = .run k → s.pcs k = .inside (.killBody pid p) → (s.procs p).pid = pid → Step s (.cpu c, event) t →
    Run Step t ms u → (a, .returned k 0) ∈ ms → (∀ l ∈ ms, ∀ r, l.2 ≠ .returned p r) → ¬SleepsOn u p i := by
  intro h
  have hawake := h _ _ _ _ _ _ (.cpu 0) 0 0 1 2 0 _ boot_boot (run_exec killSleeper_runs) ⟨by decide, by decide⟩
    (by decide) (by decide) (by decide) (Option.some_get beforeKill_kills).symm (run_exec sleepsAgain_runs) (by decide)
    sleepsAgain_stays
  exact hawake ⟨by decide, by decide⟩

end LabSO.Kernel

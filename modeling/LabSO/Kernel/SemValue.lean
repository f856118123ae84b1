import LabSO.Kernel.SemProgress

/-! What the value passed to `sem_open` decides. It is the bound of the counter: a `sem_up` that finds a sleeper finds
    the counter at 0, and is refused only where the bound is 0 as well. It is also the first value of the counter, where
    -1 marks a closed semaphore. -/

namespace LabSO.Kernel
open Transition

variable {n : Nat} {κ : Type}

variable [DecidableEq κ]

/-! ### Waking the sleepers -/

/-- A sleeper sleeps on until it is made runnable. -/
theorem sleepsOn_step {s t : State n κ} {l : Action κ × Event n} {p : Fin n} {i : Nat} (hl : Locked s)
    (h : SleepsOn s p i) (hstep : Step s l t) : SleepsOn t p i ∨ (t.procs p).state = .runnable := by
  cases step_inv hstep with
  | @scan c q cpu free =>
    have hsame := setProc_state_chan s q (fun x => { x with lock := some c }) (fun _ => ⟨rfl, rfl⟩) p
    exact Or.inl ⟨hsame.1.trans h.1, hsame.2.trans h.2⟩
  | @unlock c q cpu =>
    have hsame := setProc_state_chan s q (fun x => { x with lock := none }) (fun _ => ⟨rfl, rfl⟩) p
    exact Or.inl ⟨hsame.1.trans h.1, hsame.2.trans h.2⟩
  | @dispatch c q cpu runnable =>
    have hpq : p ≠ q := by
      rintro rfl
      rw [h.1] at runnable
      cases runnable
    left
    unfold SleepsOn
    rw [State.setCpu_procs, State.setProc_procs, Function.update_of_ne hpq]
    exact h
  | @thread c q effect pc event u cpu instr applied =>
    -- A process on a CPU sleeps only between its last write and `swtch`.
    have hself : p = q → effect = .swtch := by
      rintro rfl
      rcases hl.running c p cpu with hrunning | hleaving
      · rw [h.1] at hrunning
        cases hrunning
      · exact (threadStep_disciplined instr).leaving.mp hleaving
    unfold SleepsOn
    rw [State.setPc_procs]
    rcases applyEffect_state applied p with ⟨hpq, heff⟩ | hstate | ⟨-, hstate⟩
    · rw [hself hpq] at heff
      cases heff
    · rcases applyEffect_chan applied p with ⟨hpq, heff⟩ | hchan
      · rw [hself hpq] at heff
        cases heff
      · exact Or.inl ⟨hstate.trans h.1, hchan.trans h.2⟩
    · exact Or.inr hstate
  | _ => exact Or.inl h

/-- A process became runnable along the run. -/
def MadeRunnable (s : State n κ) (ls : List (Action κ × Event n)) (p : Fin n) : Prop :=
  ∃ ms t, ms <+: ls ∧ Run Step s ms t ∧ (t.procs p).state = .runnable

theorem MadeRunnable.append {s : State n κ} {ls : List (Action κ × Event n)} {p : Fin n} (h : MadeRunnable s ls p)
    (ms : List (Action κ × Event n)) : MadeRunnable s (ls ++ ms) p := by
  obtain ⟨ns, t, hns, hrun, hstate⟩ := h
  exact ⟨ns, t, hns.trans (List.prefix_append _ _), hrun, hstate⟩

/-- Until `wakeup` comes to a sleeper it sleeps on, and then it is runnable. -/
theorem wakeup_run {s t : State n κ} {ls : List (Action κ × Event n)} {p q : Fin n} {i : Nat} (hl : Locked s)
    (hh : Held s) (hp : SleepsOn s p i) (hq : (s.pcs q).Covers i p) (hrun : Run Step s ls t) :
    SleepsOn t p i ∧ (t.pcs q).Covers i p ∨ MadeRunnable s ls p := by
  induction hrun with
  | refl => exact Or.inl ⟨hp, hq⟩
  | @tail ms u l v hrun hstep ih =>
    rcases ih with ⟨hpu, hqu⟩ | hmade
    · obtain ⟨hlu, -⟩ := locked_held_run hl hh hrun
      rcases sleepsOn_step hlu hpu hstep with hpv | hrunnable
      · have hdrowsy := drowsy_of_sleepsOn hlu hpu
        rcases covers_step hstep hqu (drowsy_not_covers (Or.inl hdrowsy) hqu) with hqv | ⟨c, w, hc, hpc, ha, rfl⟩
        · exact Or.inl ⟨hpv, hqv⟩
        · have hne := drowsy_not_covers (Or.inl hdrowsy) hqu
          exact absurd (drowsy_of_sleepsOn (locked_step hlu hstep) hpv) (not_drowsy_of_wake hlu hne hc hpc ha)
      · exact Or.inr ⟨ms ++ [l], v, List.prefix_refl _, hrun.tail hstep, hrunnable⟩
    · exact Or.inr (hmade.append [l])

/-! ### What a `sem_up` finds -/

omit [DecidableEq κ] in
/-- A process that is asleep on a semaphore whose lock another process holds in `sem_up` found no unit. -/
theorem count_of_asleep {s : State n κ} {p q : Fin n} {i : Nat} (hl : Locked s) (h : NoLostWakeup s i)
    (hp : SleepsOn s p i) (hq : s.pcs q = .inside (.upBody i)) : (s.sems i).count = 0 := by
  rcases h p (drowsy_of_sleepsOn hl hp) with hzero | ⟨w, hw⟩
  · exact hzero
  · obtain rfl := hl.sem_unique (covers_heldSem hw).1 (show (s.pcs q).heldSem = some i by rw [hq]; rfl)
    rw [hq] at hw
    cases hw

theorem opened_nonneg {s t u : State n κ} {ls : List (Action κ × Event n)} {a : Action κ} {p : Fin n} {i : Nat}
    {value : Int} (hboot : Boot s) (hrun : Run Step s ls t) (hopens : ∀ l ∈ ls, l.1.OpensNonneg)
    (hopen : Step t (a, .opened p i value) u) : 0 ≤ value := by
  have hall : AllSteps Step s ls fun _ l => l.1.OpensNonneg := AllSteps.of_mem fun l hl _ => hopens l hl
  have hnonneg : ValuesMeet (fun x => 0 ≤ x) t := by
    refine hall.invariant (fun v l w hv hl hstep => valuesMeet_step hv (fun c sys y hact hy => ?_) hstep)
      (valuesMeet_boot hboot) hrun
    rw [hact] at hl
    exact hl y hy
  exact opened_value hnonneg hopen rfl

/-- While a semaphore is not closed, its bound is the value that it was opened with. -/
theorem bound_of_opened {s t : State n κ} {ls : List (Action κ × Event n)} {a : Action κ} {r : Fin n} {i : Nat}
    {value : Int} (hboot : Boot s) (hrun : Run Step s ls t) (hopens : ∀ l ∈ ls, l.1.OpensNonneg)
    (hclosed : ∀ l ∈ ls, ∀ q, l.2 ≠ .closed q i) (hopen : (a, .opened r i value) ∈ ls) : (t.sems i).bound = value := by
  obtain ⟨pre, post, rfl⟩ := List.append_of_mem hopen
  obtain ⟨u, hu, hrest⟩ := hrun.append_inv
  obtain ⟨v, hstep, hafter⟩ := hrest.cons_inv
  have hvalue := opened_nonneg hboot hu (fun l hl => hopens l (List.mem_append_left _ hl)) hstep
  have hint := (opened_value (valuesMeet_isInt hboot hu) hstep rfl).2
  exact (holds_run (opened_sem hstep) hvalue hint hafter fun l hl => hclosed l (by simp [hl])).1

theorem up_inv {s t : State n κ} {c : κ} {q : Fin n} {i : Nat} {event : Event n} (hc : s.cpus c = .run q)
    (hq : s.pcs q = .inside (.upBody i)) (hstep : Step s (.cpu c, event) t) (hcount : (s.sems i).count = 0) :
    t.cpus c = .run q ∧ t.procs = s.procs ∧
    ((s.sems i).bound ≠ 0 ∧ event = .up q i ∧ (t.sems i).count = 1 ∧ t.pcs q = .inside (.wakeup i 0) ∨
      (s.sems i).bound = 0 ∧ event = .silent ∧ t.sems = s.sems ∧ t.pcs q = .inside (.upRelease i 0)) := by
  have h : cpuStep s c = some (event, t) := hstep
  simp only [cpuStep, hc, hq, threadStep, sectionStep, Semaphore.upBody, hcount] at h
  by_cases hbound : (s.sems i).bound = 0
  · simp only [Int.reduceNeg, zero_eq_neg, one_ne_zero, if_false, hbound, if_true, zero_ne_one, Option.map_eq_some_iff,
      Prod.mk.injEq] at h
    obtain ⟨u, hu, rfl, rfl⟩ := h
    cases hu
    exact ⟨hc, rfl, Or.inr ⟨hbound, rfl, rfl, thread_pcs_self⟩⟩
  · simp only [Int.reduceNeg, zero_eq_neg, one_ne_zero, if_false, Ne.symm hbound, zero_add, if_true, Option.map_eq_some_iff,
      Prod.mk.injEq] at h
    obtain ⟨u, hu, rfl, rfl⟩ := h
    cases hu
    exact ⟨hc, rfl, Or.inl ⟨hbound, rfl, by simp [wrap32], thread_pcs_self⟩⟩

/-- While semaphores are opened with values from 0 and this one is not closed: a `sem_up` that finds a process asleep
    in `sem_down` increments, wakes every process asleep and returns 1, unless the semaphore was opened with 0; then it
    is refused. -/
theorem sem_up_wakes {s₀ s t : State n κ} {ls : List (Action κ × Event n)} {a : Action κ} {c : κ} {p q r : Fin n}
    {i : Nat} {value : Int} {event : Event n} (hboot : Boot s₀) (hrun : Run Step s₀ ls s)
    (hopens : ∀ l ∈ ls, l.1.OpensNonneg) (hclosed : ∀ l ∈ ls, ∀ q', l.2 ≠ .closed q' i)
    (hopen : (a, .opened r i value) ∈ ls) (hp : SleepsOn s p i) (hc : s.cpus c = .run q)
    (hq : s.pcs q = .inside (.upBody i)) (hstep : Step s (.cpu c, event) t) :
    (s.sems i).count = 0 ∧
    (1 ≤ value → event = .up q i ∧ (t.sems i).count = 1 ∧ Returns t q 1 ∧
      ∀ ms u b result p', Run Step t ms u → (b, .returned q result) ∈ ms → SleepsOn s p' i → MadeRunnable t ms p') ∧
    (value = 0 → event = .silent ∧ t.sems = s.sems ∧ t.procs = s.procs ∧ Returns t q 0) := by
  have hl := locked_run hboot hrun
  have hlt := locked_step hl hstep
  have hht := held_step hl (held_run hboot hrun) hstep
  have hlost := noLostWakeup_run hboot .refl (by simp [hboot.pcs, Pc.waits?, Point.waits?]) hrun hclosed
  have hcount := count_of_asleep hl hlost hp hq
  have hbound := bound_of_opened hboot hrun hopens hclosed hopen
  obtain ⟨hct, hprocs, hcases⟩ := up_inv hc hq hstep hcount
  refine ⟨hcount, fun hvalue => ?_, fun hvalue => ?_⟩
  · obtain ⟨-, hev, hone, hqt⟩ := hcases.resolve_right fun hzero => by omega
    refine ⟨hev, hone, ?_, fun ms u b result p' hms hmem hp' => ?_⟩
    · exact returns_of_returning hlt hht hct (by rw [hqt]; exact rfl) (by simp [hqt])
    · obtain ⟨pre, post, rfl⟩ := List.append_of_mem hmem
      obtain ⟨v, hv, hrest⟩ := hms.append_inv
      obtain ⟨w, hreturn, -⟩ := hrest.cons_inv
      have hp't : SleepsOn t p' i := by
        unfold SleepsOn
        rwa [hprocs]
      rcases wakeup_run hlt hht hp't (by rw [hqt]; exact ⟨rfl, Nat.zero_le _⟩) hv with ⟨-, hcovers⟩ | hmade
      · rw [made_returned hreturn rfl] at hcovers
        cases hcovers
      · exact hmade.append _
  · obtain ⟨-, hev, hsems, hqt⟩ := hcases.resolve_left fun hone => by omega
    exact ⟨hev, hsems, hprocs, returns_of_returning hlt hht hct (by rw [hqt]; exact rfl) (by simp [hqt])⟩

attribute [local instance] Transition.neZero_two

/-- Process 1 takes the only unit of semaphore 0, process 2 goes to sleep, and process 1 holds the lock in
    `sem_up(0)`. -/
def upBeforeSleeper : List (Action (Fin 2)) :=
  cpuSteps 0 3 ++ cpuSteps 1 6 ++ .call 0 (.semOpen 0 1) :: cpuSteps 0 4 ++ .call 0 (.semDown 0) :: cpuSteps 0 4 ++
    .call 1 (.semDown 0) :: cpuSteps 1 9 ++ .call 0 (.semUp 0) :: cpuSteps 0 1

theorem upBeforeSleeper_runs : (exec step (boot 2 (Fin 2)) upBeforeSleeper).isSome := by decide

def beforeUp : State 2 (Fin 2) := ((exec step (boot 2 (Fin 2)) upBeforeSleeper).get upBeforeSleeper_runs).2

theorem beforeUp_up : (step beforeUp (.cpu 0)).isSome := by decide

theorem sem_up_wakes_sleeper :
    let (event, t) := (step beforeUp (.cpu 0)).get beforeUp_up
    (beforeUp.sems 0).count = 0 ∧
    ((1 : Int) ≤ 1 → event = .up 0 0 ∧ (t.sems 0).count = 1 ∧ Returns t 0 1 ∧
      ∀ ms u b result p', Run Step t ms u → (b, .returned 0 result) ∈ ms → SleepsOn beforeUp p' 0 →
        MadeRunnable t ms p') ∧
    ((1 : Int) = 0 → event = .silent ∧ t.sems = beforeUp.sems ∧ t.procs = beforeUp.procs ∧ Returns t 0 0) :=
  sem_up_wakes (a := .cpu 0) (p := 1) (r := 0) boot_boot (run_exec upBeforeSleeper_runs) (by decide) (by decide)
    (by decide) ⟨by decide, by decide⟩ (by decide) (by decide) (Option.some_get beforeUp_up).symm

/-- Process 2 sleeps on semaphore 0, opened with no unit, and process 1 holds its lock in `sem_up(0)`. -/
def upOfNone : List (Action (Fin 2)) := goToSleep ++ .call 0 (.semUp 0) :: cpuSteps 0 1

theorem upOfNone_runs : (exec step (boot 2 (Fin 2)) upOfNone).isSome := by decide

theorem upOfNone_up : (step ((exec step (boot 2 (Fin 2)) upOfNone).get upOfNone_runs).2 (.cpu 0)).isSome := by decide

theorem not_sem_up_wakes_none : ¬∀ (s₀ s t : State 2 (Fin 2)) (ls : List (Action (Fin 2) × Event 2)) (c p q : Fin 2)
    (i : Nat) (event : Event 2), Boot s₀ → Run Step s₀ ls s → (∀ l ∈ ls, l.1.OpensNonneg) →
    (∀ l ∈ ls, ∀ q', l.2 ≠ .closed q' i) → SleepsOn s p i → s.cpus c = .run q → s.pcs q = .inside (.upBody i) →
    Step s (.cpu c, event) t → event = .up q i := by
  intro h
  have hup := h _ _ _ _ 0 1 0 0 _ boot_boot (run_exec upOfNone_runs) (by decide) (by decide) ⟨by decide, by decide⟩
    (by decide) (by decide) (Option.some_get upOfNone_up).symm
  exact absurd hup (by decide)

/-! ### What an opening is good for -/

/-- Until it is closed, a semaphore opened with the value is not opened again, and its counter is exact and stays
    between 0 and the value. -/
def StaysOpen (s : State n κ) (i : Nat) (value : Int) : Prop :=
  ∀ ls t, Run Step s ls t → (∀ l ∈ ls, ∀ q, l.2 ≠ .closed q i) →
    (∀ l ∈ ls, ∀ q v, l.2 ≠ .opened q i v) ∧
    (t.sems i).count = value - downs i ls + ups i ls ∧ 0 ≤ (t.sems i).count ∧ (t.sems i).count ≤ value

theorem staysOpen_of_opened {s t : State n κ} {a : Action κ} {p : Fin n} {i : Nat} {value : Int}
    (hstep : Step s (a, .opened p i value) t) (hvalue : 0 ≤ value) (hint : value < 2 ^ 31) : StaysOpen t i value := by
  intro ls u hrun hclosed
  refine ⟨fun l hl q v hev => ?_, (holds_run (opened_sem hstep) hvalue hint hrun hclosed).2⟩
  obtain ⟨pre, post, rfl⟩ := List.append_of_mem hl
  obtain ⟨w, hw, hrest⟩ := hrun.append_inv
  obtain ⟨x, hopen, -⟩ := hrest.cons_inv
  obtain ⟨-, -, hlow, -⟩ := holds_run (opened_sem hstep) hvalue hint hw fun l' hl' => hclosed l' (by simp [hl'])
  have hcount := count_of_opened hopen hev
  omega

/-- A process in its program can open a closed semaphore with any value. -/
theorem opens_from_user {s : State n κ} {c : κ} {p : Fin n} (x : Int) (hc : s.cpus c = .run p)
    (hp : s.pcs p = .at .user) (hfree : s.semLock 0 = none) (hclosed : (s.sems 0).count = -1) :
    ∃ ls t u a, Run Step s ls t ∧ Step t (a, .opened p 0 (argint x)) u := by
  set t := s.setPc p (.at (.openAcquire .syscall 0 (argint x))) with ht
  have hpt : t.pcs p = .at (.openAcquire .syscall 0 (argint x)) := thread_pcs_self
  have hcall : Step s (.call c (.semOpen 0 x), .silent) t := by
    have henter : enter (.semOpen 0 x) = .openAcquire .syscall 0 (argint x) := rfl
    simp [ofStep, step, hc, hp, henter, ht]
  set u := (t.setSemLock 0 (some c)).setPc p (.inside (.openBody .syscall 0 (argint x))) with hu
  have hpu : u.pcs p = .inside (.openBody .syscall 0 (argint x)) := thread_pcs_self
  have happly : applyEffect t c p (.acquireSem 0) = some (t.setSemLock 0 (some c)) := if_pos hfree
  have hacquire : Step t (.cpu c, .silent) u := step_of_thread hc (by rw [hpt]; rfl) happly
  have hbody : sectionStep u p (.openBody .syscall 0 (argint x)) = (.setSem 0 ⟨argint x, argint x⟩,
      .inside (.openRelease .syscall 0 (argint x) 1), .opened p 0 (argint x)) := by
    have hcount : (u.sems 0).count = -1 := hclosed
    simp [sectionStep, Semaphore.openBody, hcount]
  have hopen := step_of_thread (s := u) hc (by rw [hpu, threadStep, hbody]) rfl
  exact ⟨_, u, _, _, (Run.refl.tail hcall).tail hacquire, hopen⟩

/-- A first process comes to its program while all semaphores are closed. -/
theorem user_from_boot [Inhabited κ] : ∃ ls s, Run Step (boot (n + 1) κ) ls s ∧ s.cpus default = .run 0 ∧
    s.pcs 0 = .at .user ∧ s.semLock 0 = none ∧ (s.sems 0).count = -1 := by
  set s₁ := ((boot (n + 1) κ).setProc 0 fun x => { x with lock := some default }).setCpu default (.check 0) with hs₁
  set s₂ := (s₁.setProc 0 fun x => { x with state := .running }).setCpu default (.run 0) with hs₂
  set s₃ := (s₂.setProc 0 fun x => { x with lock := none }).setPc 0 (.at .user) with hs₃
  have hscan : Step (boot (n + 1) κ) (.cpu default, .silent) s₁ := by
    simp [ofStep, step, cpuStep, boot, hs₁]
  have hdispatch : Step s₁ (.cpu default, .silent) s₂ := by
    simp [ofStep, step, cpuStep, boot, hs₁, hs₂]
  have hrelease : Step s₂ (.cpu default, .silent) s₃ :=
    step_of_thread (p := 0) (by simp [hs₂]) (by simp [hs₂, hs₁, boot, threadStep]; rfl) rfl
  exact ⟨_, s₃, ((Run.refl.tail hscan).tail hdispatch).tail hrelease, by simp [hs₃, hs₂], thread_pcs_self, rfl, rfl⟩

/-- An opening with an `int` that a process passes stays in use and in range, in every run, exactly if the `int` is
    not negative. -/
theorem sem_open_in_use_iff [Inhabited κ] (x : Int) :
    (∀ (s₀ s t : State (n + 1) κ) (ls : List (Action κ × Event (n + 1))) (a : Action κ) (p : Fin (n + 1)) (i : Nat),
      Boot s₀ → Run Step s₀ ls s → Step s (a, .opened p i (argint x)) t → StaysOpen t i (argint x)) ↔
    0 ≤ argint x := by
  constructor
  · intro h
    obtain ⟨ls, s, hrun, hc, hp, hfree, hclosed⟩ := user_from_boot (n := n) (κ := κ)
    obtain ⟨ms, t, u, a, hms, hopen⟩ := opens_from_user x hc hp hfree hclosed
    obtain ⟨-, -, hlow, -⟩ := h _ _ _ _ _ _ _ boot_boot (hrun.trans hms) hopen [] u .refl (by simp)
    rwa [opened_sem hopen] at hlow
  · intro h s₀ s t ls a p i hboot hrun hopen
    exact staysOpen_of_opened hopen h (opened_value (valuesMeet_isInt hboot hrun) hopen rfl).2

/-- Process 1 opens semaphore 0 with -1. -/
def openMark : List (Action (Fin 2)) := cpuSteps 0 3 ++ .call 0 (.semOpen 0 (-1)) :: cpuSteps 0 1

/-- It does so again. -/
def openMarkAgain : List (Action (Fin 2)) := cpuSteps 0 2 ++ .call 0 (.semOpen 0 (-1)) :: cpuSteps 0 2

theorem openMark_runs : (exec step (boot 2 (Fin 2)) openMark).isSome := by decide

def beforeMark : State 2 (Fin 2) := ((exec step (boot 2 (Fin 2)) openMark).get openMark_runs).2

theorem beforeMark_opens : (step beforeMark (.cpu 0)).isSome := by decide

def afterMark : State 2 (Fin 2) := ((step beforeMark (.cpu 0)).get beforeMark_opens).2

theorem openMarkAgain_runs : (exec step afterMark openMarkAgain).isSome := by decide

theorem not_staysOpen_mark : ¬∀ (x : Int) (s₀ s t : State 2 (Fin 2)) (ls : List (Action (Fin 2) × Event 2))
    (a : Action (Fin 2)) (p : Fin 2) (i : Nat), Boot s₀ → Run Step s₀ ls s → Step s (a, .opened p i (argint x)) t →
    StaysOpen t i (argint x) := by
  intro h
  have hevent : ((step beforeMark (.cpu 0)).get beforeMark_opens).1 = .opened 0 0 (argint (-1)) := by decide
  have hopen : Step beforeMark (.cpu 0, .opened 0 0 (argint (-1))) afterMark :=
    (Option.some_get beforeMark_opens).symm.trans (congrArg some (Prod.ext hevent rfl))
  have hstays := h (-1) _ _ _ _ _ 0 0 boot_boot (run_exec openMark_runs) hopen
  obtain ⟨hnone, -⟩ := hstays _ _ (run_exec openMarkAgain_runs) (by decide)
  exact hnone (.cpu 0, .opened 0 0 (-1)) (by decide) 0 (-1) rfl

end LabSO.Kernel

import LabSO.Kernel.ProcKin

/-! `kill`. It marks a process by its pid, and the mark is gone when the slot is freed, but unused slots have the pid 0: a
    `kill(0)` that comes to one marks it, and returns 0, and the process that is forked there next is killed from the start. -/

namespace LabSO.Kernel.Procs
open Transition Locks

variable {n : Nat} {κ : Type} {init p : Fin n} {s t : State n κ} {pc pc' : Pc n} {effect : Effect n} {event : Event n}

/-- The argument of `kill`. -/
def Pc.kills : Pc n → Option Int
  | .at (.killScan pid _) => some pid
  | .inside (.killCheck pid _) => some pid
  | .inside (.killRelease pid _ _) => some pid
  | _ => none

/-- An unused slot is as `freeproc` leaves it. -/
def Clean (x : Proc n) : Prop := x.state = .unused → x.pid = 0 ∧ x.killed = false

/-- The next step is the test of `kill(0)` at a slot that is unused. -/
def TestsUnused (s : State n κ) (l : Action n κ × Event n) : Prop :=
  ∃ c p q, l.1 = .cpu c ∧ s.cpus c = .run p (.inside (.killCheck 0 q)) ∧ (s.procs q).state = .unused

/-- What a step may have to do with `kill`. -/
structure KillOk [DecidableEq κ] (init : Fin n) (s : State n κ) (l : Action n κ × Event n) : Prop where
  /-- `kill` returns 0 for the pid of a process. -/
  returns : ∀ p pid t, Step init s l t → l.2 = .killed p pid 0 → ∃ q, (s.procs q).pid = pid ∧ (s.procs q).state ≠ .unused
  /-- It changes the slot of a process with this pid, for which it is to return 0, and no other. -/
  changes : ∀ c p pc pid q t, l.1 = .cpu c → s.cpus c = .run p pc → pc.kills = some pid → Step init s l t →
    t.procs q ≠ s.procs q → (s.procs q).pid = pid ∧ (s.procs q).state ≠ .unused ∧
      t.cpus c = .run p (.inside (.killRelease pid q true))
  /-- A new process is not killed. -/
  fresh : ∀ q t, Step init s l t → (s.procs q).state = .unused → (t.procs q).state ≠ .unused → (t.procs q).killed = false

/-- A `kill` that has found its process holds the lock of the slot. -/
def Found (s : State n κ) : Prop :=
  ∀ p pid q, s.thread p = .inside (.killRelease pid q true) → (s.procs q).pid = pid ∧ (s.procs q).state ≠ .unused

/-- A write that leaves what `kill` looks at. -/
structure Marks (x y : Proc n) : Prop where
  pid : y.pid = x.pid
  used : x.state ≠ .unused → y.state ≠ .unused

theorem Marks.refl (x : Proc n) : Marks x x := ⟨rfl, id⟩

theorem Marks.wake (x : Proc n) (chan : Option (Chan n)) : Marks x (x.wake chan) := by
  unfold Proc.wake
  split
  · exact ⟨rfl, fun _ => by simp⟩
  · exact .refl x

theorem kill_used {x : Proc n} : x.kill.state = .unused ↔ x.state = .unused := by
  unfold Proc.kill
  by_cases h : x.state = .sleeping <;> simp [h]

theorem Marks.kill (x : Proc n) : Marks x x.kill := ⟨rfl, fun h => kill_used.not.mpr h⟩

theorem Marks.write {q r : Fin n} {x : Proc n} (h : Marks (s.procs q) x) : Marks (s.procs r) (Function.update s.procs q x r) := by
  by_cases hr : r = q
  · subst hr
    rwa [Function.update_self]
  · rw [Function.update_of_ne hr]
    exact .refl _

theorem Clean.write {q r : Fin n} {x : Proc n} (h : ∀ r, Clean (s.procs r)) (hx : Clean x) :
    Clean (Function.update s.procs q x r) := by
  by_cases hr : r = q
  · subst hr
    rwa [Function.update_self]
  · rw [Function.update_of_ne hr]
    exact h r

theorem Clean.wake {x : Proc n} {chan : Option (Chan n)} (h : Clean x) : Clean (x.wake chan) := by
  unfold Proc.wake
  split
  · exact fun hst => by cases hst
  · exact h

/-- Whoever does more to a slot holds its lock. -/
theorem SectionInstr.marks {sec : Section n} (h : SectionInstr init s p sec effect pc' event) (q : Fin n) :
    sec.heldProc p = some q ∨ Marks (s.procs q) (effect.procs s q) := by
  have hlock : ∀ r x, sec.heldProc p = some r → sec.heldProc p = some q ∨
      Marks (s.procs q) (Function.update s.procs r x q) := by
    intro r x hr
    by_cases hq : q = r
    · exact Or.inl (hq ▸ hr)
    · rw [Function.update_of_ne hq]
      exact Or.inr (.refl _)
  cases h with
  | create | drop | reap => exact hlock _ _ rfl
  | adopt | reparent | sleepTidy | setkilled => exact Or.inr (Marks.write ⟨rfl, id⟩)
  | start | die | sleepMark => exact Or.inr (Marks.write ⟨rfl, fun _ => by simp⟩)
  | wake => exact Or.inr (Marks.write (.wake _ _))
  | kill => exact Or.inr (Marks.write (.kill _))
  | _ => exact Or.inr (.refl _)

theorem Instr.marks (h : Instr init s p pc effect pc' event) (q : Fin n) :
    pc.heldProc p = some q ∨ Marks (s.procs q) (effect.procs s q) := by
  cases h with
  | inside instr => exact instr.marks q
  | yieldState => exact Or.inr (Marks.write ⟨rfl, fun _ => by simp⟩)
  | _ => exact Or.inr (.refl _)

theorem SectionInstr.clean {sec : Section n} (h : SectionInstr init s p sec effect pc' event) (hclean : ∀ q, Clean (s.procs q))
    (hp : (s.procs p).state ≠ .unused) (hok : ∀ q, sec = .killCheck 0 q → (s.procs q).state ≠ .unused) (q : Fin n) :
    Clean (effect.procs s q) := by
  cases h with
  | create | start | die | sleepMark => exact Clean.write hclean fun hst => by cases hst
  | drop | reap => exact Clean.write hclean fun _ => ⟨rfl, rfl⟩
  | @adopt np => exact Clean.write hclean (hclean np)
  | @reparent status q => exact Clean.write hclean (hclean q)
  | sleepTidy => exact Clean.write hclean (hclean p)
  | setkilled => exact Clean.write hclean fun hst => absurd hst hp
  | @wake chan q => exact Clean.write hclean (hclean q).wake
  | @kill pid q same =>
    refine Clean.write hclean fun hst => ?_
    have hunused := kill_used.mp hst
    have hzero := (hclean q hunused).1
    exact absurd hunused (hok q (by rw [← same, hzero]))
  | _ => exact hclean q

theorem Instr.clean (h : Instr init s p pc effect pc' event) (hclean : ∀ q, Clean (s.procs q))
    (hp : (s.procs p).state ≠ .unused) (hok : ∀ q, pc = .inside (.killCheck 0 q) → (s.procs q).state ≠ .unused) (q : Fin n) :
    Clean (effect.procs s q) := by
  cases h with
  | inside instr => exact instr.clean hclean hp (fun q hq => hok q (congrArg _ hq)) q
  | yieldState => exact Clean.write hclean fun hst => by cases hst
  | _ => exact hclean q

/-- Only `allocproc` takes an unused slot. -/
theorem SectionInstr.fresh {sec : Section n} (h : SectionInstr init s p sec effect pc' event) {q : Fin n}
    (hq : (s.procs q).state = .unused) (hp : (s.procs p).state ≠ .unused)
    (hmake : ∀ np pid, sec = .forkState np pid → (s.procs np).state ≠ .unused) (hq' : (effect.procs s q).state ≠ .unused) :
    (effect.procs s q).killed = (s.procs q).killed := by
  have hwrite : ∀ r x, (q = r → x.state = .unused) → (Function.update s.procs r x q).state ≠ .unused →
      (Function.update s.procs r x q).killed = (s.procs q).killed := by
    intro r x hx hne
    by_cases hqr : q = r
    · subst hqr
      rw [Function.update_self] at hne
      exact absurd (hx rfl) hne
    · rw [Function.update_of_ne hqr]
  cases h with
  | @create mem np =>
    by_cases hqr : q = np
    · subst hqr
      simp [Effect.procs]
    · simp [Effect.procs, hqr]
  | drop | reap => exact hwrite _ _ (fun _ => rfl) hq'
  | adopt | reparent => exact hwrite _ _ (fun heq => heq ▸ hq) hq'
  | @start np pid => exact hwrite _ _ (fun heq => absurd (heq ▸ hq) (hmake np pid rfl)) hq'
  | die | sleepMark | sleepTidy | setkilled => exact hwrite _ _ (fun heq => absurd (heq ▸ hq) hp) hq'
  | @wake chan r =>
    refine hwrite _ _ (fun heq => ?_) hq'
    rcases wake_state (s.procs r) chan with hst | ⟨hsleep, -⟩
    · rw [hst, ← heq, hq]
    · rw [← heq, hq] at hsleep
      cases hsleep
  | @kill pid r => exact hwrite _ _ (fun heq => kill_used.mpr (heq ▸ hq)) hq'
  | _ => rfl

theorem SectionInstr.found {sec : Section n} {pid : Int} {q : Fin n} (h : SectionInstr init s p sec effect pc' event)
    (hpc' : pc' = .inside (.killRelease pid q true)) :
    sec = .killCheck pid q ∧ (s.procs q).pid = pid ∧ effect = .write q (s.procs q).kill := by
  cases h with
  | kill same =>
    cases hpc'
    exact ⟨rfl, same, rfl⟩
  | @wakeupEnd chan j f => cases f <;> cases hpc'
  | _ => cases hpc'

theorem Instr.found {pid : Int} {q : Fin n} (h : Instr init s p pc effect pc' event)
    (hpc' : pc' = .inside (.killRelease pid q true)) :
    pc = .inside (.killCheck pid q) ∧ (s.procs q).pid = pid ∧ effect = .write q (s.procs q).kill := by
  cases h with
  | inside instr =>
    obtain ⟨rfl, hpid⟩ := instr.found hpc'
    exact ⟨rfl, hpid⟩
  | @reacquire f => cases f <;> cases hpc'
  | _ => cases hpc'

/-- What an instruction of `kill` changes. -/
theorem Instr.kills {pid : Int} {q : Fin n} (h : Instr init s p pc effect pc' event) (hkills : pc.kills = some pid)
    (hq : effect.procs s q ≠ s.procs q) :
    pc = .inside (.killCheck pid q) ∧ (s.procs q).pid = pid ∧ pc' = .inside (.killRelease pid q true) ∧
      effect.cpu p pc' = .run p pc' := by
  cases h with
  | inside instr =>
    cases instr with
    | @kill pid' r same =>
      by_cases hqr : q = r
      · subst hqr
        cases hkills
        exact ⟨rfl, same, rfl, rfl⟩
      · exact absurd (Function.update_of_ne hqr _ _) hq
    | killOther | killDone | killNext => exact absurd rfl hq
    | _ => cases hkills
  | killScan | killNone => exact absurd rfl hq
  | _ => cases hkills

theorem Instr.fresh (h : Instr init s p pc effect pc' event) {q : Fin n} (hq : (s.procs q).state = .unused)
    (hp : (s.procs p).state ≠ .unused) (hmake : ∀ np pid, pc = .inside (.forkState np pid) → (s.procs np).state ≠ .unused)
    (hq' : (effect.procs s q).state ≠ .unused) : (effect.procs s q).killed = (s.procs q).killed := by
  cases h with
  | inside instr => exact instr.fresh hq hp (fun np pid hsec => hmake np pid (congrArg _ hsec)) hq'
  | yieldState =>
    have hne : q ≠ p := fun heq => hp (heq ▸ hq)
    simp [Effect.procs, hne]
  | _ => rfl

theorem Instr.killed {p' : Fin n} {pid : Int} (h : Instr init s p pc effect pc' (.killed p' pid 0)) :
    ∃ q, pc = .inside (.killRelease pid q true) := by
  cases h with
  | inside instr =>
    cases instr
    exact ⟨_, rfl⟩

/-! ### Steps and runs -/

structure Mind (s : State n κ) : Prop where
  clean : ∀ q, Clean (s.procs q)
  found : Found s

/-- A process on a CPU has its slot. -/
theorem Sched.used {c : κ} (hs : Sched s) (hcpu : s.cpus c = .run p pc) : (s.procs p).state ≠ .unused := by
  rw [(hs.runs hcpu).1]
  rcases own_cases (p := p) pc with hown | ⟨hown | hown | hown, -⟩ <;> simp [hown]

theorem Mind.marks (h : Mind s) (hprocs : ∀ q, Marks (s.procs q) (t.procs q)) (hclean : ∀ q, Clean (t.procs q))
    (hfound : ∀ p pid q, t.thread p = .inside (.killRelease pid q true) → s.thread p = .inside (.killRelease pid q true)) :
    Mind t where
  clean := hclean
  found p pid q hthread := by
    obtain ⟨hpid, hused⟩ := h.found p pid q (hfound p pid q hthread)
    exact ⟨(hprocs q).pid.trans hpid, (hprocs q).used hused⟩

variable [DecidableEq κ] {c : κ}

theorem Mind.thread (h : Mind s) (hs : Sched s) (hl : Locked s) (hcpu : s.cpus c = .run p pc)
    (hinstr : Instr init s p pc effect pc' event) (ha : applyEffect s c effect = some t)
    (hok : ∀ q, pc = .inside (.killCheck 0 q) → (s.procs q).state ≠ .unused) :
    Mind (t.goTo c p (effect.cpu p pc') pc') where
  clean q := by
    rw [State.goTo_procs, applyEffect_procs ha]
    exact hinstr.clean h.clean (hs.used hcpu) hok q
  found r pid q hthread := by
    rw [State.goTo_procs, applyEffect_procs ha]
    by_cases hr : r = p
    · rw [hr, State.goTo_thread, Function.update_self] at hthread
      obtain ⟨rfl, hpid, rfl⟩ := hinstr.found hthread
      rw [Effect.procs, Function.update_self]
      refine ⟨hpid, kill_used.not.mpr fun hunused => ?_⟩
      have hzero := (h.clean q hunused).1
      exact hok q (by rw [← hpid, hzero]) hunused
    · rw [State.goTo_thread, Function.update_of_ne hr] at hthread
      have hwas : s.thread r = .inside (.killRelease pid q true) := by
        rcases applyEffect_thread ha r with hsame | ⟨-, hforkret⟩
        · exact hsame ▸ hthread
        · rw [hforkret] at hthread
          cases hthread
      obtain ⟨hpid, hused⟩ := h.found r pid q hwas
      rcases hinstr.marks q with hlock | hmarks
      · -- The thread that has found the process holds the lock.
        obtain ⟨d, hd⟩ := hs.on_cpu (p := r) (by rw [hwas]; exact id)
        have hdc : d = c := hl.proc.unique (a := q) (by rw [State.heldProc, hd, hwas]; rfl)
          (by rw [State.heldProc, hcpu]; exact hlock)
        rw [hdc, hcpu] at hd
        injection hd with hpr
        exact absurd hpr.symm hr
      · exact ⟨hmarks.pid.trans hpid, hmarks.used hused⟩

theorem mind_step {l : Action n κ × Event n} (h : Mind s) (hs : Sched s) (hl : Locked s) (hok : ¬TestsUnused s l)
    (hstep : Step init s l t) : Mind t := by
  have hgoTo : ∀ {r : Fin n} {k : Pc n}, (∀ pid q, k ≠ .inside (.killRelease pid q true)) → ∀ p pid q,
      Function.update s.thread r k p = .inside (.killRelease pid q true) →
      s.thread p = .inside (.killRelease pid q true) := by
    intro r k hk p pid q hp
    by_cases hpr : p = r
    · rw [hpr, Function.update_self] at hp
      exact absurd hp (hk pid q)
    · rwa [Function.update_of_ne hpr] at hp
  cases step_inv hstep with
  | scan | wrap | pass | set | restore | save | clear | unlock => exact h.marks (fun _ => .refl _) h.clean fun _ _ _ => id
  | @choose c q cpu runnable =>
    exact h.marks (fun r => Marks.write ⟨rfl, fun _ => by simp⟩) (fun r => Clean.write h.clean fun hst => by cases hst)
      fun _ _ _ => id
  | @interrupt q chan free =>
    exact h.marks (fun r => Marks.write (.wake _ _)) (fun r => Clean.write h.clean (h.clean q).wake) fun _ _ _ => id
  | enters cpu enters => exact h.marks (fun _ => .refl _) h.clean (hgoTo (by cases enters <;> simp))
  | unlockOther cpu => exact h.marks (fun _ => .refl _) h.clean (hgoTo (by simp))
  | @thread c p pc pc' effect event u cpu instr apply =>
    refine h.thread hs hl cpu instr apply fun q hpc hunused => hok ⟨c, p, q, rfl, ?_, hunused⟩
    rw [cpu, hpc]

omit [DecidableEq κ] in
theorem Boot.mind (h : Boot init s) : Mind s where
  clean q := by
    by_cases hq : q = init
    · rw [hq, h.first]
      exact fun hst => by cases hst
    · rw [h.unused q hq]
      exact fun _ => ⟨rfl, rfl⟩
  found p pid q hthread := by
    rw [h.thread] at hthread
    cases hthread

theorem mind_run {ls : List (Action n κ × Event n)} (hboot : Boot init s)
    (hall : AllSteps (Step init) s ls fun u l => ¬TestsUnused u l) (h : Run (Step init) s ls t) : Mind t := by
  induction h with
  | refl => exact hboot.mind
  | tail hrun hstep ih =>
    obtain ⟨hl, hs⟩ := sched_run hboot hrun
    exact mind_step (ih (hall.of_prefix (List.prefix_append _ _))) hs hl (hall _ _ _ (List.prefix_refl _) hrun) hstep

/-- What a step does to the table. -/
theorem step_procs {l : Action n κ × Event n} (hstep : Step init s l t) :
    t.procs = s.procs ∨ (∃ c p pc pc' effect, l.1 = .cpu c ∧ s.cpus c = .run p pc ∧ Instr init s p pc effect pc' l.2 ∧
      t.procs = effect.procs s ∧ t.cpus c = effect.cpu p pc') ∨
    ∃ q x, t.procs = Function.update s.procs q x ∧ ((s.procs q).state = .unused → x.state = .unused) ∧
      ∀ c p pc, l.1 = .cpu c → s.cpus c ≠ .run p pc := by
  cases step_inv hstep with
  | @choose c q cpu runnable =>
    refine Or.inr (Or.inr ⟨q, _, rfl, fun hst => ?_, fun d p pc hd hrun => ?_⟩)
    · rw [runnable] at hst
      cases hst
    · cases hd
      rw [cpu] at hrun
      cases hrun
  | @interrupt q chan free =>
    refine Or.inr (Or.inr ⟨q, _, rfl, fun hst => ?_, fun d p pc hd => by cases hd⟩)
    rcases wake_state (s.procs q) (some (.other chan)) with hsame | ⟨hsleep, -⟩
    · rw [hsame, hst]
    · rw [hst] at hsleep
      cases hsleep
  | @thread c p pc pc' effect event u cpu instr apply =>
    have hprocs := applyEffect_procs apply
    refine Or.inr (Or.inl ⟨c, p, pc, pc', effect, rfl, cpu, instr, hprocs, ?_⟩)
    rw [State.goTo_cpus, Function.update_self]
  | _ => exact Or.inl rfl

theorem Mind.killOk {l : Action n κ × Event n} (h : Mind s) (hs : Sched s) (hok : ¬TestsUnused s l) : KillOk init s l where
  returns p pid t hstep hl := by
    obtain ⟨action, event⟩ := l
    obtain rfl : event = .killed p pid 0 := hl
    cases step_inv hstep with
    | thread cpu instr =>
      obtain ⟨q, rfl⟩ := instr.killed
      exact ⟨q, h.found _ pid q (hs.runs cpu).2⟩
  changes c p pc pid q t hl hcpu hkills hstep hq := by
    rcases step_procs hstep with hsame | ⟨d, p', pc₀, pc', effect, hd, hcpu', hinstr, hprocs, hcpus⟩ | ⟨r, x, -, -, hno⟩
    · rw [hsame] at hq
      exact absurd rfl hq
    · obtain rfl : c = d := by
        rw [hl] at hd
        cases hd
        rfl
      rw [hcpu] at hcpu'
      cases hcpu'
      rw [hprocs] at hq
      obtain ⟨rfl, hpid, rfl, hrun⟩ := hinstr.kills hkills hq
      refine ⟨hpid, fun hunused => ?_, hcpus.trans hrun⟩
      have hzero := (h.clean q hunused).1
      exact hok ⟨c, p, q, hl, by rw [hcpu, ← hpid, hzero], hunused⟩
    · exact absurd hcpu (hno c p pc hl)
  fresh q t hstep hunused hused := by
    rcases step_procs hstep with hsame | ⟨d, p', pc₀, pc', effect, hd, hcpu', hinstr, hprocs, -⟩ | ⟨r, x, hprocs, hx, -⟩
    · rw [hsame] at hused
      exact absurd hunused hused
    · rw [hprocs] at hused ⊢
      rw [hinstr.fresh hunused (hs.used hcpu') (fun np pid hpc => ?_) hused]
      · exact (h.clean q hunused).2
      · have hm : (s.thread p').making = some ⟨np, some pid, true, true⟩ := by rw [(hs.runs hcpu').2, hpc]; rfl
        rw [(hs.making p' _ hm).state]
        simp [Making.state]
    · rw [hprocs] at hused
      by_cases hqr : q = r
      · subst hqr
        rw [Function.update_self] at hused
        exact absurd (hx hunused) hused
      · rw [Function.update_of_ne hqr] at hused
        exact absurd hunused hused

/-- As long as no `kill(0)` tests an unused slot, `kill` is about processes only. -/
theorem kill_run {ls : List (Action n κ × Event n)} (hboot : Boot init s)
    (hall : AllSteps (Step init) s ls fun u l => ¬TestsUnused u l) :
    AllStates (Step init) s ls (fun u => ∀ q, (u.procs q).state = .unused → (u.procs q).killed = false) ∧
      AllSteps (Step init) s ls (KillOk init) := by
  refine ⟨fun ms u hms hrun q hq => ?_, fun ms l u hms hrun => ?_⟩
  · exact ((mind_run hboot (hall.of_prefix hms) hrun).clean q hq).2
  · have hms' : ms <+: ls := (List.prefix_append ms [l]).trans hms
    exact (mind_run hboot (hall.of_prefix hms') hrun).killOk (sched_run hboot hrun).2 (hall ms l u hms hrun)

/-- The first process kills itself by its pid. -/
def killFirst : List (Action 2 Unit) :=
  List.replicate 5 (.cpu ()) ++ [.request () (.kill 1)] ++ List.replicate 4 (.cpu ())

theorem killFirst_runs : (exec (step 0) (boot Unit 0) killFirst).isSome := by decide

/-- The CPU finds an unused slot whose number is 0. -/
def findsUnused (s : State 2 Unit) : Bool :=
  match s.cpus () with
  | .run _ (.inside (.killCheck pid q)) => decide (pid = 0 ∧ (s.procs q).state = .unused)
  | _ => false

theorem kill_run_first :
    let r := (exec (step 0) (boot Unit 0) killFirst).get killFirst_runs
    (r.1.map (·.2)).contains (.killed 0 1 0) ∧ (r.2.procs 0).killed = true ∧
      AllStates (Step 0) (boot Unit 0) r.1 (fun u => ∀ q, (u.procs q).state = .unused → (u.procs q).killed = false) ∧
      AllSteps (Step 0) (boot Unit 0) r.1 (KillOk 0) := by
  have hnone : ∀ x ∈ steps (step 0) (boot Unit 0) killFirst, findsUnused x.1 = false := by decide
  refine ⟨by decide, by decide, kill_run (boot_boot _) (allSteps_exec killFirst_runs fun x hx => ?_)⟩
  rintro ⟨c, p, q, -, hcpu, hunused⟩
  have hx := hnone x hx
  rw [findsUnused, hcpu] at hx
  simp [hunused] at hx

/-- The first process calls `kill(0)`. -/
def killUnused : List (Action 2 Unit) := List.replicate 5 (.cpu ()) ++ [.request () (.kill 0)] ++ List.replicate 7 (.cpu ())

theorem killUnused_runs : (exec (step 0) (boot Unit 0) killUnused).isSome := by decide

/-- Then it forks. -/
def killThenFork : List (Action 2 Unit) := killUnused ++ [.request () (.fork .enough)] ++ List.replicate 17 (.cpu ())

theorem killThenFork_runs : (exec (step 0) (boot Unit 0) killThenFork).isSome := by decide

/-- The call returns 0, it leaves an unused slot that is killed, and so is the child from the start. -/
theorem not_kill_run :
    let r := (exec (step 0) (boot Unit 0) killThenFork).get killThenFork_runs
    (¬∀ (s : State 2 Unit) (ls : List (Action 2 Unit × Event 2)), Boot 0 s →
      AllStates (Step 0) s ls (fun u => ∀ q, (u.procs q).state = .unused → (u.procs q).killed = false) ∧
        AllSteps (Step 0) s ls (KillOk 0)) ∧
      (r.1.map (·.2)).contains (.killed 0 0 0) ∧ (r.1.map (·.2)).contains (.forked 0 1 2) ∧ (r.2.procs 1).killed = true := by
  refine ⟨fun h => ?_, by decide, by decide, by decide⟩
  have hclean := (h _ _ (boot_boot 0)).1 _ _ (List.prefix_refl _) (run_exec killUnused_runs) 1 (by decide)
  exact absurd hclean (by decide)

end LabSO.Kernel.Procs

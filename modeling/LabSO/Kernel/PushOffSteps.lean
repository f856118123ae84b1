import LabSO.Kernel.PushOff

/-! What a CPU and the thread it runs agree on, and the statements of `spinlock.c` that keep it. -/

namespace LabSO.Kernel.PushOff

variable {κ P Λ : Type}

/-- The lock that a thread has besides those it has taken, on its way through `acquire` or `release`. -/
def Pc.lock : Pc P Λ → Option (Lock P Λ)
  | .acquireOwn l | .releaseClear l | .releaseUnlock l => some l
  | _ => none

/-- What a thread runs into only by nesting wrongly. -/
def Panic.Possible : Panic → Prop
  | .release | .interruptible | .popOff => False
  | _ => True

/-- Where a trap can find a thread. -/
def Pc.Interruptible : Pc P Λ → Prop
  | .out => True
  | .pushOff old _ => old = true
  | .panic m => m.Possible ∧ m ≠ .acquire
  | _ => False

/-- A thread off its CPU: it called `sched`, or it has not run yet. -/
structure Parked (p : P) (t : Kthread P Λ) : Prop where
  held : t.held = [.proc p]
  bare : t.bare = 0
  pc : t.pc = .out ∨ ∃ v, t.pc = .restore v
  below : ∀ k ∈ t.below, k.Interruptible

/-- A CPU and the thread it runs; `owner` says on which CPU each lock is. -/
structure Runs (owner : Lock P Λ → Option κ) (locks : Lock P Λ → Spinlock κ) (c : κ) (u : Cpu P) (t : Kthread P Λ) :
    Prop where
  noff : u.noff = t.depth
  off : 0 < t.depth → u.intr = false
  old : ∀ old next, t.pc = .pushOff old next → old = u.intr
  held : ∀ l ∈ t.held, owner l = some c ∧ (locks l).cpu = some c
  nodup : t.held.Nodup
  taken : ∀ l, t.pc.lock = some l → owner l = some c ∧ l ∉ t.held
  cpu : ∀ l, (locks l).cpu = some c → l ∈ t.held ∨ t.pc = .releaseClear l
  restoring : ∀ v, t.pc = .restore v → t.held ≠ []
  below : ∀ k ∈ t.below, k.Interruptible
  sound : ∀ m, t.pc = .panic m → m.Possible

/-- Each lock is on one CPU, each process on at most one, and a process that others may dispatch is on none. -/
structure Inv (owner : Lock P Λ → Option κ) (s : State κ P Λ) : Prop where
  locked : ∀ l, (s.locks l).locked = (owner l).isSome
  runs : ∀ c, Runs owner s.locks c (s.cpus c) (s.thread c)
  parked : ∀ p, (∀ c, (s.cpus c).proc ≠ some p) → Parked p (s.threads (.proc p))
  loop : ∀ c p, (s.cpus c).proc = some p → s.threads (.scheduler c) = ⟨.out, [], [.proc p], 0⟩
  alone : ∀ c c' p, (s.cpus c).proc = some p → (s.cpus c').proc = some p → c = c'
  leaving : ∀ c p, (s.cpus c).proc = some p → s.states p = .running ∨ .proc p ∈ (s.thread c).held

/-- `b` is what the outermost `pop_off` of the thread will find in `intena`. -/
def Keeps (b : Bool) (u : Cpu P) (t : Kthread P Λ) : Prop :=
  match t.pc with
  | .restore v => v = b
  | _ => u.intena = b

/-- A step of a thread on its CPU: what it means for `Keeps` above depth zero, on the way up and on the way back. -/
structure Keeping (u : Cpu P) (t : Kthread P Λ) (u' : Cpu P) (t' : Kthread P Λ) : Prop where
  stay : ∀ b, 0 < t.depth → 0 < t'.depth → Keeps b u t → Keeps b u' t'
  leave : t.depth = 0 → 0 < t'.depth → Keeps u.intr u' t'
  back : ∀ b, 0 < t.depth → t'.depth = 0 → Keeps b u t → u'.intr = b

section Current
variable {owner owner' : Lock P Λ → Option κ} {s t : State κ P Λ} {c c' : κ} {p q : P} {l : Lock P Λ}

theorem current_of_proc (h : (s.cpus c).proc = some p) : s.current c = .proc p := by
  simp only [State.current, h]

theorem current_of_none (h : (s.cpus c).proc = none) : s.current c = .scheduler c := by
  simp only [State.current, h]

theorem proc_of_current (h : s.current c = .proc p) : (s.cpus c).proc = some p := by
  unfold State.current at h
  split at h
  · cases h
    assumption
  · cases h

theorem proc_of_scheduler (h : s.current c = .scheduler c') : (s.cpus c).proc = none := by
  unfold State.current at h
  split at h
  · cases h
  · assumption

theorem thread_of_proc (h : (s.cpus c).proc = some p) : s.thread c = s.threads (.proc p) := by
  rw [State.thread, current_of_proc h]

theorem current_congr (h : (t.cpus c).proc = (s.cpus c).proc) : t.current c = s.current c := by
  simp only [State.current, h]

theorem Inv.current_ne (h : Inv owner s) (hne : c' ≠ c) : s.current c' ≠ s.current c := by
  intro heq
  cases hp : (s.cpus c).proc with
  | some p =>
    rw [current_of_proc hp] at heq
    exact hne (h.alone _ _ _ (proc_of_current heq) hp)
  | none =>
    rw [current_of_none hp] at heq
    cases hq : (s.cpus c').proc with
    | some q =>
      rw [current_of_proc hq] at heq
      cases heq
    | none =>
      rw [current_of_none hq] at heq
      cases heq
      exact hne rfl

/-- A process is on its CPU at most, if its lock is free or with another thread and its state says that it does not run. -/
theorem Inv.not_current (h : Inv owner s) (hq : .proc q ∈ (s.thread c).held) (hne : s.current c ≠ .proc q)
    (hstate : s.states q ≠ .running) : (s.cpus c').proc ≠ some q := by
  intro hon
  have hheld := (h.leaving c' q hon).resolve_left hstate
  have hthere := ((h.runs c').held _ hheld).1
  rw [((h.runs c).held _ hq).1] at hthere
  cases hthere
  exact hne (current_of_proc hon)

end Current

/-! ### Steps of the thread of a CPU -/

/-- `t` is `s` after a step of the thread on the CPU `c`. -/
structure Local (owner owner' : Lock P Λ → Option κ) (c : κ) (s t : State κ P Λ) : Prop where
  cpus : ∀ c', c' ≠ c → t.cpus c' = s.cpus c'
  proc : (t.cpus c).proc = (s.cpus c).proc
  threads : ∀ τ, τ ≠ s.current c → t.threads τ = s.threads τ
  states : t.states = s.states
  locked : ∀ l, (t.locks l).locked = (owner' l).isSome
  owner : ∀ l c', c' ≠ c → owner l = some c' → owner' l = some c' ∧ t.locks l = s.locks l
  cpu : ∀ l c', c' ≠ c → (t.locks l).cpu = some c' → (s.locks l).cpu = some c'
  runs : Runs owner' t.locks c (t.cpus c) (t.thread c)
  leaving : ∀ p, (s.cpus c).proc = some p → s.states p = .running ∨ .proc p ∈ (t.thread c).held
  keeping : Keeping (s.cpus c) (s.thread c) (t.cpus c) (t.thread c)

section Local
variable {owner owner' : Lock P Λ → Option κ} {s t : State κ P Λ} {c c' : κ} {p q : P} {l : Lock P Λ}

theorem Local.proc_eq (hl : Local owner owner' c s t) (c' : κ) : (t.cpus c').proc = (s.cpus c').proc := by
  by_cases hc : c' = c
  · rw [hc, hl.proc]
  · rw [hl.cpus c' hc]

theorem Local.thread_eq (h : Inv owner s) (hl : Local owner owner' c s t) (hc : c' ≠ c) : t.thread c' = s.thread c' := by
  rw [State.thread, State.thread, current_congr (hl.proc_eq c'), hl.threads _ (h.current_ne hc)]

/-- What another CPU has is left alone. -/
theorem Runs.frame {u : Cpu P} {k : Kthread P Λ} {locks locks' : Lock P Λ → Spinlock κ} (h : Runs owner locks c u k)
    (howner : ∀ l, owner l = some c → owner' l = some c ∧ locks' l = locks l)
    (hcpu : ∀ l, (locks' l).cpu = some c → (locks l).cpu = some c) : Runs owner' locks' c u k := by
  refine { h with held := fun l hmem => ?_, taken := fun l hpc => ?_, cpu := fun l hc => h.cpu l (hcpu l hc) }
  · obtain ⟨hown, hc⟩ := h.held l hmem
    obtain ⟨hown', hlk⟩ := howner l hown
    exact ⟨hown', by rwa [hlk]⟩
  · obtain ⟨hown, hmem⟩ := h.taken l hpc
    exact ⟨(howner l hown).1, hmem⟩

theorem Local.inv (h : Inv owner s) (hl : Local owner owner' c s t) : Inv owner' t where
  locked := hl.locked
  runs c' := by
    by_cases hc : c' = c
    · rw [hc]
      exact hl.runs
    · rw [hl.cpus c' hc, hl.thread_eq h hc]
      exact (h.runs c').frame (fun l => hl.owner l c' hc) fun l => hl.cpu l c' hc
  parked p hp := by
    have hp' : ∀ c', (s.cpus c').proc ≠ some p := fun c' => hl.proc_eq c' ▸ hp c'
    have hne : Thread.proc p ≠ s.current c := fun heq => hp' c (proc_of_current heq.symm)
    rw [hl.threads _ hne]
    exact h.parked p hp'
  loop c' p hp := by
    rw [hl.proc_eq] at hp
    have hne : Thread.scheduler c' ≠ s.current c := by
      intro heq
      by_cases hc : c' = c
      · rw [hc] at hp
        rw [current_of_proc hp] at heq
        cases heq
      · have hproc := heq.symm
        unfold State.current at hproc
        split at hproc
        · cases hproc
        · cases hproc
          exact hc rfl
    rw [hl.threads _ hne]
    exact h.loop c' p hp
  alone c₁ c₂ p h₁ h₂ := by
    rw [hl.proc_eq] at h₁ h₂
    exact h.alone c₁ c₂ p h₁ h₂
  leaving c' p hp := by
    rw [hl.proc_eq] at hp
    rw [hl.states]
    by_cases hc : c' = c
    · rw [hc] at hp ⊢
      exact hl.leaving p hp
    · rw [hl.thread_eq h hc]
      exact h.leaving c' p hp

end Local

/-! ### `spinlock.c` -/

section Code
variable {owner : Lock P Λ → Option κ} {locks : Lock P Λ → Spinlock κ} {s : State κ P Λ} {c : κ} {u u' : Cpu P}
  {t t' : Kthread P Λ} {k : Pc P Λ} {l : Lock P Λ} {b : Bool}

theorem keeps_iff (h : ∀ v, t.pc ≠ .restore v) : Keeps b u t ↔ u.intena = b := by
  unfold Keeps
  split
  · next hpc => exact absurd hpc (h _)
  · rfl

theorem Keeping.of_depth (hdepth : t'.depth = t.depth) (h : ∀ b, Keeps b u t → Keeps b u' t') : Keeping u t u' t' where
  stay b _ _ := h b
  leave hzero hpos := by omega
  back b hpos hzero := by omega

/-- Depth, `intena` and the way of the thread to `sched` are as they were. -/
theorem Keeping.same (hdepth : t'.depth = t.depth) (hena : u'.intena = u.intena) (hpc : ∀ v, t.pc ≠ .restore v)
    (hpc' : ∀ v, t'.pc ≠ .restore v) : Keeping u t u' t' :=
  .of_depth hdepth fun b h => by
    rw [keeps_iff hpc'] 
    rwa [keeps_iff hpc, ← hena] at h

theorem Runs.depth_zero (h : Runs owner locks c u t) (hintr : u.intr = true) : t.depth = 0 := by
  by_contra hne
  have hoff := h.off (Nat.pos_of_ne_zero hne)
  rw [hintr] at hoff
  cases hoff

/-- The thread goes on elsewhere. -/
theorem Runs.goto (h : Runs owner locks c u t) (hpend : k.pending = t.pc.pending) (hnot : ∀ l, t.pc ≠ .releaseClear l)
    (hold : ∀ old next, k = .pushOff old next → old = u.intr) (hlock : k.lock = none) (hrestore : ∀ v, k ≠ .restore v)
    (hsound : ∀ m, k = .panic m → m.Possible) : Runs owner locks c u (t.goto k) := by
  have hdepth : (t.goto k).depth = t.depth := by simp only [Kthread.depth, Kthread.goto, hpend]
  refine { h with noff := ?_, off := ?_, old := hold, taken := ?_, cpu := ?_, restoring := ?_, sound := hsound }
  · rw [hdepth, h.noff]
  · rw [hdepth]
    exact h.off
  · intro l hl
    rw [Kthread.goto, hlock] at hl
    cases hl
  · intro l hl
    exact .inl ((h.cpu l hl).resolve_right (hnot l))
  · intro v hv
    exact absurd hv (hrestore v)

end Code

section Set
variable {owner : Lock P Λ → Option κ} {s t : State κ P Λ} {c : κ} {u : Cpu P} {k : Kthread P Λ} {l : Lock P Λ}
  {lk : Spinlock κ}

/-- A thread that keeps its locks keeps the one it leaves with. -/
theorem Inv.leaves (h : Inv owner s) (hsub : (s.thread c).held ⊆ k.held) (p : P) (hp : (s.cpus c).proc = some p) :
    s.states p = .running ∨ .proc p ∈ k.held :=
  (h.leaving c p hp).imp_right fun hmem => hsub hmem

variable [DecidableEq P]

section SetLock
variable [DecidableEq Λ]

@[simp] theorem setLock_cpus : (s.setLock l lk).cpus = s.cpus := rfl

@[simp] theorem setLock_thread : (s.setLock l lk).thread c = s.thread c := rfl

theorem setLock_locks_self : (s.setLock l lk).locks l = lk := Function.update_self ..

theorem setLock_locks_of_ne {l' : Lock P Λ} (h : l' ≠ l) : (s.setLock l lk).locks l' = s.locks l' := Function.update_of_ne h ..

end SetLock

variable [DecidableEq κ]

@[simp] theorem set_cpus_self : (s.set c u k).cpus c = u := Function.update_self ..

theorem set_cpus_of_ne {c' : κ} (h : c' ≠ c) : (s.set c u k).cpus c' = s.cpus c' := Function.update_of_ne h ..

theorem set_threads_of_ne {τ : Thread κ P} (h : τ ≠ s.current c) : (s.set c u k).threads τ = s.threads τ :=
  Function.update_of_ne h ..

theorem set_thread (h : u.proc = (s.cpus c).proc) : (s.set c u k).thread c = k := by
  have hcurrent : (s.set c u k).current c = s.current c := current_congr (by rw [set_cpus_self, h])
  rw [State.thread, hcurrent]
  exact Function.update_self ..

theorem Local.set (h : Inv owner s) (hproc : u.proc = (s.cpus c).proc) (hruns : Runs owner s.locks c u k)
    (hleave : ∀ p, (s.cpus c).proc = some p → s.states p = .running ∨ .proc p ∈ k.held)
    (hkeep : Keeping (s.cpus c) (s.thread c) u k) : Local owner owner c s (s.set c u k) where
  cpus _ := set_cpus_of_ne
  proc := by rw [set_cpus_self, hproc]
  threads _ := set_threads_of_ne
  states := rfl
  locked := h.locked
  owner _ _ _ hown := ⟨hown, rfl⟩
  cpu _ _ _ := id
  runs := by
    rw [set_cpus_self, set_thread hproc]
    exact hruns
  leaving := by
    rw [set_thread hproc]
    exact hleave
  keeping := by
    rw [set_cpus_self, set_thread hproc]
    exact hkeep

/-- A step with a lock that is free or on this CPU. -/
theorem Local.setLock [DecidableEq Λ] {o : Option κ} (h : Inv owner s) (hproc : u.proc = (s.cpus c).proc)
    (howner : ∀ c', owner l = some c' → c' = c) (hlocked : lk.locked = o.isSome)
    (hcpu : ∀ c', c' ≠ c → lk.cpu = some c' → (s.locks l).cpu = some c')
    (hruns : Runs (Function.update owner l o) (Function.update s.locks l lk) c u k)
    (hleave : ∀ p, (s.cpus c).proc = some p → s.states p = .running ∨ .proc p ∈ k.held)
    (hkeep : Keeping (s.cpus c) (s.thread c) u k) :
    Local owner (Function.update owner l o) c s ((s.set c u k).setLock l lk) where
  cpus _ := set_cpus_of_ne (k := k)
  proc := by rw [setLock_cpus, set_cpus_self, hproc]
  threads _ := set_threads_of_ne (u := u)
  states := rfl
  locked l' := by
    by_cases hl : l' = l
    · subst hl
      rw [Function.update_self, setLock_locks_self, hlocked]
    · rw [Function.update_of_ne hl, setLock_locks_of_ne hl]
      exact h.locked l'
  owner l' c' hc hown := by
    have hl : l' ≠ l := by
      rintro rfl
      exact hc (howner c' hown)
    rw [Function.update_of_ne hl, setLock_locks_of_ne hl]
    exact ⟨hown, rfl⟩
  cpu l' c' hc hon := by
    by_cases hl : l' = l
    · subst hl
      rw [setLock_locks_self] at hon
      exact hcpu c' hc hon
    · rwa [setLock_locks_of_ne hl] at hon
  runs := by
    rw [setLock_cpus, setLock_thread, set_cpus_self, set_thread hproc]
    exact hruns
  leaving := by
    rw [setLock_thread, set_thread hproc]
    exact hleave
  keeping := by
    rw [setLock_cpus, setLock_thread, set_cpus_self, set_thread hproc]
    exact hkeep

/-- A thread that goes on elsewhere, with all else as it was. -/
theorem Inv.goto {k : Pc P Λ} (h : Inv owner s) (hpend : k.pending = (s.thread c).pc.pending)
    (hnot : ∀ l, (s.thread c).pc ≠ .releaseClear l)
    (hold : ∀ old next, k = .pushOff old next → old = (s.cpus c).intr) (hlock : k.lock = none)
    (hpc : ∀ v, (s.thread c).pc ≠ .restore v) (hrestore : ∀ v, k ≠ .restore v)
    (hsound : ∀ m, k = .panic m → m.Possible) : Local owner owner c s (s.goto c k) := by
  refine .set h rfl ((h.runs c).goto hpend hnot hold hlock hrestore hsound) (h.leaves fun _ => id) ?_
  refine .same ?_ rfl hpc hrestore
  simp only [Kthread.depth, Kthread.goto, hpend]

variable [DecidableEq Λ]

/-- The first statement of a call. -/
theorem local_call {r : Request P Λ} (h : Inv owner s) (hpc : (s.thread c).pc = .out) (hstep : s.call c r = some t) :
    Local owner owner c s t := by
  have hr := h.runs c
  cases r with
  | pushOff =>
    cases hstep
    refine h.goto (by rw [hpc]; rfl) (by rw [hpc]; nofun) ?_ rfl (by rw [hpc]; nofun) nofun nofun
    rintro _ _ ⟨⟩
    rfl
  | acquire l =>
    cases hstep
    refine h.goto (by rw [hpc]; rfl) (by rw [hpc]; nofun) ?_ rfl (by rw [hpc]; nofun) nofun nofun
    rintro _ _ ⟨⟩
    rfl
  | popOff =>
    obtain ⟨hbare, heq⟩ := Option.ite_none_right_eq_some.mp hstep
    cases heq
    have hdepth : ({ s.thread c with pc := .popOff, bare := (s.thread c).bare - 1 } : Kthread P Λ).depth =
        (s.thread c).depth := by
      simp only [Kthread.depth, hpc, Pc.pending]
      omega
    refine .set h rfl ?_ (h.leaves fun _ => id) (.same hdepth rfl (by rw [hpc]; nofun) nofun)
    refine { hr with noff := ?_, off := ?_, old := nofun, taken := nofun, cpu := ?_, restoring := nofun, sound := nofun }
    · rw [hdepth, hr.noff]
    · rw [hdepth]
      exact hr.off
    · intro l hl
      exact .inl ((hr.cpu l hl).resolve_right (by rw [hpc]; nofun))
  | release l =>
    obtain ⟨⟨hmem, hmay⟩, heq⟩ := Option.ite_none_right_eq_some.mp hstep
    obtain ⟨hown, hcpu⟩ := hr.held l hmem
    have hholding : (s.locks l).holding c = true := by simp [Spinlock.holding, h.locked, hown, hcpu]
    rw [if_pos hholding] at heq
    cases heq
    have hdepth : ({ s.thread c with pc := .releaseClear l, held := (s.thread c).held.erase l } : Kthread P Λ).depth =
        (s.thread c).depth := by
      have hpos := List.length_pos_of_mem hmem
      simp only [Kthread.depth, hpc, Pc.pending, List.length_erase_of_mem hmem]
      omega
    refine .set h rfl ?_ ?_ (.same hdepth rfl (by rw [hpc]; nofun) nofun)
    · refine { hr with
        noff := ?_, off := ?_, old := nofun, held := ?_, nodup := hr.nodup.erase l, taken := ?_, cpu := ?_
        restoring := nofun, sound := nofun }
      · rw [hdepth, hr.noff]
      · rw [hdepth]
        exact hr.off
      · exact fun l' hl' => hr.held l' (List.mem_of_mem_erase hl')
      · rintro l' ⟨⟩
        exact ⟨hown, hr.nodup.not_mem_erase⟩
      · intro l' hl'
        have hmem' := (hr.cpu l' hl').resolve_right (by rw [hpc]; nofun)
        by_cases heq : l' = l
        · exact .inr (by rw [heq])
        · exact .inl ((List.mem_erase_of_ne heq).mpr hmem')
    · intro p hp
      refine or_iff_not_imp_left.mpr fun hstate => ?_
      have hmem' := (h.leaving c p hp).resolve_left hstate
      simp only [State.mayRelease, hp, Bool.or_eq_true, decide_eq_true_eq] at hmay
      exact (List.mem_erase_of_ne (hmay.resolve_right hstate).symm).mpr hmem'

theorem local_pushOff {old : Bool} {next : Option (Lock P Λ)} (h : Inv owner s) (hpc : (s.thread c).pc = .pushOff old next)
    (hstep : s.advance c = some t) : Local owner owner c s t := by
  have hr := h.runs c
  have hold := hr.old old next hpc
  have hcpu : ∀ l, (s.locks l).cpu = some c → l ∈ (s.thread c).held := fun l hl =>
    (hr.cpu l hl).resolve_right (by rw [hpc]; nofun)
  -- At depth zero `intena` becomes what the interrupts were; above it is left alone.
  have hkeep : ∀ k : Kthread P Λ, k.depth = (s.thread c).depth + 1 → (∀ v, k.pc ≠ .restore v) →
      Keeping (s.cpus c) (s.thread c) { s.cpus c with
        intr := false, intena := if (s.cpus c).noff = 0 then old else (s.cpus c).intena, noff := (s.cpus c).noff + 1 } k := by
    intro k hdepth hnot
    refine ⟨fun b hpos _ hb => ?_, fun hzero _ => ?_, fun b _ hzero => absurd hzero (by omega)⟩
    · rw [keeps_iff (by rw [hpc]; nofun)] at hb
      have hnoff : (s.cpus c).noff ≠ 0 := by
        rw [hr.noff]
        omega
      rw [keeps_iff hnot, ← hb]
      exact if_neg hnoff
    · have hnoff : (s.cpus c).noff = 0 := by
        rw [hr.noff, hzero]
        rfl
      rw [keeps_iff hnot, ← hold]
      exact if_pos hnoff
  rw [State.advance, hpc] at hstep
  cases next with
  | none =>
    cases hstep
    have hdepth : ({ s.thread c with pc := .out, bare := (s.thread c).bare + 1 } : Kthread P Λ).depth =
        (s.thread c).depth + 1 := by
      simp only [Kthread.depth, hpc, Pc.pending]
      omega
    refine .set h rfl ?_ (h.leaves fun _ => id) (hkeep _ hdepth nofun)
    refine { hr with
      noff := ?_, off := fun _ => rfl, old := nofun, taken := nofun, cpu := fun l hl => .inl (hcpu l hl)
      restoring := nofun, sound := nofun }
    rw [hdepth, hr.noff]
    rfl
  | some l =>
    cases hstep
    have hdepth : ((s.thread c).goto (.acquireTest l)).depth = (s.thread c).depth + 1 := by
      simp only [Kthread.depth, Kthread.goto, hpc, Pc.pending]
    refine .set h rfl ?_ (h.leaves fun _ => id) (hkeep _ hdepth nofun)
    refine { hr with
      noff := ?_, off := fun _ => rfl, old := nofun, taken := nofun, cpu := fun l hl => .inl (hcpu l hl)
      restoring := nofun, sound := nofun }
    rw [hdepth, hr.noff]
    rfl

theorem local_acquireTest (h : Inv owner s) (hpc : (s.thread c).pc = .acquireTest l) (hstep : s.advance c = some t) :
    Local owner owner c s t := by
  rw [State.advance, hpc] at hstep
  cases hstep
  split
  · refine h.goto (by rw [hpc]; rfl) (by rw [hpc]; nofun) nofun rfl (by rw [hpc]; nofun) nofun ?_
    rintro _ ⟨⟩
    trivial
  · exact h.goto (by rw [hpc]; rfl) (by rw [hpc]; nofun) nofun rfl (by rw [hpc]; nofun) nofun nofun

theorem local_acquireSpin (h : Inv owner s) (hpc : (s.thread c).pc = .acquireSpin l) (hstep : s.advance c = some t) :
    ∃ owner', Local owner owner' c s t := by
  have hr := h.runs c
  rw [State.advance, hpc] at hstep
  simp only at hstep
  split at hstep
  · cases hstep
    refine ⟨owner, fun _ _ => rfl, rfl, fun _ _ => rfl, rfl, h.locked, fun _ _ _ hown => ⟨hown, rfl⟩, fun _ _ _ => id, hr,
      h.leaving c, .of_depth rfl fun _ => id⟩
  · next hfree =>
    cases hstep
    have hnone : owner l = none := by
      rwa [h.locked, Option.not_isSome_iff_eq_none] at hfree
    have hnot : l ∉ (s.thread c).held := fun hmem => by
      rw [(hr.held l hmem).1] at hnone
      cases hnone
    have hdepth : ((s.thread c).goto (.acquireOwn l)).depth = (s.thread c).depth := by
      simp only [Kthread.depth, Kthread.goto, hpc, Pc.pending]
    refine ⟨_, .setLock (o := some c) h rfl (by simp [hnone]) rfl (fun _ _ => id) ?_ (h.leaves fun _ => id)
      (.same hdepth rfl (by rw [hpc]; nofun) nofun)⟩
    refine { hr with
      noff := ?_, off := ?_, old := nofun, held := ?_, taken := ?_, cpu := ?_, restoring := nofun, sound := nofun }
    · rw [hdepth, hr.noff]
    · rw [hdepth]
      exact hr.off
    · intro l' hl'
      have hne : l' ≠ l := fun heq => hnot (heq ▸ hl')
      rw [Function.update_of_ne hne, Function.update_of_ne hne]
      exact hr.held l' hl'
    · rintro l' ⟨⟩
      exact ⟨Function.update_self .., hnot⟩
    · intro l' hl'
      refine .inl ((hr.cpu l' ?_).resolve_right (by rw [hpc]; nofun))
      by_cases heq : l' = l
      · subst heq
        rwa [Function.update_self] at hl'
      · rwa [Function.update_of_ne heq] at hl'

theorem local_acquireOwn (h : Inv owner s) (hpc : (s.thread c).pc = .acquireOwn l) (hstep : s.advance c = some t) :
    ∃ owner', Local owner owner' c s t := by
  have hr := h.runs c
  obtain ⟨hown, hnot⟩ := hr.taken l (by rw [hpc]; rfl)
  rw [State.advance, hpc] at hstep
  cases hstep
  have hdepth : ({ s.thread c with pc := .out, held := l :: (s.thread c).held } : Kthread P Λ).depth = (s.thread c).depth := by
    simp only [Kthread.depth, hpc, Pc.pending, List.length_cons]
    omega
  refine ⟨_, .setLock (o := some c) h rfl (fun c' hc' => ?_) (by rw [h.locked, hown]) ?_ ?_
    (h.leaves fun _ => List.mem_cons_of_mem _) (.same hdepth rfl (by rw [hpc]; nofun) nofun)⟩
  · rw [hown] at hc'
    exact (Option.some.inj hc').symm
  · rintro c' hne ⟨⟩
    exact absurd rfl hne
  · have hsame : Function.update owner l (some c) = owner := by rw [← hown, Function.update_eq_self]
    rw [hsame]
    refine { hr with
      noff := ?_, off := ?_, old := nofun, held := ?_, nodup := List.nodup_cons.mpr ⟨hnot, hr.nodup⟩, taken := nofun
      cpu := ?_, restoring := nofun, sound := nofun }
    · rw [hdepth, hr.noff]
    · rw [hdepth]
      exact hr.off
    · intro l' hl'
      obtain rfl | hl' := List.mem_cons.mp hl'
      · exact ⟨hown, by rw [Function.update_self]⟩
      · have hne : l' ≠ l := fun heq => hnot (heq ▸ hl')
        rw [Function.update_of_ne hne]
        exact hr.held l' hl'
    · intro l' hl'
      refine .inl ?_
      by_cases heq : l' = l
      · rw [heq]
        exact List.mem_cons_self
      · rw [Function.update_of_ne heq] at hl'
        exact List.mem_cons_of_mem _ ((hr.cpu l' hl').resolve_right (by rw [hpc]; nofun))

theorem local_releaseClear (h : Inv owner s) (hpc : (s.thread c).pc = .releaseClear l) (hstep : s.advance c = some t) :
    ∃ owner', Local owner owner' c s t := by
  have hr := h.runs c
  obtain ⟨hown, hnot⟩ := hr.taken l (by rw [hpc]; rfl)
  rw [State.advance, hpc] at hstep
  cases hstep
  have hdepth : ((s.thread c).goto (.releaseUnlock l)).depth = (s.thread c).depth := by
    simp only [Kthread.depth, Kthread.goto, hpc, Pc.pending]
  refine ⟨_, .setLock (o := some c) h rfl (fun c' hc' => ?_) (by rw [h.locked, hown]) nofun ?_ (h.leaves fun _ => id)
    (.same hdepth rfl (by rw [hpc]; nofun) nofun)⟩
  · rw [hown] at hc'
    exact (Option.some.inj hc').symm
  · have hsame : Function.update owner l (some c) = owner := by rw [← hown, Function.update_eq_self]
    rw [hsame]
    refine { hr with
      noff := ?_, off := ?_, old := nofun, held := ?_, taken := ?_, cpu := ?_, restoring := nofun, sound := nofun }
    · rw [hdepth, hr.noff]
    · rw [hdepth]
      exact hr.off
    · intro l' hl'
      have hne : l' ≠ l := fun heq => hnot (heq ▸ hl')
      rw [Function.update_of_ne hne]
      exact hr.held l' hl'
    · rintro l' ⟨⟩
      exact ⟨hown, hnot⟩
    · intro l' hl'
      by_cases heq : l' = l
      · subst heq
        rw [Function.update_self] at hl'
        cases hl'
      · rw [Function.update_of_ne heq] at hl'
        refine .inl ((hr.cpu l' hl').resolve_right fun hclear => heq ?_)
        rw [hpc] at hclear
        cases hclear
        rfl

theorem local_releaseUnlock (h : Inv owner s) (hpc : (s.thread c).pc = .releaseUnlock l) (hstep : s.advance c = some t) :
    ∃ owner', Local owner owner' c s t := by
  have hr := h.runs c
  obtain ⟨hown, hnot⟩ := hr.taken l (by rw [hpc]; rfl)
  rw [State.advance, hpc] at hstep
  cases hstep
  have hdepth : ((s.thread c).goto .popOff).depth = (s.thread c).depth := by
    simp only [Kthread.depth, Kthread.goto, hpc, Pc.pending]
  refine ⟨_, .setLock (o := none) h rfl (fun c' hc' => ?_) rfl (fun _ _ => id) ?_ (h.leaves fun _ => id)
    (.same hdepth rfl (by rw [hpc]; nofun) nofun)⟩
  · rw [hown] at hc'
    exact (Option.some.inj hc').symm
  · refine { hr with
      noff := ?_, off := ?_, old := nofun, held := ?_, taken := nofun, cpu := ?_, restoring := nofun, sound := nofun }
    · rw [hdepth, hr.noff]
    · rw [hdepth]
      exact hr.off
    · intro l' hl'
      have hne : l' ≠ l := fun heq => hnot (heq ▸ hl')
      rw [Function.update_of_ne hne, Function.update_of_ne hne]
      exact hr.held l' hl'
    · intro l' hl'
      refine .inl ((hr.cpu l' ?_).resolve_right (by rw [hpc]; nofun))
      by_cases heq : l' = l
      · subst heq
        rwa [Function.update_self] at hl'
      · rwa [Function.update_of_ne heq] at hl'

/-- `pop_off` finds the interrupts off and something to undo, and what the thread needs in `intena`. -/
theorem local_popOff (h : Inv owner s) (hpc : (s.thread c).pc = .popOff) (hstep : s.advance c = some t) :
    Local owner owner c s t := by
  have hr := h.runs c
  have hdepth : (s.thread c).depth = ((s.thread c).goto .out).depth + 1 := by
    simp only [Kthread.depth, Kthread.goto, hpc, Pc.pending]
  have hoff := hr.off (by omega)
  have hnoff := hr.noff
  rw [State.advance, hpc] at hstep
  simp only [hoff, if_false, Bool.false_eq_true] at hstep
  rw [if_neg (by omega)] at hstep
  cases hstep
  refine .set h rfl ?_ (h.leaves fun _ => id)
    ⟨fun b _ _ hb => ?_, fun hzero _ => absurd hzero (by omega), fun b _ hzero hb => ?_⟩
  · refine { hr with
      noff := ?_, off := fun hpos => ?_, old := nofun, taken := nofun, cpu := ?_, restoring := nofun, sound := nofun }
    · show (s.cpus c).noff - 1 = _
      omega
    · have hne : (s.cpus c).noff - 1 ≠ 0 := by omega
      simp [hne]
    · intro l hl
      exact .inl ((hr.cpu l hl).resolve_right (by rw [hpc]; nofun))
  · rw [keeps_iff (by rw [hpc]; nofun)] at hb
    refine (keeps_iff ?_).mpr hb
    nofun
  · rw [keeps_iff (by rw [hpc]; nofun)] at hb
    have hone : (s.cpus c).noff - 1 = 0 := by omega
    simp [hone, hb]

theorem local_restore {v : Bool} (h : Inv owner s) (hpc : (s.thread c).pc = .restore v) (hstep : s.advance c = some t) :
    Local owner owner c s t := by
  have hr := h.runs c
  have hdepth : ((s.thread c).goto .out).depth = (s.thread c).depth := by
    simp only [Kthread.depth, Kthread.goto, hpc, Pc.pending]
  rw [State.advance, hpc] at hstep
  cases hstep
  refine .set h rfl ?_ (h.leaves fun _ => id) (.of_depth hdepth fun b hb => ?_)
  · refine { hr with
      noff := ?_, off := ?_, old := nofun, taken := nofun, cpu := ?_, restoring := nofun, sound := nofun }
    · rw [hdepth, hr.noff]
    · rw [hdepth]
      exact hr.off
    · intro l hl
      exact .inl ((hr.cpu l hl).resolve_right (by rw [hpc]; nofun))
  · rw [Keeps, hpc] at hb
    refine (keeps_iff ?_).mpr hb
    nofun

theorem local_advance (h : Inv owner s) (hstep : s.advance c = some t) : ∃ owner', Local owner owner' c s t := by
  cases hpc : (s.thread c).pc with
  | out | panic m =>
    rw [State.advance, hpc] at hstep
    cases hstep
  | pushOff old next => exact ⟨owner, local_pushOff h hpc hstep⟩
  | acquireTest l => exact ⟨owner, local_acquireTest h hpc hstep⟩
  | acquireSpin l => exact local_acquireSpin h hpc hstep
  | acquireOwn l => exact local_acquireOwn h hpc hstep
  | releaseClear l => exact local_releaseClear h hpc hstep
  | releaseUnlock l => exact local_releaseUnlock h hpc hstep
  | popOff => exact ⟨owner, local_popOff h hpc hstep⟩
  | restore v => exact ⟨owner, local_restore h hpc hstep⟩

end Set

/-! ### Interrupts -/

section Interrupts
variable {owner : Lock P Λ → Option κ} {locks : Lock P Λ → Spinlock κ} {s : State κ P Λ} {c : κ} {u u' : Cpu P}
  {t t' : Kthread P Λ} {k : Pc P Λ} {ks : List (Pc P Λ)} {b : Bool}

theorem Pc.Interruptible.pending_eq (h : k.Interruptible) : k.pending = 0 := by
  cases k with
  | out | pushOff old next => rfl
  | panic m =>
    cases m with
    | acquire => exact absurd rfl h.2
    | _ => rfl
  | _ => cases h

theorem Pc.Interruptible.lock_eq (h : k.Interruptible) : k.lock = none := by
  cases k with
  | acquireOwn l | releaseClear l | releaseUnlock l => cases h
  | _ => rfl

theorem Kthread.depth_eq_zero (h : t.depth = 0) : t.held = [] ∧ t.bare = 0 ∧ t.pc.pending = 0 := by
  unfold Kthread.depth at h
  exact ⟨List.length_eq_zero_iff.mp (by omega), by omega, by omega⟩

theorem Kthread.depth_zero_of (hheld : t.held = []) (hbare : t.bare = 0) (hpend : t.pc.pending = 0) : t.depth = 0 := by
  rw [Kthread.depth, hheld, hbare, hpend]
  rfl

theorem Keeping.of_zero (h : t.depth = 0) (h' : t'.depth = 0) : Keeping u t u' t' where
  stay _ hpos := absurd h (Nat.ne_of_gt hpos)
  leave _ hpos := absurd h' (Nat.ne_of_gt hpos)
  back _ hpos := absurd h (Nat.ne_of_gt hpos)

/-- With the interrupts on, no lock is taken. -/
theorem Runs.interruptible (h : Runs owner locks c u t) (hintr : u.intr = true) : t.pc.Interruptible := by
  obtain ⟨hheld, -, hpend⟩ := Kthread.depth_eq_zero (h.depth_zero hintr)
  cases hpc : t.pc with
  | out => trivial
  | pushOff old next => exact (h.old old next hpc).trans hintr
  | restore v => exact absurd hheld (h.restoring v hpc)
  | panic m =>
    refine ⟨h.sound m hpc, ?_⟩
    rintro rfl
    rw [hpc] at hpend
    cases hpend
  | _ =>
    rw [hpc] at hpend
    cases hpend

/-- What holds at depth zero, where interrupts go on and off. -/
theorem Runs.zero (h : Runs owner locks c u t) (hzero : t.depth = 0) (hnot : ∀ l, t.pc ≠ .releaseClear l)
    (hk : k.Interruptible) (hold : ∀ old next, k = .pushOff old next → u'.intr = true) (hnoff : u'.noff = u.noff)
    (hks : ∀ k ∈ ks, k.Interruptible) : Runs owner locks c u' { t with pc := k, below := ks } := by
  obtain ⟨hheld, hbare, -⟩ := Kthread.depth_eq_zero hzero
  have hdepth : ({ t with pc := k, below := ks } : Kthread P Λ).depth = 0 :=
    Kthread.depth_zero_of hheld hbare hk.pending_eq
  refine { h with
    noff := ?_, off := ?_, old := ?_, taken := ?_, cpu := ?_, restoring := ?_, below := hks, sound := ?_ }
  · rw [hdepth, hnoff, h.noff, hzero]
  · rw [hdepth]
    nofun
  · intro old next hpc
    have htrue := hold old next hpc
    obtain rfl : k = .pushOff old next := hpc
    rw [htrue]
    exact hk
  · intro l hl
    rw [hk.lock_eq] at hl
    cases hl
  · intro l hl
    exact .inl ((h.cpu l hl).resolve_right (hnot l))
  · intro v hv
    obtain rfl : k = .restore v := hv
    cases hk
  · intro m hm
    obtain rfl : k = .panic m := hm
    exact hk.1

/-- A step at depth zero. -/
theorem Local.zero [DecidableEq κ] [DecidableEq P] (h : Inv owner s) (hzero : (s.thread c).depth = 0)
    (hnot : ∀ l, (s.thread c).pc ≠ .releaseClear l) (hk : k.Interruptible)
    (hold : ∀ old next, k = .pushOff old next → b = true) (hks : ∀ k ∈ ks, k.Interruptible) :
    Local owner owner c s (s.set c { s.cpus c with intr := b } { s.thread c with pc := k, below := ks }) := by
  obtain ⟨hheld, hbare, -⟩ := Kthread.depth_eq_zero hzero
  refine .set h rfl ((h.runs c).zero hzero hnot hk hold rfl hks) (h.leaves fun _ => id) (.of_zero hzero ?_)
  exact Kthread.depth_zero_of hheld hbare hk.pending_eq

/-- `intr_on` and `intr_off`. -/
theorem Local.intr [DecidableEq κ] [DecidableEq P] (h : Inv owner s) (hpc : (s.thread c).pc = .out)
    (hzero : (s.thread c).depth = 0) : Local owner owner c s (s.set c { s.cpus c with intr := b } (s.thread c)) := by
  have hout : (s.thread c).pc.Interruptible := by
    rw [hpc]
    trivial
  exact .zero h hzero (by rw [hpc]; nofun) hout (fun _ _ hpush => nomatch hpc.symm.trans hpush) (h.runs c).below

end Interrupts

end LabSO.Kernel.PushOff

import LabSO.Kernel.PushOffSteps

/-! Interrupts are off wherever `noff` counts, and are back as they were when a thread has undone all of its `push_off`. -/

namespace LabSO.Kernel.PushOff
open Transition

variable {κ P Λ : Type}

section
variable {owner : Lock P Λ → Option κ} {c : κ} {p : P}

/-- A switch between a process and the `scheduler` of the CPU: both know the one lock `p->lock`. -/
theorem Runs.switch {locks : Lock P Λ → Spinlock κ} {u u' : Cpu P} {k k' : Kthread P Λ} (h : Runs owner locks c u k)
    (hheld : k.held = [.proc p]) (hbare : k.bare = 0) (hpc : k.pc = .out) (hk : Parked p k') (hnoff : u'.noff = u.noff)
    (hintr : u'.intr = u.intr) : Runs owner locks c u' k' := by
  have hone : k.depth = 1 := by simp [Kthread.depth, hheld, hbare, hpc, Pc.pending]
  have hpending : k'.pc.pending = 0 := by
    obtain hout | ⟨v, hrestore⟩ := hk.pc
    · rw [hout]
      rfl
    · rw [hrestore]
      rfl
  have hone' : k'.depth = 1 := by simp [Kthread.depth, hk.held, hk.bare, hpending]
  refine ⟨?_, fun _ => ?_, fun old next hpush => ?_, ?_, ?_, fun l hl => ?_, fun l hl => .inl ?_, fun v _ => ?_, hk.below,
    fun m hm => ?_⟩
  · rw [hnoff, h.noff, hone, hone']
  · rw [hintr]
    exact h.off (by omega)
  · obtain hout | ⟨v, hrestore⟩ := hk.pc
    · cases hout.symm.trans hpush
    · cases hrestore.symm.trans hpush
  · rw [hk.held, ← hheld]
    exact h.held
  · rw [hk.held]
    simp
  · obtain hout | ⟨v, hrestore⟩ := hk.pc
    · rw [hout] at hl
      cases hl
    · rw [hrestore] at hl
      cases hl
  · rw [hk.held, ← hheld]
    exact (h.cpu l hl).resolve_right (by rw [hpc]; rintro ⟨⟩)
  · rw [hk.held]
    rintro ⟨⟩
  · obtain hout | ⟨v, hrestore⟩ := hk.pc
    · cases hout.symm.trans hm
    · cases hrestore.symm.trans hm

theorem parked_loop (p : P) : Parked p (⟨.out, [], [.proc p], 0⟩ : Kthread P Λ) := ⟨rfl, rfl, .inl rfl, nofun⟩

end

section
variable [DecidableEq κ] [DecidableEq P] {owner : Lock P Λ → Option κ} {s t : State κ P Λ} {a : Action κ P Λ} {c : κ}
  {p : P} {b : Bool}

/-- All that a step can do: one statement of a thread, a switch from or to a process, or another state for a process. -/
inductive Moves (owner : Lock P Λ → Option κ) (s : State κ P Λ) : Action κ P Λ → State κ P Λ → Prop
  | stay {a : Action κ P Λ} {t : State κ P Λ} {c : κ} {owner' : Lock P Λ → Option κ} (h : Local owner owner' c s t) :
      Moves owner s a t
  | leave {c : κ} {p : P} (hp : (s.cpus c).proc = some p) (hheld : (s.thread c).held = [.proc p])
      (hbare : (s.thread c).bare = 0) (hpc : (s.thread c).pc = .out) :
      Moves owner s (.sched c) (s.set c { s.cpus c with proc := none } ((s.thread c).goto (.restore (s.cpus c).intena)))
  | start {c : κ} {p : P} (hproc : (s.cpus c).proc = none) (hloop : s.threads (.scheduler c) = ⟨.out, [], [.proc p], 0⟩)
      (hp : ∀ c', (s.cpus c').proc ≠ some p) :
      Moves owner s (.dispatch c p) { s with
        states := Function.update s.states p .running
        cpus := Function.update s.cpus c { s.cpus c with proc := some p } }
  | tell {c : κ} {p : P} {st : ProcState} (hp : (s.cpus c).proc = some p) (hheld : .proc p ∈ (s.thread c).held) :
      Moves owner s (.setState c st) { s with states := Function.update s.states p st }
  | recast {c : κ} {q : P} {st : ProcState} (hq : ∀ c', (s.cpus c').proc ≠ some q) :
      Moves owner s (.recast c q st) { s with
        states := Function.update s.states q st
        threads := if st = .used then Function.update s.threads (.proc q) (.fresh q) else s.threads }

theorem moves_sched (h : Inv owner s) (hp : (s.cpus c).proc = some p) (hpc : (s.thread c).pc = .out) :
    Moves owner s (.sched c) (s.sched c p) := by
  have hr := h.runs c
  have hpanic : ∀ m : Panic, m.Possible → m ≠ .acquire → Local owner owner c s (s.goto c (.panic m)) := by
    intro m hm hne
    have hpend : (Pc.panic m : Pc P Λ).pending = 0 := Pc.Interruptible.pending_eq ⟨hm, hne⟩
    refine h.goto (by rw [hpend, hpc]; rfl) (by rw [hpc]; rintro _ ⟨⟩) (by rintro _ _ ⟨⟩) rfl (by rw [hpc]; rintro _ ⟨⟩)
      (by rintro _ ⟨⟩) ?_
    rintro _ ⟨⟩
    exact hm
  unfold State.sched
  dsimp only
  split
  · exact .stay (hpanic _ trivial (by rintro ⟨⟩))
  · next hholding =>
    split
    · exact .stay (hpanic _ trivial (by rintro ⟨⟩))
    · next hnoff =>
      split
      · exact .stay (hpanic _ trivial (by rintro ⟨⟩))
      · split
        · exact .stay (hpanic _ trivial (by rintro ⟨⟩))
        · simp only [Spinlock.holding, Bool.not_eq_true', Bool.not_eq_false, Bool.and_eq_true, decide_eq_true_eq] at hholding
          have hmem : .proc p ∈ (s.thread c).held := (hr.cpu _ hholding.2).resolve_right (by rw [hpc]; rintro ⟨⟩)
          have hdepth : (s.thread c).depth = 1 := by
            have hone := not_not.mp hnoff
            have heq := hr.noff
            omega
          have hpos := List.length_pos_of_mem hmem
          simp only [Kthread.depth, hpc, Pc.pending] at hdepth
          obtain ⟨l, hl⟩ := List.length_eq_one_iff.mp (show (s.thread c).held.length = 1 by omega)
          rw [hl, List.mem_singleton] at hmem
          exact .leave hp (by rw [hl, hmem]) (by omega) hpc

theorem mayBecome_running {st : ProcState} : mayBecome .running st = false := by
  cases st <;> rfl

theorem Inv.moves [DecidableEq Λ] (h : Inv owner s) (hstep : step s a = some t) : Moves owner s a t := by
  cases a with
  | call c r =>
    obtain ⟨hpc, hcall⟩ := Option.ite_none_right_eq_some.mp hstep
    exact .stay (local_call h hpc hcall)
  | advance c =>
    obtain ⟨owner', hl⟩ := local_advance h hstep
    exact .stay hl
  | intrOn c =>
    obtain ⟨⟨hpc, hzero⟩, heq⟩ := Option.ite_none_right_eq_some.mp hstep
    cases heq
    exact .stay (.intr h hpc hzero)
  | intrOff c =>
    obtain ⟨⟨hpc, hzero⟩, heq⟩ := Option.ite_none_right_eq_some.mp hstep
    cases heq
    exact .stay (.intr h hpc hzero)
  | trap c =>
    obtain ⟨hintr, heq⟩ := Option.ite_none_right_eq_some.mp hstep
    cases heq
    have hpc := (h.runs c).interruptible hintr
    refine .stay (c := c) (.zero h ((h.runs c).depth_zero hintr) (fun l hl => ?_) trivial (by rintro _ _ ⟨⟩) ?_)
    · rw [hl] at hpc
      cases hpc
    · intro k hk
      obtain rfl | hk := List.mem_cons.mp hk
      · exact hpc
      · exact (h.runs c).below k hk
  | trapret c =>
    simp only [step] at hstep
    split at hstep
    · cases hstep
    · next k ks hbelow =>
      obtain ⟨⟨hpc, hzero⟩, heq⟩ := Option.ite_none_right_eq_some.mp hstep
      cases heq
      have hinterruptible : ∀ k' ∈ k :: ks, k'.Interruptible := hbelow ▸ (h.runs c).below
      refine .stay (c := c) (.zero h hzero (by rw [hpc]; rintro _ ⟨⟩) ?_ (fun _ _ _ => rfl) fun k' hk' => ?_)
      · exact hinterruptible k List.mem_cons_self
      · exact hinterruptible k' (List.mem_cons_of_mem _ hk')
  | setState c st =>
    simp only [step] at hstep
    split at hstep
    · cases hstep
    · next p hp =>
      obtain ⟨⟨-, hmem, -⟩, heq⟩ := Option.ite_none_right_eq_some.mp hstep
      cases heq
      exact .tell hp hmem
  | sched c =>
    simp only [step] at hstep
    split at hstep
    · cases hstep
    · next p hp =>
      obtain ⟨hpc, heq⟩ := Option.ite_none_right_eq_some.mp hstep
      cases heq
      exact moves_sched h hp hpc
  | recast c q st =>
    obtain ⟨⟨-, hmem, hne, hmay⟩, heq⟩ := Option.ite_none_right_eq_some.mp hstep
    cases heq
    refine .recast fun c' => h.not_current hmem hne fun hstate => ?_
    rw [hstate, mayBecome_running] at hmay
    cases hmay
  | dispatch c p =>
    obtain ⟨⟨hcurrent, hthread, hstate⟩, heq⟩ := Option.ite_none_right_eq_some.mp hstep
    cases heq
    refine .start (proc_of_scheduler hcurrent) (by rw [← hthread, State.thread, hcurrent]) fun c' => ?_
    refine h.not_current (c := c) ?_ (by rw [hcurrent]; rintro ⟨⟩) (by rw [hstate]; rintro ⟨⟩)
    rw [hthread]
    exact List.mem_singleton_self _

omit [DecidableEq κ] in
theorem inv_tell {st : ProcState} (h : Inv owner s) (hp : (s.cpus c).proc = some p) (hheld : .proc p ∈ (s.thread c).held) :
    Inv owner { s with states := Function.update s.states p st } :=
  { h with
    leaving := fun c' q hq => by
      by_cases heq : q = p
      · subst heq
        obtain rfl := h.alone _ _ _ hp hq
        exact .inr hheld
      · show Function.update s.states p st q = _ ∨ _
        rw [Function.update_of_ne heq]
        exact h.leaving c' q hq }

section Recast
variable {q : P} {st : ProcState} {τ : Thread κ P}

theorem recast_threads (hτ : τ ≠ .proc q ∨ st ≠ .used) :
    (if st = .used then Function.update s.threads (.proc q) (.fresh q) else s.threads) τ = s.threads τ := by
  split
  · next hused => exact Function.update_of_ne (hτ.resolve_right (not_not.mpr hused)) ..
  · rfl

theorem recast_thread {states : P → ProcState} (hq : (s.cpus c).proc ≠ some q) :
    ({ s with
      states
      threads := if st = .used then Function.update s.threads (.proc q) (.fresh q) else s.threads } : State κ P Λ).thread c =
      s.thread c :=
  recast_threads (.inl fun heq => hq (proc_of_current heq))

theorem inv_recast (h : Inv owner s) (hq : ∀ c', (s.cpus c').proc ≠ some q) :
    Inv owner { s with
      states := Function.update s.states q st
      threads := if st = .used then Function.update s.threads (.proc q) (.fresh q) else s.threads } := by
  refine { h with runs := fun c' => ?_, parked := fun p hp => ?_, loop := fun c' p hp => ?_, leaving := fun c' p hp => ?_ }
  · rw [recast_thread (hq c')]
    exact h.runs c'
  · show Parked p ((if st = .used then Function.update s.threads (.proc q) (.fresh q) else s.threads) (.proc p))
    by_cases heq : p = q
    · subst heq
      split
      · rw [Function.update_self]
        exact parked_loop p
      · exact h.parked p hp
    · rw [recast_threads (.inl fun hpq => heq (Thread.proc.inj hpq))]
      exact h.parked p hp
  · have hloop : Thread.scheduler c' ≠ .proc q ∨ st ≠ .used := .inl nofun
    exact (recast_threads hloop).trans (h.loop c' p hp)
  · rw [recast_thread (hq c')]
    have hne : p ≠ q := by
      rintro rfl
      exact hq c' hp
    show Function.update s.states q st p = _ ∨ _
    rw [Function.update_of_ne hne]
    exact h.leaving c' p hp

end Recast

section Switch
variable {u : Cpu P} {k : Kthread P Λ}

theorem set_proc_eq {c' : κ} : ((s.set c u k).cpus c').proc = if c' = c then u.proc else (s.cpus c').proc := by
  split
  · next heq => rw [heq, set_cpus_self]
  · next hne => rw [set_cpus_of_ne hne]

theorem set_thread_of_ne (h : Inv owner s) {c' : κ} (hne : c' ≠ c) : (s.set c u k).thread c' = s.thread c' := by
  have hcurrent : (s.set c u k).current c' = s.current c' := current_congr (by rw [set_cpus_of_ne hne])
  rw [State.thread, hcurrent, set_threads_of_ne (h.current_ne hne)]
  rfl

theorem threads_leave (hp : (s.cpus c).proc = some p) : (s.set c u k).threads (.proc p) = k := by
  rw [← current_of_proc hp]
  exact Function.update_self ..

theorem thread_leave (hp : (s.cpus c).proc = some p) (hu : u.proc = none) :
    (s.set c u k).thread c = s.threads (.scheduler c) := by
  have hcurrent : (s.set c u k).current c = .scheduler c := current_of_none (by rw [set_cpus_self, hu])
  rw [State.thread, hcurrent, set_threads_of_ne]
  rw [current_of_proc hp]
  rintro ⟨⟩

theorem inv_leave (h : Inv owner s) (hp : (s.cpus c).proc = some p) (hheld : (s.thread c).held = [.proc p])
    (hbare : (s.thread c).bare = 0) (hpc : (s.thread c).pc = .out) :
    Inv owner (s.set c { s.cpus c with proc := none } ((s.thread c).goto (.restore (s.cpus c).intena))) where
  locked := h.locked
  runs c' := by
    by_cases hc : c' = c
    · subst hc
      rw [set_cpus_self, thread_leave hp rfl, h.loop _ _ hp]
      exact (h.runs c').switch hheld hbare hpc (parked_loop p) rfl rfl
    · rw [set_cpus_of_ne hc, set_thread_of_ne h hc]
      exact h.runs c'
  parked q hq := by
    by_cases heq : q = p
    · subst heq
      rw [threads_leave hp]
      exact ⟨hheld, hbare, .inr ⟨_, rfl⟩, (h.runs c).below⟩
    · have hne : Thread.proc q ≠ s.current c := by
        rw [current_of_proc hp]
        rintro ⟨⟩
        exact heq rfl
      rw [set_threads_of_ne hne]
      refine h.parked q fun c' hq' => ?_
      have hgone := hq c'
      rw [set_proc_eq] at hgone
      split at hgone
      · next hc =>
        rw [hc, hp] at hq'
        cases hq'
        exact heq rfl
      · exact hgone hq'
  loop c' q hq := by
    rw [set_proc_eq] at hq
    split at hq
    · cases hq
    · rw [set_threads_of_ne]
      · exact h.loop c' q hq
      · rw [current_of_proc hp]
        nofun
  alone c₁ c₂ q h₁ h₂ := by
    rw [set_proc_eq] at h₁ h₂
    split at h₁
    · cases h₁
    · split at h₂
      · cases h₂
      · exact h.alone c₁ c₂ q h₁ h₂
  leaving c' q hq := by
    rw [set_proc_eq] at hq
    split at hq
    · cases hq
    · next hc =>
      rw [set_thread_of_ne h hc]
      exact h.leaving c' q hq

omit [DecidableEq P] in
/-- The state after `scheduler` has switched to `p`. -/
theorem thread_start {states : P → ProcState} {c' : κ} :
    ({ s with states, cpus := Function.update s.cpus c { s.cpus c with proc := some p } } : State κ P Λ).thread c' =
      if c' = c then s.threads (.proc p) else s.thread c' := by
  split
  · next hc => simp only [hc, State.thread, State.current, Function.update_self]
  · next hc => simp only [State.thread, State.current, Function.update_of_ne hc]

omit [DecidableEq P] in
theorem proc_start {c' : κ} : (Function.update s.cpus c { s.cpus c with proc := some p } c').proc =
    if c' = c then some p else (s.cpus c').proc := by
  split
  · next hc => rw [hc, Function.update_self]
  · next hc => rw [Function.update_of_ne hc]

theorem inv_start (h : Inv owner s) (hproc : (s.cpus c).proc = none)
    (hloop : s.threads (.scheduler c) = ⟨.out, [], [.proc p], 0⟩) (hp : ∀ c', (s.cpus c').proc ≠ some p) :
    Inv owner { s with
      states := Function.update s.states p .running
      cpus := Function.update s.cpus c { s.cpus c with proc := some p } } := by
  have hthread : s.thread c = ⟨.out, [], [.proc p], 0⟩ := by rw [State.thread, current_of_none hproc, hloop]
  have hon : ∀ c' q, (Function.update s.cpus c { s.cpus c with proc := some p } c').proc = some q →
      c' = c ∧ q = p ∨ c' ≠ c ∧ q ≠ p ∧ (s.cpus c').proc = some q := by
    intro c' q hq
    rw [proc_start] at hq
    split at hq
    · next hc => exact .inl ⟨hc, (Option.some.inj hq).symm⟩
    · next hc =>
      refine .inr ⟨hc, ?_, hq⟩
      rintro rfl
      exact hp c' hq
  refine ⟨h.locked, fun c' => ?_, fun q hq => ?_, fun c' q hq => ?_, fun c₁ c₂ q h₁ h₂ => ?_, fun c' q hq => ?_⟩
  · rw [thread_start]
    split
    · next hc =>
      subst hc
      show Runs owner s.locks c' (Function.update s.cpus c' _ c') _
      rw [Function.update_self]
      have hr := h.runs c'
      rw [hthread] at hr
      exact hr.switch rfl rfl rfl (h.parked p hp) rfl rfl
    · next hc =>
      show Runs owner s.locks c' (Function.update s.cpus c _ c') _
      rw [Function.update_of_ne hc]
      exact h.runs c'
  · refine h.parked q fun c' hq' => ?_
    have hgone := hq c'
    by_cases hc : c' = c
    · rw [hc, hproc] at hq'
      cases hq'
    · exact hgone (proc_start.trans ((if_neg hc).trans hq'))
  · obtain ⟨rfl, rfl⟩ | ⟨-, -, hq'⟩ := hon c' q hq
    · exact hloop
    · exact h.loop c' q hq'
  · obtain ⟨rfl, rfl⟩ | ⟨-, hne, h₁'⟩ := hon c₁ q h₁
    · obtain ⟨rfl, -⟩ | ⟨-, hne, -⟩ := hon c₂ q h₂
      · rfl
      · exact absurd rfl hne
    · obtain ⟨-, rfl⟩ | ⟨-, -, h₂'⟩ := hon c₂ q h₂
      · exact absurd rfl hne
      · exact h.alone c₁ c₂ q h₁' h₂'
  · obtain ⟨rfl, rfl⟩ | ⟨hc, hne, hq'⟩ := hon c' q hq
    · exact .inl (Function.update_self ..)
    · rw [thread_start, if_neg hc]
      show Function.update s.states p _ q = _ ∨ _
      rw [Function.update_of_ne hne]
      exact h.leaving c' q hq'

end Switch

/-- The lock of the process stays with its CPU. -/
theorem Moves.inv (h : Inv owner s) (hm : Moves owner s a t) : ∃ owner', Inv owner' t := by
  cases hm with
  | stay hl => exact ⟨_, hl.inv h⟩
  | tell hp hheld => exact ⟨_, inv_tell h hp hheld⟩
  | recast hq => exact ⟨_, inv_recast h hq⟩
  | leave hp hheld hbare hpc => exact ⟨_, inv_leave h hp hheld hbare hpc⟩
  | start hproc hloop hp => exact ⟨_, inv_start h hproc hloop hp⟩

/-! ### From depth zero back to it -/

/-- How often the thread of `p` has yet to undo a `push_off`. -/
def State.depth (s : State κ P Λ) (p : P) : Nat := (s.threads (.proc p)).depth

/-- `b` is what the outermost `pop_off` of the thread of `p` will find in `intena`, on whatever CPU. -/
structure Carries (p : P) (b : Bool) (s : State κ P Λ) : Prop where
  away : (∀ c, (s.cpus c).proc ≠ some p) → (s.threads (.proc p)).pc = .restore b
  on : ∀ c, (s.cpus c).proc = some p → Keeps b (s.cpus c) (s.thread c)

omit [DecidableEq κ] [DecidableEq P] in
theorem Local.threads_proc {owner' : Lock P Λ → Option κ} (hl : Local owner owner' c s t) (hp : (s.cpus c).proc ≠ some p) :
    t.threads (.proc p) = s.threads (.proc p) :=
  hl.threads _ fun heq => hp (proc_of_current heq.symm)

omit [DecidableEq κ] [DecidableEq P] in
theorem Local.keeping_proc {owner' : Lock P Λ → Option κ} (hl : Local owner owner' c s t) (hp : (s.cpus c).proc = some p) :
    Keeping (s.cpus c) (s.threads (.proc p)) (t.cpus c) (t.threads (.proc p)) := by
  have hk := hl.keeping
  rwa [thread_of_proc hp, thread_of_proc (hl.proc.trans hp)] at hk

omit [DecidableEq κ] [DecidableEq P] in
theorem Local.carries {owner' : Lock P Λ → Option κ} (h : Inv owner s) (hl : Local owner owner' c s t) (hpos : 0 < s.depth p)
    (hpos' : 0 < t.depth p) (hb : Carries p b s) : Carries p b t where
  away hnone := by
    have hnone' : ∀ c', (s.cpus c').proc ≠ some p := fun c' => hl.proc_eq c' ▸ hnone c'
    rw [hl.threads_proc (hnone' c)]
    exact hb.away hnone'
  on c' hp := by
    have hp' : (s.cpus c').proc = some p := hl.proc_eq c' ▸ hp
    by_cases hc : c' = c
    · subst hc
      have hon := hb.on c' hp'
      rw [thread_of_proc hp'] at hon
      rw [thread_of_proc hp]
      exact (hl.keeping_proc hp').stay b hpos hpos' hon
    · rw [hl.cpus c' hc, hl.thread_eq h hc]
      exact hb.on c' hp'

/-- Above depth zero, also through `sched` and `scheduler`, the thread carries what it needs. -/
theorem Moves.carries (h : Inv owner s) (hm : Moves owner s a t) (hsame : ∀ c, a ≠ .recast c p .used) (hpos : 0 < s.depth p)
    (hpos' : 0 < t.depth p) (hb : Carries p b s) : Carries p b t := by
  cases hm with
  | stay hl => exact hl.carries h hpos hpos' hb
  | tell hp hheld => exact ⟨hb.away, hb.on⟩
  | @recast c q st hq =>
    refine ⟨fun hnone => ?_, fun c' hp => ?_⟩
    · refine (congrArg Kthread.pc (recast_threads ?_)).trans (hb.away hnone)
      rw [or_iff_not_imp_left]
      rintro hpq rfl
      cases not_not.mp hpq
      exact hsame c rfl
    · rw [recast_thread (hq c')]
      exact hb.on c' hp
  | @leave c q hq hheld hbare hpc =>
    by_cases hpq : p = q
    · subst hpq
      have hon := hb.on c hq
      refine ⟨fun _ => ?_, fun c' hp => ?_⟩
      · rw [keeps_iff (by rw [hpc]; nofun)] at hon
        rw [threads_leave hq]
        exact congrArg Pc.restore hon
      · rw [set_proc_eq] at hp
        split at hp
        · cases hp
        · next hc => exact absurd (h.alone _ _ _ hp hq) hc
    · have hne : Thread.proc p ≠ s.current c := by
        rw [current_of_proc hq]
        rintro ⟨⟩
        exact hpq rfl
      refine ⟨fun hnone => ?_, fun c' hp => ?_⟩
      · rw [set_threads_of_ne hne]
        refine hb.away fun c' hp => ?_
        have hgone := hnone c'
        rw [set_proc_eq] at hgone
        split at hgone
        · next hc =>
          rw [hc, hq] at hp
          exact hpq (Option.some.inj hp).symm
        · exact hgone hp
      · rw [set_proc_eq] at hp
        split at hp
        · cases hp
        · next hc =>
          rw [set_cpus_of_ne hc, set_thread_of_ne h hc]
          exact hb.on c' hp
  | @start c q hproc hloop hq =>
    by_cases hpq : p = q
    · subst hpq
      have hrestore := hb.away hq
      refine ⟨fun hnone => absurd (proc_start.trans (if_pos rfl)) (hnone c), fun c' hp => ?_⟩
      have hproc' := proc_start.symm.trans hp
      split at hproc'
      · next hc =>
        rw [thread_start, if_pos hc]
        simp only [Keeps, hrestore]
      · exact absurd hproc' (hq c')
    · refine ⟨fun hnone => hb.away fun c' hp => ?_, fun c' hp => ?_⟩
      · refine hnone c' (proc_start.trans ?_)
        split
        · next hc =>
          rw [hc, hproc] at hp
          cases hp
        · exact hp
      · have hproc' := proc_start.symm.trans hp
        split at hproc'
        · exact absurd (Option.some.inj hproc').symm hpq
        · next hc =>
          rw [thread_start, if_neg hc]
          show Keeps b (Function.update s.cpus c _ c') _
          rw [Function.update_of_ne hc]
          exact hb.on c' hproc'

/-- Only a statement of the thread itself changes its depth. -/
theorem Moves.own (h : Inv owner s) (hm : Moves owner s a t) (hne : t.depth p ≠ s.depth p) :
    ∃ c owner', Local owner owner' c s t ∧ (s.cpus c).proc = some p := by
  cases hm with
  | @stay _ _ c owner' hl =>
    refine ⟨c, owner', hl, ?_⟩
    by_contra hp
    exact hne (congrArg Kthread.depth (hl.threads_proc hp))
  | tell hp hheld => exact absurd rfl hne
  | @recast c q st hq =>
    refine absurd ?_ hne
    show ((if st = .used then Function.update s.threads (.proc q) (.fresh q) else s.threads) (.proc p)).depth = _
    by_cases hpq : p = q
    · subst hpq
      obtain ⟨hheld, hbare, hpc, -⟩ := h.parked p hq
      split
      · rw [Function.update_self, State.depth, Kthread.depth, Kthread.depth, hheld, hbare]
        obtain hpc | ⟨v, hpc⟩ := hpc
        · rw [hpc]
          rfl
        · rw [hpc]
          rfl
      · rfl
    · rw [recast_threads (.inl fun heq => hpq (Thread.proc.inj heq))]
      rfl
  | @leave c q hq hheld hbare hpc =>
    refine absurd ?_ hne
    unfold State.depth
    by_cases hpq : p = q
    · subst hpq
      rw [threads_leave hq, ← thread_of_proc hq]
      simp only [Kthread.depth, Kthread.goto, hpc, Pc.pending]
    · rw [set_threads_of_ne]
      rw [current_of_proc hq]
      exact fun heq => hpq (Thread.proc.inj heq)
  | start hproc hloop hq => exact absurd rfl hne

theorem Moves.leaves (h : Inv owner s) (hm : Moves owner s a t) (hzero : s.depth p = 0) (hpos : 0 < t.depth p) :
    ∃ c, (s.cpus c).proc = some p ∧ Carries p (s.cpus c).intr t := by
  obtain ⟨c, owner', hl, hp⟩ := hm.own (p := p) h (by omega)
  refine ⟨c, hp, fun hnone => absurd (hl.proc.trans hp) (hnone c), fun c' hp' => ?_⟩
  obtain rfl := h.alone _ _ _ hp (hl.proc_eq c' ▸ hp')
  rw [thread_of_proc hp']
  exact (hl.keeping_proc hp).leave hzero hpos

theorem Moves.returns (h : Inv owner s) (hm : Moves owner s a t) (hb : Carries p b s) (hpos : 0 < s.depth p)
    (hzero : t.depth p = 0) : ∃ c, (t.cpus c).proc = some p ∧ (t.cpus c).intr = b := by
  obtain ⟨c, owner', hl, hp⟩ := hm.own (p := p) h (by omega)
  have hon := hb.on c hp
  rw [thread_of_proc hp] at hon
  exact ⟨c, hl.proc.trans hp, (hl.keeping_proc hp).back b hpos hzero hon⟩

end

/-! ### Runs -/

section Runs
variable [DecidableEq κ] [DecidableEq P] [DecidableEq Λ]

/-- The thread of `p` left depth zero in `s` and has been above it since, up to `t`: no other process took its slot. -/
inductive Nested (p : P) (s : State κ P Λ) : State κ P Λ → Prop
  | left {a : Action κ P Λ} {t : State κ P Λ} (hzero : s.depth p = 0) (hstep : Step s a t) (hpos : 0 < t.depth p) :
      Nested p s t
  | stayed {a : Action κ P Λ} {t u : State κ P Λ} (h : Nested p s t) (hstep : Step t a u)
      (hsame : ∀ c, a ≠ .recast c p .used) (hpos : 0 < u.depth p) : Nested p s u

/-- The thread of `p` runs on the CPU `c` and on no other. -/
def RunsOn (s : State κ P Λ) (p : P) (c : κ) : Prop := ∀ c', (s.cpus c').proc = some p ↔ c' = c

variable {owner : Lock P Λ → Option κ} {s t u : State κ P Λ} {a : Action κ P Λ} {as : List (Action κ P Λ)} {c : κ} {p : P}

omit [DecidableEq κ] [DecidableEq P] [DecidableEq Λ] in
theorem Inv.runsOn (h : Inv owner s) (hp : (s.cpus c).proc = some p) : RunsOn s p c := by
  refine fun c' => ⟨fun hp' => h.alone _ _ _ hp' hp, ?_⟩
  rintro rfl
  exact hp

omit [DecidableEq κ] [DecidableEq P] [DecidableEq Λ] in
theorem inv_boot : Inv (fun _ => none) (boot : State κ P Λ) where
  locked _ := rfl
  runs _ := ⟨rfl, nofun, nofun, nofun, .nil, nofun, nofun, nofun, nofun, nofun⟩
  parked p _ := parked_loop p
  loop _ _ := nofun
  alone _ _ _ := nofun
  leaving _ _ := nofun

theorem step_inv (h : ∃ owner, Inv owner s) (hstep : Step s a t) : ∃ owner, Inv owner t := by
  obtain ⟨owner, h⟩ := h
  exact (h.moves hstep).inv h

theorem Nested.inv (h : ∃ owner, Inv owner s) (hn : Nested p s t) : ∃ owner, Inv owner t := by
  induction hn with
  | left _ hstep _ => exact step_inv h hstep
  | stayed _ hstep _ _ ih => exact step_inv ih hstep

theorem Nested.carries (h : Inv owner s) (hn : Nested p s t) :
    0 < t.depth p ∧ ∃ c, (s.cpus c).proc = some p ∧ Carries p (s.cpus c).intr t := by
  induction hn with
  | left hzero hstep hpos => exact ⟨hpos, (h.moves hstep).leaves h hzero hpos⟩
  | stayed hn hstep hsame hpos' ih =>
    obtain ⟨hpos, c, hp, hb⟩ := ih
    obtain ⟨owner', h'⟩ := hn.inv ⟨owner, h⟩
    exact ⟨hpos', c, hp, (h'.moves hstep).carries h' hsame hpos hpos' hb⟩

omit [DecidableEq κ] [DecidableEq P] [DecidableEq Λ] in
/-- Off its CPU a thread is in `sched`, or has not begun. -/
theorem Inv.panic_possible (h : Inv owner s) {τ : Thread κ P} {m : Panic} (hpc : (s.threads τ).pc = .panic m) :
    m.Possible := by
  by_cases hon : ∃ c, s.current c = τ
  · obtain ⟨c, rfl⟩ := hon
    exact (h.runs c).sound m hpc
  · cases τ with
    | proc p =>
      have hparked := h.parked p fun c hp => hon ⟨c, current_of_proc hp⟩
      obtain hout | ⟨v, hrestore⟩ := hparked.pc
      · exact nomatch hout.symm.trans hpc
      · exact nomatch hrestore.symm.trans hpc
    | scheduler c =>
      cases hproc : (s.cpus c).proc with
      | none => exact absurd ⟨c, current_of_none hproc⟩ hon
      | some p =>
        rw [h.loop c p hproc] at hpc
        cases hpc

/-- In every run interrupts are off where `noff` is positive, `release` and `pop_off` do not panic, and whenever a thread has
    undone all of its `push_off`, on whatever CPU, interrupts are there as they were where it began. -/
theorem interrupts_run (hrun : Run Step (boot : State κ P Λ) as s) :
    (∀ c, 0 < (s.cpus c).noff → (s.cpus c).intr = false) ∧
    (∀ τ m, (s.threads τ).pc = .panic m → m ≠ .release ∧ m ≠ .interruptible ∧ m ≠ .popOff) ∧
    ∀ p t a u, Nested p s t → Step t a u → u.depth p = 0 →
      ∃ c c', RunsOn s p c ∧ RunsOn u p c' ∧ (u.cpus c').intr = (s.cpus c).intr := by
  obtain ⟨owner, h⟩ := hrun.invariant (I := fun s => ∃ owner, Inv owner s) (fun _ _ _ => step_inv) ⟨_, inv_boot⟩
  refine ⟨fun c hpos => ?_, fun τ m hpc => ?_, fun p t a u hn hstep hzero => ?_⟩
  · have hnoff := (h.runs c).noff
    exact (h.runs c).off (by omega)
  · have hm := h.panic_possible hpc
    cases m with
    | release | interruptible | popOff => cases hm
    | _ => exact ⟨nofun, nofun, nofun⟩
  · obtain ⟨hpos, c, hp, hb⟩ := hn.carries h
    obtain ⟨owner', h'⟩ := hn.inv ⟨owner, h⟩
    obtain ⟨owner'', h''⟩ := step_inv ⟨owner', h'⟩ hstep
    obtain ⟨c', hp', hintr⟩ := (h'.moves hstep).returns h' hb hpos hzero
    exact ⟨c, c', h.runsOn hp, h''.runsOn hp', hintr⟩

end Runs

/-! ### A first process -/

abbrev Small : Type := State (Fin 1) (Fin 1) Empty

/-- `main` makes a process and runs it with the interrupts on; it has left `forkret` and calls `push_off`. -/
def toPushOff : List (Action (Fin 1) (Fin 1) Empty) :=
  [.intrOn 0, .call 0 (.acquire (.proc 0))] ++ List.replicate 4 (.advance 0) ++
    [.recast 0 0 .used, .recast 0 0 .runnable, .dispatch 0 0, .call 0 (.release (.proc 0))] ++
    List.replicate 3 (.advance 0) ++ [.call 0 .pushOff]

theorem toPushOff_runs : (toPushOff.foldlM step (boot : Small)).isSome := by decide +kernel

def atPushOff : Small := (toPushOff.foldlM step boot).get toPushOff_runs

theorem pushOff_runs : (step atPushOff (.advance 0)).isSome := by decide +kernel

def pushed : Small := (step atPushOff (.advance 0)).get pushOff_runs

theorem popOff_runs : (step pushed (.call 0 .popOff)).isSome := by decide +kernel

def popping : Small := (step pushed (.call 0 .popOff)).get popOff_runs

theorem popped_runs : (step popping (.advance 0)).isSome := by decide +kernel

theorem interrupts_run_pushOff :
    Nested 0 atPushOff popping ∧ (pushed.cpus 0).intr = false ∧
      ∃ u, Step popping (.advance 0) u ∧ (u.cpus 0).intr = true := by
  have hrun : Run Step (boot : Small) toPushOff atPushOff := run_of_foldlM (Option.some_get toPushOff_runs).symm
  have hleft : Nested 0 atPushOff pushed :=
    .left (by decide +kernel) (Option.some_get pushOff_runs).symm (by decide +kernel)
  have hnested : Nested 0 atPushOff popping :=
    hleft.stayed (Option.some_get popOff_runs).symm (by decide) (by decide +kernel)
  have hpushed : Run Step (boot : Small) (toPushOff ++ [.advance 0]) pushed := hrun.tail (Option.some_get pushOff_runs).symm
  have hoff := (interrupts_run hpushed).1 0 (by decide +kernel)
  obtain ⟨c, c', -, -, hintr⟩ :=
    (interrupts_run hrun).2.2 0 popping (.advance 0) _ hnested (Option.some_get popped_runs).symm (by decide +kernel)
  obtain rfl : c = 0 := Subsingleton.elim ..
  obtain rfl : c' = 0 := Subsingleton.elim ..
  have htrue : (atPushOff.cpus 0).intr = true := by decide +kernel
  exact ⟨hnested, hoff, _, (Option.some_get popped_runs).symm, hintr.trans htrue⟩

end LabSO.Kernel.PushOff

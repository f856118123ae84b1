import LabSO.Kernel.ProcKin

/-! No exit is missed: while `wait_lock` is free, a process that sleeps in `wait` has no child that is a zombie. A child that
    exits wakes its parent first, and one left to `init` wakes `init`; either holds `wait_lock` until that is done. -/

namespace LabSO.Kernel.Procs
open Transition Locks

variable {n : Nat} {κ : Type} {init p : Fin n} {s t : State n κ} {pc pc' : Pc n} {effect : Effect n} {event : Event n}

/-! ### Places in the code -/

/-- How many slots `wait` has found without a child that is a zombie. -/
def Section.scanned : Section n → Option Nat
  | .waitScan _ _ j => some j
  | .waitCheck _ q => some q
  | .waitSkip _ q => some (q + 1)
  | .waitKilled _ | .waitKilledRead _ | .waitKilledRelease .. | .sleepAcquire (.wait _) | .sleepRelease (.wait _) => some n
  | _ => none

/-- In `wakeup`: the channel, and how many slots are done. -/
def Section.waking : Section n → Option (Option (Chan n) × Nat × Waker)
  | .wakeup chan j f => some (chan, j, f)
  | .wakeupTest chan q f => some (chan, q, f)
  | .wakeupRelease chan q f => some (chan, q + 1, f)
  | _ => none

/-- In `exit` of a process: its parent is awake if it is among so many slots. -/
def Section.roused : Section n → Option Nat
  | .wakeup _ j (.exit _) => some j
  | .wakeupTest _ q (.exit _) => some q
  | .wakeupRelease _ q (.exit _) => some (q + 1)
  | .exitLock _ | .exitState _ => some n
  | _ => none

def Pc.scanned : Pc n → Option Nat
  | .inside sec => sec.scanned
  | _ => none

def Pc.waking : Pc n → Option (Option (Chan n) × Nat × Waker)
  | .inside sec => sec.waking
  | _ => none

def Pc.roused : Pc n → Option Nat
  | .inside sec => sec.roused
  | _ => none

/-- About to sleep in `wait` and without `wait_lock`, or asleep there. -/
def State.Drowsy (s : State n κ) (p : Fin n) : Prop :=
  (∃ bad, s.thread p = .inside (.sleepMark (.wait bad))) ∨
    (s.procs p).state = .sleeping ∧ (s.procs p).chan = some (.proc p)

theorem wait_of_scanned (h : pc.scanned ≠ none) : pc.heldOuter = some .wait := by
  cases pc with
  | inside sec =>
    cases sec with
    | sleepAcquire f | sleepRelease f => cases f <;> first | rfl | exact absurd rfl h
    | _ => first | rfl | exact absurd rfl h
  | _ => exact absurd rfl h

theorem wait_of_waking {chan : Option (Chan n)} {j : Nat} {f : Waker} (h : pc.waking = some (chan, j, f))
    (hf : f.lk = .wait) : pc.heldOuter = some .wait := by
  cases pc with
  | inside sec => cases sec <;> cases h <;> exact congrArg some hf
  | _ => cases h

theorem wait_of_roused (h : pc.roused ≠ none) : pc.heldOuter = some .wait := by
  cases pc with
  | inside sec =>
    cases sec with
    | wakeup chan j f | wakeupTest chan j f | wakeupRelease chan j f => cases f <;> first | rfl | exact absurd rfl h
    | _ => first | rfl | exact absurd rfl h
  | _ => exact absurd rfl h

/-- A thread in `exit` with `wait_lock` runs. -/
theorem own_of_roused (h : pc.roused ≠ none) : pc.own = .running := by
  cases pc with
  | inside sec => cases sec <;> first | rfl | exact absurd rfl h
  | _ => exact absurd rfl h

theorem own_of_waking (h : pc.waking ≠ none) : pc.own = .running := by
  cases pc with
  | inside sec => cases sec <;> first | rfl | exact absurd rfl h
  | _ => exact absurd rfl h

/-! ### The invariant -/

/-- What a thread in `wait` or `exit` has made sure of. -/
structure Alert (init : Fin n) (s : State n κ) (p : Fin n) (pc : Pc n) : Prop where
  scanned : ∀ j, pc.scanned = some j → ∀ q : Fin n, q < j → (s.procs q).parent = some p → (s.procs q).state ≠ .zombie
  reparent : ∀ chan j status k, pc.waking = some (chan, j, .reparent status k) → chan = some (.proc init)
  exit : ∀ chan j status, pc.waking = some (chan, j, .exit status) → chan = (s.procs p).parent.map .proc
  roused : ∀ j, pc.roused = some j → ∀ q : Fin n, (s.procs p).parent = some q → q < j → ¬s.Drowsy q

/-- A thread in `reparent` that is to wake `init` yet. -/
def Pending (init : Fin n) (pc : Pc n) : Prop :=
  ∃ chan j status k, pc.waking = some (chan, j, .reparent status k) ∧ j ≤ init

structure Heard (init : Fin n) (s : State n κ) : Prop where
  alert : ∀ p, Alert init s p (s.thread p)
  heard : ∀ p q, s.Drowsy p → (s.procs q).parent = some p → (s.procs q).state = .zombie →
    p = init ∧ ∃ r, Pending init (s.thread r)

/-- Nothing comes about that a thread with `wait_lock` has to know of. -/
structure Frozen (s t : State n κ) : Prop where
  parent : ∀ q r, (t.procs q).parent = some r → (s.procs q).parent = some r
  own : ∀ q, Live (s.procs q).state → (t.procs q).parent = (s.procs q).parent
  zombie : ∀ q, (t.procs q).state = .zombie → (s.procs q).state = .zombie
  drowsy : ∀ q, t.Drowsy q → s.Drowsy q

theorem Alert.frozen (h : Alert init s p pc) (hf : Frozen s t) (hlive : pc.roused ≠ none ∨ pc.waking ≠ none → Live (s.procs p).state) :
    Alert init t p pc where
  scanned j hj q hq hparent hzombie := h.scanned j hj q hq (hf.parent q p hparent) (hf.zombie q hzombie)
  reparent := h.reparent
  exit chan j status hw := by
    rw [hf.own p (hlive (Or.inr (by rw [hw]; simp)))]
    exact h.exit chan j status hw
  roused j hj q hparent hq hdrowsy := by
    rw [hf.own p (hlive (Or.inl (by rw [hj]; simp)))] at hparent
    exact h.roused j hj q hparent hq (hf.drowsy q hdrowsy)

/-- A thread without `wait_lock` has nothing to know. -/
theorem Alert.out (h : pc.heldOuter ≠ some .wait) : Alert init s p pc where
  scanned j hj := absurd (wait_of_scanned (by rw [hj]; simp)) h
  reparent chan j status k hw := absurd (wait_of_waking hw rfl) h
  exit chan j status hw := absurd (wait_of_waking hw rfl) h
  roused j hj := absurd (wait_of_roused (by rw [hj]; simp)) h

theorem Alert.idle (hscanned : pc.scanned = none) (hwaking : pc.waking = none) (hroused : pc.roused = none) :
    Alert init s p pc where
  scanned j hj := by rw [hscanned] at hj; cases hj
  reparent chan j status k hw := by rw [hwaking] at hw; cases hw
  exit chan j status hw := by rw [hwaking] at hw; cases hw
  roused j hj := by rw [hroused] at hj; cases hj

/-! ### What an instruction makes sure of -/

/-- A `wakeup` of `p` is done with the slot `q`: it is its own, or it is tested now. -/
def Done (p : Fin n) (pc : Pc n) (f : Waker) (q : Fin n) : Prop := q = p ∨ ∃ chan, pc = .inside (.wakeupTest chan q f)

/-- The next place in the code makes sure of no more than the one before and what the thread found. -/
structure Heeds (init : Fin n) (s : State n κ) (p : Fin n) (pc pc' : Pc n) : Prop where
  scanned : ∀ j', pc'.scanned = some j' → ∀ q : Fin n, q < j' → (∃ j, pc.scanned = some j ∧ q < j) ∨
    (s.procs q).parent ≠ some p ∨ (s.procs q).state ≠ .zombie
  reparent : ∀ chan j' status k, pc'.waking = some (chan, j', .reparent status k) → chan = some (.proc init) ∨
    ∃ j, pc.waking = some (chan, j, .reparent status k)
  exit : ∀ chan j' status, pc'.waking = some (chan, j', .exit status) → chan = (s.procs p).parent.map .proc ∨
    ∃ j, pc.waking = some (chan, j, .exit status)
  roused : ∀ j', pc'.roused = some j' → ∀ q : Fin n, q < j' → (∃ j, pc.roused = some j ∧ q < j) ∨
    ∃ status, Done p pc (.exit status) q
  moves : ∀ chan j status k, pc.waking = some (chan, j, .reparent status k) → ∀ q : Fin n, j ≤ q →
    (∃ j', pc'.waking = some (chan, j', .reparent status k) ∧ j' ≤ q) ∨ Done p pc (.reparent status k) q

theorem Heeds.scan (hscanned : ∀ j', pc'.scanned = some j' → ∀ q : Fin n, q < j' → (∃ j, pc.scanned = some j ∧ q < j) ∨
    (s.procs q).parent ≠ some p ∨ (s.procs q).state ≠ .zombie) (hwaking : pc.waking = none) (hwaking' : pc'.waking = none)
    (hroused : pc'.roused = none) : Heeds init s p pc pc' where
  scanned := hscanned
  reparent chan j' status k hw := by rw [hwaking'] at hw; cases hw
  exit chan j' status hw := by rw [hwaking'] at hw; cases hw
  roused j' hj' := by rw [hroused] at hj'; cases hj'
  moves chan j status k hw := by rw [hwaking] at hw; cases hw

theorem Heeds.out (hscanned : pc'.scanned = none) (hwaking : pc.waking = none) (hwaking' : pc'.waking = none)
    (hroused : pc'.roused = none) : Heeds init s p pc pc' :=
  .scan (fun j' hj' => by rw [hscanned] at hj'; cases hj') hwaking hwaking' hroused

theorem Heeds.scan_same (hscanned : pc'.scanned = pc.scanned) (hwaking : pc.waking = none) (hwaking' : pc'.waking = none)
    (hroused : pc'.roused = none) : Heeds init s p pc pc' :=
  .scan (fun j' hj' _ hq => Or.inl ⟨j', hscanned ▸ hj', hq⟩) hwaking hwaking' hroused

/-- In `wakeup`, from one slot to another. -/
theorem Heeds.wakeup {chan : Option (Chan n)} {j j' : Nat} {f : Waker} (hw : pc.waking = some (chan, j, f))
    (hw' : pc'.waking = some (chan, j', f)) (hscanned : pc'.scanned = none)
    (hroused : pc'.roused ≠ none → pc.roused = some j ∧ pc'.roused = some j' ∧ ∃ status, f = .exit status)
    (hdone : ∀ q : Fin n, q < j' → q < j ∨ Done p pc f q) : Heeds init s p pc pc' where
  scanned k hk := by rw [hscanned] at hk; cases hk
  reparent chan' k status l hw'' := by
    cases hw'.symm.trans hw''
    exact Or.inr ⟨j, hw⟩
  exit chan' k status hw'' := by
    cases hw'.symm.trans hw''
    exact Or.inr ⟨j, hw⟩
  roused k hk q hq := by
    obtain ⟨hj, hj', status, rfl⟩ := hroused (by rw [hk]; simp)
    obtain rfl := Option.some.inj (hj'.symm.trans hk)
    exact (hdone q hq).imp (fun hlt => ⟨j, hj, hlt⟩) fun hq => ⟨status, hq⟩
  moves chan' k status l hw'' q hq := by
    cases hw.symm.trans hw''
    by_cases hlt : (q : Nat) < j'
    · exact Or.inr ((hdone q hlt).resolve_left (by omega))
    · exact Or.inl ⟨j', hw', by omega⟩

/-- A `wakeup` that is done with all slots. -/
theorem Heeds.wakeup_end {chan : Option (Chan n)} {j : Nat} {f : Waker} (all : ¬j < n) :
    Heeds init s p (.inside (.wakeup chan j f)) (.inside f.return) := by
  refine ⟨?_, ?_, ?_, fun j' hj' q hq => Or.inl ?_, fun chan' j' status k hw q hq => ?_⟩
  · cases f <;> simp [Pc.scanned, Section.scanned, Waker.return]
  · cases f <;> simp [Pc.waking, Section.waking, Waker.return]
  · cases f <;> simp [Pc.waking, Section.waking, Waker.return]
  · cases f with
    | exit status => exact ⟨j, rfl, by omega⟩
    | _ => cases hj'
  · cases hw
    omega

theorem lt_succ_cases {q r : Fin n} (h : (q : Nat) < r + 1) : (q : Nat) < r ∨ q = r :=
  (Nat.lt_succ_iff_lt_or_eq.mp h).imp_right Fin.ext

theorem SectionInstr.heeds {sec : Section n} (h : SectionInstr init s p sec effect pc' event) :
    Heeds init s p (.inside sec) pc' := by
  cases h with
  | @waitOther bad havekids q other =>
    refine .scan (fun j' hj' r hr => ?_) rfl rfl rfl
    cases hj'
    rcases lt_succ_cases hr with hlt | rfl
    · exact Or.inl ⟨q, rfl, hlt⟩
    · exact Or.inr (Or.inl other)
  | @waitAlive bad q alive =>
    refine .scan (fun j' hj' r hr => ?_) rfl rfl rfl
    cases hj'
    rcases lt_succ_cases hr with hlt | rfl
    · exact Or.inl ⟨q, rfl, hlt⟩
    · exact Or.inr (Or.inr alive)
  | @waitEnd bad havekids j all => exact .scan (fun j' _ r _ => Or.inl ⟨j, rfl, by omega⟩) rfl rfl rfl
  | waitChild | waitSkip | waitKilled | waitKilledRead | waitSleeps => exact .scan_same rfl rfl rfl rfl
  | @sleepAcquire f => cases f <;> exact .scan_same rfl rfl rfl rfl
  | reparent child =>
    refine ⟨?_, fun chan j status k hw => ?_, ?_, ?_, ?_⟩
    · simp [Pc.scanned, Section.scanned]
    · cases hw
      exact Or.inl rfl
    all_goals simp [Pc.waking, Section.waking, Pc.roused, Section.roused]
  | exitWakeup =>
    refine ⟨?_, ?_, fun chan j status hw => ?_, fun j hj q hq => ?_, ?_⟩
    · simp [Pc.scanned, Section.scanned]
    · simp [Pc.waking, Section.waking]
    · cases hw
      exact Or.inl rfl
    · cases hj
      exact absurd hq (Nat.not_lt_zero _)
    · simp [Pc.waking, Section.waking]
  | exitLock =>
    refine ⟨?_, ?_, ?_, fun j hj q hq => Or.inl ⟨j, hj, hq⟩, ?_⟩ <;> simp [Pc.scanned, Section.scanned, Pc.waking, Section.waking]
  | @wakeupSelf chan f =>
    refine .wakeup rfl rfl rfl (fun hne => ?_) fun q hq => ?_
    · cases f <;> first | exact ⟨rfl, rfl, _, rfl⟩ | exact absurd rfl hne
    · rcases lt_succ_cases hq with hlt | rfl
      · exact Or.inl hlt
      · exact Or.inr (Or.inl rfl)
  | @wakeupAcquire chan q f =>
    refine .wakeup rfl rfl rfl (fun hne => ?_) fun q hq => Or.inl hq
    cases f <;> first | exact ⟨rfl, rfl, _, rfl⟩ | exact absurd rfl hne
  | @wake chan q f =>
    refine .wakeup rfl rfl rfl (fun hne => ?_) fun r hr => ?_
    · cases f <;> first | exact ⟨rfl, rfl, _, rfl⟩ | exact absurd rfl hne
    · rcases lt_succ_cases hr with hlt | rfl
      · exact Or.inl hlt
      · exact Or.inr (Or.inr ⟨chan, rfl⟩)
  | @wakeupRelease chan q f =>
    refine .wakeup rfl rfl rfl (fun hne => ?_) fun r hr => Or.inl hr
    cases f <;> first | exact ⟨rfl, rfl, _, rfl⟩ | exact absurd rfl hne
  | wakeupEnd all => exact .wakeup_end all
  | _ => exact .out rfl rfl rfl rfl

theorem Instr.heeds (h : Instr init s p pc effect pc' event) : Heeds init s p pc pc' := by
  cases h with
  | inside instr => exact instr.heeds
  | waitAcquire => exact .scan (fun j hj q hq => by cases hj; exact absurd hq (Nat.not_lt_zero _)) rfl rfl rfl
  | @reacquire f =>
    cases f with
    | wait bad => exact .scan (fun j hj q hq => by cases hj; exact absurd hq (Nat.not_lt_zero _)) rfl rfl rfl
    | other i chan => exact .out rfl rfl rfl rfl
  | _ => exact .out rfl rfl rfl rfl

theorem Enters.heeds (h : Enters init p pc pc') : Heeds init s p pc pc' := by
  cases h with
  | @wakeup i chan =>
    refine ⟨?_, ?_, ?_, ?_, ?_⟩ <;> simp [Pc.scanned, Section.scanned, Pc.waking, Section.waking, Pc.roused, Section.roused]
  | _ => exact .out rfl rfl rfl rfl

/-! ### Falling asleep -/

/-- A slot that says that its process sleeps in `wait`. -/
def Asleep (q : Fin n) (x : Proc n) : Prop := x.state = .sleeping ∧ x.chan = some (.proc q)

theorem Asleep.write {q r : Fin n} {x : Proc n} (hx : Asleep q x → Asleep q (s.procs q))
    (h : Asleep r (Function.update s.procs q x r)) : Asleep r (s.procs r) := by
  by_cases hr : r = q
  · subst hr
    rw [Function.update_self] at h
    exact hx h
  · rwa [Function.update_of_ne hr] at h

theorem Asleep.wake {q : Fin n} {x : Proc n} {chan : Option (Chan n)} (h : Asleep q (x.wake chan)) :
    Asleep q x ∧ chan ≠ some (.proc q) := by
  unfold Proc.wake at h
  split at h
  · cases h.1
  · next hnot => exact ⟨h, fun heq => hnot ⟨h.1, h.2.trans heq.symm⟩⟩

theorem Asleep.kill {q : Fin n} {x : Proc n} (h : Asleep q x.kill) : Asleep q x := by
  obtain ⟨hst, hchan⟩ := h
  rcases kill_state x with hsame | ⟨-, hrunnable⟩
  · exact ⟨hsame ▸ hst, hchan⟩
  · rw [hrunnable] at hst
    cases hst

/-- Only `sleep` in `wait` puts a process to sleep there. -/
theorem SectionInstr.asleep {sec : Section n} (h : SectionInstr init s p sec effect pc' event) {q : Fin n}
    (hq : Asleep q (effect.procs s q)) : Asleep q (s.procs q) ∨ q = p ∧ ∃ bad, sec = .sleepMark (.wait bad) := by
  cases h with
  | create | drop | start | die | reap => exact Or.inl (Asleep.write (fun hx => by cases hx.1) hq)
  | adopt | reparent | setkilled => exact Or.inl (Asleep.write (fun hx => by exact ⟨hx.1, hx.2⟩) hq)
  | wake => exact Or.inl (Asleep.write (fun hx => hx.wake.1) hq)
  | kill => exact Or.inl (Asleep.write Asleep.kill hq)
  | sleepTidy => exact Or.inl (Asleep.write (fun hx => by cases hx.2) hq)
  | @sleepMark f =>
    cases f with
    | wait bad =>
      by_cases hqp : q = p
      · exact Or.inr ⟨hqp, bad, rfl⟩
      · exact Or.inl (by rwa [Effect.procs, Function.update_of_ne hqp] at hq)
    | other i chan => exact Or.inl (Asleep.write (fun hx => by cases hx.2) hq)
  | _ => exact Or.inl hq

theorem Instr.asleep (h : Instr init s p pc effect pc' event) {q : Fin n} (hq : Asleep q (effect.procs s q)) :
    Asleep q (s.procs q) ∨ q = p ∧ ∃ bad, pc = .inside (.sleepMark (.wait bad)) := by
  cases h with
  | inside instr => exact (instr.asleep hq).imp_right fun ⟨hqp, bad, hsec⟩ => ⟨hqp, bad, congrArg _ hsec⟩
  | yieldState => exact Or.inl (Asleep.write (fun hx => by cases hx.1) hq)
  | _ => exact Or.inl hq

theorem SectionInstr.mark {sec : Section n} {f : Sleeper} (h : SectionInstr init s p sec effect pc' event)
    (hpc' : pc' = .inside (.sleepMark f)) : sec = .sleepRelease f := by
  cases h with
  | sleepRelease =>
    cases hpc'
    rfl
  | @wakeupEnd chan j f => cases f <;> cases hpc'
  | _ => cases hpc'

theorem Instr.mark {f : Sleeper} (h : Instr init s p pc effect pc' event) (hpc' : pc' = .inside (.sleepMark f)) :
    pc = .inside (.sleepRelease f) := by
  cases h with
  | inside instr => exact congrArg _ (instr.mark hpc')
  | @reacquire f => cases f <;> cases hpc'
  | _ => cases hpc'

theorem Enters.mark {f : Sleeper} (h : Enters init p pc pc') : pc' ≠ .inside (.sleepMark f) := by
  cases h <;> simp

/-! ### A step -/

/-- A process that wakes others in `exit` runs. -/
theorem Sched.exit_running (h : Sched s) (hp : (s.thread p).roused ≠ none ∨ (s.thread p).waking ≠ none) :
    (s.procs p).state = .running := by
  have hown : (s.thread p).own = .running := hp.elim own_of_roused own_of_waking
  have hparked : ¬(s.thread p).Parked := by
    intro hparked
    generalize s.thread p = pc at hp hparked
    cases pc with
    | inside sec =>
      cases sec <;> first | exact hparked | simp [Pc.roused, Section.roused, Pc.waking, Section.waking] at hp
    | _ => simp [Pc.roused, Pc.waking] at hp
  obtain ⟨c, hc⟩ := h.on_cpu hparked
  rw [(h.runs hc).1, hown]

theorem Sched.live_of_exit (h : Sched s) (hp : (s.thread p).roused ≠ none ∨ (s.thread p).waking ≠ none) :
    Live (s.procs p).state := by
  rw [h.exit_running hp]
  exact Or.inr (Or.inr rfl)

theorem Sched.not_drowsy_of_exit (h : Sched s) (hp : (s.thread p).roused ≠ none ∨ (s.thread p).waking ≠ none) :
    ¬s.Drowsy p := by
  rintro (⟨bad, hthread⟩ | ⟨hsleep, -⟩)
  · simp [hthread, Pc.roused, Section.roused, Pc.waking, Section.waking] at hp
  · rw [h.exit_running hp] at hsleep
    cases hsleep

/-- The scheduler and interrupts. -/
theorem Heard.idle (h : Heard init s) (hs : Sched s) (hf : Frozen s t) (hthread : t.thread = s.thread) : Heard init t where
  alert p := by
    rw [hthread]
    exact (h.alert p).frozen hf hs.live_of_exit
  heard p q hdrowsy hparent hzombie := by
    rw [hthread]
    exact h.heard p q (hf.drowsy p hdrowsy) (hf.parent q p hparent) (hf.zombie q hzombie)

theorem Frozen.of_procs (hprocs : ∀ q, (t.procs q).parent = (s.procs q).parent)
    (hzombie : ∀ q, (t.procs q).state = .zombie → (s.procs q).state = .zombie) (hdrowsy : ∀ q, t.Drowsy q → s.Drowsy q) :
    Frozen s t where
  parent q _ hq := hprocs q ▸ hq
  own q _ := hprocs q
  zombie := hzombie
  drowsy := hdrowsy

theorem Tweak.zombie {x y : Proc n} (h : Tweak x y) (hy : y.state = .zombie) : x.state = .zombie := by
  rcases h.state with hst | ⟨-, hlive⟩
  · rw [← hst, hy]
  · simp [hy, Live] at hlive

section Thread
variable {c : κ} {cpu : Cpu n}

/-- Threads other than `p` stay where they are, but for one in the making. -/
def Others (s t : State n κ) (p : Fin n) : Prop :=
  ∀ r, r ≠ p → t.thread r = s.thread r ∨ (s.thread r).Parked ∧ t.thread r = forkret

theorem pending_not_parked (h : Pending init pc) : ¬pc.Parked := by
  obtain ⟨chan, j, status, k, hw, -⟩ := h
  cases pc with
  | inside sec => cases sec <;> first | exact id | cases hw
  | _ => cases hw

theorem Others.pending (h : Others s t p) {r : Fin n} (hr : r ≠ p) (hp : Pending init (s.thread r)) :
    Pending init (t.thread r) := by
  rcases h r hr with hthread | ⟨hparked, -⟩
  · rwa [hthread]
  · exact absurd hparked (pending_not_parked hp)

/-- What a thread that goes on has made sure of, when a `wakeup` has done what it should. -/
theorem Alert.heeds (h : Alert init s p pc) (hheeds : Heeds init s p pc pc') (hf : Frozen s t)
    (hlive : pc'.roused ≠ none ∨ pc'.waking ≠ none → Live (s.procs p).state ∧ ¬t.Drowsy p)
    (htest : ∀ q f, pc = .inside (.wakeupTest (some (.proc q)) q f) → ¬t.Drowsy q) : Alert init t p pc' where
  scanned j' hj' q hq hparent hzombie := by
    have hparent := hf.parent q p hparent
    have hzombie := hf.zombie q hzombie
    rcases hheeds.scanned j' hj' q hq with ⟨j, hj, hlt⟩ | hne | hne
    · exact h.scanned j hj q hlt hparent hzombie
    · exact hne hparent
    · exact hne hzombie
  reparent chan j' status k hw := by
    rcases hheeds.reparent chan j' status k hw with hchan | ⟨j, hj⟩
    · exact hchan
    · exact h.reparent chan j status k hj
  exit chan j' status hw := by
    rw [hf.own p (hlive (Or.inr (by rw [hw]; simp))).1]
    rcases hheeds.exit chan j' status hw with hchan | ⟨j, hj⟩
    · exact hchan
    · exact h.exit chan j status hj
  roused j' hj' q hparent hq hdrowsy := by
    obtain ⟨hp, hself⟩ := hlive (Or.inl (by rw [hj']; simp))
    rw [hf.own p hp] at hparent
    rcases hheeds.roused j' hj' q hq with ⟨j, hj, hlt⟩ | ⟨status, rfl | ⟨chan, rfl⟩⟩
    · exact h.roused j hj q hparent hlt (hf.drowsy q hdrowsy)
    · exact hself hdrowsy
    · have hchan := h.exit chan q status rfl
      rw [hparent] at hchan
      exact htest q _ (by rw [hchan]; rfl) hdrowsy

/-- A thread goes on, and nothing comes about that others have to know of. -/
theorem Heard.thread (h : Heard init s) (hs : Sched s) (hpc : s.thread p = pc) (hothers : Others s t p)
    (hthread : t.thread p = pc') (hf : Frozen s t) (hheeds : Heeds init s p pc pc')
    (hlive : pc'.roused ≠ none ∨ pc'.waking ≠ none → Live (s.procs p).state ∧ ¬t.Drowsy p)
    (htest : ∀ q f, pc = .inside (.wakeupTest (some (.proc q)) q f) → ¬t.Drowsy q)
    (hinit : Pending init pc → p ≠ init) : Heard init t := by
  have halert := h.alert p
  rw [hpc] at halert
  refine ⟨fun r => ?_, fun r q hdrowsy hparent hzombie => ?_⟩
  · by_cases hr : r = p
    · rw [hr, hthread]
      exact halert.heeds hheeds hf hlive htest
    · rcases hothers r hr with hsame | ⟨-, hforkret⟩
      · rw [hsame]
        exact (h.alert r).frozen hf hs.live_of_exit
      · rw [hforkret]
        exact .out (by simp [Pc.heldOuter, forkret])
  · obtain ⟨rfl, r', hr'⟩ := h.heard r q (hf.drowsy r hdrowsy) (hf.parent q r hparent) (hf.zombie q hzombie)
    refine ⟨rfl, ?_⟩
    by_cases hr : r' = p
    · rw [hr, hpc] at hr'
      have hne := hinit hr'
      obtain ⟨chan, j, status, k, hw, hj⟩ := hr'
      rcases hheeds.moves chan j status k hw r hj with ⟨j', hw', hj'⟩ | rfl | ⟨chan', rfl⟩
      · exact ⟨p, by rw [hthread]; exact ⟨chan, j', status, k, hw', hj'⟩⟩
      · exact absurd rfl hne
      · have hchan := halert.reparent chan' r status k rfl
        exact absurd hdrowsy (htest r _ (by rw [hchan]))
    · exact ⟨r', hothers.pending hr hr'⟩

/-- A thread with `wait_lock` goes on, which only it has to know of. -/
theorem Heard.locked (hs : Sched s) (hl : Locked s) (hwait : (s.thread p).heldOuter = some .wait)
    (hothers : Others s t p) (halert : Alert init t p (t.thread p))
    (hheard : ∀ r q, t.Drowsy r → (t.procs q).parent = some r → (t.procs q).state = .zombie →
      r = init ∧ ∃ r', Pending init (t.thread r')) : Heard init t where
  alert r := by
    by_cases hr : r = p
    · rw [hr]
      exact halert
    · have hne : (s.thread r).heldOuter ≠ some .wait := fun hr' => hr (hs.outer_unique hl hr' hwait)
      rcases hothers r hr with hsame | ⟨-, hforkret⟩
      · rw [hsame]
        exact .out hne
      · rw [hforkret]
        exact .out (by simp [Pc.heldOuter, forkret])
  heard := hheard

variable [DecidableEq κ] {F : Family n}

theorem others_goTo (hs : Sched s) (hpc : s.thread p = pc) (hk : Kind s p pc effect pc') (ha : applyEffect s c effect = some t) :
    Others s (t.goTo c p cpu pc') p := by
  intro r hr
  rw [State.goTo_thread, Function.update_of_ne hr]
  rcases applyEffect_thread ha r with hsame | ⟨rfl, hforkret⟩
  · exact Or.inl hsame
  · obtain ⟨m, hm, rfl⟩ := setup_making hk
    rw [← hpc] at hm
    exact Or.inr ⟨(hs.off m.np (hs.making_off hm)).2.parked, hforkret⟩

/-- A process becomes drowsy when it gives up `wait_lock` in `sleep`. -/
theorem drowsy_goTo (hpc : s.thread p = pc) (hothers : Others s (t.goTo c p cpu pc') p)
    (hinstr : Instr init s p pc effect pc' event) (ha : applyEffect s c effect = some t) {q : Fin n}
    (hq : (t.goTo c p cpu pc').Drowsy q) : s.Drowsy q ∨ q = p ∧ ∃ bad, pc = .inside (.sleepRelease (.wait bad)) := by
  rcases hq with ⟨bad, hthread⟩ | hasleep
  · by_cases hqp : q = p
    · subst hqp
      rw [State.goTo_thread, Function.update_self] at hthread
      exact Or.inr ⟨rfl, bad, hinstr.mark hthread⟩
    · rcases hothers q hqp with hsame | ⟨-, hforkret⟩
      · exact Or.inl (Or.inl ⟨bad, hsame ▸ hthread⟩)
      · rw [hforkret] at hthread
        cases hthread
  · rw [State.goTo_procs, applyEffect_procs ha] at hasleep
    rcases hinstr.asleep hasleep with hwas | ⟨rfl, bad, rfl⟩
    · exact Or.inl (Or.inr hwas)
    · exact Or.inl (Or.inl ⟨bad, hpc⟩)

/-- The process that a `wakeup` tests is awake then. -/
theorem awake_goTo {q : Fin n} {f : Waker} (hs : Sched s) (hl : Locked s)
    (hcpu : s.cpus c = .run p (.inside (.wakeupTest (some (.proc q)) q f))) :
    ¬((s.setProc q ((s.procs q).wake (some (.proc q)))).goTo c p cpu
      (.inside (.wakeupRelease (some (.proc q)) q f))).Drowsy q := by
  rintro (⟨bad, hthread⟩ | hasleep)
  · by_cases hqp : q = p
    · rw [hqp, State.goTo_thread, Function.update_self] at hthread
      cases hthread
    · rw [State.goTo_thread, Function.update_of_ne hqp, State.setProc_thread] at hthread
      -- It would hold its own lock, which the waker holds.
      obtain ⟨d, hd⟩ := hs.on_cpu (p := q) (by rw [hthread]; exact id)
      have hdc : d = c := hl.proc.unique (a := q) (by rw [State.heldProc, hd, hthread]; rfl) (by rw [State.heldProc, hcpu]; rfl)
      rw [hdc, hcpu] at hd
      injection hd with hpq
      exact hqp hpq.symm
  · rw [State.goTo_procs, State.setProc_procs, Function.update_self] at hasleep
    exact (Asleep.wake hasleep).2 rfl

theorem exits_of_pending (h : Pending init pc) : pc.Exits := by
  obtain ⟨chan, j, status, k, hw, -⟩ := h
  cases pc with
  | inside sec => cases sec <;> first | (cases hw; rfl) | cases hw
  | _ => cases hw

omit [DecidableEq κ] in
/-- A step with `wait_lock` in which `p` wakes nobody, and after which `p` knows nothing. -/
theorem Heard.deed {q : Fin n} {x : Proc n} (h : Heard init s) (hs : Sched s) (hl : Locked s) (hcpu : s.cpus c = .run p pc)
    (hwait : pc.heldOuter = some .wait) (hpending : ¬Pending init pc) (halert : Alert init t p pc')
    (hprocs : t.procs = Function.update s.procs q x) (hthread : t.thread = Function.update s.thread p pc')
    (hdrowsy : ∀ r, t.Drowsy r → s.Drowsy r)
    (hself : ∀ r, x.parent = some r → x.state = .zombie → s.Drowsy r → r = init ∧ ∃ r', Pending init (t.thread r')) :
    Heard init t := by
  have hpc := (hs.runs hcpu).2
  have hothers : Others s t p := fun r hr => Or.inl (by rw [hthread, Function.update_of_ne hr])
  refine .locked hs hl (by rw [hpc]; exact hwait) hothers (by rw [hthread, Function.update_self]; exact halert)
    fun r r' hdr hparent hzombie => ?_
  by_cases hq : r' = q
  · rw [hq, hprocs, Function.update_self] at hparent hzombie
    exact hself r hparent hzombie (hdrowsy r hdr)
  · rw [hprocs, Function.update_of_ne hq] at hparent hzombie
    obtain ⟨hinit, r'', hr''⟩ := h.heard r r' (hdrowsy r hdr) hparent hzombie
    have hne : r'' ≠ p := by
      rintro rfl
      rw [hpc] at hr''
      exact hpending hr''
    exact ⟨hinit, r'', hothers.pending hne hr''⟩

omit [DecidableEq κ] in
/-- A process gives up `wait_lock` in `sleep`: it has found no child that is a zombie. -/
theorem Heard.doze {bad : Bool} (h : Heard init s) (hs : Sched s) (hl : Locked s)
    (hcpu : s.cpus c = .run p (.inside (.sleepRelease (.wait bad)))) (hothers : Others s t p)
    (hthread : t.thread p = .inside (.sleepMark (.wait bad))) (hprocs : ∀ q, t.procs q = s.procs q)
    (hdrowsy : ∀ q, t.Drowsy q → s.Drowsy q ∨ q = p) : Heard init t := by
  have hpc := (hs.runs hcpu).2
  refine .locked hs hl (by rw [hpc]; rfl) hothers (by rw [hthread]; exact .idle rfl rfl rfl) fun r q hr hparent hzombie => ?_
  rw [hprocs] at hparent hzombie
  rcases hdrowsy r hr with hwas | rfl
  · obtain ⟨hinit, r', hr'⟩ := h.heard r q hwas hparent hzombie
    have hne : r' ≠ p := by
      rintro rfl
      rw [hpc] at hr'
      obtain ⟨chan, j, status, k, hw, -⟩ := hr'
      cases hw
    exact ⟨hinit, r', hothers.pending hne hr'⟩
  · have halert := h.alert r
    rw [hpc] at halert
    exact absurd hzombie (halert.scanned n rfl q q.isLt hparent)

theorem Heard.instr (h : Heard init s) (hkin : Kin init F s) (hs : Sched s) (hl : Locked s) (hcpu : s.cpus c = .run p pc)
    (hinstr : Instr init s p pc effect pc' event) (ha : applyEffect s c effect = some t)
    (hs' : Sched (t.goTo c p (effect.cpu p pc') pc')) : Heard init (t.goTo c p (effect.cpu p pc') pc') := by
  obtain ⟨hown, hpc⟩ := hs.runs hcpu
  have hothers : Others s (t.goTo c p (effect.cpu p pc') pc') p := others_goTo hs hpc hinstr.kind ha
  have hthread : (t.goTo c p (effect.cpu p pc') pc').thread p = pc' := goTo_thread_self
  have hdrowsy : (∀ bad, pc ≠ .inside (.sleepRelease (.wait bad))) →
      ∀ q, (t.goTo c p (effect.cpu p pc') pc').Drowsy q → s.Drowsy q := by
    intro hne q hq
    rcases drowsy_goTo hpc hothers hinstr ha hq with hwas | ⟨-, bad, heq⟩
    · exact hwas
    · exact absurd heq (hne bad)
  have hdoze : ∀ q, (t.goTo c p (effect.cpu p pc') pc').Drowsy q → s.Drowsy q ∨ q = p :=
    fun q hq => (drowsy_goTo hpc hothers hinstr ha hq).imp_right And.left
  have hheeds : Heeds init s p pc pc' := hinstr.heeds
  have hinit : Pending init pc → p ≠ init := fun hpending => by
    have hnote := hkin.note p
    rw [hpc] at hnote
    exact hnote.exits (exits_of_pending hpending)
  cases hinstr.deed hown with
  | @tweak _ _ _ _ htweak hquiet hfollows =>
    have hprocs : ∀ q, Procs.Tweak (s.procs q) (t.procs q) := fun q => htweak.procs ha q
    by_cases hsleep : ∃ bad, pc = .inside (.sleepRelease (.wait bad))
    · obtain ⟨bad, rfl⟩ := hsleep
      cases hinstr with
      | inside instr =>
        cases instr
        cases ha
        exact h.doze hs hl hcpu hothers hthread (fun _ => rfl) hdoze
    · have hne : ∀ bad, pc ≠ .inside (.sleepRelease (.wait bad)) := fun bad heq => hsleep ⟨bad, heq⟩
      refine h.thread hs hpc hothers hthread
        (.of_procs (fun q => (hprocs q).parent) (fun q => (hprocs q).zombie) (hdrowsy hne)) hheeds (fun hp => ?_) ?_ hinit
      · rw [← hthread] at hp
        refine ⟨?_, hs'.not_drowsy_of_exit hp⟩
        rcases (hprocs p).state with hst | ⟨hlive, -⟩
        · rw [← hst]
          exact hs'.live_of_exit hp
        · exact hlive
      · rintro q f rfl
        cases hinstr with
        | inside instr =>
          cases instr
          cases ha
          exact awake_goTo hs hl hcpu
  | @create mem np =>
    cases ha
    refine h.thread hs hpc hothers hthread (.of_procs (fun q => ?_) (fun q hq => ?_) (hdrowsy (by simp))) hheeds
      (by simp [Pc.roused, Section.roused, Pc.waking, Section.waking]) (by simp) hinit
    · by_cases hq : q = np <;> simp [hq]
    · by_cases hqnp : q = np
      · subst hqnp
        simp at hq
      · simpa [hqnp] using hq
  | @drop np pid =>
    cases ha
    have hm : (s.thread p).making = some ⟨np, some pid, false, false⟩ := by rw [hpc]; rfl
    have hused : (s.procs np).state = .used := (hs.making p _ hm).state
    refine h.thread hs hpc hothers hthread ⟨fun q r hq => ?_, fun q hq => ?_, fun q hq => ?_, hdrowsy (by simp)⟩ hheeds
      (by simp [Pc.roused, Section.roused, Pc.waking, Section.waking]) (by simp) hinit
    · by_cases hqnp : q = np
      · subst hqnp
        simp [Proc.free] at hq
      · simpa [hqnp] using hq
    · by_cases hqnp : q = np
      · simp [hqnp, hused, Live] at hq
      · simp [hqnp]
    · by_cases hqnp : q = np
      · subst hqnp
        simp [Proc.free] at hq
      · simpa [hqnp] using hq
  | @start np pid =>
    cases ha
    refine h.thread hs hpc hothers hthread (.of_procs (fun q => ?_) (fun q hq => ?_) (hdrowsy (by simp))) hheeds
      (by simp [Pc.roused, Section.roused, Pc.waking, Section.waking]) (by simp) hinit
    · by_cases hq : q = np <;> simp [hq]
    · by_cases hqnp : q = np
      · subst hqnp
        simp at hq
      · simpa [hqnp] using hq
  | @adopt np pid =>
    cases ha
    have hm : (s.thread p).making = some ⟨np, some pid, true, false⟩ := by rw [hpc]; rfl
    have hused : (s.procs np).state = .used := (hs.making p _ hm).state
    refine h.deed hs hl hcpu rfl (by rintro ⟨chan, j, status, k, hw, -⟩; cases hw) (.idle rfl rfl rfl) rfl rfl
      (hdrowsy (by simp)) fun r _ hzombie => ?_
    rw [hused] at hzombie
    cases hzombie
  | @reparent status q child =>
    cases ha
    refine h.deed hs hl hcpu rfl (by rintro ⟨chan, j, status, k, hw, -⟩; cases hw) ⟨?_, ?_, ?_, ?_⟩ rfl rfl
      (hdrowsy (by simp)) fun r hr _ _ => ?_
    · simp [Pc.scanned, Section.scanned]
    · rintro chan j st k hw
      cases hw
      rfl
    · simp [Pc.waking, Section.waking]
    · simp [Pc.roused, Section.roused]
    · cases hr
      exact ⟨rfl, p, by rw [hthread]; exact ⟨_, 0, status, _, rfl, Nat.zero_le _⟩⟩
  | @die status =>
    cases ha
    refine h.deed hs hl hcpu rfl (by rintro ⟨chan, j, status, k, hw, -⟩; cases hw) (.idle rfl rfl rfl) rfl rfl
      (hdrowsy (by simp)) fun r hr _ hdr => ?_
    have halert := h.alert p
    rw [hpc] at halert
    exact absurd hdr (halert.roused n rfl r hr r.isLt)
  | @reap bad q zombie =>
    cases ha
    exact h.deed hs hl hcpu rfl (by rintro ⟨chan, j, status, k, hw, -⟩; cases hw) (.idle rfl rfl rfl) rfl rfl
      (hdrowsy (by simp)) fun r hr => by cases hr

omit [DecidableEq κ] in
/-- A thread goes on without a look at the table. -/
theorem Heard.goTo (h : Heard init s) (hs : Sched s) (hpc : s.thread p = pc) (hprocs : t.procs = s.procs)
    (hthread : t.thread = Function.update s.thread p pc') (hheeds : Heeds init s p pc pc') (hs' : Sched t)
    (hmark : ∀ f, pc' ≠ .inside (.sleepMark f)) (hpending : pc.waking = none) : Heard init t := by
  have hself : t.thread p = pc' := by rw [hthread, Function.update_self]
  have hdrowsy : ∀ q, t.Drowsy q → s.Drowsy q := by
    rintro q (⟨bad, hq⟩ | hasleep)
    · by_cases hqp : q = p
      · rw [hqp, hself] at hq
        exact absurd hq (hmark _)
      · rw [hthread, Function.update_of_ne hqp] at hq
        exact Or.inl ⟨bad, hq⟩
    · rw [hprocs] at hasleep
      exact Or.inr hasleep
  refine h.thread hs hpc (fun r hr => Or.inl (by rw [hthread, Function.update_of_ne hr])) hself
    (.of_procs (fun q => by rw [hprocs]) (fun q hq => by rwa [hprocs] at hq) hdrowsy) hheeds (fun hp => ?_) ?_ ?_
  · rw [← hself] at hp
    exact ⟨hprocs ▸ hs'.live_of_exit hp, hs'.not_drowsy_of_exit hp⟩
  · rintro q f rfl
    cases hpending
  · rintro ⟨chan, j, status, k, hw, -⟩
    rw [hpending] at hw
    cases hw

end Thread

variable [DecidableEq κ]

theorem Enters.waking (h : Enters init p pc pc') : pc.waking = none := by
  cases h <;> rfl

theorem heard_step {F : Family n} {l : Action n κ × Event n} (h : Heard init s) (hkin : Kin init F s) (hs : Sched s)
    (hl : Locked s) (hstep : Step init s l t) : Heard init t := by
  have hs' : Sched t := sched_step hs hl hstep
  have hsame : t.procs = s.procs → t.thread = s.thread → Heard init t := fun hprocs hthread =>
    h.idle hs (.of_procs (fun q => by rw [hprocs]) (fun q hq => by rwa [hprocs] at hq)
      fun q hq => by rwa [State.Drowsy, hprocs, hthread] at hq) hthread
  cases step_inv hstep with
  | scan | wrap | pass | set | restore | save | clear | unlock => exact hsame rfl rfl
  | @choose c q cpu runnable =>
    refine h.idle hs (.of_procs (fun r => ?_) (fun r hr => ?_) fun r hr => ?_) rfl
    · by_cases hr : r = q <;> simp [hr]
    · by_cases hrq : r = q
      · subst hrq
        simp at hr
      · simpa [hrq] using hr
    · refine hr.imp_right fun hasleep => Asleep.write (q := q) ?_ hasleep
      exact fun hx => by cases hx.1
  | @interrupt q chan free =>
    refine h.idle hs (.of_procs (fun r => ?_) (fun r hr => ?_) fun r hr => ?_) rfl
    · exact ((wake_tweak _ _).setProc r).parent
    · exact ((wake_tweak _ _).setProc r).zombie hr
    · exact hr.imp_right fun hasleep => Asleep.write (fun hx => hx.wake.1) hasleep
  | enters cpu enters =>
    exact h.goTo hs (hs.runs cpu).2 rfl rfl enters.heeds hs' (fun _ => enters.mark) enters.waking
  | @unlockOther a c p i cpu =>
    exact h.goTo hs (hs.runs cpu).2 rfl rfl (.out rfl rfl rfl rfl) hs' (by simp) rfl
  | thread cpu instr apply => exact h.instr hkin hs hl cpu instr apply hs'

omit [DecidableEq κ] in
theorem Boot.heard (h : Boot init s) : Heard init s where
  alert p := by
    rw [h.thread]
    exact .out (by simp [Pc.heldOuter, forkret])
  heard p q hdrowsy := by
    rcases hdrowsy with ⟨bad, hthread⟩ | ⟨hsleep, -⟩
    · rw [h.thread] at hthread
      cases hthread
    · by_cases hp : p = init
      · rw [hp, h.first] at hsleep
        cases hsleep
      · rw [h.unused p hp] at hsleep
        cases hsleep

/-! ### Runs -/

/-- While `wait_lock` is free, no process that sleeps in `wait` has a child that is a zombie. -/
def NoMissedExit (s : State n κ) : Prop :=
  s.outer .wait = none → ∀ p q, (s.procs p).state = .sleeping → (s.procs p).chan = some (.proc p) →
    (s.procs q).parent = some p → (s.procs q).state ≠ .zombie

/-- A step after which a slot is no zombie any more is that of a `wait`, which takes the pid and the status from the slot. -/
def FreedByWait (init : Fin n) (s : State n κ) (l : Action n κ × Event n) : Prop :=
  ∀ q t, Step init s l t → (s.procs q).state = .zombie → (t.procs q).state ≠ .zombie →
    ∃ p, l.2 = .reaped p q (s.procs q).pid (s.procs q).xstate

omit [DecidableEq κ] in
theorem Heard.noMissedExit (h : Heard init s) (hs : Sched s) (hl : Locked s) : NoMissedExit s := by
  intro hfree p q hsleep hchan hparent hzombie
  obtain ⟨-, r, chan, j, status, k, hw, -⟩ := h.heard p q (Or.inr ⟨hsleep, hchan⟩) hparent hzombie
  have hwait := wait_of_waking hw rfl
  obtain ⟨c, hc⟩ := hs.on_cpu (p := r) fun hparked => by
    rw [(held_of_parked (p := r) hparked).1] at hwait
    cases hwait
  exact hl.outer.not_free hfree (c := c) (by rw [State.heldOuter, hc]; exact hwait)

theorem freedByWait_of {F : Family n} {l : Action n κ × Event n} (hkin : Kin init F s) (hs : Sched s) (hl : Locked s) :
    FreedByWait init s l := by
  intro q t hstep hzombie hfreed
  obtain ⟨hallowed, hkin'⟩ := kin_step hkin hs hl hstep
  have hfits := hkin.fits q
  have hfits' := hkin'.fits q
  obtain ⟨node, hnode, hpid, hstatus⟩ : ∃ node, F q = some node ∧ (s.procs q).pid = node.pid ∧
      node.status = some (s.procs q).xstate := by
    cases hF : F q with
    | none =>
      rw [hF] at hfits
      rcases hfits with hst | hst <;> simp [hst] at hzombie
    | some node =>
      rw [hF] at hfits
      obtain ⟨hpid, ⟨hlive, -⟩ | ⟨-, hstatus⟩⟩ := hfits
      · simp [hzombie, Live] at hlive
      · exact ⟨node, rfl, hpid, hstatus⟩
  -- In the family the process has exited, and only a `wait` changes that.
  have hstays : ∀ node', F.next init l.2 q = some node' → node'.status = none := by
    intro node' hnode'
    rw [hnode'] at hfits'
    obtain ⟨-, ⟨-, hnone⟩ | ⟨hst, -⟩⟩ := hfits'
    · exact hnone
    · exact absurd hst hfreed
  obtain ⟨action, event⟩ := l
  cases event with
  | forked p np pid =>
    have hne : q ≠ np := slot_ne hallowed.1.2 hnode
    have hnone := hstays node (by rw [Family.next, Function.update_of_ne hne]; exact hnode)
    rw [hstatus] at hnone
    cases hnone
  | exited p status =>
    have hnone := hstays _ (by simp only [Family.next, hnode]; rfl)
    simp only [Node.exit, hstatus] at hnone
    split at hnone <;> cases hnone
  | reaped p pp pid status =>
    by_cases hq : q = pp
    · subst hq
      obtain rfl := Option.some.inj (hnode.symm.trans hallowed.1.2)
      obtain rfl := Option.some.inj hstatus
      exact ⟨p, by rw [hpid]⟩
    · have hnone := hstays node (by rw [Family.next, Function.update_of_ne hq]; exact hnode)
      rw [hstatus] at hnone
      cases hnone
  | _ =>
    have hnone := hstays node hnode
    rw [hstatus] at hnone
    cases hnone

theorem heard_run {ls : List (Action n κ × Event n)} (hboot : Boot init s) (h : Run (Step init) s ls t) : Heard init t := by
  induction h with
  | refl => exact hboot.heard
  | tail hrun hstep ih =>
    obtain ⟨hl, hs⟩ := sched_run hboot hrun
    obtain ⟨F, -, hkin⟩ := kin_run hboot hrun
    exact heard_step ih hkin hs hl hstep

/-- Each exit is returned once, by a `wait` of the parent, and no parent sleeps through it. -/
theorem wait_run {ls : List (Action n κ × Event n)} (hboot : Boot init s) (h : Run (Step init) s ls t) :
    Reaps init (ls.map (·.2)) ∧ NoMissedExit t ∧ AllSteps (Step init) s ls (FreedByWait init) := by
  obtain ⟨hl, hs⟩ := sched_run hboot h
  obtain ⟨F, hF, -⟩ := kin_run hboot h
  refine ⟨reaps_run hF, (heard_run hboot h).noMissedExit hs hl, fun ms l u _ hrun => ?_⟩
  obtain ⟨hl, hs⟩ := sched_run hboot hrun
  obtain ⟨G, -, hkin⟩ := kin_run hboot hrun
  exact freedByWait_of hkin hs hl

/-- The first process forks, and sleeps in `wait` until its child exits with status 7. -/
def forkThenWait : List (Action 2 Bool) :=
  forkTwoCpus ++ [.request true (.wait false)] ++ List.replicate 20 (.cpu true) ++ [.request false (.exit 7)] ++
    List.replicate 28 (.cpu false)

theorem forkThenWait_runs : (exec (step 0) (boot Bool 0) forkThenWait).isSome := by decide

theorem wait_run_forkThenWait :
    let r := (exec (step 0) (boot Bool 0) forkThenWait).get forkThenWait_runs
    (r.1.map (·.2)).getLast? = some (.reaped 0 1 2 7) ∧ Reaps 0 (r.1.map (·.2)) ∧ NoMissedExit r.2 ∧
      AllSteps (Step 0) (boot Bool 0) r.1 (FreedByWait 0) :=
  ⟨by decide, wait_run (boot_boot _) (run_exec forkThenWait_runs)⟩

end LabSO.Kernel.Procs

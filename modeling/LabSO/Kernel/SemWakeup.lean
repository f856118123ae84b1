import LabSO.Kernel.SemLocks
import LabSO.Kernel.SemCount

/-! No wakeup is lost between `sem_down` and `sem_up`. A process on its way into `sleep` holds the lock of the
    semaphore or its own `p->lock` until `swtch`, and `wakeup` takes the `p->lock` of each process while its
    caller holds the lock of the semaphore. So whenever a process sleeps on a semaphore with units, a
    `wakeup` is on its way to it. -/

namespace LabSO.Kernel
open Transition

variable {n : Nat} {κ : Type}

/-! ### Sleepers and wakers -/

/-- The semaphore whose `sem_down` a thread waits in: it found no unit there, and took none since. -/
def Point.waits? : Point → Option Nat
  | .sleepReacquire i => some i
  | _ => none

def Section.waits? : Section n → Option Nat
  | .downLoop i | .sleepAcquire i | .sleepRelease i | .sleepChan i | .sleepState i | .sleepSched i | .sleepTidy i
  | .sleepUnlock i => some i
  | _ => none

def Pc.waits? : Pc n → Option Nat
  | .at k => k.waits?
  | .inside sec => sec.waits?
  | .yield _ k => k.waits?

/-- On the way into `sleep`, with the lock of the semaphore released. -/
def Pc.Dozing (i : Nat) : Pc n → Prop
  | .inside (.sleepChan j) | .inside (.sleepState j) | .inside (.sleepSched j) => j = i
  | _ => False

/-- A process that only a `wakeup` will make go on. -/
def Drowsy (s : State n κ) (p : Fin n) (i : Nat) : Prop :=
  (s.pcs p).Dozing i ∨ s.pcs p = .inside (.sleepTidy i) ∧ (s.procs p).state = .sleeping

/-- In a `wakeup` that is still to test the process. -/
def Pc.Covers (i : Nat) (p : Fin n) : Pc n → Prop
  | .inside (.wakeup j k) => j = i ∧ k ≤ p
  | .inside (.wakeupTest j q) => j = i ∧ q ≤ p
  | .inside (.wakeupRelease j q) => j = i ∧ q < p
  | _ => False

/-- A process that is about to sleep still holds the lock under which it found no unit. -/
def FoundNone (s : State n κ) : Prop :=
  ∀ p i, s.pcs p = .inside (.sleepAcquire i) ∨ s.pcs p = .inside (.sleepRelease i) → (s.sems i).count = 0

/-- Each sleeper of a semaphore with units has a `wakeup` on its way. -/
def NoLostWakeup (s : State n κ) (i : Nat) : Prop :=
  ∀ p, Drowsy s p i → (s.sems i).count = 0 ∨ ∃ w, (s.pcs w).Covers i p

theorem dozing_cases {i : Nat} {pc : Pc n} (h : pc.Dozing i) :
    pc = .inside (.sleepChan i) ∨ pc = .inside (.sleepState i) ∨ pc = .inside (.sleepSched i) := by
  cases pc with
  | inside sec =>
    cases sec with
    | sleepChan j =>
      obtain rfl : j = i := h
      exact Or.inl rfl
    | sleepState j =>
      obtain rfl : j = i := h
      exact Or.inr (Or.inl rfl)
    | sleepSched j =>
      obtain rfl : j = i := h
      exact Or.inr (Or.inr rfl)
    | _ => cases h
  | _ => cases h

theorem covers_heldSem {i : Nat} {p : Fin n} {pc : Pc n} (h : pc.Covers i p) :
    pc.heldSem = some i ∧ ¬pc.Parked := by
  cases pc with
  | inside sec =>
    cases sec with
    | wakeup j k | wakeupTest j q | wakeupRelease j q => exact ⟨congrArg some h.1, not_false⟩
    | _ => cases h
  | _ => cases h

theorem dozing_held {i : Nat} {p : Fin n} {pc : Pc n} (h : pc.Dozing i) :
    pc.heldProc p = some p ∧ ¬pc.Parked := by
  rcases dozing_cases h with rfl | rfl | rfl <;> exact ⟨rfl, not_false⟩

theorem made_heldSem {p : Fin n} {pc : Pc n} {event : Event n} {i : Nat} (h : Made p pc event)
    (hev : event.sem? = some i) : pc.heldSem = some i := by
  cases h <;> cases hev <;> rfl

theorem drowsy_not_covers {s : State n κ} {p w : Fin n} {i : Nat}
    (hp : Drowsy s p i ∨ s.pcs p = .inside (.sleepRelease i)) (hw : (s.pcs w).Covers i p) : w ≠ p := by
  rintro rfl
  rcases hp with (hdoze | ⟨htidy, -⟩) | hrelease
  · rcases dozing_cases hdoze with hpc | hpc | hpc <;> rw [hpc] at hw <;> cases hw
  · rw [htidy] at hw
    cases hw
  · rw [hrelease] at hw
    cases hw

variable [DecidableEq κ]

/-! ### What a step does -/

theorem foundNone_step {s t : State n κ} {l : Action κ × Event n} (hl : Locked s) (h : FoundNone s)
    (hstep : Step s l t) : FoundNone t := by
  intro p i hp
  rcases step_pcs hstep p with hsame | ⟨c, effect, pc, u, -, hi, ha, rfl⟩ | ⟨-, ⟨k, hk⟩ | ⟨k, hk⟩⟩
  · rw [hsame] at hp
    rcases step_sem hstep i with ⟨hev, -⟩ | ⟨-, heq⟩
    · -- Only the holder of the lock changes the counter.
      exfalso
      rcases step_made hstep with hsilent | ⟨c, q, -, -, hmade⟩
      · rw [hsilent] at hev
        cases hev
      · have hheld : (s.pcs p).heldSem = some i := by rcases hp with hp | hp <;> rw [hp] <;> rfl
        obtain rfl := hl.sem_unique hheld (made_heldSem hmade hev)
        generalize l.2 = event at hmade hev
        rcases hp with hp | hp <;> rw [hp] at hmade <;> cases hmade <;> cases hev
    · rw [heq]
      exact h p i hp
  · rw [thread_pcs_self] at hp
    rcases hp with rfl | rfl
    · obtain ⟨hcount, rfl⟩ := threadStep_entered hi
      cases ha
      exact hcount
    · obtain ⟨hpc, rfl⟩ := threadStep_entered hi
      obtain ⟨-, hu⟩ := Option.ite_none_right_eq_some.mp ha
      cases hu
      exact h p i (Or.inl hpc)
  · rw [hk] at hp
    rcases hp with hp | hp <;> cases hp
  · rw [hk] at hp
    rcases hp with hp | hp <;> cases hp

theorem step_sleeping {s t : State n κ} {l : Action κ × Event n} {p : Fin n} {i : Nat} (hstep : Step s l t)
    (hp : t.pcs p = .inside (.sleepTidy i)) (hsleep : (t.procs p).state = .sleeping) :
    (s.procs p).state = .sleeping := by
  cases step_inv hstep with
  | @scan c q cpu free =>
    have hstate := (setProc_state_chan s q (fun x => { x with lock := some c }) (fun _ => ⟨rfl, rfl⟩) p).1
    exact hstate ▸ hsleep
  | @unlock c q cpu =>
    have hstate := (setProc_state_chan s q (fun x => { x with lock := none }) (fun _ => ⟨rfl, rfl⟩) p).1
    exact hstate ▸ hsleep
  | @dispatch c q cpu runnable =>
    rw [State.setCpu_procs, State.setProc_procs] at hsleep
    by_cases hpq : p = q
    · subst hpq
      rw [Function.update_self] at hsleep
      cases hsleep
    · rwa [Function.update_of_ne hpq] at hsleep
  | @thread c q effect pc event u cpu instr applied =>
    rw [State.setPc_procs] at hsleep
    rcases applyEffect_state applied p with ⟨rfl, heff⟩ | hstate | ⟨-, hstate⟩
    · obtain ⟨j, rfl⟩ := ((threadStep_disciplined instr).state _ heff).2 hsleep
      rw [thread_pcs_self] at hp
      cases hp
    · exact hstate ▸ hsleep
    · rw [hsleep] at hstate
      cases hstate
  | _ => exact hsleep

theorem drowsy_before {s t : State n κ} {l : Action κ × Event n} {p : Fin n} {i : Nat} (hstep : Step s l t)
    (h : Drowsy t p i) : Drowsy s p i ∨ s.pcs p = .inside (.sleepRelease i) := by
  rcases step_pcs hstep p with hsame | ⟨c, effect, pc, u, -, hi, ha, rfl⟩ | ⟨-, ⟨k, hk⟩ | ⟨k, hk⟩⟩
  · left
    rcases h with hdoze | ⟨htidy, hsleep⟩
    · rw [hsame] at hdoze
      exact Or.inl hdoze
    · exact Or.inr ⟨hsame ▸ htidy, step_sleeping hstep htidy hsleep⟩
  · unfold Drowsy at h
    rw [thread_pcs_self] at h
    rcases h with hdoze | ⟨rfl, -⟩
    · rcases dozing_cases hdoze with rfl | rfl | rfl
      · exact Or.inr (threadStep_entered hi).1
      · exact Or.inl (Or.inl (by rw [(threadStep_entered hi).1]; rfl))
      · exact Or.inl (Or.inl (by rw [(threadStep_entered hi).1]; rfl))
    · exact Or.inl (Or.inl (by rw [(threadStep_entered hi).1]; rfl))
  · rcases h with hdoze | ⟨htidy, -⟩
    · rw [hk] at hdoze
      cases hdoze
    · rw [hk] at htidy
      cases htidy
  · rcases h with hdoze | ⟨htidy, -⟩
    · rw [hk] at hdoze
      cases hdoze
    · rw [hk] at htidy
      cases htidy

/-- A `wakeup` goes on to the process, until it tests it. -/
theorem covers_step {s t : State n κ} {l : Action κ × Event n} {p w : Fin n} {i : Nat} (hstep : Step s l t)
    (hw : (s.pcs w).Covers i p) (hne : w ≠ p) :
    (t.pcs w).Covers i p ∨ ∃ c u, s.cpus c = .run w ∧ s.pcs w = .inside (.wakeupTest i p) ∧
      applyEffect s c w (.wake p i) = some u ∧ t = u.setPc w (.inside (.wakeupRelease i p)) := by
  rcases step_pcs hstep w with hsame | ⟨c, effect, pc, u, hc, hi, ha, rfl⟩ | ⟨⟨k, hk⟩, -⟩
  · rw [hsame]
    exact Or.inl hw
  · rw [thread_pcs_self]
    generalize hpc : s.pcs w = pc' at hi hw
    generalize l.2 = event at hi
    cases threadStep_instr hi with
    | wakeupSelf self =>
      obtain ⟨rfl, hk⟩ := hw
      have hkp : (p : Nat) ≠ w := fun heq => hne (Fin.ext heq.symm)
      exact Or.inl ⟨rfl, by omega⟩
    | wakeupAcquire => exact Or.inl hw
    | wakeupEnd all => exact absurd (lt_of_le_of_lt hw.2 p.isLt) all
    | @wakeupTest j q =>
      obtain ⟨rfl, hq⟩ := hw
      by_cases hqp : q = p
      · subst hqp
        exact Or.inr ⟨c, u, hc, rfl, ha, rfl⟩
      · exact Or.inl ⟨rfl, by omega⟩
    | wakeupRelease => exact Or.inl hw
    | _ => cases hw
  · rw [hk] at hw
    cases hw

/-- A process that a `wakeup` has just tested does not sleep on the semaphore. -/
theorem not_drowsy_of_wake {s u : State n κ} {c : κ} {p w : Fin n} {i : Nat} (hl : Locked s) (hne : w ≠ p)
    (hc : s.cpus c = .run w) (hw : s.pcs w = .inside (.wakeupTest i p)) (ha : applyEffect s c w (.wake p i) = some u) :
    ¬Drowsy (u.setPc w (.inside (.wakeupRelease i p))) p i := by
  have hheld : s.heldProc c = some p := by
    rw [heldProc_of_run hc, hw]
    rfl
  have hpcs : (u.setPc w (.inside (.wakeupRelease i p))).pcs p = s.pcs p := thread_pcs ha hne.symm
  rintro (hdoze | ⟨htidy, hsleep⟩)
  · rw [hpcs] at hdoze
    obtain ⟨hproc, hparked⟩ := dozing_held (p := p) hdoze
    obtain ⟨d, hd⟩ := hl.on_cpu hparked
    rw [← heldProc_of_run hd] at hproc
    obtain rfl := hl.proc.unique hheld hproc
    rw [hc] at hd
    cases hd
    exact hne rfl
  · rw [hpcs] at htidy
    rw [State.setPc_procs] at hsleep
    have hchan := hl.chan p i (Or.inr (Or.inr htidy))
    cases ha
    simp only [State.setProc_procs, Function.update_self] at hsleep
    split at hsleep
    · cases hsleep
    · next hawake => exact hawake ⟨hsleep, hchan⟩

theorem up_wakes {s t : State n κ} {l : Action κ × Event n} {q : Fin n} {i : Nat} (hstep : Step s l t)
    (hl : l.2 = .up q i) : t.pcs q = .inside (.wakeup i 0) := by
  cases step_inv hstep with
  | @thread c p effect pc event u cpu instr applied =>
    obtain rfl : event = .up q i := hl
    generalize s.pcs p = pc' at instr
    cases threadStep_instr instr
    exact thread_pcs_self
  | _ => cases hl

theorem noLostWakeup_step {s t : State n κ} {l : Action κ × Event n} {i : Nat} (hl : Locked s) (hfound : FoundNone s)
    (h : NoLostWakeup s i) (hclosed : ∀ q, l.2 ≠ .closed q i) (hstep : Step s l t) : NoLostWakeup t i := by
  intro p hp
  have hbefore := drowsy_before hstep hp
  have hs : (s.sems i).count = 0 ∨ ∃ w, (s.pcs w).Covers i p := by
    rcases hbefore with hdrowsy | hrelease
    · exact h p hdrowsy
    · exact Or.inl (hfound p i (Or.inr hrelease))
  rcases hs with hzero | ⟨w, hw⟩
  · rcases step_sem hstep i with ⟨hev, hch⟩ | ⟨-, heq⟩
    · generalize hevent : l.2 = event at hev hch
      generalize t.sems i = sem at hch
      cases hch with
      | opened closed =>
        rw [hzero] at closed
        cases closed
      | closed isOpen =>
        cases hev
        exact absurd hevent (hclosed _)
      | @up q j isOpen below =>
        -- The first unit comes with a `wakeup` at slot 0.
        cases hev
        refine Or.inr ⟨q, ?_⟩
        rw [up_wakes hstep hevent]
        exact ⟨rfl, Nat.zero_le _⟩
      | down nonzero isOpen => exact absurd hzero nonzero
    · exact Or.inl (heq ▸ hzero)
  · have hne := drowsy_not_covers hbefore hw
    rcases covers_step hstep hw hne with hcovers | ⟨c, u, hc, hpc, ha, rfl⟩
    · exact Or.inr ⟨w, hcovers⟩
    · exact absurd hp (not_drowsy_of_wake hl hne hc hpc ha)

/-! ### Along a run -/

theorem foundNone_run {s t : State n κ} {ls : List (Action κ × Event n)} (hboot : Boot s) (hrun : Run Step s ls t) :
    FoundNone t := by
  have hboth : Locked t ∧ FoundNone t :=
    hrun.invariant (I := fun u => Locked u ∧ FoundNone u)
      (fun _ _ _ h hstep => ⟨locked_step h.1 hstep, foundNone_step h.1 h.2 hstep⟩)
      ⟨.boot hboot, fun p i hp => by rw [hboot.pcs] at hp; rcases hp with hp | hp <;> cases hp⟩
  exact hboth.2

theorem noLostWakeup_run {s₀ s t : State n κ} {ls ms : List (Action κ × Event n)} {i : Nat} (hboot : Boot s₀)
    (hls : Run Step s₀ ls s) (hstart : ∀ p, (s.pcs p).waits? ≠ some i) (hms : Run Step s ms t)
    (hclosed : ∀ l ∈ ms, ∀ q, l.2 ≠ .closed q i) : NoLostWakeup t i := by
  induction hms with
  | refl =>
    rintro p (hdoze | ⟨htidy, -⟩)
    · rcases dozing_cases hdoze with hpc | hpc | hpc <;> exact absurd (by rw [hpc]; rfl) (hstart p)
    · exact absurd (by rw [htidy]; rfl) (hstart p)
  | @tail ms u l v hrun hstep ih =>
    have hu := hls.trans hrun
    exact noLostWakeup_step (locked_run hboot hu) (foundNone_run hboot hu)
      (ih fun l' hl' => hclosed l' (List.mem_append_left _ hl')) (hclosed l (by simp)) hstep

/-- While no semaphore is closed under its waiting processes, a process sleeps on one whose lock is free only if it
    has no units. -/
theorem no_lost_wakeup {s₀ s t : State n κ} {ls ms : List (Action κ × Event n)} {i : Nat} {p : Fin n}
    (hboot : Boot s₀) (hls : Run Step s₀ ls s) (hstart : ∀ q, (s.pcs q).waits? ≠ some i) (hms : Run Step s ms t)
    (hclosed : ∀ l ∈ ms, ∀ q, l.2 ≠ .closed q i) (hfree : t.semLock i = none)
    (hsleep : (t.procs p).state = .sleeping) (hchan : (t.procs p).chan = some i) : (t.sems i).count = 0 := by
  have hl := locked_run hboot (hls.trans hms)
  have hdrowsy : Drowsy t p i := by
    obtain ⟨j, hpc⟩ := hl.sleeping p hsleep
    have hj := hl.chan p j (Or.inr hpc)
    rw [hchan] at hj
    obtain rfl := Option.some.inj hj
    rcases hpc with hpc | hpc
    · exact Or.inl (by rw [hpc]; rfl)
    · exact Or.inr ⟨hpc, hsleep⟩
  rcases noLostWakeup_run hboot hls hstart hms hclosed p hdrowsy with hzero | ⟨w, hw⟩
  · exact hzero
  · -- The caller of `wakeup` would hold the lock.
    obtain ⟨hheld, hparked⟩ := covers_heldSem hw
    obtain ⟨c, hc⟩ := hl.on_cpu hparked
    rw [← heldSem_of_run hc] at hheld
    exact absurd hheld (hl.sem.not_free hfree)

theorem goToSleep_runs : (exec step (boot 2 (Fin 2)) goToSleep).isSome := by decide

theorem no_lost_wakeup_asleep : (((exec step (boot 2 (Fin 2)) goToSleep).get goToSleep_runs).2.sems 0).count = 0 :=
  no_lost_wakeup (p := 1) boot_boot .refl (by decide) (run_exec goToSleep_runs) (by decide) (by decide) (by decide)
    (by decide)

end LabSO.Kernel

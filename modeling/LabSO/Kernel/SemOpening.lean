import LabSO.Kernel.SemCount

/-! Which opening of a semaphore a call of `sem_up` or `sem_down` acts on. A sleeper of `sem_down` keeps no
    record of the opening it waits for, so a call acts on the opening it entered in only where no semaphore
    is opened under a call that still has to change its counter. -/

namespace LabSO.Kernel
open Transition

variable {n : Nat} {κ : Type}

/-! ### The calls -/

/-- The calls that change a counter by one. -/
inductive Use
  | up
  | down
deriving DecidableEq, Repr

def Use.sys : Use → Int → SysCall
  | .up => .semUp
  | .down => .semDown

def Point.use? : Point → Option (Use × Nat)
  | .upAcquire i => some (.up, i)
  | .downAcquire i => some (.down, i)
  | .sleepReacquire i => some (.down, i)
  | _ => none

def Section.use? : Section n → Option (Use × Nat)
  | .upBody i => some (.up, i)
  | .downBody i => some (.down, i)
  | .downLoop i => some (.down, i)
  | .sleepAcquire i => some (.down, i)
  | .sleepRelease i => some (.down, i)
  | .sleepChan i => some (.down, i)
  | .sleepState i => some (.down, i)
  | .sleepSched i => some (.down, i)
  | .sleepTidy i => some (.down, i)
  | .sleepUnlock i => some (.down, i)
  | _ => none

/-- The call that a thread is in and that may still change the counter, with its semaphore. -/
def Pc.use? : Pc n → Option (Use × Nat)
  | .at k => k.use?
  | .inside sec => sec.use?
  | .yield _ k => k.use?

/-- The call that changed a counter, with its process and semaphore. -/
def Event.use? : Event n → Option (Fin n × Use × Nat)
  | .up p i => some (p, .up, i)
  | .down p i _ => some (p, .down, i)
  | _ => none

theorem withSem_use {sem : Int} {point : Nat → Point} {call : Use × Nat}
    (h : (withSem sem point).use? = some call) : (point sem.toNat).use? = some call ∧ sem = sem.toNat := by
  unfold withSem at h
  split at h
  · cases h
  · next hrange => exact ⟨h, by omega⟩

theorem enter_use {sys : SysCall} {use : Use} {i : Nat} (h : (enter sys).use? = some (use, i)) :
    ∃ x, sys = use.sys x ∧ argint x = i := by
  cases sys with
  | semUp x =>
    have hup : (withSem (argint x) .upAcquire).use? = some (use, i) := h
    obtain ⟨hcall, hx⟩ := withSem_use hup
    cases hcall
    exact ⟨x, rfl, hx⟩
  | semDown x =>
    have hdown : (withSem (argint x) .downAcquire).use? = some (use, i) := h
    obtain ⟨hcall, hx⟩ := withSem_use hdown
    cases hcall
    exact ⟨x, rfl, hx⟩
  | semOpen x value =>
    have hopen : (withSem (argint x) fun j => .openAcquire .syscall j (argint value)).use? = some (use, i) := h
    cases (withSem_use hopen).1
  | semClose x =>
    have hclose : (withSem (argint x) .closeAcquire).use? = some (use, i) := h
    cases (withSem_use hclose).1
  | getSem value =>
    simp only [enter, getSemLoop] at h
    split at h <;> cases h
  | kill pid => cases h

theorem openReturn_use (caller : Caller) (i : Nat) (value result : Int) :
    (openReturn caller i value result).use? = none := by
  cases caller with
  | syscall => rfl
  | getSem =>
    simp only [openReturn, getSemLoop]
    split
    · split <;> rfl
    · rfl

theorem threadStep_use {s : State n κ} {p : Fin n} {pc pc' : Pc n} {effect : Effect n} {event : Event n}
    {call : Use × Nat} (h : threadStep s p pc = some (effect, pc', event)) (hcall : pc'.use? = some call) :
    pc.use? = some call := by
  cases threadStep_instr h with
  | @openRelease caller i value result =>
    have hnone : (Pc.at (openReturn caller i value result) : Pc n).use? = none := openReturn_use ..
    rw [hnone] at hcall
    cases hcall
  | @killRelease pid q found => cases found <;> cases hcall
  | _ => first | exact hcall | cases hcall

variable [DecidableEq κ]

/-- A process in a call was in it before the step, or the step is its entry. -/
theorem step_use {s t : State n κ} {l : Action κ × Event n} {p : Fin n} {use : Use} {i : Nat} (hstep : Step s l t)
    (h : (t.pcs p).use? = some (use, i)) :
    ((s.pcs p).use? = some (use, i) ∧ ∀ r, l.2 ≠ .returned p r) ∨
    ∃ c x, l = (.call c (use.sys x), .silent) ∧ argint x = i ∧ s.cpus c = .run p := by
  cases step_inv hstep with
  | @thread c q effect pc event u cpu instr applied =>
    rw [State.setPc_pcs, applyEffect_pcs applied] at h
    have hmade := threadStep_made instr
    left
    by_cases hq : p = q
    · subst hq
      rw [Function.update_self] at h
      have hcall := threadStep_use instr h
      refine ⟨hcall, fun r hr => ?_⟩
      obtain rfl : event = .returned p r := hr
      generalize s.pcs p = pc' at hmade hcall
      cases hmade
      cases hcall
    · rw [Function.update_of_ne hq] at h
      refine ⟨h, fun r hr => ?_⟩
      obtain rfl : event = .returned p r := hr
      generalize s.pcs q = pc' at hmade
      cases hmade
      exact hq rfl
  | @call c q sys cpu user =>
    rw [State.setPc_pcs] at h
    by_cases hq : p = q
    · subst hq
      rw [Function.update_self] at h
      obtain ⟨x, rfl, hx⟩ := enter_use h
      exact Or.inr ⟨c, x, rfl, hx, cpu⟩
    · rw [Function.update_of_ne hq] at h
      exact Or.inl ⟨h, by simp⟩
  | @preempt c q k cpu point =>
    rw [State.setPc_pcs] at h
    refine Or.inl ⟨?_, by simp⟩
    by_cases hq : p = q
    · subst hq
      rw [Function.update_self] at h
      rw [point]
      exact h
    · rwa [Function.update_of_ne hq] at h
  | _ => exact Or.inl ⟨h, by simp⟩

/-! ### The opening that a call acts on -/

/-- After the labels `ls` from `s`, `p` is in the call that it entered in the state `entry`, with the labels `mid`
    since. -/
def EnteredAt (s : State n κ) (ls : List (Action κ × Event n)) (p : Fin n) (use : Use) (i : Nat) (entry : State n κ)
    (mid : List (Action κ × Event n)) : Prop :=
  ∃ pre c x, ls = pre ++ (.call c (use.sys x), .silent) :: mid ∧ argint x = i ∧ Run Step s pre entry ∧
    entry.cpus c = .run p ∧ ∀ l ∈ mid, ∀ r, l.2 ≠ .returned p r

/-- The semaphore was open in the state `entry`, and was not closed by the steps `mid` since. -/
def SameOpening (i : Nat) (entry : State n κ) (mid : List (Action κ × Event n)) : Prop :=
  (entry.sems i).count ≠ -1 ∧ ∀ l ∈ mid, ∀ q, l.2 ≠ .closed q i

def Event.opens? : Event n → Option Nat
  | .opened _ i _ => some i
  | _ => none

/-- The step opens no semaphore under a call that still has to change its counter. -/
def OpensUnused (s : State n κ) (l : Action κ × Event n) : Prop :=
  ∀ i ∈ l.2.opens?, ∀ q, ∀ call ∈ (s.pcs q).use?, call.2 ≠ i

/-- Every call that may still change the counter of an open semaphore entered in its opening. -/
def CallsInOpening (s t : State n κ) (ls : List (Action κ × Event n)) : Prop :=
  ∀ p use i, (t.pcs p).use? = some (use, i) →
    ∃ entry mid, EnteredAt s ls p use i entry mid ∧ ((t.sems i).count ≠ -1 → SameOpening i entry mid)

theorem open_of_open {s t : State n κ} {l : Action κ × Event n} {i : Nat} (hstep : Step s l t)
    (hno : NoClosedRetest s l) (hopens : ∀ p value, l.2 ≠ .opened p i value) (ht : (t.sems i).count ≠ -1) :
    (s.sems i).count ≠ -1 ∧ ∀ q, l.2 ≠ .closed q i := by
  rcases step_sem hstep i with ⟨hev, hch⟩ | ⟨hev, heq⟩
  · generalize hevent : l.2 = event at hev hch hopens
    generalize t.sems i = sem at hch ht
    cases hch with
    | opened closed =>
      cases hev
      exact absurd rfl (hopens _ _)
    | closed isOpen => exact absurd rfl ht
    | up isOpen below => exact ⟨isOpen, by simp⟩
    | @down p j resumed nonzero isOpen =>
      cases hev
      cases resumed with
      | false => exact ⟨isOpen rfl, by simp⟩
      | true => exact ⟨not_closed_of_retest hno hstep hevent, by simp⟩
  · rw [heq] at ht
    exact ⟨ht, fun q hq => hev (by rw [hq]; rfl)⟩

theorem callsInOpening_step {s t u : State n κ} {ls : List (Action κ × Event n)} {l : Action κ × Event n}
    (h : CallsInOpening s t ls) (hl : OpensUnused t l ∧ NoClosedRetest t l) (hrun : Run Step s ls t)
    (hstep : Step t l u) : CallsInOpening s u (ls ++ [l]) := by
  intro p use i hcall
  rcases step_use hstep hcall with ⟨hbefore, hreturned⟩ | ⟨c, x, rfl, hx, hcpu⟩
  · obtain ⟨entry, mid, ⟨pre, c, x, rfl, hx, hpre, hcpu, hmid⟩, hsame⟩ := h p use i hbefore
    refine ⟨entry, mid ++ [l], ⟨pre, c, x, by simp, hx, hpre, hcpu, ?_⟩, fun hu => ?_⟩
    · intro m hm
      rcases List.mem_append.mp hm with hm | hm
      · exact hmid m hm
      · obtain rfl := List.mem_singleton.mp hm
        exact hreturned
    · have hopens : ∀ q value, l.2 ≠ .opened q i value := fun q value hev =>
        hl.1 i (by rw [hev]; rfl) p (use, i) hbefore rfl
      obtain ⟨ht, hclosed⟩ := open_of_open hstep hl.2 hopens hu
      obtain ⟨hentry, hmid'⟩ := hsame ht
      refine ⟨hentry, fun m hm => ?_⟩
      rcases List.mem_append.mp hm with hm | hm
      · exact hmid' m hm
      · obtain rfl := List.mem_singleton.mp hm
        exact hclosed
  · refine ⟨t, [], ⟨ls, c, x, rfl, hx, hrun, hcpu, by simp⟩, fun hu => ⟨?_, by simp⟩⟩
    exact (open_of_open hstep hl.2 (by simp) hu).1

theorem callsInOpening_run {s t : State n κ} {ls : List (Action κ × Event n)} (hboot : Boot s)
    (hrun : Run Step s ls t) (hall : AllSteps Step s ls fun u l => OpensUnused u l ∧ NoClosedRetest u l) :
    CallsInOpening s t ls := by
  induction hrun with
  | refl =>
    intro p use i hcall
    rw [hboot.pcs] at hcall
    cases hcall
  | tail hrun hstep ih =>
    have hprefix := hall.of_prefix (List.prefix_append _ _)
    exact callsInOpening_step (ih hprefix) (hall _ _ _ (List.prefix_refl _) hrun) hrun hstep

/-- A call that changes a counter is in progress, on an open semaphore. -/
theorem changes_open {s t : State n κ} {l : Action κ × Event n} {p : Fin n} {use : Use} {i : Nat}
    (hstep : Step s l t) (hno : NoClosedRetest s l) (hl : l.2.use? = some (p, use, i)) :
    (s.pcs p).use? = some (use, i) ∧ (s.sems i).count ≠ -1 := by
  rcases step_made hstep with hsilent | ⟨c, q, -, -, hmade⟩
  · rw [hsilent] at hl
    cases hl
  · rcases step_sem hstep i with ⟨hev, hch⟩ | ⟨hev, -⟩
    · generalize hevent : l.2 = event at hl hmade hev hch
      generalize hpc : s.pcs q = pc at hmade
      generalize t.sems i = sem at hch
      cases hch with
      | up isOpen below =>
        cases hl
        cases hmade
        exact ⟨by rw [hpc]; rfl, isOpen⟩
      | @down r j resumed nonzero isOpen =>
        cases hl
        cases hmade with
        | down => exact ⟨by rw [hpc]; rfl, isOpen rfl⟩
        | resumed => exact ⟨by rw [hpc]; rfl, not_closed_of_retest hno hstep hevent⟩
      | _ => cases hl
    · refine absurd ?_ hev
      generalize l.2 = event at hl
      cases event <;> cases hl <;> rfl

/-- In a run that opens no semaphore under a call and in which no sleeper goes on in a closed semaphore, each
    change of a counter acts on the opening that its call entered in. -/
theorem changes_same_opening {s t : State n κ} {ls : List (Action κ × Event n)} (hboot : Boot s)
    (hrun : Run Step s ls t) (hall : AllSteps Step s ls fun u l => OpensUnused u l ∧ NoClosedRetest u l)
    (ms : List (Action κ × Event n)) (l : Action κ × Event n) (p : Fin n) (use : Use) (i : Nat)
    (hms : ms ++ [l] <+: ls) (hl : l.2.use? = some (p, use, i)) :
    ∃ entry mid, EnteredAt s ms p use i entry mid ∧ SameOpening i entry mid := by
  obtain ⟨rest, rfl⟩ := hms
  obtain ⟨v, hv, -⟩ := hrun.append_inv
  obtain ⟨u, hu, hstep⟩ := hv.snoc_inv
  obtain ⟨-, hno⟩ := hall ms l u (List.prefix_append _ _) hu
  obtain ⟨hcall, hopen⟩ := changes_open hstep hno hl
  have hms : ms <+: ms ++ [l] ++ rest := by
    rw [List.append_assoc]
    exact List.prefix_append _ _
  obtain ⟨entry, mid, hentry, hsame⟩ := callsInOpening_run hboot hu (hall.of_prefix hms) p use i hcall
  exact ⟨entry, mid, hentry, hsame hopen⟩

instance (s : State n κ) (l : Action κ × Event n) : Decidable (OpensUnused s l) := by
  unfold OpensUnused
  infer_instance

attribute [local instance] Transition.neZero_two

/-- Process 1 opens semaphore 0 with one unit, and takes it. -/
def takeOwn : List (Action (Fin 2)) := openOne ++ cpuSteps 0 3 ++ .call 0 (.semDown 0) :: cpuSteps 0 1

def takenOwn : List (Action (Fin 2)) := takeOwn ++ cpuSteps 0 1

theorem takeOwn_runs : (exec step (boot 2 (Fin 2)) takeOwn).isSome := by decide

theorem takenOwn_runs : (exec step (boot 2 (Fin 2)) takenOwn).isSome := by decide

theorem changes_same_opening_own :
    ∃ entry mid, EnteredAt (boot 2 (Fin 2)) ((exec step (boot 2 (Fin 2)) takeOwn).get takeOwn_runs).1 0 .down 0 entry mid ∧
      SameOpening 0 entry mid :=
  changes_same_opening boot_boot (run_exec takenOwn_runs) (allSteps_exec takenOwn_runs (by decide)) _
    (.cpu 0, .down 0 0 false) 0 .down 0 (by decide) rfl

/-- Process 1 opens semaphore 0 again before it kills the sleeper. -/
def reopenedUnderSleeper : List (Action (Fin 2)) :=
  sleepThenClose ++ .call 0 (.semOpen 0 1) :: cpuSteps 0 4 ++ .call 0 (.kill 2) :: cpuSteps 0 7 ++ cpuSteps 1 8

def tookLater : List (Action (Fin 2)) := reopenedUnderSleeper ++ cpuSteps 1 1

theorem reopenedUnderSleeper_runs : (exec step (boot 2 (Fin 2)) reopenedUnderSleeper).isSome := by decide

theorem tookLater_runs : (exec step (boot 2 (Fin 2)) tookLater).isSome := by decide

/-- The labels of the run up to the step in which the sleeper takes the unit. -/
def tookLaterBefore : List (Action (Fin 2) × Event 2) :=
  ((exec step (boot 2 (Fin 2)) reopenedUnderSleeper).get reopenedUnderSleeper_runs).1

def isDownCall : Action (Fin 2) × Event 2 → Bool
  | (.call _ (.semDown _), _) => true
  | _ => false

theorem tookLater_closed : ∀ k < tookLaterBefore.length, (tookLaterBefore[k]?).any isDownCall = true →
    ∃ l ∈ tookLaterBefore.drop (k + 1), l.2 = .closed 0 0 := by decide

theorem not_changes_same_opening_reopened :
    ¬∀ (s t : State 2 (Fin 2)) (ls : List (Action (Fin 2) × Event 2)), Boot s → Run Step s ls t →
      ∀ ms l p use i, ms ++ [l] <+: ls → l.2.use? = some (p, use, i) →
        ∃ entry mid, EnteredAt s ms p use i entry mid ∧ SameOpening i entry mid := by
  intro h
  obtain ⟨entry, mid, ⟨pre, c, x, hpre, -⟩, -, hclosed⟩ := h _ _ _ boot_boot (run_exec tookLater_runs) tookLaterBefore
    (.cpu 1, .down 1 0 true) 1 .down 0 (by decide) rfl
  -- The only call of `sem_down` in the run comes before the close.
  have hlen : pre.length < tookLaterBefore.length := by simp [hpre]
  obtain ⟨l, hl, hev⟩ := tookLater_closed pre.length hlen (by simp [hpre, isDownCall, Use.sys])
  rw [hpre, List.append_cons, List.drop_left' (by simp)] at hl
  exact hclosed l hl 0 hev

end LabSO.Kernel

import LabSO.Kernel.SemValue

/-! Who opens a semaphore. While no value below 0 is passed, a semaphore is opened again only after a `sem_close`. The
    loop of `get_sem` takes the lock of one semaphore at a time, so the table changes under it: what it found out about a
    slot holds of the moment at which it tested the slot. -/

namespace LabSO.Kernel
open Transition

variable {n : Nat} {κ : Type}

/-! ### The indices in the table -/

def Point.sem? : Point → Option Nat
  | .openAcquire _ i _ | .closeAcquire i | .upAcquire i | .downAcquire i | .sleepReacquire i => some i
  | _ => none

def Section.sem? : Section n → Option Nat
  | .openBody _ i _ | .openRelease _ i _ _ | .closeBody i | .closeRelease i _ | .upBody i | .wakeup i _
  | .wakeupTest i _ | .wakeupRelease i _ | .upRelease i _ | .downBody i | .downLoop i | .downRelease i _
  | .sleepAcquire i | .sleepRelease i | .sleepChan i | .sleepState i | .sleepSched i | .sleepTidy i
  | .sleepUnlock i => some i
  | _ => none

/-- The entry of `semaphores` that a thread works on. -/
def Pc.sem? : Pc n → Option Nat
  | .at k => k.sem?
  | .inside sec => sec.sem?
  | .yield _ k => k.sem?

/-- No thread is at an index outside the table. -/
def InTable (s : State n κ) : Prop := ∀ p, ∀ i ∈ (s.pcs p).sem?, i < N

theorem getSemLoop_sem {index : Nat} {value : Int} {i : Nat} (h : i ∈ (getSemLoop index value).sem?) : i < N := by
  unfold getSemLoop at h
  split at h
  · next hlt =>
    cases h
    exact hlt
  · cases h

theorem withSem_sem {sem : Int} {point : Nat → Point} {i : Nat} (h : i ∈ (withSem sem point).sem?)
    (hpoint : ∀ j, ∀ i ∈ (point j).sem?, i = j) : i < N := by
  unfold withSem at h
  split at h
  · cases h
  · next hrange =>
    have hi := hpoint _ i h
    omega

theorem enter_sem {sys : SysCall} {i : Nat} (h : i ∈ (enter sys).sem?) : i < N := by
  cases sys with
  | getSem value => exact getSemLoop_sem h
  | kill pid => cases h
  | semOpen sem value =>
    have hopen : i ∈ (withSem (argint sem) fun j => .openAcquire .syscall j (argint value)).sem? := h
    exact withSem_sem hopen fun _ _ hj => (Option.some.inj hj).symm
  | semClose sem | semUp sem | semDown sem => exact withSem_sem h fun _ _ hj => (Option.some.inj hj).symm

theorem instr_sem {s : State n κ} {p : Fin n} {pc pc' : Pc n} {effect : Effect n} {event : Event n} {i : Nat}
    (h : threadStep s p pc = some (effect, pc', event)) (hi : i ∈ pc'.sem?) : i ∈ pc.sem? ∨ i < N := by
  cases threadStep_instr h with
  | @openRelease caller j value result =>
    right
    cases caller with
    | syscall => cases hi
    | getSem =>
      change i ∈ (openReturn .getSem j value result).sem? at hi
      unfold openReturn at hi
      split at hi
      · next hsys => cases hsys
      · split at hi
        · exact getSemLoop_sem hi
        · cases hi
  | @killRelease pid q found => cases found <;> cases hi
  | _ => first | exact Or.inl hi | cases hi

/-! ### The loop of `get_sem` -/

section
variable (Q O : Nat → Prop) (value : Int)

/-- A place in `get_sem(value)`, where `Q` holds of the slots found open and `O` of the slot that it opened. -/
def ScanPoint : Point → Prop
  | .openAcquire .getSem i v => v = value ∧ i < N ∧ ∀ j < i, Q j
  | .returned r => r = -1 ∧ (∀ j < N, Q j) ∨ ∃ i < N, r = (i : Int) ∧ O i
  | _ => False

def ScanSection : Section n → Prop
  | .openBody .getSem i v => v = value ∧ i < N ∧ ∀ j < i, Q j
  | .openRelease .getSem i v r => v = value ∧ i < N ∧ (r = 1 ∧ O i ∨ r = 0 ∧ ∀ j < i + 1, Q j)
  | _ => False

def ScanAt : Pc n → Prop
  | .at k | .yield _ k => ScanPoint Q O value k
  | .inside sec => ScanSection Q O value sec

end

def Point.scanLeft : Point → Nat
  | .openAcquire _ i _ => 3 * (N - i) + 1
  | _ => 1

/-- The instructions that `get_sem` has left at most, less those in `yield`. -/
def Pc.scanLeft : Pc n → Nat
  | .at k | .yield _ k => k.scanLeft
  | .inside (.openBody _ i _) => 3 * (N - i)
  | .inside (.openRelease _ i _ _) => 3 * (N - i) - 1
  | .inside _ => 0

section
variable {Q O Q' O' : Nat → Prop} {value : Int}

theorem ScanPoint.mono {k : Point} (hQ : ∀ i, Q i → Q' i) (hO : ∀ i, O i → O' i) (h : ScanPoint Q O value k) :
    ScanPoint Q' O' value k := by
  cases k with
  | openAcquire caller i v =>
    cases caller with
    | syscall => exact h
    | getSem => exact ⟨h.1, h.2.1, fun j hj => hQ j (h.2.2 j hj)⟩
  | returned r =>
    rcases h with ⟨hr, hall⟩ | ⟨i, hi, hr, ho⟩
    · exact Or.inl ⟨hr, fun j hj => hQ j (hall j hj)⟩
    · exact Or.inr ⟨i, hi, hr, hO i ho⟩
  | _ => exact h

theorem ScanSection.mono {sec : Section n} (hQ : ∀ i, Q i → Q' i) (hO : ∀ i, O i → O' i)
    (h : ScanSection Q O value sec) : ScanSection Q' O' value sec := by
  cases sec with
  | openBody caller i v =>
    cases caller with
    | syscall => exact h
    | getSem => exact ⟨h.1, h.2.1, fun j hj => hQ j (h.2.2 j hj)⟩
  | openRelease caller i v r =>
    cases caller with
    | syscall => exact h
    | getSem =>
      obtain ⟨hv, hi, ⟨hr, ho⟩ | ⟨hr, hall⟩⟩ := h
      · exact ⟨hv, hi, Or.inl ⟨hr, hO i ho⟩⟩
      · exact ⟨hv, hi, Or.inr ⟨hr, fun j hj => hQ j (hall j hj)⟩⟩
  | _ => exact h

theorem ScanAt.mono {pc : Pc n} (hQ : ∀ i, Q i → Q' i) (hO : ∀ i, O i → O' i) (h : ScanAt Q O value pc) :
    ScanAt Q' O' value pc := by
  cases pc with
  | «at» k | yield stage k => exact ScanPoint.mono hQ hO h
  | inside sec => exact ScanSection.mono hQ hO h

/-- The loop goes on behind a slot that it found open, and ends behind the last. -/
theorem getSemLoop_scan {i : Nat} (hQ : ∀ j < i, Q j) : ScanPoint Q O value (getSemLoop i value) ∧
    (getSemLoop i value).scanLeft ≤ 3 * (N - i) + 1 := by
  unfold getSemLoop
  split
  · next hlt => exact ⟨⟨rfl, hlt, hQ⟩, le_refl _⟩
  · next hge => exact ⟨Or.inl ⟨rfl, fun j hj => hQ j (by omega)⟩, by simp [Point.scanLeft]⟩

/-- What an instruction of `get_sem` leads to. -/
theorem instr_scan {s : State n κ} {p : Fin n} {pc pc' : Pc n} {effect : Effect n} {event : Event n}
    (h : threadStep s p pc = some (effect, pc', event)) (hpc : ScanAt Q O value pc)
    (hQ : ∀ i, pc = .inside (.openBody .getSem i value) → (s.sems i).count ≠ -1 → Q i)
    (hO : ∀ i, event = .opened p i value → O i) :
    (∃ r, pc = .at (.returned r) ∧ event = .returned p r) ∨
    ScanAt Q O value pc' ∧ pc'.scanLeft ≤ pc.scanLeft ∧
      ((∀ stage k, pc ≠ .yield stage k) → effect ≠ .swtch ∧ (∀ stage k, pc' ≠ .yield stage k) ∧
        pc'.scanLeft < pc.scanLeft) := by
  cases threadStep_instr h with
  | @returned r => exact Or.inl ⟨r, rfl, rfl⟩
  | @openAcquire caller i v =>
    cases caller with
    | syscall => exact False.elim hpc
    | getSem =>
      have hlt : (Pc.inside (.openBody .getSem i v) : Pc n).scanLeft <
          (Pc.at (.openAcquire .getSem i v) : Pc n).scanLeft := Nat.lt_succ_self _
      exact Or.inr ⟨hpc, hlt.le, fun _ => ⟨nofun, nofun, hlt⟩⟩
  | @opened caller i v closed =>
    cases caller with
    | syscall => exact False.elim hpc
    | getSem =>
      obtain ⟨rfl, hi, hall⟩ := hpc
      have hlt : (Pc.inside (.openRelease .getSem i v 1) : Pc n).scanLeft <
          (Pc.inside (.openBody .getSem i v) : Pc n).scanLeft := by
        simp only [Pc.scanLeft]
        omega
      exact Or.inr ⟨⟨rfl, hi, Or.inl ⟨rfl, hO i rfl⟩⟩, hlt.le, fun _ => ⟨nofun, nofun, hlt⟩⟩
  | @openFails caller i v isOpen =>
    cases caller with
    | syscall => exact False.elim hpc
    | getSem =>
      obtain ⟨rfl, hi, hall⟩ := hpc
      have hlt : (Pc.inside (.openRelease .getSem i v 0) : Pc n).scanLeft <
          (Pc.inside (.openBody .getSem i v) : Pc n).scanLeft := by
        simp only [Pc.scanLeft]
        omega
      refine Or.inr ⟨⟨rfl, hi, Or.inr ⟨rfl, fun j hj => ?_⟩⟩, hlt.le, fun _ => ⟨nofun, nofun, hlt⟩⟩
      rcases Nat.lt_succ_iff_lt_or_eq.mp hj with hj | rfl
      · exact hall j hj
      · exact hQ j rfl isOpen
  | @openRelease caller i v r =>
    cases caller with
    | syscall => exact False.elim hpc
    | getSem =>
      obtain ⟨rfl, hi, ⟨rfl, ho⟩ | ⟨rfl, hall⟩⟩ := hpc
      · have hlt : (Pc.at (.returned i) : Pc n).scanLeft < (Pc.inside (.openRelease .getSem i v 1) : Pc n).scanLeft := by
          simp only [Pc.scanLeft, Point.scanLeft]
          omega
        exact Or.inr ⟨Or.inr ⟨i, hi, rfl, ho⟩, hlt.le, fun _ => ⟨nofun, nofun, hlt⟩⟩
      · obtain ⟨hloop, hleft⟩ : ScanPoint Q O v (getSemLoop (i + 1) v) ∧
            (getSemLoop (i + 1) v).scanLeft ≤ 3 * (N - (i + 1)) + 1 := getSemLoop_scan hall
        have hlt : (Pc.at (getSemLoop (i + 1) v) : Pc n).scanLeft <
            (Pc.inside (.openRelease .getSem i v 0) : Pc n).scanLeft := by
          simp only [Pc.scanLeft]
          omega
        exact Or.inr ⟨hloop, hlt.le, fun _ => ⟨nofun, nofun, hlt⟩⟩
  | yieldAcquire | yieldState | yieldSched | yieldRelease =>
    exact Or.inr ⟨hpc, le_refl _, fun hnot => absurd rfl (hnot _ _)⟩
  | _ => exact False.elim hpc

end

variable [DecidableEq κ]

theorem inTable_step {s t : State n κ} {l : Action κ × Event n} (h : InTable s) (hstep : Step s l t) : InTable t := by
  intro p i hi
  rcases step_place hstep p with ⟨hsame, -⟩ | ⟨c, effect, pc, u, -, -, hinstr, -, rfl⟩ | ⟨c, k, -, -, hk, rfl⟩ |
    ⟨c, sys, -, -, -, rfl⟩
  · exact h p i (hsame ▸ hi)
  · rw [thread_pcs_self] at hi
    rcases instr_sem hinstr hi with hbefore | hlt
    · exact h p i hbefore
    · exact hlt
  · rw [thread_pcs_self] at hi
    refine h p i ?_
    rw [hk]
    exact hi
  · rw [thread_pcs_self] at hi
    exact enter_sem hi

theorem inTable_run {s t : State n κ} {ls : List (Action κ × Event n)} (hboot : Boot s) (hrun : Run Step s ls t) :
    InTable t := by
  refine hrun.invariant (fun _ _ _ h hstep => inTable_step h hstep) fun p i hi => ?_
  rw [hboot.pcs] at hi
  cases hi

/-! ### A call of `get_sem` -/

/-- Along the labels `ls` from `s`, the process tested the slot in `get_sem` and found it open. -/
def FoundOpen (s : State n κ) (ls : List (Action κ × Event n)) (p : Fin n) (value : Int) (i : Nat) : Prop :=
  ∃ ms c t event, ms ++ [(.cpu c, event)] <+: ls ∧ Run Step s ms t ∧ t.cpus c = .run p ∧
    t.pcs p = .inside (.openBody .getSem i value) ∧ (t.sems i).count ≠ -1

theorem FoundOpen.append {s : State n κ} {ls : List (Action κ × Event n)} {p : Fin n} {value : Int} {i : Nat}
    (h : FoundOpen s ls p value i) (ms : List (Action κ × Event n)) : FoundOpen s (ls ++ ms) p value i := by
  obtain ⟨ns, c, t, event, hns, hfound⟩ := h
  exact ⟨ns, c, t, event, hns.trans (List.prefix_append _ _), hfound⟩

theorem scan_step {Q O : Nat → Prop} {s t : State n κ} {l : Action κ × Event n} {p : Fin n} {value : Int}
    (h : ScanAt Q O value (s.pcs p)) (hl : ∀ r, l.2 ≠ .returned p r)
    (hQ : ∀ i c, l.1 = .cpu c → s.cpus c = .run p → s.pcs p = .inside (.openBody .getSem i value) →
      (s.sems i).count ≠ -1 → Q i)
    (hO : ∀ i, l.2 = .opened p i value → O i) (hstep : Step s l t) : ScanAt Q O value (t.pcs p) := by
  rcases step_place hstep p with ⟨hsame, -⟩ | ⟨c, effect, pc, u, hc, hact, hi, -, rfl⟩ | ⟨c, k, -, -, hk, rfl⟩ |
    ⟨c, sys, -, -, huser, -⟩
  · rwa [hsame]
  · rw [thread_pcs_self]
    rcases instr_scan hi h (fun i hpc hcount => hQ i c hact hc hpc hcount) hO with ⟨r, -, hev⟩ | ⟨hscan, -⟩
    · exact absurd hev (hl r)
    · exact hscan
  · rw [hk] at h
    rw [thread_pcs_self]
    exact h
  · rw [huser] at h
    cases h

/-- Until `get_sem` returns, it found open every slot that it has behind it, and the one that it is to return is the
    one that it opened. -/
theorem scan_run {s t : State n κ} {ls : List (Action κ × Event n)} {p : Fin n} {value : Int}
    (hs : s.pcs p = .at (getSemLoop 0 value)) (hrun : Run Step s ls t) (hls : ∀ l ∈ ls, ∀ r, l.2 ≠ .returned p r) :
    ScanAt (FoundOpen s ls p value) (fun i => ∃ a, (a, .opened p i value) ∈ ls) value (t.pcs p) := by
  induction hrun with
  | refl =>
    rw [hs]
    have hloop : ScanPoint (FoundOpen s [] p value) (fun i => ∃ a : Action κ, (a, Event.opened p i value) ∈ []) value
        (getSemLoop 0 value) := (getSemLoop_scan fun j hj => absurd hj (Nat.not_lt_zero j)).1
    exact hloop
  | @tail ms u l v hrun hstep ih =>
    have hu := ih fun l' hl' => hls l' (List.mem_append_left _ hl')
    have hopened : ∀ i, (∃ a, (a, .opened p i value) ∈ ms) → ∃ a, (a, .opened p i value) ∈ ms ++ [l] :=
      fun i ⟨a, ha⟩ => ⟨a, List.mem_append_left _ ha⟩
    have hmono := hu.mono (fun i hi => hi.append [l]) hopened
    refine scan_step hmono (hls l (by simp)) (fun i c hact hc hpc hcount => ?_) (fun i hev => ?_) hstep
    · obtain ⟨a, event⟩ := l
      obtain rfl := hact
      exact ⟨ms, c, u, event, List.prefix_refl _, hrun, hc, hpc, hcount⟩
    · obtain ⟨a, event⟩ := l
      obtain rfl := hev
      exact ⟨a, by simp⟩

def Pc.inYield : Pc n → Bool
  | .yield _ _ => true
  | _ => false

/-- The step is an instruction of the process, not one of its `yield`. -/
def instructs (p : Fin n) : State n κ × Action κ × Event n → Bool
  | (s, .cpu c, _) => decide (s.cpus c = .run p) && !(s.pcs p).inYield
  | _ => false

theorem scan_bounded {s : State n κ} {p : Fin n} {value : Int} (as : List (Action κ))
    (hs : ScanAt (fun _ => True) (fun _ => True) value (s.pcs p))
    (has : ∀ x ∈ steps step s as, ∀ r, x.2.2 ≠ .returned p r) :
    (steps step s as).countP (instructs p) ≤ (s.pcs p).scanLeft := by
  induction as generalizing s with
  | nil => simp [steps]
  | cons a rest ih =>
    rw [steps] at has ⊢
    cases hstep : step s a with
    | none => simp
    | some result =>
      obtain ⟨event, t⟩ := result
      simp only [hstep] at has ⊢
      have hl : ∀ r, event ≠ .returned p r := has _ List.mem_cons_self
      have hT : Step s (a, event) t := hstep
      have ht := scan_step hs hl (fun _ _ _ _ _ _ => trivial) (fun _ _ => trivial) hT
      have hrest := ih ht fun x hx => has x (List.mem_cons_of_mem _ hx)
      rw [List.countP_cons]
      rcases step_place hT p with ⟨hsame, hnot⟩ | ⟨c, effect, pc, u, hc, hact, hi, -, rfl⟩ | ⟨c, k, -, hact, hk, rfl⟩ |
        ⟨c, sys, -, -, huser, -⟩
      · have hother : instructs p (s, a, event) = false := by
          cases a with
          | cpu c => simp [instructs, hnot c rfl]
          | call c sys | preempt c => rfl
        rw [hsame] at hrest
        simpa [hother] using hrest
      · obtain rfl : a = .cpu c := hact
        rw [thread_pcs_self] at hrest
        rcases instr_scan hi hs (fun _ _ _ => trivial) (fun _ _ => trivial) with ⟨r, -, hev⟩ | ⟨-, hle, hlt⟩
        · exact absurd hev (hl r)
        · cases hyield : (s.pcs p).inYield with
          | true =>
            have hnot : instructs p (s, .cpu c, event) = false := by simp [instructs, hyield]
            have hsum := hrest.trans hle
            simpa [hnot] using hsum
          | false =>
            have hne : ∀ stage k, s.pcs p ≠ .yield stage k := by
              intro stage k hpc
              rw [hpc] at hyield
              cases hyield
            have := (hlt hne).2.2
            split <;> omega
      · obtain rfl : a = .preempt c := (Prod.mk.inj hact).1
        rw [thread_pcs_self] at hrest
        have hleft : (s.pcs p).scanLeft = (Pc.yield .acquire k : Pc n).scanLeft := by
          rw [hk]
          rfl
        have hnot : instructs p (s, .preempt c, event) = false := rfl
        rw [hleft]
        simpa [hnot] using hrest
      · rw [huser] at hs
        cases hs

/-- What a call of `get_sem` does, from the state in which it starts. -/
structure ScanSpec (s : State n κ) (p : Fin n) (value : Int) : Prop where
  /-- It returns -1 after it found every slot open, each at its test, or the index that it opened. -/
  result : ∀ ls t a r u, Run Step s ls t → (∀ l ∈ ls, ∀ r', l.2 ≠ .returned p r') → Step t (a, .returned p r) u →
    r = -1 ∧ (∀ i < N, FoundOpen s ls p value i) ∨ ∃ i < N, r = (i : Int) ∧ ∃ b, (b, .opened p i value) ∈ ls
  /-- It executes at most three instructions a slot and one more. -/
  bounded : ∀ as, (∀ x ∈ steps step s as, ∀ r, x.2.2 ≠ .returned p r) →
    (steps step s as).countP (instructs p) ≤ 3 * N + 1
  /-- Wherever it runs, it can return. -/
  returns : ∀ ls t c, Run Step s ls t → (∀ l ∈ ls, ∀ r, l.2 ≠ .returned p r) → t.cpus c = .run p →
    (∀ stage k, t.pcs p ≠ .yield stage k) → ∃ ms u a r, Run Step t ms u ∧ (a, .returned p r) ∈ ms

theorem scanSpec_of_call {s t : State n κ} {c : κ} {p : Fin n} {x : Int} (hl : Locked s) (hh : Held s)
    (hc : s.cpus c = .run p) (hstep : Step s (.call c (.getSem x), .silent) t) : ScanSpec t p (argint x) := by
  have ht : t.pcs p = .at (getSemLoop 0 (argint x)) := by
    cases step_inv hstep with
    | @call c q sys cpu user =>
      rw [hc] at cpu
      cases cpu
      exact thread_pcs_self
  have hstart : ScanAt (fun _ => True) (fun _ => True) (argint x) (t.pcs p) := by
    rw [ht]
    have hloop : ScanPoint (fun _ => True) (fun _ => True) (argint x) (getSemLoop 0 (argint x)) :=
      (getSemLoop_scan fun _ _ => trivial).1
    exact hloop
  refine ⟨fun ls u a r v hrun hls hreturn => ?_, fun as has => ?_, fun ls u d hrun hls hd hne => ?_⟩
  · have hscan := scan_run ht hrun hls
    rw [made_returned hreturn rfl] at hscan
    exact hscan
  · have hbound := scan_bounded as hstart has
    rw [ht] at hbound
    exact hbound
  · obtain ⟨hlu, hhu⟩ := locked_held_run (locked_step hl hstep) (held_step hl hh hstep) hrun
    have hscan : ScanAt (fun _ => True) (fun _ => True) (argint x) (u.pcs p) :=
      (scan_run ht hrun hls).mono (fun _ _ => trivial) fun _ _ => trivial
    refine can_return (fun pc => ScanAt (fun _ => True) (fun _ => True) (argint x) pc ∧ ∀ stage k, pc ≠ .yield stage k)
      Pc.scanLeft (fun w pc effect pc' event hpc hi => ?_) (fun h => h.1) hlu hhu hd ⟨hscan, hne⟩
    rcases instr_scan hi hpc.1 (fun _ _ _ => trivial) (fun _ _ => trivial) with ⟨r, -, hev⟩ | ⟨hscan', -, hlt⟩
    · exact Or.inl ⟨r, hev⟩
    · obtain ⟨hsw, hny, hlt'⟩ := hlt hpc.2
      exact Or.inr ⟨hsw, ⟨hscan', hny⟩, hlt'⟩

/-! ### Who has a semaphore open -/

/-- Between two steps that open a semaphore comes one that closes it, of a `sem_close` that returns 1. -/
def OpenedOnce (s : State n κ) (ls : List (Action κ × Event n)) : Prop :=
  ∀ pre mid post a b p q i v w, ls = pre ++ (a, .opened p i v) :: mid ++ (b, .opened q i w) :: post →
    ∃ ms d r ns, mid = ms ++ (d, .closed r i) :: ns ∧
      ∀ t, Run Step s (pre ++ (a, .opened p i v) :: ms ++ [(d, .closed r i)]) t → Returns t r 1

theorem returns_of_closed {s t : State n κ} {l : Action κ × Event n} {q : Fin n} {i : Nat} (hl : Locked s) (hh : Held s)
    (hstep : Step s l t) (hclose : l.2 = .closed q i) : Returns t q 1 := by
  obtain ⟨c, hc, hpc, ht⟩ := close_inv hstep hclose
  have hpct : t.pcs q = .inside (.closeRelease i 1) := by rw [ht, thread_pcs_self]
  refine returns_of_returning (locked_step hl hstep) (held_step hl hh hstep) (c := c) (by rw [ht]; exact hc) ?_ ?_
  · rw [hpct]
    exact rfl
  · simp [hpct]

theorem openedOnce_run {s t : State n κ} {ls : List (Action κ × Event n)} (hboot : Boot s) (hrun : Run Step s ls t)
    (hopens : ∀ l ∈ ls, l.1.OpensNonneg) : OpenedOnce s ls := by
  rintro pre mid post a b p q i v w rfl
  obtain ⟨u, hu, hpost⟩ := hrun.append_inv
  obtain ⟨x, hx, hmid⟩ := hu.append_inv
  obtain ⟨y, hopen, hy⟩ := hmid.cons_inv
  obtain ⟨z, hagain, -⟩ := hpost.cons_inv
  have hvalue := opened_nonneg hboot hx (fun l hl => hopens l (by simp [hl])) hopen
  have hint := (opened_value (valuesMeet_isInt hboot hx) hopen rfl).2
  have hclosed : ∃ l ∈ mid, ∃ r, l.2 = .closed r i := by
    by_contra hnone
    have hkeep : ∀ l ∈ mid ++ [(b, .opened q i w)], ∀ r, l.2 ≠ .closed r i := by
      intro l hl r hev
      rcases List.mem_append.mp hl with hl | hl
      · exact hnone ⟨l, hl, r, hev⟩
      · obtain rfl := List.mem_singleton.mp hl
        cases hev
    obtain ⟨hno, -⟩ := staysOpen_of_opened hopen hvalue hint _ _ (hy.tail hagain) hkeep
    exact hno (b, .opened q i w) (by simp) q w rfl
  obtain ⟨⟨d, event⟩, hmem, r, rfl⟩ := hclosed
  obtain ⟨ms, ns, rfl⟩ := List.append_of_mem hmem
  refine ⟨ms, d, r, ns, rfl, fun t' ht' => ?_⟩
  obtain ⟨s', hs', hstep⟩ := ht'.snoc_inv
  exact returns_of_closed (locked_run hboot hs') (held_run hboot hs') hstep rfl

/-- While semaphores are opened with values from 0: one is opened again only after it was closed, no call is outside
    the table, and every call of `get_sem` returns the index that it opened, or -1 after it found every slot open. -/
theorem get_sem_exclusive {s t : State n κ} {ls : List (Action κ × Event n)} (hboot : Boot s) (hrun : Run Step s ls t)
    (hopens : ∀ l ∈ ls, l.1.OpensNonneg) :
    OpenedOnce s ls ∧ InTable t ∧
    ∀ c p x u, t.cpus c = .run p → Step t (.call c (.getSem x), .silent) u → ScanSpec u p (argint x) :=
  ⟨openedOnce_run hboot hrun hopens, inTable_run hboot hrun, fun _ _ _ _ hc hstep =>
    scanSpec_of_call (locked_run hboot hrun) (held_run hboot hrun) hc hstep⟩

attribute [local instance] Transition.neZero_two

/-- Two processes call `get_sem(1)`; the first gets semaphore 0, the second finds it open and gets semaphore 1, and the
    first closes its own. -/
def scanRace : List (Action (Fin 2)) :=
  cpuSteps 0 3 ++ cpuSteps 1 6 ++ .call 0 (.getSem 1) :: .call 1 (.getSem 1) :: cpuSteps 0 4 ++ cpuSteps 1 7 ++
    .call 0 (.semClose 0) :: cpuSteps 0 4

theorem scanRace_runs : (exec step (boot 2 (Fin 2)) scanRace).isSome := by decide

theorem get_sem_exclusive_race :
    let (ls, t) := (exec step (boot 2 (Fin 2)) scanRace).get scanRace_runs
    OpenedOnce (boot 2 (Fin 2)) ls ∧ InTable t ∧
    ∀ c p x u, t.cpus c = .run p → Step t (.call c (.getSem x), .silent) u → ScanSpec u p (argint x) :=
  get_sem_exclusive boot_boot (run_exec scanRace_runs) (by decide)

end LabSO.Kernel

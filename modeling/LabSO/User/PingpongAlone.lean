import LabSO.User.PingpongApart

/-! A single run of `pingpong` with no other user of semaphores: it finds the semaphores 0 and 1, and its prints
    alternate to the end, also where the child closes the semaphores before the parent's last round is over. -/

namespace LabSO.User
open Kernel Transition

variable {cfg : Config Unit} {s t : State Unit} {p : Unit × Role} {amount : Nat} {forkFails : Bool}
  {sems : Nat → Semaphore} {role : Role} {c pc pc' : Pc} {e : Event}

/-- While the search goes on, it has opened the first semaphores and the others are closed. -/
def Searching (s : State Unit) : Prop :=
  ∀ index opened, s.procs ((), .parent) = .scan index opened →
    opened.length = min index 2 ∧ ∀ i < N, index ≤ i → (s.sems i).count = -1

theorem searching_start (hclosed : ∀ i < N, (sems i).count = -1) : Searching (start sems) := by
  intro index opened h
  cases h
  exact ⟨rfl, fun i hi _ => hclosed i hi⟩

/-- Only a search that ends without two semaphores prints the error. -/
theorem pcStep_openError (hstep : pcStep amount forkFails sems c role pc = some (.print openErrorText, pc')) :
    ∃ index opened, pc = .scan index opened ∧ opened.length ≠ 2 ∧ ¬index < 256 := by
  have hcases := pcStep_cases hstep
  generalize htext : openErrorText = text at hcases
  cases hcases with
  | notFound few all => exact ⟨_, _, rfl, few, all⟩
  | forkFailed => exact absurd htext (by decide)
  | print => cases role <;> exact absurd htext (by decide)

theorem wakeOn_scan {i index : Nat} {opened : List Nat} (h : pc.wakeOn i role = .scan index opened) :
    pc = .scan index opened := by
  unfold Pc.wakeOn Pc.wake at h
  split at h
  · split at h
    · cases h
    · cases h
    · exact h
  · exact h

theorem afterPc_scan {index : Nat} {opened : List Nat} (h : e.afterPc .parent pc = .scan index opened) :
    pc = .scan index opened := by
  cases e with
  | up j sem wakes =>
    cases wakes with
    | true => exact wakeOn_scan h
    | false => exact h
  | _ => exact h

theorem RunOk.unborn_of_scan {index : Nat} {opened : List Nat} {out : List String}
    (h : RunOk amount sems (.scan index opened) c out) : c = .unborn := by
  cases h
  rfl

theorem RunOk.child_ne_scan {index : Nat} {opened : List Nat} {out : List String}
    (h : RunOk amount sems pc (.scan index opened) out) : False := by
  cases h with
  | lastTurn last parent child | lastPrint last child | lastUp last child | waiting child => cases child

theorem searching_step (inv : Inv cfg s) (hs : Searching s) (hstep : Step cfg s (p, e) t) : Searching t := by
  obtain ⟨pc', hpc, rfl⟩ := step_inv hstep
  obtain ⟨⟨⟩, role⟩ := p
  intro index opened h
  have hparent := afterPc_scan (procs_own.symm.trans h)
  cases role with
  | child =>
    -- There is no child yet.
    rw [Function.update_of_ne (by simp)] at hparent
    have hrun := inv.runs ()
    rw [hparent] at hrun
    rw [hrun.unborn_of_scan] at hpc
    cases hpc
  | parent =>
    rw [Function.update_self] at hparent
    rw [hparent] at hpc
    generalize hpc' : s.procs ((), .parent) = pc at hpc
    cases pcStep_cases hpc with
    | openFails few more isOpen =>
      obtain ⟨-, hclosed⟩ := hs _ _ hpc'
      exact absurd (hclosed _ more (le_refl _)) isOpen
    | @opened i found few more =>
      obtain ⟨hfound, hclosed⟩ := hs i found hpc'
      refine ⟨?_, fun j hj hle => ?_⟩
      · rw [List.length_append, List.length_singleton]
        omega
      · show (Function.update s.sems i withUnit j).count = -1
        rw [Function.update_of_ne (by omega)]
        exact hclosed j hj (by omega)

/-- There is no other run, and the search finds two semaphores. -/
theorem alone_apart (inv : Inv cfg s)
    (hsearch : ∀ index opened, s.procs ((), .parent) = .scan index opened → opened.length ≠ 2 → index < 256)
    (hstep : Step cfg s (p, e) t) : Apart s (p, e) := by
  refine ⟨fun i _ q hq => absurd (Subsingleton.elim _ _) hq, ?_⟩
  rintro rfl
  obtain ⟨pc', hpc, -⟩ := step_inv hstep
  obtain ⟨⟨⟩, role⟩ := p
  obtain ⟨index, opened, hscan, hlen, hall⟩ := pcStep_openError hpc
  have hparent : role = .parent := by
    cases role with
    | parent => rfl
    | child =>
      have hrun := inv.runs ()
      rw [hscan] at hrun
      exact hrun.child_ne_scan.elim
  subst hparent
  exact hall (hsearch index opened hscan hlen)

theorem Searching.more (hs : Searching s) (index : Nat) (opened : List Nat)
    (hscan : s.procs ((), .parent) = .scan index opened) (hlen : opened.length ≠ 2) : index < 256 := by
  obtain ⟨hfound, -⟩ := hs index opened hscan
  omega

/-- The prints of a single run are at every moment the beginning of its rounds; while it has not ended one of its
    processes can go on, and when it has ended it has printed all of them. -/
theorem alone_alternates {ls : List ((Unit × Role) × Event)} (hfork : cfg.forkFails () = false)
    (hclosed : ∀ i < N, (sems i).count = -1) (hrun : Run (Step cfg) (start sems) ls t) :
    t.output () <+: rounds (cfg.amount ()) ∧ (¬Ended t () → ∃ role e u, Step cfg t (((), role), e) u) ∧
      (Ended t () → t.output () = rounds (cfg.amount ())) := by
  have hinv : ∀ s l t, Inv cfg s ∧ Searching s → Step cfg s l t → Inv cfg t ∧ Searching t := by
    rintro s ⟨p, e⟩ t ⟨inv, hs⟩ hstep
    exact ⟨inv.step (fun _ => hfork) (alone_apart inv hs.more hstep) hstep, searching_step inv hs hstep⟩
  obtain ⟨inv, -⟩ := hrun.invariant hinv ⟨inv_start, searching_start hclosed⟩
  exact ⟨(inv.runs ()).output_begins, (inv.independent fun _ => hfork).live (),
    fun hended => (inv.runs ()).exited_of_ended (hended .parent)⟩

/-- A run with one round. -/
def oneRound : Config Unit where
  amount _ := 1
  forkFails _ := false

/-- The child closes both semaphores before the parent takes its unit. -/
def childFirst : List (Unit × Role) :=
  List.replicate 5 ((), .parent) ++ List.replicate 7 ((), .child) ++ List.replicate 7 ((), .parent)

theorem childFirst_isSome : (exec (step oneRound) (start fun _ => .init) childFirst).isSome := by decide +kernel

def childFirstState : State Unit :=
  ((exec (step oneRound) (start fun _ => .init) childFirst).get childFirst_isSome).2

theorem alone_alternates_childFirst :
    Ended childFirstState () ∧ childFirstState.output () = [pingText, pongText] := by
  have hended : Ended childFirstState () := by
    intro role
    right
    cases role <;> decide +kernel
  have hrun : Run (Step oneRound) (start fun _ => .init) _ childFirstState := run_exec childFirst_isSome
  exact ⟨hended, (alone_alternates rfl (fun _ _ => rfl) hrun).2.2 hended⟩

end LabSO.User

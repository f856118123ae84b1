import LabSO.Lib.MonitorRules
import Mathlib.Logic.Embedding.Basic

/-! `sleeplock.c`: a lock that is waited for asleep. All that wait are woken at once and race for it, and a kill wakes one
    while the lock is held. -/

namespace LabSO.Sleeplocks
open Monitor Transition

/-- `struct sleeplock` without its spinlock. -/
structure Sleeplock where
  locked : UInt32
  /-- Process holding lock. -/
  pid : Int32
deriving DecidableEq, Repr

def initsleeplock : Sleeplock := ⟨0, 0⟩

/-- `inside` are the processes from where their `acquiresleep` takes the lock to where their `releasesleep` gives it back;
    the code does not look at it. -/
structure Data (n : Nat) where
  lk : Sleeplock
  inside : List (Fin n)

/-- The places in the three functions, under the spinlock. -/
inductive Point
  /-- `while (lk->locked)`. -/
  | acquireLoop
  | acquireSleep
  | acquireTake
  | acquireReturn
  | releaseClear
  | releaseWakeup
  | releaseReturn
  | holdingTest
  | holdingReturn (r : Bool)
deriving DecidableEq

inductive Request
  | acquiresleep
  | releasesleep
  | holdingsleep
deriving DecidableEq

inductive Result
  | acquiresleep
  | releasesleep
  | holdingsleep (r : Bool)
deriving DecidableEq

variable {n : Nat} (pid : Fin n ↪ Int32)

/-- `lk->locked && (lk->pid == myproc()->pid)`. -/
def Sleeplock.heldBy (lk : Sleeplock) (p : Fin n) : Bool := lk.locked ≠ 0 && lk.pid = pid p

/-- The next step of a process at each place. -/
def op (p : Fin n) (b : Data n) : Point → Op Unit (Data n) Point Result
  | .acquireLoop => .set b (if b.lk.locked ≠ 0 then .acquireSleep else .acquireTake)
  | .acquireSleep => .sleep () .acquireLoop
  | .acquireTake => .set ⟨⟨1, pid p⟩, p :: b.inside⟩ .acquireReturn
  | .acquireReturn => .release .acquiresleep
  | .releaseClear => .set ⟨⟨0, 0⟩, b.inside.erase p⟩ .releaseWakeup
  | .releaseWakeup => .wakeup () .releaseReturn
  | .releaseReturn => .release .releasesleep
  | .holdingTest => .set b (.holdingReturn (b.lk.heldBy pid p))
  | .holdingReturn r => .release (.holdingsleep r)

/-- The calls that a process can make: it gives back only what it holds. -/
def enter (p : Fin n) (b : Data n) : Request → Option (Data n × Option Point)
  | .acquiresleep => some (b, some .acquireLoop)
  | .releasesleep => if p ∈ b.inside then some (b, some .releaseClear) else none
  | .holdingsleep => some (b, some .holdingTest)

/-- The processes with one sleep lock, each with a pid of its own. -/
def code : Code n Empty Unit (Data n) Point Result Request Empty where
  op a k b := match a with | .inl p => op pid p b k
  enter a r b := match a with | .inl p => enter p b r
  env e _ := nomatch e

abbrev LockState (n : Nat) : Type := State n Empty Unit (Data n) Point

abbrev Label (n : Nat) : Type := Action n Empty Request Empty × Event n Empty Result

/-- As `initsleeplock` leaves the lock. -/
def fresh (n : Nat) : Data n := ⟨initsleeplock, []⟩

variable {pid} {b b' : Data n} {p q : Fin n} {k k' : Point}

/-- The lock is free, or it is of the one process inside. -/
def Ok (pid : Fin n ↪ Int32) (b : Data n) : Prop :=
  b.lk.locked = 0 ∧ b.inside = [] ∨ ∃ p, b.lk.locked ≠ 0 ∧ b.lk.pid = pid p ∧ b.inside = [p]

theorem Ok.length_le (h : Ok pid b) : b.inside.length ≤ 1 := by
  obtain ⟨-, hnone⟩ | ⟨p, -, -, hone⟩ := h
  · simp [hnone]
  · simp [hone]

theorem Ok.heldBy_iff (h : Ok pid b) (p : Fin n) : b.lk.heldBy pid p = true ↔ p ∈ b.inside := by
  obtain ⟨hfree, hnone⟩ | ⟨q, hlocked, hpid, hone⟩ := h
  · simp [Sleeplock.heldBy, hfree, hnone]
  · simp [Sleeplock.heldBy, hlocked, hpid, hone, eq_comm]

theorem Ok.inside_eq_nil (h : Ok pid b) (hfree : b.lk.locked = 0) : b.inside = [] := by
  obtain ⟨-, hnone⟩ | ⟨q, hlocked, -⟩ := h
  · exact hnone
  · exact absurd hfree hlocked

theorem Ok.inside_eq (h : Ok pid b) (hp : p ∈ b.inside) : b.inside = [p] := by
  obtain ⟨-, hnone⟩ | ⟨q, -, -, hone⟩ := h
  · rw [hnone] at hp
    cases hp
  · rw [hone, List.mem_singleton] at hp
    rw [hone, hp]

/-- What holds at each place, with the spinlock held. -/
def Inside (p : Fin n) (b : Data n) : Point → Prop
  | .acquireSleep => b.lk.locked ≠ 0
  | .acquireTake => b.lk.locked = 0
  | .releaseClear => p ∈ b.inside
  | .holdingReturn r => r = true ↔ p ∈ b.inside
  | _ => True

/-- What holds of a process that goes on at a place when it has got the spinlock. -/
def Outside (p : Fin n) (b : Data n) : Point → Prop
  | .acquireLoop | .holdingTest => True
  | .releaseClear => p ∈ b.inside
  | _ => False

def notes (pid : Fin n ↪ Int32) : Notes n Empty (Data n) Point where
  always := Ok pid
  rest _ := True
  idle _ _ := True
  inside a k b := match a with | .inl p => Inside p b k
  waiting a k b := match a with | .inl p => Outside p b k

theorem Outside.inside (h : Outside p b k) : Inside p b k := by
  cases k <;> first | exact h | cases h

/-- Who waits to give the lock back is still inside. -/
theorem Outside.congr (h : Outside q b k) (hin : q ∈ b.inside → q ∈ b'.inside) : Outside q b' k := by
  cases k with
  | releaseClear => exact hin h
  | _ => exact h

theorem kept_set (hok : Ok pid b) (hin : Inside p b k) (hop : op pid p b k = .set b' k') :
    Ok pid b' ∧ Inside p b' k' ∧ ∀ q k, q ≠ p → Outside q b k → Outside q b' k := by
  cases k with
  | acquireLoop =>
    cases hop
    refine ⟨hok, ?_, fun _ _ _ => id⟩
    split
    · assumption
    · next hfree => exact not_not.mp hfree
  | acquireTake =>
    cases hop
    have hnone := hok.inside_eq_nil hin
    refine ⟨.inr ⟨p, nofun, rfl, by rw [hnone]⟩, trivial, fun q k _ h => h.congr fun hq => ?_⟩
    exact List.mem_cons_of_mem _ hq
  | releaseClear =>
    cases hop
    have hone := hok.inside_eq hin
    refine ⟨.inl ⟨rfl, by simp [hone]⟩, trivial, fun q k hne h => h.congr fun hq => ?_⟩
    exact (List.mem_erase_of_ne hne).mpr hq
  | holdingTest =>
    cases hop
    exact ⟨hok, hok.heldBy_iff p, fun _ _ _ => id⟩
  | _ => cases hop

theorem outline (pid : Fin n ↪ Int32) : Outline (code pid) (fun _ => True) (notes pid) where
  acquire {a k b} _ _ h := match a with | .inl p => Outside.inside h
  set {a k b b' k'} hok hin hop := by
    obtain p | a := a
    · obtain ⟨hok', hin', hothers⟩ := kept_set hok hin hop
      refine ⟨hok', hin', fun a' hne => ⟨id, fun k h => ?_⟩⟩
      obtain q | a' := a'
      · exact hothers q k (fun heq => hne (congrArg Sum.inl heq)) h
      · cases a'
    · cases a
  wakeup {a k b c k'} _ _ hop := by
    obtain p | a := a
    · cases k <;> cases hop
      trivial
    · cases a
  sleep {a k b c k'} _ _ hop := by
    obtain p | a := a
    · cases k <;> cases hop
      exact ⟨trivial, trivial⟩
    · cases a
  killed {a k b yes no} _ _ hop := by
    obtain p | a := a
    · cases k <;> cases hop
    · cases a
  release _ _ _ := ⟨trivial, trivial⟩
  enter {a x b b' o} _ hok _ h := by
    obtain p | a := a
    · cases x with
      | acquiresleep | holdingsleep =>
        cases h
        exact ⟨hok, id, trivial, fun _ _ => ⟨id, fun _ => id, fun _ => id⟩⟩
      | releasesleep =>
        obtain ⟨hp, heq⟩ := Option.ite_none_right_eq_some.mp h
        cases heq
        exact ⟨hok, id, hp, fun _ _ => ⟨id, fun _ => id, fun _ => id⟩⟩
    · cases a
  env {e} := nomatch e

/-! ### Who is woken -/

/-- Who sleeps on the lock can take it. -/
def Due (_ : Unit) (b : Data n) : Prop := b.lk.locked = 0

/-- Only `releasesleep` makes the lock free, and then it wakes all. -/
def Owes (_ : Thread n Empty) (k : Point) (_ : Unit) : Prop := k = .releaseWakeup

theorem signals (pid : Fin n ↪ Int32) : Signals (code pid) (notes pid) Due Owes where
  set {a k b b' k' c} _ _ hop hdue h := by
    obtain p | a := a
    · cases k <;> cases hop
      · exact absurd (h hdue) nofun
      · cases hdue
      · rfl
      · exact absurd (h hdue) nofun
    · cases a
  wakeup _ _ _ hne := absurd rfl hne
  sleep {a k b c k'} _ hin hop := by
    obtain p | a := a
    · cases k <;> cases hop
      exact ⟨hin, nofun⟩
    · cases a
  killed {a k b yes no c} _ _ hop := by
    obtain p | a := a
    · cases k <;> cases hop
    · cases a
  enter {a x b b' o c} _ h hdue := by
    obtain p | a := a
    · cases x with
      | acquiresleep | holdingsleep =>
        cases h
        exact hdue
      | releasesleep =>
        obtain ⟨-, heq⟩ := Option.ite_none_right_eq_some.mp h
        cases heq
        exact hdue
    · cases a
  env {e} := nomatch e

theorem not_strands (s : LockState n) (l : Label n) : ¬Strands (code pid) Due Owes s l := by
  rintro ⟨p | a, k, result, c, q, -, -, hop, rfl, -⟩
  · cases hop
  · cases a

/-! ### Runs -/

attribute [local instance] Transition.neZero_two

end LabSO.Sleeplocks

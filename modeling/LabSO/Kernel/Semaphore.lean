import Mathlib

/-! The data of `semaphore.c` and what each call does with a semaphore while it holds the lock. -/

namespace LabSO.Kernel

/-- `#define N 256`. -/
def N : Nat := 256

/-- The 32-bit value of an `int` computation. -/
def wrap32 (x : Int) : Int := Int.bmod x (2 ^ 32)

/-- `struct semaphore` without its lock, which the machine keeps. -/
structure Semaphore where
  count : Int
  bound : Int
deriving DecidableEq, Repr

namespace Semaphore

/-- As `semaphores_init` leaves it, and as it is while closed: `count` is -1. -/
def init : Semaphore := ⟨-1, -1⟩

/-- `sem_open` between its `acquire` and `release`: the value it will return and the semaphore. -/
def openBody (s : Semaphore) (value : Int) : Int × Semaphore :=
  if s.count ≠ -1 then (0, s) else (1, ⟨value, value⟩)

/-- `sem_close` between its `acquire` and `release`. -/
def closeBody (s : Semaphore) : Int × Semaphore :=
  if s.count = -1 then (0, s) else (1, { s with count := -1 })

/-- `sem_up` between its `acquire` and the `wakeup`. -/
def upBody (s : Semaphore) : Int × Semaphore :=
  if s.count = -1 then (0, s)
  else if s.count = s.bound then (0, s)
  else (1, { s with count := wrap32 (s.count + 1) })

/-- One test of the loop of `sem_down`: `none` where the caller has to sleep, otherwise the semaphore
    after the decrement. -/
def downLoop (s : Semaphore) : Option Semaphore :=
  if s.count = 0 then none else some { s with count := wrap32 (s.count - 1) }

end Semaphore

theorem wrap32_of_range {x : Int} (hl : -2 ^ 31 ≤ x) (hu : x < 2 ^ 31) : wrap32 x = x := by
  unfold wrap32
  apply Int.bmod_eq_of_le <;> omega

end LabSO.Kernel

import LabSO.Lib.Memory
import Mathlib.Tactic.Common

/-! Copying a range byte by byte through two 64-bit pointers, upwards or downwards. The ranges may overlap: the direction is
    right when every byte is read before it is written over. -/

namespace LabSO.Memory

/-- Copy `n` bytes, the lowest first, and move both pointers up. -/
def copyUp (m : Mem) (d s : UInt64) : Nat → Mem
  | 0 => m
  | n + 1 => copyUp (Function.update m d.toNat (m s.toNat)) (d + 1) (s + 1) n

/-- Copy `n` bytes, the highest first: both pointers move down before a byte is copied. -/
def copyDown (m : Mem) (d s : UInt64) : Nat → Mem
  | 0 => m
  | n + 1 => copyDown (Function.update m (d - 1).toNat (m (s - 1).toNat)) (d - 1) (s - 1) n

/-- The `k` bytes from `dst` in `m'` are those from `src` in `m`, and all others are as they were. -/
structure Copied (m : Mem) (dst src k : Nat) (m' : Mem) : Prop where
  dest : ∀ i, i < k → m' (dst + i) = m (src + i)
  frame : ∀ a, ¬(dst ≤ a ∧ a < dst + k) → m' a = m a

variable {m : Mem} {n : Nat} {d s : UInt64}

theorem copied_memmove {dst src k : Nat} : Copied m dst src k (memmove m dst src k) where
  dest i hi := by
    have hin : dst ≤ dst + i ∧ dst + i < dst + k := by omega
    rw [memmove, if_pos hin, Nat.add_sub_cancel_left]
  frame _ ha := if_neg ha

theorem memmove_zero {dst src : Nat} : memmove m dst src 0 = m := by
  funext a
  have hout : ¬(dst ≤ a ∧ a < dst + 0) := by omega
  exact if_neg hout

/-- One more byte above the copied ones. -/
theorem memmove_succ {dst src k : Nat} :
    Function.update (memmove m dst src k) (dst + k) (m (src + k)) = memmove m dst src (k + 1) := by
  funext a
  rcases eq_or_ne a (dst + k) with rfl | hne
  · have hin : dst ≤ dst + k ∧ dst + k < dst + (k + 1) := by omega
    rw [Function.update_self, memmove, if_pos hin, Nat.add_sub_cancel_left]
  · have hiff : dst ≤ a ∧ a < dst + k ↔ dst ≤ a ∧ a < dst + (k + 1) := by omega
    rw [Function.update_of_ne hne, memmove, memmove]
    simp only [hiff]

/-- The highest byte may be copied before the others where it is not one of those they are copied from. -/
theorem memmove_update {dst src k : Nat} (h : src ≤ dst ∨ dst + k < src) :
    memmove (Function.update m (dst + k) (m (src + k))) dst src k = memmove m dst src (k + 1) := by
  rw [← memmove_succ]
  funext a
  by_cases hin : dst ≤ a ∧ a < dst + k
  · have hne : a ≠ dst + k := by omega
    have hsrc : src + (a - dst) ≠ dst + k := by omega
    rw [Function.update_of_ne hne, memmove, memmove, if_pos hin, if_pos hin, Function.update_of_ne hsrc]
  · rw [memmove, if_neg hin]
    rcases eq_or_ne a (dst + k) with rfl | hne
    · rw [Function.update_self, Function.update_self]
    · rw [Function.update_of_ne hne, Function.update_of_ne hne, memmove, if_neg hin]

theorem add_ofNat_succ {p : UInt64} : p + UInt64.ofNat (n + 1) = p + 1 + UInt64.ofNat n := by
  rw [Nat.add_comm n 1, UInt64.ofNat_add, ← UInt64.add_assoc]
  rfl

theorem add_ofNat_succ_sub {p : UInt64} : p + UInt64.ofNat (n + 1) - 1 = p + UInt64.ofNat n := by
  rw [UInt64.ofNat_add, ← UInt64.add_assoc]
  exact UInt64.add_sub_cancel ..

theorem toNat_add_ofNat {p : UInt64} (h : p.toNat + n < 2 ^ 64) : (p + UInt64.ofNat n).toNat = p.toNat + n := by
  have hn : n < 2 ^ 64 := by omega
  rw [UInt64.toNat_add, UInt64.toNat_ofNat', Nat.mod_eq_of_lt hn, Nat.mod_eq_of_lt h]

/-- The last byte that is copied upwards is the one above the others. -/
theorem copyUp_succ : copyUp m d s (n + 1) =
    Function.update (copyUp m d s n) (d + UInt64.ofNat n).toNat (copyUp m d s n (s + UInt64.ofNat n).toNat) := by
  induction n generalizing m d s with
  | zero => simp [copyUp]
  | succ n ih =>
    rw [copyUp, ih, add_ofNat_succ, add_ofNat_succ]
    rfl

/-- After `n` bytes from below, what is copied next is still as it was: the copied bytes end below it or lie above it. -/
theorem copyUp_eq (hd : d.toNat + n ≤ 2 ^ 64) (hs : s.toNat + n ≤ 2 ^ 64)
    (hapart : d.toNat ≤ s.toNat ∨ s.toNat + n ≤ d.toNat) : copyUp m d s n = memmove m d.toNat s.toNat n := by
  induction n with
  | zero => exact memmove_zero.symm
  | succ n ih =>
    have hbelow : copyUp m d s n = memmove m d.toNat s.toNat n := ih (by omega) (by omega) (by omega)
    have hintact : memmove m d.toNat s.toNat n (s.toNat + n) = m (s.toNat + n) := if_neg (by omega)
    rw [copyUp_succ, hbelow, toNat_add_ofNat (by omega), toNat_add_ofNat (by omega), hintact, memmove_succ]

/-- From the ends of the ranges, what is copied next is still as it was: the copied bytes begin above it or end below it. -/
theorem copyDown_eq (hd : d.toNat + n ≤ 2 ^ 64) (hs : s.toNat + n ≤ 2 ^ 64)
    (hapart : s.toNat ≤ d.toNat ∨ d.toNat + n ≤ s.toNat) :
    copyDown m (d + UInt64.ofNat n) (s + UInt64.ofNat n) n = memmove m d.toNat s.toNat n := by
  induction n generalizing m with
  | zero => exact memmove_zero.symm
  | succ n ih =>
    rw [copyDown, add_ofNat_succ_sub, add_ofNat_succ_sub, toNat_add_ofNat (by omega), toNat_add_ofNat (by omega),
      ih (by omega) (by omega) (by omega), memmove_update (by omega)]

end LabSO.Memory

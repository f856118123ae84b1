import Mathlib.Data.Vector.Basic
import Mathlib.Tactic.Ring

/-! Numbers of several bytes in an array of bytes, the lowest byte first. -/

namespace LabSO.Bytes

variable {n : Nat} {v : Vector UInt8 n} {off k : Nat}

/-- The number in the `k` bytes from `off`. -/
def getLE (v : Vector UInt8 n) (off : Nat) : Nat → Nat
  | 0 => 0
  | k + 1 => (v[off]?.getD 0).toNat + 256 * getLE v (off + 1) k

/-- Write the lowest `k` bytes of a number from `off` on. -/
def setLE (v : Vector UInt8 n) (off : Nat) : Nat → Nat → Vector UInt8 n
  | 0, _ => v
  | k + 1, x => setLE (v.setIfInBounds off (UInt8.ofNat x)) (off + 1) k (x / 256)

/-- A byte outside of the range that is written stays. -/
theorem getElem?_setLE {i : Nat} (x : Nat) (hi : i < off ∨ off + k ≤ i) : (setLE v off k x)[i]? = v[i]? := by
  induction k generalizing v off x with
  | zero => rfl
  | succ k ih =>
    rw [setLE, ih (x / 256) (by omega), Vector.getElem?_setIfInBounds_ne]
    omega

theorem getLE_congr {v' : Vector UInt8 n} (h : ∀ i, off ≤ i → i < off + k → v'[i]? = v[i]?) :
    getLE v' off k = getLE v off k := by
  induction k generalizing off with
  | zero => rfl
  | succ k ih => rw [getLE, getLE, h off le_rfl (by omega), ih fun i hi hlt => h i (by omega) (by omega)]

/-- A number that does not overlap the one that is written stays. -/
theorem getLE_setLE_of_disjoint {off' k' : Nat} (x : Nat) (h : off' + k' ≤ off ∨ off + k ≤ off') :
    getLE (setLE v off k x) off' k' = getLE v off' k' :=
  getLE_congr fun i hi hlt => getElem?_setLE x (by omega)

theorem getLE_setLE (x : Nat) (h : off + k ≤ n) : getLE (setLE v off k x) off k = x % 256 ^ k := by
  induction k generalizing v off x with
  | zero => simp [getLE, Nat.mod_one]
  | succ k ih =>
    have hlow : (setLE (v.setIfInBounds off (UInt8.ofNat x)) (off + 1) k (x / 256))[off]? = some (UInt8.ofNat x) := by
      rw [getElem?_setLE _ (Or.inl (Nat.lt_succ_self off)), Vector.getElem?_setIfInBounds_self_of_lt (by omega)]
    rw [setLE, getLE, hlow, ih _ (by omega), Nat.pow_succ, Nat.mul_comm (256 ^ k) 256, Nat.mod_mul]
    simp

end LabSO.Bytes

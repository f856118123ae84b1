import Mathlib.Logic.Function.Basic
import Mathlib.Data.List.Range
import Mathlib.Data.Nat.ModEq
import Mathlib.Tactic.Common

/-! Rings whose positions are counted by 16-bit words that wrap around. -/

namespace LabSO.Ring

variable {α β : Type} {size count : Nat} {ring : Nat → α} {lo hi : UInt16} {x : α}

/-- The entries of a ring from a position up to another one; its slots are taken by the positions modulo `size`. -/
def entries (size : Nat) (ring : Nat → α) (lo hi : UInt16) : List α :=
  (List.range (hi - lo).toNat).map fun i => ring ((lo.toNat + i) % size)

@[simp] theorem length_entries : (entries size ring lo hi).length = (hi - lo).toNat := by simp [entries]

theorem entries_self : entries size ring lo lo = [] := by simp [entries]

theorem distance_succ (h : (hi - lo).toNat + 1 < 2 ^ 16) : (hi + 1 - lo).toNat = (hi - lo).toNat + 1 := by
  have hlo := lo.toNat_lt
  have hhi := hi.toNat_lt
  rw [UInt16.toNat_sub] at h
  rw [UInt16.toNat_sub, UInt16.toNat_sub, UInt16.toNat_add]
  simp only [UInt16.reduceToNat]
  omega

theorem distance_pred (h : lo ≠ hi) : (hi - lo).toNat = (hi - (lo + 1)).toNat + 1 := by
  have hlo := lo.toNat_lt
  have hhi := hi.toNat_lt
  have hne : lo.toNat ≠ hi.toNat := fun heq => h (UInt16.toNat_inj.mp heq)
  rw [UInt16.toNat_sub, UInt16.toNat_sub, UInt16.toNat_add]
  simp only [UInt16.reduceToNat]
  omega

/-- The slot of the position at the end, from the one at the start. -/
theorem slot_end (hsize : size ∣ 2 ^ 16) : (lo.toNat + (hi - lo).toNat) % size = hi.toNat % size := by
  have hlo := lo.toNat_lt
  have hhi := hi.toNat_lt
  have hmod : (lo.toNat + (hi - lo).toNat) % 2 ^ 16 = hi.toNat := by
    rw [UInt16.toNat_sub]
    omega
  rw [← Nat.mod_mod_of_dvd _ hsize, hmod]

theorem slot_succ (hsize : size ∣ 2 ^ 16) (i : Nat) : ((lo + 1).toNat + i) % size = (lo.toNat + (i + 1)) % size := by
  rw [UInt16.toNat_add, Nat.add_mod, Nat.mod_mod_of_dvd _ hsize, ← Nat.add_mod]
  simp only [UInt16.reduceToNat]
  congr 1
  omega

/-- The entry at the end comes in when the end moves on. -/
theorem entries_push (hsize : size ∣ 2 ^ 16) (h : (hi - lo).toNat + 1 < 2 ^ 16) :
    entries size ring lo (hi + 1) = entries size ring lo hi ++ [ring (hi.toNat % size)] := by
  unfold entries
  rw [distance_succ h, List.range_succ, List.map_append, List.map_singleton, slot_end hsize]

/-- The first entry goes out when the start moves on. -/
theorem entries_pop (hsize : size ∣ 2 ^ 16) (h : lo ≠ hi) :
    entries size ring lo hi = ring (lo.toNat % size) :: entries size ring (lo + 1) hi := by
  unfold entries
  rw [distance_pred h, List.range_succ_eq_map, List.map_cons, List.map_map, Nat.add_zero]
  congr 1
  refine List.map_congr_left fun i _ => ?_
  rw [slot_succ hsize]
  rfl

/-- A write to the slot at the end of a ring that has room leaves the entries. -/
theorem entries_update (hsize : size ∣ 2 ^ 16) (h : (hi - lo).toNat < size) :
    entries size (Function.update ring (hi.toNat % size) x) lo hi = entries size ring lo hi := by
  refine List.map_congr_left fun i hi' => ?_
  have hlt := List.mem_range.mp hi'
  refine Function.update_of_ne (fun heq => ?_) ..
  have hend : (lo.toNat + (hi - lo).toNat) % size = hi.toNat % size := slot_end hsize
  rw [← hend] at heq
  have hmod := Nat.ModEq.add_left_cancel' lo.toNat heq
  have heq' := Nat.ModEq.eq_of_lt_of_lt hmod (by omega) (by omega)
  omega

theorem entries_eq_nil : entries size ring lo hi = [] ↔ lo = hi := by
  rw [← List.length_eq_zero_iff, length_entries]
  constructor
  · intro h
    have hsub : hi - lo = 0 := UInt16.toNat_inj.mp h
    rw [← UInt16.sub_add_cancel hi lo, hsub, UInt16.zero_add]
  · rintro rfl
    simp

end LabSO.Ring

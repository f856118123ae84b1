import LabSO.Lib.Copying

/-! `memmove` of the kernel's `string.c`. -/

namespace LabSO.Kernel
open Memory

/-- What `memmove` returns, and the memory it leaves. -/
def memmove (m : Mem) (dst src : UInt64) (n : UInt32) : UInt64 × Mem :=
  if n = 0 then (dst, m)
  else if src < dst ∧ src + n.toUInt64 > dst then
    (dst, copyDown m (dst + n.toUInt64) (src + n.toUInt64) n.toNat)
  else (dst, copyUp m dst src n.toNat)

/-- It goes down only when the source begins below the destination and reaches into it. -/
theorem memmove_eq {m : Mem} {dst src : UInt64} {n : UInt32} (hdst : dst.toNat + n.toNat ≤ 2 ^ 64)
    (hsrc : src.toNat + n.toNat ≤ 2 ^ 64) :
    memmove m dst src n = (dst, Memory.memmove m dst.toNat src.toNat n.toNat) := by
  have hn : n.toUInt64 = UInt64.ofNat n.toNat := UInt64.toNat_inj.mp (by simp)
  by_cases hzero : n = 0
  · subst hzero
    rw [memmove, if_pos rfl, UInt32.toNat_zero, memmove_zero]
  rw [memmove, if_neg hzero]
  by_cases hlt : src < dst
  · have hlt' : src.toNat < dst.toNat := UInt64.lt_iff_toNat_lt.mp hlt
    have hend : (src + n.toUInt64).toNat = src.toNat + n.toNat := by
      rw [hn]
      exact toNat_add_ofNat (by omega)
    by_cases hin : src + n.toUInt64 > dst
    · rw [if_pos ⟨hlt, hin⟩, hn, copyDown_eq hdst hsrc (.inl hlt'.le)]
    · have hout : src.toNat + n.toNat ≤ dst.toNat := by
        rw [← hend]
        exact Nat.not_lt.mp fun h => hin (UInt64.lt_iff_toNat_lt.mpr h)
      rw [if_neg fun h => hin h.2, copyUp_eq hdst hsrc (.inr hout)]
  · have hle : dst.toNat ≤ src.toNat := Nat.not_lt.mp fun h => hlt (UInt64.lt_iff_toNat_lt.mpr h)
    rw [if_neg fun h => hlt h.1, copyUp_eq hdst hsrc (.inl hle)]

end LabSO.Kernel

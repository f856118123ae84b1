import LabSO.Kernel.Memmove

/-! `memmove` of the user library's `ulib.c`, and that it does what the kernel's does. -/

namespace LabSO.User
open Memory

/-- What `memmove` returns, and the memory it leaves. For a negative `n` neither loop runs. -/
def memmove (m : Mem) (vdst vsrc : UInt64) (n : Int32) : UInt64 × Mem :=
  if vsrc > vdst then (vdst, copyUp m vdst vsrc n.toInt.toNat)
  else (vdst, copyDown m (vdst + UInt64.ofInt n.toInt) (vsrc + UInt64.ofInt n.toInt) n.toInt.toNat)

variable {m : Mem} {dst src : UInt64} {n : Nat}

/-- It goes up only when the source begins above the destination. -/
theorem memmove_eq {k : Int32} (hk : k.toInt = n) (hdst : dst.toNat + n ≤ 2 ^ 64) (hsrc : src.toNat + n ≤ 2 ^ 64) :
    memmove m dst src k = (dst, Memory.memmove m dst.toNat src.toNat n) := by
  have hn : UInt64.ofInt n = UInt64.ofNat n := by
    apply UInt64.toNat_inj.mp
    rw [UInt64.ofInt, UInt64.toNat_ofNat', UInt64.toNat_ofNat']
    omega
  rw [memmove, hk, Int.toNat_natCast, hn]
  by_cases hlt : src > dst
  · have hle : dst.toNat ≤ src.toNat := (UInt64.lt_iff_toNat_lt.mp hlt).le
    rw [if_pos hlt, copyUp_eq hdst hsrc (.inl hle)]
  · have hle : src.toNat ≤ dst.toNat := Nat.not_lt.mp fun h => hlt (UInt64.lt_iff_toNat_lt.mpr h)
    rw [if_neg hlt, copyDown_eq hdst hsrc (.inl hle)]

/-- Both leave in the destination what the source held, change nothing else, and so agree, however the ranges overlap. -/
theorem memmove_copies (hdst : dst.toNat + n ≤ 2 ^ 64) (hsrc : src.toNat + n ≤ 2 ^ 64) :
    (∀ k : UInt32, k.toNat = n →
      (Kernel.memmove m dst src k).1 = dst ∧ Copied m dst.toNat src.toNat n (Kernel.memmove m dst src k).2) ∧
    (∀ k : Int32, k.toInt = n →
      (memmove m dst src k).1 = dst ∧ Copied m dst.toNat src.toNat n (memmove m dst src k).2) ∧
    ∀ (k : UInt32) (k' : Int32), k.toNat = n → k'.toInt = n → Kernel.memmove m dst src k = memmove m dst src k' := by
  have hkernel : ∀ k : UInt32, k.toNat = n →
      Kernel.memmove m dst src k = (dst, Memory.memmove m dst.toNat src.toNat n) := by
    rintro k rfl
    exact Kernel.memmove_eq hdst hsrc
  have huser : ∀ k : Int32, k.toInt = n →
      memmove m dst src k = (dst, Memory.memmove m dst.toNat src.toNat n) :=
    fun k hk => memmove_eq hk hdst hsrc
  refine ⟨fun k hk => ?_, fun k hk => ?_, fun k k' hk hk' => ?_⟩
  · rw [hkernel k hk]
    exact ⟨rfl, copied_memmove⟩
  · rw [huser k hk]
    exact ⟨rfl, copied_memmove⟩
  · rw [hkernel k hk, huser k' hk']

/-- Four bytes one place up, over three of themselves. -/
theorem memmove_overlapping :
    (Kernel.memmove (fun a => UInt8.ofNat a) 11 10 4).2 13 = 12 ∧ (memmove (fun a => UInt8.ofNat a) 11 10 4).2 13 = 12 := by
  have h := @memmove_copies (fun a => UInt8.ofNat a) 11 10 4 (by decide) (by decide)
  exact ⟨(h.1 4 rfl).2.dest 2 (by decide), (h.2.1 4 rfl).2.dest 2 (by decide)⟩

end LabSO.User

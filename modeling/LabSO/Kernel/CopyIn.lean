import Mathlib.Data.Vector.Basic
import Mathlib.Tactic.Common

/-! Reading the memory of the process that made a system call: `copyin`, `copyinstr` and `argstr`. -/

namespace LabSO.Kernel

/-- Bytes per page. -/
def PGSIZE : Nat := 4096

/-- The user memory of a process: what `walkaddr` finds for a virtual page, if it is mapped. -/
structure UserMem where
  walkaddr : UInt64 → Option (Vector UInt8 PGSIZE)

/-- `va - PGROUNDDOWN(va)`. -/
def pageOffset (va : UInt64) : Nat := va.toNat % PGSIZE

/-- `PGROUNDDOWN(va)`. -/
def pageRoundDown (va : UInt64) : UInt64 := va - UInt64.ofNat (pageOffset va)

theorem pageOffset_lt (va : UInt64) : pageOffset va < PGSIZE := Nat.mod_lt _ (by decide)

/-- The `n` bytes of a page from `off` on. -/
def pageBytes (page : Vector UInt8 PGSIZE) (off n : Nat) : List UInt8 := (page.toList.drop off).take n

/-- Copy `len` bytes from user to kernel: the bytes that arrive, and whether these are all. -/
def UserMem.copyin (mem : UserMem) (srcva : UInt64) (len : Nat) : List UInt8 × Bool :=
  if len = 0 then ([], true)
  else
    match mem.walkaddr (pageRoundDown srcva) with
    | none => ([], false)
    | some page =>
      let n := min (PGSIZE - pageOffset srcva) len
      let (bytes, all) := mem.copyin (pageRoundDown srcva + UInt64.ofNat PGSIZE) (len - n)
      (pageBytes page (pageOffset srcva) n ++ bytes, all)
termination_by len
decreasing_by
  have := pageOffset_lt srcva
  omega

/-- The byte at an address, if its page is mapped. -/
def UserMem.byte? (mem : UserMem) (va : UInt64) : Option UInt8 :=
  (mem.walkaddr (pageRoundDown va)).map fun page => page.get ⟨pageOffset va, pageOffset_lt va⟩

/-- The first `n` bytes from an address on, up to the first page that is not mapped. -/
def UserMem.readable (mem : UserMem) (va : UInt64) : Nat → List UInt8
  | 0 => []
  | n + 1 =>
    match mem.byte? va with
    | none => []
    | some b => b :: mem.readable (va + 1) n

section
variable {mem : UserMem} {va : UInt64} {page : Vector UInt8 PGSIZE} {k n : Nat}

theorem pageOffset_succ (h : pageOffset va + 1 < PGSIZE) : pageOffset (va + 1) = pageOffset va + 1 := by
  unfold pageOffset PGSIZE at *
  rw [UInt64.toNat_add]
  have hone : (1 : UInt64).toNat = 1 := rfl
  omega

theorem toNat_pageRoundDown (va : UInt64) : (pageRoundDown va).toNat = va.toNat - pageOffset va := by
  have hle : pageOffset va ≤ va.toNat := Nat.mod_le ..
  have hoff : (UInt64.ofNat (pageOffset va)).toNat = pageOffset va :=
    UInt64.toNat_ofNat_of_lt' (hle.trans_lt va.toNat_lt)
  rw [pageRoundDown, UInt64.toNat_sub_of_le _ _ (UInt64.le_iff_toNat_le.mpr (hoff.trans_le hle)), hoff]

theorem pageRoundDown_succ (h : pageOffset va + 1 < PGSIZE) : pageRoundDown (va + 1) = pageRoundDown va := by
  rw [← UInt64.toNat_inj, toNat_pageRoundDown, toNat_pageRoundDown, pageOffset_succ h]
  have hva := va.toNat_lt
  unfold pageOffset PGSIZE at *
  rw [UInt64.toNat_add]
  have hone : (1 : UInt64).toNat = 1 := rfl
  omega

/-- The first address of the next page. -/
theorem pageRoundDown_add (va : UInt64) :
    pageRoundDown va + UInt64.ofNat PGSIZE = va + UInt64.ofNat (PGSIZE - pageOffset va) := by
  rw [← UInt64.toNat_inj, UInt64.toNat_add, UInt64.toNat_add, toNat_pageRoundDown, UInt64.toNat_ofNat', UInt64.toNat_ofNat']
  unfold pageOffset PGSIZE
  omega

theorem pageBytes_succ (h : pageOffset va < PGSIZE) :
    pageBytes page (pageOffset va) (k + 1) = page.get ⟨pageOffset va, h⟩ :: pageBytes page (pageOffset va + 1) k := by
  rw [pageBytes, List.drop_eq_getElem_cons (by simpa using h), List.take_succ_cons, pageBytes]
  simp [Vector.get]

/-- What is readable within a page. -/
theorem UserMem.readable_page (hpage : mem.walkaddr (pageRoundDown va) = some page) (hk : pageOffset va + k ≤ PGSIZE) :
    mem.readable va (k + n) = pageBytes page (pageOffset va) k ++ mem.readable (va + UInt64.ofNat k) n := by
  induction k generalizing va with
  | zero => simp [pageBytes]
  | succ k ih =>
    have hbyte : mem.byte? va = some (page.get ⟨pageOffset va, pageOffset_lt va⟩) := by rw [byte?, hpage]; rfl
    rw [Nat.add_right_comm, readable, hbyte, pageBytes_succ (pageOffset_lt va)]
    have hnext : va + 1 + UInt64.ofNat k = va + UInt64.ofNat (k + 1) := by
      rw [← UInt64.toNat_inj]
      simp only [UInt64.toNat_add, UInt64.toNat_ofNat']
      have hone : (1 : UInt64).toNat = 1 := rfl
      omega
    cases k with
    | zero => simp [pageBytes]
    | succ k =>
      have hlt : pageOffset va + 1 < PGSIZE := by omega
      have hrest := @ih (va + 1) (by rwa [pageRoundDown_succ hlt]) (by rw [pageOffset_succ hlt]; omega)
      rw [pageOffset_succ hlt, hnext] at hrest
      rw [hrest]
      rfl

theorem UserMem.length_readable_le (mem : UserMem) (va : UInt64) (n : Nat) : (mem.readable va n).length ≤ n := by
  induction n generalizing va with
  | zero => rfl
  | succ n ih =>
    rw [readable]
    split
    · exact Nat.zero_le _
    · exact Nat.succ_le_succ (ih _)

/-- The bytes that arrive are those that are readable. -/
theorem UserMem.copyin_eq (mem : UserMem) (va : UInt64) (len : Nat) :
    mem.copyin va len = (mem.readable va len, decide ((mem.readable va len).length = len)) := by
  induction len using Nat.strongRecOn generalizing va with
  | ind len ih =>
    rw [copyin]
    split
    · next h0 => simp [h0, readable]
    · next h0 =>
      obtain ⟨len, rfl⟩ := Nat.exists_eq_succ_of_ne_zero h0
      split
      · next hnone =>
        have hbyte : mem.byte? va = none := by rw [byte?, hnone]; rfl
        simp [readable, hbyte]
      · next page hpage =>
        have hlt := pageOffset_lt va
        dsimp only
        generalize hm : min (PGSIZE - pageOffset va) (len + 1) = m
        have hsplit := readable_page (k := m) (n := len + 1 - m) hpage (by omega)
        have hlen : (pageBytes page (pageOffset va) m).length = m := by
          rw [pageBytes, List.length_take, List.length_drop, Vector.length_toList]
          omega
        have hnext : mem.readable (va + UInt64.ofNat m) (len + 1 - m) =
            mem.readable (pageRoundDown va + UInt64.ofNat PGSIZE) (len + 1 - m) := by
          by_cases hend : m = PGSIZE - pageOffset va
          · rw [hend, pageRoundDown_add]
          · have hzero : len + 1 - m = 0 := by omega
            simp only [hzero, readable]
        rw [Nat.add_sub_cancel' (by omega), hnext] at hsplit
        rw [ih (len + 1 - m) (by omega), hsplit]
        refine Prod.ext rfl (decide_eq_decide.mpr ?_)
        rw [List.length_append, hlen]
        omega

end

/-- Copy a null-terminated string of less than `max` bytes from user to kernel. -/
def UserMem.copyinstr (mem : UserMem) (srcva : UInt64) (max : Nat) : Option (List UInt8) :=
  if max = 0 then none
  else
    match mem.walkaddr (pageRoundDown srcva) with
    | none => none
    | some page =>
      let n := min (PGSIZE - pageOffset srcva) max
      let bytes := pageBytes page (pageOffset srcva) n
      if 0 ∈ bytes then some (bytes.takeWhile (· ≠ 0))
      else (mem.copyinstr (pageRoundDown srcva + UInt64.ofNat PGSIZE) (max - n)).map (bytes ++ ·)
termination_by max
decreasing_by
  have := pageOffset_lt srcva
  omega

/-- Maximum file path name. -/
def MAXPATH : Nat := 128

/-- `argstr(n, path, MAXPATH)`, for an argument `addr`. -/
def UserMem.argstr (mem : UserMem) (addr : UInt64) : Option (List UInt8) := mem.copyinstr addr MAXPATH

end LabSO.Kernel

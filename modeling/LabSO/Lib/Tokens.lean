import Mathlib.Algebra.BigOperators.Fin
import Mathlib.Algebra.BigOperators.Group.Finset.Piecewise
import Mathlib.Data.Finset.Card
import Mathlib.Data.Fintype.Basic
import Mathlib.Data.Multiset.Filter
import Mathlib.Logic.Function.Basic

/-! References that the slots of a table hold: each slot holds at most one, and several may hold the same. -/

namespace LabSO.Tokens

variable {ι κ : Type*} [Fintype ι] {f g : ι → Option κ} {a : ι} {k : κ}

/-- What the slots hold. -/
def gather (f : ι → Option κ) : Multiset κ := Finset.univ.val.filterMap f

theorem mem_gather : k ∈ gather f ↔ ∃ a, f a = some k := by
  simp [gather]

omit [Fintype ι] in
theorem filterMap_congr {m : Multiset ι} (h : ∀ a ∈ m, f a = g a) : m.filterMap f = m.filterMap g := by
  induction m using Quotient.inductionOn with
  | h l => exact congrArg _ (List.filterMap_congr h)

/-- How many slots hold a reference. -/
theorem count_gather [DecidableEq κ] (f : ι → Option κ) (k : κ) :
    (gather f).count k = (Finset.univ.filter fun a => f a = some k).card := by
  have hcount : ∀ m : Multiset ι, (m.filterMap f).count k = m.countP fun a => f a = some k := by
    intro m
    induction m using Multiset.induction with
    | empty => rfl
    | cons a m ih =>
      cases ha : f a with
      | none => rw [Multiset.filterMap_cons_none _ _ ha, ih, Multiset.countP_cons_of_neg _ (by rw [ha]; nofun)]
      | some k' =>
        rw [Multiset.filterMap_cons_some _ _ _ ha, Multiset.count_cons, ih, Multiset.countP_cons, ha]
        simp only [Option.some.injEq, eq_comm]
  rw [gather, hcount, Multiset.countP_eq_card_filter]
  rfl

variable [DecidableEq ι]

theorem univ_eq_cons (a : ι) : (Finset.univ : Finset ι).val = a ::ₘ (Finset.univ.erase a).val := by
  rw [← Finset.insert_val_of_notMem (Finset.notMem_erase a _), Finset.insert_erase (Finset.mem_univ a)]

/-- What a slot holds. -/
def token (o : Option κ) : Multiset κ := o.elim 0 fun k => {k}

@[simp] theorem token_none : token (none : Option κ) = 0 := rfl
@[simp] theorem token_some (k : κ) : token (some k) = {k} := rfl

theorem gather_eq (f : ι → Option κ) (a : ι) : gather f = token (f a) + gather (Function.update f a none) := by
  have hrest : (Finset.univ.erase a).val.filterMap (Function.update f a none) =
      (Finset.univ.erase a).val.filterMap f :=
    filterMap_congr fun _ hb => Function.update_of_ne (Finset.ne_of_mem_erase hb) ..
  have hnone : gather (Function.update f a none) = (Finset.univ.erase a).val.filterMap f := by
    rw [gather, univ_eq_cons a, Multiset.filterMap_cons_none _ _ (Function.update_self ..), hrest]
  rw [hnone, gather, univ_eq_cons a]
  cases h : f a with
  | none => rw [Multiset.filterMap_cons_none _ _ h, token_none, Multiset.zero_add]
  | some k => rw [Multiset.filterMap_cons_some _ _ _ h, token_some, Multiset.singleton_add]

theorem gather_update (f : ι → Option κ) (a : ι) (o : Option κ) :
    gather (Function.update f a o) = token o + gather (Function.update f a none) := by
  rw [gather_eq (Function.update f a o) a, Function.update_self, Function.update_idem]

omit [Fintype ι] [DecidableEq ι] in
theorem filterMap_eq_sum (f : ι → Option κ) (m : Multiset ι) : m.filterMap f = (m.map fun a => token (f a)).sum := by
  induction m using Multiset.induction with
  | empty => rfl
  | cons a m ih =>
    rw [Multiset.map_cons, Multiset.sum_cons, ← ih]
    cases h : f a with
    | none => rw [Multiset.filterMap_cons_none _ _ h, token_none, Multiset.zero_add]
    | some k => rw [Multiset.filterMap_cons_some _ _ _ h, token_some, Multiset.singleton_add]

/-- What the slots hold, slot by slot. -/
theorem gather_finRange {n : Nat} (f : Fin n → Option κ) :
    gather f = ((List.finRange n).map fun a => token (f a)).sum := by
  rw [gather, filterMap_eq_sum, ← Fin.sum_univ_def]
  rfl

/-- One summand changes. -/
theorem sum_update {M : Type*} [AddCommMonoid M] (f : ι → M) (a : ι) (x : M) :
    ∑ b, Function.update f a x b + f a = ∑ b, f b + x := by
  have ha := Finset.mem_univ a
  rw [Finset.sum_update_of_mem ha, ← Finset.add_sum_erase _ f ha, Finset.sdiff_singleton_eq_erase, add_comm x,
    add_comm (f a), add_right_comm]

end LabSO.Tokens

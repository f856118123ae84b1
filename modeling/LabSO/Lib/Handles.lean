import LabSO.Lib.Program
import Mathlib.Data.Finset.Filter
import Mathlib.Data.Finset.Erase
import Mathlib.Data.Finset.Insert
import Mathlib.Data.Multiset.AddSub

/-! Ownership on a heap that is seen as the set of its live handles: what a program owns is what it created since some
    moment and has not freed. -/

namespace LabSO.Handles

open Program

/-- The handles that are live, all below the one that comes next. -/
structure Heap where
  live : Finset Nat
  next : Nat
  fresh : ∀ h ∈ live, h < next

def Heap.empty : Heap where
  live := ∅
  next := 0
  fresh := by simp

variable {ε : Type}

def Heap.alloc (s : Heap) : Heap where
  live := insert s.next s.live
  next := s.next + 1
  fresh := by
    intro h hh
    rcases Finset.mem_insert.mp hh with rfl | hh
    · exact Nat.lt_succ_self _
    · exact Nat.lt_succ_of_lt (s.fresh h hh)

def Heap.release (s : Heap) (h : Nat) : Heap where
  live := s.live.erase h
  next := s.next
  fresh k hk := s.fresh k (Finset.mem_of_mem_erase hk)

/-- `malloc`, which does not fail. -/
def malloc : Prog Heap ε Nat := liftState fun s => (s.next, s.alloc)

/-- `free` of a handle; freeing one that is not live is the fault `bad`. -/
def free (bad : ε) (h : Nat) : Prog Heap ε Unit := fun s =>
  if h ∈ s.live then (.ok (), s.release h) else (.error bad, s)

/-- `free` of a pointer that may be NULL. -/
def freeOption (bad : ε) : Option Nat → Prog Heap ε Unit
  | some h => free bad h
  | none => pure ()

/-- The handles created between `s` and `t` that are still live. -/
def created (s t : Heap) : Multiset Nat := (t.live.filter (s.next ≤ ·)).val

/-- Since `s₀`, the handles `mine` were created and not freed, and no older one was freed. -/
structure Owns (s₀ : Heap) (mine : Multiset Nat) (s : Heap) : Prop where
  live : s.live.val = s₀.live.val + mine
  created : ∀ h ∈ mine, s₀.next ≤ h
  next : s₀.next ≤ s.next

section
variable {s₀ s : Heap} {mine rest : Multiset Nat} {h : Nat} {bad : ε} {ok : ε → Prop}

theorem Owns.refl (s : Heap) : Owns s 0 s := ⟨(Multiset.add_zero _).symm, nofun, Nat.le_refl _⟩

theorem Owns.created_eq (hs : Owns s₀ mine s) : Handles.created s₀ s = mine := by
  rw [Handles.created, Finset.filter_val, hs.live, Multiset.filter_add]
  have hold : s₀.live.val.filter (s₀.next ≤ ·) = 0 := by
    rw [Multiset.filter_eq_nil]
    intro k hk
    exact Nat.not_le.mpr (s₀.fresh k hk)
  rw [hold, Multiset.zero_add, Multiset.filter_eq_self]
  exact hs.created

/-- Nothing is owned twice. -/
theorem Owns.nodup (hs : Owns s₀ mine s) : mine.Nodup := by
  have hnodup := s.live.nodup
  rw [hs.live] at hnodup
  exact (Multiset.nodup_add.mp hnodup).2.1

theorem malloc_wp (hs : Owns s₀ mine s) : Wp ok (malloc : Prog Heap ε Nat) (fun h t => Owns s₀ (h ::ₘ mine) t) s := by
  refine Wp.liftState ⟨?_, fun k hk => ?_, Nat.le_succ_of_le hs.next⟩
  · have hnew : s.next ∉ s.live := fun hmem => Nat.lt_irrefl _ (s.fresh _ hmem)
    rw [Heap.alloc, Finset.insert_val_of_notMem hnew, hs.live, Multiset.add_cons]
  · rcases Multiset.mem_cons.mp hk with rfl | hk
    · exact hs.next
    · exact hs.created k hk

theorem free_wp (hs : Owns s₀ (h ::ₘ mine) s) : Wp ok (free bad h) (fun _ t => Owns s₀ mine t) s := by
  have hmem : h ∈ s.live := by
    rw [← Finset.mem_val, hs.live]
    simp
  have hreturns : Returns (free bad h) s () (s.release h) := if_pos hmem
  refine Wp.of_returns hreturns ⟨?_, fun k hk => hs.created k (Multiset.mem_cons_of_mem hk), hs.next⟩
  rw [Heap.release, Finset.erase_val, hs.live, Multiset.add_cons, Multiset.erase_cons_head]

theorem freeOption_wp {o : Option Nat} (hs : Owns s₀ (Multiset.ofList o.toList + mine) s) :
    Wp ok (freeOption bad o) (fun _ t => Owns s₀ mine t) s := by
  cases o with
  | none => exact Wp.pure (by simpa using hs)
  | some h => exact free_wp (by simpa using hs)

theorem forEach_free_wp {l : List Nat} (hs : Owns s₀ (Multiset.ofList l + mine) s) :
    Wp ok (forEach (free bad) l) (fun _ t => Owns s₀ mine t) s := by
  have hall : Wp ok (forEach (free bad) l) (fun _ => Owns s₀ (Multiset.ofList [] + mine)) s :=
    Wp.forEach (I := fun l => Owns s₀ (Multiset.ofList l + mine)) hs
      fun h l t ht => free_wp (by rwa [← Multiset.cons_coe, Multiset.cons_add] at ht)
  exact hall.mono fun _ t ht => by simpa using ht

end

end LabSO.Handles

import Mathlib.Data.List.Chain
import Mathlib.Data.List.Nodup
import Mathlib.Logic.Function.Iterate
import Mathlib.Tactic.Common

/-! Following pointers: searches along them, and circular singly linked lists. -/

namespace LabSO.Chase

variable {N : Type*} {next next' : N → N} {stop : N → Bool} {a b c p x y : N} {l m : List N} {fuel k : Nat}

/-! ### Searches -/

/-- Follow the pointers from `x` up to the first node with `stop`, with a number of tests at most. -/
def seek (next : N → N) (stop : N → Bool) : Nat → N → Option N
  | 0, _ => none
  | fuel + 1, x => if stop x then some x else seek next stop fuel (next x)

theorem seek_some (h : seek next stop fuel x = some y) :
    stop y = true ∧ ∃ k, next^[k] x = y ∧ ∀ j < k, stop (next^[j] x) = false := by
  induction fuel generalizing x with
  | zero => cases h
  | succ fuel ih =>
    rw [seek] at h
    split at h
    · cases h
      exact ⟨‹_›, 0, rfl, fun j hj => absurd hj (Nat.not_lt_zero j)⟩
    · next hx =>
      obtain ⟨hy, k, hk, hbefore⟩ := ih h
      refine ⟨hy, k + 1, hk, fun j hj => ?_⟩
      cases j with
      | zero => exact Bool.eq_false_iff.mpr hx
      | succ j => exact hbefore j (Nat.lt_of_succ_lt_succ hj)

/-- More tests than a search needs make no difference. -/
theorem seek_mono {n : Nat} (h : seek next stop fuel x = some y) (hle : fuel ≤ n) : seek next stop n x = some y := by
  induction fuel generalizing x n with
  | zero => cases h
  | succ fuel ih =>
    obtain ⟨n, rfl⟩ : ∃ m, n = m + 1 := ⟨n - 1, by omega⟩
    rw [seek] at h ⊢
    split at h
    · next hx =>
      rw [if_pos hx]
      exact h
    · next hx =>
      rw [if_neg hx]
      exact ih h (Nat.le_of_succ_le_succ hle)

/-- A search ends when some node on the way is one to stop at. -/
theorem seek_of_iterate (h : stop (next^[k] x) = true) (hfuel : k < fuel) : ∃ y, seek next stop fuel x = some y := by
  induction fuel generalizing k x with
  | zero => exact absurd hfuel (Nat.not_lt_zero k)
  | succ fuel ih =>
    rw [seek]
    split
    · exact ⟨x, rfl⟩
    · next hx =>
      cases k with
      | zero => exact absurd h hx
      | succ k => exact ih h (Nat.lt_of_succ_lt_succ hfuel)

/-- A search that has gone round, back to the node before its first, has seen all nodes there. -/
theorem seek_round [DecidableEq N] {good : N → Bool} (h : seek next (fun x => good x || x == a) fuel (next a) = some x)
    (hy : good (next^[k] a) = true) : good x = true := by
  obtain ⟨hx, n, hn, hbefore⟩ := seek_some h
  by_contra hbad
  rw [Bool.not_eq_true] at hbad
  obtain rfl : x = a := by simpa [hbad] using hx
  have hround : ∀ i, good (next^[i] x) = false ∧ ∃ j ≤ n, next^[i] (next x) = next^[j] (next x) := by
    intro i
    induction i with
    | zero => exact ⟨hbad, 0, Nat.zero_le n, rfl⟩
    | succ i ih =>
      obtain ⟨-, j, hj, hij⟩ := ih
      rw [Function.iterate_succ_apply, hij]
      rcases Nat.lt_or_eq_of_le hj with hlt | rfl
      · refine ⟨(Bool.or_eq_false_iff.mp (hbefore j hlt)).1, j + 1, hlt, ?_⟩
        rw [Function.iterate_succ_apply', hij, Function.iterate_succ_apply']
      · rw [Function.iterate_succ_apply', hij, hn]
        exact ⟨hbad, 0, Nat.zero_le j, rfl⟩
  exact Bool.false_ne_true ((hround k).1.symm.trans hy)

/-! ### Circular lists -/

/-- From the root `a` the pointers go through `l`, no node of which comes twice, and back to `a`. -/
structure Ring (next : N → N) (a : N) (l : List N) : Prop where
  nodup : (a :: l).Nodup
  linked : (a :: (l ++ [a])).IsChain fun x y => next x = y

theorem Ring.empty (h : next a = a) : Ring next a [] := ⟨List.nodup_singleton a, List.isChain_pair.mpr h⟩

/-- From the first node of a chain the pointers lead to each of the others. -/
theorem iterate_of_chain (h : (x :: l).IsChain fun x y => next x = y) (hy : y ∈ l) : ∃ k, next^[k] x = y := by
  induction l generalizing x with
  | nil => cases hy
  | cons c l ih =>
    obtain ⟨hxc, hc⟩ := List.isChain_cons_cons.mp h
    rcases List.mem_cons.mp hy with rfl | hy
    · exact ⟨1, hxc⟩
    · obtain ⟨k, hk⟩ := ih hc hy
      exact ⟨k + 1, by rw [Function.iterate_succ_apply, hxc, hk]⟩

/-- From each node of a circular list the pointers lead to all of them. -/
theorem Ring.reach (h : Ring next a l) (hx : x ∈ a :: l) (hy : y ∈ a :: l) : ∃ k, next^[k] x = y := by
  have hroot : ∃ k, next^[k] x = a := by
    obtain ⟨m₁, m₂, hm⟩ := List.append_of_mem hx
    have hlinked := h.linked
    rw [← List.cons_append, hm, List.append_assoc, List.cons_append, List.isChain_split] at hlinked
    exact iterate_of_chain hlinked.2 (by simp)
  obtain ⟨k, hk⟩ := hroot
  rcases List.mem_cons.mp hy with rfl | hy
  · exact ⟨k, hk⟩
  · obtain ⟨j, hj⟩ := iterate_of_chain h.linked (List.mem_append_left _ hy)
    exact ⟨j + k, by rw [Function.iterate_add_apply, hk, hj]⟩

theorem Ring.next_mem (h : Ring next a l) (hx : x ∈ a :: l) : next x ∈ a :: l := by
  obtain ⟨m₁, m₂, hm⟩ := List.append_of_mem hx
  have hlinked := h.linked
  rw [← List.cons_append, hm, List.append_assoc, List.cons_append, List.isChain_split] at hlinked
  cases m₂ with
  | nil =>
    obtain rfl : next x = a := (List.isChain_cons_cons.mp hlinked.2).1
    exact List.mem_cons_self
  | cons c m₂ =>
    obtain rfl : next x = c := (List.isChain_cons_cons.mp hlinked.2).1
    rw [hm]
    simp

theorem Ring.iterate_mem (h : Ring next a l) (hx : x ∈ a :: l) (k : Nat) : next^[k] x ∈ a :: l := by
  induction k generalizing x with
  | zero => exact hx
  | succ k ih => exact ih (h.next_mem hx)

/-- The node before the rest `m` of the list. -/
theorem Ring.next_last (h : Ring next a (l ++ m)) (hp : (a :: l).getLast? = some p) : next p = (m ++ [a]).head (by simp) := by
  obtain ⟨l', hl'⟩ := List.getLast?_eq_some_iff.mp hp
  have hlinked := h.linked
  rw [List.append_assoc, ← List.cons_append, hl', List.append_assoc, List.singleton_append, List.isChain_split] at hlinked
  cases m with
  | nil => exact (List.isChain_cons_cons.mp hlinked.2).1
  | cons c m => exact (List.isChain_cons_cons.mp hlinked.2).1

/-- The last node of a chain has no link in it. -/
theorem chain_congr (h : (l ++ [c]).IsChain fun x y => next x = y) (hsame : ∀ x ∈ l, next' x = next x) :
    (l ++ [c]).IsChain fun x y => next' x = y := by
  induction l with
  | nil => exact List.isChain_singleton c
  | cons x l ih =>
    obtain ⟨hx, hrest⟩ := List.isChain_cons.mp h
    refine List.isChain_cons.mpr ⟨fun y hy => ?_, ih hrest fun z hz => hsame z (List.mem_cons_of_mem _ hz)⟩
    rw [hsame x List.mem_cons_self]
    exact hx y hy

/-- The rest `m` of the list is replaced by another. -/
theorem Ring.splice {m' : List N} (h : Ring next a (l ++ m)) (hp : (a :: l).getLast? = some p) (hnodup : (a :: (l ++ m')).Nodup)
    (hsame : ∀ x ∈ a :: l, x ≠ p → next' x = next x) (hrest : (p :: (m' ++ [a])).IsChain fun x y => next' x = y) :
    Ring next' a (l ++ m') := by
  obtain ⟨l', hl'⟩ := List.getLast?_eq_some_iff.mp hp
  have hlinked := h.linked
  refine ⟨hnodup, ?_⟩
  rw [List.append_assoc, ← List.cons_append, hl', List.append_assoc, List.singleton_append, List.isChain_split] at hlinked ⊢
  refine ⟨?_, hrest⟩
  have hl : (a :: l).Nodup := by
    have hall : (a :: l ++ m).Nodup := h.nodup
    exact (List.nodup_append.mp hall).1
  rw [hl'] at hl
  have hpl : p ∉ l' := fun hmem => (List.nodup_append.mp hl).2.2 p hmem p (List.mem_singleton_self p) rfl
  exact chain_congr hlinked.1 fun x hx => hsame x (hl' ▸ List.mem_append_left _ hx) (ne_of_mem_of_not_mem hx hpl)

end LabSO.Chase

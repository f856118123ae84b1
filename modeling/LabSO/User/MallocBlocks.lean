import LabSO.User.Malloc
import Mathlib.Data.List.Flatten

/-! The blocks of the allocator: their units, and the free list with the blocks on it. -/

namespace LabSO.Malloc
open Chase

variable {a b c f g r : Block} {bs cs fs gs L R : List Block} {base p bp x : Nat} {h : Heap}

/-! ### Units -/

theorem mem_units : x ∈ a.units ↔ ∃ i < a.size, x = a.start + unit * i := List.mem_range'

/-- A block in two. -/
theorem units_split (start m n : Nat) : Block.units ⟨start, m + n⟩ = Block.units ⟨start, m⟩ ++ Block.units ⟨start + unit * m, n⟩ :=
  (List.range'_append ..).symm

@[simp] theorem length_units (a : Block) : a.units.length = a.size := List.length_range'

/-- All units of some blocks. -/
def allUnits (bs : List Block) : List Nat := bs.flatMap Block.units

/-- A block that `sbrk` can have returned a part of: it has a header, and lies above the root. -/
structure Block.Ok (base : Nat) (a : Block) : Prop where
  pos : 0 < a.size
  aligned : a.start % unit = 0
  above : base + unit ≤ a.start

theorem start_mem_units (h : a.Ok base) : a.start ∈ a.units := mem_units.mpr ⟨0, h.pos, rfl⟩

/-- Blocks without common units lie one after the other. -/
theorem apart_of_disjoint (ha : a.Ok base) (hb : b.Ok base) (h : a.units.Disjoint b.units) :
    a.stop ≤ b.start ∨ b.stop ≤ a.start := by
  have hpa := ha.pos
  have hpb := hb.pos
  have haa := ha.aligned
  have hab := hb.aligned
  simp only [Block.stop, unit] at *
  by_contra hcon
  obtain ⟨h1, h2⟩ := not_or.mp hcon
  rcases Nat.le_total a.start b.start with hle | hle
  · have hmem : b.start ∈ a.units := by
      refine mem_units.mpr ⟨(b.start - a.start) / 16, by omega, ?_⟩
      simp only [unit]
      omega
    exact h hmem (start_mem_units hb)
  · have hmem : a.start ∈ b.units := by
      refine mem_units.mpr ⟨(a.start - b.start) / 16, by omega, ?_⟩
      simp only [unit]
      omega
    exact h (start_mem_units ha) hmem

/-! ### The free list -/

def starts (bs : List Block) : List Nat := bs.map Block.start

@[simp] theorem starts_nil : starts [] = [] := rfl
@[simp] theorem starts_cons (a : Block) (bs : List Block) : starts (a :: bs) = a.start :: starts bs := rfl
@[simp] theorem starts_append (bs cs : List Block) : starts (bs ++ cs) = starts bs ++ starts cs := List.map_append ..

/-- The blocks `fs` are those of the free list, in the order of their addresses, and `bs` the others; together they are all
    that `sbrk` has returned. -/
structure Rep (base : Nat) (h : Heap) (fs bs : List Block) : Prop where
  pos : 0 < base
  root : h.size base = 0
  ring : Ring h.next base (starts fs)
  sizes : ∀ a ∈ fs ++ bs, (h.size a.start).toNat = a.size
  ok : ∀ a ∈ fs ++ bs, a.Ok base
  sorted : fs.Pairwise fun f g => f.stop < g.start
  freep : h.freep ∈ base :: starts fs
  units : (allUnits (fs ++ bs)).Perm (allUnits h.regions)
  nodup : (allUnits h.regions).Nodup

theorem allUnits_append (bs cs : List Block) : allUnits (bs ++ cs) = allUnits bs ++ allUnits cs := List.flatMap_append ..

theorem allUnits_cons (a : Block) (bs : List Block) : allUnits (a :: bs) = a.units ++ allUnits bs := List.flatMap_cons ..

theorem Block.Ok.start_lt_stop (h : a.Ok base) : a.start < a.stop := by
  have hpos := h.pos
  simp only [Block.stop, unit]
  omega

/-- Two blocks of different places in a list without common units. -/
theorem apart_of_nodup (h : (allUnits (bs ++ a :: cs)).Nodup) (ha : a.Ok base) (hb : b.Ok base) (hmem : b ∈ bs ++ cs) :
    a.stop ≤ b.start ∨ b.stop ≤ a.start := by
  refine apart_of_disjoint ha hb fun x hxa hxb => ?_
  rw [allUnits_append, allUnits_cons, ← List.append_assoc] at h
  rcases List.mem_append.mp hmem with hmem | hmem
  · have hnodup := (List.nodup_append.mp h).1
    exact (List.nodup_append.mp hnodup).2.2 x (List.mem_flatMap.mpr ⟨b, hmem, hxb⟩) x hxa rfl
  · exact (List.nodup_append.mp h).2.2 x (List.mem_append_right _ hxa) x (List.mem_flatMap.mpr ⟨b, hmem, hxb⟩) rfl

/-- A block that is apart from the blocks of a sorted list has a place among them. -/
theorem exists_split (hsorted : fs.Pairwise fun f g => f.stop < g.start) (hok : ∀ f ∈ fs, f.Ok base)
    (hapart : ∀ f ∈ fs, b.stop ≤ f.start ∨ f.stop ≤ b.start) :
    ∃ L R, fs = L ++ R ∧ (∀ f ∈ L, f.stop ≤ b.start) ∧ ∀ g ∈ R, b.stop ≤ g.start := by
  induction fs with
  | nil => exact ⟨[], [], rfl, nofun, nofun⟩
  | cons f fs ih =>
    obtain ⟨hf, hsorted⟩ := List.pairwise_cons.mp hsorted
    rcases hapart f List.mem_cons_self with hle | hle
    · refine ⟨[], f :: fs, rfl, nofun, fun g hg => ?_⟩
      rcases List.mem_cons.mp hg with rfl | hg
      · exact hle
      · have hlt := (hok f List.mem_cons_self).start_lt_stop
        have hfg := hf g hg
        omega
    · obtain ⟨L, R, rfl, hL, hR⟩ := ih hsorted (fun g hg => hok g (List.mem_cons_of_mem _ hg))
        fun g hg => hapart g (List.mem_cons_of_mem _ hg)
      refine ⟨f :: L, R, rfl, fun g hg => ?_, hR⟩
      rcases List.mem_cons.mp hg with rfl | hg
      · exact hle
      · exact hL g hg

/-- The pointer `p` is to the last block of `L`, or to the root if there is none. -/
def IsLast (base : Nat) (L : List Block) (p : Nat) : Prop := (base :: starts L).getLast? = some p

theorem isLast_nil : IsLast base [] p ↔ p = base := by
  rw [IsLast, starts_nil, List.getLast?_singleton, Option.some_inj, eq_comm]

theorem isLast_concat : IsLast base (L ++ [f]) p ↔ p = f.start := by
  rw [IsLast, starts_append, starts_cons, starts_nil, ← List.cons_append, List.getLast?_concat, Option.some_inj, eq_comm]

/-- Each node of the list is the last one before a rest of it. -/
theorem exists_isLast (hp : p ∈ base :: starts fs) : ∃ L R, fs = L ++ R ∧ IsLast base L p := by
  rcases List.mem_cons.mp hp with rfl | hp
  · exact ⟨[], fs, rfl, isLast_nil.mpr rfl⟩
  · obtain ⟨f, hf, rfl⟩ := List.mem_map.mp hp
    obtain ⟨L, R, rfl⟩ := List.append_of_mem hf
    exact ⟨L ++ [f], R, by rw [List.append_assoc, List.singleton_append], isLast_concat.mpr rfl⟩

/-- What comes after a place of the list: a block, or the root again. -/
def first (base : Nat) (R : List Block) : Nat := (R.head?.map Block.start).getD base

theorem head?_first (base : Nat) (R : List Block) : (starts R ++ [base]).head? = some (first base R) := by
  cases R <;> rfl

theorem Rep.next_isLast (hr : Rep base h (L ++ R) bs) (hp : IsLast base L p) : h.next p = first base R := by
  have hring := hr.ring
  rw [starts_append] at hring
  rw [hring.next_last hp]
  cases R <;> rfl

theorem Rep.isLast_lt (hr : Rep base h (L ++ R) bs) (hp : IsLast base L p) (hg : g ∈ R) : p < g.start := by
  rcases List.eq_nil_or_concat L with rfl | ⟨L, f, rfl⟩
  · obtain rfl := isLast_nil.mp hp
    have habove := (hr.ok g (by simp [hg])).above
    simp only [unit] at habove
    omega
  · rw [List.concat_eq_append] at hp hr
    obtain rfl := isLast_concat.mp hp
    have hlt := (List.pairwise_append.mp hr.sorted).2.2 f (by simp) g hg
    have hf := (hr.ok f (by simp)).start_lt_stop
    omega

/-- Blocks without common units have different headers. -/
theorem nodup_starts (h : (allUnits bs).Nodup) (hok : ∀ a ∈ bs, a.Ok base) : (starts bs).Nodup := by
  induction bs with
  | nil => exact List.nodup_nil
  | cons a bs ih =>
    obtain ⟨-, hbs, hdisj⟩ := List.nodup_append.mp h
    refine List.nodup_cons.mpr ⟨fun hmem => ?_, ih hbs fun b hb => hok b (List.mem_cons_of_mem _ hb)⟩
    obtain ⟨b, hb, heq⟩ := List.mem_map.mp hmem
    have ha := start_mem_units (hok a List.mem_cons_self)
    have hb' := start_mem_units (hok b (List.mem_cons_of_mem _ hb))
    exact hdisj _ ha _ (List.mem_flatMap.mpr ⟨b, hb, hb'⟩) heq.symm

theorem Rep.nodup_starts (hr : Rep base h fs bs) : (starts (fs ++ bs)).Nodup :=
  Malloc.nodup_starts (hr.units.nodup_iff.mpr hr.nodup) hr.ok

theorem nodup_of_sorted (hsorted : fs.Pairwise fun f g => f.stop < g.start) (hok : ∀ f ∈ fs, f.Ok base) :
    (base :: starts fs).Nodup := by
  have hlt : (starts fs).Pairwise (· < ·) := by
    refine List.pairwise_map.mpr (hsorted.imp_of_mem fun ha _ hab => ?_)
    exact (hok _ ha).start_lt_stop.trans hab
  refine List.nodup_cons.mpr ⟨fun hmem => ?_, hlt.imp fun hab => hab.ne⟩
  obtain ⟨f, hf, heq⟩ := List.mem_map.mp hmem
  have habove := (hok f hf).above
  simp only [unit] at habove
  omega

end LabSO.Malloc

import LabSO.Kernel.PageTable

/-! A page table of any shape as a finite map: the page-table pages that paths of indices lead to, and the valid entry of a
    virtual address. `walk` without `alloc` finds the place of that entry; a write to an entry changes the map at one page. -/

namespace LabSO.Paging
open Memory Program

/-- The table that a valid entry points to. -/
def child (m : Mem) (a : Nat) : Option Nat :=
  if load m a 8 &&& PTE_V ≠ 0 then some (PTE2PA (load m a 8)) else none

/-- The page-table page that a path leads to. The path has the index into the root last. -/
def tableAt (m : Mem) (root : Nat) : List Nat → Option Nat
  | [] => some root
  | i :: p => (tableAt m root p).bind fun q => child m (q + 8 * i)

/-- The paths of page-table pages. -/
def IsPath (p : List Nat) : Prop := p.length ≤ 2 ∧ ∀ i ∈ p, i < 512

instance (p : List Nat) : Decidable (IsPath p) := inferInstanceAs (Decidable (_ ∧ _))

/-- The path that `walk` follows, from a level down. -/
def walkPath (va : Nat) : Nat → List Nat → List Nat
  | 0, p => p
  | level + 1, p => walkPath va level (PX (level + 1) va :: p)

/-- The path to the table that has the entry for a virtual address. -/
def pathTo (va : Nat) : List Nat := [PX 1 va, PX 2 va]

/-- Where the entry for a virtual address is. -/
def slotOf (m : Mem) (root va : Nat) : Option Nat := (tableAt m root (pathTo va)).map (· + 8 * PX 0 va)

/-- The valid entry at an address. -/
def validPte (m : Mem) (a : Nat) : Option Nat := if load m a 8 &&& PTE_V ≠ 0 then some (load m a 8) else none

/-- The valid entry that maps a virtual address. -/
def lookup (m : Mem) (root va : Nat) : Option Nat :=
  if MAXVA ≤ va then none else (slotOf m root va).bind (validPte m)

/-- Page-table pages are pages. -/
def Tables (m : Mem) (root : Nat) : Prop := ∀ p q, IsPath p → tableAt m root p = some q → q ≠ 0 ∧ q % PGSIZE = 0

/-- The page-table pages form a tree of pairwise distinct pages. -/
structure Tree (m : Mem) (root : Nat) : Prop where
  tables : Tables m root
  distinct : ∀ p p' q, IsPath p → IsPath p' → tableAt m root p = some q → tableAt m root p' = some q → p = p'

section
variable {s : Phys} {m m' : Mem} {root va va' q c i l a y : Nat} {p p' : List Nat} {ok : Halt → Prop}

theorem PX_lt (l va : Nat) : PX l va < 512 := by
  rw [PX_eq]
  exact Nat.mod_lt _ (by decide)

theorem isPath_nil : IsPath [] := ⟨Nat.zero_le _, nofun⟩

theorem IsPath.tail (h : IsPath (i :: p)) : IsPath p := by
  refine ⟨?_, fun j hj => h.2 j (List.mem_cons_of_mem _ hj)⟩
  have := h.1
  simp at this
  omega

theorem IsPath.head (h : IsPath (i :: p)) : i < 512 := h.2 i List.mem_cons_self

theorem IsPath.cons (h : IsPath p) (hp : p.length ≤ 1) (hi : i < 512) : IsPath (i :: p) := by
  refine ⟨Nat.succ_le_succ hp, fun j hj => ?_⟩
  rcases List.mem_cons.mp hj with rfl | hj
  · exact hi
  · exact h.2 j hj

theorem isPath_pathTo (va : Nat) : IsPath (pathTo va) :=
  ((isPath_nil.cons (Nat.zero_le _) (PX_lt 2 va)).cons le_rfl (PX_lt 1 va))

theorem walkPath_root (va : Nat) : walkPath va 2 [] = pathTo va := rfl

/-- Below `MAXVA`, the indices tell the pages apart. -/
theorem page_eq_of_PX (hva : va < MAXVA) (hva' : va' < MAXVA) (hpath : pathTo va = pathTo va') (h0 : PX 0 va = PX 0 va') :
    va / PGSIZE = va' / PGSIZE := by
  simp only [pathTo, List.cons.injEq, PX_eq] at hpath h0
  obtain ⟨h1, h2, -⟩ := hpath
  have hlt : va < 2 ^ 38 := hva
  have hlt' : va' < 2 ^ 38 := hva'
  simp only [PGSIZE]
  omega

theorem pathTo_congr (h : va / PGSIZE = va' / PGSIZE) : pathTo va = pathTo va' := by
  simp only [PGSIZE] at h
  simp only [pathTo, PX_eq, h]

theorem PX_congr (h : va / PGSIZE = va' / PGSIZE) : PX l va = PX l va' := by
  simp only [PGSIZE] at h
  simp only [PX_eq, h]

theorem slotOf_congr (h : va / PGSIZE = va' / PGSIZE) : slotOf m root va = slotOf m root va' := by
  rw [slotOf, slotOf, pathTo_congr h, PX_congr h]

theorem lt_MAXVA_congr (h : va / PGSIZE = va' / PGSIZE) (hva : va < MAXVA) : va' < MAXVA := by
  have hlt : va < 2 ^ 38 := hva
  show va' < 2 ^ 38
  simp only [PGSIZE] at h
  omega

/-- The entry is that of the whole page. -/
theorem lookup_congr (h : va / PGSIZE = va' / PGSIZE) : lookup m root va = lookup m root va' := by
  have hiff : MAXVA ≤ va ↔ MAXVA ≤ va' := by
    rw [← not_lt, ← not_lt]
    exact not_congr ⟨lt_MAXVA_congr h, lt_MAXVA_congr h.symm⟩
  simp only [lookup, hiff, slotOf_congr h]

theorem lookup_of_lt (h : va < MAXVA) : lookup m root va = (slotOf m root va).bind (validPte m) :=
  if_neg (Nat.not_le.mpr h)

theorem lookup_of_le (h : MAXVA ≤ va) : lookup m root va = none := if_pos h

theorem lt_of_lookup (h : lookup m root va = some y) : va < MAXVA := by
  by_contra hle
  rw [lookup_of_le (Nat.not_lt.mp hle)] at h
  cases h

theorem valid_of_lookup (h : lookup m root va = some y) : y &&& PTE_V ≠ 0 := by
  rw [lookup_of_lt (lt_of_lookup h), Option.bind_eq_some_iff] at h
  obtain ⟨a, -, ha⟩ := h
  rw [validPte] at ha
  split at ha
  · next hv => exact Option.some.inj ha ▸ hv
  · cases ha

theorem PGROUNDDOWN_le (va : Nat) : PGROUNDDOWN va ≤ va := Nat.div_mul_le_self _ _

theorem sub_PGROUNDDOWN (va : Nat) : va - PGROUNDDOWN va = va % PGSIZE := by
  simp only [PGROUNDDOWN, PGSIZE]
  omega

theorem PGROUNDDOWN_mod (va : Nat) : PGROUNDDOWN va % PGSIZE = 0 := Nat.mul_mod_left _ _

theorem PGROUNDDOWN_div (va : Nat) : PGROUNDDOWN va / PGSIZE = va / PGSIZE := Nat.mul_div_cancel _ (by decide)

/-! ### `walk` without `alloc` -/

theorem tableAt_walkPath_none (h : tableAt m root p = none) : tableAt m root (walkPath va l p) = none := by
  induction l generalizing p with
  | zero => exact h
  | succ l ih =>
    refine ih ?_
    rw [tableAt, h]
    rfl

theorem peek_returns {α : Type} {f : Mem → α} : Returns (peek f) s (f s.mem) s := rfl

theorem walkFrom_returns (h : tableAt s.mem root p = some q) :
    Returns (walkFrom false va l q) s (((tableAt s.mem root (walkPath va l p)).map (· + 8 * PX 0 va)).getD 0) s := by
  induction l generalizing p q with
  | zero =>
    rw [walkPath, h]
    exact .pure
  | succ l ih =>
    have hnext : tableAt s.mem root (PX (l + 1) va :: p) = child s.mem (q + 8 * PX (l + 1) va) := by
      rw [tableAt, h]
      rfl
    refine peek_returns.bind ?_
    rw [walkPath]
    by_cases hv : load s.mem (q + 8 * PX (l + 1) va) 8 &&& PTE_V = 0
    · have hnone : tableAt s.mem root (PX (l + 1) va :: p) = none := by
        rw [hnext, child, if_neg (not_not.mpr hv)]
      rw [if_neg (not_not.mpr hv), tableAt_walkPath_none hnone]
      exact .pure
    · rw [if_pos hv]
      refine ih ?_
      rw [hnext, child, if_pos hv]

/-- `walk` gives the place of the entry, or 0 if there is no table for it. -/
theorem walk_returns (hva : va < MAXVA) : Returns (walk root va false) s ((slotOf s.mem root va).getD 0) s := by
  rw [walk, if_neg (Nat.not_le.mpr hva)]
  exact walkFrom_returns (p := []) rfl

theorem slot_ne_zero (h : Tables m root) (ha : slotOf m root va = some a) : a ≠ 0 := by
  obtain ⟨q, hq, rfl⟩ := Option.map_eq_some_iff.mp ha
  have := (h _ _ (isPath_pathTo va) hq).1
  omega

/-! ### A page table without mappings -/

theorem tableAt_empty (h : ∀ i, i < 512 → child m (root + 8 * i) = none) (hp : IsPath p) (hne : p ≠ []) :
    tableAt m root p = none := by
  induction p with
  | nil => exact absurd rfl hne
  | cons i p ih =>
    rw [tableAt]
    by_cases hnil : p = []
    · subst hnil
      exact h i hp.head
    · rw [ih hp.tail hnil]
      rfl

theorem lookup_empty (h : ∀ i, i < 512 → child m (root + 8 * i) = none) : lookup m root va = none := by
  rw [lookup, slotOf, tableAt_empty h (isPath_pathTo va) nofun]
  exact ite_self _

/-! ### Changes elsewhere -/

/-- A change that leaves the page-table pages alone leaves the table alone. -/
theorem tableAt_frame (hm : ∀ p q, IsPath p → tableAt m root p = some q → ∀ j, j < PGSIZE → m' (q + j) = m (q + j))
    (hp : IsPath p) : tableAt m' root p = tableAt m root p := by
  induction p with
  | nil => rfl
  | cons i p ih =>
    rw [tableAt, tableAt, ih hp.tail]
    refine Option.bind_congr fun q hq => ?_
    have hi := hp.head
    have hload : load m' (q + 8 * i) 8 = load m (q + 8 * i) 8 := by
      refine load_congr fun j hj => ?_
      rw [Nat.add_assoc]
      refine hm _ _ hp.tail hq _ ?_
      simp only [PGSIZE]
      omega
    rw [child, child, hload]

theorem lookup_frame (hm : ∀ p q, IsPath p → tableAt m root p = some q → ∀ j, j < PGSIZE → m' (q + j) = m (q + j)) :
    lookup m' root va = lookup m root va := by
  rw [lookup, lookup, slotOf, slotOf, tableAt_frame hm (isPath_pathTo va)]
  refine if_congr Iff.rfl rfl (Option.bind_congr fun a ha => ?_)
  obtain ⟨q, hq, rfl⟩ := Option.map_eq_some_iff.mp ha
  have hi := PX_lt 0 va
  have hload : load m' (q + 8 * PX 0 va) 8 = load m (q + 8 * PX 0 va) 8 := by
    refine load_congr fun j hj => ?_
    rw [Nat.add_assoc]
    refine hm _ _ (isPath_pathTo va) hq _ ?_
    simp only [PGSIZE]
    omega
  rw [validPte, validPte, hload]

/-- Pages that are not the same do not overlap. -/
theorem pages_apart (hq : q % PGSIZE = 0) (hc : c % PGSIZE = 0) (hne : q ≠ c) : q + PGSIZE ≤ c ∨ c + PGSIZE ≤ q := by
  simp only [PGSIZE] at *
  omega

/-- What is in a page that is no page-table page does not matter. -/
theorem frame_of_page (h : Tables m root) (hc : c % PGSIZE = 0) (hnot : ∀ p, IsPath p → tableAt m root p ≠ some c)
    (hm : ∀ x, ¬(c ≤ x ∧ x < c + PGSIZE) → m' x = m x) :
    ∀ p q, IsPath p → tableAt m root p = some q → ∀ j, j < PGSIZE → m' (q + j) = m (q + j) := by
  intro p q hp hq j hj
  refine hm _ fun hin => ?_
  rcases pages_apart (h p q hp hq).2 hc (fun heq => hnot p hp (heq ▸ hq)) with hap | hap
  · omega
  · omega

theorem Tables.congr (h : Tables m root) (htab : ∀ p, IsPath p → tableAt m' root p = tableAt m root p) : Tables m' root :=
  fun p q hp hq => h p q hp (htab p hp ▸ hq)

theorem Tree.congr (h : Tree m root) (htab : ∀ p, IsPath p → tableAt m' root p = tableAt m root p) : Tree m' root where
  tables := h.tables.congr htab
  distinct p p' q hp hp' hq hq' := h.distinct p p' q hp hp' (htab p hp ▸ hq) (htab p' hp' ▸ hq')

/-! ### Writing an entry -/

/-- Two entries of page-table pages are the same, or do not overlap. -/
theorem load_store_table (h : Tree m root) (hp : IsPath p) (hp' : IsPath p') (hq : tableAt m root p = some q)
    (hc : tableAt m root p' = some c) {j : Nat} (hi : i < 512) (hj : j < 512) (hne : ¬(p = p' ∧ i = j)) :
    load (store m (c + 8 * j) 8 y) (q + 8 * i) 8 = load m (q + 8 * i) 8 := by
  refine load_store_of_disjoint ?_
  obtain rfl | hqc := eq_or_ne q c
  · have hij : i ≠ j := fun heq => hne ⟨h.distinct p p' q hp hp' hq hc, heq⟩
    omega
  · rcases pages_apart (h.tables p q hp hq).2 (h.tables p' c hp' hc).2 hqc with hap | hap <;>
      simp only [PGSIZE] at hap <;> omega

/-- A write to an entry for a page leaves the page-table pages alone. -/
theorem tableAt_store (h : Tree m root) (ha : slotOf m root va = some a) (hp : IsPath p) :
    tableAt (store m a 8 y) root p = tableAt m root p := by
  obtain ⟨q, hq, rfl⟩ := Option.map_eq_some_iff.mp ha
  induction p with
  | nil => rfl
  | cons i p ih =>
    rw [tableAt, tableAt, ih hp.tail]
    refine Option.bind_congr fun c hc => ?_
    have hne : ¬(p = pathTo va ∧ i = PX 0 va) := by
      rintro ⟨rfl, -⟩
      exact absurd hp.1 (by simp [pathTo])
    have hload := load_store_table (y := y) h hp.tail (isPath_pathTo va) hc hq hp.head (PX_lt 0 va) hne
    rw [child, child, hload]

theorem Tree.store (h : Tree m root) (ha : slotOf m root va = some a) : Tree (store m a 8 y) root :=
  h.congr fun _ hp => tableAt_store h ha hp

theorem slotOf_store (h : Tree m root) (ha : slotOf m root va = some a) :
    slotOf (Memory.store m a 8 y) root va' = slotOf m root va' := by
  rw [slotOf, slotOf, tableAt_store h ha (isPath_pathTo va')]

/-- A write to the entry for a page changes the map at that page, and nowhere else. -/
theorem lookup_store (h : Tree m root) (hva : va < MAXVA) (ha : slotOf m root va = some a) (hy : y < 2 ^ 64) :
    lookup (store m a 8 y) root va' =
      if va' / PGSIZE = va / PGSIZE then if y &&& PTE_V ≠ 0 then some y else none else lookup m root va' := by
  split
  · next heq =>
    rw [lookup_congr heq, lookup_of_lt hva, slotOf_store h ha, ha, Option.bind_some, validPte, load_store,
      Nat.mod_eq_of_lt (show y < 256 ^ 8 from hy)]
  · next hne =>
    rw [lookup, lookup, slotOf_store h ha]
    by_cases hle : MAXVA ≤ va'
    · rw [if_pos hle, if_pos hle]
    rw [if_neg hle, if_neg hle]
    refine Option.bind_congr fun a' ha' => ?_
    obtain ⟨q, hq, rfl⟩ := Option.map_eq_some_iff.mp ha
    obtain ⟨q', hq', rfl⟩ := Option.map_eq_some_iff.mp ha'
    have hne' : ¬(pathTo va' = pathTo va ∧ PX 0 va' = PX 0 va) :=
      fun heq => hne (page_eq_of_PX (Nat.not_le.mp hle) hva heq.1 heq.2)
    have hload := load_store_table (y := y) h (isPath_pathTo va') (isPath_pathTo va) hq' hq (PX_lt 0 va') (PX_lt 0 va) hne'
    rw [validPte, validPte, hload]

/-! ### A new table -/

/-- A page of zeros becomes the table that an entry now points to. -/
structure Added (m : Mem) (root i : Nat) (p : List Nat) (q c : Nat) : Prop where
  tree : Tree m root
  path : IsPath (i :: p)
  parent : tableAt m root p = some q
  missing : child m (q + 8 * i) = none
  ne_zero : c ≠ 0
  aligned : c % PGSIZE = 0
  lt : c < 2 ^ 64
  fresh : ∀ p, IsPath p → tableAt m root p ≠ some c
  zero : ∀ j, j < PGSIZE → m (c + j) = 0

namespace Added

theorem ne (h : Added m root i p q c) (hp : IsPath p') (hq' : tableAt m root p' = some a) : a ≠ c :=
  fun heq => h.fresh p' hp (heq ▸ hq')

theorem load_child (h : Added m root i p q c) {k : Nat} (hk : k < 512) :
    load (store m (q + 8 * i) 8 y) (c + 8 * k) 8 = 0 := by
  have hi := h.path.head
  rw [load_store_of_disjoint]
  · refine load_zero fun j hj => ?_
    rw [Nat.add_assoc]
    refine h.zero _ ?_
    simp only [PGSIZE]
    omega
  · rcases pages_apart h.aligned (h.tree.tables p q h.path.tail h.parent).2 (h.ne h.path.tail h.parent).symm with hap | hap <;>
      simp only [PGSIZE] at hap <;> omega

theorem load_entry (h : Added m root i p q c) :
    load (store m (q + 8 * i) 8 (entry c PTE_V)) (q + 8 * i) 8 = entry c PTE_V := by
  rw [load_store]
  exact Nat.mod_eq_of_lt (entry_lt (by decide) h.lt)

theorem child_entry (h : Added m root i p q c) : child (store m (q + 8 * i) 8 (entry c PTE_V)) (q + 8 * i) = some c := by
  have hvalid : entry c PTE_V &&& PTE_V ≠ 0 := by
    rw [entry_and (by decide) (by decide)]
    decide
  rw [child, h.load_entry, if_pos hvalid, PTE2PA_entry (by decide) h.aligned h.lt]

/-- There is one more page-table page. -/
theorem tableAt (h : Added m root i p q c) {r : List Nat} (hr : IsPath r) :
    tableAt (store m (q + 8 * i) 8 (entry c PTE_V)) root r = if r = i :: p then some c else tableAt m root r := by
  induction r with
  | nil => rfl
  | cons j r ih =>
    rw [Paging.tableAt, ih hr.tail]
    by_cases hparent : r = i :: p
    · subst hparent
      have hold : Paging.tableAt m root (i :: p) = none := by
        rw [Paging.tableAt, h.parent, Option.bind_some, h.missing]
      have hne : j :: i :: p ≠ i :: p := fun heq => absurd (congrArg List.length heq) (by simp)
      rw [if_pos rfl, if_neg hne, Option.bind_some, child, h.load_child hr.head, Paging.tableAt, hold]
      rfl
    · rw [if_neg hparent]
      by_cases heq : j :: r = i :: p
      · obtain ⟨rfl, rfl⟩ := List.cons.inj heq
        rw [if_pos rfl, h.parent, Option.bind_some, h.child_entry]
      · rw [if_neg heq, Paging.tableAt]
        refine Option.bind_congr fun q' hq' => ?_
        have hne : ¬(r = p ∧ j = i) := fun hand => heq (by rw [hand.1, hand.2])
        have hload := load_store_table (y := entry c PTE_V) h.tree hr.tail h.path.tail hq' h.parent hr.head h.path.head hne
        rw [child, child, hload]

theorem tree_store (h : Added m root i p q c) : Tree (store m (q + 8 * i) 8 (entry c PTE_V)) root where
  tables r q' hr hq' := by
    rw [h.tableAt hr] at hq'
    split at hq'
    · cases hq'
      exact ⟨h.ne_zero, h.aligned⟩
    · exact h.tree.tables r q' hr hq'
  distinct r r' q' hr hr' hq hq' := by
    rw [h.tableAt hr] at hq
    rw [h.tableAt hr'] at hq'
    by_cases heq : r = i :: p
    · by_cases heq' : r' = i :: p
      · rw [heq, heq']
      · rw [if_pos heq] at hq
        rw [if_neg heq'] at hq'
        exact absurd (Option.some.inj hq).symm (h.ne hr' hq')
    · rw [if_neg heq] at hq
      by_cases heq' : r' = i :: p
      · rw [if_pos heq'] at hq'
        exact absurd (Option.some.inj hq').symm (h.ne hr hq)
      · rw [if_neg heq'] at hq'
        exact h.tree.distinct r r' q' hr hr' hq hq'

/-- The new table maps nothing. -/
theorem lookup (h : Added m root i p q c) : lookup (store m (q + 8 * i) 8 (entry c PTE_V)) root va = lookup m root va := by
  rw [Paging.lookup, Paging.lookup, slotOf, slotOf, h.tableAt (isPath_pathTo va)]
  refine if_congr Iff.rfl rfl ?_
  by_cases heq : pathTo va = i :: p
  · have hold : Paging.tableAt m root (pathTo va) = none := by
      rw [heq, Paging.tableAt, h.parent, Option.bind_some, h.missing]
    rw [if_pos heq, hold, Option.map_some, Option.bind_some, validPte, h.load_child (PX_lt 0 va)]
    rfl
  · rw [if_neg heq]
    refine Option.bind_congr fun a ha => ?_
    obtain ⟨q', hq', rfl⟩ := Option.map_eq_some_iff.mp ha
    have hne : ¬(pathTo va = p ∧ PX 0 va = i) := by
      rintro ⟨rfl, -⟩
      exact absurd h.path.1 (by simp [pathTo])
    have hload := load_store_table (y := entry c PTE_V) h.tree (isPath_pathTo va) h.path.tail hq' h.parent (PX_lt 0 va)
      h.path.head hne
    rw [validPte, validPte, hload]

end Added

end

end LabSO.Paging

import LabSO.Kernel.PageMap
import Mathlib.Data.Finset.Card
import Mathlib.Order.Interval.Finset.Nat

/-! The user memory of a page table: mapping a page, unmapping pages, and how `uvmalloc` and `uvmdealloc` change its size. -/

namespace LabSO.Paging
open Memory Program

/-- Whose pages a change of the user memory at the pages in `P` may concern. -/
def Owner.Touched (root : Nat) (P : Nat → Prop) : Owner → Prop
  | .free => True
  | .held => True
  | .table r _ _ => r = root
  | .user r v => r = root ∧ P v
  | _ => False

/-- From one page table to another, only the user memory at the pages in `P` changes. -/
structure Remapped (M : Image) (root : Nat) (P : Nat → Prop) (s : Phys) (own : Nat → Owner) (V : View) (t : Phys)
    (own' : Nat → Owner) (V' : View) : Prop where
  heap : Heap M t own'
  rep : Rep M t.mem own' root V'
  leaf : ∀ v, ¬P v → V'.leaf v = V.leaf v
  moves : Moves M (Owner.Touched root P) s own t own'

/-- The call holds no pages that it did not hold before. -/
def HoldsNoMore (M : Image) (own own' : Nat → Owner) : Prop := ∀ b, Page M b → own' b = .held → own b = .held

section
variable {M : Image} {s t u : Phys} {own own' own'' : Nat → Owner} {root v w b f n : Nat} {V V' V'' : View} {P P' : Nat → Prop}
  {ok : Halt → Prop}

theorem HoldsNoMore.refl : HoldsNoMore M own own := fun _ _ => id

theorem HoldsNoMore.trans (h : HoldsNoMore M own own') (h' : HoldsNoMore M own' own'') : HoldsNoMore M own own'' :=
  fun b hb hheld => h b hb (h' b hb hheld)

/-- A page goes to somebody else. -/
theorem HoldsNoMore.give {o : Owner} (ho : o ≠ .held) : HoldsNoMore M own (Function.update own b o) := by
  intro c _ hc
  obtain rfl | hne := eq_or_ne c b
  · rw [Function.update_self] at hc
    exact absurd hc ho
  · rwa [Function.update_of_ne hne] at hc

/-- What was held for a while is held by somebody else in the end. -/
theorem HoldsNoMore.of_held (h : HoldsNoMore M (Function.update own b .held) own') (hb : own' b ≠ .held) :
    HoldsNoMore M own own' := by
  intro c hc hheld
  obtain rfl | hne := eq_or_ne c b
  · exact absurd hheld hb
  · have hold := h c hc hheld
    rwa [Function.update_of_ne hne] at hold

theorem Grown.holdsNoMore (h : Grown M root s own V t own' V') : HoldsNoMore M own own' := by
  intro b hb hheld
  rw [← hheld]
  refine (h.moves.back b hb ?_).symm
  rw [hheld]
  rintro (hcontra | ⟨l, d, hcontra⟩) <;> cases hcontra

theorem Owner.touched_user (hv : P v) : (Owner.user root v).Touched root P := ⟨rfl, hv⟩

theorem Owner.Touched.mono {o : Owner} (hPP : ∀ v, P v → P' v) (h : o.Touched root P) : o.Touched root P' := by
  cases o with
  | user r v => exact ⟨h.1, hPP v h.2⟩
  | _ => exact h

namespace Remapped

theorem refl (hheap : Heap M s own) (h : Rep M s.mem own root V) : Remapped M root P s own V s own V :=
  ⟨hheap, h, fun _ _ => rfl, .refl⟩

theorem trans (h : Remapped M root P s own V t own' V') (h' : Remapped M root P t own' V' u own'' V'') :
    Remapped M root P s own V u own'' V'' :=
  ⟨h'.heap, h'.rep, fun v hv => (h'.leaf v hv).trans (h.leaf v hv), h.moves.trans h'.moves⟩

theorem mono (hPP : ∀ v, P v → P' v) (h : Remapped M root P s own V t own' V') : Remapped M root P' s own V t own' V' :=
  ⟨h.heap, h.rep, fun v hv => h.leaf v (mt (hPP v) hv), Frame.mono h.moves fun _ => Owner.Touched.mono hPP⟩

/-- More page-table pages. -/
theorem of_grown (h : Grown M root s own V t own' V') : Remapped M root P s own V t own' V' := by
  refine ⟨h.heap, h.rep, fun v _ => by rw [h.leaf], Frame.mono h.moves ?_⟩
  rintro o (rfl | ⟨l, d, rfl⟩)
  · trivial
  · exact rfl

/-- Outside `P` the user memory has the same pages with the same bytes. -/
theorem user (h : Remapped M root P s own V t own' V') (hb : Page M b) (hown : own b = .user root v) (hv : ¬P v) :
    own' b = .user root v ∧ ∀ i, i < PGSIZE → t.mem (b + i) = s.mem (b + i) := by
  have hnot : ¬(own b).Touched root P := by
    rw [hown]
    exact fun hand => hv hand.2
  exact ⟨(h.moves.kept b hb hnot).trans hown, h.moves.mem b hb hnot⟩

end Remapped

/-! ### Looking up a page -/

/-- What the entry for a table says. -/
theorem Rep.child {l va : Nat} {m : Mem} (h : Rep M m own root V) (hne : V.tab (l + 1) (va / 4096 / 512 ^ (l + 2)) ≠ 0) :
    child m (V.tab (l + 1) (va / 4096 / 512 ^ (l + 2)) + 8 * PX (l + 1) va) =
      if V.tab l (va / 4096 / 512 ^ (l + 1)) = 0 then none else some (V.tab l (va / 4096 / 512 ^ (l + 1))) := by
  rw [Paging.child, h.load_path hne, View.word]
  by_cases hz : V.tab l (va / 4096 / 512 ^ (l + 1)) = 0
  · rw [hz, dirEntry_zero, if_neg (by simp), if_pos rfl]
  · have hvalid : entry (V.tab l (va / 4096 / 512 ^ (l + 1))) PTE_V &&& PTE_V ≠ 0 := by
      rw [entry_and (by decide) (by decide)]
      decide
    rw [dirEntry_of_ne hz, if_pos hvalid, if_neg hz, (h.tab hz).1.PTE2PA (by decide)]

/-- The page table maps what its view has an entry for. -/
theorem Rep.lookup {va : Nat} {m : Mem} (h : Rep M m own root V) : lookup m root va =
    if va < MAXVA ∧ V.leaf (va / PGSIZE) &&& PTE_V ≠ 0 then some (V.leaf (va / PGSIZE)) else none := by
  by_cases hva : va < MAXVA
  swap
  · rw [lookup_of_le (Nat.not_lt.mp hva), if_neg fun hand => hva hand.1]
  have hidx : va / 4096 / 512 ^ 3 = 0 := by
    have : va < 2 ^ 38 := hva
    omega
  have hroot : V.tab 2 (va / 4096 / 512 ^ 3) = root := by rw [hidx, h.tab_root]
  have h1 := @Rep.child M own root V 1 va m h (hroot ▸ h.root_ne)
  rw [hroot] at h1
  rw [lookup_of_lt hva, slotOf, pathTo, tableAt, tableAt, tableAt, Option.bind_some, h1]
  by_cases hz1 : V.tab 1 (va / 4096 / 512 ^ 2) = 0
  · have hleaf : V.leaf (va / PGSIZE) = 0 := h.leaf_eq_zero (l := 1) (by decide) hz1
    rw [if_pos hz1, if_neg (by rw [hleaf]; simp)]
    rfl
  rw [if_neg hz1, Option.bind_some, h.child hz1]
  by_cases hz0 : V.tab 0 (va / 4096 / 512 ^ 1) = 0
  · have hleaf : V.leaf (va / PGSIZE) = 0 := h.leaf_eq_zero (l := 0) (by decide) hz0
    rw [if_pos hz0, if_neg (by rw [hleaf]; simp)]
    rfl
  have hload : load m (V.tab 0 (va / 4096 / 512 ^ 1) + 8 * PX 0 va) 8 = V.leaf (va / PGSIZE) := by
    rw [h.load_path hz0, pow_zero, Nat.div_one]
    rfl
  rw [if_neg hz0, Option.map_some, Option.bind_some, validPte, hload]
  simp only [hva, true_and]

theorem Rep.lookup_congr {s t : Phys} (h : Rep M s.mem own root V) (h' : Rep M t.mem own' root V') {va : Nat}
    (hleaf : V'.leaf (va / PGSIZE) = V.leaf (va / PGSIZE)) : Paging.lookup t.mem root va = Paging.lookup s.mem root va := by
  rw [h.lookup, h'.lookup, hleaf]

/-! ### An empty page table -/

/-- The page table that has only its root, and no entry. -/
def View.empty (root : Nat) : View where
  tab l d := if l = 2 ∧ d = 0 then root else 0
  leaf _ := 0

theorem View.empty_tab {l d : Nat} (hne : (View.empty root).tab l d ≠ 0) : l = 2 ∧ d = 0 := by
  by_contra hnot
  exact hne (if_neg hnot)

/-- A page of zeros is an empty page table. -/
theorem rep_empty {m : Mem} (hpage : Page M root) (hzero : ∀ j, j < PGSIZE → m (root + j) = 0)
    (hown : own root = .table root 2 0) (htable : ∀ b l d, Page M b → own b = .table root l d → b = root)
    (huser : ∀ b v, Page M b → own b ≠ .user root v) : Rep M m own root (View.empty root) where
  root_ne := hpage.ne_zero
  tab_root := rfl
  top hne _ := View.empty_tab hne
  tab hne := by
    obtain ⟨rfl, rfl⟩ := View.empty_tab hne
    exact ⟨hpage, hown⟩
  tab_of_own {b l d} hb hb' := by
    obtain rfl := htable b l d hb hb'
    rw [hown] at hb'
    cases hb'
    rfl
  word {l d k} hne hk := by
    obtain ⟨rfl, rfl⟩ := View.empty_tab hne
    have hload : load m (root + 8 * k) 8 = 0 := by
      refine load_zero fun j hj => ?_
      rw [Nat.add_assoc]
      refine hzero _ ?_
      simp only [PGSIZE]
      omega
    exact hload
  above {l x} hle hne := by
    cases l with
    | zero => exact absurd rfl hne
    | succ l =>
      rw [View.word] at hne
      by_cases hzero : (View.empty root).tab l x = 0
      · rw [hzero] at hne
        exact absurd rfl hne
      · obtain ⟨rfl, -⟩ := View.empty_tab hzero
        omega
  user _ hne := absurd rfl hne
  user_of_own hb hb' := absurd hb' (huser _ _ hb)

/-! ### One page -/

theorem mappages_one {va pa perm : Nat} (ha : va % PGSIZE = 0) (hva : va < MAXVA) :
    mappages root va PGSIZE pa perm = mapFrom root perm 0 va pa := by
  have hlt : va < 2 ^ 38 := hva
  have hlast : PGROUNDDOWN (wrap64 (va + PGSIZE - 1)) = va := by
    have hsmall : va + PGSIZE - 1 < 2 ^ 64 := by
      simp only [PGSIZE]
      omega
    rw [wrap64, Nat.mod_eq_of_lt hsmall, PGROUNDDOWN]
    simp only [PGSIZE] at ha ⊢
    omega
  have hdown : PGROUNDDOWN va = va := by
    rw [PGROUNDDOWN]
    simp only [PGSIZE] at ha ⊢
    omega
  have hzero : wrap64 (va + 2 ^ 64 - va) / PGSIZE = 0 := by
    rw [Nat.add_sub_cancel_left, wrap64, Nat.mod_self, Nat.zero_div]
  unfold mappages
  rw [if_neg (show PGSIZE ≠ 0 by decide)]
  simp only [hlast, hdown, hzero]

theorem UPAGES_lt (hv : v < UPAGES) : v * PGSIZE < MAXVA := by
  have hlt : v < 2 ^ 26 - 2 := hv
  show v * 4096 < 2 ^ 38
  omega

theorem UPAGES_le (hv : v ≤ UPAGES) : v * PGSIZE < 2 ^ 64 := by
  have hle : v ≤ 2 ^ 26 - 2 := hv
  show v * 4096 < 2 ^ 64
  omega

theorem Perm.not_zero (h : Perm f) (hb : Page M b) : entry b f ≠ 0 := hb.entry_ne_zero h.lt

/-- A virtual page has one page of memory. -/
theorem Rep.user_unique (h : Rep M s.mem own root V) {c : Nat} (hb : Page M b) (hc : Page M c) (hown : own b = .user root v)
    (hown' : own c = .user root v) : b = c := by
  obtain ⟨-, f, hf, heq⟩ := h.user_of_own hb hown
  obtain ⟨-, f', hf', heq'⟩ := h.user_of_own hc hown'
  rw [← hb.PTE2PA hf.lt, ← hc.PTE2PA hf'.lt, ← heq, ← heq']

/-- A page that the call holds becomes user memory. -/
theorem map_user (hheap : Heap M s own) (h : Rep M s.mem own root V) (hv : v < UPAGES) (hleaf : V.leaf v = 0)
    (hb : Page M b) (hown : own b = .held) (hf : Perm (f ||| PTE_V)) {Q : Int → Phys → Prop}
    (hnone : ∀ t own' V', Grown M root s own V t own' V' → Q (-1) t)
    (hsome : ∀ t own' V', Remapped M root (· = v) s own V t own' V' → V'.leaf v = entry b (f ||| PTE_V) →
      own' b = .user root v → (∀ i, i < PGSIZE → t.mem (b + i) = s.mem (b + i)) → HoldsNoMore M own own' → Q 0 t) :
    Wp ok (mappages root (v * PGSIZE) PGSIZE b f) Q s := by
  have hdiv : v * PGSIZE / 4096 = v := Nat.mul_div_cancel v (by decide)
  rw [mappages_one (Nat.mul_mod_left v PGSIZE) (UPAGES_lt hv)]
  unfold mapFrom
  refine Wp.seq (walk_alloc hheap h (UPAGES_lt hv) (fun t own' V' hg => ?_) fun t own' V' hg htab => ?_)
  · rw [if_pos rfl]
    exact Wp.pure (hnone t own' V' hg)
  rw [hdiv] at htab ⊢
  have hzero : V'.leaf v = 0 := by rw [hg.leaf, hleaf]
  have hkeep : ¬(own b = .free ∨ ∃ l d, own b = .table root l d) := by
    rw [hown]
    rintro (hcontra | ⟨l, d, hcontra⟩) <;> cases hcontra
  have hheld : own' b = .held := (hg.moves.kept b hb hkeep).trans hown
  have hload : load t.mem (V'.slot v) 8 = 0 := (hg.rep.load_slot htab).trans hzero
  obtain ⟨htpage, htown⟩ := hg.rep.tab htab
  have hslot : V'.slot v ≠ 0 := by
    have := htpage.ne_zero
    rw [View.slot]
    omega
  rw [if_neg hslot]
  refine Wp.peek_bind ?_
  rw [hload, if_neg (by simp), entry_or]
  refine Wp.poke_bind (Wp.pure ?_)
  have hne : V'.tab 0 (v / 512) ≠ b := by
    intro heq
    rw [heq, hheld] at htown
    cases htown
  have hmod : v % 512 < 512 := Nat.mod_lt _ (by decide)
  have hself : Function.update own' b (.user root v) b = .user root v := Function.update_self ..
  have hother : ∀ c, c ≠ b → Function.update own' b (.user root v) c = own' c := fun c hc => Function.update_of_ne hc ..
  have hout : ∀ a, ¬(V'.tab 0 (v / 512) ≤ a ∧ a < V'.tab 0 (v / 512) + PGSIZE) →
      store t.mem (V'.slot v) 8 (entry b (f ||| PTE_V)) a = t.mem a := fun a ha => store_entry_outside hmod a ha
  have hrep : Rep M (store t.mem (V'.slot v) 8 (entry b (f ||| PTE_V))) (Function.update own' b (.user root v)) root
      (V'.setLeaf v (entry b (f ||| PTE_V))) := by
    refine hg.rep.setLeaf htab (fun c l d hc => ?_) (fun c v' hc hv' => ?_) (fun c i l d hc hcown hi hci => ?_) ?_ ?_ ?_
    · obtain rfl | hcb := eq_or_ne c b
      · rw [hself, hheld]
        exact ⟨(by rintro ⟨⟩), by rintro ⟨⟩⟩
      · rw [hother c hcb]
    · obtain rfl | hcb := eq_or_ne c b
      · rw [hself, hheld]
        refine ⟨fun heq => ?_, by rintro ⟨⟩⟩
        cases heq
        exact absurd rfl hv'
      · rw [hother c hcb]
    · exact hg.rep.load_store_slot htab hc hi hci
    · rw [load_store]
      exact Nat.mod_eq_of_lt (hb.entry_lt hf.lt)
    · exact fun _ _ => ⟨b, _, hb, hself, hf, rfl⟩
    · intro c hc hcown
      obtain rfl | hcb := eq_or_ne c b
      · exact ⟨hv, _, hf, rfl⟩
      · rw [hother c hcb] at hcown
        obtain ⟨-, f', hf', heq⟩ := hg.rep.user_of_own hc hcown
        exact absurd (heq.symm.trans hzero) (hf'.not_zero hc)
  refine hsome _ (Function.update own' b (.user root v)) _ ⟨?_, hrep, fun w hw => ?_, ?_⟩ (View.setLeaf_self ..) hself
    (fun i hi => ?_) (hg.holdsNoMore.trans (.give (by rintro ⟨⟩)))
  · refine (hg.heap.give (o := .user root v) (by rw [hheld]; rintro ⟨⟩) (by rintro ⟨⟩)).write htpage ?_ hout
    rw [hother _ hne, htown]
    rintro ⟨⟩
  · rw [View.setLeaf_of_ne hw, hg.leaf]
  · refine (Remapped.of_grown hg).moves.trans (Frame.trans (.give ?_ (Owner.touched_user rfl)) (Frame.write (page_apart M) htpage ?_ hout))
    · rw [hheld]
      trivial
    · rw [hother _ hne, htown]
      rfl
  · have hstore : store t.mem (V'.slot v) 8 (entry b (f ||| PTE_V)) (b + i) = t.mem (b + i) := by
      refine hout _ fun hin => ?_
      rcases page_apart M _ b htpage hb hne with hap | hap <;> omega
    rw [show ({ t with mem := store t.mem (V'.slot v) 8 (entry b (f ||| PTE_V)) } : Phys).mem (b + i) = _ from hstore]
    exact hg.moves.mem b hb hkeep i hi

/-! ### Unmapping -/

/-- What freeing the pages from `v` on, in number `n`, leaves. -/
structure Unmapped (M : Image) (root v n : Nat) (s : Phys) (own : Nat → Owner) (V : View) (t : Phys) (own' : Nat → Owner)
    (V' : View) : Prop extends Remapped M root (fun w => v ≤ w ∧ w < v + n) s own V t own' V' where
  gone : ∀ w, v ≤ w → w < v + n → V'.leaf w = 0
  freed : ∀ b w, Page M b → own b = .user root w → v ≤ w → w < v + n → own' b = .free
  free : ∀ b, own b = .free → own' b = .free
  held : HoldsNoMore M own own'

/-- The page of one entry goes to the free list. -/
theorem unmap_page (hheap : Heap M s own) (h : Rep M s.mem own root V) (hv : v < UPAGES) (hb : Page M b)
    (hown : own b = .user root v) (htab : V.tab 0 (v / 512) ≠ 0) {α : Type} {k : Unit → Vm α} {Q : α → Phys → Prop}
    (hQ : ∀ t own' V', Unmapped M root v 1 s own V t own' V' → Wp ok (k ()) Q t) :
    Wp ok (kfree M b >>= fun _ => storePte (V.slot v) 0 >>= k) Q s := by
  obtain ⟨htpage, htown⟩ := h.tab htab
  have hmod : v % 512 < 512 := Nat.mod_lt _ (by decide)
  refine Wp.seq (kfree_spec (F := fun o => o = .free ∨ o = .user root v) hheap hb (by rw [hown]; rintro ⟨⟩) (.inl rfl)
    (.inr hown) fun t hheap' hmv => Wp.poke_bind ?_)
  have hself : Function.update own b .free b = .free := Function.update_self ..
  have hother : ∀ c, c ≠ b → Function.update own b .free c = own c := fun c hc => Function.update_of_ne hc ..
  have hne : V.tab 0 (v / 512) ≠ b := by
    intro heq
    rw [heq, hown] at htown
    cases htown
  have hout : ∀ a, ¬(V.tab 0 (v / 512) ≤ a ∧ a < V.tab 0 (v / 512) + PGSIZE) →
      store t.mem (V.slot v) 8 0 a = t.mem a := fun a ha => store_entry_outside hmod a ha
  have hrep : Rep M (store t.mem (V.slot v) 8 0) (Function.update own b .free) root (V.setLeaf v 0) := by
    refine h.setLeaf htab (fun c l d hc => ?_) (fun c v' hc hv' => ?_) (fun c i l d hc hcown hi hci => ?_) ?_ ?_ ?_
    · obtain rfl | hcb := eq_or_ne c b
      · rw [hself, hown]
        exact ⟨(by rintro ⟨⟩), by rintro ⟨⟩⟩
      · rw [hother c hcb]
    · obtain rfl | hcb := eq_or_ne c b
      · rw [hself, hown]
        refine ⟨(by rintro ⟨⟩), fun heq => ?_⟩
        cases heq
        exact absurd rfl hv'
      · rw [hother c hcb]
    · have hkeep : load t.mem (c + 8 * i) 8 = load s.mem (c + 8 * i) 8 := by
        refine hmv.load hc ?_ (by simp only [PGSIZE]; omega)
        rw [hcown]
        rintro (hcontra | hcontra) <;> cases hcontra
      rw [View.slot, load_store_entry hc htpage hi hmod hci, hkeep]
    · rw [load_store]
      rfl
    · exact fun _ hcontra => absurd rfl hcontra
    · intro c hc hcown
      obtain rfl | hcb := eq_or_ne c b
      · rw [hself] at hcown
        cases hcown
      · rw [hother c hcb] at hcown
        exact absurd (h.user_unique hc hb hcown hown) hcb
  refine hQ _ (Function.update own b .free) _ ⟨⟨?_, hrep, fun w hw => ?_, ?_⟩, fun w hle hlt => ?_, fun c w hc hcown hle hlt => ?_,
    fun c hcown => ?_, .give (by rintro ⟨⟩)⟩
  · refine hheap'.write htpage ?_ hout
    rw [hother _ hne, htown]
    rintro ⟨⟩
  · exact View.setLeaf_of_ne fun heq => hw ⟨heq.ge, by omega⟩
  · refine Frame.trans (Frame.mono hmv ?_) (Frame.write (page_apart M) htpage ?_ hout)
    · rintro o (rfl | rfl)
      · trivial
      · exact ⟨rfl, le_rfl, by omega⟩
    · rw [hother _ hne, htown]
      rfl
  · obtain rfl : w = v := by omega
    exact View.setLeaf_self ..
  · obtain rfl : w = v := by omega
    rw [h.user_unique hc hb hcown hown, hself]
  · obtain rfl | hcb := eq_or_ne c b
    · exact hself
    · rw [hother c hcb, hcown]

theorem Unmapped.cons (h : Unmapped M root v 1 s own V t own' V') (h' : Unmapped M root (v + 1) n t own' V' u own'' V'') :
    Unmapped M root v (n + 1) s own V u own'' V'' where
  toRemapped := by
    refine (h.toRemapped.mono fun w hw => ?_).trans (h'.toRemapped.mono fun w hw => ?_)
    · exact ⟨hw.1, by omega⟩
    · exact ⟨by omega, by omega⟩
  gone w hle hlt := by
    obtain rfl | hne := eq_or_ne w v
    · rw [h'.leaf w (by omega)]
      exact h.gone w le_rfl (by omega)
    · exact h'.gone w (by omega) (by omega)
  freed b w hb hown hle hlt := by
    obtain rfl | hne := eq_or_ne w v
    · exact h'.free b (h.freed b w hb hown le_rfl (by omega))
    · obtain ⟨hkeep, -⟩ := h.user hb hown (by omega)
      exact h'.freed b w hb hkeep (by omega) (by omega)
  free b hown := h'.free b (h.free b hown)
  held := h.held.trans h'.held

theorem unmapFrom_free (hheap : Heap M s own) (h : Rep M s.mem own root V) (hend : v + n ≤ UPAGES)
    (hmapped : ∀ w, v ≤ w → w < v + n → V.leaf w ≠ 0) :
    Wp ok (unmapFrom M root true n (v * PGSIZE)) (fun _ t => ∃ own' V', Unmapped M root v n s own V t own' V') s := by
  induction n generalizing s own V v with
  | zero =>
    exact Wp.pure ⟨own, V, .refl hheap h, fun _ _ hlt => absurd hlt (by omega), fun _ _ _ _ _ hlt => absurd hlt (by omega),
      fun _ => id, .refl⟩
  | succ n ih =>
    have hv : v < UPAGES := by omega
    have hdiv : v * PGSIZE / 4096 = v := Nat.mul_div_cancel v (by decide)
    have hne := hmapped v le_rfl (by omega)
    obtain ⟨b, f, hb, hown, hf, hleaf⟩ := h.user hv hne
    unfold unmapFrom
    refine Wp.seq (walk_find h (UPAGES_lt hv) (fun hzero => absurd (hdiv ▸ hzero) hne) fun htab => ?_)
    rw [hdiv] at htab ⊢
    have hslot : V.slot v ≠ 0 := by
      have := (h.tab htab).1.ne_zero
      rw [View.slot]
      omega
    have hvalid : V.leaf v &&& PTE_V ≠ 0 := by
      rw [hleaf, entry_and hf.lt (by decide)]
      exact hf.valid
    have hflags : PTE_FLAGS (V.leaf v) ≠ PTE_V := by
      rw [hleaf, entry_flags hf.lt]
      exact hf.ne_valid
    rw [if_neg hslot]
    refine Wp.peek_bind ?_
    rw [h.load_slot htab, if_neg hvalid, if_neg hflags, hleaf, hb.PTE2PA hf.lt]
    have hnext : v * PGSIZE + PGSIZE = (v + 1) * PGSIZE := (Nat.succ_mul v PGSIZE).symm
    rw [hnext, onlyIf, if_pos rfl]
    refine unmap_page hheap h hv hb hown htab fun t own' V' ht => ?_
    refine (ih ht.heap ht.rep (by omega) fun w hle hlt => ?_).mono fun _ u hu => ?_
    · rw [ht.leaf w (by omega)]
      exact hmapped w (by omega) (by omega)
    · obtain ⟨own'', V'', hu⟩ := hu
      exact ⟨own'', V'', ht.cons hu⟩

/-! ### The size of the user memory -/

/-- User memory of `sz` bytes: of the pages below `TRAPFRAME`, those that begin below `sz` are mapped. -/
structure Space (M : Image) (s : Phys) (own : Nat → Owner) (root : Nat) (V : View) (sz : Nat) : Prop where
  heap : Heap M s own
  rep : Rep M s.mem own root V
  low : ∀ v, v < UPAGES → (V.leaf v ≠ 0 ↔ v * PGSIZE < sz)

variable {sz sz' : Nat}

theorem Space.congr (h : Space M s own root V sz) (hsz : ∀ v, v * PGSIZE < sz ↔ v * PGSIZE < sz') :
    Space M s own root V sz' :=
  ⟨h.heap, h.rep, fun v hv => (h.low v hv).trans (hsz v)⟩

/-- There are not more pages of user memory than of memory. -/
theorem Space.size_le (h : Space M s own root V sz) : sz ≤ 2 ^ 27 := by
  by_contra hlt
  have hpages : ∀ v, v < 32768 → ∃ b, Page M b ∧ own b = .user root v := by
    intro v hv
    have hvU : v < UPAGES := hv.trans_le (by decide)
    have hmapped : V.leaf v ≠ 0 := (h.low v hvU).mpr (by simp only [PGSIZE]; omega)
    obtain ⟨b, f, hb, hown, -⟩ := h.rep.user hvU hmapped
    exact ⟨b, hb, hown⟩
  choose! page hpage hown using hpages
  have hmaps : ∀ v ∈ Finset.range 32768, page v / 4096 - 0x80001 ∈ Finset.range 32767 := by
    intro v hv
    have hb := (hpage v (Finset.mem_range.mp hv)).bounds
    rw [Finset.mem_range]
    omega
  obtain ⟨v, hv, w, hw, hne, heq⟩ := Finset.exists_ne_map_eq_of_card_lt_of_maps_to (by simp) hmaps
  rw [Finset.mem_range] at hv hw
  have hbv := (hpage v hv).bounds
  have hbw := (hpage w hw).bounds
  have hsame : page v = page w := by omega
  have howner := hown v hv
  rw [hsame, hown w hw] at howner
  cases howner
  exact hne rfl

theorem Space.page_lt (h : Space M s own root V sz) (hv : v * PGSIZE < sz) : v < UPAGES := by
  have hle := h.size_le
  have hlt : v < 2 ^ 26 - 2 := by
    simp only [PGSIZE] at hv
    omega
  exact hlt

theorem signExtend_of_lt {x : Nat} (h : x < 2 ^ 31) : signExtend x = x := by
  have hwrap : wrap32 x = x := Nat.mod_eq_of_lt (by omega)
  rw [signExtend, hwrap, if_pos h]

/-- What `uvmdealloc` leaves: less user memory, and the pages that it had go to the free list. -/
structure Shrunk (M : Image) (root sz sz' : Nat) (s : Phys) (own : Nat → Owner) (V : View) (t : Phys) (own' : Nat → Owner)
    (V' : View) : Prop extends Remapped M root (fun v => sz' ≤ v * PGSIZE ∧ v * PGSIZE < sz) s own V t own' V' where
  space : Space M t own' root V' sz'
  freed : ∀ b v, Page M b → own b = .user root v → sz' ≤ v * PGSIZE → own' b = .free
  held : HoldsNoMore M own own'

theorem uvmdealloc_spec (h : Space M s own root V sz) (hlt : sz' < sz) {Q : Nat → Phys → Prop}
    (hQ : ∀ t own' V', Shrunk M root sz sz' s own V t own' V' → Q sz' t) : Wp ok (uvmdealloc M root sz sz') Q s := by
  have hsz := h.size_le
  have hup : PGROUNDUP sz = (sz + 4095) / 4096 * PGSIZE := PGROUNDUP_eq (by omega)
  have hup' : PGROUNDUP sz' = (sz' + 4095) / 4096 * PGSIZE := PGROUNDUP_eq (by omega)
  have hin : ∀ w, (sz' + 4095) / 4096 ≤ w ∧ w < (sz' + 4095) / 4096 + ((sz + 4095) / 4096 - (sz' + 4095) / 4096) ↔
      sz' ≤ w * PGSIZE ∧ w * PGSIZE < sz := by
    intro w
    simp only [PGSIZE]
    omega
  unfold uvmdealloc
  rw [if_neg (Nat.not_le.mpr hlt), hup, hup']
  refine Wp.seq (Wp.onlyIf (fun hpages => ?_) fun hsame => Wp.pure (hQ s own V ?_))
  · have hn : signExtend (((sz + 4095) / 4096 * PGSIZE - (sz' + 4095) / 4096 * PGSIZE) / PGSIZE)
        = (sz + 4095) / 4096 - (sz' + 4095) / 4096 := by
      have hdiv : ((sz + 4095) / 4096 * PGSIZE - (sz' + 4095) / 4096 * PGSIZE) / PGSIZE
          = (sz + 4095) / 4096 - (sz' + 4095) / 4096 := by
        rw [← Nat.sub_mul]
        exact Nat.mul_div_cancel _ (by decide)
      rw [hdiv]
      exact signExtend_of_lt (by omega)
    have hend : (sz' + 4095) / 4096 + ((sz + 4095) / 4096 - (sz' + 4095) / 4096) ≤ UPAGES := by
      show _ ≤ 2 ^ 26 - 2
      omega
    have hcount : (wrap64 ((sz' + 4095) / 4096 * PGSIZE + ((sz + 4095) / 4096 - (sz' + 4095) / 4096) * PGSIZE) -
        (sz' + 4095) / 4096 * PGSIZE) / PGSIZE = (sz + 4095) / 4096 - (sz' + 4095) / 4096 := by
      have hsmall := UPAGES_le hend
      rw [Nat.add_mul] at hsmall
      rw [wrap64, Nat.mod_eq_of_lt hsmall, Nat.add_sub_cancel_left]
      exact Nat.mul_div_cancel _ (by decide)
    have haligned : (sz' + 4095) / 4096 * PGSIZE % PGSIZE = 0 := Nat.mul_mod_left _ _
    unfold uvmunmap
    rw [if_neg (not_not.mpr haligned), hn, hcount]
    refine (unmapFrom_free h.heap h.rep hend fun w hle hlt => ?_).mono ?_
    · exact (h.low w (by omega)).mpr ((hin w).mp ⟨hle, hlt⟩).2
    · rintro _ t ⟨own', V', ht⟩
      refine Wp.pure (hQ t own' V' ⟨ht.toRemapped.mono fun w => (hin w).mp, ⟨ht.heap, ht.rep, fun w hw => ?_⟩, ?_, ht.held⟩)
      · by_cases hrange : sz' ≤ w * PGSIZE ∧ w * PGSIZE < sz
        · have hbounds := (hin w).mpr hrange
          exact ⟨fun hne => absurd (ht.gone w hbounds.1 hbounds.2) hne, fun hlt => absurd hlt (by omega)⟩
        · rw [ht.leaf w (mt (hin w).mp hrange), h.low w hw]
          omega
      · intro b w hb hown hle
        obtain ⟨hw, f, hf, hleaf⟩ := h.rep.user_of_own hb hown
        have hwsz : w * PGSIZE < sz := (h.low w hw).mp (hleaf ▸ hf.not_zero hb)
        have hbounds := (hin w).mpr ⟨hle, hwsz⟩
        exact ht.freed b w hb hown hbounds.1 hbounds.2
  · have hpages : ∀ w, w * PGSIZE < sz ↔ w * PGSIZE < sz' := by
      intro w
      simp only [PGSIZE] at hsame ⊢
      omega
    refine ⟨.refl h.heap h.rep, h.congr hpages, fun b w hb hown hle => ?_, .refl⟩
    obtain ⟨hw, f, hf, hleaf⟩ := h.rep.user_of_own hb hown
    have hwsz : w * PGSIZE < sz := (h.low w hw).mp (hleaf ▸ hf.not_zero hb)
    exact absurd ((hpages w).mp hwsz) (by omega)

/-! ### Pages that the call holds -/

theorem lt_next_page (v : Nat) : v * PGSIZE < (v + 1) * PGSIZE :=
  Nat.mul_lt_mul_of_pos_right (Nat.lt_succ_self v) (by decide)

theorem lt_next_page_iff (hne : w ≠ v) : w * PGSIZE < v * PGSIZE ↔ w * PGSIZE < (v + 1) * PGSIZE := by
  rw [Nat.mul_lt_mul_right (by decide), Nat.mul_lt_mul_right (by decide), Nat.lt_succ_iff, le_iff_lt_or_eq, or_iff_left hne]

theorem next_page_le (hle : v * PGSIZE ≤ w * PGSIZE) (hne : w ≠ v) : (v + 1) * PGSIZE ≤ w * PGSIZE :=
  Nat.mul_le_mul_right _ (lt_of_le_of_ne (Nat.le_of_mul_le_mul_right hle (by decide)) hne.symm)

theorem memset_inside {m : Mem} {x : UInt8} {i : Nat} (hi : i < n) : memset m b x n (b + i) = x :=
  if_pos ⟨Nat.le_add_right b i, Nat.add_lt_add_left hi b⟩

theorem not_for_held {o : Owner} (h : o.For root) : ¬(o = .free ∨ o = .held) := by
  rintro (rfl | rfl) <;> exact h

theorem touched_held {o : Owner} (h : o = .free ∨ o = .held) : o.Touched root P := by
  rcases h with rfl | rfl <;> trivial

theorem kalloc_held (hheap : Heap M s own) (h : Rep M s.mem own root V) {Q : Nat → Phys → Prop}
    (hnone : ∀ t, Remapped M root P s own V t own V → Q 0 t)
    (hsome : ∀ r t, Page M r → own r = .free → Remapped M root P s own V t (Function.update own r .held) V → Q r t) :
    Wp ok kalloc Q s := by
  refine kalloc_spec (F := fun o => o = .free ∨ o = .held) (o := .held) hheap nofun (.inl rfl) (.inr rfl) (fun t hmem hheap' => ?_)
    fun r t hpage hfree hheap' hmv => ?_
  · refine hnone t ⟨hheap', hmem ▸ h, fun _ _ => rfl, ?_⟩
    rw [Moves, hmem]
    exact .refl
  · exact hsome r t hpage hfree
      ⟨hheap', h.frame hmv fun _ => not_for_held, fun _ _ => rfl, Frame.mono hmv fun _ => touched_held⟩

theorem remapped_write {m : Mem} (hheap : Heap M s own) (h : Rep M s.mem own root V) (hb : Page M b) (hown : own b = .held)
    (hm : ∀ a, ¬(b ≤ a ∧ a < b + PGSIZE) → m a = s.mem a) : Remapped M root P s own V { s with mem := m } own V := by
  have hmv : Moves M (fun o => o = .free ∨ o = .held) s own { s with mem := m } own := Moves.write hb (.inr hown) hm
  exact ⟨hheap.write hb (by rw [hown]; nofun) hm, h.frame hmv fun _ => not_for_held, fun _ _ => rfl,
    Frame.mono hmv fun _ => touched_held⟩

theorem kfree_held (hheap : Heap M s own) (h : Rep M s.mem own root V) (hb : Page M b) (hown : own b = .held)
    {Q : Unit → Phys → Prop} (hQ : ∀ t, Remapped M root P s own V t (Function.update own b .free) V → Q () t) :
    Wp ok (kfree M b) Q s :=
  kfree_spec (F := fun o => o = .free ∨ o = .held) hheap hb (by rw [hown]; nofun) (.inl rfl) (.inr hown)
    fun t hheap' hmv => hQ t
      ⟨hheap', h.frame hmv fun _ => not_for_held, fun _ _ => rfl, Frame.mono hmv fun _ => touched_held⟩

/-! ### More user memory -/

/-- What `uvmalloc` leaves when it is done: the new pages are mapped, and there are zeros in them. -/
structure Enlarged (M : Image) (root sz sz' f : Nat) (s : Phys) (own : Nat → Owner) (V : View) (t : Phys)
    (own' : Nat → Owner) (V' : View) : Prop
    extends Remapped M root (fun v => sz ≤ v * PGSIZE ∧ v * PGSIZE < sz') s own V t own' V' where
  space : Space M t own' root V' sz'
  fresh : ∀ v, sz ≤ v * PGSIZE → v * PGSIZE < sz' → ∃ b, Page M b ∧ own' b = .user root v ∧ V'.leaf v = entry b f ∧
    ∀ i, i < PGSIZE → t.mem (b + i) = 0
  held : HoldsNoMore M own own'

/-- What `uvmalloc` leaves when it fails: the user memory as it was. -/
structure Unchanged (M : Image) (root sz : Nat) (s : Phys) (own : Nat → Owner) (V : View) (t : Phys) (own' : Nat → Owner)
    (V' : View) : Prop extends Remapped M root (fun v => sz ≤ v * PGSIZE ∧ v < UPAGES) s own V t own' V' where
  space : Space M t own' root V' sz
  held : HoldsNoMore M own own'

theorem Unchanged.same (h : Space M s own root V sz) (h' : Unchanged M root sz s own V t own' V') (v : Nat) :
    V'.leaf v = V.leaf v := by
  by_cases hv : sz ≤ v * PGSIZE ∧ v < UPAGES
  · have hold : V.leaf v = 0 := by
      by_contra hne
      exact absurd ((h.low v hv.2).mp hne) (Nat.not_lt.mpr hv.1)
    have hnew : V'.leaf v = 0 := by
      by_contra hne
      exact absurd ((h'.space.low v hv.2).mp hne) (Nat.not_lt.mpr hv.1)
    rw [hold, hnew]
  · exact h'.leaf v hv

theorem Unchanged.after (h' : Unchanged M root sz t own' V' u own'' V'') (h : Remapped M root P s own V t own' V')
    (hPP : ∀ v, P v → sz ≤ v * PGSIZE ∧ v < UPAGES) (hheld : HoldsNoMore M own own') :
    Unchanged M root sz s own V u own'' V'' := ⟨(h.mono hPP).trans h'.toRemapped, h'.space, hheld.trans h'.held⟩

theorem Space.step (h : Space M s own root V sz) (ht : Remapped M root (fun _ => False) s own V t own' V') :
    Space M t own' root V' sz := by
  refine ⟨ht.heap, ht.rep, fun v hv => ?_⟩
  rw [ht.leaf v id, h.low v hv]

/-- After a failure the pages that were mapped are unmapped. -/
theorem undo_spec {v₀ : Nat} (h : Space M s own root V (v * PGSIZE)) (hle : v₀ ≤ v) {Q : Nat → Phys → Prop}
    (hQ : ∀ r t own' V', Unchanged M root (v₀ * PGSIZE) s own V t own' V' → Q r t) :
    Wp ok (uvmdealloc M root (v * PGSIZE) (v₀ * PGSIZE)) Q s := by
  obtain rfl | hlt := eq_or_lt_of_le hle
  · unfold uvmdealloc
    rw [if_pos le_rfl]
    exact Wp.pure (hQ _ s own V ⟨.refl h.heap h.rep, h, .refl⟩)
  · refine uvmdealloc_spec h (Nat.mul_lt_mul_of_pos_right hlt (by decide)) fun t own' V' ht => ?_
    exact hQ _ t own' V' ⟨ht.toRemapped.mono fun w hw => ⟨hw.1, h.page_lt hw.2⟩, ht.space, ht.held⟩

/-- A page is mapped after those before it. -/
theorem allocPage_spec {xperm : Nat} (h : Space M s own root V (v * PGSIZE)) (hf : Perm (PTE_R ||| PTE_U ||| xperm ||| PTE_V))
    {Q : Bool → Phys → Prop}
    (hfail : ∀ t own' V', Remapped M root (fun _ => False) s own V t own' V' → HoldsNoMore M own own' → Q false t)
    (hdone : ∀ t own' V' b, Remapped M root (· = v) s own V t own' V' → HoldsNoMore M own own' → v < UPAGES → Page M b →
      own' b = .user root v → V'.leaf v = entry b (PTE_R ||| PTE_U ||| xperm ||| PTE_V) →
      (∀ i, i < PGSIZE → t.mem (b + i) = 0) → Q true t) :
    Wp ok (allocPage M root (v * PGSIZE) xperm) Q s := by
  have hv : v < UPAGES := by
    have hsz := h.size_le
    show v < 2 ^ 26 - 2
    simp only [PGSIZE] at hsz
    omega
  have hzero : V.leaf v = 0 := by
    by_contra hne
    exact absurd ((h.low v hv).mp hne) (lt_irrefl _)
  unfold allocPage
  refine Wp.seq (kalloc_held (P := fun _ => False) h.heap h.rep (fun t ht => ?_) fun r t hr hfree ht => ?_)
  · rw [if_pos rfl]
    exact Wp.pure (hfail t own V ht .refl)
  have hself : Function.update own r .held r = .held := Function.update_self ..
  have hclear := ht.trans (remapped_write ht.heap ht.rep hr hself (memset_outside (v := 0)))
  rw [if_neg hr.ne_zero]
  refine Wp.poke_bind ?_
  refine Wp.seq (map_user hclear.heap hclear.rep hv hzero hr hself hf (fun u own' V' hg => ?_)
    fun u own' V' hu hleaf hown hbytes hheld => ?_)
  · -- There is no page for a table, and the new page goes back.
    have hheld : own' r = .held := by
      rw [hg.moves.kept r hr, hself]
      rw [hself]
      rintro (hcontra | ⟨l, d, hcontra⟩) <;> cases hcontra
    rw [if_pos (by decide)]
    refine Wp.seq (kfree_held (P := fun _ => False) hg.heap hg.rep hr hheld fun x hx => Wp.pure ?_)
    have hback : HoldsNoMore M own' (Function.update own' r .free) := .give (by rintro ⟨⟩)
    refine hfail x _ V' ((hclear.trans (.of_grown hg)).trans hx) ((hg.holdsNoMore.trans hback).of_held ?_)
    rw [Function.update_self]
    rintro ⟨⟩
  · rw [if_neg (by decide)]
    refine Wp.pure (hdone u own' V' r ((hclear.mono fun _ => False.elim).trans hu) (hheld.of_held (by rw [hown]; rintro ⟨⟩)) hv hr
      hown hleaf fun i hi => ?_)
    rw [hbytes i hi]
    exact memset_inside hi

theorem allocFrom_spec {v₀ newsz xperm : Nat} (hle : v₀ ≤ v) (h : Space M s own root V (v * PGSIZE))
    (hn : v + n = (newsz + 4095) / 4096) (hf : Perm (PTE_R ||| PTE_U ||| xperm ||| PTE_V)) {Q : Nat → Phys → Prop}
    (hfail : ∀ t own' V', Unchanged M root (v₀ * PGSIZE) s own V t own' V' → Q 0 t)
    (hdone : ∀ t own' V', Enlarged M root (v * PGSIZE) newsz (PTE_R ||| PTE_U ||| xperm ||| PTE_V) s own V t own' V' →
      Q newsz t) :
    Wp ok (allocFrom M root (v₀ * PGSIZE) newsz xperm n (v * PGSIZE)) Q s := by
  induction n generalizing s own V v with
  | zero =>
    have hpages : ∀ w, w * PGSIZE < v * PGSIZE ↔ w * PGSIZE < newsz := by
      intro w
      simp only [PGSIZE]
      omega
    refine Wp.pure (hdone s own V ⟨.refl h.heap h.rep, h.congr hpages, fun w hlo hhi => ?_, .refl⟩)
    exact absurd ((hpages w).mpr hhi) (Nat.not_lt.mpr hlo)
  | succ n ih =>
    have hin : v * PGSIZE < newsz := by
      simp only [PGSIZE]
      omega
    unfold allocFrom
    refine Wp.seq (allocPage_spec h hf (fun t own' V' ht hheld => ?_) fun t own' V' b ht hheld hv hb hown hleaf hzero => ?_)
    · refine Wp.seq (undo_spec (h.step ht) hle fun _ u own'' V'' hu => Wp.pure ?_)
      exact hfail u own'' V'' (hu.after ht (fun _ => False.elim) hheld)
    · have hnext : v * PGSIZE + PGSIZE = (v + 1) * PGSIZE := (Nat.succ_mul v PGSIZE).symm
      have hspace : Space M t own' root V' ((v + 1) * PGSIZE) := by
        refine ⟨ht.heap, ht.rep, fun w hw => ?_⟩
        obtain rfl | hne := eq_or_ne w v
        · rw [hleaf]
          exact ⟨fun _ => lt_next_page w, fun _ => hf.not_zero hb⟩
        · rw [ht.leaf w hne, h.low w hw]
          exact lt_next_page_iff hne
      rw [if_pos rfl, hnext]
      refine ih (by omega) hspace (by omega) (fun u own'' V'' hu => ?_) fun u own'' V'' hu => ?_
      · refine hfail u own'' V'' (hu.after ht ?_ hheld)
        rintro w rfl
        exact ⟨Nat.mul_le_mul_right _ hle, hv⟩
      · refine hdone u own'' V'' ⟨(ht.mono ?_).trans (hu.toRemapped.mono ?_), hu.space, fun w hlo hhi => ?_,
          hheld.trans hu.held⟩
        · rintro w rfl
          exact ⟨le_rfl, hin⟩
        · rintro w ⟨hlo, hhi⟩
          exact ⟨(lt_next_page v).le.trans hlo, hhi⟩
        · obtain rfl | hne := eq_or_ne w v
          · have hnot : ¬((w + 1) * PGSIZE ≤ w * PGSIZE ∧ w * PGSIZE < newsz) :=
              fun hand => absurd hand.1 (Nat.not_le.mpr (lt_next_page w))
            obtain ⟨hkeep, hsame⟩ := hu.user hb hown hnot
            refine ⟨b, hb, hkeep, (hu.leaf w hnot).trans hleaf, fun i hi => ?_⟩
            rw [hsame i hi, hzero i hi]
          · exact hu.fresh w (next_page_le hlo hne) hhi

theorem uvmalloc_spec {newsz xperm : Nat} (h : Space M s own root V sz) (hle : sz ≤ newsz)
    (hf : Perm (PTE_R ||| PTE_U ||| xperm ||| PTE_V)) {Q : Nat → Phys → Prop}
    (hfail : ∀ t own' V', Unchanged M root sz s own V t own' V' → Q 0 t)
    (hdone : ∀ t own' V', Enlarged M root sz newsz (PTE_R ||| PTE_U ||| xperm ||| PTE_V) s own V t own' V' → Q newsz t) :
    Wp ok (uvmalloc M root sz newsz xperm) Q s := by
  have hsz := h.size_le
  have hup : PGROUNDUP sz = (sz + 4095) / 4096 * PGSIZE := PGROUNDUP_eq (by omega)
  have hpages : ∀ w, sz ≤ w * PGSIZE ↔ (sz + 4095) / 4096 * PGSIZE ≤ w * PGSIZE := by
    intro w
    simp only [PGSIZE]
    omega
  have hspace : Space M s own root V ((sz + 4095) / 4096 * PGSIZE) :=
    h.congr fun w => by rw [← not_le, ← not_le, hpages w]
  have hn : (sz + 4095) / 4096 + (newsz + PGSIZE - 1 - (sz + 4095) / 4096 * PGSIZE) / PGSIZE = (newsz + 4095) / 4096 := by
    simp only [PGSIZE]
    omega
  unfold uvmalloc
  rw [if_neg (Nat.not_lt.mpr hle), hup]
  refine allocFrom_spec le_rfl hspace hn hf (fun t own' V' ht => ?_) fun t own' V' ht => ?_
  · refine hfail t own' V' ⟨ht.toRemapped.mono fun w hw => ⟨(hpages w).mpr hw.1, hw.2⟩, ht.space.congr fun w => ?_, ht.held⟩
    rw [← not_le, ← not_le, hpages w]
  · refine hdone t own' V' ⟨ht.toRemapped.mono fun w hw => ⟨(hpages w).mpr hw.1, hw.2⟩, ht.space, fun w hlo hhi => ?_, ht.held⟩
    exact ht.fresh w ((hpages w).mp hlo) hhi

end

end LabSO.Paging

import LabSO.Kernel.PagingHeap
import Mathlib.Data.Nat.Bitwise

/-! What a page table in memory stands for: its page-table pages and the entry of each virtual page. `walk` finds the entry of
    a virtual page, and makes the page-table pages above it if it may. -/

namespace LabSO.Paging
open Memory Program

/-! ### Entries -/

/-- The entry that maps a page with some flags. -/
def entry (pa f : Nat) : Nat := PA2PTE pa ||| f

/-- The flags of an entry for a page of user memory: it is valid, and more than a pointer to a table. -/
structure Perm (f : Nat) : Prop where
  lt : f < 1024
  valid : f &&& PTE_V ≠ 0
  readable : f &&& PTE_R ≠ 0

section
variable {M : Image} {pa f k x : Nat}

theorem entry_eq (hf : f < 1024) : entry pa f = pa / 4096 * 1024 + f := by
  rw [entry, PA2PTE, ← Nat.shiftLeft_add_eq_or_of_lt (i := 10) hf, Nat.shiftLeft_eq, Nat.shiftRight_eq_div_pow]

theorem and_low (hk : k < 1024) : x &&& k = x % 1024 &&& k := by
  have hmask : k = 1023 &&& k := by
    rw [Nat.and_comm]
    exact (Nat.and_two_pow_sub_one_of_lt_two_pow (n := 10) hk).symm
  calc x &&& k = x &&& (1023 &&& k) := by rw [← hmask]
    _ = x % 1024 &&& k := by rw [← Nat.and_assoc]; exact congrArg (· &&& k) (Nat.and_two_pow_sub_one_eq_mod x 10)

theorem entry_and (hf : f < 1024) (hk : k < 1024) : entry pa f &&& k = f &&& k := by
  rw [entry_eq hf, and_low hk, Nat.mul_add_mod_of_lt hf]

theorem entry_flags (hf : f < 1024) : PTE_FLAGS (entry pa f) = f := by
  rw [PTE_FLAGS, entry_and hf (by decide)]
  exact Nat.and_two_pow_sub_one_of_lt_two_pow (n := 10) hf

theorem PTE2PA_entry (hf : f < 1024) (hal : pa % 4096 = 0) (hpa : pa < 2 ^ 64) : PTE2PA (entry pa f) = pa := by
  rw [PTE2PA, entry_eq hf, Nat.shiftLeft_eq, Nat.shiftRight_eq_div_pow, wrap64]
  omega

theorem entry_lt (hf : f < 1024) (hpa : pa < 2 ^ 64) : entry pa f < 2 ^ 64 := by
  rw [entry_eq hf]
  omega

theorem Page.PTE2PA (h : Page M pa) (hf : f < 1024) : PTE2PA (entry pa f) = pa :=
  PTE2PA_entry hf h.bounds.1 (by have := h.bounds; omega)

theorem Page.entry_lt (h : Page M pa) (hf : f < 1024) : entry pa f < 2 ^ 64 := Paging.entry_lt hf (by have := h.bounds; omega)

theorem Page.entry_ne_zero (h : Page M pa) (hf : f < 1024) : entry pa f ≠ 0 := by
  have hb := h.bounds
  rw [entry_eq hf]
  omega

theorem entry_or (x y : Nat) : PA2PTE pa ||| x ||| y = entry pa (x ||| y) := Nat.or_assoc _ _ _

theorem Perm.ne_valid (h : Perm f) : f ≠ PTE_V := by
  rintro rfl
  exact h.readable rfl

end

/-! ### Page tables -/

/-- A page table: the address of the table of each level and index, and the entry of each virtual page; 0 where there is
    none. The table of level `l` with index `d` has the entries for the tables (or the pages) `512 * d`, ..,
    `512 * d + 511` of the level below. -/
structure View where
  tab : Nat → Nat → Nat
  leaf : Nat → Nat

/-- The entry that points to a table, if there is one. -/
def dirEntry (q : Nat) : Nat := if q = 0 then 0 else entry q PTE_V

/-- The entries of the tables of a level. -/
def View.word (V : View) : Nat → Nat → Nat
  | 0, x => V.leaf x
  | level + 1, x => dirEntry (V.tab level x)

/-- Where the entry of a virtual page is. -/
def View.slot (V : View) (v : Nat) : Nat := V.tab 0 (v / 512) + 8 * (v % 512)

/-- The number of virtual pages below `TRAPFRAME`. -/
def UPAGES : Nat := 2 ^ 26 - 2

/-- The owners that belong to a page table. -/
def Owner.For (root : Nat) : Owner → Prop
  | .table r _ _ => r = root
  | .user r _ => r = root
  | _ => False

/-- The page table at `root` is the one of the view. It has the pages of its tables and of the user memory that it maps, and no
    others. -/
structure Rep (M : Image) (m : Mem) (own : Nat → Owner) (root : Nat) (V : View) : Prop where
  root_ne : root ≠ 0
  tab_root : V.tab 2 0 = root
  top : ∀ {l d}, V.tab l d ≠ 0 → 2 ≤ l → l = 2 ∧ d = 0
  tab : ∀ {l d}, V.tab l d ≠ 0 → Page M (V.tab l d) ∧ own (V.tab l d) = .table root l d
  tab_of_own : ∀ {b l d}, Page M b → own b = .table root l d → V.tab l d = b
  word : ∀ {l d k}, V.tab l d ≠ 0 → k < 512 → load m (V.tab l d + 8 * k) 8 = V.word l (512 * d + k)
  above : ∀ {l x}, l ≤ 2 → V.word l x ≠ 0 → V.tab l (x / 512) ≠ 0
  user : ∀ {v}, v < UPAGES → V.leaf v ≠ 0 → ∃ b f, Page M b ∧ own b = .user root v ∧ Perm f ∧ V.leaf v = entry b f
  user_of_own : ∀ {b v}, Page M b → own b = .user root v → v < UPAGES ∧ ∃ f, Perm f ∧ V.leaf v = entry b f

section
variable {M : Image} {s t : Phys} {m m' : Mem} {own own' : Nat → Owner} {root va v x l d k : Nat} {V : View}
  {F : Owner → Prop} {ok : Halt → Prop}

theorem dirEntry_zero : dirEntry 0 = 0 := rfl

theorem dirEntry_of_ne {q : Nat} (h : q ≠ 0) : dirEntry q = entry q PTE_V := if_neg h

theorem PX_eq (l va : Nat) : PX l va = va / 4096 / 512 ^ l % 512 := by
  have hpow : 2 ^ (12 + 9 * l) = 4096 * 512 ^ l := by
    rw [pow_add, pow_mul]
    norm_num
  calc PX l va = va / 2 ^ (12 + 9 * l) % 512 := by
        rw [PX, Nat.shiftRight_eq_div_pow]
        exact Nat.and_two_pow_sub_one_eq_mod _ 9
    _ = va / 4096 / 512 ^ l % 512 := by rw [hpow, Nat.div_div_eq_div_mul]

/-- The index of the table of a level on the way to a virtual page, and the one of the entry in it. -/
theorem path_eq (l v : Nat) : 512 * (v / 512 ^ (l + 1)) + v / 512 ^ l % 512 = v / 512 ^ l := by
  rw [pow_succ, ← Nat.div_div_eq_div_mul]
  exact Nat.div_add_mod _ _

theorem path_div (l v : Nat) : v / 512 ^ l / 512 = v / 512 ^ (l + 1) := by
  rw [pow_succ, ← Nat.div_div_eq_div_mul]

namespace Rep

theorem tab_zero (h : Rep M m own root V) (hzero : V.tab l x = 0) (hl : l ≤ 2) (k : Nat) (hk : k / 512 = x) :
    V.word l k = 0 := by
  by_contra hne
  exact h.above hl hne (hk ▸ hzero)

/-- Below a table that there is not, no page is mapped. -/
theorem leaf_eq_zero (h : Rep M m own root V) (hl : l ≤ 2) (hzero : V.tab l (v / 512 ^ (l + 1)) = 0) : V.leaf v = 0 := by
  induction l with
  | zero => exact h.tab_zero hzero hl v (by rw [pow_one])
  | succ l ih =>
    refine ih (by omega) ?_
    have hword : V.word (l + 1) (v / 512 ^ (l + 1)) = 0 := h.tab_zero hzero hl _ (path_div (l + 1) v)
    by_contra hne
    rw [View.word, dirEntry_of_ne hne] at hword
    exact (h.tab hne).1.entry_ne_zero (by decide) hword

/-- The entry of a level on the way to a virtual page. -/
theorem load_path (h : Rep M m own root V) (hne : V.tab l (va / 4096 / 512 ^ (l + 1)) ≠ 0) :
    load m (V.tab l (va / 4096 / 512 ^ (l + 1)) + 8 * PX l va) 8 = V.word l (va / 4096 / 512 ^ l) := by
  have hk : va / 4096 / 512 ^ l % 512 < 512 := Nat.mod_lt _ (by decide)
  rw [PX_eq, h.word hne hk, path_eq]

/-- Other page tables, and what else is in memory, may change. -/
theorem frame (h : Rep M s.mem own root V) (hmv : Moves M F s own t own') (hF : ∀ o : Owner, o.For root → ¬F o) :
    Rep M t.mem own' root V where
  root_ne := h.root_ne
  tab_root := h.tab_root
  top := h.top
  tab {l d} hne := by
    obtain ⟨hpage, howner⟩ := h.tab hne
    refine ⟨hpage, ?_⟩
    rw [hmv.kept _ hpage (howner ▸ hF _ rfl), howner]
  tab_of_own {b l d} hpage howner := by
    have hback := hmv.back b hpage (howner ▸ hF _ rfl)
    exact h.tab_of_own hpage (hback ▸ howner)
  word {l d k} hne hk := by
    obtain ⟨hpage, howner⟩ := h.tab hne
    rw [← h.word hne hk]
    exact hmv.load hpage (howner ▸ hF _ rfl) (by simp only [PGSIZE]; omega)
  above := h.above
  user {v} hv hne := by
    obtain ⟨b, f, hpage, howner, hperm, hleaf⟩ := h.user hv hne
    refine ⟨b, f, hpage, ?_, hperm, hleaf⟩
    rw [hmv.kept _ hpage (howner ▸ hF _ rfl), howner]
  user_of_own {b v} hpage howner := by
    have hback := hmv.back b hpage (howner ▸ hF _ rfl)
    exact h.user_of_own hpage (hback ▸ howner)

end Rep

/-! ### Finding an entry -/

theorem walkFrom_find (h : Rep M s.mem own root V) (hl : l ≤ 2) (hne : V.tab l (va / 4096 / 512 ^ (l + 1)) ≠ 0)
    {Q : Nat → Phys → Prop} (hnone : V.leaf (va / 4096) = 0 → Q 0 s)
    (hsome : V.tab 0 (va / 4096 / 512) ≠ 0 → Q (V.slot (va / 4096)) s) :
    Wp ok (walkFrom false va l (V.tab l (va / 4096 / 512 ^ (l + 1)))) Q s := by
  induction l with
  | zero =>
    rw [zero_add, pow_one] at hne ⊢
    refine Wp.pure ?_
    have hslot : V.tab 0 (va / 4096 / 512) + 8 * PX 0 va = V.slot (va / 4096) := by
      rw [PX_eq, pow_zero, Nat.div_one, View.slot]
    rw [hslot]
    exact hsome hne
  | succ l ih =>
    refine Wp.peek_bind ?_
    rw [h.load_path hne, View.word]
    by_cases hz : V.tab l (va / 4096 / 512 ^ (l + 1)) = 0
    · rw [hz, dirEntry_zero, if_neg (by simp)]
      exact Wp.pure (hnone (h.leaf_eq_zero (by omega) hz))
    · have hpage := (h.tab hz).1
      rw [dirEntry_of_ne hz, if_pos (by rw [entry_and (by decide) (by decide)]; decide), hpage.PTE2PA (by decide)]
      exact ih (by omega) hz

/-- The entry of a virtual page, where there is a table for it; else the page is not mapped. -/
theorem walk_find (h : Rep M s.mem own root V) (hva : va < MAXVA) {Q : Nat → Phys → Prop}
    (hnone : V.leaf (va / 4096) = 0 → Q 0 s) (hsome : V.tab 0 (va / 4096 / 512) ≠ 0 → Q (V.slot (va / 4096)) s) :
    Wp ok (walk root va false) Q s := by
  have hidx : va / 4096 / 512 ^ 3 = 0 := by
    have : va < 2 ^ 38 := hva
    omega
  have htab : V.tab 2 (va / 4096 / 512 ^ (2 + 1)) = root := by rw [hidx, h.tab_root]
  unfold walk
  rw [if_neg (Nat.not_le.mpr hva), ← htab]
  exact walkFrom_find h le_rfl (htab ▸ h.root_ne) hnone hsome

/-! ### Making the tables for an entry -/

/-- The page table with one more table. -/
def View.addTable (V : View) (l x q : Nat) : View where
  tab l' x' := if l' = l ∧ x' = x then q else V.tab l' x'
  leaf := V.leaf

theorem View.addTable_self (V : View) (l x q : Nat) : (V.addTable l x q).tab l x = q := if_pos ⟨rfl, rfl⟩

theorem View.addTable_of_ne {l' x' q : Nat} (hne : ¬(l' = l ∧ x' = x)) : (V.addTable l x q).tab l' x' = V.tab l' x' :=
  if_neg hne

theorem View.addTable_word {q x' : Nat} (hne : ¬(d = l + 1 ∧ x' = x)) : (V.addTable l x q).word d x' = V.word d x' := by
  cases d with
  | zero => rfl
  | succ d =>
    rw [View.word, View.word, View.addTable_of_ne]
    rintro ⟨rfl, rfl⟩
    exact hne ⟨rfl, rfl⟩

/-- A free page that holds no entries becomes the table that an entry now points to. -/
theorem Rep.addTable (h : Rep M m own root V) {q : Nat} (hl : l < 2) (hzero : V.tab l x = 0)
    (hparent : V.tab (l + 1) (x / 512) ≠ 0) (hpage : Page M q) (hfree : own q = .free)
    (hm : ∀ b i l' d, Page M b → own b = .table root l' d → i < 512 → ¬(b = V.tab (l + 1) (x / 512) ∧ i = x % 512) →
      load m' (b + 8 * i) 8 = load m (b + 8 * i) 8)
    (hchild : ∀ i, i < 512 → load m' (q + 8 * i) 8 = 0)
    (hentry : load m' (V.tab (l + 1) (x / 512) + 8 * (x % 512)) 8 = entry q PTE_V) :
    Rep M m' (Function.update own q (.table root l x)) root (V.addTable l x q) where
  root_ne := h.root_ne
  tab_root := by
    rw [View.addTable_of_ne (by omega), h.tab_root]
  top {l' d} hne hle := by
    rw [View.addTable_of_ne (by omega)] at hne
    exact h.top hne hle
  tab {l' d} hne := by
    by_cases heq : l' = l ∧ d = x
    · obtain ⟨rfl, rfl⟩ := heq
      rw [View.addTable_self, Function.update_self]
      exact ⟨hpage, rfl⟩
    · rw [View.addTable_of_ne heq] at hne ⊢
      obtain ⟨hold, howner⟩ := h.tab hne
      refine ⟨hold, ?_⟩
      rw [Function.update_of_ne, howner]
      rintro heq
      rw [heq, hfree] at howner
      cases howner
  tab_of_own {b l' d} hb howner := by
    obtain rfl | hne := eq_or_ne b q
    · rw [Function.update_self] at howner
      cases howner
      exact View.addTable_self ..
    · rw [Function.update_of_ne hne] at howner
      have hold := h.tab_of_own hb howner
      rw [View.addTable_of_ne, hold]
      rintro ⟨rfl, rfl⟩
      exact hb.ne_zero (hold.symm.trans hzero)
  word {l' d k} hne hk := by
    by_cases heq : l' = l ∧ d = x
    · obtain ⟨rfl, rfl⟩ := heq
      have hword : V.word l' (512 * d + k) = 0 := h.tab_zero hzero (by omega) _ (by omega)
      rw [View.addTable_self, hchild k hk, View.addTable_word (by omega), hword]
    · rw [View.addTable_of_ne heq] at hne ⊢
      obtain ⟨hold, howner⟩ := h.tab hne
      by_cases hat : l' = l + 1 ∧ 512 * d + k = x
      · obtain ⟨rfl, hx⟩ := hat
        obtain ⟨rfl, rfl⟩ : d = x / 512 ∧ k = x % 512 := by omega
        rw [hentry, hx, View.word, View.addTable_self, dirEntry_of_ne hpage.ne_zero]
      · rw [View.addTable_word hat, ← h.word hne hk]
        refine hm _ k _ _ hold howner hk ?_
        rintro ⟨htab, rfl⟩
        have hown' := (h.tab hparent).2
        rw [← htab, howner] at hown'
        cases hown'
        exact hat ⟨rfl, by omega⟩
  above {l' x'} hle hne := by
    by_cases heq : l' = l ∧ x' / 512 = x
    · obtain ⟨rfl, rfl⟩ := heq
      rw [View.addTable_self]
      exact hpage.ne_zero
    · rw [View.addTable_of_ne heq]
      by_cases hat : l' = l + 1 ∧ x' = x
      · obtain ⟨rfl, rfl⟩ := hat
        exact hparent
      · rw [View.addTable_word hat] at hne
        exact h.above hle hne
  user {v} hv hne := by
    obtain ⟨b, f, hb, howner, hperm, hleaf⟩ := h.user hv hne
    refine ⟨b, f, hb, ?_, hperm, hleaf⟩
    rw [Function.update_of_ne, howner]
    rintro rfl
    rw [hfree] at howner
    cases howner
  user_of_own {b v} hb howner := by
    obtain rfl | hne := eq_or_ne b q
    · rw [Function.update_self] at howner
      cases howner
    · rw [Function.update_of_ne hne] at howner
      exact h.user_of_own hb howner

/-! ### Writing entries -/

theorem load_store_entry {b c i j y : Nat} (hb : Page M b) (hc : Page M c) (hi : i < 512) (hj : j < 512)
    (hne : ¬(b = c ∧ i = j)) : load (store m (c + 8 * j) 8 y) (b + 8 * i) 8 = load m (b + 8 * i) 8 := by
  refine load_store_of_disjoint ?_
  obtain rfl | hbc := eq_or_ne b c
  · have hij : i ≠ j := fun heq => hne ⟨rfl, heq⟩
    omega
  · rcases page_apart M b c hb hc hbc with hap | hap <;> simp only [PGSIZE] at hap <;> omega

theorem store_entry_outside {c j y : Nat} (hj : j < 512) (a : Nat) (h : ¬(c ≤ a ∧ a < c + PGSIZE)) :
    store m (c + 8 * j) 8 y a = m a := store_outside (by simp only [PGSIZE]; omega) a h

/-- What `walk` does to a page table: it has more tables, but maps the same. -/
structure Grown (M : Image) (root : Nat) (s : Phys) (own : Nat → Owner) (V : View) (t : Phys) (own' : Nat → Owner)
    (V' : View) : Prop where
  heap : Heap M t own'
  rep : Rep M t.mem own' root V'
  leaf : V'.leaf = V.leaf
  moves : Moves M (fun o => o = .free ∨ ∃ l d, o = .table root l d) s own t own'

theorem Grown.refl (hheap : Heap M s own) (h : Rep M s.mem own root V) : Grown M root s own V s own V :=
  ⟨hheap, h, rfl, .refl⟩

theorem Grown.trans {u : Phys} {own'' : Nat → Owner} {V' V'' : View} (h : Grown M root s own V t own' V')
    (h' : Grown M root t own' V' u own'' V'') : Grown M root s own V u own'' V'' :=
  ⟨h'.heap, h'.rep, h'.leaf.trans h.leaf, h.moves.trans h'.moves⟩

/-- A page that was free holds the table that was missing. -/
theorem grown_addTable {q : Nat} (h : Rep M s.mem own root V) (hl : l < 2) (hzero : V.tab l x = 0)
    (hparent : V.tab (l + 1) (x / 512) ≠ 0) (hpage : Page M q) (hfree : own q = .free)
    (hheap : Heap M t (Function.update own q (.table root l x)))
    (hmv : Moves M (fun o => o = .free ∨ o = .table root l x) s own t (Function.update own q (.table root l x))) :
    Grown M root s own V
      { t with mem := store (memset t.mem q 0 PGSIZE) (V.tab (l + 1) (x / 512) + 8 * (x % 512)) 8 (entry q PTE_V) }
      (Function.update own q (.table root l x)) (V.addTable l x q) := by
  obtain ⟨hpar, howner⟩ := h.tab hparent
  have hmod : x % 512 < 512 := Nat.mod_lt _ (by decide)
  have hneq : V.tab (l + 1) (x / 512) ≠ q := by
    intro heq
    rw [heq, hfree] at howner
    cases howner
  have hself : Function.update own q (.table root l x) q = .table root l x := Function.update_self ..
  have hother : Function.update own q (.table root l x) (V.tab (l + 1) (x / 512)) = .table root (l + 1) (x / 512) := by
    rw [Function.update_of_ne hneq, howner]
  have hwhole : ∀ j : Nat, j < 512 → 8 * j + 8 ≤ PGSIZE := by
    intro j hj
    simp only [PGSIZE]
    omega
  refine ⟨?_, ?_, rfl, ?_⟩
  · have hcleared : Heap M { t with mem := memset t.mem q 0 PGSIZE } (Function.update own q (.table root l x)) :=
      hheap.write hpage (by rw [hself]; rintro ⟨⟩) memset_outside
    exact hcleared.write hpar (by rw [hother]; rintro ⟨⟩) (store_entry_outside hmod)
  · refine h.addTable hl hzero hparent hpage hfree (fun b i l' d hb hown hi hne => ?_) (fun i hi => ?_) ?_
    · have hbq : b ≠ q := by
        rintro rfl
        rw [hfree] at hown
        cases hown
      have hnot : ¬(own b = .free ∨ own b = .table root l x) := by
        rw [hown]
        rintro (heq | heq)
        · cases heq
        · cases heq
          exact hb.ne_zero ((h.tab_of_own hb hown).symm.trans hzero)
      have hkeep : load t.mem (b + 8 * i) 8 = load s.mem (b + 8 * i) 8 := hmv.load hb hnot (hwhole i hi)
      rw [load_store_entry hb hpar hi hmod hne, ← hkeep]
      refine load_congr fun j hj => memset_of_not ?_
      have := hwhole i hi
      rcases page_apart M b q hb hpage hbq with hap | hap <;> omega
    · rw [load_store_entry hpage hpar hi hmod (fun heq => hneq heq.1.symm)]
      refine load_memset_zero fun j hj => ?_
      have := hwhole i hi
      omega
    · rw [load_store]
      exact Nat.mod_eq_of_lt (hpage.entry_lt (by decide))
  · refine (hmv.mono ?_).trans ((Frame.write (page_apart M) hpage ?_ memset_outside).trans
      (Frame.write (page_apart M) hpar ?_ (store_entry_outside hmod)))
    · rintro o (rfl | rfl)
      · exact .inl rfl
      · exact .inr ⟨_, _, rfl⟩
    · exact .inr ⟨_, _, hself⟩
    · exact .inr ⟨_, _, hother⟩

theorem walkFrom_alloc {pt : Nat} (hheap : Heap M s own) (h : Rep M s.mem own root V) (hl : l ≤ 2)
    (hpt : V.tab l (va / 4096 / 512 ^ (l + 1)) = pt) (hne : pt ≠ 0) {Q : Nat → Phys → Prop}
    (hnone : ∀ t own' V', Grown M root s own V t own' V' → Q 0 t)
    (hsome : ∀ t own' V', Grown M root s own V t own' V' → V'.tab 0 (va / 4096 / 512) ≠ 0 → Q (V'.slot (va / 4096)) t) :
    Wp ok (walkFrom true va l pt) Q s := by
  induction l generalizing s own V pt with
  | zero =>
    rw [zero_add, pow_one] at hpt
    refine Wp.pure ?_
    have hslot : pt + 8 * PX 0 va = V.slot (va / 4096) := by
      rw [PX_eq, pow_zero, Nat.div_one, View.slot, hpt]
    rw [hslot]
    exact hsome _ _ _ (.refl hheap h) (hpt ▸ hne)
  | succ l ih =>
    subst hpt
    refine Wp.peek_bind ?_
    rw [h.load_path hne, View.word]
    by_cases hz : V.tab l (va / 4096 / 512 ^ (l + 1)) = 0
    · rw [hz, dirEntry_zero, if_neg (by simp)]
      -- The table on the next level is missing, and a page is taken for it.
      refine Wp.seq (kalloc_spec (F := fun o => o = .free ∨ o = .table root l (va / 4096 / 512 ^ (l + 1)))
        (o := .table root l (va / 4096 / 512 ^ (l + 1))) hheap nofun (.inl rfl) (.inr rfl) (fun t hmem hheap' => ?_)
        fun q t hpage hfree hheap' hmv => ?_)
      · rw [if_pos rfl]
        refine Wp.pure (hnone t own V ⟨hheap', hmem ▸ h, rfl, ?_⟩)
        rw [Moves, hmem]
        exact .refl
      rw [if_neg hpage.ne_zero]
      refine Wp.poke_bind (Wp.poke_bind ?_)
      have hpx : PX (l + 1) va = va / 4096 / 512 ^ (l + 1) % 512 := PX_eq _ _
      rw [hpx, ← path_div]
      rw [← path_div] at hne
      have hgrown := grown_addTable h (by omega) hz hne hpage hfree hheap' hmv
      refine ih hgrown.heap hgrown.rep (by omega) (View.addTable_self ..) hpage.ne_zero ?_ ?_
      · exact fun u own' V' hg => hnone u own' V' (hgrown.trans hg)
      · exact fun u own' V' hg => hsome u own' V' (hgrown.trans hg)
    · have hpage := (h.tab hz).1
      rw [dirEntry_of_ne hz, if_pos (by rw [entry_and (by decide) (by decide)]; decide), hpage.PTE2PA (by decide)]
      exact ih hheap h (by omega) rfl hz hnone hsome

/-- `walk` finds or makes the table for a virtual page, or there is no page left. -/
theorem walk_alloc (hheap : Heap M s own) (h : Rep M s.mem own root V) (hva : va < MAXVA) {Q : Nat → Phys → Prop}
    (hnone : ∀ t own' V', Grown M root s own V t own' V' → Q 0 t)
    (hsome : ∀ t own' V', Grown M root s own V t own' V' → V'.tab 0 (va / 4096 / 512) ≠ 0 → Q (V'.slot (va / 4096)) t) :
    Wp ok (walk root va true) Q s := by
  have hidx : va / 4096 / 512 ^ 3 = 0 := by
    have : va < 2 ^ 38 := hva
    omega
  unfold walk
  rw [if_neg (Nat.not_le.mpr hva)]
  exact walkFrom_alloc hheap h le_rfl (by rw [hidx, h.tab_root]) h.root_ne hnone hsome

/-! ### Changing an entry -/

/-- The page table with another entry for a virtual page. -/
def View.setLeaf (V : View) (v x : Nat) : View := { V with leaf := Function.update V.leaf v x }

theorem View.setLeaf_self (V : View) (v x : Nat) : (V.setLeaf v x).leaf v = x := Function.update_self ..

theorem View.setLeaf_of_ne {v' : Nat} (hne : v' ≠ v) : (V.setLeaf v x).leaf v' = V.leaf v' := Function.update_of_ne hne ..

theorem View.setLeaf_word {x' : Nat} (hne : ¬(d = 0 ∧ x' = v)) : (V.setLeaf v x).word d x' = V.word d x' := by
  cases d with
  | zero => exact View.setLeaf_of_ne fun heq => hne ⟨rfl, heq⟩
  | succ d => rfl

/-- The entry of a virtual page is another one, and what it maps now is what the page table has for it. -/
theorem Rep.setLeaf (h : Rep M m own root V) (htab : V.tab 0 (v / 512) ≠ 0)
    (htable : ∀ b l d, Page M b → (own' b = .table root l d ↔ own b = .table root l d))
    (huser : ∀ b v', Page M b → v' ≠ v → (own' b = .user root v' ↔ own b = .user root v'))
    (hm : ∀ b i l d, Page M b → own b = .table root l d → i < 512 → ¬(b = V.tab 0 (v / 512) ∧ i = v % 512) →
      load m' (b + 8 * i) 8 = load m (b + 8 * i) 8)
    (hentry : load m' (V.slot v) 8 = x)
    (hnew : v < UPAGES → x ≠ 0 → ∃ b f, Page M b ∧ own' b = .user root v ∧ Perm f ∧ x = entry b f)
    (hback : ∀ b, Page M b → own' b = .user root v → v < UPAGES ∧ ∃ f, Perm f ∧ x = entry b f) :
    Rep M m' own' root (V.setLeaf v x) where
  root_ne := h.root_ne
  tab_root := h.tab_root
  top := h.top
  tab {l d} hne := by
    obtain ⟨hpage, howner⟩ := h.tab hne
    exact ⟨hpage, (htable _ l d hpage).mpr howner⟩
  tab_of_own {b l d} hpage howner := h.tab_of_own hpage ((htable b l d hpage).mp howner)
  word {l d k} hne hk := by
    obtain ⟨hpage, howner⟩ := h.tab hne
    show load m' (V.tab l d + 8 * k) 8 = _
    by_cases hat : l = 0 ∧ 512 * d + k = v
    · obtain ⟨rfl, rfl⟩ := hat
      obtain ⟨hd, hk'⟩ : (512 * d + k) / 512 = d ∧ (512 * d + k) % 512 = k := by omega
      rw [View.slot, hd, hk'] at hentry
      rw [hentry]
      exact (View.setLeaf_self ..).symm
    · rw [View.setLeaf_word hat, ← h.word hne hk]
      refine hm _ k l d hpage howner hk ?_
      rintro ⟨heq, rfl⟩
      have hat' := (h.tab htab).2
      rw [← heq, howner] at hat'
      cases hat'
      exact hat ⟨rfl, by omega⟩
  above {l x'} hle hne := by
    by_cases hat : l = 0 ∧ x' = v
    · obtain ⟨rfl, rfl⟩ := hat
      exact htab
    · rw [View.setLeaf_word hat] at hne
      exact h.above hle hne
  user {v'} hv' hne := by
    obtain rfl | hv := eq_or_ne v' v
    · rw [View.setLeaf_self] at hne ⊢
      exact hnew hv' hne
    · rw [View.setLeaf_of_ne hv] at hne ⊢
      obtain ⟨b, f, hpage, howner, hperm, hleaf⟩ := h.user hv' hne
      exact ⟨b, f, hpage, (huser b v' hpage hv).mpr howner, hperm, hleaf⟩
  user_of_own {b v'} hpage howner := by
    obtain rfl | hv := eq_or_ne v' v
    · rw [View.setLeaf_self]
      exact hback b hpage howner
    · rw [View.setLeaf_of_ne hv]
      exact h.user_of_own hpage ((huser b v' hpage hv).mp howner)

/-- `storePte` at the place of an entry. -/
theorem Rep.load_slot (h : Rep M m own root V) (htab : V.tab 0 (v / 512) ≠ 0) : load m (V.slot v) 8 = V.leaf v := by
  rw [View.slot, h.word htab (Nat.mod_lt _ (by decide)), Nat.div_add_mod]
  rfl

theorem Rep.load_store_slot (h : Rep M m own root V) (htab : V.tab 0 (v / 512) ≠ 0) {b i y : Nat} (hb : Page M b)
    (hi : i < 512) (hne : ¬(b = V.tab 0 (v / 512) ∧ i = v % 512)) :
    load (store m (V.slot v) 8 y) (b + 8 * i) 8 = load m (b + 8 * i) 8 :=
  load_store_entry hb (h.tab htab).1 hi (Nat.mod_lt _ (by decide)) hne

end

end LabSO.Paging

import LabSO.Kernel.PageMap

/-! `walk` with `alloc`, `mappages` and `uvmunmap` on a page table as a finite map. What they need from memory is that the
    pages of the free list are in no other use. -/

namespace LabSO.Paging
open Memory Program

/-- The free list has these pages, each once. -/
structure FreeList (M : Image) (m : Mem) (head : Nat) (l : List Nat) : Prop where
  chain : Chain (fun b => load m b 8) head l
  nodup : l.Nodup
  page : ∀ b ∈ l, Page M b

/-- A page table, and a free list with none of its pages. -/
structure Ready (M : Image) (s : Phys) (root : Nat) : Prop where
  tree : Tree s.mem root
  unused : ∃ l, FreeList M s.mem s.freelist l ∧ ∀ p q, IsPath p → tableAt s.mem root p = some q → q ∉ l

/-- Since `s`, a call of `kalloc` has failed: it was to fail, or there was no page left. -/
def Starved (s t : Phys) : Prop := t.freelist = 0 ∨ ∃ before, s.failing = before ++ true :: t.failing

section
variable {M : Image} {s t u : Phys} {m m' : Mem} {root va q c i a y level : Nat} {p l : List Nat} {never : Halt → Prop}

theorem FreeList.congr (h : FreeList M m c l) (hm : ∀ b ∈ l, ∀ j, j < PGSIZE → m' (b + j) = m (b + j)) :
    FreeList M m' c l where
  chain := h.chain.congr fun b hb => load_congr fun j hj => hm b hb j (hj.trans_le (by decide))
  nodup := h.nodup
  page := h.page

/-- What changes in a page that is not free does not matter. -/
theorem FreeList.write (h : FreeList M m c l) (hq : q % PGSIZE = 0) (hnot : q ∉ l)
    (hm : ∀ x, ¬(q ≤ x ∧ x < q + PGSIZE) → m' x = m x) : FreeList M m' c l := by
  refine h.congr fun b hb j hj => hm _ fun hin => ?_
  rcases pages_apart (h.page b hb).1 hq (fun heq => hnot (heq ▸ hb)) with hap | hap
  · omega
  · omega

/-- `kalloc` fails, or takes the first page. -/
theorem kalloc_pop (h : FreeList M s.mem s.freelist l) {Q : Nat → Phys → Prop}
    (hnone : ∀ t, t.mem = s.mem → t.freelist = s.freelist → t.failing = s.failing.tail → Starved s t → Q 0 t)
    (hsome : ∀ r l' t, l = r :: l' → FreeList M t.mem t.freelist l' →
      (∀ x, ¬(r ≤ x ∧ x < r + PGSIZE) → t.mem x = s.mem x) → t.failing = s.failing.tail → Q r t) : Wp never kalloc Q s := by
  refine Wp.liftState ?_
  split
  · next hfail =>
    refine hnone _ rfl rfl rfl ?_
    rcases hfail with hhead | hzero
    · refine .inr ⟨[], ?_⟩
      cases hfailing : s.failing with
      | nil =>
        rw [hfailing] at hhead
        cases hhead
      | cons b rest =>
        rw [hfailing] at hhead
        cases hhead
        rfl
    · exact .inl hzero
  · next hneg =>
    have hne : s.freelist ≠ 0 := fun hz => hneg (Or.inr hz)
    obtain ⟨l', rfl, hrest⟩ := h.chain.inv hne
    obtain ⟨hnotin, hnodup⟩ := List.nodup_cons.mp h.nodup
    have hpage := h.page _ List.mem_cons_self
    refine hsome _ l' _ rfl ?_ (fun x hx => memset_of_not hx) rfl
    have hold : FreeList M s.mem (load s.mem s.freelist 8) l' :=
      ⟨hrest, hnodup, fun b hb => h.page b (List.mem_cons_of_mem _ hb)⟩
    exact hold.write hpage.1 hnotin fun x hx => memset_of_not hx

/-! ### `walk` with `alloc` -/

/-- From one state to another the page table maps the same, and there may be fewer free pages. -/
structure Same (M : Image) (root : Nat) (s t : Phys) : Prop where
  ready : Ready M t root
  lookup : ∀ va, lookup t.mem root va = lookup s.mem root va
  failing : ∃ before, s.failing = before ++ t.failing

theorem Same.refl (h : Ready M s root) : Same M root s s := ⟨h, fun _ => rfl, [], rfl⟩

theorem Same.trans (h : Same M root s t) (h' : Same M root t u) : Same M root s u := by
  obtain ⟨before, hb⟩ := h.failing
  obtain ⟨after, ha⟩ := h'.failing
  exact ⟨h'.ready, fun va => (h'.lookup va).trans (h.lookup va), before ++ after, by rw [hb, ha, List.append_assoc]⟩

theorem Starved.after (hf : ∃ before, s.failing = before ++ t.failing) (h : Starved t u) : Starved s u := by
  rcases h with hzero | ⟨after, ha⟩
  · exact .inl hzero
  · obtain ⟨before, hb⟩ := hf
    exact .inr ⟨before ++ after, by rw [hb, ha, List.append_assoc]⟩

theorem eq_tail_append (l : List Bool) : ∃ before, l = before ++ l.tail := by
  cases l with
  | nil => exact ⟨[], rfl⟩
  | cons b l => exact ⟨[b], rfl⟩

/-- A page from the free list, cleared, becomes a table. -/
theorem same_add (h : Ready M s root) (hl : FreeList M s.mem s.freelist (c :: l))
    (hfree : ∀ p q, IsPath p → tableAt s.mem root p = some q → q ∉ c :: l) (ht : FreeList M t.mem t.freelist l)
    (hm : ∀ x, ¬(c ≤ x ∧ x < c + PGSIZE) → t.mem x = s.mem x) (hfail : t.failing = s.failing.tail)
    (hpath : IsPath (i :: p)) (hq : tableAt s.mem root p = some q) (hmissing : child s.mem (q + 8 * i) = none) :
    Same M root s { t with mem := store (memset t.mem c 0 PGSIZE) (q + 8 * i) 8 (entry c PTE_V) } ∧
      tableAt (store (memset t.mem c 0 PGSIZE) (q + 8 * i) 8 (entry c PTE_V)) root (i :: p) = some c := by
  have hpage := hl.page c List.mem_cons_self
  have hbounds := hpage.bounds
  have hfresh : ∀ p, IsPath p → tableAt s.mem root p ≠ some c :=
    fun p hp hc => hfree p c hp hc List.mem_cons_self
  have hm' : ∀ x, ¬(c ≤ x ∧ x < c + PGSIZE) → memset t.mem c 0 PGSIZE x = s.mem x :=
    fun x hx => (memset_of_not hx).trans (hm x hx)
  have hkeep := frame_of_page h.tree.tables hpage.1 hfresh hm'
  have htab : ∀ p, IsPath p → tableAt (memset t.mem c 0 PGSIZE) root p = tableAt s.mem root p :=
    fun p hp => tableAt_frame hkeep hp
  have hi := hpath.head
  have hadd : Added (memset t.mem c 0 PGSIZE) root i p q c := by
    refine ⟨h.tree.congr htab, hpath, (htab p hpath.tail).trans hq, ?_, hpage.ne_zero, hpage.1, by omega, fun p hp => ?_, ?_⟩
    · have hload : load (memset t.mem c 0 PGSIZE) (q + 8 * i) 8 = load s.mem (q + 8 * i) 8 := by
        refine load_congr fun j hj => ?_
        rw [Nat.add_assoc]
        refine hkeep p q hpath.tail hq _ ?_
        simp only [PGSIZE]
        omega
      rw [child, hload]
      exact hmissing
    · rw [htab p hp]
      exact hfresh p hp
    · intro j hj
      exact if_pos ⟨Nat.le_add_right c j, by omega⟩
  obtain ⟨hcl, -⟩ := List.nodup_cons.mp hl.nodup
  have hqpage := h.tree.tables p q hpath.tail hq
  have hql : q ∉ l := fun hin => hfree p q hpath.tail hq (List.mem_cons_of_mem _ hin)
  refine ⟨⟨⟨hadd.tree_store, l, ?_, fun r q' hr hq' => ?_⟩, fun va => ?_, ?_⟩, ?_⟩
  · refine (ht.write hpage.1 hcl fun x hx => memset_of_not hx).write hqpage.2 hql fun x hx => store_of_not ?_
    simp only [PGSIZE] at hx
    omega
  · rw [hadd.tableAt hr] at hq'
    split at hq'
    · cases hq'
      exact hcl
    · rw [htab r hr] at hq'
      exact fun hin => hfree r q' hr hq' (List.mem_cons_of_mem _ hin)
  · rw [hadd.lookup, lookup_frame hkeep]
  · show ∃ before, s.failing = before ++ t.failing
    rw [hfail]
    exact eq_tail_append _
  · rw [hadd.tableAt hpath, if_pos rfl]

theorem walkFrom_make (h : Ready M s root) (hp : IsPath p) (hlen : p.length + level = 2) (hq : tableAt s.mem root p = some q)
    {Q : Nat → Phys → Prop} (hnone : ∀ t, Same M root s t → Starved s t → Q 0 t)
    (hsome : ∀ t q', Same M root s t → tableAt t.mem root (walkPath va level p) = some q' → Q (q' + 8 * PX 0 va) t) :
    Wp never (walkFrom true va level q) Q s := by
  induction level generalizing s p q with
  | zero => exact Wp.pure (hsome s q (.refl h) hq)
  | succ level ih =>
    have hpath : IsPath (PX (level + 1) va :: p) := hp.cons (by omega) (PX_lt _ _)
    have hnext : tableAt s.mem root (PX (level + 1) va :: p) = child s.mem (q + 8 * PX (level + 1) va) := by
      rw [tableAt, hq]
      rfl
    refine Wp.peek_bind ?_
    by_cases hv : load s.mem (q + 8 * PX (level + 1) va) 8 &&& PTE_V = 0
    · have hmissing : child s.mem (q + 8 * PX (level + 1) va) = none := if_neg (not_not.mpr hv)
      obtain ⟨l, hl, hfree⟩ := h.unused
      rw [if_neg (not_not.mpr hv), if_neg (by simp)]
      refine Wp.seq (kalloc_pop hl (fun t hmem hlist hfail hstarved => ?_) fun c l' t hcl ht hm hfail => ?_)
      · rw [if_pos rfl]
        refine Wp.pure (hnone t ⟨⟨hmem ▸ h.tree, l, ?_, ?_⟩, fun va => by rw [hmem], hfail ▸ eq_tail_append _⟩ hstarved)
        · rw [hmem, hlist]
          exact hl
        · rw [hmem]
          exact hfree
      · subst hcl
        obtain ⟨hsame, htable⟩ := same_add h hl hfree ht hm hfail hpath hq hmissing
        rw [if_neg (hl.page c List.mem_cons_self).ne_zero]
        refine Wp.poke_bind (Wp.poke_bind (ih hsame.ready hpath (by rw [List.length_cons]; omega) htable ?_ ?_))
        · exact fun u hu hstarved => hnone u (hsame.trans hu) (hstarved.after hsame.failing)
        · exact fun u q' hu hq' => hsome u q' (hsame.trans hu) hq'
    · rw [if_pos hv]
      refine ih h hpath (by rw [List.length_cons]; omega) ?_ hnone hsome
      rw [hnext, child, if_pos hv]

/-- `walk` finds or makes the place of the entry, or `kalloc` fails. -/
theorem walk_make (h : Ready M s root) (hva : va < MAXVA) {Q : Nat → Phys → Prop}
    (hnone : ∀ t, Same M root s t → Starved s t → Q 0 t)
    (hsome : ∀ t a, Same M root s t → slotOf t.mem root va = some a → Q a t) : Wp never (walk root va true) Q s := by
  unfold walk
  rw [if_neg (Nat.not_le.mpr hva)]
  refine walkFrom_make h isPath_nil rfl rfl hnone fun t q hsame hq => hsome t _ hsame ?_
  rw [slotOf, ← walkPath_root, hq]
  rfl

/-! ### `mappages` -/

theorem Ready.store (h : Ready M s root) (ha : slotOf s.mem root va = some a) :
    Ready M { s with mem := store s.mem a 8 y } root := by
  obtain ⟨l, hl, hfree⟩ := h.unused
  have hi := PX_lt 0 va
  refine ⟨h.tree.store ha, l, ?_, fun p q hp hq => ?_⟩
  · obtain ⟨q, hq, rfl⟩ := Option.map_eq_some_iff.mp ha
    have hqpage := h.tree.tables _ q (isPath_pathTo va) hq
    refine hl.write hqpage.2 (hfree _ q (isPath_pathTo va) hq) fun x hx => store_of_not ?_
    simp only [PGSIZE] at hx
    omega
  · exact hfree p q hp (tableAt_store h.tree ha hp ▸ hq)

theorem not_valid_of_lookup (hva : va < MAXVA) (ha : slotOf m root va = some a) (h : lookup m root va = none) :
    load m a 8 &&& PTE_V = 0 := by
  rw [lookup_of_lt hva, ha, Option.bind_some, validPte] at h
  by_contra hne
  rw [if_pos hne] at h
  cases h

theorem slotOf_of_lookup (h : lookup m root va = some y) : ∃ a, slotOf m root va = some a ∧ load m a 8 = y := by
  have hvalid := valid_of_lookup h
  rw [lookup_of_lt (lt_of_lookup h)] at h
  obtain ⟨a, ha, hy⟩ := Option.bind_eq_some_iff.mp h
  rw [validPte] at hy
  split at hy
  · exact ⟨a, ha, Option.some.inj hy⟩
  · cases hy

theorem flags_valid (perm : Nat) : (perm ||| PTE_V) &&& PTE_V ≠ 0 := by
  rw [Nat.and_or_distrib_right, Ne, Nat.or_eq_zero_iff]
  exact fun h => absurd h.2 (by decide)

theorem flags_lt {perm : Nat} (h : perm < 1024) : perm ||| PTE_V < 1024 := Nat.or_lt_two_pow (n := 10) h (by decide)

/-- The pages from the one of `a` on, in number `n`. -/
def InPages (a n x : Nat) : Prop := a / PGSIZE ≤ x / PGSIZE ∧ x / PGSIZE < a / PGSIZE + n

instance (a n x : Nat) : Decidable (InPages a n x) := inferInstanceAs (Decidable (_ ∧ _))

/-- The entry that `mappages` makes for an address, when the first page of the range is that of `a`. -/
def mappedEntry (a pa perm x : Nat) : Nat := entry (wrap64 (pa + (x / PGSIZE - a / PGSIZE) * PGSIZE)) (perm ||| PTE_V)

/-- What `mappages` leaves when it is done. -/
structure MappedTo (M : Image) (s : Phys) (root a n pa perm : Nat) (t : Phys) : Prop where
  ready : Ready M t root
  inside : ∀ x, InPages a n x → lookup t.mem root x = some (mappedEntry a pa perm x)
  outside : ∀ x, ¬InPages a n x → lookup t.mem root x = lookup s.mem root x
  failing : ∃ before, s.failing = before ++ t.failing

/-- The entry of one page is written. -/
theorem mappedTo_page {pa perm : Nat} (hsame : Same M root s t) (hva : va < MAXVA) (ha : slotOf t.mem root va = some a)
    (hpa : pa < 2 ^ 64) (hperm : perm < 1024) :
    MappedTo M s root va 1 pa perm { t with mem := store t.mem a 8 (entry pa (perm ||| PTE_V)) } := by
  have hlookup : ∀ x, lookup (store t.mem a 8 (entry pa (perm ||| PTE_V))) root x =
      if x / PGSIZE = va / PGSIZE then some (entry pa (perm ||| PTE_V)) else lookup s.mem root x := by
    intro x
    have hvalid : entry pa (perm ||| PTE_V) &&& PTE_V ≠ 0 := by
      rw [entry_and (flags_lt hperm) (by decide)]
      exact flags_valid perm
    rw [lookup_store hsame.ready.tree hva ha (entry_lt (flags_lt hperm) hpa), if_pos hvalid, hsame.lookup x]
  refine ⟨hsame.ready.store ha, fun x hx => ?_, fun x hx => ?_, hsame.failing⟩
  · have heq : x / PGSIZE = va / PGSIZE := by
      have h1 := hx.1
      have h2 := hx.2
      omega
    rw [hlookup, if_pos heq, mappedEntry, heq, Nat.sub_self, Nat.zero_mul, Nat.add_zero, wrap64, Nat.mod_eq_of_lt hpa]
  · have hne : x / PGSIZE ≠ va / PGSIZE := fun heq => hx ⟨heq.ge, by omega⟩
    rw [hlookup, if_neg hne]

theorem next_div (ha : a % PGSIZE = 0) : (a + PGSIZE) / PGSIZE = a / PGSIZE + 1 := Nat.add_div_right a (by decide)

theorem inPages_succ {n x : Nat} (ha : a % PGSIZE = 0) :
    InPages a (n + 1) x ↔ InPages a 1 x ∨ InPages (a + PGSIZE) n x := by
  rw [InPages, InPages, InPages, next_div ha]
  omega

theorem MappedTo.trans {pa perm n : Nat} (ha : a % PGSIZE = 0) (h : MappedTo M s root a 1 pa perm t)
    (h' : MappedTo M t root (a + PGSIZE) n (wrap64 (pa + PGSIZE)) perm u) : MappedTo M s root a (n + 1) pa perm u := by
  obtain ⟨before, hb⟩ := h.failing
  obtain ⟨after, haf⟩ := h'.failing
  refine ⟨h'.ready, fun x hx => ?_, fun x hx => ?_, before ++ after, by rw [hb, haf, List.append_assoc]⟩
  · by_cases hrest : InPages (a + PGSIZE) n x
    · have hle := hrest.1
      rw [next_div ha] at hle
      have haddr : wrap64 (wrap64 (pa + PGSIZE) + (x / PGSIZE - (a / PGSIZE + 1)) * PGSIZE)
          = wrap64 (pa + (x / PGSIZE - a / PGSIZE) * PGSIZE) := by
        simp only [wrap64, PGSIZE] at *
        omega
      rw [h'.inside x hrest, mappedEntry, mappedEntry, next_div ha, haddr]
    · rw [h'.outside x hrest]
      exact h.inside x (((inPages_succ ha).mp hx).resolve_right hrest)
  · obtain ⟨hfirst, hrest⟩ := not_or.mp (mt (inPages_succ ha).mpr hx)
    rw [h'.outside x hrest, h.outside x hfirst]

/-- One round of `mappages`. -/
theorem mapPage_spec {pa perm : Nat} (h : Ready M s root) (hva : va < MAXVA) (hpa : pa < 2 ^ 64) (hperm : perm < 1024)
    (hfree : lookup s.mem root va = none) {k : Vm Int} {Q : Int → Phys → Prop} (hnone : ∀ t, Starved s t → Q (-1) t)
    (hk : ∀ t, MappedTo M s root va 1 pa perm t → Wp never k Q t) :
    Wp never (do
      let pte ← walk root va true
      if pte = 0 then pure (-1)
      else do
        let old ← loadPte pte
        if old &&& PTE_V ≠ 0 then halt (.panic .remap)
        else do
          storePte pte (PA2PTE pa ||| perm ||| PTE_V)
          k) Q s := by
  refine Wp.seq (walk_make h hva (fun t hsame hstarved => ?_) fun t a hsame ha => ?_)
  · rw [if_pos rfl]
    exact Wp.pure (hnone t hstarved)
  · have hold := not_valid_of_lookup hva ha ((hsame.lookup va).trans hfree)
    rw [if_neg (slot_ne_zero hsame.ready.tree.tables ha)]
    refine Wp.peek_bind ?_
    rw [if_neg (not_not.mpr hold), entry_or]
    exact Wp.poke_bind (hk _ (mappedTo_page hsame hva ha hpa hperm))

theorem mapFrom_spec {pa perm more : Nat} (h : Ready M s root) (ha : a % PGSIZE = 0) (hmax : a + more * PGSIZE < MAXVA)
    (hpa : pa < 2 ^ 64) (hperm : perm < 1024) (hfree : ∀ x, InPages a (more + 1) x → lookup s.mem root x = none) :
    Wp never (mapFrom root perm more a pa)
      (fun r t => (r = 0 ∧ MappedTo M s root a (more + 1) pa perm t) ∨ (r = -1 ∧ Starved s t)) s := by
  have hfirst : lookup s.mem root a = none := hfree a ⟨le_rfl, by omega⟩
  induction more generalizing s a pa with
  | zero =>
    exact mapPage_spec h (by omega) hpa hperm hfirst (fun t hstarved => .inr ⟨rfl, hstarved⟩)
      fun t ht => Wp.pure (.inl ⟨rfl, ht⟩)
  | succ more ih =>
    have hlt : a + PGSIZE + more * PGSIZE < MAXVA := by
      rw [Nat.add_assoc, Nat.add_comm PGSIZE, ← Nat.succ_mul]
      exact hmax
    have hmax' : MAXVA < 2 ^ 64 := by decide
    refine mapPage_spec h (by omega) hpa hperm hfirst (fun t hstarved => .inr ⟨rfl, hstarved⟩) fun t ht => ?_
    have hwrap : wrap64 (a + PGSIZE) = a + PGSIZE := Nat.mod_eq_of_lt (by omega)
    have hfree' : ∀ x, InPages (a + PGSIZE) (more + 1) x → lookup t.mem root x = none := by
      intro x hx
      have hnot : ¬InPages a 1 x := by
        intro hin
        have h1 := hin.2
        have h2 := hx.1
        rw [next_div ha] at h2
        omega
      rw [ht.outside x hnot]
      exact hfree x ((inPages_succ ha).mpr (.inr hx))
    rw [hwrap]
    refine (ih ht.ready (by simp only [PGSIZE] at *; omega) hlt (Nat.mod_lt _ (by decide)) hfree'
      (hfree' _ ⟨le_rfl, by omega⟩)).mono ?_
    rintro r u (⟨hr, hu⟩ | ⟨hr, hstarved⟩)
    · exact .inl ⟨hr, ht.trans ha hu⟩
    · exact .inr ⟨hr, hstarved.after ht.failing⟩

/-! ### `uvmunmap` -/

/-- Pages with a mapping lose it. -/
theorem unmapFrom_spec {n : Nat} (h : Tree s.mem root) (ha : a % PGSIZE = 0) (hmax : a + n * PGSIZE ≤ MAXVA)
    (hmapped : ∀ x, InPages a n x → ∃ y, lookup s.mem root x = some y ∧ PTE_FLAGS y ≠ PTE_V) :
    Wp never (unmapFrom M root false n a)
      (fun _ t => (∀ x, InPages a n x → lookup t.mem root x = none) ∧
        ∀ x, ¬InPages a n x → lookup t.mem root x = lookup s.mem root x) s := by
  induction n generalizing s a with
  | zero => exact Wp.pure ⟨fun x hx => absurd hx.2 (by have := hx.1; omega), fun _ _ => rfl⟩
  | succ n ih =>
    have hva : a < MAXVA := by
      simp only [PGSIZE] at *
      omega
    obtain ⟨y, hy, hflags⟩ := hmapped a ⟨le_rfl, by omega⟩
    obtain ⟨slot, hslot, hload⟩ := slotOf_of_lookup hy
    refine Wp.seq (.of_returns (walk_returns hva) ?_)
    rw [hslot, Option.getD_some, if_neg (slot_ne_zero h.tables hslot)]
    refine Wp.peek_bind ?_
    rw [hload, if_neg (valid_of_lookup hy), if_neg hflags]
    refine Wp.seq (Wp.onlyIf (by rintro ⟨⟩) fun _ => Wp.poke_bind ?_)
    have hlookup : ∀ x, lookup (store s.mem slot 8 0) root x =
        if x / PGSIZE = a / PGSIZE then none else lookup s.mem root x :=
      fun x => lookup_store h hva hslot (by decide)
    have hother : ∀ x, InPages (a + PGSIZE) n x → ¬x / PGSIZE = a / PGSIZE := by
      intro x hx
      have := hx.1
      rw [next_div ha] at this
      omega
    refine (ih (h.store hslot) (by simp only [PGSIZE] at *; omega) (by simp only [PGSIZE] at *; omega) fun x hx => ?_).mono ?_
    · rw [hlookup, if_neg (hother x hx)]
      exact hmapped x ((inPages_succ ha).mpr (.inr hx))
    · rintro _ t ⟨hin, hout⟩
      refine ⟨fun x hx => ?_, fun x hx => ?_⟩
      · by_cases hrest : InPages (a + PGSIZE) n x
        · exact hin x hrest
        · obtain hfirst := ((inPages_succ ha).mp hx).resolve_right hrest
          rw [hout x hrest, hlookup, if_pos (by have h1 := hfirst.1; have h2 := hfirst.2; omega)]
      · obtain ⟨hfirst, hrest⟩ := not_or.mp (mt (inPages_succ ha).mpr hx)
        rw [hout x hrest, hlookup, if_neg fun heq => hfirst ⟨heq.ge, by omega⟩]

/-! ### The map -/

/-- The number of pages that the range `[va, va + size)` touches. -/
def rangePages (va size : Nat) : Nat := (va + size - 1) / PGSIZE - va / PGSIZE + 1

theorem inPages_round {n x : Nat} : InPages (PGROUNDDOWN va) n x ↔ InPages va n x := by
  rw [InPages, InPages, PGROUNDDOWN_div]

theorem mappages_spec {size pa perm : Nat} (h : Ready M s root) (hsize : 0 < size) (hmax : va + size ≤ MAXVA)
    (hpa : pa < 2 ^ 64) (hperm : perm < 1024) (hfree : ∀ x, InPages va (rangePages va size) x → lookup s.mem root x = none) :
    Wp never (mappages root va size pa perm)
      (fun r t => (r = 0 ∧ MappedTo M s root va (rangePages va size) pa perm t) ∨ (r = -1 ∧ Starved s t)) s := by
  have hlt : va + size ≤ 2 ^ 38 := hmax
  have hlast : PGROUNDDOWN (wrap64 (va + size - 1)) = (va + size - 1) / PGSIZE * PGSIZE := by
    rw [wrap64, Nat.mod_eq_of_lt (by omega), PGROUNDDOWN]
  have hmore : wrap64 ((va + size - 1) / PGSIZE * PGSIZE + 2 ^ 64 - PGROUNDDOWN va) / PGSIZE
      = (va + size - 1) / PGSIZE - va / PGSIZE := by
    simp only [wrap64, PGROUNDDOWN, PGSIZE]
    omega
  have hend : PGROUNDDOWN va + ((va + size - 1) / PGSIZE - va / PGSIZE) * PGSIZE < MAXVA := by
    show _ < 2 ^ 38
    simp only [PGROUNDDOWN, PGSIZE]
    omega
  unfold mappages
  simp only [if_neg hsize.ne', hlast, hmore]
  refine (mapFrom_spec h (PGROUNDDOWN_mod va) hend hpa hperm fun x hx => hfree x (inPages_round.mp hx)).mono ?_
  rintro r t (⟨hr, ht⟩ | hstarved)
  · refine .inl ⟨hr, ht.ready, fun x hx => ?_, fun x hx => ht.outside x (mt inPages_round.mp hx), ht.failing⟩
    rw [ht.inside x (inPages_round.mpr hx), mappedEntry, mappedEntry, PGROUNDDOWN_div]
  · exact .inr hstarved

theorem flags_ne {perm : Nat} (hne : perm ≠ 0)
    (hperm : perm ||| (PTE_R ||| PTE_W ||| PTE_X ||| PTE_U) = PTE_R ||| PTE_W ||| PTE_X ||| PTE_U) :
    perm < 1024 ∧ perm ||| PTE_V ≠ PTE_V := by
  have hle : perm ≤ PTE_R ||| PTE_W ||| PTE_X ||| PTE_U := hperm ▸ Nat.left_le_or
  have hlt : perm < 31 := Nat.lt_succ_of_le hle
  have hall : ∀ p : Fin 31, p.val ≠ 0 → p.val ||| (PTE_R ||| PTE_W ||| PTE_X ||| PTE_U) = PTE_R ||| PTE_W ||| PTE_X ||| PTE_U →
      p.val ||| PTE_V ≠ PTE_V := by decide
  exact ⟨by omega, hall ⟨perm, hlt⟩ hne hperm⟩

/-- Page tables are finite maps: `mappages` maps the pages of its range and changes nothing else, or `kalloc` has failed; and
    `uvmunmap` takes exactly these mappings away. -/
theorem mappages_map {size pa perm : Nat} (h : Ready M s root) (hsize : 0 < size) (hmax : va + size ≤ MAXVA)
    (hpa : pa < 2 ^ 64) (hne : perm ≠ 0)
    (hperm : perm ||| (PTE_R ||| PTE_W ||| PTE_X ||| PTE_U) = PTE_R ||| PTE_W ||| PTE_X ||| PTE_U)
    (hfree : ∀ x, InPages va (rangePages va size) x → lookup s.mem root x = none) :
    ∃ r t, Returns (mappages root va size pa perm) s r t ∧
      ((r = 0 ∧ Tree t.mem root ∧
          (∀ x, InPages va (rangePages va size) x → lookup t.mem root x = some (mappedEntry va pa perm x)) ∧
          (∀ x, ¬InPages va (rangePages va size) x → lookup t.mem root x = lookup s.mem root x) ∧
          ∃ u, Returns (uvmunmap M root (PGROUNDDOWN va) (rangePages va size) false) t () u ∧
            ∀ x, lookup u.mem root x = lookup s.mem root x) ∨
        (r = -1 ∧ Starved s t)) := by
  obtain ⟨hlt, hvalid⟩ := flags_ne hne hperm
  obtain ⟨r, t, hret, hresult⟩ := (mappages_spec h hsize hmax hpa hlt hfree).returns fun _ : Halt => id
  refine ⟨r, t, hret, ?_⟩
  rcases hresult with ⟨hr, ht⟩ | hstarved
  · refine .inl ⟨hr, ht.ready.tree, ht.inside, ht.outside, ?_⟩
    have hmax' : va + size ≤ 2 ^ 38 := hmax
    have hend : PGROUNDDOWN va + rangePages va size * PGSIZE ≤ MAXVA := by
      show _ ≤ 2 ^ 38
      simp only [PGROUNDDOWN, rangePages, PGSIZE]
      omega
    have hpages : (wrap64 (PGROUNDDOWN va + rangePages va size * PGSIZE) - PGROUNDDOWN va) / PGSIZE = rangePages va size := by
      have hend' : PGROUNDDOWN va + rangePages va size * PGSIZE ≤ 2 ^ 38 := hend
      rw [wrap64, Nat.mod_eq_of_lt (by omega), Nat.add_sub_cancel_left]
      exact Nat.mul_div_cancel _ (by decide)
    have hmapped : ∀ x, InPages (PGROUNDDOWN va) (rangePages va size) x →
        ∃ y, lookup t.mem root x = some y ∧ PTE_FLAGS y ≠ PTE_V := by
      intro x hx
      refine ⟨_, ht.inside x (inPages_round.mp hx), ?_⟩
      rw [mappedEntry, entry_flags (flags_lt hlt)]
      exact hvalid
    obtain ⟨_, u, hu, hin, hout⟩ :=
      (unmapFrom_spec (M := M) ht.ready.tree (PGROUNDDOWN_mod va) hend hmapped).returns fun _ : Halt => id
    refine ⟨u, ?_, fun x => ?_⟩
    · unfold uvmunmap
      rw [if_neg (not_not.mpr (PGROUNDDOWN_mod va)), hpages]
      exact hu
    · by_cases hx : InPages va (rangePages va size) x
      · rw [hin x (inPages_round.mpr hx), hfree x hx]
      · rw [hout x (mt inPages_round.mp hx), ht.outside x hx]
  · exact .inr hstarved

end

/-- The kernel has two pages, the second one with the trampoline. -/
def twoPages : Image where
  kend := 0x80002000
  trampoline := 0x80001000
  aligned := by decide
  above := by decide
  below := by decide
  fits := by decide

/-- Memory is empty, up to the link between the two free pages. -/
def twoFree : Phys := { mem := store (fun _ => 0) 0x80003000 8 0x80004000, freelist := 0x80003000, failing := [] }

theorem twoFree_zero {a : Nat} (h : a + 8 ≤ 0x80003000 ∨ 0x80003008 ≤ a) : load twoFree.mem a 8 = 0 := by
  rw [show twoFree.mem = store (fun _ => 0) 0x80003000 8 0x80004000 from rfl, load_store_of_disjoint (by omega)]
  exact load_zero fun _ _ => rfl

theorem twoFree_child {i : Nat} (hi : i < 512) : child twoFree.mem (0x80002000 + 8 * i) = none := by
  rw [child, twoFree_zero (by omega)]
  rfl

theorem twoFree_ready : Ready twoPages twoFree 0x80002000 := by
  have htab := fun p (hp : IsPath p) (hne : p ≠ []) => tableAt_empty (fun i hi => twoFree_child hi) hp hne
  have hroot : ∀ p q, IsPath p → tableAt twoFree.mem 0x80002000 p = some q → p = [] ∧ q = 0x80002000 := by
    intro p q hp hq
    by_cases hne : p = []
    · subst hne
      cases hq
      exact ⟨rfl, rfl⟩
    · rw [htab p hp hne] at hq
      cases hq
  refine ⟨⟨fun p q hp hq => ?_, fun p p' q hp hp' hq hq' => ?_⟩, [0x80003000, 0x80004000], ⟨?_, by decide, by decide⟩, ?_⟩
  · obtain ⟨-, rfl⟩ := hroot p q hp hq
    decide
  · rw [(hroot p q hp hq).1, (hroot p' q hp' hq').1]
  · refine .cons (by decide) ?_
    rw [show load twoFree.mem twoFree.freelist 8 = 0x80004000 from load_store]
    refine .cons (by decide) ?_
    rw [twoFree_zero (by decide)]
    exact .nil
  · intro p q hp hq
    obtain ⟨-, rfl⟩ := hroot p q hp hq
    decide

/-- A range that begins within a page and ends in the next one. -/
theorem mappages_map_twoFree :
    ∃ r t, Returns (mappages 0x80002000 5 PGSIZE 0x80005000 (PTE_R ||| PTE_U)) twoFree r t ∧
      ((r = 0 ∧ Tree t.mem 0x80002000 ∧
          (∀ x, InPages 5 (rangePages 5 PGSIZE) x →
            lookup t.mem 0x80002000 x = some (mappedEntry 5 0x80005000 (PTE_R ||| PTE_U) x)) ∧
          (∀ x, ¬InPages 5 (rangePages 5 PGSIZE) x → lookup t.mem 0x80002000 x = lookup twoFree.mem 0x80002000 x) ∧
          ∃ u, Returns (uvmunmap twoPages 0x80002000 (PGROUNDDOWN 5) (rangePages 5 PGSIZE) false) t () u ∧
            ∀ x, lookup u.mem 0x80002000 x = lookup twoFree.mem 0x80002000 x) ∨
        (r = -1 ∧ Starved twoFree t)) :=
  mappages_map twoFree_ready (by decide) (by decide) (by decide) (by decide) (by decide) fun x _ =>
    lookup_empty (fun i hi => twoFree_child hi)

end LabSO.Paging

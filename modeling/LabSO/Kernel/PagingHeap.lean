import LabSO.Kernel.Paging

/-! Who owns the physical pages: the free list is a list of the pages that are free, and `kalloc` and `kfree` move a page
    from and to it. -/

namespace LabSO.Paging
open Memory Program

/-- Who has a page: the free list, the kernel from boot on, the call that runs, a page table for one of its own pages or for
    a page of user memory, a process for its trapframe, a pipe, or `sys_exec` for an argument. -/
inductive Owner
  | free
  | boot
  | held
  | table (root level index : Nat)
  | user (root page : Nat)
  | frame (p : Nat)
  | pipe
  | arg
  deriving DecidableEq

/-- The pages that the allocator deals with. -/
def Page (M : Image) (b : Nat) : Prop := b % PGSIZE = 0 ∧ M.kend ≤ b ∧ b < PHYSTOP

instance (M : Image) (b : Nat) : Decidable (Page M b) := 
  inferInstanceAs (Decidable (b % PGSIZE = 0 ∧ M.kend ≤ b ∧ b < PHYSTOP))

section
variable {M : Image} {b c : Nat}

theorem Page.bounds (h : Page M b) : b % 4096 = 0 ∧ 0x80001000 ≤ b ∧ b < 0x88000000 := by
  have habove : 0x80000000 ≤ M.trampoline := M.above
  have hbelow : M.trampoline + 4096 ≤ M.kend := M.below
  have hlo : M.kend ≤ b := h.2.1
  have hhi : b < 0x80000000 + 128 * 1024 * 1024 := h.2.2
  refine ⟨h.1, ?_, ?_⟩
  · omega
  · omega

theorem Page.ne_zero (h : Page M b) : b ≠ 0 := by
  have := h.bounds
  omega

theorem page_apart (M : Image) : Apart (Page M) PGSIZE := by
  intro b c hb hc hne
  have h := hb.bounds
  have h' := hc.bounds
  simp only [PGSIZE]
  omega

end

theorem PGROUNDUP_eq {sz : Nat} (h : sz ≤ 2 ^ 63) : PGROUNDUP sz = (sz + 4095) / 4096 * PGSIZE := by
  rw [PGROUNDUP, wrap64, Nat.mod_eq_of_lt (by simp only [PGSIZE]; omega), PGROUNDDOWN]
  rfl

/-- The free list has each free page once. -/
structure Heap (M : Image) (s : Phys) (own : Nat → Owner) : Prop where
  chain : ∃ l, Chain (fun b => load s.mem b 8) s.freelist l ∧ l.Nodup ∧ ∀ b, b ∈ l ↔ Page M b ∧ own b = .free

/-- From one state to another only pages with an owner in `F` change, and change hands among these. -/
abbrev Moves (M : Image) (F : Owner → Prop) (s : Phys) (own : Nat → Owner) (t : Phys) (own' : Nat → Owner) : Prop :=
  Frame (Page M) PGSIZE F s.mem own t.mem own'

section
variable {M : Image} {s t : Phys} {own own' : Nat → Owner} {F : Owner → Prop} {ok : Halt → Prop} {b pa k off : Nat}
  {o : Owner} {α β : Type}

theorem Heap.congr (h : Heap M s own) (hlist : t.freelist = s.freelist) (hmv : Moves M F s own t own') (hF : ¬F .free) :
    Heap M t own' := by
  obtain ⟨l, hchain, hnodup, hmem⟩ := h.chain
  refine ⟨l, ?_, hnodup, fun b => ?_⟩
  · rw [hlist]
    refine hchain.congr fun b hb => ?_
    obtain ⟨hpage, hfree⟩ := (hmem b).mp hb
    exact hmv.load hpage (hfree ▸ hF) (show 0 + 8 ≤ PGSIZE by decide)
  · rw [hmem b]
    refine and_congr_right fun hpage => ⟨fun hfree => ?_, fun hfree => ?_⟩
    · rw [hmv.kept b hpage (hfree ▸ hF), hfree]
    · rw [← hmv.back b hpage (hfree ▸ hF), hfree]

theorem Heap.of_eq (h : Heap M s own) (hmem : t.mem = s.mem) (hlist : t.freelist = s.freelist) : Heap M t own := by
  refine h.congr (F := fun _ => False) hlist ?_ id
  rw [Moves, hmem]
  exact .refl

/-- A page changes hands, but not from or to the free list. -/
theorem Heap.give (h : Heap M s own) (hne : own b ≠ .free) (ho : o ≠ .free) : Heap M s (Function.update own b o) :=
  h.congr (F := fun x => x = own b ∨ x = o) rfl (.give (.inl rfl) (.inr rfl)) fun hor => by
    rcases hor with hfree | hfree
    · exact hne hfree.symm
    · exact ho hfree.symm

/-! ### Memory -/

theorem Wp.peek_bind {f : Mem → α} {g : α → Vm β} {Q : β → Phys → Prop} (h : Wp ok (g (f s.mem)) Q s) :
    Wp ok (peek f >>= g) Q s := Wp.liftState_bind h

theorem Wp.poke {f : Mem → Mem} {Q : Unit → Phys → Prop} (h : Q () { s with mem := f s.mem }) : Wp ok (poke f) Q s :=
  Wp.liftState h

theorem Wp.poke_bind {f : Mem → Mem} {g : Unit → Vm β} {Q : β → Phys → Prop} (h : Wp ok (g ()) Q { s with mem := f s.mem }) :
    Wp ok (Paging.poke f >>= g) Q s := Wp.liftState_bind h

/-- A write within a page that is not free. -/
theorem Moves.write {m : Mem} (hpage : Page M b) (hF : F (own b)) (hm : ∀ a, ¬(b ≤ a ∧ a < b + PGSIZE) → m a = s.mem a) :
    Moves M F s own { s with mem := m } own := Frame.write (page_apart M) hpage hF hm

theorem Heap.write {m : Mem} (h : Heap M s own) (hpage : Page M b) (hne : own b ≠ .free)
    (hm : ∀ a, ¬(b ≤ a ∧ a < b + PGSIZE) → m a = s.mem a) : Heap M { s with mem := m } own :=
  h.congr (F := fun x => x = own b) rfl (Moves.write hpage rfl hm) fun hfree => hne hfree.symm

theorem memset_outside {m : Mem} {v : UInt8} (a : Nat) (h : ¬(b ≤ a ∧ a < b + PGSIZE)) : memset m b v PGSIZE a = m a :=
  memset_of_not h

theorem store_outside {m : Mem} {x : Nat} (hoff : off + k ≤ PGSIZE) (a : Nat) (h : ¬(b ≤ a ∧ a < b + PGSIZE)) :
    store m (b + off) k x a = m a := store_of_not (by omega)

/-! ### The allocator -/

/-- A page that `kalloc` gives was free, and goes to whom it is meant for. -/
theorem kalloc_spec {Q : Nat → Phys → Prop} (h : Heap M s own) (ho : o ≠ .free) (hF : F .free) (hFo : F o)
    (hnone : ∀ t, t.mem = s.mem → Heap M t own → Q 0 t)
    (hsome : ∀ r t, Page M r → own r = .free → Heap M t (Function.update own r o) →
      Moves M F s own t (Function.update own r o) → Q r t) : Wp ok kalloc Q s := by
  refine Wp.liftState ?_
  split
  · exact hnone _ rfl (h.of_eq rfl rfl)
  · next hneg =>
    have hne : s.freelist ≠ 0 := fun hz => hneg (Or.inr hz)
    obtain ⟨l, hchain, hnodup, hmem⟩ := h.chain
    obtain ⟨l', rfl, hrest⟩ := hchain.inv hne
    obtain ⟨hpage, hfree⟩ := (hmem s.freelist).mp List.mem_cons_self
    have hnotin : s.freelist ∉ l' := (List.nodup_cons.mp hnodup).1
    have hmv : Moves M F s own
        { mem := memset s.mem s.freelist 5 PGSIZE, freelist := load s.mem s.freelist 8, failing := s.failing.tail }
        (Function.update own s.freelist o) :=
      (Frame.write (page_apart M) hpage (hfree ▸ hF) memset_outside).trans (.give (hfree ▸ hF) hFo)
    refine hsome _ _ hpage hfree ⟨l', ?_, (List.nodup_cons.mp hnodup).2, fun b => ?_⟩ hmv
    · refine hrest.congr fun b hb => ?_
      have hb' := (hmem b).mp (List.mem_cons_of_mem _ hb)
      have hneb : b ≠ s.freelist := fun heq => hnotin (heq ▸ hb)
      refine load_congr fun i hi => memset_of_not ?_
      rcases page_apart M b _ hb'.1 hpage hneb with hap | hap <;> simp only [PGSIZE] at * <;> omega
    · obtain rfl | hneb := eq_or_ne b s.freelist
      · rw [Function.update_self]
        exact ⟨fun hb => absurd hb hnotin, fun hb => absurd hb.2 ho⟩
      · rw [Function.update_of_ne hneb, ← hmem b, List.mem_cons, or_iff_right hneb]

/-- A page that is not free goes to the free list. -/
theorem kfree_spec {Q : Unit → Phys → Prop} (h : Heap M s own) (hpage : Page M pa) (hne : own pa ≠ .free) (hF : F .free)
    (hFo : F (own pa))
    (hQ : ∀ t, Heap M t (Function.update own pa .free) → Moves M F s own t (Function.update own pa .free) → Q () t) :
    Wp ok (kfree M pa) Q s := by
  obtain ⟨hal, hlo, hhi⟩ := hpage
  have hpage : Page M pa := ⟨hal, hlo, hhi⟩
  unfold kfree
  rw [if_neg (by omega)]
  refine Wp.poke_bind (Wp.liftState ?_)
  obtain ⟨l, hchain, hnodup, hmem⟩ := h.chain
  have hnotin : pa ∉ l := fun hin => hne ((hmem pa).mp hin).2
  have hout : ∀ a, ¬(pa ≤ a ∧ a < pa + PGSIZE) → store (memset s.mem pa 1 PGSIZE) pa 8 s.freelist a = s.mem a :=
    fun a ha => (store_outside (show 0 + 8 ≤ PGSIZE by decide) a ha).trans (memset_outside a ha)
  have hlist : s.freelist < 256 ^ 8 := by
    by_cases hz : s.freelist = 0
    · omega
    · obtain ⟨l', rfl, -⟩ := hchain.inv hz
      have := ((hmem _).mp List.mem_cons_self).1.bounds
      omega
  refine hQ _ ⟨pa :: l, .cons hpage.ne_zero ?_, List.nodup_cons.mpr ⟨hnotin, hnodup⟩, fun b => ?_⟩ ?_
  · show Chain _ (load (store (memset s.mem pa 1 PGSIZE) pa 8 s.freelist) pa 8) l
    rw [load_store, Nat.mod_eq_of_lt hlist]
    refine hchain.congr fun b hb => ?_
    have hb' := (hmem b).mp hb
    have hneb : b ≠ pa := fun heq => hnotin (heq ▸ hb)
    refine load_congr fun i hi => hout _ ?_
    rcases page_apart M b _ hb'.1 hpage hneb with hap | hap <;> simp only [PGSIZE] at * <;> omega
  · obtain rfl | hneb := eq_or_ne b pa
    · rw [Function.update_self]
      exact ⟨fun _ => ⟨hpage, rfl⟩, fun _ => List.mem_cons_self⟩
    · rw [Function.update_of_ne hneb, ← hmem b, List.mem_cons, or_iff_right hneb]
  · exact (Frame.write (page_apart M) hpage hFo hout).trans (.give hFo hF)

end

end LabSO.Paging

import LabSO.Kernel.Uvm
import LabSO.Kernel.UserCopy
import LabSO.Kernel.PageMapping

/-! `sbrk` (`proc.c`, `sysproc.c`): it changes the size of a process and the user memory with it. A decrement below 0 changes
    nothing and yet gives the old size, as if it had succeeded. -/

namespace LabSO.Paging
open Memory Program

/-- What the kernel keeps about the user image of a process. -/
structure Proc where
  pagetable : Nat
  sz : Nat
  trapframe : Nat
  name : List UInt8

/-- The sum of a `uint64` and an `int`. -/
def addInt (x : Nat) (n : Int) : Nat := ((x + n) % 2 ^ 64).toNat

def growproc (M : Image) (p : Proc) (n : Int32) : Vm (Int × Proc) :=
  if 0 < n.toInt then do
    let sz ← uvmalloc M p.pagetable p.sz (addInt p.sz n.toInt) PTE_W
    if sz = 0 then pure (-1, p) else pure (0, { p with sz := sz })
  else if n.toInt < 0 then do
    let sz ← uvmdealloc M p.pagetable p.sz (addInt p.sz n.toInt)
    pure (0, { p with sz := sz })
  else pure (0, p)

/-- The value -1 as a `uint64`. -/
def MINUS1 : Nat := 2 ^ 64 - 1

def sys_sbrk (M : Image) (p : Proc) (n : Int32) : Vm (Nat × Proc) := do
  let (r, p') ← growproc M p n
  if r < 0 then pure (MINUS1, p') else pure (p.sz, p')

/-! ### What `sbrk` should do -/

/-- The byte at a mapped address. -/
def mappedByte (m : Mem) (root va : Nat) : Option UInt8 := (lookup m root va).map fun pte => m (PTE2PA pte + va % PGSIZE)

/-- The page is on the free list. -/
def OnFreeList (s : Phys) (b : Nat) : Prop := ∃ l, Chain (fun b => load s.mem b 8) s.freelist l ∧ b ∈ l

/-- The user address is mapped as before, to the same byte. -/
def SameAt (root : Nat) (s t : Phys) (va : Nat) : Prop :=
  lookup t.mem root va = lookup s.mem root va ∧ mappedByte t.mem root va = mappedByte s.mem root va

/-- `sbrk(n)` fails and leaves everything as it was, or it gives the old size and changes the size by `n`: new pages are mapped
    with zeros in them, pages that are no longer needed go to the free list, and the others stay. -/
def SbrkOk (s : Phys) (p : Proc) (n : Int) (r : Nat) (t : Phys) (p' : Proc) : Prop :=
  (r = MINUS1 ∧ p' = p ∧ (∀ va, lookup t.mem p.pagetable va = lookup s.mem p.pagetable va) ∧
    ∀ va, va < TRAPFRAME → SameAt p.pagetable s t va) ∨
  (r = p.sz ∧ p' = { p with sz := p'.sz } ∧ (p'.sz : Int) = p.sz + n ∧
    (∀ va, PGROUNDUP p.sz ≤ va → va < PGROUNDUP p'.sz → userByte t.mem p.pagetable va = some 0) ∧
    (∀ va, PGROUNDUP p'.sz ≤ va → va < PGROUNDUP p.sz → lookup t.mem p.pagetable va = none ∧
      ∀ pte, lookup s.mem p.pagetable va = some pte → OnFreeList t (PTE2PA pte)) ∧
    ∀ va, va < TRAPFRAME → (va < PGROUNDUP p.sz ∧ va < PGROUNDUP p'.sz ∨ PGROUNDUP p.sz ≤ va ∧ PGROUNDUP p'.sz ≤ va) →
      SameAt p.pagetable s t va)

section
variable {M : Image} {s t : Phys} {own own' : Nat → Owner} {V V' : View} {root va sz sz' f : Nat} {P : Nat → Prop} {p : Proc}

theorem div_lt_UPAGES (h : va < TRAPFRAME) : va / PGSIZE < UPAGES := by
  have hlt : va < 2 ^ 38 - 4096 - 4096 := h
  show va / 4096 < 2 ^ 26 - 2
  omega

theorem lt_PGROUNDUP_iff (h : sz ≤ 2 ^ 63) : va < PGROUNDUP sz ↔ va / PGSIZE * PGSIZE < sz := by
  rw [PGROUNDUP_eq h]
  simp only [PGSIZE]
  omega

/-- What is mapped at a page of user memory. -/
theorem Rep.lookup_user {m : Mem} (h : Rep M m own root V) (hva : va < TRAPFRAME) : Paging.lookup m root va =
    if V.leaf (va / PGSIZE) = 0 then none else some (V.leaf (va / PGSIZE)) := by
  have hmax : va < MAXVA := hva.trans (by decide)
  rw [h.lookup]
  by_cases hz : V.leaf (va / PGSIZE) = 0
  · rw [if_pos hz, if_neg (by rw [hz]; simp)]
  · obtain ⟨b, f, -, -, hf, hleaf⟩ := h.user (div_lt_UPAGES hva) hz
    have hvalid : V.leaf (va / PGSIZE) &&& PTE_V ≠ 0 := by
      rw [hleaf, entry_and hf.lt (by decide)]
      exact hf.valid
    rw [if_neg hz, if_pos ⟨hmax, hvalid⟩]

/-- Outside the pages that change, addresses are mapped as before. -/
theorem Remapped.sameAt (h : Rep M s.mem own root V) (ht : Remapped M root P s own V t own' V') (hva : va < TRAPFRAME)
    (hP : ¬P (va / PGSIZE)) : SameAt root s t va := by
  have hleaf := ht.leaf _ hP
  have hlookup : Paging.lookup t.mem root va = Paging.lookup s.mem root va := h.lookup_congr ht.rep hleaf
  refine ⟨hlookup, ?_⟩
  rw [mappedByte, mappedByte, hlookup, h.lookup_user hva]
  by_cases hz : V.leaf (va / PGSIZE) = 0
  · rw [if_pos hz]
    rfl
  · obtain ⟨b, f, hb, hown, hf, heq⟩ := h.user (div_lt_UPAGES hva) hz
    have hmod : va % PGSIZE < PGSIZE := Nat.mod_lt _ (by decide)
    rw [if_neg hz, Option.map_some, Option.map_some, heq, hb.PTE2PA hf.lt, (ht.user hb hown hP).2 _ hmod]

theorem Heap.onFreeList {b : Nat} (h : Heap M s own) (hb : Page M b) (hfree : own b = .free) : OnFreeList s b := by
  obtain ⟨l, hchain, -, hmem⟩ := h.chain
  exact ⟨l, hchain, (hmem b).mpr ⟨hb, hfree⟩⟩

theorem addInt_of_nonneg {x : Nat} {n : Int} (h : 0 ≤ (x : Int) + n) (hlt : (x : Int) + n < 2 ^ 64) :
    (addInt x n : Int) = x + n := by
  rw [addInt, Int.emod_eq_of_lt h hlt, Int.toNat_of_nonneg h]

/-- A sum below 0 wraps around. -/
theorem addInt_of_neg {x : Nat} {n : Int} (h : (x : Int) + n < 0) (hn : -2 ^ 31 ≤ n) : 2 ^ 63 ≤ addInt x n := by
  have hmod : ((x : Int) + n) % 2 ^ 64 = (x : Int) + n + 2 ^ 64 := by
    rw [← Int.add_emod_right, Int.emod_eq_of_lt (by omega) (by omega)]
  rw [addInt, hmod]
  omega

theorem perm_write : Perm (PTE_R ||| PTE_U ||| PTE_W ||| PTE_V) := ⟨by decide, by decide, by decide⟩

/-- An address that is mapped neither before nor after. -/
theorem sameAt_of_zero (h : Rep M s.mem own root V) (h' : Rep M t.mem own' root V') (hva : va < TRAPFRAME)
    (hz : V.leaf (va / PGSIZE) = 0) (hz' : V'.leaf (va / PGSIZE) = 0) : SameAt root s t va := by
  have hnone : lookup s.mem root va = none := by rw [h.lookup_user hva, if_pos hz]
  have hnone' : lookup t.mem root va = none := by rw [h'.lookup_user hva, if_pos hz']
  refine ⟨hnone'.trans hnone.symm, ?_⟩
  rw [mappedByte, mappedByte, hnone, hnone']
  rfl

/-- The byte at a user address. -/
theorem Rep.userByte_eq {b : Nat} (h : Rep M s.mem own root V) (hva : va < TRAPFRAME) (hb : Page M b) (hf : Perm f)
    (hU : f &&& PTE_U ≠ 0) (hleaf : V.leaf (va / PGSIZE) = entry b f) :
    userByte s.mem root va = some (s.mem (b + va % PGSIZE)) := by
  have huser : entry b f &&& PTE_U ≠ 0 := by rwa [entry_and hf.lt (by decide)]
  rw [userByte, translate, frameOf, h.lookup_user hva, hleaf, if_neg (hf.not_zero hb), Option.bind_some, if_pos huser,
    hb.PTE2PA hf.lt]
  rfl

theorem sbrk_zero : SbrkOk s p 0 p.sz s p :=
  .inr ⟨rfl, rfl, (Int.add_zero _).symm, fun _ hlo hhi => absurd hhi (Nat.not_lt.mpr hlo),
    fun _ hlo hhi => absurd hhi (Nat.not_lt.mpr hlo), fun _ _ _ => ⟨rfl, rfl⟩⟩

theorem sbrk_enlarged {n : Int} (h : Space M s own p.pagetable V p.sz) (hle : p.sz ≤ sz') (hsum : (sz' : Int) = p.sz + n)
    (ht : Enlarged M p.pagetable p.sz sz' (PTE_R ||| PTE_U ||| PTE_W ||| PTE_V) s own V t own' V') :
    SbrkOk s p n p.sz t { p with sz := sz' } := by
  have hsz := h.size_le
  have hsz' := ht.space.size_le
  have hlt : ∀ va, va < PGROUNDUP p.sz ↔ va / PGSIZE * PGSIZE < p.sz := fun va => lt_PGROUNDUP_iff (by omega)
  have hlt' : ∀ va, va < PGROUNDUP sz' ↔ va / PGSIZE * PGSIZE < sz' := fun va => lt_PGROUNDUP_iff (by omega)
  refine .inr ⟨rfl, rfl, hsum, fun va hlo hhi => ?_, fun va hlo hhi => ?_, fun va hva hor => ?_⟩
  · have hpage := (hlt' va).mp hhi
    have hva : va < TRAPFRAME := by
      have hv : va / 4096 < 2 ^ 26 - 2 := ht.space.page_lt hpage
      show va < 2 ^ 38 - 4096 - 4096
      omega
    obtain ⟨b, hb, -, hleaf, hzero⟩ := ht.fresh (va / PGSIZE) (Nat.not_lt.mp (mt (hlt va).mpr (Nat.not_lt.mpr hlo))) hpage
    rw [ht.rep.userByte_eq hva hb perm_write (by decide) hleaf, hzero _ (Nat.mod_lt _ (by decide))]
  · have hpage := (hlt va).mp hhi
    exact absurd ((hlt' va).mpr (hpage.trans_le hle)) (Nat.not_lt.mpr hlo)
  · refine Remapped.sameAt h.rep ht.toRemapped hva ?_
    rintro ⟨hlo, hhi⟩
    have hin := (hlt' va).mpr hhi
    have hout := mt (hlt va).mp (Nat.not_lt.mpr hlo)
    rcases hor with hor | hor
    · exact hout hor.1
    · exact absurd hin (Nat.not_lt.mpr hor.2)

theorem sbrk_shrunk {n : Int} (h : Space M s own p.pagetable V p.sz) (hle : sz' ≤ p.sz) (hsum : (sz' : Int) = p.sz + n)
    (ht : Shrunk M p.pagetable p.sz sz' s own V t own' V') : SbrkOk s p n p.sz t { p with sz := sz' } := by
  have hsz := h.size_le
  have hlt : ∀ va, va < PGROUNDUP p.sz ↔ va / PGSIZE * PGSIZE < p.sz := fun va => lt_PGROUNDUP_iff (by omega)
  have hlt' : ∀ va, va < PGROUNDUP sz' ↔ va / PGSIZE * PGSIZE < sz' := fun va => lt_PGROUNDUP_iff (by omega)
  refine .inr ⟨rfl, rfl, hsum, fun va hlo hhi => ?_, fun va hlo hhi => ?_, fun va hva hor => ?_⟩
  · have hpage := (hlt' va).mp hhi
    exact absurd ((hlt va).mpr (hpage.trans_le hle)) (Nat.not_lt.mpr hlo)
  · have hpage := (hlt va).mp hhi
    have hnot := Nat.not_lt.mp (mt (hlt' va).mpr (Nat.not_lt.mpr hlo))
    have hv := h.page_lt hpage
    have hva : va < TRAPFRAME := by
      have hv' : va / 4096 < 2 ^ 26 - 2 := hv
      show va < 2 ^ 38 - 4096 - 4096
      omega
    obtain ⟨b, f, hb, hown, hf, hleaf⟩ := h.rep.user hv ((h.low _ hv).mpr hpage)
    have hgone : V'.leaf (va / PGSIZE) = 0 := by
      by_contra hne
      exact absurd ((ht.space.low _ hv).mp hne) (Nat.not_lt.mpr hnot)
    refine ⟨by rw [ht.rep.lookup_user hva, if_pos hgone], fun pte hpte => ?_⟩
    rw [h.rep.lookup_user hva, hleaf, if_neg (hf.not_zero hb), Option.some.injEq] at hpte
    rw [← hpte, hb.PTE2PA hf.lt]
    exact ht.heap.onFreeList hb (ht.freed b _ hb hown hnot)
  · refine Remapped.sameAt h.rep ht.toRemapped hva ?_
    rintro ⟨hlo, hhi⟩
    have hin := (hlt va).mpr hhi
    have hout := mt (hlt' va).mp (Nat.not_lt.mpr hlo)
    rcases hor with hor | hor
    · exact hout hor.2
    · exact absurd hin (Nat.not_lt.mpr hor.1)

theorem sbrk_unchanged {n : Int} (h : Space M s own p.pagetable V p.sz) (ht : Unchanged M p.pagetable p.sz s own V t own' V') :
    SbrkOk s p n MINUS1 t p := by
  have hleaf := ht.same h
  refine .inl ⟨rfl, rfl, fun va => h.rep.lookup_congr ht.rep (hleaf _), fun va hva => ?_⟩
  by_cases hP : p.sz ≤ va / PGSIZE * PGSIZE ∧ va / PGSIZE < UPAGES
  · have hzero : V.leaf (va / PGSIZE) = 0 := by
      by_contra hne
      exact absurd ((h.low _ hP.2).mp hne) (Nat.not_lt.mpr hP.1)
    exact sameAt_of_zero h.rep ht.rep hva hzero ((hleaf _).trans hzero)
  · exact Remapped.sameAt h.rep ht.toRemapped hva hP

/-- Where the new size is not negative, `sbrk` does what it should. -/
theorem sbrk_spec (h : Space M s own p.pagetable V p.sz) {n : Int32} (hn : 0 ≤ (p.sz : Int) + n.toInt) :
    Wp (fun _ => False) (sys_sbrk M p n) (fun r t => SbrkOk s p n.toInt r.1 t r.2) s := by
  have hsz := h.size_le
  have hmax : n.toInt < 2 ^ 31 := n.toInt_lt
  have hsum : (addInt p.sz n.toInt : Int) = p.sz + n.toInt := addInt_of_nonneg hn (by omega)
  unfold sys_sbrk growproc
  by_cases hpos : 0 < n.toInt
  · rw [if_pos hpos]
    refine Wp.seq (Wp.seq (uvmalloc_spec h (by omega) perm_write (fun t own' V' ht => ?_) fun t own' V' ht => ?_))
    · rw [if_pos rfl]
      exact Wp.pure (Wp.pure (sbrk_unchanged h ht))
    · rw [if_neg (by omega)]
      exact Wp.pure (Wp.pure (sbrk_enlarged h (by omega) hsum ht))
  rw [if_neg hpos]
  by_cases hneg : n.toInt < 0
  · rw [if_pos hneg]
    refine Wp.seq (Wp.seq (uvmdealloc_spec h (by omega) fun t own' V' ht => ?_))
    exact Wp.pure (Wp.pure (sbrk_shrunk h (by omega) hsum ht))
  · rw [if_neg hneg]
    have hzero : n.toInt = 0 := by omega
    refine Wp.seq (Wp.pure (Wp.pure ?_))
    rw [hzero]
    exact sbrk_zero

/-- Below zero, nothing happens, and the old size comes back. -/
theorem sbrk_below (h : Space M s own p.pagetable V p.sz) {n : Int32} (hn : (p.sz : Int) + n.toInt < 0) :
    Returns (sys_sbrk M p n) s (p.sz, p) s := by
  have hsz := h.size_le
  have hmin : -2 ^ 31 ≤ n.toInt := n.le_toInt
  have hwrap := addInt_of_neg hn hmin
  have hdealloc : Returns (uvmdealloc M p.pagetable p.sz (addInt p.sz n.toInt)) s p.sz s := by
    unfold uvmdealloc
    rw [if_pos (by omega)]
    exact .pure
  have hgrow : Returns (growproc M p n) s (0, p) s := by
    unfold growproc
    rw [if_neg (by omega), if_pos (by omega)]
    exact hdealloc.bind .pure
  exact hgrow.bind .pure

theorem sbrk_not_ok (h : Space M s own p.pagetable V p.sz) {n : Int32} (hn : (p.sz : Int) + n.toInt < 0) :
    ¬∃ r p' t, Returns (sys_sbrk M p n) s (r, p') t ∧ SbrkOk s p n.toInt r t p' := by
  rintro ⟨r, p', t, hret, hok⟩
  have hsz := h.size_le
  have heq := hret.det (sbrk_below h hn)
  cases heq.1
  rcases hok with ⟨hr, -⟩ | ⟨-, -, hsum, -⟩
  · have hminus : p.sz = 2 ^ 64 - 1 := hr
    omega
  · omega

/-- `sbrk(n)` does what it should if and only if the size does not become negative. -/
theorem sbrk_iff (h : Space M s own p.pagetable V p.sz) (n : Int32) :
    (∃ r p' t, Returns (sys_sbrk M p n) s (r, p') t ∧ SbrkOk s p n.toInt r t p') ↔ 0 ≤ (p.sz : Int) + n.toInt := by
  constructor
  · intro hok
    by_contra hneg
    exact sbrk_not_ok h (by omega) hok
  · intro hn
    obtain ⟨⟨r, p'⟩, t, hret, hok⟩ := (sbrk_spec h hn).returns fun _ => id
    exact ⟨r, p', t, hret, hok⟩

end

/-- An empty page table, and four free pages. -/
def fourFree : Phys where
  mem := store (store (store (fun _ => 0) 0x80003000 8 0x80004000) 0x80004000 8 0x80005000) 0x80005000 8 0x80006000
  freelist := 0x80003000
  failing := []

def fourOwners (b : Nat) : Owner :=
  if b = 0x80002000 then .table 0x80002000 2 0
  else if b ∈ [0x80003000, 0x80004000, 0x80005000, 0x80006000] then .free
  else .boot

theorem fourFree_heap : Heap twoPages fourFree fourOwners := by
  refine ⟨[0x80003000, 0x80004000, 0x80005000, 0x80006000], ?_, by decide, fun b => ?_⟩
  · refine .cons (by decide) ?_
    rw [show load fourFree.mem fourFree.freelist 8 = 0x80004000 from rfl]
    refine .cons (by decide) ?_
    rw [show load fourFree.mem 0x80004000 8 = 0x80005000 from rfl]
    refine .cons (by decide) ?_
    rw [show load fourFree.mem 0x80005000 8 = 0x80006000 from rfl]
    refine .cons (by decide) ?_
    rw [show load fourFree.mem 0x80006000 8 = 0 from rfl]
    exact .nil
  · constructor
    · intro hb
      simp only [List.mem_cons, List.not_mem_nil, or_false] at hb
      rcases hb with rfl | rfl | rfl | rfl <;> exact ⟨by decide, rfl⟩
    · rintro ⟨-, hfree⟩
      rw [fourOwners] at hfree
      split at hfree
      · cases hfree
      · split at hfree
        · assumption
        · cases hfree

theorem fourFree_space : Space twoPages fourFree fourOwners 0x80002000 (.empty 0x80002000) 0 := by
  have hnot : ∀ b r v, fourOwners b ≠ .user r v := by
    intro b r v
    rw [fourOwners]
    split
    · nofun
    · split <;> nofun
  refine ⟨fourFree_heap, rep_empty (by decide) (fun j hj => ?_) rfl (fun b l d _ hb => ?_) fun b v _ => hnot b _ v, ?_⟩
  · simp only [PGSIZE] at hj
    show store _ _ _ _ _ = 0
    rw [store_of_not (by omega), store_of_not (by omega), store_of_not (by omega)]
  · rw [fourOwners] at hb
    split at hb
    · assumption
    · split at hb <;> cases hb
  · exact fun v _ => ⟨fun hne => absurd rfl hne, fun hlt => absurd hlt (Nat.not_lt_zero _)⟩

/-- A process with one page. -/
theorem onePage_space : ∃ s own V, Space twoPages s own 0x80002000 V PGSIZE := by
  have hdone : Wp (fun _ => False) (uvmalloc twoPages 0x80002000 0 PGSIZE PTE_W)
      (fun r t => r = PGSIZE → ∃ own V, Space twoPages t own 0x80002000 V PGSIZE) fourFree :=
    uvmalloc_spec fourFree_space (Nat.zero_le _) perm_write (fun t own V _ hr => absurd hr (by decide))
      fun t own V ht _ => ⟨own, V, ht.space⟩
  obtain ⟨r, t, hret, hspace⟩ := hdone.returns fun _ => id
  have heval : (uvmalloc twoPages 0x80002000 0 PGSIZE PTE_W fourFree).1 = .ok PGSIZE := by rfl
  rw [show uvmalloc twoPages 0x80002000 0 PGSIZE PTE_W fourFree = _ from hret] at heval
  cases heval
  obtain ⟨own, V, hspace⟩ := hspace rfl
  exact ⟨t, own, V, hspace⟩

/-- The whole page can be given back. -/
theorem sbrk_iff_onePage : ∃ (s : Phys) (p : Proc), p.sz = PGSIZE ∧
    ∃ r p' t, Returns (sys_sbrk twoPages p (-4096)) s (r, p') t ∧ SbrkOk s p (-4096) r t p' := by
  obtain ⟨s, own, V, hspace⟩ := onePage_space
  exact ⟨s, ⟨0x80002000, PGSIZE, 0, []⟩, rfl, (sbrk_iff (p := ⟨0x80002000, PGSIZE, 0, []⟩) hspace (-4096)).mpr (by decide)⟩

/-- One byte more, and `sbrk` says that it has given back what it has not. -/
theorem sbrk_too_much : ∃ (s : Phys) (own : Nat → Owner) (V : View) (p : Proc), p.sz = PGSIZE ∧
    Space twoPages s own p.pagetable V p.sz ∧ Returns (sys_sbrk twoPages p (-4097)) s (PGSIZE, p) s ∧
    ¬∃ r p' t, Returns (sys_sbrk twoPages p (-4097)) s (r, p') t ∧ SbrkOk s p (-4097) r t p' := by
  obtain ⟨s, own, V, hspace⟩ := onePage_space
  have hsum : ((⟨0x80002000, PGSIZE, 0, []⟩ : Proc).sz : Int) + (-4097 : Int32).toInt < 0 := by decide
  exact ⟨s, own, V, ⟨0x80002000, PGSIZE, 0, []⟩, rfl, hspace, sbrk_below hspace hsum, sbrk_not_ok hspace hsum⟩

end LabSO.Paging

import LabSO.Kernel.Sbrk

/-! What `copyout` does to user pages that the process itself could not write, such as those of program text. `walkaddr` only
    asks for `PTE_V` and `PTE_U`. -/

namespace LabSO.Paging
open Memory Program

/-- The permissions that `exec` gives the pages of a segment. -/
def flags2perm (flags : Nat) : Nat :=
  let perm := if flags &&& 1 ≠ 0 then PTE_X else 0
  if flags &&& 2 ≠ 0 then perm ||| PTE_W else perm

/-- The process itself could write there. -/
def Writable (m : Mem) (root va : Nat) : Prop := ∃ pte, lookup m root va = some pte ∧ pte &&& PTE_U ≠ 0 ∧ pte &&& PTE_W ≠ 0

/-- The page is mapped for the user, but not for writing. -/
def ReadOnly (m : Mem) (root va : Nat) : Prop := ∃ pte, lookup m root va = some pte ∧ pte &&& PTE_U ≠ 0 ∧ pte &&& PTE_W = 0

/-- From `s` to `t`, only bytes are changed that the process itself could write; and a call for a range that touches a page
    that it could not write fails, and leaves that page as it was. -/
structure Protects (s : Phys) (root va : Nat) (src : List UInt8) (r : Int) (t : Phys) : Prop where
  writable : ∀ x, t.mem x ≠ s.mem x → ∃ a, translate s.mem root a = some x ∧ Writable s.mem root a
  readOnly : ∀ i, i < src.length → ReadOnly s.mem root (va + i) → r = -1 ∧
    ∀ a x, a / PGSIZE = (va + i) / PGSIZE → translate s.mem root a = some x → t.mem x = s.mem x

/-- A page that is mapped for the user, but not for writing, comes after one that is missing; or else one that is missing
    comes later, and the bytes are those that are there already. -/
def Spares (m : Mem) (root va : Nat) (src : List UInt8) : Prop :=
  ∀ i (hi : i < src.length), Reached m root va i → ReadOnly m root (va + i) →
    userByte m root (va + i) = some src[i] ∧ ∃ k, k < src.length ∧ ¬Mapped m root (va + k)

section
variable {M : Image} {s t : Phys} {m : Mem} {own : Nat → Owner} {V : View} {root va a x i f : Nat} {src : List UInt8} {r : Int}
  {p : List Nat} {q : Nat}

theorem frameOf_of_lookup {pte : Nat} (h : lookup m root va = some pte) (hU : pte &&& PTE_U ≠ 0) :
    frameOf m root va = some (PTE2PA pte) := by
  rw [frameOf, h, Option.bind_some, if_pos hU]

theorem ReadOnly.mapped (h : ReadOnly m root va) : Mapped m root va := by
  obtain ⟨pte, hpte, hU, -⟩ := h
  exact mapped_iff.mpr ⟨_, frameOf_of_lookup hpte hU⟩

theorem ReadOnly.congr (h : ReadOnly m root va) (hpage : a / PGSIZE = va / PGSIZE) : ReadOnly m root a := by
  rwa [ReadOnly, lookup_congr hpage]

/-- A user page can be written or not. -/
theorem writable_or_readOnly (h : Mapped m root va) : Writable m root va ∨ ReadOnly m root va := by
  obtain ⟨f, hf⟩ := mapped_iff.mp h
  obtain ⟨pte, hpte, hU⟩ := Option.bind_eq_some_iff.mp hf
  split at hU
  · next hu =>
    by_cases hW : pte &&& PTE_W = 0
    · exact Or.inr ⟨pte, hpte, hu, hW⟩
    · exact Or.inl ⟨pte, hpte, hu, hW⟩
  · cases hU

theorem UserTable.translate_inj (h : UserTable m root) (ha : translate m root a = some x) (hva : translate m root va = some x) :
    a = va := by
  have hpage : a / PGSIZE = va / PGSIZE := by
    by_contra hne
    exact h.translate_ne hva hne ha
  obtain ⟨f, hf, rfl⟩ := Option.map_eq_some_iff.mp ha
  rw [frameOf_congr hpage] at hf
  rw [translate_eq hf, Option.some.injEq] at hva
  rw [← Nat.div_add_mod a PGSIZE, ← Nat.div_add_mod va PGSIZE, hpage]
  omega

/-! ### When a call keeps to the pages that the process could write -/

/-- A byte that is copied is at its place. -/
theorem Written.byte (h : Written s root va src r t) (hi : i < src.length) (hreached : Reached s.mem root va i) :
    ∃ x, translate s.mem root (va + i) = some x ∧ t.mem x = src[i] := by
  obtain ⟨f, hf⟩ := mapped_iff.mp (hreached i le_rfl)
  exact ⟨_, translate_eq hf, h.bytes i _ hi hreached (translate_eq hf)⟩

/-- What has changed was copied. -/
theorem Written.copies (h : Written s root va src r t) (hx : t.mem x ≠ s.mem x) :
    ∃ i, i < src.length ∧ Reached s.mem root va i ∧ translate s.mem root (va + i) = some x := by
  by_contra hnone
  exact hx (h.untouched x fun i hi hreached heq => hnone ⟨i, hi, hreached, heq⟩)

/-- Where a page is spared, its bytes stay as they are. -/
theorem Written.spares (h : Written s root va src r t) (hspares : Spares s.mem root va src) (hi : i < src.length)
    (hreached : Reached s.mem root va i) (hro : ReadOnly s.mem root (va + i)) (hx : translate s.mem root (va + i) = some x) :
    t.mem x = s.mem x := by
  obtain ⟨hbyte, -⟩ := hspares i hi hreached hro
  rw [userByte, hx, Option.map_some, Option.some.injEq] at hbyte
  rw [h.bytes i x hi hreached hx, hbyte]

theorem Written.protects (htable : UserTable s.mem root) (h : Written s root va src r t) (hspares : Spares s.mem root va src) :
    Protects s root va src r t where
  writable x hx := by
    obtain ⟨i, hi, hreached, heq⟩ := h.copies hx
    rcases writable_or_readOnly (hreached i le_rfl) with hw | hro
    · exact ⟨_, heq, hw⟩
    · exact absurd (h.spares hspares hi hreached hro heq) hx
  readOnly i hi hro := by
    refine ⟨?_, fun a x hpage hx => ?_⟩
    · rcases h.result with ⟨-, hall⟩ | ⟨hr, -⟩
      · obtain ⟨-, k, hk, hnot⟩ := hspares i hi (fun j hj => hall j (hj.trans_lt hi)) hro
        exact absurd (hall k hk) hnot
      · exact hr
    · by_contra hne
      obtain ⟨j, hj, hreached, heq⟩ := h.copies hne
      obtain rfl := htable.translate_inj hx heq
      exact hne (h.spares hspares hj hreached (hro.congr hpage) heq)

theorem Written.spares_of_protects (h : Written s root va src r t) (hp : Protects s root va src r t) :
    Spares s.mem root va src := by
  intro i hi hreached hro
  obtain ⟨hr, hkept⟩ := hp.readOnly i hi hro
  obtain ⟨x, hx, hbyte⟩ := h.byte hi hreached
  refine ⟨?_, ?_⟩
  · rw [userByte, hx, Option.map_some, ← hkept _ x rfl hx, hbyte]
  · rcases h.result with ⟨hzero, -⟩ | ⟨-, hmissing⟩
    · rw [hr] at hzero
      exact absurd hzero (by decide)
    · exact hmissing

/-- `copyout` keeps to the pages that the process itself could write in these cases, and in no others. -/
theorem copyout_protects_iff (h : UserTable s.mem root) (va : Nat) (src : List UInt8) :
    ∃ r t, Returns (copyout root va src) s r t ∧ (Protects s root va src r t ↔ Spares s.mem root va src) := by
  obtain ⟨r, t, hret, ht⟩ := copyoutLoop_writes h (le_refl src.length)
  exact ⟨r, t, hret, ht.spares_of_protects, ht.protects h⟩

/-- Two bytes go to the end of a page that the process could write. -/
theorem copyout_protects_onePage :
    ∃ r t, Returns (copyout 0x80002000 (PGSIZE - 2) [1, 2]) onePage r t ∧ Protects onePage 0x80002000 (PGSIZE - 2) [1, 2] r t := by
  obtain ⟨r, t, hret, hiff⟩ := copyout_protects_iff onePage_userTable (PGSIZE - 2) [1, 2]
  refine ⟨r, t, hret, hiff.mpr fun i _ _ hro => ?_⟩
  obtain ⟨pte, hpte, -, hW⟩ := hro
  rw [onePage_lookup] at hpte
  split at hpte
  · cases hpte
    exact absurd hW (by decide)
  · cases hpte

/-! ### Page tables that `uvmalloc` makes -/

/-- Page-table pages are those of the view. -/
theorem Rep.tab_of_tableAt (h : Rep M m own root V) (hp : IsPath p) (hq : tableAt m root p = some q) :
    q ≠ 0 ∧ ∃ l d, l + p.length = 2 ∧ V.tab l d = q := by
  induction p generalizing q with
  | nil =>
    cases hq
    exact ⟨h.root_ne, 2, 0, rfl, h.tab_root⟩
  | cons i p ih =>
    obtain ⟨hlength, hlt⟩ := hp
    rw [List.length_cons] at hlength
    obtain ⟨q', hq', hchild⟩ := Option.bind_eq_some_iff.mp hq
    obtain ⟨hne, l, d, hl, rfl⟩ := ih ⟨by omega, fun j hj => hlt j (List.mem_cons_of_mem _ hj)⟩ hq'
    obtain ⟨l, rfl⟩ := Nat.exists_eq_succ_of_ne_zero (show l ≠ 0 by omega)
    have hword := h.word hne (hlt i List.mem_cons_self)
    rw [Paging.child, hword, View.word] at hchild
    by_cases hz : V.tab l (512 * d + i) = 0
    · rw [hz, dirEntry_zero, if_neg (by simp)] at hchild
      cases hchild
    · rw [dirEntry_of_ne hz, if_pos (by rw [entry_and (by decide) (by decide)]; decide), (h.tab hz).1.PTE2PA (by decide),
        Option.some.injEq] at hchild
      exact ⟨hchild ▸ hz, l, _, by rw [List.length_cons]; omega, hchild⟩

/-- A page that the process can use is one that it owns. -/
theorem Rep.user_frame (h : Rep M m own root V) (hrest : ∀ v, UPAGES ≤ v → V.leaf v &&& PTE_U = 0)
    (hf : frameOf m root va = some f) : Page M f ∧ own f = .user root (va / PGSIZE) := by
  obtain ⟨pte, hpte, hU⟩ := Option.bind_eq_some_iff.mp hf
  rw [h.lookup] at hpte
  split at hpte
  · next hvalid =>
    cases hpte
    split at hU
    · next hu =>
      have hv : va / PGSIZE < UPAGES := by
        by_contra hge
        exact hu (hrest _ (Nat.not_lt.mp hge))
      have hne : V.leaf (va / PGSIZE) ≠ 0 := by
        intro hzero
        rw [hzero] at hu
        exact hu (Nat.zero_and _)
      obtain ⟨b, k, hb, hown, hk, hleaf⟩ := h.user hv hne
      rw [hleaf, hb.PTE2PA hk.lt, Option.some.injEq] at hU
      exact hU ▸ ⟨hb, hown⟩
    · cases hU
  · cases hpte

/-- A page table in which only user memory is open to the process. -/
theorem Rep.userTable (h : Rep M m own root V) (hrest : ∀ v, UPAGES ≤ v → V.leaf v &&& PTE_U = 0) : UserTable m root where
  tables p q hp hq := by
    obtain ⟨hne, l, d, -, rfl⟩ := h.tab_of_tableAt hp hq
    exact ⟨hne, (h.tab hne).1.bounds.1⟩
  ne_zero va f hf := (h.user_frame hrest hf).1.ne_zero
  apart va f hf p hp hq := by
    obtain ⟨hne, l, d, -, rfl⟩ := h.tab_of_tableAt hp hq
    have howner := (h.user_frame hrest hf).2
    rw [(h.tab hne).2] at howner
    cases howner
  distinct va va' f hf hf' := by
    have howner := (h.user_frame hrest hf).2
    rw [(h.user_frame hrest hf').2, Owner.user.injEq] at howner
    exact howner.2.symm

/-- A page of program text, as `exec` maps it. -/
theorem textPage : ∃ s, Returns (uvmalloc twoPages 0x80002000 0 PGSIZE (flags2perm 5)) fourFree PGSIZE s ∧
    UserTable s.mem 0x80002000 ∧ ReadOnly s.mem 0x80002000 0 ∧ userByte s.mem 0x80002000 0 = some 0 := by
  have hperm : Perm (PTE_R ||| PTE_U ||| flags2perm 5 ||| PTE_V) := ⟨by decide, by decide, by decide⟩
  have hdone : Wp (fun _ => False) (uvmalloc twoPages 0x80002000 0 PGSIZE (flags2perm 5)) (fun r t => r = PGSIZE →
      UserTable t.mem 0x80002000 ∧ ReadOnly t.mem 0x80002000 0 ∧ userByte t.mem 0x80002000 0 = some 0) fourFree := by
    refine uvmalloc_spec fourFree_space (Nat.zero_le _) hperm (fun t own V _ hr => absurd hr (by decide)) fun t own V ht _ => ?_
    obtain ⟨b, hb, hown, hleaf, hzero⟩ := ht.fresh 0 (Nat.zero_le _) (by decide)
    have hlookup : lookup t.mem 0x80002000 0 = some (entry b (PTE_R ||| PTE_U ||| flags2perm 5 ||| PTE_V)) := by
      rw [ht.rep.lookup, Nat.zero_div, hleaf, if_pos]
      exact ⟨by decide, by rw [entry_and (by decide) (by decide)]; decide⟩
    have hU : entry b (PTE_R ||| PTE_U ||| flags2perm 5 ||| PTE_V) &&& PTE_U ≠ 0 := by
      rw [entry_and (by decide) (by decide)]
      decide
    have hW : entry b (PTE_R ||| PTE_U ||| flags2perm 5 ||| PTE_V) &&& PTE_W = 0 := by
      rw [entry_and (by decide) (by decide)]
      decide
    refine ⟨ht.rep.userTable fun v hv => ?_, ⟨_, hlookup, hU, hW⟩, ?_⟩
    · have hfirst : PGSIZE ≤ v * PGSIZE := Nat.le_mul_of_pos_left _ (Nat.lt_of_lt_of_le (by decide) hv)
      rw [ht.leaf v fun hand => absurd hand.2 (Nat.not_lt.mpr hfirst)]
      exact Nat.zero_and _
    · have hf := frameOf_of_lookup hlookup hU
      rw [hb.PTE2PA (by decide)] at hf
      rw [userByte, translate_eq hf, Option.map_some, Nat.zero_mod, hzero 0 (by decide)]
  obtain ⟨r, s, hret, hs⟩ := hdone.returns fun _ => id
  have heval : (uvmalloc twoPages 0x80002000 0 PGSIZE (flags2perm 5) fourFree).1 = .ok PGSIZE := by rfl
  rw [show uvmalloc twoPages 0x80002000 0 PGSIZE (flags2perm 5) fourFree = _ from hret] at heval
  cases heval
  exact ⟨s, hret, hs rfl⟩

/-- A byte goes to the page of program text. -/
theorem not_copyout_protects : ∃ s, Returns (uvmalloc twoPages 0x80002000 0 PGSIZE (flags2perm 5)) fourFree PGSIZE s ∧
    ReadOnly s.mem 0x80002000 0 ∧ ∃ r t, Returns (copyout 0x80002000 0 [1]) s r t ∧ ¬Protects s 0x80002000 0 [1] r t := by
  obtain ⟨s, hret, htable, hro, hzero⟩ := textPage
  obtain ⟨r, t, hcopy, ht⟩ : ∃ r t, Returns (copyout 0x80002000 0 [1]) s r t ∧ Written s 0x80002000 0 [1] r t :=
    copyoutLoop_writes htable le_rfl
  refine ⟨s, hret, hro, r, t, hcopy, fun hp => ?_⟩
  obtain ⟨hbyte, -⟩ := ht.spares_of_protects hp 0 Nat.one_pos (fun j hj => by rw [Nat.le_zero.mp hj]; exact hro.mapped) hro
  rw [Nat.add_zero, hzero] at hbyte
  exact absurd hbyte (by decide)

end

end LabSO.Paging

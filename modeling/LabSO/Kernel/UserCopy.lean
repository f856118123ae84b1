import LabSO.Kernel.PageMap

/-! `copyout`, `copyin` and `copyinstr` byte by byte: they go page by page, and what they copy are the bytes at the user
    addresses of the range, as the page table translates each of them. -/

namespace LabSO.Paging
open Memory Program

/-- The physical page behind a user address. -/
def frameOf (m : Mem) (root va : Nat) : Option Nat :=
  (lookup m root va).bind fun pte => if pte &&& PTE_U ≠ 0 then some (PTE2PA pte) else none

/-- Where the byte at a user address is. -/
def translate (m : Mem) (root va : Nat) : Option Nat := (frameOf m root va).map (· + va % PGSIZE)

/-- The byte at a user address. -/
def userByte (m : Mem) (root va : Nat) : Option UInt8 := (translate m root va).map m

/-- The address is below `MAXVA` and its page is mapped with `PTE_V` and `PTE_U`. -/
def Mapped (m : Mem) (root va : Nat) : Prop :=
  va < MAXVA ∧ ∃ a, slotOf m root va = some a ∧ load m a 8 &&& PTE_V ≠ 0 ∧ load m a 8 &&& PTE_U ≠ 0

/-- Distinct user pages are backed by distinct physical pages, which are not those of the page table itself. -/
structure UserTable (m : Mem) (root : Nat) : Prop where
  tables : Tables m root
  ne_zero : ∀ va f, frameOf m root va = some f → f ≠ 0
  apart : ∀ va f, frameOf m root va = some f → ∀ p, IsPath p → tableAt m root p ≠ some f
  distinct : ∀ va va' f, frameOf m root va = some f → frameOf m root va' = some f → va / PGSIZE = va' / PGSIZE

section
variable {s t : Phys} {m m' : Mem} {root va va' f x i len max rounds : Nat} {src : List UInt8} {r : Int}

theorem PTE2PA_aligned (pte : Nat) : PTE2PA pte % PGSIZE = 0 := by
  simp only [PTE2PA, wrap64, Nat.shiftLeft_eq, PGSIZE]
  omega

theorem frameOf_aligned (h : frameOf m root va = some f) : f % PGSIZE = 0 := by
  obtain ⟨pte, -, hpte⟩ := Option.bind_eq_some_iff.mp h
  split at hpte
  · exact Option.some.inj hpte ▸ PTE2PA_aligned pte
  · cases hpte

theorem frameOf_congr (h : va / PGSIZE = va' / PGSIZE) : frameOf m root va = frameOf m root va' := by
  rw [frameOf, frameOf, lookup_congr h]

theorem lt_of_frameOf (h : frameOf m root va = some f) : va < MAXVA := by
  obtain ⟨pte, hpte, -⟩ := Option.bind_eq_some_iff.mp h
  exact lt_of_lookup hpte

theorem mapped_iff : Mapped m root va ↔ ∃ f, frameOf m root va = some f := by
  constructor
  · rintro ⟨hva, a, ha, hV, hU⟩
    refine ⟨PTE2PA (load m a 8), ?_⟩
    rw [frameOf, lookup_of_lt hva, ha, Option.bind_some, validPte, if_pos hV, Option.bind_some, if_pos hU]
  · rintro ⟨f, hf⟩
    obtain ⟨pte, hpte, hU⟩ := Option.bind_eq_some_iff.mp hf
    have hva := lt_of_lookup hpte
    rw [lookup_of_lt hva] at hpte
    obtain ⟨a, ha, hV⟩ := Option.bind_eq_some_iff.mp hpte
    rw [validPte] at hV
    split at hV
    · next hv =>
      cases hV
      split at hU
      · next hu => exact ⟨hva, a, ha, hv, hu⟩
      · cases hU
    · cases hV

theorem translate_eq (h : frameOf m root va = some f) : translate m root va = some (f + va % PGSIZE) := by
  rw [translate, h]
  rfl

/-- `walkaddr` gives the physical page. -/
theorem walkaddr_returns (h : Tables s.mem root) : Returns (walkaddr root va) s ((frameOf s.mem root va).getD 0) s := by
  unfold walkaddr
  by_cases hle : MAXVA ≤ va
  · rw [if_pos hle, frameOf, lookup_of_le hle]
    exact .pure
  have hva := Nat.not_le.mp hle
  rw [if_neg hle]
  refine (walk_returns hva).bind ?_
  rw [frameOf, lookup_of_lt hva]
  cases ha : slotOf s.mem root va with
  | none => exact .pure
  | some a =>
    rw [Option.getD_some, if_neg (slot_ne_zero h ha)]
    refine peek_returns.bind ?_
    rw [Option.bind_some, validPte]
    by_cases hV : load s.mem a 8 &&& PTE_V = 0
    · rw [if_pos hV, if_neg (not_not.mpr hV)]
      exact .pure
    rw [if_neg hV, if_pos hV, Option.bind_some]
    by_cases hU : load s.mem a 8 &&& PTE_U = 0
    · rw [if_pos hU, if_neg (not_not.mpr hU)]
      exact .pure
    · rw [if_neg hU, if_pos hU]
      exact .pure

/-! ### The part of a range in its first page -/

/-- The number of bytes that one round copies. -/
def chunk (va len : Nat) : Nat := min (PGSIZE - va % PGSIZE) len

theorem chunk_le : chunk va len ≤ len := Nat.min_le_right _ _

theorem chunk_fits : va % PGSIZE + chunk va len ≤ PGSIZE := by
  have hlt : va % PGSIZE < PGSIZE := Nat.mod_lt _ (by decide)
  simp only [chunk]
  omega

theorem chunk_pos (h : len ≠ 0) : 0 < chunk va len := by
  have hlt : va % PGSIZE < PGSIZE := Nat.mod_lt _ (by decide)
  simp only [chunk]
  omega

theorem div_of_lt_chunk (h : i < chunk va len) : (va + i) / PGSIZE = va / PGSIZE := by
  have hfits : va % PGSIZE + chunk va len ≤ PGSIZE := chunk_fits
  simp only [PGSIZE] at *
  omega

theorem mod_of_lt_chunk (h : i < chunk va len) : (va + i) % PGSIZE = va % PGSIZE + i := by
  have hfits : va % PGSIZE + chunk va len ≤ PGSIZE := chunk_fits
  simp only [PGSIZE] at *
  omega

/-- What is left starts at the next page. -/
theorem next_page (h : chunk va len < len) : PGROUNDDOWN va + PGSIZE = va + chunk va len := by
  simp only [chunk, PGROUNDDOWN, PGSIZE] at *
  omega

theorem div_ne_of_next (h : chunk va len < len) (hi : i < chunk va len) (j : Nat) :
    (va + chunk va len + j) / PGSIZE ≠ (va + i) / PGSIZE := by
  have hnext := next_page h
  rw [div_of_lt_chunk hi]
  simp only [PGROUNDDOWN, PGSIZE] at *
  omega

theorem translate_chunk (hf : frameOf m root va = some f) (hi : i < chunk va len) :
    translate m root (va + i) = some (f + va % PGSIZE + i) := by
  have hframe : frameOf m root (va + i) = some f := frameOf_congr (div_of_lt_chunk hi) ▸ hf
  rw [translate_eq hframe, mod_of_lt_chunk hi, Nat.add_assoc]

theorem wrap64_next (hf : frameOf m root va = some f) : wrap64 (PGROUNDDOWN va + PGSIZE) = PGROUNDDOWN va + PGSIZE := by
  have hlt : va < 2 ^ 38 := lt_of_frameOf hf
  have hle := PGROUNDDOWN_le va
  refine Nat.mod_eq_of_lt ?_
  simp only [PGSIZE]
  omega

/-- If the whole range is mapped then so is what is left after the first round. -/
theorem mapped_split (hf : frameOf m root va = some f) :
    (∀ i, i < len → Mapped m root (va + i)) ↔
      ∀ i, i < len - chunk va len → Mapped m root (va + chunk va len + i) := by
  constructor
  · intro h i hi
    rw [Nat.add_assoc]
    exact h _ (by omega)
  · intro h i hi
    by_cases hin : i < chunk va len
    · exact mapped_iff.mpr ⟨f, frameOf_congr (div_of_lt_chunk hin) ▸ hf⟩
    · have hrest := h (i - chunk va len) (by omega)
      rwa [Nat.add_assoc, Nat.add_sub_cancel' (Nat.not_lt.mp hin)] at hrest

theorem frameOf_round (va : Nat) : frameOf m root (PGROUNDDOWN va) = frameOf m root va :=
  frameOf_congr (PGROUNDDOWN_div va)

/-! ### A change in user pages -/

/-- Physical addresses of different user pages differ. -/
theorem UserTable.translate_ne (h : UserTable m root) (hx : translate m root va = some x)
    (hne : va' / PGSIZE ≠ va / PGSIZE) : translate m root va' ≠ some x := by
  intro hx'
  obtain ⟨f, hf, rfl⟩ := Option.map_eq_some_iff.mp hx
  obtain ⟨f', hf', heq⟩ := Option.map_eq_some_iff.mp hx'
  have hal := frameOf_aligned hf
  have hal' := frameOf_aligned hf'
  have hlt : va % PGSIZE < PGSIZE := Nat.mod_lt _ (by decide)
  have hlt' : va' % PGSIZE < PGSIZE := Nat.mod_lt _ (by decide)
  have hff : f' = f := by
    simp only [PGSIZE] at *
    omega
  exact hne (h.distinct _ _ _ (hff ▸ hf') hf)

/-- What is written to a user page does not change the page table. -/
theorem UserTable.frameOf_write (h : UserTable m root) (hf : frameOf m root va = some f)
    (hm : ∀ x, ¬(f ≤ x ∧ x < f + PGSIZE) → m' x = m x) (a : Nat) : frameOf m' root a = frameOf m root a := by
  rw [frameOf, frameOf, lookup_frame (frame_of_page h.tables (frameOf_aligned hf) (h.apart va f hf) hm)]

theorem UserTable.write (h : UserTable m root) (hf : frameOf m root va = some f)
    (hm : ∀ x, ¬(f ≤ x ∧ x < f + PGSIZE) → m' x = m x) : UserTable m' root := by
  have htab : ∀ p, IsPath p → tableAt m' root p = tableAt m root p :=
    fun p hp => tableAt_frame (frame_of_page h.tables (frameOf_aligned hf) (h.apart va f hf) hm) hp
  have hframe := h.frameOf_write hf hm
  refine ⟨h.tables.congr htab, fun va f hf => ?_, fun va f hf p hp => ?_, fun va va' f hf hf' => ?_⟩
  · exact h.ne_zero va f (hframe va ▸ hf)
  · rw [htab p hp]
    exact h.apart va f (hframe va ▸ hf) p hp
  · exact h.distinct va va' f (hframe va ▸ hf) (hframe va' ▸ hf')

/-! ### `copyout` -/

theorem blit_of_not {bytes : List UInt8} {a b : Nat} (h : ¬(a ≤ b ∧ b < a + bytes.length)) : blit m a bytes b = m b := by
  unfold blit
  split
  · rw [List.getElem?_eq_none (by omega), Option.getD_none]
  · rfl

theorem blit_get {bytes : List UInt8} {a : Nat} (hi : i < bytes.length) : blit m a bytes (a + i) = bytes[i] := by
  rw [blit, if_pos (Nat.le_add_right a i), Nat.add_sub_cancel_left, List.getElem?_eq_getElem hi, Option.getD_some]

/-- No page is missing up to the byte `i` of the range from `va` on. -/
def Reached (m : Mem) (root va i : Nat) : Prop := ∀ j, j ≤ i → Mapped m root (va + j)

theorem reached_of_lt_chunk (hf : frameOf m root va = some f) (hi : i < chunk va len) : Reached m root va i :=
  fun _ hj => mapped_iff.mpr ⟨f, frameOf_congr (div_of_lt_chunk (hj.trans_lt hi)) ▸ hf⟩

theorem reached_split (hf : frameOf m root va = some f) :
    Reached m root va (chunk va len + i) ↔ Reached m root (va + chunk va len) i := by
  constructor
  · intro h j hj
    rw [Nat.add_assoc]
    exact h _ (Nat.add_le_add_left hj _)
  · intro h j hj
    by_cases hin : j < chunk va len
    · exact reached_of_lt_chunk hf hin j le_rfl
    · have hrest := h (j - chunk va len) (by omega)
      rwa [Nat.add_assoc, Nat.add_sub_cancel' (Nat.not_lt.mp hin)] at hrest

/-- What `copyout` leaves: it has written the bytes up to the first page that is missing, and no others. -/
structure Written (s : Phys) (root va : Nat) (src : List UInt8) (r : Int) (t : Phys) : Prop where
  rest : t = { s with mem := t.mem }
  untouched : ∀ x, (∀ i, i < src.length → Reached s.mem root va i → translate s.mem root (va + i) ≠ some x) → t.mem x = s.mem x
  bytes : ∀ i x (hi : i < src.length), Reached s.mem root va i → translate s.mem root (va + i) = some x → t.mem x = src[i]
  result : (r = 0 ∧ ∀ i, i < src.length → Mapped s.mem root (va + i)) ∨ (r = -1 ∧ ∃ i, i < src.length ∧ ¬Mapped s.mem root (va + i))

theorem copyoutLoop_writes (h : UserTable s.mem root) (hrounds : src.length ≤ rounds) :
    ∃ r t, Returns (copyoutLoop root rounds va src) s r t ∧ Written s root va src r t := by
  induction rounds generalizing s va src with
  | zero =>
    obtain rfl : src = [] := List.eq_nil_of_length_eq_zero (Nat.le_zero.mp hrounds)
    exact ⟨0, s, .pure, rfl, fun _ _ => rfl, nofun, .inl ⟨rfl, nofun⟩⟩
  | succ rounds ih =>
    unfold copyoutLoop
    by_cases hnil : src = []
    · subst hnil
      rw [if_pos rfl]
      exact ⟨0, s, .pure, rfl, fun _ _ => rfl, nofun, .inl ⟨rfl, nofun⟩⟩
    have hlen : src.length ≠ 0 := fun heq => hnil (List.eq_nil_of_length_eq_zero heq)
    rw [if_neg hnil]
    have hwalk : Returns (walkaddr root (PGROUNDDOWN va)) s ((frameOf s.mem root va).getD 0) s :=
      frameOf_round va ▸ walkaddr_returns h.tables
    cases hf : frameOf s.mem root va with
    | none =>
      have hnot : ¬Mapped s.mem root (va + 0) := fun hmapped => by
        obtain ⟨f, hf'⟩ := mapped_iff.mp hmapped
        rw [Nat.add_zero, hf] at hf'
        cases hf'
      refine ⟨-1, s, hwalk.bind ?_, rfl, fun _ _ => rfl, fun i x hi hreached => ?_, .inr ⟨rfl, 0, by omega, hnot⟩⟩
      · rw [hf, Option.getD_none, if_pos rfl]
        exact .pure
      · exact absurd (hreached 0 (Nat.zero_le i)) hnot
    | some f =>
      have hchunk : min (PGSIZE - (va - PGROUNDDOWN va)) src.length = chunk va src.length := by
        rw [sub_PGROUNDDOWN, chunk]
      have hpos : 0 < chunk va src.length := chunk_pos hlen
      have hfits : va % PGSIZE + chunk va src.length ≤ PGSIZE := chunk_fits
      have hle : chunk va src.length ≤ src.length := chunk_le
      have hlength : (src.take (chunk va src.length)).length = chunk va src.length := by
        rw [List.length_take, Nat.min_eq_left hle]
      let m := blit s.mem (f + va % PGSIZE) (src.take (chunk va src.length))
      have hout : ∀ x, ¬(f + va % PGSIZE ≤ x ∧ x < f + va % PGSIZE + chunk va src.length) → m x = s.mem x := by
        intro x hx
        exact blit_of_not (by rwa [hlength])
      have hpage : ∀ x, ¬(f ≤ x ∧ x < f + PGSIZE) → m x = s.mem x := fun x hx => hout x (by omega)
      have hframe := h.frameOf_write hf hpage
      have htrans : ∀ a, translate m root a = translate s.mem root a := by
        intro a
        rw [translate, translate, hframe]
      have hmapped : ∀ a, Mapped m root a ↔ Mapped s.mem root a := by
        intro a
        rw [mapped_iff, mapped_iff, hframe]
      have hleft : (src.drop (chunk va src.length)).length ≤ rounds := by
        rw [List.length_drop]
        omega
      have htable : UserTable { s with mem := m }.mem root := h.write hf hpage
      obtain ⟨r, t, hret, hrest, huntouched, hbytes, hresult⟩ := @ih { s with mem := m } (wrap64 (PGROUNDDOWN va + PGSIZE)) _ htable hleft
      simp only [Reached, List.length_drop, htrans, hmapped, wrap64_next hf] at huntouched hbytes hresult
      -- What is left, if anything is, goes to the addresses after the first round.
      have hnext : ∀ i, i < src.length - chunk va src.length →
          PGROUNDDOWN va + PGSIZE + i = va + chunk va src.length + i := by
        intro i hi
        have hmore : chunk va src.length < src.length := by omega
        rw [next_page hmore]
      have hlater : ∀ i, i < src.length - chunk va src.length → (∀ j, j ≤ i → Mapped s.mem root (PGROUNDDOWN va + PGSIZE + j)) →
          Reached s.mem root va (chunk va src.length + i) := by
        intro i hi hall
        exact (reached_split hf).mpr fun j hj => hnext j (hj.trans_lt hi) ▸ hall j hj
      refine ⟨r, t, hwalk.bind ?_, hrest, fun x hx => ?_, fun i x hi hreached hx => ?_, ?_⟩
      · rw [hf, Option.getD_some, if_neg (h.ne_zero va f hf), hchunk, sub_PGROUNDDOWN]
        exact Returns.bind (show Returns (poke _) s () { s with mem := m } from rfl) hret
      · rw [huntouched x fun i hi hall => ?_, hout x fun hin => ?_]
        · have hi : x - (f + va % PGSIZE) < chunk va src.length := by omega
          refine hx _ (hi.trans_le hle) (reached_of_lt_chunk hf hi) ?_
          rw [translate_chunk hf hi, Nat.add_sub_cancel' hin.1]
        · rw [hnext i hi, Nat.add_assoc]
          exact hx _ (by omega) (hlater i hi hall)
      · by_cases hin : i < chunk va src.length
        · -- The later rounds write to other pages.
          have hx' : x = f + va % PGSIZE + i := by
            rw [translate_chunk hf hin] at hx
            exact (Option.some.inj hx).symm
          rw [huntouched x fun j hj _ => ?_, hx', show m (f + va % PGSIZE + i) = _ from blit_get (by rwa [hlength]),
            List.getElem_take]
          rw [hnext j hj]
          exact h.translate_ne hx (div_ne_of_next (by omega) hin j)
        · obtain ⟨k, rfl⟩ := Nat.exists_eq_add_of_le (Nat.not_lt.mp hin)
          have hk : k < src.length - chunk va src.length := by omega
          have hrest' : ∀ j, j ≤ k → Mapped s.mem root (PGROUNDDOWN va + PGSIZE + j) := by
            intro j hj
            rw [hnext j (hj.trans_lt hk)]
            exact (reached_split hf).mp hreached j hj
          rw [hbytes k x hk hrest', List.getElem_drop]
          rw [hnext k hk, Nat.add_assoc]
          exact hx
      · rcases hresult with ⟨hr, hall⟩ | ⟨hr, i, hi, hnot⟩
        · exact .inl ⟨hr, (mapped_split hf).mpr fun i hi => hnext i hi ▸ hall i hi⟩
        · refine .inr ⟨hr, chunk va src.length + i, by omega, ?_⟩
          rw [← Nat.add_assoc, ← hnext i hi]
          exact hnot

/-- What `copyout` leaves: it may only have written at the addresses of the range, and it has written all unless one of them
    is not mapped. -/
structure Copied (s : Phys) (root va : Nat) (src : List UInt8) (r : Int) (t : Phys) : Prop where
  rest : t = { s with mem := t.mem }
  outside : ∀ x, (∀ i, i < src.length → translate s.mem root (va + i) ≠ some x) → t.mem x = s.mem x
  result : (r = 0 ∧ (∀ i, i < src.length → Mapped s.mem root (va + i)) ∧
      ∀ i x (hi : i < src.length), translate s.mem root (va + i) = some x → t.mem x = src[i]) ∨
    (r = -1 ∧ ∃ i, i < src.length ∧ ¬Mapped s.mem root (va + i))

theorem Written.copied (h : Written s root va src r t) : Copied s root va src r t where
  rest := h.rest
  outside x hx := h.untouched x fun i hi _ => hx i hi
  result := h.result.imp_left fun ⟨hr, hall⟩ => ⟨hr, hall, fun i x hi hx => h.bytes i x hi (fun j hj => hall j (hj.trans_lt hi)) hx⟩

theorem copyoutLoop_spec (h : UserTable s.mem root) (hrounds : src.length ≤ rounds) :
    ∃ r t, Returns (copyoutLoop root rounds va src) s r t ∧ Copied s root va src r t := by
  obtain ⟨r, t, hret, ht⟩ := copyoutLoop_writes h hrounds
  exact ⟨r, t, hret, ht.copied⟩

/-! ### `copyin` -/

/-- The bytes are those at the user addresses from `va` on. -/
def Reads (m : Mem) (root va : Nat) (bytes : List UInt8) : Prop :=
  ∀ i (hi : i < bytes.length), userByte m root (va + i) = some bytes[i]

theorem Reads.append {xs ys : List UInt8} (h : Reads m root va xs) (h' : Reads m root (va + xs.length) ys) :
    Reads m root va (xs ++ ys) := by
  intro i hi
  by_cases hin : i < xs.length
  · rw [h i hin, List.getElem_append_left hin]
  · have hle := Nat.not_lt.mp hin
    rw [List.length_append] at hi
    have hread := h' (i - xs.length) (by omega)
    rw [Nat.add_assoc, Nat.add_sub_cancel' hle] at hread
    rw [hread, List.getElem_append_right hle]

theorem Reads.take {xs : List UInt8} (h : Reads m root va xs) (n : Nat) : Reads m root va (xs.take n) := by
  intro i hi
  rw [List.length_take] at hi
  rw [h i (by omega), List.getElem_take]

theorem mapped_of_userByte {b : UInt8} (h : userByte m root va = some b) : Mapped m root va := by
  obtain ⟨x, hx, -⟩ := Option.map_eq_some_iff.mp h
  obtain ⟨f, hf, -⟩ := Option.map_eq_some_iff.mp hx
  exact mapped_iff.mpr ⟨f, hf⟩

theorem Reads.mapped {bytes : List UInt8} (h : Reads m root va bytes) (hi : i < bytes.length) : Mapped m root (va + i) :=
  mapped_of_userByte (h i hi)

theorem length_bytesAt (m : Mem) (a n : Nat) : (bytesAt m a n).length = n := by simp [bytesAt]

/-- The bytes of a round. -/
theorem reads_chunk (hf : frameOf m root va = some f) :
    Reads m root va (bytesAt m (f + va % PGSIZE) (chunk va len)) := by
  intro i hi
  rw [length_bytesAt] at hi
  rw [userByte, translate_chunk hf hi]
  simp [bytesAt]

theorem copyinLoop_spec (h : UserTable s.mem root) (hrounds : len ≤ rounds) :
    ∃ r, Returns (copyinLoop root rounds va len) s r s ∧
      ((∃ bytes, r = some bytes ∧ bytes.length = len ∧ Reads s.mem root va bytes) ∨
        (r = none ∧ ∃ i, i < len ∧ ¬Mapped s.mem root (va + i))) := by
  induction rounds generalizing va len with
  | zero =>
    obtain rfl : len = 0 := Nat.le_zero.mp hrounds
    exact ⟨_, .pure, .inl ⟨[], rfl, rfl, nofun⟩⟩
  | succ rounds ih =>
    unfold copyinLoop
    by_cases hlen : len = 0
    · rw [if_pos hlen]
      exact ⟨_, .pure, .inl ⟨[], rfl, hlen.symm, nofun⟩⟩
    rw [if_neg hlen]
    have hwalk : Returns (walkaddr root (PGROUNDDOWN va)) s ((frameOf s.mem root va).getD 0) s :=
      frameOf_round va ▸ walkaddr_returns h.tables
    cases hf : frameOf s.mem root va with
    | none =>
      refine ⟨none, hwalk.bind ?_, .inr ⟨rfl, 0, by omega, fun hmapped => ?_⟩⟩
      · rw [hf, Option.getD_none, if_pos rfl]
        exact .pure
      · obtain ⟨f, hf'⟩ := mapped_iff.mp hmapped
        rw [Nat.add_zero, hf] at hf'
        cases hf'
    | some f =>
      have hchunk : min (PGSIZE - (va - PGROUNDDOWN va)) len = chunk va len := by rw [sub_PGROUNDDOWN, chunk]
      have hpos : 0 < chunk va len := chunk_pos hlen
      have hle : chunk va len ≤ len := chunk_le
      have hfirst : Reads s.mem root va (bytesAt s.mem (f + va % PGSIZE) (chunk va len)) := reads_chunk hf
      have hleft : len - chunk va len ≤ rounds := by omega
      obtain ⟨r, hret, hresult⟩ := @ih (wrap64 (PGROUNDDOWN va + PGSIZE)) _ hleft
      rw [wrap64_next hf] at hresult
      refine ⟨r.map (bytesAt s.mem (f + va % PGSIZE) (chunk va len) ++ ·), hwalk.bind ?_, ?_⟩
      · rw [hf, Option.getD_some, if_neg (h.ne_zero va f hf), hchunk, sub_PGROUNDDOWN]
        exact peek_returns.bind (hret.bind .pure)
      by_cases hmore : chunk va len < len
      · rw [next_page hmore] at hresult
        rcases hresult with ⟨bytes, rfl, hbytes, hreads⟩ | ⟨rfl, i, hi, hnot⟩
        · refine .inl ⟨_, rfl, ?_, hfirst.append ?_⟩
          · rw [List.length_append, length_bytesAt, hbytes]
            omega
          · rwa [length_bytesAt]
        · refine .inr ⟨rfl, chunk va len + i, by omega, ?_⟩
          rwa [← Nat.add_assoc]
      · rcases hresult with ⟨bytes, rfl, hbytes, -⟩ | ⟨-, i, hi, -⟩
        · obtain rfl : bytes = [] := List.eq_nil_of_length_eq_zero (by omega)
          refine .inl ⟨_, congrArg some (List.append_nil _), ?_, hfirst⟩
          rw [length_bytesAt]
          omega
        · omega

/-! ### `copyinstr` -/

theorem upToNull_eq {bytes : List UInt8} (h : 0 ∈ bytes) :
    ∃ str, upToNull bytes = str ++ [0] ∧ 0 ∉ str ∧ str.length < bytes.length ∧
      upToNull bytes = bytes.take (str.length + 1) := by
  induction bytes with
  | nil => cases h
  | cons c rest ih =>
    by_cases hc : c = 0
    · subst hc
      exact ⟨[], by simp [upToNull], List.not_mem_nil, Nat.succ_pos _, by simp [upToNull]⟩
    · have hrest : 0 ∈ rest := (List.mem_cons.mp h).resolve_left fun heq => hc heq.symm
      obtain ⟨str, heq, hnot, hlt, htake⟩ := ih hrest
      refine ⟨c :: str, ?_, ?_, Nat.succ_lt_succ hlt, ?_⟩
      · rw [upToNull, if_neg hc, heq, List.cons_append]
      · rw [List.mem_cons, not_or]
        exact ⟨fun heq => hc heq.symm, hnot⟩
      · rw [upToNull, if_neg hc, htake, List.length_cons, List.take_succ_cons]

/-- What `copyinstr` has copied: the bytes at the addresses from `va` on, at most `max`, either up to the first null, or without
    one as far as it is allowed and as the pages are mapped. -/
structure Scanned (m : Mem) (root va max : Nat) (bytes : List UInt8) (found : Bool) : Prop where
  reads : Reads m root va bytes
  length_le : bytes.length ≤ max
  result : (found = true ∧ ∃ str, bytes = str ++ [0] ∧ 0 ∉ str) ∨
    (found = false ∧ 0 ∉ bytes ∧ (bytes.length = max ∨ ¬Mapped m root (va + bytes.length)))

theorem Scanned.none (hlast : max = 0 ∨ ¬Mapped m root va) : Scanned m root va max [] false where
  reads := nofun
  length_le := Nat.zero_le _
  result := .inr ⟨rfl, List.not_mem_nil, hlast.imp Eq.symm id⟩

theorem copyinstrLoop_spec (h : UserTable s.mem root) (hrounds : max ≤ rounds) :
    ∃ bytes found, Returns (copyinstrLoop root rounds va max) s (bytes, found) s ∧ Scanned s.mem root va max bytes found := by
  induction rounds generalizing va max with
  | zero => exact ⟨_, _, .pure, .none (.inl (Nat.le_zero.mp hrounds))⟩
  | succ rounds ih =>
    unfold copyinstrLoop
    by_cases hmax : max = 0
    · rw [if_pos hmax]
      exact ⟨_, _, .pure, .none (.inl hmax)⟩
    rw [if_neg hmax]
    have hwalk : Returns (walkaddr root (PGROUNDDOWN va)) s ((frameOf s.mem root va).getD 0) s :=
      frameOf_round va ▸ walkaddr_returns h.tables
    cases hf : frameOf s.mem root va with
    | none =>
      refine ⟨_, _, hwalk.bind ?_, .none (.inr fun hmapped => ?_)⟩
      · rw [hf, Option.getD_none, if_pos rfl]
        exact .pure
      · obtain ⟨f, hf'⟩ := mapped_iff.mp hmapped
        rw [hf] at hf'
        cases hf'
    | some f =>
      have hchunk : min (PGSIZE - (va - PGROUNDDOWN va)) max = chunk va max := by rw [sub_PGROUNDDOWN, chunk]
      have hpos : 0 < chunk va max := chunk_pos hmax
      have hle : chunk va max ≤ max := chunk_le
      have hfirst : Reads s.mem root va (bytesAt s.mem (f + va % PGSIZE) (chunk va max)) := reads_chunk hf
      have hlength := length_bytesAt s.mem (f + va % PGSIZE) (chunk va max)
      by_cases hnull : 0 ∈ bytesAt s.mem (f + va % PGSIZE) (chunk va max)
      · obtain ⟨str, heq, hnot, hlt, htake⟩ := upToNull_eq hnull
        refine ⟨_, true, hwalk.bind ?_, htake ▸ hfirst.take _, ?_, .inl ⟨rfl, str, heq, hnot⟩⟩
        · rw [hf, Option.getD_some, if_neg (h.ne_zero va f hf), hchunk, sub_PGROUNDDOWN]
          refine peek_returns.bind ?_
          rw [if_pos hnull]
          exact .pure
        · rw [heq, List.length_append, List.length_singleton]
          omega
      · have hleft : max - chunk va max ≤ rounds := by omega
        obtain ⟨rest, found, hret, hreads, hlen, hresult⟩ := @ih (wrap64 (PGROUNDDOWN va + PGSIZE)) _ hleft
        have hreads' : Reads s.mem root va (bytesAt s.mem (f + va % PGSIZE) (chunk va max) ++ rest) := by
          refine hfirst.append fun i hi => ?_
          have hmore : chunk va max < max := by omega
          rw [hlength, ← next_page hmore, ← wrap64_next hf]
          exact hreads i hi
        refine ⟨_, found, hwalk.bind ?_, hreads', ?_, ?_⟩
        · rw [hf, Option.getD_some, if_neg (h.ne_zero va f hf), hchunk, sub_PGROUNDDOWN]
          refine peek_returns.bind ?_
          rw [if_neg hnull]
          exact hret.bind .pure
        · rw [List.length_append, hlength]
          omega
        · rcases hresult with ⟨hfound, str, rfl, hnot⟩ | ⟨hfound, hnot, hlast⟩
          · refine .inl ⟨hfound, _, (List.append_assoc _ str [0]).symm, fun hmem => ?_⟩
            exact (List.mem_append.mp hmem).elim hnull hnot
          · refine .inr ⟨hfound, fun hmem => (List.mem_append.mp hmem).elim hnull hnot, ?_⟩
            rw [List.length_append, hlength, ← Nat.add_assoc]
            by_cases hmore : chunk va max < max
            · rw [← next_page hmore, ← wrap64_next hf]
              exact hlast.imp (by omega) id
            · exact .inl (by omega)

/-! ### Byte by byte -/

theorem Scanned.found_iff {bytes : List UInt8} {found : Bool} (h : Scanned m root va max bytes found) :
    found = true ↔ ∃ k, k < max ∧ userByte m root (va + k) = some 0 ∧ ∀ i, i ≤ k → Mapped m root (va + i) := by
  constructor
  · intro hfound
    rcases h.result with ⟨-, str, rfl, -⟩ | ⟨hnot, -, -⟩
    · have hlen := h.length_le
      simp only [List.length_append, List.length_singleton] at hlen
      have hread := h.reads
      refine ⟨str.length, hlen, ?_, fun i hi => hread.mapped (by simp; omega)⟩
      rw [hread str.length (by simp)]
      simp
    · rw [hnot] at hfound
      cases hfound
  · rintro ⟨k, hk, hnull, hmapped⟩
    rcases h.result with ⟨hfound, -⟩ | ⟨-, hnot, hlast⟩
    · exact hfound
    · by_cases hin : k < bytes.length
      · have hbyte := h.reads k hin
        rw [hnull, Option.some.injEq] at hbyte
        exact absurd (hbyte ▸ List.getElem_mem hin) hnot
      · rcases hlast with hall | hunmapped
        · omega
        · exact absurd (hmapped _ (Nat.not_lt.mp hin)) hunmapped

/-- `copyout`, `copyin` and `copyinstr` do what their meaning byte by byte says: they succeed if and only if the pages of all
    bytes that they need are mapped for the user, and copy exactly these bytes. -/
theorem user_copies (h : UserTable s.mem root) :
    (∀ dstva src, ∃ r t, Returns (copyout root dstva src) s r t ∧ (r = 0 ∨ r = -1) ∧
      (r = 0 ↔ ∀ i, i < src.length → Mapped s.mem root (dstva + i)) ∧
      (r = 0 → t = { s with mem := t.mem } ∧
        (∀ i (hi : i < src.length), ∃ x, translate s.mem root (dstva + i) = some x ∧ t.mem x = src[i]) ∧
        ∀ x, (∀ i, i < src.length → translate s.mem root (dstva + i) ≠ some x) → t.mem x = s.mem x)) ∧
    (∀ srcva len, ∃ r, Returns (copyin root srcva len) s r s ∧
      (r.isSome ↔ ∀ i, i < len → Mapped s.mem root (srcva + i)) ∧
      ∀ bytes, r = some bytes → bytes.length = len ∧ Reads s.mem root srcva bytes) ∧
    (∀ srcva max, ∃ bytes found, Returns (copyinstr root srcva max) s (bytes, found) s ∧ bytes.length ≤ max ∧
      (found = true ↔ ∃ k, k < max ∧ userByte s.mem root (srcva + k) = some 0 ∧
        ∀ i, i ≤ k → Mapped s.mem root (srcva + i)) ∧
      (found = true → ∃ str, bytes = str ++ [0] ∧ 0 ∉ str ∧ Reads s.mem root srcva bytes)) := by
  refine ⟨fun dstva src => ?_, fun srcva len => ?_, fun srcva max => ?_⟩
  · obtain ⟨r, t, hret, hrest, houtside, hresult⟩ := copyoutLoop_spec h (le_refl src.length)
    refine ⟨r, t, hret, ?_, ?_, fun hr => ⟨hrest, fun i hi => ?_, houtside⟩⟩
    · exact hresult.imp And.left And.left
    · rcases hresult with ⟨hr, hall, -⟩ | ⟨hr, i, hi, hnot⟩
      · exact ⟨fun _ => hall, fun _ => hr⟩
      · refine ⟨fun hzero => ?_, fun hall => absurd (hall i hi) hnot⟩
        rw [hr] at hzero
        exact absurd hzero (by decide)
    · rcases hresult with ⟨-, hall, hbytes⟩ | ⟨hneg, -⟩
      · obtain ⟨f, hf⟩ := mapped_iff.mp (hall i hi)
        exact ⟨_, translate_eq hf, hbytes i _ hi (translate_eq hf)⟩
      · rw [hneg] at hr
        exact absurd hr (by decide)
  · obtain ⟨r, hret, hresult⟩ := copyinLoop_spec h (le_refl len)
    refine ⟨r, hret, ?_, fun bytes hr => ?_⟩
    · rcases hresult with ⟨bytes, rfl, hlen, hreads⟩ | ⟨rfl, i, hi, hnot⟩
      · exact ⟨fun _ i hi => hreads.mapped (hlen ▸ hi), fun _ => rfl⟩
      · exact ⟨nofun, fun hall => absurd (hall i hi) hnot⟩
    · rcases hresult with ⟨bytes', rfl, hlen, hreads⟩ | ⟨rfl, -⟩
      · cases hr
        exact ⟨hlen, hreads⟩
      · cases hr
  · obtain ⟨bytes, found, hret, hscan⟩ := copyinstrLoop_spec h (le_refl max)
    refine ⟨bytes, found, hret, hscan.length_le, hscan.found_iff, fun hfound => ?_⟩
    rcases hscan.result with ⟨-, str, heq, hnot⟩ | ⟨hnot, -⟩
    · exact ⟨str, heq, hnot, hscan.reads⟩
    · rw [hnot] at hfound
      cases hfound

end

/-! ### A page table with one page -/

def zeros : Mem := fun _ => 0

/-- The table of the middle level is at its place. -/
def oneTable : Mem := store zeros 0x80002000 8 (entry 0x80003000 PTE_V)

/-- So is the table of the last level. -/
def twoTables : Mem := store oneTable 0x80003000 8 (entry 0x80004000 PTE_V)

/-- The page at 0 is mapped. -/
def onePage : Phys where
  mem := store twoTables 0x80004000 8 (entry 0x80005000 (PTE_V ||| PTE_R ||| PTE_W ||| PTE_U))
  freelist := 0
  failing := []

theorem zeros_child {a : Nat} : child zeros a = none := by
  rw [child, load_zero fun _ _ => rfl]
  rfl

theorem zeros_tableAt {p : List Nat} {q : Nat} (hp : IsPath p) (hq : tableAt zeros 0x80002000 p = some q) :
    p = [] ∧ q = 0x80002000 := by
  by_cases hne : p = []
  · subst hne
    cases hq
    exact ⟨rfl, rfl⟩
  · rw [tableAt_empty (fun _ _ => zeros_child) hp hne] at hq
    cases hq

theorem oneTable_added : Added zeros 0x80002000 0 [] 0x80002000 0x80003000 where
  tree.tables p q hp hq := by
    rw [(zeros_tableAt hp hq).2]
    decide
  tree.distinct p p' q hp hp' hq hq' := (zeros_tableAt hp hq).1.trans (zeros_tableAt hp' hq').1.symm
  path := by decide
  parent := rfl
  missing := zeros_child
  ne_zero := by decide
  aligned := by decide
  lt := by decide
  fresh p hp hq := absurd (zeros_tableAt hp hq).2 (by decide)
  zero _ _ := rfl

theorem twoTables_added : Added oneTable 0x80002000 0 [0] 0x80003000 0x80004000 where
  tree := oneTable_added.tree_store
  path := by decide
  parent := oneTable_added.tableAt (by decide)
  missing := by
    have hload : load oneTable (0x80003000 + 8 * 0) 8 = 0 := oneTable_added.load_child (by decide)
    rw [child, hload]
    rfl
  ne_zero := by decide
  aligned := by decide
  lt := by decide
  fresh p hp hq := by
    have htab : tableAt oneTable 0x80002000 p = _ := oneTable_added.tableAt hp
    rw [htab] at hq
    split at hq
    · cases hq
    · exact absurd (zeros_tableAt hp hq).2 (by decide)
  zero j hj := store_of_not (by simp only [PGSIZE] at hj; omega)

theorem twoTables_slotOf : slotOf twoTables 0x80002000 0 = some 0x80004000 := by
  have htab : tableAt twoTables 0x80002000 [0, 0] = _ := twoTables_added.tableAt (by decide)
  rw [slotOf, show pathTo 0 = [0, 0] from rfl, htab]
  rfl

theorem onePage_lookup (va : Nat) : lookup onePage.mem 0x80002000 va =
    if va / PGSIZE = 0 then some (entry 0x80005000 (PTE_V ||| PTE_R ||| PTE_W ||| PTE_U)) else none := by
  have hnone : lookup twoTables 0x80002000 va = none := by
    rw [show lookup twoTables 0x80002000 va = _ from twoTables_added.lookup,
      show lookup oneTable 0x80002000 va = _ from oneTable_added.lookup]
    exact lookup_empty fun _ _ => zeros_child
  have hlookup : lookup onePage.mem 0x80002000 va = _ :=
    lookup_store (m := twoTables) twoTables_added.tree_store (by decide) twoTables_slotOf (by decide)
  rw [hlookup, hnone]
  rfl

theorem onePage_frameOf {va f : Nat} (h : frameOf onePage.mem 0x80002000 va = some f) : va / PGSIZE = 0 ∧ f = 0x80005000 := by
  rw [frameOf, onePage_lookup] at h
  split at h
  · next hpage => exact ⟨hpage, (Option.some.inj h).symm⟩
  · cases h

theorem onePage_tableAt {p : List Nat} {q : Nat} (hp : IsPath p) (hq : tableAt onePage.mem 0x80002000 p = some q) :
    q = 0x80002000 ∨ q = 0x80003000 ∨ q = 0x80004000 := by
  have htab : tableAt onePage.mem 0x80002000 p = tableAt twoTables 0x80002000 p :=
    tableAt_store (m := twoTables) twoTables_added.tree_store twoTables_slotOf hp
  have htab' : tableAt twoTables 0x80002000 p = _ := twoTables_added.tableAt hp
  have htab'' : tableAt oneTable 0x80002000 p = _ := oneTable_added.tableAt hp
  rw [htab, htab', htab''] at hq
  split at hq
  · exact .inr (.inr (Option.some.inj hq).symm)
  · split at hq
    · exact .inr (.inl (Option.some.inj hq).symm)
    · exact .inl (zeros_tableAt hp hq).2

theorem onePage_userTable : UserTable onePage.mem 0x80002000 where
  tables p q hp hq := by
    rcases onePage_tableAt hp hq with rfl | rfl | rfl <;> decide
  ne_zero va f hf := by
    rw [(onePage_frameOf hf).2]
    decide
  apart va f hf p hp hq := by
    rw [(onePage_frameOf hf).2] at hq
    exact absurd (onePage_tableAt hp hq) (by decide)
  distinct va va' f hf hf' := (onePage_frameOf hf).1.trans (onePage_frameOf hf').1.symm

theorem onePage_mapped {va : Nat} (h : va < PGSIZE) : Mapped onePage.mem 0x80002000 va := by
  rw [mapped_iff, frameOf, onePage_lookup, Nat.div_eq_of_lt h]
  exact ⟨_, rfl⟩

/-- Two bytes go to the end of the page. -/
theorem user_copies_onePage : ∃ t, Returns (copyout 0x80002000 (PGSIZE - 2) [1, 2]) onePage 0 t := by
  obtain ⟨r, t, hret, -, hr, -⟩ := (user_copies onePage_userTable).1 (PGSIZE - 2) [1, 2]
  have hzero : r = 0 := hr.mpr fun i hi => onePage_mapped (by simp only [PGSIZE, List.length] at *; omega)
  exact ⟨t, hzero ▸ hret⟩

end LabSO.Paging

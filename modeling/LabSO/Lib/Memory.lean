import Mathlib.Logic.Function.Basic
import Mathlib.Tactic.Ring

/-! A memory of bytes, the numbers and the blocks in it, and who owns the blocks: what a change leaves alone when it
    only concerns the blocks of some owners. -/

namespace LabSO.Memory

/-- The byte at each address. -/
abbrev Mem : Type := Nat → UInt8

/-- The number in the `k` bytes from `a`, the lowest byte first. -/
def load (m : Mem) (a : Nat) : Nat → Nat
  | 0 => 0
  | k + 1 => (m a).toNat + 256 * load m (a + 1) k

/-- Write the lowest `k` bytes of a number from `a` on. -/
def store (m : Mem) (a k x : Nat) : Mem :=
  fun b => if a ≤ b ∧ b < a + k then UInt8.ofNat (x / 256 ^ (b - a)) else m b

/-- Set the `k` bytes from `a` to the same value. -/
def memset (m : Mem) (a : Nat) (v : UInt8) (k : Nat) : Mem := fun b => if a ≤ b ∧ b < a + k then v else m b

/-- Copy the `k` bytes from `src` to `dst`. -/
def memmove (m : Mem) (dst src k : Nat) : Mem := fun b => if dst ≤ b ∧ b < dst + k then m (src + (b - dst)) else m b

/-- Write bytes from `a` on. -/
def blit (m : Mem) (a : Nat) (bytes : List UInt8) : Mem := fun b => if a ≤ b then bytes[b - a]?.getD (m b) else m b

section
variable {m m' : Mem} {a b k x : Nat}

theorem load_congr (h : ∀ i, i < k → m' (a + i) = m (a + i)) : load m' a k = load m a k := by
  induction k generalizing a with
  | zero => rfl
  | succ k ih =>
    have hfirst : m' a = m a := h 0 (Nat.succ_pos k)
    have hrest : ∀ i, i < k → m' (a + 1 + i) = m (a + 1 + i) := by
      intro i hi
      rw [Nat.add_right_comm, Nat.add_assoc]
      exact h (i + 1) (Nat.succ_lt_succ hi)
    rw [load, load, hfirst, ih hrest]

theorem store_of_not (h : ¬(a ≤ b ∧ b < a + k)) : store m a k x b = m b := if_neg h

theorem memset_of_not {v : UInt8} (h : ¬(a ≤ b ∧ b < a + k)) : memset m a v k b = m b := if_neg h

theorem load_store_of_disjoint {k' : Nat} (h : b + k' ≤ a ∨ a + k ≤ b) : load (store m a k x) b k' = load m b k' :=
  load_congr fun i hi => store_of_not (by omega)

theorem load_store_low {n : Nat} (hk : k ≤ n) (h : ∀ i, i < k → m' (a + i) = UInt8.ofNat (x / 256 ^ i)) :
    load m' a k = x % 256 ^ k := by
  induction k generalizing a x with
  | zero => simp [load, Nat.mod_one]
  | succ k ih =>
    have hfirst : m' a = UInt8.ofNat x := by simpa using h 0 (Nat.succ_pos k)
    have hrest : ∀ i, i < k → m' (a + 1 + i) = UInt8.ofNat (x / 256 / 256 ^ i) := by
      intro i hi
      rw [Nat.add_right_comm, Nat.add_assoc, h (i + 1) (Nat.succ_lt_succ hi), Nat.div_div_eq_div_mul, pow_succ']
    rw [load, hfirst, ih (by omega) hrest, Nat.pow_succ, Nat.mul_comm (256 ^ k) 256, Nat.mod_mul]
    simp

theorem load_store : load (store m a k x) a k = x % 256 ^ k := by
  refine load_store_low le_rfl fun i hi => ?_
  have hin : a ≤ a + i ∧ a + i < a + k := by omega
  rw [store, if_pos hin, Nat.add_sub_cancel_left]

theorem load_zero (h : ∀ i, i < k → m (a + i) = 0) : load m a k = 0 := by
  induction k generalizing a with
  | zero => rfl
  | succ k ih =>
    have hfirst : m a = 0 := h 0 (Nat.succ_pos k)
    have hrest : ∀ i, i < k → m (a + 1 + i) = 0 := by
      intro i hi
      rw [Nat.add_right_comm, Nat.add_assoc]
      exact h (i + 1) (Nat.succ_lt_succ hi)
    rw [load, hfirst, ih hrest]
    rfl

theorem load_memset_zero (h : ∀ i, i < k → a ≤ b + i ∧ b + i < a + x) : load (memset m a 0 x) b k = 0 :=
  load_zero fun i hi => if_pos (h i hi)

end

/-! ### Lists that are linked through memory -/

/-- From `a`, following `next`, one comes to the blocks of the list in order, and then to 0. -/
inductive Chain (next : Nat → Nat) : Nat → List Nat → Prop
  | nil : Chain next 0 []
  | cons {a : Nat} {l : List Nat} : a ≠ 0 → Chain next (next a) l → Chain next a (a :: l)

namespace Chain
variable {next next' : Nat → Nat} {a : Nat} {l l' : List Nat}

theorem congr (h : Chain next a l) (heq : ∀ b ∈ l, next' b = next b) : Chain next' a l := by
  induction h with
  | nil => exact .nil
  | @cons a l hne _ ih =>
    have hfirst : next' a = next a := heq a List.mem_cons_self
    refine .cons hne ?_
    rw [hfirst]
    exact ih fun b hb => heq b (List.mem_cons_of_mem _ hb)

theorem unique (h : Chain next a l) (h' : Chain next a l') : l = l' := by
  induction h generalizing l' with
  | nil =>
    cases h' with
    | nil => rfl
    | cons hne _ => exact absurd rfl hne
  | cons hne _ ih =>
    cases h' with
    | nil => exact absurd rfl hne
    | cons _ hrest => rw [ih hrest]

theorem inv (h : Chain next a l) (hne : a ≠ 0) : ∃ l', l = a :: l' ∧ Chain next (next a) l' := by
  cases h with
  | nil => exact absurd rfl hne
  | @cons _ l' _ hrest => exact ⟨l', rfl, hrest⟩

theorem nil_inv (h : Chain next 0 l) : l = [] := by
  cases h with
  | nil => rfl
  | cons hne _ => exact absurd rfl hne

end Chain

/-! ### Blocks and their owners -/

section
variable {ω : Type*} {B : Nat → Prop} {n : Nat} {F G : ω → Prop} {m m' m'' : Mem} {own own' own'' : Nat → ω} {b : Nat}

/-- The addresses that satisfy `B` are those of blocks of `n` bytes that do not overlap. -/
def Apart (B : Nat → Prop) (n : Nat) : Prop := ∀ b c, B b → B c → b ≠ c → b + n ≤ c ∨ c + n ≤ b

/-- From one memory with its owners to another, only blocks of owners in `F` change, and change hands among them. -/
structure Frame (B : Nat → Prop) (n : Nat) (F : ω → Prop) (m : Mem) (own : Nat → ω) (m' : Mem) (own' : Nat → ω) : Prop where
  kept : ∀ b, B b → ¬F (own b) → own' b = own b
  back : ∀ b, B b → ¬F (own' b) → own' b = own b
  mem : ∀ b, B b → ¬F (own b) → ∀ i, i < n → m' (b + i) = m (b + i)

namespace Frame

theorem refl : Frame B n F m own m own := ⟨fun _ _ _ => rfl, fun _ _ _ => rfl, fun _ _ _ _ _ => rfl⟩

theorem trans (h : Frame B n F m own m' own') (h' : Frame B n F m' own' m'' own'') : Frame B n F m own m'' own'' where
  kept b hb hF := by
    have heq := h.kept b hb hF
    have hF' : ¬F (own' b) := heq ▸ hF
    rw [h'.kept b hb hF', heq]
  back b hb hF := by
    have heq := h'.back b hb hF
    have hF' : ¬F (own' b) := heq ▸ hF
    rw [heq, h.back b hb hF']
  mem b hb hF i hi := by
    have heq := h.kept b hb hF
    have hF' : ¬F (own' b) := heq ▸ hF
    rw [h'.mem b hb hF' i hi, h.mem b hb hF i hi]

theorem mono (h : Frame B n F m own m' own') (hFG : ∀ o, F o → G o) : Frame B n G m own m' own' where
  kept b hb hG := h.kept b hb fun hF => hG (hFG _ hF)
  back b hb hG := h.back b hb fun hF => hG (hFG _ hF)
  mem b hb hG := h.mem b hb fun hF => hG (hFG _ hF)

theorem load (h : Frame B n F m own m' own') (hb : B b) (hF : ¬F (own b)) {off k : Nat} (hk : off + k ≤ n) :
    load m' (b + off) k = load m (b + off) k := by
  refine load_congr fun i hi => ?_
  rw [Nat.add_assoc]
  exact h.mem b hb hF _ (by omega)

/-- The owner of a block in `F` changes it. -/
theorem write (hB : Apart B n) (hb : B b) (hF : F (own b)) (hm : ∀ a, ¬(b ≤ a ∧ a < b + n) → m' a = m a) :
    Frame B n F m own m' own where
  kept _ _ _ := rfl
  back _ _ _ := rfl
  mem c hc hFc i hi := by
    refine hm _ fun hin => ?_
    obtain rfl | hne := eq_or_ne c b
    · exact hFc hF
    · rcases hB c b hc hb hne with h | h <;> omega

/-- A block changes hands. -/
theorem give {o : ω} (hF : F (own b)) (ho : F o) : Frame B n F m own m (Function.update own b o) where
  kept c _ hFc := by
    obtain rfl | hne := eq_or_ne c b
    · exact absurd hF hFc
    · exact Function.update_of_ne hne _ _
  back c _ hFc := by
    obtain rfl | hne := eq_or_ne c b
    · rw [Function.update_self] at hFc
      exact absurd ho hFc
    · exact Function.update_of_ne hne _ _
  mem _ _ _ _ _ := rfl

end Frame

end

end LabSO.Memory

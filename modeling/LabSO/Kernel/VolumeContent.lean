import LabSO.Kernel.VolumeOk

/-! The bytes of a file as the blocks of an inode hold them, and what it takes to append to them: a block for the place
    after the last byte, and a write into it. -/

namespace LabSO.Kernel

variable {sb : Superblock} {V V' W : Volume} {n m : UInt32} {k l j : Nat} {b : BlockNo} {p : Place} {pre q bytes : List UInt8}

theorem Block.byte_zero (j : Nat) : Block.zero.byte j = 0 := by
  rw [byte, zero, Vector.getElem?_replicate]
  split <;> rfl

theorem Block.byte_write_eq {B : Block} {off : Nat} (hfits : off + q.length ≤ BSIZE) :
    (B.write off q).byte j = if off ≤ j ∧ j < off + q.length then q.getD (j - off) 0 else B.byte j := by
  split
  · next h =>
    have hk : j - off < q.length := by omega
    have hbyte := byte_write (b := B) hfits hk
    rw [Nat.add_sub_cancel' h.1] at hbyte
    rw [hbyte, List.getD_eq_getElem _ _ hk]
  · next h => exact byte_write_of_lt (by omega)

namespace Volume

/-- The blocks of the inode are those that the bytes need, and hold the bytes, followed by zeros. -/
structure Holds (V : Volume) (n : UInt32) (bytes : List UInt8) : Prop where
  mapped : ∀ k, V.block n k ≠ 0 ↔ k * BSIZE < bytes.length
  byte : ∀ k, V.block n k ≠ 0 → ∀ j, j < BSIZE → (V.data (V.block n k)).byte j = bytes.getD (k * BSIZE + j) 0

theorem Holds.length_le (h : V.Holds n bytes) : bytes.length ≤ MAXFILE * BSIZE := by
  by_contra hlt
  exact Nat.lt_irrefl _ (lt_of_block ((h.mapped MAXFILE).mpr (Nat.not_le.mp hlt)))

theorem Holds.congr (h : V.Holds n bytes) (hblock : ∀ k, W.block n k = V.block n k)
    (hdata : ∀ k, V.block n k ≠ 0 → W.data (V.block n k) = V.data (V.block n k)) : W.Holds n bytes where
  mapped k := by
    rw [hblock]
    exact h.mapped k
  byte k hne := by
    rw [hblock] at hne ⊢
    rw [hdata k hne]
    exact h.byte k hne

theorem Holds.nil (h : ∀ k, V.block n k = 0) : V.Holds n [] where
  mapped k := by
    rw [h]
    simp
  byte k hne := absurd (h k) hne

/-! ### Blocks for a place -/

/-- From `V` to `V'` blocks that were free were given to the inode `n`, one of them perhaps as the `k`th of its content. -/
structure Maps (V V' : Volume) (n : UInt32) (k : Nat) : Prop where
  other : ∀ m, m ≠ n → V'.dinode m = V.dinode m
  same : V'.dinode n = { V.dinode n with addrs := (V'.dinode n).addrs }
  block : ∀ m l, (V.dinode m).type ≠ 0 → V.block m l ≠ 0 ∨ ¬(m = n ∧ l = k) → V'.block m l = V.block m l
  data : ∀ m l, (V.dinode m).type ≠ 0 → V.block m l ≠ 0 → V'.data (V.block m l) = V.data (V.block m l)
  fresh : V.block n k = 0 → V'.block n k ≠ 0 → V'.data (V'.block n k) = .zero

theorem Maps.type (h : Maps V V' n k) (m : UInt32) : (V'.dinode m).type = (V.dinode m).type := by
  by_cases hm : m = n
  · rw [hm, h.same]
  · rw [h.other m hm]

theorem Maps.refl (V : Volume) (n : UInt32) (k : Nat) : Maps V V n k :=
  ⟨fun _ _ => rfl, rfl, fun _ _ _ _ => rfl, fun _ _ _ _ => rfl, fun h hne => absurd h hne⟩

theorem Maps.trans (hn : (V.dinode n).type ≠ 0) (h : Maps V V' n k) (h' : Maps V' W n k) : Maps V W n k where
  other m hm := (h'.other m hm).trans (h.other m hm)
  same := by rw [h'.same, h.same]
  block m l hm hl := by
    have heq := h.block m l hm hl
    rw [← heq]
    exact h'.block m l (h.type m ▸ hm) (heq.symm ▸ hl)
  data m l hm hne := by
    have heq := h.block m l hm (Or.inl hne)
    rw [← h.data m l hm hne, ← heq]
    exact h'.data m l (h.type m ▸ hm) (heq.symm ▸ hne)
  fresh h0 hne := by
    by_cases hmid : V'.block n k = 0
    · exact h'.fresh hmid hne
    · have hn' := h.type n ▸ hn
      rw [h'.block n k hn' (Or.inl hmid), h'.data n k hn' hmid]
      exact h.fresh h0 hmid

/-- The place is the block itself, or the indirect block on the way to it. -/
theorem Attached.maps {hk : k < MAXFILE} (h : Attached V V' p b) (hp : p = .content n k hk ∨ p = .indirect n)
    (h0 : V.held p = 0) (hzero : V'.data b = .zero) (hn : (V.dinode n).type ≠ 0) : Maps V V' n k := by
  have hinum : p.inum = n := by
    rcases hp with rfl | rfl
    · exact Place.inum_content
    · rfl
  have hblock : ∀ m l (hl : l < MAXFILE), (V.dinode m).type ≠ 0 →
      V'.block m l = if Place.content m l hl = p then b else V.block m l := fun m l hl hm => by
    rw [block_eq hl, block_eq hl]
    exact h.held _ (by rwa [Place.inum_content])
  refine ⟨fun m hm => h.other m (hinum.symm ▸ hm), hinum ▸ h.same, fun m l hm hor => ?_, h.data, fun hkn hne => ?_⟩
  · by_cases hl : l < MAXFILE
    · rw [hblock m l hl hm]
      refine if_neg ?_
      rintro rfl
      rw [block_eq hl] at hor
      rcases hp with hp | hp
      · exact hor.elim (fun hne => hne h0) fun hnot => hnot (Place.content_inj hp)
      · exact Place.content_ne_indirect hp
    · rw [block, dif_neg hl, block, dif_neg hl]
  · rw [hblock n k hk hn, hkn] at hne ⊢
    split at hne
    · next heq =>
      rw [if_pos heq]
      exact hzero
    · exact absurd rfl hne

/-! ### Appending within a block -/

theorem Maps.holds (hmaps : Maps V V' n k) (hm : (V.dinode m).type ≠ 0) (hmn : m ≠ n) (h : V.Holds m bytes) :
    V'.Holds m bytes :=
  h.congr (fun l => hmaps.block m l hm (Or.inr fun heq => hmn heq.1)) fun l hne => hmaps.data m l hm hne

theorem Holds.setData_of_ne (h : V.Holds m bytes) (hexact : V.BlocksExact sb) (hn : (V.dinode n).type ≠ 0)
    (hm : (V.dinode m).type ≠ 0) (hmn : m ≠ n) (hne : V.block n k ≠ 0) (B : Block) :
    (V.setData (V.block n k) B).Holds m bytes := by
  refine h.congr (block_setData hexact hn hne B hm) fun l _ => data_setData_of_ne _ fun heq => ?_
  exact hmn (block_inj hexact hn hm hne heq).1

/-- What the block after the last byte holds. -/
theorem Maps.byte (hmaps : Maps V V' n k) (hn : (V.dinode n).type ≠ 0) (h : V.Holds n pre) (hne : V'.block n k ≠ 0)
    (hk : k * BSIZE ≤ pre.length) (hj : j < BSIZE) :
    (V'.data (V'.block n k)).byte j = pre.getD (k * BSIZE + j) 0 := by
  by_cases h0 : V.block n k = 0
  · have hlen : ¬k * BSIZE < pre.length := fun hlt => (h.mapped k).mpr hlt h0
    rw [hmaps.fresh h0 hne, Block.byte_zero, List.getD_eq_default]
    omega
  · rw [hmaps.block n k hn (Or.inl h0), hmaps.data n k hn h0]
    exact h.byte k h0 j hj

/-- Bytes are added in the block after the last byte. -/
theorem Holds.append (h : V.Holds n pre) (hn : (V.dinode n).type ≠ 0) (hk : k = pre.length / BSIZE)
    (hmaps : Maps V V' n k) (hexact : V'.BlocksExact sb) (hne : V'.block n k ≠ 0) (hq : q ≠ [])
    (hfits : pre.length + q.length ≤ (k + 1) * BSIZE) :
    (V'.setData (V'.block n k) ((V'.data (V'.block n k)).write (pre.length - k * BSIZE) q)).Holds n (pre ++ q) := by
  have hn' : (V'.dinode n).type ≠ 0 := hmaps.type n ▸ hn
  have hpos : 0 < q.length := List.length_pos_iff.mpr hq
  have hle : k * BSIZE ≤ pre.length := hk ▸ Nat.div_mul_le_self ..
  have hsucc : (k + 1) * BSIZE = k * BSIZE + BSIZE := Nat.succ_mul ..
  have hlt : pre.length < (k + 1) * BSIZE := by
    rw [hk, Nat.mul_comm]
    exact Nat.lt_mul_div_succ _ (by decide)
  have hblock := block_setData hexact hn' hne ((V'.data (V'.block n k)).write (pre.length - k * BSIZE) q) hn'
  -- the blocks before this one are full, and there are none after it
  have hfar : ∀ l, l ≠ k → V'.block n l ≠ 0 → l < k := by
    intro l hl hne'
    rw [hmaps.block n l hn (Or.inr fun heq => hl heq.2), h.mapped] at hne'
    have hlt' := hne'.trans hlt
    exact lt_of_le_of_ne (Nat.lt_succ_iff.mp (Nat.lt_of_mul_lt_mul_right hlt')) hl
  have hnear : ∀ l, l < k → (l + 1) * BSIZE ≤ pre.length := fun l hl => (Nat.mul_le_mul_right _ hl).trans hle
  refine ⟨fun l => ?_, fun l hne' i hi => ?_⟩
  · rw [hblock, List.length_append]
    by_cases hl : l = k
    · subst hl
      exact iff_of_true hne (by omega)
    · rw [hmaps.block n l hn (Or.inr fun heq => hl heq.2), h.mapped]
      constructor
      · exact fun hlt' => hlt'.trans_le (Nat.le_add_right ..)
      · intro hlt'
        have hlk : l < k := lt_of_le_of_ne (Nat.lt_succ_iff.mp (Nat.lt_of_mul_lt_mul_right (hlt'.trans_le hfits))) hl
        have hfull := hnear l hlk
        rw [Nat.succ_mul] at hfull
        exact (Nat.lt_add_of_pos_right (by decide)).trans_le hfull
  · rw [hblock] at hne' ⊢
    by_cases hl : l = k
    · subst hl
      rw [data_setData, Block.byte_write_eq (by omega), hmaps.byte hn h hne hle hi]
      split
      · next hin =>
        rw [List.getD_append_right _ _ _ _ (by omega)]
        congr 1
        omega
      · next hout =>
        by_cases hpre : l * BSIZE + i < pre.length
        · rw [List.getD_append _ _ _ _ hpre]
        · rw [List.getD_eq_default _ _ (by omega), List.getD_eq_default _ _ (by rw [List.length_append]; omega)]
    · have hlk := hfar l hl hne'
      have hother : V'.block n l ≠ V'.block n k := fun heq => hl (block_inj hexact hn' hn' hne heq).2
      have hbefore : V'.block n l = V.block n l := hmaps.block n l hn (Or.inr fun heq => hl heq.2)
      have hend := hnear l hlk
      rw [Nat.succ_mul] at hend
      rw [data_setData_of_ne _ hother, hbefore, hmaps.data n l hn (hbefore ▸ hne'), h.byte l (hbefore ▸ hne') i hi,
        List.getD_append _ _ _ _ (by omega)]

end Volume

end LabSO.Kernel

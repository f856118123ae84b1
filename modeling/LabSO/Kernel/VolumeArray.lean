import LabSO.Kernel.VolumeContent

/-! The content of an inode as an array of bytes, as many as its size says, and what overwriting a range of it changes. -/

namespace LabSO.Kernel

/-- The bytes from `off` on are replaced by `src`, which may go on past the end. -/
def splice (bytes : List UInt8) (off : Nat) (src : List UInt8) : List UInt8 :=
  bytes.take off ++ src ++ bytes.drop (off + src.length)

variable {bytes src src' : List UInt8} {off p : Nat}

theorem length_splice (h : off ≤ bytes.length) : (splice bytes off src).length = max bytes.length (off + src.length) := by
  simp only [splice, List.length_append, List.length_take, List.length_drop]
  omega

theorem getD_splice (h : off ≤ bytes.length) (p : Nat) : (splice bytes off src).getD p 0 =
    if off ≤ p ∧ p < off + src.length then src.getD (p - off) 0 else bytes.getD p 0 := by
  have hlen : (bytes.take off).length = off := List.length_take_of_le h
  unfold splice
  rw [List.append_assoc]
  by_cases hbefore : p < off
  · rw [if_neg (by omega), List.getD_append _ _ _ _ (hlen.symm ▸ hbefore)]
    simp [List.getD_eq_getElem?_getD, hbefore]
  · rw [List.getD_append_right _ _ _ _ (by omega), hlen]
    by_cases hin : p < off + src.length
    · rw [if_pos ⟨by omega, hin⟩, List.getD_append _ _ _ _ (by omega)]
    · rw [if_neg (by omega), List.getD_append_right _ _ _ _ (by omega)]
      simp only [List.getD_eq_getElem?_getD, List.getElem?_drop]
      congr 2
      omega

theorem splice_nil : splice bytes off [] = bytes := by simp [splice]

/-- A place a little further in the same block. -/
theorem div_mod_within (off j : Nat) (h : off % BSIZE + j < BSIZE) :
    (off + j) / BSIZE = off / BSIZE ∧ (off + j) % BSIZE = off % BSIZE + j := by
  have hsplit : off + j = off % BSIZE + j + BSIZE * (off / BSIZE) := by
    have := Nat.mod_add_div off BSIZE
    omega
  constructor
  · rw [hsplit, Nat.add_mul_div_left _ _ (by decide), Nat.div_eq_of_lt h, Nat.zero_add]
  · conv_lhs => rw [hsplit, Nat.add_mul_mod_self_left, Nat.mod_eq_of_lt h]

namespace Volume
variable {V V' W : Volume} {n m : UInt32} {k l : Nat} {data data' : List UInt8} {d : Dinode}

/-- The byte at a place of the content. -/
def byte (V : Volume) (n : UInt32) (p : Nat) : UInt8 := (V.data (V.block n (p / BSIZE))).byte (p % BSIZE)

def content (V : Volume) (n : UInt32) : List UInt8 := (List.range (V.dinode n).size.toNat).map (V.byte n)

@[simp] theorem length_content (V : Volume) (n : UInt32) : (V.content n).length = (V.dinode n).size.toNat := by
  simp [content]

theorem getD_content (hp : p < (V.dinode n).size.toNat) : (V.content n).getD p 0 = V.byte n p := by
  simp [content, List.getD_eq_getElem?_getD, hp]

theorem content_congr (hsize : (V'.dinode n).size = (V.dinode n).size)
    (hbyte : ∀ p, p < (V.dinode n).size.toNat → V'.byte n p = V.byte n p) : V'.content n = V.content n := by
  rw [content, content, hsize]
  exact List.map_congr_left fun p hp => hbyte p (List.mem_range.mp hp)

theorem byte_congr (hblock : V'.block n (p / BSIZE) = V.block n (p / BSIZE))
    (hdata : V'.data (V.block n (p / BSIZE)) = V.data (V.block n (p / BSIZE))) : V'.byte n p = V.byte n p := by
  rw [byte, byte, hblock, hdata]

/-- The inode has the blocks of the bytes, and they hold the bytes. -/
def Reads (V : Volume) (n : UInt32) (bytes : List UInt8) : Prop :=
  ∀ p, p < bytes.length → V.block n (p / BSIZE) ≠ 0 ∧ V.byte n p = bytes.getD p 0

theorem Holds.reads (h : V.Holds n bytes) : V.Reads n bytes := by
  intro p hp
  have hdiv := Nat.div_add_mod' p BSIZE
  have hne := (h.mapped (p / BSIZE)).mpr (by omega)
  refine ⟨hne, ?_⟩
  rw [Volume.byte, h.byte _ hne _ (Nat.mod_lt _ (by decide)), hdiv]

theorem reads_content (h : ∀ p, p < (V.dinode n).size.toNat → V.block n (p / BSIZE) ≠ 0) : V.Reads n (V.content n) := by
  intro p hp
  rw [length_content] at hp
  exact ⟨h p hp, (getD_content hp).symm⟩

/-- A piece of the bytes within one block. -/
theorem Reads.read (off l : Nat) (h : V.Reads n bytes) (hfits : off % BSIZE + l ≤ BSIZE) (hle : off + l ≤ bytes.length) :
    (V.data (V.block n (off / BSIZE))).read (off % BSIZE) l = (bytes.drop off).take l := by
  apply List.ext_getElem
  · rw [Block.length_read, List.length_take_of_le (by rw [List.length_drop]; omega)]
  · intro j hj hj'
    rw [Block.length_read] at hj
    obtain ⟨hdiv, hmod⟩ := div_mod_within off j (by omega)
    obtain ⟨-, hbyte⟩ := h (off + j) (by omega)
    rw [byte, hdiv, hmod] at hbyte
    simp only [Block.read, List.getElem_map, List.getElem_range, List.getElem_take, List.getElem_drop]
    rw [hbyte, List.getD_eq_getElem _ _ (by omega)]

/-- From `V` to `V'` the bytes `data` were stored in the content of the inode `n` from `off` on, in blocks that it had or
    that it was given, and nothing else changed in the contents of inodes. -/
structure Overwrites (V V' : Volume) (n : UInt32) (off : Nat) (data : List UInt8) : Prop where
  type : (V'.dinode n).type = (V.dinode n).type
  other : ∀ m, m ≠ n → V'.dinode m = V.dinode m
  block : ∀ k, V.block n k ≠ 0 → V'.block n k = V.block n k
  otherBlock : ∀ m k, m ≠ n → (V.dinode m).type ≠ 0 → V'.block m k = V.block m k
  otherData : ∀ m k, m ≠ n → (V.dinode m).type ≠ 0 → V'.data (V.block m k) = V.data (V.block m k)
  byte : ∀ p, V.block n (p / BSIZE) ≠ 0 → ¬(off ≤ p ∧ p < off + data.length) → V'.byte n p = V.byte n p
  stored : ∀ p, off ≤ p → p < off + data.length → V'.block n (p / BSIZE) ≠ 0 ∧ V'.byte n p = data.getD (p - off) 0

theorem Overwrites.refl (V : Volume) (n : UInt32) (off : Nat) : Overwrites V V n off [] where
  type := rfl
  other _ _ := rfl
  block _ _ := rfl
  otherBlock _ _ _ _ := rfl
  otherData _ _ _ _ := rfl
  byte _ _ _ := rfl
  stored p hle hlt := absurd hlt (Nat.not_lt.mpr hle)

theorem Overwrites.otherType (h : Overwrites V V' n off data) (m : UInt32) : (V'.dinode m).type = (V.dinode m).type := by
  by_cases hm : m = n
  · rw [hm, h.type]
  · rw [h.other m hm]

/-- One range after the other. -/
theorem Overwrites.append (h : Overwrites V V' n off data) (h' : Overwrites V' W n (off + data.length) data') :
    Overwrites V W n off (data ++ data') where
  type := h'.type.trans h.type
  other m hm := (h'.other m hm).trans (h.other m hm)
  block k hne := by
    have heq := h.block k hne
    rw [h'.block k (heq ▸ hne), heq]
  otherBlock m k hm htype := (h'.otherBlock m k hm (by rwa [h.otherType])).trans (h.otherBlock m k hm htype)
  otherData m k hm htype := by
    have heq := h.otherBlock m k hm htype
    rw [← h.otherData m k hm htype, ← heq]
    exact h'.otherData m k hm (by rwa [h.otherType])
  byte p hne hout := by
    rw [List.length_append] at hout
    rw [h'.byte p (by rwa [h.block _ hne]) (by omega)]
    exact h.byte p hne (by omega)
  stored p hle hlt := by
    rw [List.length_append] at hlt
    by_cases hfirst : p < off + data.length
    · obtain ⟨hne, hbyte⟩ := h.stored p hle hfirst
      refine ⟨by rwa [h'.block _ hne], ?_⟩
      rw [h'.byte p hne (by omega), hbyte, List.getD_append _ _ _ _ (by omega)]
    · obtain ⟨hne, hbyte⟩ := h'.stored p (by omega) (by omega)
      refine ⟨hne, ?_⟩
      rw [hbyte, List.getD_append_right _ _ _ _ (by omega), Nat.sub_add_eq]

/-- Blocks that the inode is given change none of its bytes. -/
theorem Maps.overwrites (h : Maps V V' n k) (hn : (V.dinode n).type ≠ 0) (hzero : V'.data 0 = V.data 0) (off : Nat) :
    Overwrites V V' n off [] where
  type := h.type n
  other := h.other
  block l hne := h.block n l hn (Or.inl hne)
  otherBlock m l hm htype := h.block m l htype (Or.inr fun heq => hm heq.1)
  otherData m l hm htype := by
    by_cases h0 : V.block m l = 0
    · rw [h0, hzero]
    · exact h.data m l htype h0
  byte p hne _ := byte_congr (h.block n _ hn (Or.inl hne)) (h.data n _ hn hne)
  stored p hle hlt := absurd hlt (Nat.not_lt.mpr hle)

/-- Bytes are written within a block of the content. -/
theorem BlocksExact.overwrites {sb : Superblock} (h : V.BlocksExact sb) (hn : (V.dinode n).type ≠ 0)
    (hne : V.block n (off / BSIZE) ≠ 0) (hfits : off % BSIZE + data.length ≤ BSIZE) :
    Overwrites V (V.setData (V.block n (off / BSIZE)) ((V.data (V.block n (off / BSIZE))).write (off % BSIZE) data))
      n off data := by
  let B := (V.data (V.block n (off / BSIZE))).write (off % BSIZE) data
  have hblock : ∀ l, (V.setData (V.block n (off / BSIZE)) B).block n l = V.block n l := block_setData h hn hne B hn
  -- the bytes of the range are those of this block from `off % BSIZE` on
  have hpart : ∀ p, off ≤ p → p < off + data.length → p / BSIZE = off / BSIZE ∧ p % BSIZE = off % BSIZE + (p - off) := by
    intro p hle hlt
    have hwithin := div_mod_within off (p - off) (by omega)
    rwa [Nat.add_sub_cancel' hle] at hwithin
  refine ⟨rfl, fun _ _ => rfl, fun l _ => hblock l, fun m l hm htype => block_setData h hn hne B htype l,
    fun m l hm htype => data_setData_of_ne _ fun heq => hm (block_inj h hn htype hne heq).1, fun p hpne hout => ?_,
    fun p hle hlt => ?_⟩
  · rw [byte, byte, hblock]
    by_cases hl : p / BSIZE = off / BSIZE
    · rw [hl, data_setData]
      refine Block.byte_write_of_lt ?_
      have hdiv := Nat.div_add_mod' off BSIZE
      have hpdiv := Nat.div_add_mod' p BSIZE
      rw [hl] at hpdiv
      omega
    · rw [data_setData_of_ne _ fun heq => hl (block_inj h hn hn hne heq).2]
  · obtain ⟨hl, hmod⟩ := hpart p hle hlt
    rw [byte, hblock, hl]
    refine ⟨hne, ?_⟩
    have hk : p - off < data.length := by omega
    rw [data_setData, hmod, Block.byte_write hfits hk, List.getD_eq_getElem _ _ hk]

/-- The size of the inode changes. -/
theorem Overwrites.setDinode (h : Overwrites V V' n off data) (haddrs : d.addrs = (V'.dinode n).addrs)
    (htype : d.type = (V'.dinode n).type) : Overwrites V (V'.setDinode n d) n off data where
  type := by rw [dinode_setDinode, htype, h.type]
  other m hm := (dinode_setDinode_of_ne d hm).trans (h.other m hm)
  block k hne := (block_setDinode haddrs n k).trans (h.block k hne)
  otherBlock m k hm ht := (block_setDinode haddrs m k).trans (h.otherBlock m k hm ht)
  otherData := h.otherData
  byte p hne hout := (byte_congr (block_setDinode haddrs n _) rfl).trans (h.byte p hne hout)
  stored p hle hlt := by
    obtain ⟨hne, hbyte⟩ := h.stored p hle hlt
    exact ⟨by rwa [block_setDinode haddrs], (byte_congr (block_setDinode haddrs n _) rfl).trans hbyte⟩

theorem Overwrites.otherContent (h : Overwrites V V' n off data) (hm : m ≠ n) (htype : (V.dinode m).type ≠ 0) :
    V'.content m = V.content m :=
  content_congr (by rw [h.other m hm]) fun p _ => byte_congr (h.otherBlock m _ hm htype) (h.otherData m _ hm htype)

/-- Where the size goes up to the end of the range if that is past it, the content is the old one with the range replaced. -/
theorem Overwrites.content (h : Overwrites V V' n off data) (hoff : off ≤ (V.dinode n).size.toNat)
    (hmapped : ∀ p, p < (V.dinode n).size.toNat → V.block n (p / BSIZE) ≠ 0)
    (hsize : (V'.dinode n).size.toNat = max (V.dinode n).size.toNat (off + data.length)) :
    V'.content n = splice (V.content n) off data := by
  have hoff' : off ≤ (V.content n).length := by rwa [length_content]
  refine List.ext_getElem ?_ fun p hp hp' => ?_
  · rw [length_splice hoff', length_content, length_content, hsize]
  · rw [length_content] at hp
    rw [← List.getD_eq_getElem _ 0, ← List.getD_eq_getElem _ 0, getD_content hp, getD_splice hoff']
    split
    · next hin => exact (h.stored p hin.1 hin.2).2
    · next hout =>
      have hlt : p < (V.dinode n).size.toNat := by omega
      rw [h.byte p (hmapped p hlt) hout, getD_content hlt]

end Volume

end LabSO.Kernel

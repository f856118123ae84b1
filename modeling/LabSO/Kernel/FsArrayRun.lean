import LabSO.Kernel.FsArray
import LabSO.Kernel.VolumeBlocks

/-! Sequences of `writei` calls on an inode against an array of bytes, and what a call leaves behind whose source cannot be
    read to its end. -/

namespace LabSO.Kernel
open Program

variable {sb : Superblock} {s t u : Fs} {i : Fin NINODE} {src : Source} {k : Nat} {data : List UInt8}
  {I : Multiset (Fin NINODE)} {F : Multiset (Fin NFILE)} {ws : List (Nat × List UInt8)}

/-! ### Successful calls -/

theorem Current.mapped (h : Current sb s i) (hmax : (s.itable i).size.toNat ≤ MAXFILE * BSIZE) (p : Nat)
    (hp : p < (s.itable i).size.toNat) : (s.vol sb).block (s.itable i).inum (p / BSIZE) ≠ 0 :=
  h.noHole.block_ne hp (Nat.div_lt_of_lt_mul (by rw [Nat.mul_comm]; omega))

theorem Written.inum {off : Nat} (h : Written sb s i off k data t) : (t.itable i).inum = (s.itable i).inum := by rw [h.self]

/-- What `readi` finds. -/
theorem Current.readi_returns (h : Current sb s i) (hmax : (s.itable i).size.toNat ≤ MAXFILE * BSIZE) {off n : UInt32}
    (hoff : off ≤ (s.itable i).size) (hsum : off.toNat + n.toNat < 2 ^ 32) :
    Program.Returns (readi sb i off n) s
      ((((s.vol sb).content (s.itable i).inum).drop off.toNat).take n.toNat) s := by
  have hlen := Volume.length_content (s.vol sb) (s.itable i).inum
  rw [h.size_eq] at hlen
  refine Kernel.readi_returns (h.exact.within h.dinode_type) ?_ hlen.symm (hlen.symm ▸ UInt32.le_iff_toNat_le.mp hoff) hsum
  rw [h.cur_eq]
  exact Volume.reads_content fun p hp => h.mapped hmax p (h.size_eq ▸ hp)

/-- A new transaction. -/
theorem Current.nextOp (hsb : sb.Ordered) (h : Current sb s i) :
    Wp Tolerated (do
      onStore endOp
      onStore beginOp) (fun _ t => Current sb t i ∧ t.vol sb = s.vol sb ∧ t.itable = s.itable) s := by
  refine onStore_bind (endOp_spec hsb h.log) ?_
  rintro _ store ⟨hquiet, hvol⟩
  refine onStore_spec (beginOp_spec hquiet) ?_
  rintro _ store' ⟨hlog, hbufs⟩
  have hvol' : volume sb store'.bufs = s.vol sb := by rw [hbufs, hvol, Fs.vol]
  exact ⟨h.setStore hlog hvol', hvol', rfl⟩

/-- Calls of `writei` on the inode of an entry that write all their bytes, in transactions that may end between them; with
    the offset and the bytes of each call. -/
inductive Writes (sb : Superblock) (i : Fin NINODE) (s : Fs) : List (Nat × List UInt8) → Fs → Prop
  | start : Writes sb i s [] s
  | writei {ws : List (Nat × List UInt8)} {t u : Fs} {src : Source} {off n : UInt32} (run : Writes sb i s ws t)
    (has : src.Has n.toNat) (call : Program.Returns (writei sb i src off n) t n.toNat u) :
    Writes sb i s (ws ++ [(off.toNat, src.bytes n.toNat)]) u
  | nextOp {ws : List (Nat × List UInt8)} {t u : Fs} (run : Writes sb i s ws t)
    (call : Program.Returns (do
      onStore endOp
      onStore beginOp) t () u) : Writes sb i s ws u

/-- The array after the writes. -/
def applyWrites (bytes : List UInt8) (ws : List (Nat × List UInt8)) : List UInt8 :=
  ws.foldl (fun bytes w => splice bytes w.1 w.2) bytes

/-- The largest end of the writes, or the size before them. -/
def largestEnd (size : Nat) (ws : List (Nat × List UInt8)) : Nat := ws.foldl (fun z w => max z (w.1 + w.2.length)) size

/-- The content of the inode is what the writes make of the array that it was. -/
structure AfterWrites (sb : Superblock) (s : Fs) (i : Fin NINODE) (ws : List (Nat × List UInt8)) (t : Fs) : Prop where
  current : Current sb t i
  inum : (t.itable i).inum = (s.itable i).inum
  size_le : (t.itable i).size.toNat ≤ MAXFILE * BSIZE
  size : (t.itable i).size.toNat = largestEnd (s.itable i).size.toNat ws
  content : (t.vol sb).content (s.itable i).inum = applyWrites ((s.vol sb).content (s.itable i).inum) ws
  type : ∀ m, ((t.vol sb).dinode m).type = ((s.vol sb).dinode m).type
  other : ∀ m, m ≠ (s.itable i).inum → ((s.vol sb).dinode m).type ≠ 0 → (t.vol sb).content m = (s.vol sb).content m

/-- A call that wrote all its bytes. -/
theorem LoopEnd.data_eq {W : Volume} {inum : UInt32} {off left : Nat} (h : LoopEnd W inum src off left k data)
    (hk : k = left) : data = src.bytes left := by
  cases h with
  | all => rfl
  | noBlock lt => exact absurd hk lt.ne
  | fault => rfl

theorem AfterWrites.writei {off n : UInt32} (hsb : sb.Ordered) (h : AfterWrites sb s i ws t) (hhas : src.Has n.toNat)
    (hcall : Program.Returns (writei sb i src off n) t n.toNat u) :
    AfterWrites sb s i (ws ++ [(off.toNat, src.bytes n.toNat)]) u := by
  have hnot : ¬Rejects (t.itable i).size off n := by
    intro hrej
    have hneg := (hcall.det (writei_rejects hrej)).1
    omega
  obtain ⟨hoff, -, hend⟩ := not_rejects hnot
  obtain ⟨k, data, hk, hw, hloop⟩ := (writei_stores hsb h.current hhas hnot).post hcall
  have hkn : n.toNat = k := by omega
  subst hkn
  have hdata := hloop.data_eq rfl
  subst hdata
  have hlen : (src.bytes n.toNat).length = n.toNat := by
    refine Nat.le_antisymm (src.length_bytes_le _) (hloop.le_length hhas)
  have hinum := h.inum
  have hsize : (u.itable i).size.toNat = max (t.itable i).size.toNat (off.toNat + (src.bytes n.toNat).length) := by
    rw [hlen]
    exact hw.size
  have hover := hw.overwrites
  refine ⟨hw.current, hw.inum.trans hinum, ?_, ?_, ?_, fun m => ?_, fun m hm htype => ?_⟩
  · have := h.size_le
    have := hw.size
    omega
  · rw [hsize, h.size, largestEnd, largestEnd, List.foldl_append]
    rfl
  · have hcontent := hover.content (h.current.size_eq.symm ▸ hoff)
      (fun p hp => h.current.mapped h.size_le p (h.current.size_eq ▸ hp)) (by
        rw [h.current.size_eq, ← hw.inum, hw.current.size_eq]
        exact hsize)
    rw [hinum] at hcontent
    rw [hcontent, h.content, applyWrites, applyWrites, List.foldl_append]
    rfl
  · rw [hover.otherType m, h.type m]
  · rw [← h.type m] at htype
    rw [hover.otherContent (hinum.symm ▸ hm) htype]
    exact h.other m hm (h.type m ▸ htype)

theorem Writes.after (hsb : sb.Ordered) (hs : Current sb s i) (hmax : (s.itable i).size.toNat ≤ MAXFILE * BSIZE)
    (h : Writes sb i s ws t) : AfterWrites sb s i ws t := by
  induction h with
  | start => exact ⟨hs, rfl, hmax, rfl, rfl, fun _ => rfl, fun _ _ _ => rfl⟩
  | writei run has call ih => exact ih.writei hsb has call
  | @nextOp ws t u run call ih =>
    obtain ⟨hcurrent, hvol, hitable⟩ := (ih.current.nextOp hsb).post call
    refine ⟨hcurrent, ?_, ?_, ?_, ?_, ?_, ?_⟩
    · rw [hitable, ih.inum]
    · rw [hitable]
      exact ih.size_le
    · rw [hitable]
      exact ih.size
    · rw [hvol]
      exact ih.content
    · rw [hvol]
      exact ih.type
    · rw [hvol]
      exact ih.other

/-- `readi` and `writei` on an inode after the writes `ws`, whose content was `bytes` of an array before them. -/
structure IsArray (sb : Superblock) (s : Fs) (i : Fin NINODE) (ws : List (Nat × List UInt8)) (t : Fs) : Prop where
  size : (t.itable i).size.toNat = largestEnd (s.itable i).size.toNat ws
  reads : ∀ off n : UInt32, off ≤ (t.itable i).size → off.toNat + n.toNat < 2 ^ 32 → ∃ bytes,
    Program.Returns (readi sb i off n) t bytes t ∧ bytes.length = min n.toNat ((t.itable i).size.toNat - off.toNat) ∧
      bytes = ((applyWrites ((s.vol sb).content (s.itable i).inum) ws).drop off.toNat).take n.toNat
  /-- A range that overflows has no bytes. -/
  overflows : ∀ off n : UInt32, 2 ^ 32 ≤ off.toNat + n.toNat → Program.Returns (readi sb i off n) t [] t
  rejects : ∀ (src : Source) (off n : UInt32), off > (t.itable i).size ∨ 2 ^ 32 ≤ off.toNat + n.toNat ∨
    off.toNat + n.toNat > MAXFILE * BSIZE → Program.Returns (writei sb i src off n) t (-1) t
  others : ∀ m, m ≠ (s.itable i).inum → ((s.vol sb).dinode m).type ≠ 0 →
    (t.vol sb).content m = (s.vol sb).content m

theorem add_lt_iff {off n : UInt32} : off + n < off ↔ 2 ^ 32 ≤ off.toNat + n.toNat := by
  have hoff := off.toNat_lt
  have hn := n.toNat_lt
  rw [UInt32.lt_iff_toNat_lt, UInt32.toNat_add]
  omega

theorem readi_overflows {off n : UInt32} (h : 2 ^ 32 ≤ off.toNat + n.toNat) :
    Program.Returns (readi sb i off n) s [] s := by
  refine inode_returns.bind ?_
  rw [if_pos (Or.inr (add_lt_iff.mpr h))]
  exact .pure

theorem rejects_of_range {size off n : UInt32}
    (h : off > size ∨ 2 ^ 32 ≤ off.toNat + n.toNat ∨ off.toNat + n.toNat > MAXFILE * BSIZE) : Rejects size off n := by
  by_cases hwrap : 2 ^ 32 ≤ off.toNat + n.toNat
  · exact Or.inr (Or.inl (add_lt_iff.mpr hwrap))
  · refine h.imp_right fun h => Or.inr ?_
    rw [toNat_add_of_not_lt fun hlt => hwrap (add_lt_iff.mp hlt)]
    exact h.resolve_left hwrap

/-- After any sequence of successful `writei` calls on an inode, `readi` and `writei` are those of the array that the
    writes, in order, make of its content; the contents of the other inodes stay. -/
theorem writes_array (hsb : sb.Ordered) (h : Inv sb s (s.vol sb) I F) (hi : 0 < (s.itable i).ref)
    (hv : (s.itable i).valid = true) (hmax : (s.itable i).size.toNat ≤ MAXFILE * BSIZE) (hw : Writes sb i s ws t) :
    IsArray sb s i ws t := by
  have ht := hw.after hsb (h.current hi hv) hmax
  refine ⟨ht.size, fun off n hoff hsum => ⟨_, ht.current.readi_returns ht.size_le hoff hsum, ?_, ?_⟩,
    fun off n hover => readi_overflows hover, fun src off n hrej => writei_rejects (rejects_of_range hrej), ht.other⟩
  · rw [List.length_take, List.length_drop, Volume.length_content, ht.current.size_eq]
  · rw [ht.inum, ht.content]

/-- Within an operation, a file with one block. -/
def smallFile : Fs := (Volume.single .small T_FILE 1024 .zero).opened .small ROOTINO

theorem smallFile_inv : Inv .small smallFile (smallFile.vol .small) {⟨0, by decide⟩} 0 := by
  have hok : (Volume.single .small T_FILE 1024 .zero).Ok .small :=
    Volume.single_ok Superblock.small_ordered (by decide) (by decide) (by decide) fun h => absurd h (by decide)
  exact Volume.opened_inv Superblock.small_ordered (Volume.single_bounded Superblock.small_ordered (by decide)) hok (by decide)
    (by decide)

theorem smallFile_current : Current .small smallFile ⟨0, by decide⟩ := smallFile_inv.current (by decide) rfl

theorem writes_array_byte : ∃ t, Writes .small ⟨0, by decide⟩ smallFile [(3, [7])] t ∧
    IsArray .small smallFile ⟨0, by decide⟩ [(3, [7])] t := by
  obtain ⟨t, hcall⟩ := writei_returns (.kernel [7]) 3 1 smallFile_current (by decide) (by decide) (by decide)
    (by decide) (by decide)
  have hhas : Source.Has (.kernel [7]) (1 : UInt32).toNat := Nat.le_refl 1
  have hrun : Writes .small ⟨0, by decide⟩ smallFile [(3, [7])] t := .writei .start hhas hcall
  exact ⟨t, hrun, writes_array Superblock.small_ordered smallFile_inv (by decide) rfl (by decide) hrun⟩

/-! ### Sources that cannot be read to their end -/

theorem vol_data_zero (hsb : sb.Ordered) (s : Fs) : (s.vol sb).data 0 = .zero :=
  if_neg fun hmem => hsb.ne_zero hmem rfl

theorem Written.byte_outside {off p : Nat} (hsb : sb.Ordered) (hs : Current sb s i) (h : Written sb s i off k data t)
    (hp : p < (s.itable i).size.toNat) (hout : ¬(off ≤ p ∧ p < off + data.length)) :
    (t.vol sb).byte (s.itable i).inum p = (s.vol sb).byte (s.itable i).inum p := by
  by_cases hmax : p / BSIZE < MAXFILE
  · exact h.overwrites.byte p (hs.noHole.block_ne hp hmax) hout
  · -- there are no blocks past the largest size
    have hzero : ∀ V : Volume, V.block (s.itable i).inum (p / BSIZE) = 0 := fun V => dif_neg hmax
    rw [Volume.byte, Volume.byte, hzero, hzero, vol_data_zero hsb, vol_data_zero hsb]

/-- The content after `writei`, byte by byte. -/
theorem Written.getD_content {off p : Nat} (hsb : sb.Ordered) (hs : Current sb s i) (h : Written sb s i off k data t)
    (hoff : off ≤ (s.itable i).size.toNat) (hk : k ≤ data.length) (hp : p < (t.itable i).size.toNat) :
    ((t.vol sb).content (s.itable i).inum).getD p 0 =
      if off ≤ p ∧ p < off + data.length then data.getD (p - off) 0
      else ((s.vol sb).content (s.itable i).inum).getD p 0 := by
  have hsize := h.current.size_eq
  rw [h.inum] at hsize
  rw [Volume.getD_content (hsize.symm ▸ hp)]
  split
  · next hin => exact (h.overwrites.stored p hin.1 hin.2).2
  · next hout =>
    have hlt : p < (s.itable i).size.toNat := by
      have := h.size
      omega
    rw [h.byte_outside hsb hs hlt hout, Volume.getD_content (hs.size_eq.symm ▸ hlt)]

/-- Where the piece of a write begins in which the source ends after `l` bytes. -/
def pieceStart (off l : Nat) : Nat := max off ((off + l) / BSIZE * BSIZE)

/-- Where the source cannot be read to its end, what the copy that fails has read of its piece is what the content has
    there, as far as that goes. -/
def Harmless (bytes : List UInt8) (src : Source) (off n : Nat) : Prop :=
  (src.bytes n).length < n → ∀ p, pieceStart off (src.bytes n).length ≤ p → p < off + (src.bytes n).length →
    p < bytes.length → (src.bytes n).getD (p - off) 0 = bytes.getD p 0

/-- `writei` returned `r` and left the content with the first `r` bytes of the source written, or as it was. -/
structure WritesPrefix (sb : Superblock) (s : Fs) (i : Fin NINODE) (src : Source) (off n : UInt32) (r : Int) (t : Fs) :
    Prop where
  failed : r = -1 → t = s
  content : 0 ≤ r → (t.vol sb).content (s.itable i).inum =
    splice ((s.vol sb).content (s.itable i).inum) off.toNat ((src.bytes n.toNat).take r.toNat)

/-- The content is the old one with the first `k` bytes written if nothing else shows of what was stored. -/
theorem Written.content_iff {off : Nat} (hsb : sb.Ordered) (hs : Current sb s i) (h : Written sb s i off k data t)
    (hoff : off ≤ (s.itable i).size.toNat) (hk : k ≤ data.length) :
    (t.vol sb).content (s.itable i).inum = splice ((s.vol sb).content (s.itable i).inum) off (data.take k) ↔
      ∀ p, off + k ≤ p → p < off + data.length → p < (s.itable i).size.toNat →
        data.getD (p - off) 0 = ((s.vol sb).content (s.itable i).inum).getD p 0 := by
  have hlen : ((s.vol sb).content (s.itable i).inum).length = (s.itable i).size.toNat := by
    rw [Volume.length_content, hs.size_eq]
  have hlen' : ((t.vol sb).content (s.itable i).inum).length = (t.itable i).size.toNat := by
    rw [Volume.length_content, ← h.inum, h.current.size_eq]
  have hoff' : off ≤ ((s.vol sb).content (s.itable i).inum).length := hlen.symm ▸ hoff
  have hsize := h.size
  have htake : (data.take k).length = k := List.length_take_of_le hk
  have hget : ∀ p, p < k → (data.take k).getD p 0 = data.getD p 0 := by
    intro p hp
    simp [List.getD_eq_getElem?_getD, hp]
  constructor
  · intro heq p hle hlt hp
    have hbyte := h.getD_content hsb hs hoff hk (p := p) (by omega)
    rw [heq, getD_splice hoff', if_neg (by omega), if_pos (by omega)] at hbyte
    exact hbyte.symm
  · intro hall
    refine List.ext_getElem ?_ fun p hp hp' => ?_
    · rw [length_splice hoff', htake, hlen, hlen', hsize]
    · rw [hlen'] at hp
      rw [← List.getD_eq_getElem _ 0, ← List.getD_eq_getElem _ 0, h.getD_content hsb hs hoff hk hp, getD_splice hoff', htake]
      by_cases hin : off ≤ p ∧ p < off + k
      · rw [if_pos (by omega), if_pos hin, hget _ (by omega)]
      · rw [if_neg hin]
        split
        · next hstored => exact hall p (by omega) hstored.2 (by omega)
        · rfl

/-- Where the loop ended says which bytes of the failing piece show. -/
theorem LoopEnd.harmless_iff {off n : Nat} {bytes : List UInt8} (hs : Current sb s i) (h : Written sb s i off k data t)
    (hend : LoopEnd (t.vol sb) (s.itable i).inum src off n k data) (hhas : src.Has n)
    (hmax : off + n ≤ MAXFILE * BSIZE) (hlen : bytes.length = (s.itable i).size.toNat) :
    Harmless bytes src off n ↔ ∀ p, off + k ≤ p → p < off + data.length → p < bytes.length →
      data.getD (p - off) 0 = bytes.getD p 0 := by
  cases hend with
  | all full =>
    have hfull := Source.length_bytes hhas full
    exact iff_of_true (fun hlt => absurd hfull hlt.ne) fun p hle hlt => by omega
  | noBlock lt full zero =>
    have hbytes := Source.length_bytes (hhas.mono lt.le) full
    refine iff_of_true (fun _ p hle hlt hp => ?_) fun p hle hlt => by omega
    -- the block that is missing is not below the size
    have hsize : ¬(off + k) / BSIZE * BSIZE < (s.itable i).size.toNat := by
      intro hbelow
      have hk : (off + k) / BSIZE < MAXFILE := Nat.div_lt_of_lt_mul (by rw [Nat.mul_comm]; omega)
      have hne := hs.noHole _ hk hbelow
      exact hne ((h.overwrites.block _ hne).symm.trans zero)
    have hlonger : k ≤ (src.bytes n).length := by
      rw [Source.bytes_eq full lt.le, List.length_append, hbytes]
      exact Nat.le_add_right ..
    have hpiece : (off + k) / BSIZE * BSIZE ≤ (off + (src.bytes n).length) / BSIZE * BSIZE :=
      Nat.mul_le_mul_right _ (Nat.div_le_div_right (by omega))
    unfold pieceStart at hle
    omega
  | fault lt full fails start within =>
    have hshort := Source.length_bytes_lt fails
    have hk := (LoopEnd.fault lt full fails start within : LoopEnd (t.vol sb) (s.itable i).inum src off n k _).le_length hhas
    have hstart : pieceStart off (src.bytes n).length = off + k := by
      have hdiv := (div_mod_within (off + k) ((src.bytes n).length - k) (by
        have : (off + k) % BSIZE < BSIZE := Nat.mod_lt _ (by decide)
        omega)).1
      rw [show off + k + ((src.bytes n).length - k) = off + (src.bytes n).length by omega] at hdiv
      have hfloor := Nat.div_add_mod' (off + k) BSIZE
      unfold pieceStart
      rw [hdiv]
      rcases start with rfl | start <;> omega
    unfold Harmless
    rw [hstart]
    exact forall_prop_of_true hshort

theorem LoopEnd.take {W : Volume} {inum : UInt32} {off n : Nat} (hhas : src.Has n) (h : LoopEnd W inum src off n k data) :
    (src.bytes n).take k = data.take k := by
  cases h with
  | all | fault => rfl
  | noBlock lt full =>
    have hlen := Source.length_bytes (hhas.mono lt.le) full
    rw [Source.bytes_eq full lt.le, List.take_append_of_le_length hlen.ge]

/-- `writei` from a user address leaves the first bytes of the source, as many as it returns, written and nothing else
    changed, exactly where it rejects the call or a copy that fails has read nothing that shows. -/
theorem writes_prefix_iff {mem : UserMem} {va : UInt64} {off n : UInt32} {r : Int} (hsb : sb.Ordered)
    (h : Inv sb s (s.vol sb) I F) (hi : 0 < (s.itable i).ref) (hv : (s.itable i).valid = true)
    (hcall : Program.Returns (writei sb i (.user mem va) off n) s r t) :
    WritesPrefix sb s i (.user mem va) off n r t ↔ Rejects (s.itable i).size off n ∨
      Harmless ((s.vol sb).content (s.itable i).inum) (.user mem va) off.toNat n.toNat := by
  have hs := h.current hi hv
  by_cases hrej : Rejects (s.itable i).size off n
  · obtain ⟨rfl, rfl⟩ := hcall.det (writei_rejects hrej)
    exact iff_of_true ⟨fun _ => rfl, nofun⟩ (Or.inl hrej)
  have hhas : (Source.user mem va).Has n.toNat := trivial
  obtain ⟨hoff, -, hmax⟩ := not_rejects hrej
  obtain ⟨k, data, rfl, hw, hend⟩ := (writei_stores hsb hs hhas hrej).post hcall
  have hlen : ((s.vol sb).content (s.itable i).inum).length = (s.itable i).size.toNat := by
    rw [Volume.length_content, hs.size_eq]
  have hk := hend.le_length hhas
  have htake := hend.take hhas
  rw [or_iff_right hrej, hend.harmless_iff hs hw hhas hmax hlen]
  have hcontent := hw.content_iff hsb hs hoff hk
  rw [hlen, ← hcontent, ← htake]
  constructor
  · intro hprefix
    have := hprefix.content (Int.natCast_nonneg k)
    rwa [Int.toNat_natCast] at this
  · intro heq
    refine ⟨fun hneg => ?_, fun _ => ?_⟩
    · omega
    · rwa [Int.toNat_natCast]

/-- One page of ones, and no page after it. -/
def lastPage : UserMem := ⟨fun va => if va = 0 then some (Vector.replicate _ 1) else none⟩

theorem copyin_lastPage : Source.copyin (.user lastPage 4095) 2 = ([1], false) := by
  have hlast : lastPage.byte? 4095 = some 1 := by
    have hpage : lastPage.walkaddr (pageRoundDown 4095) = some (Vector.replicate _ 1) := by
      rw [show pageRoundDown 4095 = 0 by decide]
      rfl
    rw [UserMem.byte?, hpage]
    simp [Vector.get]
  have hnext : lastPage.byte? 4096 = none := by
    have hpage : lastPage.walkaddr (pageRoundDown 4096) = none := by
      rw [show pageRoundDown 4096 = 4096 by decide]
      rfl
    rw [UserMem.byte?, hpage]
    rfl
  have hread : lastPage.readable 4095 2 = [1] := by
    rw [UserMem.readable, hlast]
    show 1 :: lastPage.readable 4096 1 = [1]
    rw [UserMem.readable, hnext]
  rw [Source.copyin, UserMem.copyin_eq, hread]
  rfl

theorem smallFile_faults : ∃ t, Program.Returns (writei .small ⟨0, by decide⟩ (.user lastPage 4095) 0 2) smallFile 0 t := by
  have h := writei_returns (.user lastPage 4095) 0 2 smallFile_current (by decide) (by decide) (by decide)
    (by decide) (by decide)
  rwa [show (2 : UInt32).toNat = 2 from rfl, copyin_lastPage] at h

theorem smallFile_getD {p : Nat} (hp : p < 1024) : ((smallFile.vol .small).content ROOTINO).getD p 0 = 0 := by
  have hvol : smallFile.vol .small = Volume.single .small T_FILE 1024 .zero :=
    Volume.vol_opened Superblock.small_ordered (Volume.single_bounded Superblock.small_ordered (by decide)) _
  rw [hvol, Volume.getD_content hp, Volume.byte, show (Volume.single .small T_FILE 1024 .zero).data = fun _ => .zero from
    funext fun b => ite_self _]
  unfold Block.byte Block.zero
  rw [Vector.getElem?_replicate]
  split <;> rfl

theorem writes_prefix_iff_lastPage : ∃ t,
    Program.Returns (writei .small ⟨0, by decide⟩ (.user lastPage 4095) 0 2) smallFile 0 t ∧
    (WritesPrefix .small smallFile ⟨0, by decide⟩ (.user lastPage 4095) 0 2 0 t ↔ Rejects 1024 0 2 ∨
      Harmless ((smallFile.vol .small).content ROOTINO) (.user lastPage 4095) 0 2) := by
  obtain ⟨t, hcall⟩ := smallFile_faults
  exact ⟨t, hcall, writes_prefix_iff Superblock.small_ordered smallFile_inv (by decide) rfl hcall⟩

/-- Of a buffer that ends in the middle of a block, a byte is stored although `writei` reports none. -/
theorem not_writes_prefix : ∃ t, Program.Returns (writei .small ⟨0, by decide⟩ (.user lastPage 4095) 0 2) smallFile 0 t ∧
    ¬WritesPrefix .small smallFile ⟨0, by decide⟩ (.user lastPage 4095) 0 2 0 t := by
  obtain ⟨t, hcall⟩ := smallFile_faults
  refine ⟨t, hcall, fun hprefix => ?_⟩
  have hs := smallFile_current
  have hhas : (Source.user lastPage 4095).Has (2 : UInt32).toNat := trivial
  have hbytes : (Source.user lastPage 4095).bytes (2 : UInt32).toNat = [1] := congrArg Prod.fst copyin_lastPage
  have hlen : ((smallFile.vol .small).content ROOTINO).length = 1024 := by
    rw [Volume.length_content]
    exact congrArg UInt32.toNat hs.size_eq
  obtain ⟨k, data, hk, hw, hend⟩ := (writei_stores Superblock.small_ordered hs hhas (by decide)).post hcall
  have hk0 : k = 0 := Int.natCast_eq_zero.mp hk.symm
  subst hk0
  have hcontent := hprefix.content (Int.le_refl 0)
  have hall := (hw.content_iff Superblock.small_ordered hs (Nat.zero_le _) (Nat.zero_le _)).mp hcontent
  have hharmless := (hend.harmless_iff hs hw hhas (by decide) hlen).mpr fun p hle hlt hp => by
    rw [hlen] at hp
    exact hall p hle hlt hp
  have hbyte := hharmless (by rw [hbytes]; decide) 0
  rw [hbytes] at hbyte
  have hone := hbyte (by decide) (by decide) (by rw [hlen]; decide)
  rw [smallFile_getD (show 0 < 1024 by decide)] at hone
  exact absurd hone (by decide)

end LabSO.Kernel

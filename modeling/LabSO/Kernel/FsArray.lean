import LabSO.Kernel.FsReadWrite
import LabSO.Kernel.FsBytes
import LabSO.Kernel.VolumeArray

/-! `writei` and `readi` on the content of an inode as an array of bytes. -/

namespace LabSO.Kernel
open Program

variable {sb : Superblock} {s t u : Fs} {st : Store} {i : Fin NINODE} {src : Source} {off left tot n m k bn : Nat}
  {data : List UInt8} {b : BlockNo}

/-! ### What a copy takes from its source -/

/-- A kernel address has so many bytes. -/
def Source.Has : Source → Nat → Prop
  | kernel bytes, n => n ≤ bytes.length
  | user .., _ => True

/-- The bytes of the next `n` that can be read. -/
def Source.bytes (src : Source) (n : Nat) : List UInt8 := (src.copyin n).1

theorem UserMem.readable_add {mem : UserMem} (va : UInt64) (m k : Nat) : mem.readable va (m + k) =
    if (mem.readable va m).length = m then mem.readable va m ++ mem.readable (va + UInt64.ofNat m) k
    else mem.readable va m := by
  induction m generalizing va with
  | zero => simp [readable]
  | succ m ih =>
    have hnext : va + 1 + UInt64.ofNat m = va + UInt64.ofNat (m + 1) := by
      rw [UInt64.ofNat_add, UInt64.add_assoc, UInt64.add_comm 1]
      rfl
    rw [Nat.add_right_comm, readable, readable]
    cases mem.byte? va with
    | none => simp
    | some b =>
      simp only [ih, List.length_cons, Nat.add_right_cancel_iff, hnext]
      split <;> simp

theorem Source.copyin_add (hall : (src.copyin m).2 = true) :
    src.copyin (m + k) = (src.bytes m ++ (src.advance m).bytes k, ((src.advance m).copyin k).2) := by
  cases src with
  | kernel bytes => simp [Source.copyin, Source.bytes, advance, List.take_add]
  | user mem va =>
    simp only [Source.copyin, Source.bytes, advance, UserMem.copyin_eq, decide_eq_true_eq] at hall ⊢
    rw [UserMem.readable_add, if_pos hall, List.length_append, hall]
    simp

theorem Source.copyin_of_fails (hfails : (src.copyin m).2 = false) (hle : m ≤ n) :
    src.copyin n = (src.bytes m, false) := by
  obtain ⟨k, rfl⟩ := Nat.exists_eq_add_of_le hle
  cases src with
  | kernel bytes => cases hfails
  | user mem va =>
    have hlen := mem.length_readable_le va m
    simp only [Source.copyin, Source.bytes, UserMem.copyin_eq, decide_eq_false_iff_not] at hfails ⊢
    rw [UserMem.readable_add, if_neg hfails]
    refine Prod.ext rfl (decide_eq_false ?_)
    omega

theorem Source.copyin_zero (src : Source) : src.copyin 0 = ([], true) := by
  cases src with
  | kernel bytes => rfl
  | user mem va => rw [Source.copyin, UserMem.copyin_eq]; rfl

theorem Source.bytes_zero (src : Source) : src.bytes 0 = [] := congrArg Prod.fst src.copyin_zero

theorem Source.length_bytes_le (src : Source) (n : Nat) : (src.bytes n).length ≤ n := by
  cases src with
  | kernel bytes => exact (List.length_take_le ..)
  | user mem va =>
    rw [Source.bytes, Source.copyin, UserMem.copyin_eq]
    exact mem.length_readable_le va n

theorem Source.length_bytes_lt (hfails : (src.copyin n).2 = false) : (src.bytes n).length < n := by
  refine lt_of_le_of_ne (src.length_bytes_le n) fun heq => ?_
  cases src with
  | kernel bytes => cases hfails
  | user mem va =>
    rw [Source.bytes, Source.copyin, UserMem.copyin_eq] at heq
    rw [Source.copyin, UserMem.copyin_eq] at hfails
    exact of_decide_eq_false hfails heq

theorem Source.length_bytes (hhas : src.Has n) (hall : (src.copyin n).2 = true) : (src.bytes n).length = n := by
  cases src with
  | kernel bytes => exact List.length_take_of_le hhas
  | user mem va =>
    rw [Source.copyin, UserMem.copyin_eq] at hall
    rw [Source.bytes, Source.copyin, UserMem.copyin_eq]
    exact of_decide_eq_true hall

theorem Source.Has.advance (h : src.Has n) (m : Nat) : (src.advance m).Has (n - m) := by
  cases src with
  | kernel bytes =>
    have hle : n ≤ bytes.length := h
    show n - m ≤ (bytes.drop m).length
    rw [List.length_drop]
    omega
  | user mem va => trivial

theorem Source.Has.mono (h : src.Has n) (hle : m ≤ n) : src.Has m := by
  cases src with
  | kernel bytes => exact Nat.le_trans hle h
  | user mem va => trivial

/-- What can be read of a source begins with what can be read of less. -/
theorem Source.bytes_eq (full : (src.copyin k).2 = true) (hle : k ≤ n) :
    src.bytes n = src.bytes k ++ (src.advance k).bytes (n - k) := by
  conv_lhs => rw [← Nat.add_sub_cancel' hle]
  exact congrArg Prod.fst (Source.copyin_add full)

/-! ### The loop of `writei` -/

/-- How the loop of `writei` ends that has `left` bytes to write at `off`: after `k` bytes, with these bytes stored. -/
inductive LoopEnd (W : Volume) (inum : UInt32) (src : Source) (off left : Nat) : Nat → List UInt8 → Prop
  | all (full : (src.copyin left).2 = true) : LoopEnd W inum src off left left (src.bytes left)
  | noBlock {k : Nat} (lt : k < left) (full : (src.copyin k).2 = true)
    (zero : W.block inum ((off + k) / BSIZE) = 0) : LoopEnd W inum src off left k (src.bytes k)
  /-- A copy fails; what it has read of its piece is stored too. -/
  | fault {k : Nat} (lt : k < left) (full : (src.copyin k).2 = true) (fails : (src.copyin left).2 = false)
    (start : k = 0 ∨ (off + k) % BSIZE = 0) (within : (src.bytes left).length < k + (BSIZE - (off + k) % BSIZE)) :
    LoopEnd W inum src off left k (src.bytes left)

theorem LoopEnd.le {W : Volume} {inum : UInt32} (h : LoopEnd W inum src off left k data) : k ≤ left := by
  cases h with
  | all => exact Nat.le_refl _
  | noBlock lt | fault lt => exact Nat.le_of_lt lt

theorem LoopEnd.le_length {W : Volume} {inum : UInt32} (hhas : src.Has left)
    (h : LoopEnd W inum src off left k data) : k ≤ data.length := by
  cases h with
  | all full => exact (Source.length_bytes hhas full).ge
  | noBlock lt full => exact (Source.length_bytes (hhas.mono (Nat.le_of_lt lt)) full).ge
  | fault lt full =>
    rw [Source.bytes_eq full (Nat.le_of_lt lt), List.length_append,
      Source.length_bytes (hhas.mono (Nat.le_of_lt lt)) full]
    exact Nat.le_add_right ..

theorem LoopEnd.congr {W W' : Volume} {inum : UInt32} (hblock : ∀ l, W'.block inum l = W.block inum l)
    (h : LoopEnd W inum src off left k data) : LoopEnd W' inum src off left k data := by
  cases h with
  | all full => exact .all full
  | noBlock lt full zero => exact .noBlock lt full ((hblock _).trans zero)
  | fault lt full fails start within => exact .fault lt full fails start within

/-- The loop goes on after a piece. -/
theorem LoopEnd.advance {W : Volume} {inum : UInt32} (hall : (src.copyin m).2 = true) (hm : m ≤ left)
    (hstart : (off + m) % BSIZE = 0 ∨ m = left) (h : LoopEnd W inum (src.advance m) (off + m) (left - m) k data) :
    LoopEnd W inum src off left (m + k) (src.bytes m ++ data) := by
  have hleft : src.copyin left = (src.bytes m ++ (src.advance m).bytes (left - m), ((src.advance m).copyin (left - m)).2) := by
    conv_lhs => rw [← Nat.add_sub_cancel' hm]
    exact Source.copyin_add hall
  have hk : src.copyin (m + k) = (src.bytes m ++ (src.advance m).bytes k, ((src.advance m).copyin k).2) :=
    Source.copyin_add hall
  have hbytes := Source.bytes_eq hall hm
  cases h with
  | all full =>
    rw [Nat.add_sub_cancel' hm, ← hbytes]
    exact .all (by rw [hleft]; exact full)
  | noBlock lt full zero =>
    have hbytes' := Source.bytes_eq hall (Nat.le_add_right m k)
    rw [Nat.add_sub_cancel_left] at hbytes'
    rw [← hbytes']
    exact .noBlock (by omega) (by rw [hk]; exact full) (by rwa [← Nat.add_assoc])
  | fault lt full fails start within =>
    rw [← hbytes]
    have hstart' : m + k = 0 ∨ (off + (m + k)) % BSIZE = 0 := by
      rw [← Nat.add_assoc]
      rcases start with rfl | start
      · exact Or.inr (hstart.resolve_right (by omega))
      · exact Or.inr start
    have hlen := Source.length_bytes_le src m
    refine .fault (by omega) (by rw [hk]; exact full) (by rw [hleft]; exact fails) hstart' ?_
    rw [hbytes, List.length_append, ← Nat.add_assoc]
    omega

theorem cur_data_zero (hsb : sb.Ordered) (s : Fs) (i : Fin NINODE) : (s.cur sb i).data 0 = .zero :=
  if_neg fun hmem => hsb.ne_zero hmem rfl

/-- A block of the content is overwritten. -/
theorem Usable.setData {store : Store} {B : Block} (hsb : sb.Ordered) (h : Usable sb s i)
    (hne : (s.cur sb i).block (s.itable i).inum k ≠ 0) (hlog : LogAt sb 1 store)
    (hbufs : store.bufs = Function.update s.store.bufs ((s.cur sb i).block (s.itable i).inum k) B) :
    Usable sb { s with store } i ∧
      ({ s with store } : Fs).cur sb i = (s.cur sb i).setData ((s.cur sb i).block (s.itable i).inum k) B := by
  have hmem := Volume.mem_of_block h.exact h.dinode_type hne
  have hvol : volume sb store.bufs = (s.vol sb).setData ((s.cur sb i).block (s.itable i).inum k) B := by
    rw [hbufs]
    exact volume_setData hsb hmem
  have hcur : ({ s with store } : Fs).cur sb i =
      (s.cur sb i).setData ((s.cur sb i).block (s.itable i).inum k) B := by
    rw [Fs.cur, Fs.vol, hvol]
    rfl
  refine ⟨⟨hlog, ?_, fun b hb => ?_, h.type⟩, hcur⟩
  · rw [hcur]
    exact h.exact.setData h.dinode_type hne B
  · show (volume sb store.bufs).used b = true
    rw [hvol]
    exact h.marked b hb

/-- From `s` to `t` the bytes `data` were stored in the content of an inode in memory. -/
structure Storing (sb : Superblock) (s : Fs) (i : Fin NINODE) (off : Nat) (data : List UInt8) (t : Fs) : Prop extends
    AddrsOnly s t i where
  usable : Usable sb t i
  overwrites : (s.cur sb i).Overwrites (t.cur sb i) (s.itable i).inum off data

theorem Storing.append {data' : List UInt8} (h : Storing sb s i off data t)
    (h' : Storing sb t i (off + data.length) data' u) : Storing sb s i off (data ++ data') u :=
  ⟨h.toAddrsOnly.trans h'.toAddrsOnly, h'.usable, h.overwrites.append (h.inum ▸ h'.overwrites)⟩

theorem Mapping.storing (hsb : sb.Ordered) (hs : Usable sb s i) (h : Mapping sb s i bn t) (off : Nat) :
    Storing sb s i off [] t :=
  ⟨h.toAddrsOnly, h.usable, h.maps.overwrites hs.dinode_type ((cur_data_zero hsb t i).trans (cur_data_zero hsb s i).symm) off⟩

theorem Usable.storing {store : Store} (hsb : sb.Ordered) (h : Usable sb s i)
    (hne : (s.cur sb i).block (s.itable i).inum (off / BSIZE) ≠ 0) (hfits : off % BSIZE + data.length ≤ BSIZE)
    (hlog : LogAt sb 1 store)
    (hbufs : store.bufs = Function.update s.store.bufs ((s.cur sb i).block (s.itable i).inum (off / BSIZE))
      ((s.store.bufs ((s.cur sb i).block (s.itable i).inum (off / BSIZE))).write (off % BSIZE) data)) :
    Storing sb s i off data { s with store } := by
  obtain ⟨husable, hcur⟩ := h.setData hsb hne hlog hbufs
  refine ⟨.store s i store, husable, ?_⟩
  have hdata : (s.cur sb i).data ((s.cur sb i).block (s.itable i).inum (off / BSIZE)) =
      s.store.bufs ((s.cur sb i).block (s.itable i).inum (off / BSIZE)) :=
    vol_data (Volume.mem_of_block h.exact h.dinode_type hne)
  rw [hcur, ← hdata]
  exact h.exact.overwrites h.dinode_type hne hfits

theorem LogAt.setBuf {k : Int} (h : LogAt sb k st) (b : BlockNo) (B : Block) : LogAt sb k (st.setBuf b B) :=
  ⟨h.start, h.size, h.outstanding, h.committing, h.fits⟩

/-- The loop of `writei` stores what it can read of its source, up to the first block that it does not get and the first
    copy that fails. -/
theorem writeiFrom_stores (hsb : sb.Ordered) (hs : Usable sb s i) (hhas : src.Has (n - tot)) :
    Wp Tolerated (writeiFrom sb i src off tot n) (fun r t => ∃ k data, r = (tot + k, off + k) ∧
      Storing sb s i off data t ∧ LoopEnd (t.cur sb i) (s.itable i).inum src off (n - tot) k data) s := by
  induction hleft : n - tot using Nat.strongRecOn generalizing src off tot s with
  | ind left ih =>
    rw [writeiFrom]
    refine .ite (fun hlt => ?_) fun hend => ?_
    · refine .bind (bmap_maps hsb hs _) ?_
      rintro a t ⟨ht, rfl⟩
      have hmapped := ht.storing hsb hs off
      have hpos : 0 < left := by omega
      refine .ite (fun h0 => .pure ⟨0, [], rfl, hmapped, ?_⟩) fun hne => bread_bind ?_
      · rw [← src.bytes_zero]
        exact .noBlock hpos (congrArg Prod.snd src.copyin_zero) h0
      have hmod : off % BSIZE < BSIZE := Nat.mod_lt _ (by decide)
      rw [hleft]
      generalize hm : min left (BSIZE - off % BSIZE) = m
      have hmle : m ≤ left := by omega
      have hlen : (src.bytes m).length ≤ m := src.length_bytes_le m
      rcases hsrc : src.copyin m with ⟨bytes, all⟩
      have hbytes : src.bytes m = bytes := congrArg Prod.fst hsrc
      rw [hbytes] at hlen
      simp only [hsrc]
      have hstore : ∀ store, LogAt sb 1 store → store.bufs = Function.update t.store.bufs
          ((t.cur sb i).block (s.itable i).inum (off / BSIZE))
          ((t.store.bufs ((t.cur sb i).block (s.itable i).inum (off / BSIZE))).write (off % BSIZE) bytes) →
          Storing sb s i off bytes { t with store } := by
        intro store hlog hbufs
        rw [← ht.inum] at hne hbufs
        have hfits : off % BSIZE + bytes.length ≤ BSIZE := by omega
        exact hmapped.append (ht.usable.storing hsb hne hfits hlog hbufs)
      have hmem : (t.cur sb i).block (s.itable i).inum (off / BSIZE) ∈ sb.dataBlocks := by
        rw [← ht.inum] at hne ⊢
        exact Volume.mem_of_block ht.usable.exact ht.usable.dinode_type hne
      refine .ite (fun hall => ?_) fun hnot => ?_
      · subst hall
        have hall : (src.copyin m).2 = true := congrArg Prod.snd hsrc
        have hfull : bytes.length = m := hbytes ▸ Source.length_bytes (hhas.mono (by omega)) hall
        refine onStore_bind (logWrite_spec hsb ht.usable.log (inodestart_le_data hsb hmem)) ?_
        rintro _ store ⟨hlog, hbufs⟩
        have hu := hstore store hlog hbufs
        have hrest : n - (tot + m) = left - m := by omega
        refine (ih (left - m) (by omega) hu.usable (hrest ▸ hleft ▸ Nat.sub_add_eq n tot m ▸ hhas.advance m) hrest).mono ?_
        rintro _ w ⟨k, data, rfl, hw, hend⟩
        rw [hu.inum] at hend
        refine ⟨m + k, bytes ++ data, by rw [Nat.add_assoc, Nat.add_assoc], hu.append (hfull.symm ▸ hw), ?_⟩
        rw [← hbytes]
        refine hend.advance hall hmle ?_
        by_cases hlast : m = left
        · exact Or.inr hlast
        · left
          have hdiv := Nat.div_add_mod off BSIZE
          have hnext : off + m = BSIZE * (off / BSIZE + 1) := by rw [Nat.mul_succ]; omega
          rw [hnext, Nat.mul_mod_right]
      · have hfalse : all = false := by simpa using hnot
        subst hfalse
        refine onStore_bind (P := fun _ store => LogAt sb 1 store ∧ store.bufs = _)
          (.liftState ⟨ht.usable.log.setBuf .., rfl⟩) ?_
        rintro _ store ⟨hlog, hbufs⟩
        refine .pure ⟨0, bytes, rfl, hstore store hlog hbufs, ?_⟩
        have hfails := Source.copyin_of_fails (congrArg Prod.snd hsrc) hmle
        have hshort := Source.length_bytes_lt (congrArg Prod.snd hsrc)
        have hbytes' : src.bytes left = bytes := (congrArg Prod.fst hfails).trans hbytes
        rw [← hbytes']
        refine .fault hpos (congrArg Prod.snd src.copyin_zero) (congrArg Prod.snd hfails) (Or.inl rfl) ?_
        rw [hbytes', Nat.add_zero, Nat.zero_add]
        rw [hbytes] at hshort
        omega
    · have hzero : left = 0 := by omega
      refine .pure ⟨0, [], rfl, ⟨.refl s i, hs, .refl ..⟩, ?_⟩
      rw [hzero, ← src.bytes_zero]
      exact .all (congrArg Prod.snd src.copyin_zero)

/-! ### `writei` -/

/-- The entry is the copy of an inode in use, agrees with the disk, and has all blocks below its size. -/
structure Current (sb : Superblock) (s : Fs) (i : Fin NINODE) : Prop extends Usable sb s i where
  cached : (s.itable i).toDinode = (s.vol sb).dinode (s.itable i).inum
  inum_lt : (s.itable i).inum.toNat < sb.ninodes.toNat
  noHole : (s.vol sb).Mapped (s.itable i).inum (s.itable i).size.toNat

theorem Current.cur_eq (h : Current sb s i) : s.cur sb i = s.vol sb := by
  rw [Fs.cur, h.cached]
  exact Volume.ext rfl (Function.update_eq_self ..) rfl

theorem Inv.current {I : Multiset (Fin NINODE)} {F : Multiset (Fin NFILE)} (h : Inv sb s (s.vol sb) I F)
    (hi : 0 < (s.itable i).ref) (hv : (s.itable i).valid = true) : Current sb s i := by
  obtain ⟨hcached, htype⟩ := h.tables.cached i hi hv
  have hcur := h.cur_eq hi hv
  refine ⟨Inv.usable (hcur ▸ h) hi hv, hcached, h.tables.inum_lt i hi, fun k hk hlt => ?_⟩
  exact (h.ok.sound _ (hcached ▸ htype)).noHole k hk (hcached ▸ hlt)

theorem Current.setStore {store : Store} (h : Current sb s i) (hlog : LogAt sb 1 store)
    (hvol : volume sb store.bufs = s.vol sb) : Current sb { s with store } i := by
  refine ⟨h.toUsable.setStore hlog hvol, ?_, h.inum_lt, ?_⟩
  · show _ = (volume sb store.bufs).dinode _
    rw [hvol]
    exact h.cached
  · show (volume sb store.bufs).Mapped _ _
    rw [hvol]
    exact h.noHole

theorem Current.size_eq (h : Current sb s i) : ((s.vol sb).dinode (s.itable i).inum).size = (s.itable i).size := by
  rw [← h.cached]

/-- The calls that `writei` rejects: the range begins past the end, or goes on past the largest size or number. -/
def Rejects (size off n : UInt32) : Prop := off > size ∨ off + n < off ∨ (off + n).toNat > MAXFILE * BSIZE

instance (size off n : UInt32) : Decidable (Rejects size off n) := inferInstanceAs (Decidable (_ ∨ _ ∨ _))

theorem not_rejects {size off n : UInt32} (h : ¬Rejects size off n) :
    off.toNat ≤ size.toNat ∧ (off + n).toNat = off.toNat + n.toNat ∧ off.toNat + n.toNat ≤ MAXFILE * BSIZE := by
  rw [Rejects, not_or, not_or] at h
  have hadd := toNat_add_of_not_lt h.2.1
  refine ⟨?_, hadd, ?_⟩
  · rw [← UInt32.le_iff_toNat_le, ← UInt32.not_lt]
    exact h.1
  · rw [← hadd]
    exact Nat.le_of_not_lt h.2.2

/-- A call that is rejected changes nothing. -/
theorem writei_rejects {off n : UInt32} (h : Rejects (s.itable i).size off n) :
    Program.Returns (writei sb i src off n) s (-1) s := by
  refine inode_returns.bind ?_
  by_cases hfirst : off > (s.itable i).size ∨ off + n < off
  · rw [if_pos hfirst]
    exact .pure
  · rw [if_neg hfirst, if_pos ((or_assoc.mpr h).resolve_left hfirst)]
    exact .pure

/-- What `writei` did from `s` to `t`, where it has written `k` bytes and stored `data`. -/
structure Written (sb : Superblock) (s : Fs) (i : Fin NINODE) (off k : Nat) (data : List UInt8) (t : Fs) : Prop where
  current : Current sb t i
  self : t.itable i = { s.itable i with addrs := (t.itable i).addrs, size := (t.itable i).size }
  other : ∀ j, j ≠ i → t.itable j = s.itable j
  ftable : t.ftable = s.ftable
  proc : t.proc = s.proc
  size : (t.itable i).size.toNat = max (s.itable i).size.toNat (off + k)
  overwrites : (s.vol sb).Overwrites (t.vol sb) (s.itable i).inum off data

/-- The size goes up to the end of what was written, and the inode is written to the disk. -/
theorem Storing.written (hs : Current sb s i) (h : Storing sb s i off data t) {z : UInt32}
    (hoff : off ≤ (s.itable i).size.toNat) (hz : z.toNat = max (s.itable i).size.toNat (off + k)) (hk : k ≤ data.length)
    (hlog : LogAt sb 1 u.store) (hvol : u.vol sb = (t.setInode i { t.itable i with size := z }).cur sb i)
    (hitable : u.itable = (t.setInode i { t.itable i with size := z }).itable) (hftable : u.ftable = t.ftable)
    (hproc : u.proc = t.proc) : Written sb s i off k data u := by
  have hself : u.itable i = { t.itable i with size := z } := by rw [hitable, Fs.itable_setInode_self]
  have hinum : (u.itable i).inum = (s.itable i).inum := by rw [hself, ← h.inum]
  let d : Dinode := { (t.itable i).toDinode with size := z }
  have hd := cur_dinode t sb i
  have hvol' : u.vol sb = (t.cur sb i).setDinode (s.itable i).inum d := by rw [hvol, cur_resize, ← h.inum]
  have hcached : (u.itable i).toDinode = (u.vol sb).dinode (u.itable i).inum := by
    rw [hinum, hvol', Volume.dinode_setDinode, hself]
  have hcur : u.cur sb i = u.vol sb := by
    rw [Fs.cur, hcached]
    exact Volume.ext rfl (Function.update_eq_self ..) rfl
  rw [h.inum] at hd
  have htype : ((t.cur sb i).dinode (s.itable i).inum).type ≠ 0 := by
    rw [hd]
    exact h.usable.type
  have hover : (s.vol sb).Overwrites (u.vol sb) (s.itable i).inum off data := by
    rw [← hs.cur_eq, hvol']
    exact h.overwrites.setDinode (by rw [hd]) (by rw [hd])
  refine ⟨⟨⟨hlog, ?_, fun b hb => ?_, ?_⟩, hcached, hinum ▸ hs.inum_lt, fun l hl hlt => ?_⟩, ?_, fun j hj => ?_,
    hftable.trans h.ftable, hproc.trans h.proc, by rw [hself]; exact hz, hover⟩
  · rw [hcur, hvol']
    exact h.usable.exact.setDinode htype h.usable.type (by rw [hd])
  · rw [hvol']
    exact h.usable.marked b hb
  · rw [hself]
    exact h.usable.type
  · have hsize : (u.itable i).size.toNat = max (s.itable i).size.toNat (off + k) := by rw [hself]; exact hz
    rw [hsize] at hlt
    rw [hinum]
    by_cases hold : l * BSIZE < (s.itable i).size.toNat
    · have hne := hs.noHole l hl hold
      rwa [hover.block l hne]
    · have hne := (hover.stored (l * BSIZE) (by omega) (by omega)).1
      rwa [Nat.mul_div_cancel _ (by decide)] at hne
  · rw [hself]
    show _ = _
    rw [h.self]
  · rw [hitable, Fs.itable_setInode_of_ne _ _ hj, h.other j hj]

theorem writei_stores {off n : UInt32} (hsb : sb.Ordered) (hs : Current sb s i) (hhas : src.Has n.toNat)
    (hnot : ¬Rejects (s.itable i).size off n) :
    Wp Tolerated (writei sb i src off n) (fun r t => ∃ (k : Nat) (data : List UInt8), r = k ∧ Written sb s i off.toNat k data t ∧
      LoopEnd (t.vol sb) (s.itable i).inum src off.toNat n.toNat k data) s := by
  obtain ⟨hoff, hadd, hmax⟩ := not_rejects hnot
  rw [Rejects, not_or, not_or] at hnot
  refine inode_bind (.ite (fun h => absurd h (not_or.mpr ⟨hnot.1, hnot.2.1⟩)) fun _ => .ite (fun h => absurd h hnot.2.2)
    fun _ => ?_)
  refine .bind (writeiFrom_stores hsb hs.toUsable hhas) ?_
  rintro _ t ⟨k, data, rfl, ht, hend⟩
  have hk : k ≤ n.toNat := hend.le
  have hsize : (t.itable i).size = (s.itable i).size := by rw [ht.self]
  have hz : (UInt32.ofNat (off.toNat + k)).toNat = off.toNat + k :=
    UInt32.toNat_ofNat_of_lt ((Nat.add_le_add_left hk _).trans_lt (hmax.trans_lt (by decide)))
  let z := if off.toNat + k > (t.itable i).size.toNat then UInt32.ofNat (off.toNat + k) else (t.itable i).size
  have hx : (if off.toNat + k > (t.itable i).size.toNat then { t.itable i with size := UInt32.ofNat (off.toNat + k) }
      else t.itable i) = { t.itable i with size := z } := by
    unfold z
    split <;> rfl
  have hzmax : z.toNat = max (s.itable i).size.toNat (off.toNat + k) := by
    unfold z
    split
    · rw [hz, ← hsize]
      omega
    · rw [← hsize]
      omega
  refine modifyInode_bind ?_
  simp only [Nat.zero_add]
  rw [hx]
  refine .bind (iupdate_volume hsb ht.usable.log (by
    rw [Fs.itable_setInode_self, show (t.itable i).inum = _ from ht.inum]
    exact hs.inum_lt)) ?_
  rintro _ u ⟨hlog, hvol, hitable, hftable, hproc⟩
  have hw := ht.written hs hoff hzmax (hend.le_length hhas) hlog hvol hitable hftable hproc
  refine .pure ⟨k, data, rfl, hw, hend.congr fun l => ?_⟩
  rw [hvol, cur_resize]
  exact Volume.block_setDinode (by rw [cur_dinode]) _ l

/-! ### A call within one block -/

theorem onStore_returns_store {α : Type} {m : Prog Store Stop α} {a : α} {store : Store}
    (h : Program.Returns m s.store a store) : Program.Returns (onStore m) s a { s with store } := by
  rw [Program.Returns, onStore, zoom, h]

theorem iupdate_logging (sb : Superblock) (i : Fin NINODE) (hroom : ¬s.store.log.TooBig) (hout : s.store.log.outstanding = 1) :
    Program.Returns (iupdate sb i) s () { s with
      store := s.store.logging (IBLOCK (s.itable i).inum sb)
        ((s.store.bufs (IBLOCK (s.itable i).inum sb)).setDinode ((s.itable i).inum.toNat % IPB) (s.itable i).toDinode) } :=
  inode_returns.bind (bread_returns.bind (onStore_returns_store (logWrite_returns hroom hout)))

theorem writei_returns (src : Source) (off n : UInt32) (hs : Current sb s i) (hn : 0 < n.toNat)
    (hnot : ¬Rejects (s.itable i).size off n) (hwithin : off.toNat % BSIZE + n.toNat ≤ BSIZE)
    (hlt : off.toNat < (s.itable i).size.toNat) (hroom : s.store.log.HasRoom 2) :
    ∃ t, Program.Returns (writei sb i src off n) s (if (src.copyin n.toNat).2 then (n.toNat : Int) else 0) t := by
  obtain ⟨hoff, hadd, hmax⟩ := not_rejects hnot
  rw [Rejects, not_or, not_or] at hnot
  have hne := hs.noHole.block_ne hlt (Nat.div_lt_of_lt_mul (by rw [Nat.mul_comm]; omega))
  rw [← hs.cur_eq] at hne
  have hmap := bmap_returns (hs.exact.within hs.dinode_type) hne
  have hmin : min (n.toNat - 0) (BSIZE - off.toNat % BSIZE) = n.toNat := by omega
  have hout := hs.log.outstanding
  obtain ⟨t, tot, hloop, hroom', hout'⟩ : ∃ t tot, Program.Returns (writeiFrom sb i src off.toNat 0 n.toNat) s
      (if (src.copyin n.toNat).2 then n.toNat else 0, tot) t ∧ t.store.log.HasRoom 1 ∧ t.store.log.outstanding = 1 := by
    rw [writeiFrom, if_pos hn]
    rcases hsrc : src.copyin n.toNat with ⟨bytes, all⟩
    let a := (s.cur sb i).block (s.itable i).inum (off.toNat / BSIZE)
    let B := (s.store.bufs a).write (off.toNat % BSIZE) bytes
    cases all with
    | true =>
      refine ⟨{ s with store := s.store.logging a B }, off.toNat + n.toNat, hmap.bind ?_, hroom.logging a B, ?_⟩
      · rw [if_neg hne]
        refine bread_returns.bind ?_
        simp only [hmin, hsrc, if_pos]
        refine (onStore_returns_store (logWrite_returns hroom.notTooBig hout)).bind ?_
        rw [Nat.zero_add, writeiFrom, if_neg (Nat.lt_irrefl _)]
        exact .pure
      · show (s.store.logging a B).log.outstanding = 1
        rw [Store.log_logging]
        exact hout
    | false =>
      refine ⟨{ s with store := s.store.setBuf a B }, off.toNat, hmap.bind ?_, ?_, hout⟩
      · rw [if_neg hne]
        refine bread_returns.bind ?_
        simp only [hmin, hsrc]
        exact Program.Returns.bind (onStore_returns_store rfl) .pure
      · exact hroom.mono (l := 1) (by decide)
  let t' := t.setInode i (if tot > (t.itable i).size.toNat then { t.itable i with size := UInt32.ofNat tot } else t.itable i)
  obtain ⟨u, hu⟩ : ∃ u, Program.Returns (iupdate sb i) t' () u := ⟨_, iupdate_logging sb i hroom'.notTooBig hout'⟩
  refine ⟨u, inode_returns.bind ?_⟩
  rw [if_neg (not_or.mpr ⟨hnot.1, hnot.2.1⟩), if_neg hnot.2.2]
  refine hloop.bind (Program.Returns.bind (show Program.Returns (modifyInode i _) t () t' from rfl) (hu.bind ?_))
  split <;> exact .pure

end LabSO.Kernel

import LabSO.Kernel.FsBlocks
import LabSO.Kernel.LogSteps

/-! What the block layer does to the volume, within an operation and at its ends. -/

namespace LabSO.Kernel
open Program Writes

variable {sb : Superblock} {s t : Store} {a b : BlockNo} {data : Block}

/-- The ways to stop that say nothing against the free bit map. -/
def Tolerated (e : Stop) : Prop := e ≠ .panic "freeing free block"

/-- The log while `k` operations are outstanding and none commits. -/
structure LogAt (sb : Superblock) (k : Int) (s : Store) : Prop where
  start : s.log.start = sb.logstart
  size : s.log.size = sb.nlog.toNat
  outstanding : s.log.outstanding = k
  committing : s.log.committing = false
  fits : Fits sb.logstart sb.nlog.toNat s.log.lh

/-- Between operations. -/
structure Quiet (sb : Superblock) (s : Store) : Prop extends LogAt sb 0 s where
  empty : s.log.lh = []

theorem notInLog (h : sb.Ordered) (hb : sb.inodestart.toNat ≤ b.toNat) : ¬InLog sb.logstart sb.nlog.toNat b := by
  rintro ⟨i, hi, rfl⟩
  have hnlog := h.inodes
  have hstart := sb.inodestart.toNat_lt
  rw [UInt32.toNat_add, UInt32.toNat_ofNat'] at hb
  omega

/-! ### Transactions -/

theorem beginOp_spec (hs : Quiet sb s) :
    Wp Tolerated beginOp (fun _ t => LogAt sb 1 t ∧ t.bufs = s.bufs) s := by
  have hsmall : ¬s.log.mightExhaust := by
    rw [Log.mightExhaust, hs.empty, hs.outstanding]
    decide
  rcases hlog : s.log.beginOp with _ | log
  · rcases Log.beginOp_eq_none hlog with hcommitting | hfull
    · rw [hs.committing] at hcommitting
      cases hcommitting
    · exact absurd hfull hsmall
  · obtain ⟨-, -, rfl⟩ := Log.beginOp_eq_some hlog
    have hret : beginOp s = (.ok (), { s with log := { s.log with outstanding := s.log.outstanding + 1 } }) := by
      simp only [beginOp, hlog]
    refine .of_returns hret ⟨⟨hs.start, hs.size, ?_, hs.committing, hs.fits⟩, rfl⟩
    show s.log.outstanding + 1 = 1
    rw [hs.outstanding]
    rfl

/-- After `log_write`, where the log has room. -/
def Store.logging (s : Store) (b : BlockNo) (data : Block) : Store :=
  if b ∈ s.log.lh then s.setBuf b data
  else { (s.setBuf b data).bpin b with log := { s.log with lh := s.log.lh ++ [b] } }

@[simp] theorem Store.bufs_logging (s : Store) (b : BlockNo) (data : Block) :
    (s.logging b data).bufs = Function.update s.bufs b data := by
  unfold logging
  split <;> rfl

theorem Store.log_logging (s : Store) (b : BlockNo) (data : Block) :
    (s.logging b data).log = { s.log with lh := if b ∈ s.log.lh then s.log.lh else s.log.lh ++ [b] } := by
  unfold logging
  split <;> rfl

/-- The log has room for `k` blocks more. -/
def Log.HasRoom (log : Log) (k : Nat) : Prop := log.lh.length + k ≤ LOGSIZE ∧ ((log.lh.length + k : Nat) : Int) ≤ log.size - 1

instance (log : Log) (k : Nat) : Decidable (log.HasRoom k) := inferInstanceAs (Decidable (_ ∧ _))

theorem Log.HasRoom.mono {log : Log} {k l : Nat} (h : log.HasRoom k) (hle : l ≤ k) : log.HasRoom l := by
  obtain ⟨hslots, hsize⟩ := h
  exact ⟨by omega, by omega⟩

theorem Log.HasRoom.notTooBig {log : Log} {k : Nat} (h : log.HasRoom (k + 1)) : ¬log.TooBig := by
  obtain ⟨hslots, hsize⟩ := h
  rw [TooBig, not_or]
  omega

theorem Log.HasRoom.logging {k : Nat} (h : s.log.HasRoom (k + 1)) (b : BlockNo) (B : Block) : (s.logging b B).log.HasRoom k := by
  obtain ⟨hslots, hsize⟩ := h
  rw [s.log_logging b B]
  unfold HasRoom
  dsimp only
  split
  · omega
  · rw [List.length_append, List.length_singleton]
    omega

theorem logWrite_of_ok {new : Bool} {log : Log} (h : s.log.logWrite b = .ok (new, log)) :
    Program.Returns (logWrite b data) s () (s.logging b data) := by
  have hret : logWrite b data s =
      (.ok (), { (if new then (s.setBuf b data).bpin b else s.setBuf b data) with log }) := by
    simp only [logWrite]
    rw [show (s.setBuf b data).log.logWrite b = .ok (new, log) from h]
  rw [Program.Returns, hret, Store.logging]
  obtain ⟨-, ⟨rfl, hmem, rfl⟩ | ⟨rfl, hmem, rfl⟩⟩ := Log.logWrite_eq_ok h
  · rw [if_neg hmem]
    rfl
  · rw [if_pos hmem]
    rfl

theorem logWrite_returns (hroom : ¬s.log.TooBig) (hout : s.log.outstanding = 1) :
    Program.Returns (logWrite b data) s () (s.logging b data) := by
  rcases hlog : s.log.logWrite b with msg | ⟨new, log⟩
  · rcases Log.logWrite_eq_error hlog with ⟨-, hbig⟩ | ⟨-, hnone⟩
    · exact absurd hbig hroom
    · omega
  · exact logWrite_of_ok hlog

/-- Where `log_write` returns, the log had room. -/
theorem logWrite_logs :
    Wp Tolerated (logWrite b data) (fun _ t => ¬s.log.TooBig ∧ t = s.logging b data) s := by
  rcases hlog : s.log.logWrite b with msg | ⟨new, log⟩
  · have hhalt : Halts (logWrite b data) s (.panic msg) (s.setBuf b data) := by
      simp only [Halts, logWrite, Store.setBuf, hlog]
    refine .of_halts hhalt ?_
    rcases Log.logWrite_eq_error hlog with ⟨rfl, -⟩ | ⟨rfl, -⟩
    · simp [Tolerated]
    · simp [Tolerated]
  · exact .of_returns (logWrite_of_ok hlog) ⟨(Log.logWrite_eq_ok hlog).1, rfl⟩

theorem logWrite_spec (h : sb.Ordered) (hs : LogAt sb 1 s) (hb : sb.inodestart.toNat ≤ b.toNat) :
    Wp Tolerated (logWrite b data) (fun _ t => LogAt sb 1 t ∧ t.bufs = Function.update s.bufs b data) s := by
  refine logWrite_logs.mono ?_
  rintro _ t ⟨hroom, rfl⟩
  refine ⟨?_, s.bufs_logging b data⟩
  rw [Log.TooBig, not_or] at hroom
  refine ⟨?_, ?_, ?_, ?_, ?_⟩ <;> rw [s.log_logging b data]
  · exact hs.start
  · exact hs.size
  · exact hs.outstanding
  · exact hs.committing
  · split
    · exact hs.fits
    · refine ⟨?_, ?_, fun c hc => ?_⟩
      · rw [List.length_append]
        exact Nat.lt_of_not_le hroom.1
      · have := hroom.2
        rw [hs.size] at this
        simp only [List.length_append, List.length_singleton]
        omega
      · rcases List.mem_append.mp hc with hc | hc
        · exact hs.fits.home c hc
        · rw [List.mem_singleton.mp hc]
          exact notInLog h hb

/-- Outside of the log, `commit` leaves the buffers as they are. -/
theorem commit_spec {start : BlockNo} {size : Int} (hstart : s.log.start = start) (hf : Fits start size s.log.lh) :
    s.commit.log = { s.log with lh := [] } ∧ ∀ c, ¬InLog start size c → s.commit.bufs c = s.bufs c := by
  subst hstart
  unfold Store.commit
  split
  · have hwrite : s.writeLog = s.put (logWrites s.log.start s.bufs 0 s.log.lh) :=
      writeLogLoop_eq hf.noSlot (Nat.zero_add _).le
    let t := s.writeLog.writeHead
    have hlog : t.log = s.log := by
      show s.writeLog.log = s.log
      rw [hwrite]
      rfl
    have hslots : ∀ k (hk : k < s.log.lh.length), t.bufs (logSlot s.log.start (0 + k)) = s.bufs s.log.lh[k] := by
      intro k hk
      have hlen : 0 + s.log.lh.length ≤ LOGSIZE := (Nat.zero_add _).trans_le hf.length_le
      have hne : logSlot s.log.start (0 + k) ≠ s.log.start := logSlot_ne_start (by have := hf.length_le; omega)
      show s.writeLog.writeHead.bufs _ = _
      rw [Store.writeHead_eq, hwrite]
      exact (Function.update_of_ne hne ..).trans (apply_logWrites hlen hk)
    obtain ⟨hb, pins, hclear⟩ := installTrans_clear t false (by rw [hlog]; exact hf.noSlot)
    rw [hclear, hlog]
    refine ⟨rfl, fun c hc => ?_⟩
    have hcs : c ≠ s.log.start := fun heq => hc (heq ▸ inLog_start hf.size_pos)
    rw [installWrites_eq hslots]
    show apply t.bufs _ c = _
    rw [apply_append, apply_cons, apply_nil, Function.update_of_ne hcs]
    by_cases hmem : c ∈ (s.log.lh.map fun b => (b, s.bufs b)).map Prod.fst
    · refine apply_of_mem (fun w hw => ?_) hmem
      obtain ⟨b, -, rfl⟩ := List.mem_map.mp hw
      rfl
    rw [apply_of_notMem hmem]
    show s.writeLog.writeHead.bufs c = _
    rw [Store.writeHead_eq, hwrite]
    refine (Function.update_of_ne hcs ..).trans (apply_of_notMem fun hslot => ?_)
    obtain ⟨w, hw, rfl⟩ := List.mem_map.mp hslot
    obtain ⟨i, -, hi, heq⟩ := fst_logWrites hw
    have := hf.length_lt
    exact hc (heq ▸ inLog_logSlot (by omega))
  · next hempty =>
    have hnil : s.log.lh = [] := List.eq_nil_of_length_eq_zero (by omega)
    exact ⟨by rw [← hnil], fun _ _ => rfl⟩

theorem endOp_spec (h : sb.Ordered) (hs : LogAt sb 1 s) :
    Wp Tolerated endOp (fun _ t => Quiet sb t ∧ volume sb t.bufs = volume sb s.bufs) s := by
  rcases hlog : s.log.endOp with msg | ⟨last, log⟩
  · obtain ⟨-, hcommitting⟩ := Log.endOp_eq_error hlog
    rw [hs.committing] at hcommitting
    cases hcommitting
  cases last with
  | false =>
    obtain ⟨-, hne, -⟩ := Log.endOp_eq_other hlog
    exact absurd hs.outstanding hne
  | true =>
    obtain ⟨-, -, rfl⟩ := Log.endOp_eq_last hlog
    let u : Store := { s with log := { s.log with outstanding := 0, committing := true } }
    obtain ⟨hlog', hbufs⟩ := commit_spec (s := u) hs.start hs.fits
    have hret : endOp s = (.ok (), { u.commit with log := { u.commit.log with committing := false } }) := by
      simp only [endOp, hlog, u]
    refine .of_returns hret ⟨?_, volume_congr h fun b hb => hbufs b (notInLog h hb)⟩
    rw [hlog']
    refine ⟨⟨hs.start, hs.size, rfl, rfl, Nat.zero_le _, ?_, nofun⟩, rfl⟩
    have := hs.fits.length_lt
    simp only [List.length_nil]
    omega

/-! ### Allocation -/

theorem scanBits_some {bp : Block} {b bi left i : Nat} (h : scanBits sb bp b bi left = some i) :
    b + i < sb.size.toNat ∧ i < bi + left ∧ bp.bit i = false := by
  induction left generalizing bi with
  | zero => cases h
  | succ left ih =>
    rw [scanBits] at h
    split at h
    · next hlt =>
      split at h
      · obtain ⟨hsize, hi, hbit⟩ := ih h
        exact ⟨hsize, by omega, hbit⟩
      · next hbit =>
        cases h
        exact ⟨hlt, by omega, eq_false_of_ne_true hbit⟩
    · cases h

theorem toNat_ofNat_block (hsize : sb.size.toNat < 2 ^ 31) {i : Nat} (hi : i < sb.size.toNat) : (UInt32.ofNat i).toNat = i :=
  UInt32.toNat_ofNat_of_lt' ((hi.trans hsize).trans (by decide))

/-- Where the bit is that the loops read at `b` and `i`. -/
theorem BBLOCK_of_scan (sb : Superblock) {b i : Nat} {c : BlockNo} (hb : BPB ∣ b) (hlt : b < 2 ^ 31) (hi : i < BPB) (hc : c.toNat = b + i) :
    BBLOCK (.ofNat b) sb = BBLOCK c sb ∧ c.toNat % BPB = i := by
  obtain ⟨q, rfl⟩ := hb
  refine ⟨?_, ?_⟩
  · rw [BBLOCK_eq_iff, hc, UInt32.toNat_ofNat_of_lt' (hlt.trans (by decide)), Nat.mul_add_div (by decide),
      Nat.div_eq_of_lt hi, Nat.add_zero, Nat.mul_div_cancel_left _ (by decide)]
  · rw [hc, Nat.mul_add_mod, Nat.mod_eq_of_lt hi]

theorem inodestart_le_BBLOCK (h : sb.Ordered) (hb : b.toNat < sb.size.toNat) :
    sb.inodestart.toNat ≤ (BBLOCK b sb).toNat := by
  rw [(toNat_BBLOCK h hb).1]
  exact ((Nat.le_add_right ..).trans h.bitmap).trans (Nat.le_add_right ..)

theorem inodestart_le_IBLOCK {n : UInt32} (h : sb.Ordered) (hn : n.toNat < sb.ninodes.toNat) :
    sb.inodestart.toNat ≤ (IBLOCK n sb).toNat := by
  rw [(toNat_IBLOCK h hn).1]
  exact Nat.le_add_right ..

theorem inodestart_le_data (h : sb.Ordered) (hb : b ∈ sb.dataBlocks) : sb.inodestart.toNat ≤ b.toNat :=
  (((Nat.le_add_right ..).trans h.bitmap).trans ((Nat.le_add_right ..).trans h.data)).trans hb.1

theorem ballocFrom_spec (h : sb.Ordered) {b : Nat} (hb : BPB ∣ b) (hs : LogAt sb 1 s)
    (hmarked : ∀ c : BlockNo, c.toNat < sb.dataStart → (volume sb s.bufs).used c = true) :
    Wp Tolerated (ballocFrom sb b) (fun a t => LogAt sb 1 t ∧
      (a = 0 ∧ volume sb t.bufs = volume sb s.bufs ∨
        a ∈ sb.dataBlocks ∧ (volume sb s.bufs).used a = false ∧
          volume sb t.bufs = (volume sb s.bufs).alloc a)) s := by
  induction b using ballocFrom.induct sb with
  | case1 b hlt ih =>
    rw [ballocFrom, if_pos hlt]
    refine .liftState_bind ?_
    dsimp only
    rcases hscan : scanBits sb (s.bufs (BBLOCK (.ofNat b) sb)) b 0 BPB with _ | i
    · exact ih (Nat.dvd_add hb (Nat.dvd_refl BPB))
    obtain ⟨hsize, hi, hbit⟩ := scanBits_some hscan
    rw [Nat.zero_add] at hi
    let a := UInt32.ofNat (b + i)
    have ha : a.toNat = b + i := toNat_ofNat_block h.size hsize
    have hasize : a.toNat < sb.size.toNat := ha ▸ hsize
    obtain ⟨hblock, hmod⟩ := BBLOCK_of_scan sb hb (hlt.trans h.size) hi ha
    have hfree : (volume sb s.bufs).used a = false := by
      simp only [volume, hasize, decide_true, Bool.true_and, hmod]
      rw [← hblock]
      exact hbit
    have hdata : a ∈ sb.dataBlocks := by
      refine ⟨Nat.le_of_not_lt fun hmeta => ?_, hasize⟩
      rw [hmarked a hmeta] at hfree
      cases hfree
    rw [hblock]
    refine .bind (logWrite_spec h hs (inodestart_le_BBLOCK h hasize)) fun _ t ht => ?_
    refine .bind (logWrite_spec h ht.1 (inodestart_le_data h hdata)) fun _ u hu => ?_
    refine .pure ⟨hu.1, Or.inr ⟨hdata, hfree, ?_⟩⟩
    rw [hu.2, volume_setData h hdata, ht.2, volume_setUsed h hasize (x := true), Volume.alloc]
    intro bj
    rw [Block.bit_setBit hi, hmod]
    split
    · next heq => simp [heq]
    · next hne => simp [hne]
  | case2 b hge =>
    rw [ballocFrom, if_neg hge]
    exact .pure ⟨hs, Or.inl ⟨rfl, rfl⟩⟩

theorem balloc_spec (h : sb.Ordered) (hs : LogAt sb 1 s)
    (hmarked : ∀ c : BlockNo, c.toNat < sb.dataStart → (volume sb s.bufs).used c = true) :
    Wp Tolerated (balloc sb) (fun a t => LogAt sb 1 t ∧
      (a = 0 ∧ volume sb t.bufs = volume sb s.bufs ∨
        a ∈ sb.dataBlocks ∧ (volume sb s.bufs).used a = false ∧
          volume sb t.bufs = (volume sb s.bufs).alloc a)) s :=
  ballocFrom_spec h (Nat.dvd_zero BPB) hs hmarked

/-- `bfree` of a block that is in use does not find it free. -/
theorem bfree_spec (h : sb.Ordered) (hs : LogAt sb 1 s) (hb : b.toNat < sb.size.toNat)
    (hused : (volume sb s.bufs).used b = true) :
    Wp Tolerated (bfree sb b) (fun _ t => LogAt sb 1 t ∧ volume sb t.bufs = (volume sb s.bufs).setUsed b false) s := by
  have hbit : (s.bufs (BBLOCK b sb)).bit (b.toNat % BPB) = true := by
    simpa [volume, hb] using hused
  have hmod : b.toNat % BPB < BPB := Nat.mod_lt _ (by decide)
  refine .liftState_bind ?_
  dsimp only
  rw [if_pos hbit]
  refine (logWrite_spec h hs (inodestart_le_BBLOCK h hb)).mono fun _ t ht => ⟨ht.1, ?_⟩
  rw [ht.2]
  refine volume_setUsed h hb fun bj => ?_
  rw [Block.bit_clearBit hmod]
  split
  · next heq => simp [heq]
  · next hne => simp [hne]

end LabSO.Kernel

import LabSO.Kernel.Log
import LabSO.Lib.Writes
import Mathlib.Data.List.Nodup
import Mathlib.Logic.Relation

/-! Crashes of the log. Between any two of its writes, `commit` leaves on the disk either the old contents under an
    empty header, or the logged blocks under a header that names them, or the new contents under an empty header;
    recovery keeps each of these and ends in the first or the last. -/

namespace LabSO.Kernel
open Writes

variable {s : Store} {start : BlockNo} {size : Int} {blocks : List BlockNo} {tail : Nat} {disk home d d' : Disk}
  {new bufs : BlockNo → Block}

/-- The blocks of the log: the header and the slots. -/
def InLog (start : BlockNo) (size : Int) (blockno : BlockNo) : Prop :=
  ∃ i : Nat, i < size ∧ blockno = start + UInt32.ofNat i

instance (start : BlockNo) (size : Int) (blockno : BlockNo) : Decidable (InLog start size blockno) :=
  have := List.decidableBEx (fun i => blockno = start + UInt32.ofNat i) (List.range size.toNat)
  decidable_of_iff (∃ i ∈ List.range size.toNat, blockno = start + UInt32.ofNat i)
    (exists_congr fun i => and_congr_left' (by rw [List.mem_range]; omega))

/-! ### The slots -/

theorem logSlot_eq (start : BlockNo) (tail : Nat) : logSlot start tail = start + UInt32.ofNat (tail + 1) := by
  rw [logSlot, UInt32.ofNat_add, UInt32.add_assoc]
  rfl

theorem inLog_start (h : 0 < size) : InLog start size start := ⟨0, h, by simp⟩

theorem inLog_logSlot (h : tail < size - 1) : InLog start size (logSlot start tail) :=
  ⟨tail + 1, by push_cast; omega, logSlot_eq start tail⟩

theorem add_ofNat_inj {i j : Nat} (hi : i < 2 ^ 32) (hj : j < 2 ^ 32)
    (h : start + UInt32.ofNat i = start + UInt32.ofNat j) : i = j := by
  have hnat := congrArg UInt32.toNat ((UInt32.add_right_inj start).mp h)
  rwa [UInt32.toNat_ofNat_of_lt' hi, UInt32.toNat_ofNat_of_lt' hj] at hnat

theorem LOGSIZE_lt : LOGSIZE + 1 < 2 ^ 31 := by decide

theorem logSlot_inj {i j : Nat} (hi : i < LOGSIZE) (hj : j < LOGSIZE) (h : logSlot start i = logSlot start j) :
    i = j := by
  have hbound := LOGSIZE_lt
  rw [logSlot_eq, logSlot_eq] at h
  exact Nat.succ_injective (add_ofNat_inj (by omega) (by omega) h)

theorem logSlot_ne_start (h : tail < LOGSIZE) : logSlot start tail ≠ start := by
  intro heq
  have hbound := LOGSIZE_lt
  have hzero : start + UInt32.ofNat (tail + 1) = start + UInt32.ofNat 0 := by
    rw [← logSlot_eq, heq]
    simp
  exact Nat.succ_ne_zero _ (add_ofNat_inj (by omega) (by omega) hzero)

/-! ### The header -/

theorem word_putEntries_of_le {hb : Block} {lh : List BlockNo} {i j : Nat} (h : j ≤ i) :
    (putEntries hb i lh).word j = hb.word j := by
  induction lh generalizing hb i with
  | nil => rfl
  | cons b rest ih => rw [putEntries, ih (by omega), Block.word_setWord_of_ne (by omega)]

theorem word_putEntries {hb : Block} {lh : List BlockNo} {i k : Nat} (hfits : 4 * (i + lh.length) + 4 ≤ BSIZE)
    (hk : k < lh.length) : (putEntries hb i lh).word (i + k + 1) = lh[k] := by
  induction lh generalizing hb i k with
  | nil => nomatch hk
  | cons b rest ih =>
    rw [List.length_cons] at hfits hk
    cases k with
    | zero => exact (word_putEntries_of_le le_rfl).trans (Block.word_setWord (by omega))
    | succ k =>
      have hrest : (putEntries (hb.setWord (i + 1) b) (i + 1) rest).word (i + 1 + k + 1) = rest[k] :=
        ih (by omega) (by omega)
      rwa [show i + 1 + k + 1 = i + (k + 1) + 1 by omega] at hrest

theorem word_headBlock_zero (hb : Block) (lh : List BlockNo) : (headBlock hb lh).word 0 = UInt32.ofNat lh.length := by
  rw [headBlock, word_putEntries_of_le (Nat.zero_le 0), Block.word_setWord (by decide)]

theorem word_headBlock {hb : Block} {lh : List BlockNo} {k : Nat} (hlen : lh.length ≤ LOGSIZE) (hk : k < lh.length) :
    (headBlock hb lh).word (k + 1) = lh[k] := by
  have hsize : 4 * LOGSIZE + 4 ≤ BSIZE := by decide
  have hword : (headBlock hb lh).word (0 + k + 1) = lh[k] := word_putEntries (by omega) hk
  rwa [Nat.zero_add] at hword

theorem toInt_ofNat {n : Nat} (h : n ≤ LOGSIZE) : (UInt32.ofNat n).toInt32.toInt = n := by
  have hbound := LOGSIZE_lt
  exact Int32.toInt_ofNat_of_lt (by omega)

/-- `read_head` takes up the entries that a header of at most LOGSIZE names. -/
theorem readHead_eq (hlen : blocks.length ≤ LOGSIZE)
    (hcount : (s.bufs s.log.start).word 0 = UInt32.ofNat blocks.length)
    (hentries : ∀ k (hk : k < blocks.length), (s.bufs s.log.start).word (k + 1) = blocks[k]) :
    s.readHead = .ok { s with log := { s.log with lh := blocks } } := by
  have hlh : ((List.range blocks.length).map fun i => (s.bufs s.log.start).word (i + 1)) = blocks := by
    refine List.ext_getElem (by simp) fun k hk hk' => ?_
    rw [List.getElem_map, List.getElem_range, hentries k hk']
  have hle : ¬(blocks.length : Int) > LOGSIZE := by omega
  simp only [Store.readHead, hcount, toInt_ofNat hlen, if_neg hle, Int.toNat_natCast, hlh]

/-! ### What the phases write -/

/-- Write to the buffers and to the disk. -/
def Store.put (s : Store) (ws : List (BlockNo × Block)) : Store :=
  { s with bufs := apply s.bufs ws, disk := apply s.disk ws, writes := s.writes ++ ws }

@[simp] theorem Store.put_nil (s : Store) : s.put [] = s := by simp [put]

@[simp] theorem Store.put_put (s : Store) (ws ws' : List (BlockNo × Block)) : (s.put ws).put ws' = s.put (ws ++ ws') := by
  simp [put, apply_append]

theorem Store.setBuf_bwrite (s : Store) (blockno : BlockNo) (data : Block) :
    (s.setBuf blockno data).bwrite blockno = s.put [(blockno, data)] := by
  simp [setBuf, bwrite, put]

theorem Store.writeHead_eq (s : Store) :
    s.writeHead = s.put [(s.log.start, headBlock (s.bufs s.log.start) s.log.lh)] := s.setBuf_bwrite _ _

/-- The contents of the blocks, each into its slot. -/
def logWrites (start : BlockNo) (bufs : BlockNo → Block) (tail : Nat) : List BlockNo → List (BlockNo × Block)
  | [] => []
  | blockno :: rest => (logSlot start tail, bufs blockno) :: logWrites start bufs (tail + 1) rest

/-- The contents of the slots, each into the block it belongs to. -/
def installWrites (start : BlockNo) (bufs : BlockNo → Block) (tail : Nat) : List BlockNo → List (BlockNo × Block)
  | [] => []
  | blockno :: rest => (blockno, bufs (logSlot start tail)) :: installWrites start bufs (tail + 1) rest

theorem logWrites_congr {bufs' : BlockNo → Block} (h : ∀ b ∈ blocks, bufs' b = bufs b) :
    logWrites start bufs' tail blocks = logWrites start bufs tail blocks := by
  induction blocks generalizing tail with
  | nil => rfl
  | cons b rest ih =>
    rw [logWrites, logWrites, h b List.mem_cons_self, ih fun b' hb' => h b' (List.mem_cons_of_mem _ hb')]

theorem installWrites_congr {bufs' : BlockNo → Block}
    (h : ∀ i < tail + blocks.length, bufs' (logSlot start i) = bufs (logSlot start i)) :
    installWrites start bufs' tail blocks = installWrites start bufs tail blocks := by
  induction blocks generalizing tail with
  | nil => rfl
  | cons b rest ih =>
    rw [List.length_cons] at h
    rw [installWrites, installWrites, h tail (by omega), ih fun i hi => h i (by omega)]

/-- None of the blocks is one of the first `n` slots. -/
def NoSlot (start : BlockNo) (n : Nat) (blocks : List BlockNo) : Prop := ∀ b ∈ blocks, ∀ i < n, b ≠ logSlot start i

theorem NoSlot.of_cons {n : Nat} {b : BlockNo} (h : NoSlot start n (b :: blocks)) : NoSlot start n blocks :=
  fun b' hb' => h b' (List.mem_cons_of_mem _ hb')

theorem writeLogLoop_eq {n : Nat} (h : NoSlot s.log.start n blocks) (hn : tail + blocks.length ≤ n) :
    s.writeLogLoop tail blocks = s.put (logWrites s.log.start s.bufs tail blocks) := by
  induction blocks generalizing s tail with
  | nil => exact s.put_nil.symm
  | cons b rest ih =>
    rw [List.length_cons] at hn
    let t := s.put [(logSlot s.log.start tail, s.bufs b)]
    have hbufs : logWrites s.log.start t.bufs (tail + 1) rest = logWrites s.log.start s.bufs (tail + 1) rest :=
      logWrites_congr fun b' hb' => Function.update_of_ne (h.of_cons b' hb' tail (by omega)) _ _
    calc s.writeLogLoop tail (b :: rest)
      _ = t.writeLogLoop (tail + 1) rest := by rw [Store.writeLogLoop, Store.writeLogAt, s.setBuf_bwrite]
      _ = t.put (logWrites s.log.start t.bufs (tail + 1) rest) := ih (s := t) h.of_cons (by omega)
      _ = s.put (logWrites s.log.start s.bufs tail (b :: rest)) := by rw [hbufs, Store.put_put]; rfl

/-- Installing writes the slots home; it changes besides at most how often buffers are pinned. -/
theorem installLoop_eq {n : Nat} (recovering : Bool) (h : NoSlot s.log.start n blocks) (hn : tail + blocks.length ≤ n) :
    ∃ pins, s.installLoop recovering tail blocks =
      { s.put (installWrites s.log.start s.bufs tail blocks) with pins } := by
  induction blocks generalizing s tail with
  | nil => exact ⟨s.pins, s.put_nil.symm⟩
  | cons b rest ih =>
    rw [List.length_cons] at hn
    let t := s.installAt recovering tail b
    have ht : t = { s.put [(b, s.bufs (logSlot s.log.start tail))] with pins := t.pins } := by
      cases recovering <;> simp [t, Store.installAt, s.setBuf_bwrite, Store.bunpin]
    have hbufs : installWrites s.log.start t.bufs (tail + 1) rest = installWrites s.log.start s.bufs (tail + 1) rest := by
      rw [ht]
      exact installWrites_congr fun i hi => Function.update_of_ne (h b List.mem_cons_self i (by omega)).symm _ _
    have hlog : t.log = s.log := by rw [ht]; rfl
    have hnext : tail + 1 + rest.length ≤ n := by omega
    obtain ⟨pins, hpins⟩ := ih (s := t) (hlog ▸ h.of_cons) hnext
    refine ⟨pins, ?_⟩
    rw [Store.installLoop, hpins, hlog, hbufs, ht]
    simp [Store.put, installWrites]

theorem fst_logWrites {w : BlockNo × Block} (hw : w ∈ logWrites start bufs tail blocks) :
    ∃ i, tail ≤ i ∧ i < tail + blocks.length ∧ w.1 = logSlot start i := by
  induction blocks generalizing tail with
  | nil => nomatch hw
  | cons b rest ih =>
    rw [List.length_cons]
    rcases List.mem_cons.mp hw with rfl | hw
    · exact ⟨tail, le_rfl, by omega, rfl⟩
    · obtain ⟨i, hle, hlt, hi⟩ := ih hw
      exact ⟨i, by omega, by omega, hi⟩

/-- After its writes each slot holds the contents of its block. -/
theorem apply_logWrites {k : Nat} (hlen : tail + blocks.length ≤ LOGSIZE) (hk : k < blocks.length) :
    apply d (logWrites start bufs tail blocks) (logSlot start (tail + k)) = bufs blocks[k] := by
  induction blocks generalizing d tail k with
  | nil => nomatch hk
  | cons b rest ih =>
    rw [List.length_cons] at hlen hk
    rw [logWrites, apply_cons]
    cases k with
    | zero =>
      rw [apply_of_notMem, Nat.add_zero, Function.update_self]
      · rfl
      · intro hmem
        obtain ⟨w, hw, heq⟩ := List.mem_map.mp hmem
        obtain ⟨i, hle, hlt, hi⟩ := fst_logWrites hw
        have hsame := logSlot_inj (by omega) (by omega) (hi.symm.trans heq)
        omega
    | succ k =>
      have hnext : tail + 1 + rest.length ≤ LOGSIZE := by omega
      rw [show tail + (k + 1) = tail + 1 + k by omega]
      exact ih hnext (by omega)

theorem installWrites_eq (h : ∀ k (hk : k < blocks.length), bufs (logSlot start (tail + k)) = new blocks[k]) :
    installWrites start bufs tail blocks = blocks.map fun b => (b, new b) := by
  induction blocks generalizing tail with
  | nil => rfl
  | cons b rest ih =>
    have hfirst : bufs (logSlot start tail) = new b := h 0 (Nat.succ_pos _)
    rw [installWrites, List.map_cons, hfirst, ih fun k hk => ?_]
    · rw [show tail + 1 + k = tail + (k + 1) by omega]
      exact h (k + 1) (Nat.succ_lt_succ hk)

/-! ### The disk between two writes -/

/-- The blocks of a transaction that the log can take. -/
structure Fits (start : BlockNo) (size : Int) (blocks : List BlockNo) : Prop where
  length_le : blocks.length ≤ LOGSIZE
  length_lt : blocks.length ≤ size - 1
  home : ∀ b ∈ blocks, ¬InLog start size b

theorem Fits.size_pos (h : Fits start size blocks) : 0 < size := by
  have := h.length_lt
  omega

theorem Fits.noSlot (h : Fits start size blocks) : NoSlot start blocks.length blocks := by
  rintro b hb i hi rfl
  have := h.length_lt
  exact h.home _ hb (inLog_logSlot (by omega))

theorem Fits.ne_start (h : Fits start size blocks) {b : BlockNo} (hb : b ∈ blocks) : b ≠ start := by
  rintro rfl
  exact h.home _ hb (inLog_start h.size_pos)

/-- The header is empty, and the blocks outside the log have the given contents. -/
structure Idle (start : BlockNo) (size : Int) (home d : Disk) : Prop where
  count : (d start).word 0 = 0
  home : ∀ b, ¬InLog start size b → d b = home b

/-- The header names the blocks, their slots hold the new contents, and all other blocks outside the log have the given
    contents. -/
structure Committed (start : BlockNo) (size : Int) (blocks : List BlockNo) (new home d : Disk) : Prop where
  count : (d start).word 0 = UInt32.ofNat blocks.length
  entries : ∀ k (hk : k < blocks.length), (d start).word (k + 1) = blocks[k]
  slots : ∀ k (hk : k < blocks.length), d (logSlot start k) = new blocks[k]
  home : ∀ b, b ∉ blocks → ¬InLog start size b → d b = home b

/-- The blocks with their new contents. -/
def installed (blocks : List BlockNo) (new home : Disk) : Disk := fun b => if b ∈ blocks then new b else home b

theorem Idle.update {b : BlockNo} (h : Idle start size home d) (hlog : InLog start size b) (hb : b ≠ start)
    (data : Block) : Idle start size home (Function.update d b data) where
  count := by
    rw [Function.update_of_ne hb.symm]
    exact h.count
  home b' hb' := by
    rw [Function.update_of_ne (by rintro rfl; exact hb' hlog)]
    exact h.home b' hb'

theorem Idle.clear (h : Idle start size home d) (hsize : 0 < size) (hb : Block) :
    Idle start size home (Function.update d start (headBlock hb [])) where
  count := by
    rw [Function.update_self]
    exact word_headBlock_zero hb []
  home b hb' := by
    rw [Function.update_of_ne (by rintro rfl; exact hb' (inLog_start hsize))]
    exact h.home b hb'

theorem Committed.install {b : BlockNo} (hf : Fits start size blocks) (h : Committed start size blocks new home d)
    (hb : b ∈ blocks) (data : Block) : Committed start size blocks new home (Function.update d b data) := by
  have hstart : Function.update d b data start = d start := Function.update_of_ne (hf.ne_start hb).symm _ _
  refine ⟨hstart ▸ h.count, hstart ▸ h.entries, fun k hk => ?_, fun b' hb' hlog => ?_⟩
  · rw [Function.update_of_ne (hf.noSlot b hb k hk).symm]
    exact h.slots k hk
  · rw [Function.update_of_ne (by rintro rfl; exact hb' hb)]
    exact h.home b' hb' hlog

/-- Writing the header commits. -/
theorem Idle.commit (hf : Fits start size blocks) (h : Idle start size home d)
    (hslots : ∀ k (hk : k < blocks.length), d (logSlot start k) = new blocks[k]) (hb : Block) :
    Committed start size blocks new home (Function.update d start (headBlock hb blocks)) where
  count := by
    rw [Function.update_self]
    exact word_headBlock_zero hb blocks
  entries k hk := by
    rw [Function.update_self]
    exact word_headBlock hf.length_le hk
  slots k hk := by
    have := hf.length_le
    rw [Function.update_of_ne (logSlot_ne_start (by omega))]
    exact hslots k hk
  home b _ hb' := by
    rw [Function.update_of_ne (by rintro rfl; exact hb' (inLog_start hf.size_pos))]
    exact h.home b hb'

/-- Once every block is installed, clearing the header ends the transaction. -/
theorem Committed.clear (hf : Fits start size blocks) (h : Committed start size blocks new home d)
    (hnew : ∀ b ∈ blocks, d b = new b) (hb : Block) :
    Idle start size (installed blocks new home) (Function.update d start (headBlock hb [])) where
  count := by
    rw [Function.update_self]
    exact word_headBlock_zero hb []
  home b hlog := by
    rw [Function.update_of_ne (by rintro rfl; exact hlog (inLog_start hf.size_pos))]
    by_cases hmem : b ∈ blocks
    · rw [installed, if_pos hmem, hnew b hmem]
    · rw [installed, if_neg hmem, h.home b hmem hlog]

/-- The transaction is on the disk, in the log or at home. -/
def Decided (start : BlockNo) (size : Int) (blocks : List BlockNo) (new home d : Disk) : Prop :=
  Committed start size blocks new home d ∨ Idle start size (installed blocks new home) d

/-- Installing and clearing, from the header on. -/
theorem Committed.throughout (hf : Fits start size blocks) (h : Committed start size blocks new home d) (hb : Block) :
    Throughout (Decided start size blocks new home) d ((blocks.map fun b => (b, new b)) ++ [(start, headBlock hb [])]) ∧
      Idle start size (installed blocks new home)
        (apply d ((blocks.map fun b => (b, new b)) ++ [(start, headBlock hb [])])) := by
  have hinstall : Throughout (Committed start size blocks new home) d (blocks.map fun b => (b, new b)) := by
    refine .of_preserved h fun d w hw hd => ?_
    obtain ⟨b, hmem, rfl⟩ := List.mem_map.mp hw
    exact hd.install hf hmem (new b)
  have hnew : ∀ b ∈ blocks, apply d (blocks.map fun b => (b, new b)) b = new b := by
    intro b hmem
    refine apply_of_mem (fun w hw => ?_) ?_
    · obtain ⟨b', -, rfl⟩ := List.mem_map.mp hw
      rfl
    · simpa using hmem
  have hclear := hinstall.all.clear hf hnew hb
  refine ⟨(hinstall.mono fun d hd => Or.inl hd).append (.cons (Or.inl hinstall.all) (.nil (Or.inr hclear))), ?_⟩
  rw [apply_append]
  exact hclear

/-! ### Recovery -/

/-- Installing the entries of the log and clearing its header writes the slots home, and then the header. -/
theorem installTrans_clear (s : Store) (recovering : Bool) (hslot : NoSlot s.log.start s.log.lh.length s.log.lh) :
    ∃ hb pins, (s.installTrans recovering).clearHead.writeHead =
      { s.put (installWrites s.log.start s.bufs 0 s.log.lh ++ [(s.log.start, headBlock hb [])]) with
        pins, log := { s.log with lh := [] } } := by
  obtain ⟨pins, hpins⟩ := installLoop_eq recovering hslot (Nat.zero_add _).le
  refine ⟨(s.installTrans recovering).bufs s.log.start, pins, ?_⟩
  rw [Store.installTrans, hpins, Store.writeHead_eq]
  simp [Store.put, Store.clearHead, apply_append]

/-- Recovery installs the entries of the header and clears it. -/
theorem recoverFromLog_eq (size : Int) (blocks : List BlockNo) (hlen : blocks.length ≤ LOGSIZE)
    (hslot : NoSlot start blocks.length blocks) (hcount : (d start).word 0 = UInt32.ofNat blocks.length)
    (hentries : ∀ k (hk : k < blocks.length), (d start).word (k + 1) = blocks[k]) :
    ∃ s hb, (Store.boot start size d).recoverFromLog = .ok s ∧ s.disk = apply d s.writes ∧
      s.writes = installWrites start d 0 blocks ++ [(start, headBlock hb [])] := by
  let t : Store := { Store.boot start size d with log := { (Store.boot start size d).log with lh := blocks } }
  have hread : (Store.boot start size d).readHead = .ok t := readHead_eq hlen hcount hentries
  obtain ⟨hb, pins, hclear⟩ := installTrans_clear t true hslot
  refine ⟨(t.installTrans true).clearHead.writeHead, hb, ?_, ?_⟩
  · rw [Store.recoverFromLog, hread]
    rfl
  · rw [hclear]
    exact ⟨rfl, rfl⟩

/-- Recovery with an empty header only clears it. -/
theorem Idle.recover (h : Idle start size home d) (hsize : 0 < size) :
    ∃ s, (Store.boot start size d).recoverFromLog = .ok s ∧ s.disk = apply d s.writes ∧
      Throughout (Idle start size home) d s.writes := by
  obtain ⟨s, hb, hrun, hdisk, hwrites⟩ := recoverFromLog_eq size [] (Nat.zero_le _) nofun h.count nofun
  refine ⟨s, hrun, hdisk, ?_⟩
  rw [hwrites]
  exact .cons h (.nil (h.clear hsize hb))

/-- Recovery of a committed transaction installs it. -/
theorem Committed.recover (hf : Fits start size blocks) (h : Committed start size blocks new home d) :
    ∃ s, (Store.boot start size d).recoverFromLog = .ok s ∧ s.disk = apply d s.writes ∧
      Throughout (Decided start size blocks new home) d s.writes ∧
      Idle start size (installed blocks new home) s.disk := by
  obtain ⟨s, hb, hrun, hdisk, hwrites⟩ := recoverFromLog_eq size blocks hf.length_le hf.noSlot h.count h.entries
  have hinstall : installWrites start d 0 blocks = blocks.map fun b => (b, new b) :=
    installWrites_eq fun k hk => by rw [Nat.zero_add]; exact h.slots k hk
  obtain ⟨hall, hend⟩ := h.throughout hf hb
  rw [hinstall] at hwrites
  exact ⟨s, hrun, hdisk, hwrites ▸ hall, hdisk ▸ hwrites ▸ hend⟩

/-- The machine stops after some of the writes of a recovery. -/
def StopsInRecovery (start : BlockNo) (size : Int) (d d' : Disk) : Prop :=
  ∃ s vs, (Store.boot start size d).recoverFromLog = .ok s ∧ vs <+: s.writes ∧ d' = apply d vs

theorem Idle.stopsInRecovery (h : Idle start size home d) (hsize : 0 < size) (hd : StopsInRecovery start size d d') :
    Idle start size home d' := by
  obtain ⟨s, vs, hrun, hvs, rfl⟩ := hd
  obtain ⟨s', hrun', -, hall⟩ := h.recover hsize
  obtain rfl : s' = s := Except.ok.inj (hrun'.symm.trans hrun)
  exact hall vs hvs

theorem Decided.stopsInRecovery (hf : Fits start size blocks) (h : Decided start size blocks new home d)
    (hd : StopsInRecovery start size d d') : Decided start size blocks new home d' := by
  rcases h with h | h
  · obtain ⟨s, vs, hrun, hvs, rfl⟩ := hd
    obtain ⟨s', hrun', -, hall, -⟩ := h.recover hf
    obtain rfl : s' = s := Except.ok.inj (hrun'.symm.trans hrun)
    exact hall vs hvs
  · exact Or.inr (h.stopsInRecovery hf.size_pos hd)

theorem Decided.recover (hf : Fits start size blocks) (h : Decided start size blocks new home d) :
    ∃ s, (Store.boot start size d).recoverFromLog = .ok s ∧ Idle start size (installed blocks new home) s.disk := by
  rcases h with h | h
  · obtain ⟨s, hrun, -, -, hend⟩ := h.recover hf
    exact ⟨s, hrun, hend⟩
  · obtain ⟨s, hrun, hdisk, hall⟩ := h.recover hf.size_pos
    exact ⟨s, hrun, hdisk ▸ hall.all⟩

/-! ### The commit -/

/-- The machine as `commit` starts: the blocks are logged and pinned, with their new contents in the buffers. -/
def Store.logged (start : BlockNo) (size : Int) (disk : Disk) (blocks : List BlockNo) (new : BlockNo → Block) :
    Store where
  disk := disk
  bufs := installed blocks new disk
  pins b := if b ∈ blocks then 1 else 0
  log := { start, size, outstanding := 0, committing := true, lh := blocks }
  writes := []

theorem writeHead_logged (disk : Disk) (new : BlockNo → Block) (hf : Fits start size blocks) :
    ∃ hb, (Store.logged start size disk blocks new).writeLog.writeHead = (Store.logged start size disk blocks new).put
      (logWrites start (installed blocks new disk) 0 blocks ++ [(start, headBlock hb blocks)]) := by
  have hlog : (Store.logged start size disk blocks new).writeLog = (Store.logged start size disk blocks new).put
      (logWrites start (installed blocks new disk) 0 blocks) :=
    writeLogLoop_eq (s := Store.logged start size disk blocks new) hf.noSlot (Nat.zero_add _).le
  rw [hlog, Store.writeHead_eq, Store.put_put]
  exact ⟨_, rfl⟩

/-- After the writes to the log the slots hold the new contents. -/
theorem apply_logWrites_new (hf : Fits start size blocks) {k : Nat} (hk : k < blocks.length) :
    apply d (logWrites start (installed blocks new disk) 0 blocks) (logSlot start k) = new blocks[k] := by
  have hlen : 0 + blocks.length ≤ LOGSIZE := (Nat.zero_add _).trans_le hf.length_le
  have hslot : apply d (logWrites start (installed blocks new disk) 0 blocks) (logSlot start (0 + k)) =
      installed blocks new disk blocks[k] := apply_logWrites hlen hk
  rwa [Nat.zero_add, installed, if_pos (List.getElem_mem hk)] at hslot

/-- After the first write of the header, `commit` installs the new contents and clears the header. -/
theorem writes_commit (disk : Disk) (new : BlockNo → Block) (hf : Fits start size blocks) (hne : blocks ≠ []) :
    ∃ hb, (Store.logged start size disk blocks new).commit.writes =
      (Store.logged start size disk blocks new).writeLog.writeHead.writes ++
        ((blocks.map fun b => (b, new b)) ++ [(start, headBlock hb [])]) := by
  obtain ⟨hb, ht⟩ := writeHead_logged disk new hf
  obtain ⟨hb', pins, hclear⟩ := installTrans_clear ((Store.logged start size disk blocks new).writeLog.writeHead) false
    (by rw [ht]; exact hf.noSlot)
  have hslots : ∀ k (hk : k < blocks.length), apply (installed blocks new disk)
      (logWrites start (installed blocks new disk) 0 blocks ++ [(start, headBlock hb blocks)]) (logSlot start (0 + k)) =
        new blocks[k] := by
    intro k hk
    have := hf.length_le
    rw [Nat.zero_add, apply_append, apply_cons, apply_nil, Function.update_of_ne (logSlot_ne_start (by omega))]
    exact apply_logWrites_new hf hk
  have hpos : (Store.logged start size disk blocks new).log.lh.length > 0 := List.length_pos_iff.mpr hne
  refine ⟨hb', ?_⟩
  rw [Store.commit, if_pos hpos, hclear, ht]
  simp only [Store.put, Store.logged, List.nil_append]
  rw [installWrites_eq hslots]

/-- While `commit` writes, the disk goes from the old contents to the new ones, with the first write of the header. -/
theorem throughout_commit (disk : Disk) (new : BlockNo → Block) (hf : Fits start size blocks)
    (h : Idle start size disk disk) {vs : List (BlockNo × Block)}
    (hvs : vs <+: (Store.logged start size disk blocks new).commit.writes) :
    (Idle start size disk (apply disk vs) ∨ Decided start size blocks new disk (apply disk vs)) ∧
      ((Store.logged start size disk blocks new).writeLog.writeHead.writes <+: vs →
        Decided start size blocks new disk (apply disk vs)) := by
  obtain ⟨hb, ht⟩ := writeHead_logged disk new hf
  have hhead : (Store.logged start size disk blocks new).writeLog.writeHead.writes =
      logWrites start (installed blocks new disk) 0 blocks ++ [(start, headBlock hb blocks)] := congrArg Store.writes ht
  rw [hhead]
  by_cases hne : blocks = []
  · -- An empty transaction writes nothing.
    subst hne
    obtain rfl := List.prefix_nil.mp hvs
    exact ⟨Or.inl h, fun hpre => absurd (List.prefix_nil.mp hpre) (by simp)⟩
  · obtain ⟨hb', hwrites⟩ := writes_commit disk new hf hne
    rw [hwrites, hhead] at hvs
    have hlogs : Throughout (Idle start size disk) disk (logWrites start (installed blocks new disk) 0 blocks) := by
      refine .of_preserved h fun d w hw hd => ?_
      obtain ⟨i, -, hi, hslot⟩ := fst_logWrites hw
      have := hf.length_le
      have := hf.length_lt
      rw [hslot]
      exact hd.update (inLog_logSlot (by omega)) (logSlot_ne_start (by omega)) w.2
    have hcommitted : Committed start size blocks new disk
        (apply disk (logWrites start (installed blocks new disk) 0 blocks ++ [(start, headBlock hb blocks)])) := by
      rw [apply_append]
      exact hlogs.all.commit hf (fun k hk => apply_logWrites_new hf hk) hb
    obtain ⟨hinstall, -⟩ := hcommitted.throughout hf hb'
    constructor
    · have hbefore : Throughout (fun d => Idle start size disk d ∨ Decided start size blocks new disk d) disk
          (logWrites start (installed blocks new disk) 0 blocks ++ [(start, headBlock hb blocks)]) := by
        refine (hlogs.mono fun d hd => Or.inl hd).append (.cons (Or.inl hlogs.all) (.nil ?_))
        rw [apply_append] at hcommitted
        exact Or.inr (Or.inl hcommitted)
      exact hbefore.append (hinstall.mono fun d hd => Or.inr hd) vs hvs
    · rintro ⟨us, rfl⟩
      rw [apply_append]
      exact hinstall us ((List.prefix_append_right_inj _).mp hvs)

theorem Idle.stops (h : Idle start size home d) (hsize : 0 < size)
    (hcrash : Relation.ReflTransGen (StopsInRecovery start size) d d') : Idle start size home d' := by
  induction hcrash with
  | refl => exact h
  | tail _ hstop ih => exact ih.stopsInRecovery hsize hstop

theorem Decided.stops (hf : Fits start size blocks) (h : Decided start size blocks new home d)
    (hcrash : Relation.ReflTransGen (StopsInRecovery start size) d d') : Decided start size blocks new home d' := by
  induction hcrash with
  | refl => exact h
  | tail _ hstop ih => exact ih.stopsInRecovery hf hstop

/-- What the disk holds after `commit` has stopped after some of its writes, and recovery any number of times. -/
theorem crashed_cases (hf : Fits start size blocks) (hempty : (disk start).word 0 = 0) {vs : List (BlockNo × Block)}
    (hvs : vs <+: (Store.logged start size disk blocks new).commit.writes)
    (hcrash : Relation.ReflTransGen (StopsInRecovery start size) (apply disk vs) d) :
    (Idle start size disk d ∨ Decided start size blocks new disk d) ∧
      ((Store.logged start size disk blocks new).writeLog.writeHead.writes <+: vs →
        Decided start size blocks new disk d) := by
  obtain ⟨hcases, hcommit⟩ := throughout_commit disk new hf ⟨hempty, fun _ _ => rfl⟩ hvs
  refine ⟨?_, fun hpre => (hcommit hpre).stops hf hcrash⟩
  rcases hcases with h | h
  · exact Or.inl (h.stops hf.size_pos hcrash)
  · exact Or.inr (h.stops hf hcrash)

/-- A transaction is atomic under crashes. `commit` may stop after any of its writes, and recovery after any of its own,
    any number of times; a recovery that runs to its end leaves the old contents of all blocks or the new ones, and the
    new ones if the first write of the header reached the disk. -/
theorem commit_atomic {vs : List (BlockNo × Block)} (hempty : (disk start).word 0 = 0) (hlen : blocks.length ≤ LOGSIZE)
    (hsize : blocks.length ≤ size - 1) (hhome : ∀ b ∈ blocks, ¬InLog start size b)
    (hvs : vs <+: (Store.logged start size disk blocks new).commit.writes)
    (hcrash : Relation.ReflTransGen (StopsInRecovery start size) (apply disk vs) d) :
    ∃ s, (Store.boot start size d).recoverFromLog = .ok s ∧
      ((∀ b ∈ blocks, s.disk b = disk b) ∨ ∀ b ∈ blocks, s.disk b = new b) ∧
      (∀ b, b ∉ blocks → ¬InLog start size b → s.disk b = disk b) ∧ (s.disk start).word 0 = 0 ∧
      ((Store.logged start size disk blocks new).writeLog.writeHead.writes <+: vs → ∀ b ∈ blocks, s.disk b = new b) := by
  have hf : Fits start size blocks := ⟨hlen, hsize, hhome⟩
  obtain ⟨hcases, hcommit⟩ := crashed_cases hf hempty hvs hcrash
  by_cases hdecided : Decided start size blocks new disk d
  · obtain ⟨s, hrun, hend⟩ := hdecided.recover hf
    have hnew : ∀ b ∈ blocks, s.disk b = new b := fun b hb => by
      rw [hend.home b (hhome b hb), installed, if_pos hb]
    refine ⟨s, hrun, Or.inr hnew, fun b hb hlog => ?_, hend.count, fun _ => hnew⟩
    rw [hend.home b hlog, installed, if_neg hb]
  · have hidle := hcases.resolve_right hdecided
    obtain ⟨s, hrun, hdisk, hall⟩ := hidle.recover hf.size_pos
    have hend : Idle start size disk s.disk := hdisk ▸ hall.all
    exact ⟨s, hrun, Or.inl fun b hb => hend.home b (hhome b hb), fun b _ hlog => hend.home b hlog, hend.count,
      fun hpre => absurd (hcommit hpre) hdecided⟩

/-- Blocks 45 and 46 of a disk of zeroes get a 7, with the log that `mkfs` lays out; the machine stops after the slots,
    the header and block 45. -/
theorem commit_atomic_twoBlocks :
    ∃ s, (Store.boot 2 30 (apply (fun _ => Block.zero)
        ((Store.logged 2 30 (fun _ => .zero) [45, 46] fun _ => Block.zero.setWord 0 7).commit.writes.take 4))).recoverFromLog =
          .ok s ∧
      ((∀ b ∈ [45, 46], s.disk b = .zero) ∨ ∀ b ∈ [45, 46], s.disk b = Block.zero.setWord 0 7) ∧
      (∀ b, b ∉ [45, 46] → ¬InLog 2 30 b → s.disk b = .zero) ∧ (s.disk 2).word 0 = 0 ∧
      ((Store.logged 2 30 (fun _ => .zero) [45, 46] fun _ => Block.zero.setWord 0 7).writeLog.writeHead.writes <+:
        (Store.logged 2 30 (fun _ => .zero) [45, 46] fun _ => Block.zero.setWord 0 7).commit.writes.take 4 →
          ∀ b ∈ [45, 46], s.disk b = Block.zero.setWord 0 7) :=
  commit_atomic rfl (by decide) (by decide)
    (List.forall_mem_cons.mpr ⟨by decide, List.forall_mem_singleton.mpr (by decide)⟩) (List.take_prefix 4 _) .refl

/-- The superblock outlives the crashes, so that `fsinit` is the recovery of the log. -/
theorem fsinit_crashed {vs : List (BlockNo × Block)} (hmagic : (readsb disk).magic = FSMAGIC)
    (hlogstart : (readsb disk).logstart = start) (hnlog : (readsb disk).nlog.toInt32.toInt = size)
    (hf : Fits start size blocks) (hempty : (disk start).word 0 = 0) (hsb : 1 ∉ blocks) (hlog : ¬InLog start size 1)
    (hvs : vs <+: (Store.logged start size disk blocks new).commit.writes)
    (hcrash : Relation.ReflTransGen (StopsInRecovery start size) (apply disk vs) d) :
    fsinit d = (Store.boot start size d).recoverFromLog := by
  have hone : d 1 = disk 1 := by
    rcases (crashed_cases hf hempty hvs hcrash).1 with h | h | h
    · exact h.home 1 hlog
    · exact h.home 1 hsb hlog
    · rw [h.home 1 hlog, installed, if_neg hsb]
  have hread : readsb d = readsb disk := by simp only [readsb, hone]
  have hsize : ¬sizeofLogheader ≥ BSIZE := by decide
  have hmagic' : ¬(readsb disk).magic ≠ FSMAGIC := not_not.mpr hmagic
  simp only [fsinit, initlog, hread, hmagic', hsize, if_false, hlogstart, hnlog]

end LabSO.Kernel

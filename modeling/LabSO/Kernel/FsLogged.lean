import LabSO.Kernel.FreeMap
import LabSO.Kernel.FsArray
import LabSO.Kernel.Sysfile
import Mathlib.Data.Finset.Card

/-! Which blocks a transaction of `filewrite` logs: the data blocks, a block of the free bit map for each block that it
    allocates, the indirect block and the inode's block. Nothing is assumed of the file system. -/

namespace LabSO.Kernel
open Program

variable {sb : Superblock} {s t u : Fs} {st st' : Store} {i : Fin NINODE} {a b : BlockNo} {data : Block} {D D' : Finset BlockNo}
  {k l : Nat}

/-- From `s` to `t`, at most `k` blocks are logged. -/
def LogsAtMost (k : Nat) (s t : Store) : Prop := ∃ D : Finset BlockNo, D.card ≤ k ∧ ∀ b ∈ t.log.lh, b ∈ s.log.lh ∨ b ∈ D

/-- From `s` to `t`, blocks of `D` are logged, and the indirect block that the inode has at the end. -/
def LogsIn (s : Store) (i : Fin NINODE) (D : Finset BlockNo) (t : Fs) : Prop :=
  ∀ b ∈ t.store.log.lh, b ∈ s.log.lh ∨ b ∈ D ∨
    b = getElem (t.itable i).addrs NDIRECT NDIRECT_lt ∧ getElem (t.itable i).addrs NDIRECT NDIRECT_lt ≠ 0

/-- At most `k` blocks are logged but for the indirect block. -/
def Logs (s : Store) (i : Fin NINODE) (k : Nat) (t : Fs) : Prop := ∃ D : Finset BlockNo, D.card ≤ k ∧ LogsIn s i D t

/-- Whether the indirect block may yet have to be allocated, which takes a block of the free bit map. -/
def lacking (i : Fin NINODE) (s : Fs) : Nat := if getElem (s.itable i).addrs NDIRECT NDIRECT_lt = 0 then 1 else 0

/-- The block that a write at `off` goes to first exists, or is written from its beginning; or the indirect block exists. -/
def NoGap (addrs : Vector BlockNo (NDIRECT + 1)) (off : Nat) : Prop :=
  off % BSIZE = 0 ∨ getElem addrs NDIRECT NDIRECT_lt ≠ 0 ∨ ∃ h : off / BSIZE < NDIRECT, addrs[off / BSIZE] ≠ 0

/-! ### Sets of logged blocks -/

theorem LogsIn.mono (h : LogsIn st i D s) (hsub : D ⊆ D') : LogsIn st i D' s := by
  intro b hb
  rcases h b hb with hold | hin | hind
  · exact .inl hold
  · exact .inr (.inl (hsub hin))
  · exact .inr (.inr hind)

theorem mem_lh_logging (hb : b ∈ (st.logging a data).log.lh) : b ∈ st.log.lh ∨ b = a := by
  rw [st.log_logging a data] at hb
  dsimp only at hb
  split at hb
  · exact .inl hb
  · simpa using hb

theorem logWrite_lh : Outcome (logWrite b data) (fun _ t => ∀ c ∈ t.log.lh, c ∈ st.log.lh ∨ c = b)
    (fun _ t => t.log.lh = st.log.lh) st := by
  rcases hlog : st.log.logWrite b with msg | ⟨new, log⟩
  · have hhalt : Halts (logWrite b data) st (.panic msg) (st.setBuf b data) := by
      simp only [Halts, logWrite, Store.setBuf, hlog]
    exact .of_halts hhalt rfl
  · exact .of_returns (logWrite_of_ok hlog) fun c hc => mem_lh_logging hc

/-- `balloc` logs a block of the free bit map and the block that it returns. -/
theorem ballocFrom_lh {b : Nat} : Outcome (ballocFrom sb b)
    (fun a t => ∃ m, ∀ c ∈ t.log.lh, c ∈ st.log.lh ∨ c = m ∨ c = a) (fun _ t => ∃ m, ∀ c ∈ t.log.lh, c ∈ st.log.lh ∨ c = m) st := by
  induction b using ballocFrom.induct sb with
  | case1 b hlt ih =>
    rw [ballocFrom, if_pos hlt]
    refine .bind_returns (a := st.bufs (BBLOCK (.ofNat b) sb)) (t := st) rfl ?_
    rcases scanBits sb (st.bufs (BBLOCK (.ofNat b) sb)) b 0 BPB with _ | bi
    · exact ih
    refine .bind (logWrite_lh.weaken fun e t ht => ⟨0, fun c hc => .inl (ht ▸ hc)⟩) fun _ t ht => ?_
    refine .bind (logWrite_lh.weaken fun e u hu => ⟨BBLOCK (.ofNat b) sb, fun c hc => ht c (hu ▸ hc)⟩) fun _ u hu => .pure ⟨BBLOCK (.ofNat b) sb, fun c hc => ?_⟩
    rcases hu c hc with hc | rfl
    · exact (ht c hc).imp_right .inl
    · exact .inr (.inr rfl)
  | case2 b hge =>
    rw [ballocFrom, if_neg hge]
    exact .pure ⟨0, fun c hc => .inl hc⟩

/-- What is known of `balloc` where blocks of `D` have been logged before. -/
theorem onStore_balloc (h : LogsIn st i D s) (hk : D.card + 1 ≤ k) :
    Outcome (onStore (balloc sb)) (fun a t => ∃ store m, t = { s with store } ∧
      ∀ b ∈ store.log.lh, b ∈ s.store.log.lh ∨ b = m ∨ b = a) (fun _ => Logs st i k) s := by
  refine .zoom ballocFrom_lh ?_ ?_
  · rintro a store ⟨m, hlh⟩
    exact ⟨store, m, rfl, hlh⟩
  · rintro e store ⟨m, hlh⟩
    refine ⟨insert m D, (Finset.card_insert_le ..).trans hk, fun b hb => ?_⟩
    rcases hlh b hb with hb | rfl
    · exact (h b hb).imp_right (Or.imp_left fun hin => Finset.mem_insert_of_mem hin)
    · exact .inr (.inl (Finset.mem_insert_self ..))

theorem LogsIn.alloc {m : BlockNo} (h : LogsIn st i D s) (hlh : ∀ b ∈ t.store.log.lh, b ∈ s.store.log.lh ∨ b = m ∨ b = a)
    (hind : getElem (t.itable i).addrs NDIRECT NDIRECT_lt = getElem (s.itable i).addrs NDIRECT NDIRECT_lt) :
    LogsIn st i (insert m (insert a D)) t := by
  intro b hb
  rw [hind]
  rcases hlh b hb with hb | rfl | rfl
  · exact (h b hb).imp_right (Or.imp_left fun hin => by simp [hin])
  · exact .inr (.inl (Finset.mem_insert_self ..))
  · exact .inr (.inl (by simp))

theorem card_alloc {m : BlockNo} (hk : D.card + 2 ≤ k) : (insert m (insert a D)).card ≤ k := by
  have hm := Finset.card_insert_le m (insert a D)
  have ha := Finset.card_insert_le a D
  omega

theorem lacking_eq (h : getElem (t.itable i).addrs NDIRECT NDIRECT_lt = getElem (s.itable i).addrs NDIRECT NDIRECT_lt) :
    lacking i t = lacking i s := by
  rw [lacking, h, lacking]

/-! ### `bmap` -/

/-- A data block is found or allocated: it is in `D`, as is all that is logged but for the indirect block. -/
def Found (st : Store) (i : Fin NINODE) (k : Nat) (a : BlockNo) (t : Fs) : Prop :=
  ∃ D : Finset BlockNo, D.card + lacking i t ≤ k ∧ a ∈ D ∧ LogsIn st i D t

theorem LogsIn.found (h : LogsIn st i D s) (hk : D.card + 1 + lacking i s ≤ k) : Found st i k a s := by
  refine ⟨insert a D, ?_, Finset.mem_insert_self .., h.mono (Finset.subset_insert ..)⟩
  have := Finset.card_insert_le a D
  omega

theorem LogsIn.found_alloc {m : BlockNo} (h : LogsIn st i D s)
    (hlh : ∀ b ∈ t.store.log.lh, b ∈ s.store.log.lh ∨ b = m ∨ b = a)
    (hind : getElem (t.itable i).addrs NDIRECT NDIRECT_lt = getElem (s.itable i).addrs NDIRECT NDIRECT_lt)
    (hk : D.card + 2 + lacking i s ≤ k) : Found st i k a t := by
  refine ⟨insert m (insert a D), ?_, by simp, h.alloc hlh hind⟩
  have hcard : (insert m (insert a D)).card ≤ D.card + 2 := card_alloc le_rfl
  rw [lacking_eq hind]
  omega

theorem loadAddr_found {j : Fin (NDIRECT + 1)} (hj : j.val < NDIRECT) (h : LogsIn st i D s)
    (hk : D.card + 2 + lacking i s ≤ k) : Outcome (loadAddr sb i j) (Found st i k) (fun _ => Logs st i k) s := by
  refine .bind_returns (a := s.itable i) (t := s) rfl (.ite (fun h0 => ?_) fun _ => .pure (h.found (by omega)))
  refine .bind (onStore_balloc h (by omega)) ?_
  rintro a _ ⟨store, m, rfl, hlh⟩
  refine .ite (fun hzero => ?_) fun _ => ?_
  · subst hzero
    exact .pure (h.found_alloc hlh rfl hk)
  · refine .liftState_bind (.pure (h.found_alloc hlh ?_ hk))
    have hne : j.val ≠ NDIRECT := hj.ne
    simp [Fs.setInode, hne]

theorem loadAddr_last (h : LogsIn st i D s) (hk : D.card + 2 + lacking i s ≤ k) :
    Outcome (loadAddr sb i (Fin.last NDIRECT)) (fun a t => a = 0 ∧ Found st i k 0 t ∨
      a ≠ 0 ∧ a = (t.itable i).addrs[NDIRECT] ∧ ∃ D', D'.card + 2 ≤ k ∧ LogsIn st i D' t) (fun _ => Logs st i k) s := by
  refine .bind_returns (a := s.itable i) (t := s) rfl (.ite (fun h0 => ?_) fun hne => .pure (.inr ⟨hne, rfl, D, by omega, h⟩))
  have h0' : (s.itable i).addrs[NDIRECT] = 0 := h0
  have hlack : lacking i s = 1 := if_pos h0'
  refine .bind (onStore_balloc h (by omega)) ?_
  rintro a _ ⟨store, m, rfl, hlh⟩
  refine .ite (fun hzero => ?_) fun hne => ?_
  · subst hzero
    exact .pure (.inl ⟨rfl, h.found_alloc hlh rfl hk⟩)
  · refine .liftState_bind (.pure (.inr ⟨hne, ?_, insert m D, ?_, fun b hb => ?_⟩))
    · simp [Fs.setInode]
    · have := Finset.card_insert_le m D
      omega
    · have hself : (({ s with store } : Fs).setInode i { s.itable i with addrs := (s.itable i).addrs.set (Fin.last NDIRECT) a }
          |>.itable i).addrs[NDIRECT] = a := by simp [Fs.setInode]
      rcases hlh b hb with hb | rfl | rfl
      · rcases h b hb with hold | hin | hind
        · exact .inl hold
        · exact .inr (.inl (Finset.mem_insert_of_mem hin))
        · exact absurd h0' hind.2
      · exact .inr (.inl (Finset.mem_insert_self ..))
      · exact .inr (.inr ⟨hself.symm, hself.trans_ne hne⟩)

/-- The indirect block itself may be logged. -/
theorem loadEntry_found {j : Nat} (hne : getElem (s.itable i).addrs NDIRECT NDIRECT_lt ≠ 0) (h : LogsIn st i D s)
    (hk : D.card + 2 ≤ k) :
    Outcome (onStore (loadEntry sb (getElem (s.itable i).addrs NDIRECT NDIRECT_lt) j)) (Found st i k) (fun _ => Logs st i k) s := by
  have hlack : lacking i s = 0 := if_neg hne
  let ind := (s.itable i).addrs[NDIRECT]
  have hentry : Outcome (loadEntry sb ind j) (fun a t => t = s.store ∨
      ∃ m, ∀ b ∈ t.log.lh, b ∈ s.store.log.lh ∨ b = m ∨ b = a ∨ b = ind)
      (fun _ t => ∃ m a, ∀ b ∈ t.log.lh, b ∈ s.store.log.lh ∨ b = m ∨ b = a) s.store := by
    refine .bind_returns (a := s.store.bufs ind) (t := s.store) rfl (.ite (fun _ => ?_) fun _ => .pure (.inl rfl))
    refine .bind (ballocFrom_lh.weaken fun e t ⟨m, ht⟩ => ⟨m, m, fun b hb => (ht b hb).imp_right .inl⟩) ?_
    rintro a t ⟨m, ht⟩
    refine .bind (P := fun _ u => ∀ b ∈ u.log.lh, b ∈ s.store.log.lh ∨ b = m ∨ b = a ∨ b = ind) (.onlyIf (fun _ => ?_)
      fun _ b hb => (ht b hb).imp_right (Or.imp_right .inl)) fun _ u hu => .pure (.inr ⟨m, hu⟩)
    refine .bind_returns (a := t.bufs ind) (t := t) rfl ?_
    refine (logWrite_lh.weaken fun e u hu => ⟨m, a, fun b hb => ht b (hu ▸ hb)⟩).mono fun _ u hu b hb => ?_
    rcases hu b hb with hb | rfl
    · exact (ht b hb).imp_right (Or.imp_right .inl)
    · exact .inr (.inr (.inr rfl))
  refine .zoom hentry ?_ ?_
  · rintro a t (rfl | ⟨m, ht⟩)
    · exact h.found (by omega)
    · refine ⟨insert m (insert a D), ?_, by simp, fun b hb => ?_⟩
      · have hcard : (insert m (insert a D)).card ≤ k := card_alloc hk
        have hlack' : lacking i { s with store := t } = 0 := hlack
        omega
      · rcases ht b hb with hb | rfl | rfl | rfl
        · exact (h b hb).imp_right (Or.imp_left fun hin => by simp [hin])
        · exact .inr (.inl (Finset.mem_insert_self ..))
        · exact .inr (.inl (by simp))
        · exact .inr (.inr ⟨rfl, hne⟩)
  · rintro e t ⟨m, a, ht⟩
    exact ⟨insert m (insert a D), card_alloc hk, h.alloc (t := { s with store := t }) ht rfl⟩

theorem bmap_found {bn : Nat} (h : LogsIn st i D s) (hk : D.card + 2 + lacking i s ≤ k) :
    Outcome (bmap sb i bn) (Found st i k) (fun _ => Logs st i k) s := by
  unfold bmap
  split
  · next hdirect => exact loadAddr_found hdirect h hk
  refine .ite (fun _ => ?_) fun _ => .halt ⟨D, by omega, h⟩
  refine .bind (loadAddr_last h hk) ?_
  rintro a t (⟨rfl, hfound⟩ | ⟨hne, rfl, D', hk', h'⟩)
  · exact .ite (fun _ => .pure hfound) fun hne => absurd rfl hne
  · exact .ite (fun hzero => absurd hzero hne) fun _ => loadEntry_found hne h' hk'

/-! ### `writei` -/

theorem Logs.mono (h : Logs st i k s) (hle : k ≤ l) : Logs st i l s := by
  obtain ⟨D, hcard, hlogs⟩ := h
  exact ⟨D, hcard.trans hle, hlogs⟩

/-- The indirect block counts as one more. -/
theorem Logs.atMost (h : Logs st i k s) : LogsAtMost (k + 1) st s.store := by
  obtain ⟨D, hcard, hlogs⟩ := h
  refine ⟨insert (s.itable i).addrs[NDIRECT] D, (Finset.card_insert_le ..).trans (Nat.succ_le_succ hcard), fun b hb => ?_⟩
  rcases hlogs b hb with hold | hin | ⟨rfl, -⟩
  · exact .inl hold
  · exact .inr (Finset.mem_insert_of_mem hin)
  · exact .inr (Finset.mem_insert_self ..)

theorem LogsAtMost.mono (h : LogsAtMost k st st') (hle : k ≤ l) : LogsAtMost l st st' := by
  obtain ⟨D, hcard, hlogs⟩ := h
  exact ⟨D, hcard.trans hle, hlogs⟩

section
variable {src : Source} {off tot n K : Nat}

/-- One pass of the loop, with at most `l` blocks left to write to after it. -/
theorem writeiFrom_pass (htot : tot < n) (hfit : off % BSIZE + (n - tot) ≤ (l + 1) * BSIZE) (hl : 2 * l ≤ K)
    (hbmap : Outcome (bmap sb i (off / BSIZE)) (Found st i (K - 2 * l)) (fun _ => Logs st i K) s)
    (hnext : ∀ src off tot t D, LogsIn st i D t → D.card + 2 * l + lacking i t ≤ K →
      (n - tot = 0 ∨ off % BSIZE + (n - tot) ≤ l * BSIZE) →
      Outcome (writeiFrom sb i src off tot n) (fun _ => Logs st i K) (fun _ => Logs st i K) t) :
    Outcome (writeiFrom sb i src off tot n) (fun _ => Logs st i K) (fun _ => Logs st i K) s := by
  rw [writeiFrom, if_pos htot]
  refine .bind hbmap ?_
  rintro a t ⟨D, hcard, ha, hlogs⟩
  have hlogs' : Logs st i K t := ⟨D, by omega, hlogs⟩
  refine .ite (fun _ => .pure hlogs') fun _ => ?_
  refine .bind_returns (a := t.store.bufs a) (t := t) (onStore_returns rfl) ?_
  rcases hsrc : src.copyin (min (n - tot) (BSIZE - off % BSIZE)) with ⟨bytes, all⟩
  simp only [hsrc]
  refine .ite (fun _ => ?_) fun _ => ?_
  rotate_left
  · have hset : Outcome (liftState fun store : Store => ((), store.setBuf a ((t.store.bufs a).write (off % BSIZE) bytes)))
        (fun _ store => store.log = t.store.log) (fun (_ : Stop) _ => False) t.store := .liftState rfl
    refine .bind (P := fun _ => Logs st i K) (.zoom hset (fun _ store hlog => ?_) (by rintro _ _ ⟨⟩)) fun _ u hu => .pure hu
    exact ⟨D, by omega, fun b hb => hlogs b (hlog ▸ hb)⟩
  refine .bind (P := fun _ u => LogsIn st i D u ∧ u.itable = t.itable) (.zoom logWrite_lh ?_ ?_) ?_
  · intro _ store hlh
    refine ⟨fun b hb => ?_, rfl⟩
    rcases hlh b hb with hb | rfl
    · exact hlogs b hb
    · exact .inr (.inl ha)
  · intro e store hlh
    exact ⟨D, by omega, fun b hb => hlogs b (hlh ▸ hb)⟩
  · rintro - u ⟨hu, hitable⟩
    have hlack : lacking i u = lacking i t := lacking_eq (by rw [hitable])
    refine hnext _ _ _ u D hu (by omega) ?_
    have hmod : off % BSIZE < BSIZE := Nat.mod_lt _ (by decide)
    rcases Nat.le_total (n - tot) (BSIZE - off % BSIZE) with hle | hle
    · left
      rw [Nat.min_eq_left hle]
      omega
    · right
      have halign : (off + (BSIZE - off % BSIZE)) % BSIZE = 0 := by
        have hsplit := Nat.div_add_mod off BSIZE
        have hnext : off + (BSIZE - off % BSIZE) = BSIZE * (off / BSIZE + 1) := by
          rw [Nat.mul_add, Nat.mul_one]
          omega
        rw [hnext, Nat.mul_mod_right]
      rw [Nat.min_eq_right hle, halign]
      rw [Nat.add_mul, Nat.one_mul] at hfit
      omega

/-- Each pass takes at most two blocks, and one of them the indirect block's in the free bit map. -/
theorem writeiFrom_logs (h : LogsIn st i D s) (hk : D.card + 2 * l + lacking i s ≤ K)
    (hfit : n - tot = 0 ∨ off % BSIZE + (n - tot) ≤ l * BSIZE) :
    Outcome (writeiFrom sb i src off tot n) (fun _ => Logs st i K) (fun _ => Logs st i K) s := by
  induction l generalizing src off tot s D with
  | zero =>
    have hdone : ¬tot < n := by omega
    rw [writeiFrom, if_neg hdone]
    exact .pure ⟨D, by omega, h⟩
  | succ l ih =>
    by_cases htot : tot < n
    · have hfit' := hfit.resolve_left (by omega)
      refine writeiFrom_pass htot hfit' (by omega) ?_ fun src off tot t D => ih
      exact (bmap_found h (by omega)).weaken fun e t ht => ht.mono (by omega)
    · rw [writeiFrom, if_neg htot]
      exact .pure ⟨D, by omega, h⟩

/-- The loop of `writei` over what `filewrite` writes at a time: at most eight blocks but for the indirect block. -/
theorem writeiFrom_maxWrite (hgap : NoGap (s.itable i).addrs off) (hn : n ≤ maxWrite) :
    Outcome (writeiFrom sb i src off 0 n) (fun _ => Logs s.store i 8) (fun _ => Logs s.store i 8) s := by
  have hstart : LogsIn s.store i ∅ s := fun b hb => .inl hb
  have hmod : off % BSIZE < BSIZE := Nat.mod_lt _ (by decide)
  have hn' : n ≤ 3 * BSIZE := hn
  have hlack : lacking i s ≤ 1 := by
    unfold lacking
    split <;> omega
  rcases hgap with haligned | hind | ⟨hdirect, hne⟩
  · refine writeiFrom_logs (l := 3) hstart ?_ (.inr ?_)
    · rw [Finset.card_empty]
      omega
    · rw [haligned]
      omega
  · have hzero : lacking i s = 0 := if_neg hind
    refine writeiFrom_logs (l := 4) hstart ?_ (.inr ?_)
    · rw [Finset.card_empty, hzero]
    · omega
  · by_cases hpos : 0 < n
    · refine writeiFrom_pass (l := 3) hpos (by omega) (by decide) ?_ fun src off tot t D => writeiFrom_logs
      have hfind : Program.Returns (bmap sb i (off / BSIZE)) s (s.itable i).addrs[off / BSIZE] s := by
        rw [bmap, dif_pos hdirect]
        exact loadAddr_returns hne
      refine .of_returns hfind (hstart.found ?_)
      rw [Finset.card_empty]
      omega
    · rw [writeiFrom, if_neg hpos]
      exact .pure ⟨∅, Nat.zero_le _, hstart⟩

end

theorem iupdate_logs (h : LogsAtMost k st s.store) :
    Outcome (iupdate sb i) (fun _ t => LogsAtMost (k + 1) st t.store) (fun _ t => LogsAtMost (k + 1) st t.store) s := by
  obtain ⟨D, hcard, hlogs⟩ := h
  refine .bind_returns (a := s.itable i) (t := s) rfl ?_
  refine .bind_returns (a := s.store.bufs (IBLOCK (s.itable i).inum sb)) (t := s) (onStore_returns rfl) ?_
  refine .zoom logWrite_lh ?_ ?_
  · intro _ store hlh
    refine ⟨insert (IBLOCK (s.itable i).inum sb) D, (Finset.card_insert_le ..).trans (Nat.succ_le_succ hcard), fun b hb => ?_⟩
    rcases hlh b hb with hb | rfl
    · exact (hlogs b hb).imp_right Finset.mem_insert_of_mem
    · exact .inr (Finset.mem_insert_self ..)
  · intro e store hlh
    exact ⟨D, hcard.trans (Nat.le_succ k), fun b hb => hlogs b (hlh ▸ hb)⟩

theorem writei_logs {src : Source} {off n : UInt32} (hgap : NoGap (s.itable i).addrs off.toNat) (hn : n.toNat ≤ maxWrite) :
    Outcome (writei sb i src off n) (fun _ t => LogsAtMost MAXOPBLOCKS s.store t.store)
      (fun _ t => LogsAtMost MAXOPBLOCKS s.store t.store) s := by
  have hnone : LogsAtMost MAXOPBLOCKS s.store s.store := ⟨∅, Nat.zero_le _, fun b hb => .inl hb⟩
  refine .bind_returns (a := s.itable i) (t := s) rfl (.ite (fun _ => .pure hnone) fun _ => .ite (fun _ => .pure hnone) fun _ => ?_)
  refine .bind ((writeiFrom_maxWrite hgap hn).weaken fun e t ht => ht.atMost.mono (by decide)) ?_
  rintro ⟨tot, z⟩ t ht
  refine .liftState_bind (.bind (iupdate_logs ht.atMost) fun _ u hu => .pure hu)

/-! ### `filewrite` -/

/-- The block map of an inode as `ilock` leaves it. -/
def Fs.blockMap (s : Fs) (sb : Superblock) (i : Fin NINODE) : Vector BlockNo (NDIRECT + 1) :=
  if (s.itable i).valid then (s.itable i).addrs
  else ((s.store.bufs (IBLOCK (s.itable i).inum sb)).dinode ((s.itable i).inum.toNat % IPB)).addrs

theorem ilock_blockMap : Outcome (ilock sb i)
    (fun _ t => t.store = s.store ∧ t.ftable = s.ftable ∧ (t.itable i).addrs = s.blockMap sb i) (fun _ t => t.store = s.store) s := by
  refine .bind_returns (a := s.itable i) (t := s) rfl (.ite (fun _ => .halt rfl) fun _ => ?_)
  let s' := s.setInode i { s.itable i with locked := true }
  refine .bind (P := fun _ t => t = s') (.bind_returns (a := s.itable i) (t := s) rfl
    (.ite (fun _ => .halt rfl) fun _ => .liftState rfl)) ?_
  rintro - _ rfl
  have hself : s'.itable i = { s.itable i with locked := true } := Function.update_self ..
  refine .bind_returns (a := s'.itable i) (t := s') rfl (.onlyIf (fun hvalid => ?_) fun hvalid => ⟨rfl, rfl, ?_⟩)
  · have hmap : s.blockMap sb i =
        ((s.store.bufs (IBLOCK (s.itable i).inum sb)).dinode ((s.itable i).inum.toNat % IPB)).addrs := by
      rw [hself] at hvalid
      have hvalid' : ¬(s.itable i).valid = true := Bool.eq_false_iff.mp hvalid
      exact if_neg hvalid'
    refine .bind_returns (a := s'.store.bufs (IBLOCK (s'.itable i).inum sb)) (t := s') (onStore_returns rfl) ?_
    refine .liftState_bind (.bind_returns (a := _) (t := _) rfl (.onlyIf (fun _ => .halt rfl) fun _ => ⟨rfl, rfl, ?_⟩))
    rw [hmap]
    simp [Fs.setInode, hself]
    rfl
  · rw [hself] at hvalid ⊢
    have hvalid' : (s.itable i).valid = true := eq_true_of_ne_false hvalid
    exact (if_pos hvalid').symm

/-- The loop of `filewrite` is a sequence of transactions, and from whatever state, each logs at most `MAXOPBLOCKS` blocks,
    also where it does not come to its end; but for a write that begins inside of a block that the block map lacks together
    with the indirect block. -/
theorem filewrite_logs (sb : Superblock) (f : Fin NFILE) (mem : UserMem) (addr : UInt64) (n : Nat) :
    (∀ i, filewriteFrom sb f mem addr n i =
      if i < n then do
        onStore beginOp
        let r ← filewriteOp sb f mem addr n i
        onStore endOp
        if r ≠ min (n - i) maxWrite then return i else filewriteFrom sb f mem addr n (i + min (n - i) maxWrite)
      else return i) ∧
    ∀ (i : Nat) (s : Fs), NoGap (s.blockMap sb (s.ftable f).ip) (s.ftable f).off.toNat →
      Outcome (filewriteOp sb f mem addr n i) (fun _ t => LogsAtMost MAXOPBLOCKS s.store t.store)
        (fun _ t => LogsAtMost MAXOPBLOCKS s.store t.store) s := by
  refine ⟨filewriteFrom_eq sb f mem addr n, fun i s hgap => ?_⟩
  have hnone : LogsAtMost MAXOPBLOCKS s.store s.store := ⟨∅, Nat.zero_le _, fun b hb => .inl hb⟩
  have hn : (UInt32.ofNat (min (n - i) maxWrite)).toNat ≤ maxWrite :=
    (UInt32.toNat_ofNat'.trans_le (Nat.mod_le ..)).trans (Nat.min_le_right ..)
  refine .bind_returns (a := s.ftable f) (t := s) rfl ?_
  refine .bind (ilock_blockMap.weaken fun e t ht => ht ▸ hnone) ?_
  rintro - t ⟨hstore, -, haddrs⟩
  rw [← haddrs] at hgap
  rw [← hstore]
  refine .bind (writei_logs hgap hn) fun r u hu => ?_
  refine .bind (P := fun _ v => v.store = u.store) (.onlyIf (fun _ => .liftState rfl) fun _ => rfl) ?_
  intro _ v hv
  rw [← hv] at hu
  refine .bind (P := fun _ w => w.store = v.store) ?_ fun _ w hw => .pure (hw ▸ hu)
  refine .bind_returns (a := v.itable (s.ftable f).ip) (t := v) rfl (.ite (fun _ => .halt hu) fun _ => .liftState rfl)

/-! ### A file with a gap -/

/-- The free blocks are those of the list, in this order, and none of them is in the free bit map. -/
structure FreeAre (sb : Superblock) (s : Store) (F : List BlockNo) : Prop where
  iff : ∀ c : BlockNo, c.toNat < sb.size.toNat → (c ∉ usedBlocks sb s.bufs ↔ c ∈ F)
  sorted : F.Pairwise fun a b => a.toNat < b.toNat
  below : ∀ c ∈ F, c.toNat < sb.size.toNat
  data : ∀ c ∈ F, c ≠ 0 ∧ c ∉ sb.bitmap

namespace FreeAre
variable {F : List BlockNo} {B : Block}

theorem marked (h : FreeAre sb st F) : MapMarked sb st := by
  intro b hb hcase
  by_contra hfree
  have hdata := h.data b ((h.iff b hb).mp hfree)
  rcases hcase with hzero | hmap
  · exact hdata.1 hzero
  · exact hdata.2 hmap

theorem logging (h : FreeAre sb st F) (ha : a ∉ sb.bitmap) : FreeAre sb (st.logging a B) F := by
  refine ⟨fun c hc => ?_, h.sorted, h.below, h.data⟩
  have hmem : c ∈ usedBlocks sb (st.logging a B).bufs ↔ c ∈ usedBlocks sb st.bufs := by
    have heq : usedBlocks sb (st.logging a B).bufs ∩ sb.mapped = usedBlocks sb st.bufs ∩ sb.mapped := by
      rw [st.bufs_logging a B]
      exact usedBlocks_update ha
    have hboth := Set.ext_iff.mp heq c
    simpa [mapped_of_lt hc] using hboth
  rw [hmem]
  exact h.iff c hc

theorem balloc_returns (hsize : sb.size.toNat < 2 ^ 31) (h : FreeAre sb st (a :: F)) (hroom : st.log.HasRoom 2)
    (hout : st.log.outstanding = 1) :
    Program.Returns (balloc sb) st a (st.allocating sb a) ∧ FreeAre sb (st.allocating sb a) F := by
  obtain ⟨hfirst, hsorted⟩ := List.pairwise_cons.mp h.sorted
  have hmem : a ∈ a :: F := List.mem_cons_self
  have hlt := h.below a hmem
  have hfree := (h.iff a hlt).mpr hmem
  have houtcome := balloc_outcome hsize h.marked ⟨a, hlt, hfree⟩
  obtain ⟨a', t, hret, -, halloc, rfl⟩ := houtcome.returns (by
    rintro e (⟨-, hnot⟩ | ⟨-, hnone⟩)
    · exact hnot hroom
    · omega)
  have heq : a' = a := by
    rcases List.mem_cons.mp ((h.iff a' halloc.below).mp halloc.free) with heq | hin
    · exact heq
    · exact absurd (halloc.least a (hfirst a' hin)) hfree
  subst heq
  refine ⟨hret, fun c hc => ?_, hsorted, fun c hc => h.below c (List.mem_cons_of_mem _ hc),
    fun c hc => h.data c (List.mem_cons_of_mem _ hc)⟩
  have hused := Set.ext_iff.mp halloc.used c
  simp only [Set.mem_inter_iff, Set.mem_insert_iff, mapped_of_lt hc, and_true] at hused
  rw [hused, not_or, h.iff c hc, List.mem_cons]
  constructor
  · rintro ⟨hne, heq | hin⟩
    · exact absurd heq hne
    · exact hin
  · intro hin
    refine ⟨?_, .inr hin⟩
    rintro rfl
    exact absurd (hfirst c hin) (Nat.lt_irrefl _)

end FreeAre

/-- Five blocks of free bit map. -/
def Superblock.wide : Superblock where
  magic := FSMAGIC
  size := 40960
  nblocks := 40900
  ninodes := 16
  nlog := 30
  logstart := 2
  inodestart := 40
  bmapstart := 50

/-- All bits but one are set. -/
def oneFree : Block := (⟨Vector.replicate BSIZE 255⟩ : Block).clearBit 100

/-- An operation has begun on a file system with a free block for each block of the free bit map, and a file of which the
    block 11 is missing, where it ends. -/
def gapFs : Fs where
  store := {
    disk := fun _ => .zero
    bufs := fun b => if 50 ≤ b.toNat ∧ b.toNat < 55 then oneFree else .zero
    pins := fun _ => 0
    log := { start := 2, size := 30, outstanding := 1, committing := false, lh := [] }
    writes := [] }
  itable _ := { Dinode.zero with type := T_FILE, nlink := 1, size := 11265, inum := 1, ref := 1, locked := false, valid := true }
  ftable _ := { type := .inode, ref := 1, readable := true, writable := true, ip := ⟨0, by decide⟩, off := 11265, major := 0 }
  proc _ := none

theorem bit_oneFree {bi : Nat} (hi : bi < BPB) : oneFree.bit bi = !decide (100 = bi) := by
  have hbyte : bi / 8 < BSIZE := Nat.div_lt_of_lt_mul (by rwa [Nat.mul_comm])
  have hones : (⟨Vector.replicate BSIZE 255⟩ : Block).bit bi = true := by
    have hbits : ∀ j < 8, (255 : UInt8).toBitVec.getLsbD j = true := by decide
    rw [Block.bit, and_bitMask, Block.byte, Vector.getElem?_replicate, if_pos hbyte]
    exact hbits _ (Nat.mod_lt _ (by decide))
  rw [oneFree, Block.bit_clearBit (by decide), hones, Bool.and_true]

theorem toNat_BBLOCK_wide {c : BlockNo} (hc : c.toNat < Superblock.wide.size.toNat) :
    50 ≤ (BBLOCK c .wide).toNat ∧ (BBLOCK c .wide).toNat < 55 := by
  have hc' : c.toNat < 40960 := hc
  have hstart : Superblock.wide.bmapstart.toNat = 50 := rfl
  rw [BBLOCK, UInt32.toNat_add, UInt32.toNat_ofNat', hstart]
  simp only [BPB, BSIZE]
  omega

theorem notMem_bitmap_wide (ha : ¬(50 ≤ a.toNat ∧ a.toNat < 55)) : a ∉ Superblock.wide.bitmap := by
  rintro ⟨c, hc, rfl⟩
  exact ha (toNat_BBLOCK_wide hc)

theorem gapFs_free : FreeAre .wide gapFs.store [100, 8292, 16484, 24676, 32868] := by
  refine ⟨fun c hc => ?_, by simp, by simp [Superblock.wide], fun c hc => ?_⟩
  · have hbuf : gapFs.store.bufs (BBLOCK c .wide) = oneFree := if_pos (toNat_BBLOCK_wide hc)
    have hmod : c.toNat % BPB < BPB := Nat.mod_lt _ (by decide)
    have hc' : c.toNat < 40960 := hc
    have hbit : ¬(!decide (100 = c.toNat % BPB)) = true ↔ 100 = c.toNat % BPB := by simp
    have hmem : c ∈ [100, 8292, 16484, 24676, 32868] ↔
        c.toNat = 100 ∨ c.toNat = 8292 ∨ c.toNat = 16484 ∨ c.toNat = 24676 ∨ c.toNat = 32868 := by simp [← UInt32.toNat_inj]
    rw [usedBlocks, Set.mem_ofPred_eq, hbuf, bit_oneFree hmod, hbit, hmem]
    unfold BPB BSIZE
    omega
  · have hall : ∀ c ∈ [100, 8292, 16484, 24676, 32868], c ≠ (0 : BlockNo) ∧ ¬(50 ≤ c.toNat ∧ c.toNat < 55) := by simp
    exact ⟨(hall c hc).1, notMem_bitmap_wide (hall c hc).2⟩

section
variable {F L : List BlockNo} {J j : Nat} {B : Block} {src : Source} {off tot n m : Nat} {r : Nat × Nat}

theorem loadAddr_alloc {j : Fin (NDIRECT + 1)} (hzero : getElem (s.itable i).addrs j (addr_lt j) = 0)
    (halloc : Program.Returns (balloc sb) s.store a st) (hne : a ≠ 0) :
    Program.Returns (loadAddr sb i j) s a
      (({ s with store := st } : Fs).setInode i { s.itable i with addrs := (s.itable i).addrs.set j a (addr_lt j) }) := by
  refine inode_returns.bind ?_
  rw [if_pos hzero]
  refine (onStore_returns_store halloc).bind ?_
  rw [if_neg hne]
  exact .bind (show Program.Returns (modifyInode i _) _ () _ from rfl) .pure

theorem loadEntry_alloc {st'' : Store} (hzero : (st.bufs b).word j = 0) (halloc : Program.Returns (balloc sb) st a st')
    (hne : a ≠ 0) (hlog : Program.Returns (logWrite b ((st'.bufs b).setWord j a)) st' () st'') :
    Program.Returns (loadEntry sb b j) st a st'' := by
  refine .bind (show Program.Returns (bread b) st (st.bufs b) st from rfl) ?_
  rw [if_pos hzero]
  exact halloc.bind (.bind (.onlyIf hne (.bind (show Program.Returns (bread b) st' (st'.bufs b) st' from rfl) hlog)) .pure)

theorem writeiFrom_next {P : Fs → Prop} (htot : tot < n) (hm : min (n - tot) (BSIZE - off % BSIZE) = m)
    (hmap : Program.Returns (bmap sb i (off / BSIZE)) s a t) (hne : a ≠ 0) (hall : (src.copyin m).2 = true)
    (hlog : ∀ B, ∃ u, Program.Returns (onStore (logWrite a B)) t () u ∧
      ∃ v, Program.Returns (writeiFrom sb i (src.advance m) (off + m) (tot + m) n) u r v ∧ P v) :
    ∃ v, Program.Returns (writeiFrom sb i src off tot n) s r v ∧ P v := by
  obtain ⟨u, hwrite, v, hrest, hv⟩ := hlog ((t.store.bufs a).write (off % BSIZE) (src.copyin m).1)
  refine ⟨v, ?_, hv⟩
  rw [writeiFrom, if_pos htot, hm]
  refine hmap.bind ?_
  rw [if_neg hne]
  refine bread_returns.bind ?_
  simp only [hall, if_true]
  exact hwrite.bind hrest

/-- While the gap is filled: the free blocks, what is logged, and that the entries from `J` on of the indirect block are 0. -/
structure GapStore (F L : List BlockNo) (J : Nat) (s : Store) : Prop where
  free : FreeAre .wide s F
  log : s.log = { gapFs.store.log with lh := L }
  entries : ∀ j, J ≤ j → (s.bufs 8292).word j = 0

namespace GapStore

theorem alloc (h : GapStore (a :: F) L J st) (hroom : L.length + 2 ≤ 29) (hmap : BBLOCK a .wide ∉ L ∧ BBLOCK a .wide ≠ 8292)
    (ha : a ∉ L ∧ a ≠ BBLOCK a .wide) :
    ∃ st', Program.Returns (balloc .wide) st a st' ∧ GapStore F (L ++ [BBLOCK a .wide, a]) J st' := by
  have hfits : st.log.HasRoom 2 := by
    rw [h.log]
    exact ⟨hroom.trans (by decide), by simp only [gapFs]; omega⟩
  obtain ⟨hret, hfree⟩ := h.free.balloc_returns (by decide) hfits (by rw [h.log]; rfl)
  refine ⟨_, hret, hfree, ?_, fun j hj => ?_⟩
  · have hnot : a ∉ L ++ [BBLOCK a .wide] := by simp [ha]
    rw [Store.allocating, Store.log_logging, Store.log_logging, h.log]
    simp only [if_neg hmap.1, if_neg hnot, List.append_assoc, List.singleton_append]
  · rw [Store.allocating, Store.bufs_logging, Store.bufs_logging]
    by_cases heq : (8292 : BlockNo) = a
    · rw [← heq, Function.update_self, Block.word_zero]
    · rw [Function.update_of_ne heq, Function.update_of_ne hmap.2.symm]
      exact h.entries j hj

/-- A block is logged again. -/
theorem again (h : GapStore F L J st) (hroom : L.length ≤ 28) (ha : a ∈ L) (hnot : a ∉ Superblock.wide.bitmap)
    (hentries : a = 8292 → ∀ j, k ≤ j → B.word j = 0) (hle : J ≤ k) :
    ∃ st', Program.Returns (logWrite a B) st () st' ∧ GapStore F L k st' := by
  have hfits : ¬st.log.TooBig := by
    rw [h.log, Log.TooBig]
    simp only [gapFs, LOGSIZE, MAXOPBLOCKS]
    omega
  refine ⟨_, logWrite_returns hfits (by rw [h.log]; rfl), h.free.logging hnot, ?_, fun j hj => ?_⟩
  · rw [Store.log_logging, h.log]
    simp only [if_pos ha]
  · rw [Store.bufs_logging]
    by_cases heq : (8292 : BlockNo) = a
    · rw [← heq, Function.update_self]
      exact hentries heq.symm j hj
    · rw [Function.update_of_ne heq]
      exact h.entries j (hle.trans hj)

theorem entry (h : GapStore (a :: F) L J st) (hroom : L.length + 2 ≤ 28) (hmap : BBLOCK a .wide ∉ L ∧ BBLOCK a .wide ≠ 8292)
    (ha : a ∉ L ∧ a ≠ BBLOCK a .wide) (hne : a ≠ 0) (hind : 8292 ∈ L) :
    ∃ st', Program.Returns (loadEntry .wide 8292 J) st a st' ∧ GapStore F (L ++ [BBLOCK a .wide, a]) (J + 1) st' := by
  obtain ⟨st', halloc, h'⟩ := h.alloc (by omega) hmap ha
  have hwords : (8292 : BlockNo) = 8292 → ∀ j, J + 1 ≤ j → ((st'.bufs 8292).setWord J a).word j = 0 := by
    intro _ j hj
    rw [Block.word_setWord_of_ne (by omega)]
    exact h'.entries j (by omega)
  obtain ⟨st'', hlog, h''⟩ := h'.again (by simpa using hroom) (List.mem_append_left _ hind) (notMem_bitmap_wide (by decide))
    hwords (Nat.le_succ J)
  exact ⟨st'', loadEntry_alloc (h.entries J le_rfl) halloc hne hlog, h''⟩

end GapStore

/-- The inode of the file, locked, with its block map. -/
structure GapRun (F L : List BlockNo) (J : Nat) (addrs : Vector BlockNo (NDIRECT + 1)) (s : Fs) : Prop extends
    GapStore F L J s.store where
  inode : s.itable ⟨0, by decide⟩ = { gapFs.itable ⟨0, by decide⟩ with locked := true, addrs := addrs }

namespace GapRun
variable {addrs : Vector BlockNo (NDIRECT + 1)}

theorem loadAddr {j : Fin (NDIRECT + 1)} (h : GapRun (a :: F) L J addrs s) (hzero : getElem addrs j (addr_lt j) = 0)
    (hroom : L.length + 2 ≤ 29) (hmap : BBLOCK a .wide ∉ L ∧ BBLOCK a .wide ≠ 8292) (ha : a ∉ L ∧ a ≠ BBLOCK a .wide) (hne : a ≠ 0) :
    ∃ t, Program.Returns (loadAddr .wide ⟨0, by decide⟩ j) s a t ∧
      GapRun F (L ++ [BBLOCK a .wide, a]) J (addrs.set j a (addr_lt j)) t := by
  obtain ⟨st', halloc, h'⟩ := h.alloc hroom hmap ha
  have hzero' : (s.itable ⟨0, by decide⟩).addrs[j] = 0 := by
    rw [h.inode]
    exact hzero
  refine ⟨_, loadAddr_alloc hzero' halloc hne, h', ?_⟩
  rw [Fs.itable_setInode_self, h.inode]

theorem entry (h : GapRun (a :: F) L J addrs s) (hroom : L.length + 2 ≤ 28) (hmap : BBLOCK a .wide ∉ L ∧ BBLOCK a .wide ≠ 8292)
    (ha : a ∉ L ∧ a ≠ BBLOCK a .wide) (hne : a ≠ 0) (hmem : 8292 ∈ L) :
    ∃ t, Program.Returns (onStore (loadEntry .wide 8292 J)) s a t ∧
      GapRun F (L ++ [BBLOCK a .wide, a]) (J + 1) addrs t := by
  obtain ⟨st', hentry, h'⟩ := h.toGapStore.entry hroom hmap ha hne hmem
  exact ⟨_, onStore_returns_store hentry, h', h.inode⟩

theorem indirect (h : GapRun (a :: F) L J addrs s) (hind : getElem addrs NDIRECT NDIRECT_lt = 8292) (hroom : L.length + 2 ≤ 28)
    (hmap : BBLOCK a .wide ∉ L ∧ BBLOCK a .wide ≠ 8292) (ha : a ∉ L ∧ a ≠ BBLOCK a .wide) (hne : a ≠ 0) (hmem : 8292 ∈ L)
    (hJ : J < NINDIRECT) :
    ∃ t, Program.Returns (bmap .wide ⟨0, by decide⟩ (NDIRECT + J)) s a t ∧
      GapRun F (L ++ [BBLOCK a .wide, a]) (J + 1) addrs t := by
  obtain ⟨t, hentry, h'⟩ := h.entry hroom hmap ha hne hmem
  have haddr : Program.Returns (Kernel.loadAddr .wide ⟨0, by decide⟩ (Fin.last NDIRECT)) s 8292 s := by
    have hself : (s.itable ⟨0, by decide⟩).addrs[Fin.last NDIRECT] = 8292 := by
      rw [h.inode]
      exact hind
    have hne : (s.itable ⟨0, by decide⟩).addrs[Fin.last NDIRECT] ≠ 0 := by
      rw [hself]
      decide
    have hret : Program.Returns (Kernel.loadAddr .wide ⟨0, by decide⟩ (Fin.last NDIRECT)) s _ s := loadAddr_returns hne
    rwa [hself] at hret
  refine ⟨t, ?_, h'⟩
  have hdirect : ¬NDIRECT + J < NDIRECT := by omega
  rw [bmap, dif_neg hdirect, Nat.add_sub_cancel_left, if_pos hJ]
  refine haddr.bind ?_
  rw [if_neg (by decide)]
  exact hentry

theorem write {B : Block} (h : GapRun F L J addrs s) (hroom : L.length ≤ 28) (ha : a ∈ L)
    (hnot : ¬(50 ≤ a.toNat ∧ a.toNat < 55)) (hne : a ≠ 8292) :
    ∃ t, Program.Returns (onStore (logWrite a B)) s () t ∧ GapRun F L J addrs t := by
  obtain ⟨st', hlog, h'⟩ := h.again hroom ha (notMem_bitmap_wide hnot) (fun heq => absurd heq hne) le_rfl
  exact ⟨_, onStore_returns_store hlog, h', h.inode⟩

end GapRun

/-- The blocks that are logged when the gap is filled. -/
def gapLog : List BlockNo := [50, 100, 51, 8292, 52, 16484, 53, 24676, 54, 32868]

/-- Four blocks are allocated for the content, each with a bit in another block of the free bit map, and the indirect block. -/
theorem GapRun.fills {mem : UserMem} (va : UInt64) (hall : ∀ va len, (mem.copyin va len).2 = true)
    (h : GapRun [100, 8292, 16484, 24676, 32868] [] 0 Dinode.zero.addrs s) :
    ∃ t, Program.Returns (writeiFrom .wide ⟨0, by decide⟩ (.user mem va) 11265 0 3072) s (3072, 14337) t ∧
      ∃ addrs, GapRun [] gapLog 3 addrs t := by
  obtain ⟨s1, hmap1, h1⟩ := h.loadAddr (j := 11) (by decide) (by decide) (by decide) (by decide) (by decide)
  refine writeiFrom_next (m := 1023) (by decide) rfl hmap1 (by decide) (hall ..) fun B => ?_
  obtain ⟨t1, hwrite1, h1⟩ := h1.write (a := 100) (B := B) (by decide) (by decide) (by decide) (by decide)
  refine ⟨t1, hwrite1, ?_⟩
  -- The block 12 needs the indirect block first.
  obtain ⟨s2, hind, h2⟩ := h1.loadAddr (j := Fin.last NDIRECT) (by decide) (by decide) (by decide) (by decide) (by decide)
  obtain ⟨s3, hentry, h3⟩ := h2.entry (by decide) (by decide) (by decide) (by decide) (by decide)
  have hmap2 : Program.Returns (bmap .wide ⟨0, by decide⟩ 12) t1 16484 s3 := by
    refine Program.Returns.bind hind ?_
    rw [if_neg (by decide)]
    exact hentry
  refine writeiFrom_next (m := 1024) (by decide) rfl hmap2 (by decide) (hall ..) fun B => ?_
  obtain ⟨t2, hwrite2, h3⟩ := h3.write (a := 16484) (B := B) (by decide) (by decide) (by decide) (by decide)
  refine ⟨t2, hwrite2, ?_⟩
  obtain ⟨s4, hmap3, h4⟩ := h3.indirect (by decide) (by decide) (by decide) (by decide) (by decide) (by decide) (by decide)
  refine writeiFrom_next (m := 1024) (by decide) rfl hmap3 (by decide) (hall ..) fun B => ?_
  obtain ⟨t3, hwrite3, h4⟩ := h4.write (a := 24676) (B := B) (by decide) (by decide) (by decide) (by decide)
  refine ⟨t3, hwrite3, ?_⟩
  obtain ⟨s5, hmap4, h5⟩ := h4.indirect (by decide) (by decide) (by decide) (by decide) (by decide) (by decide) (by decide)
  refine writeiFrom_next (m := 1) (by decide) rfl hmap4 (by decide) (hall ..) fun B => ?_
  obtain ⟨t4, hwrite4, h5⟩ := h5.write (a := 32868) (B := B) (by decide) (by decide) (by decide) (by decide)
  refine ⟨t4, hwrite4, t4, ?_, _, h5⟩
  rw [writeiFrom, if_neg (by decide)]
  exact .pure

/-- The user memory with all pages mapped. -/
def allMapped : UserMem := ⟨fun _ => some (Vector.replicate _ 0)⟩

theorem copyin_allMapped (va : UInt64) (len : Nat) : (allMapped.copyin va len).2 = true := by
  have hlength : ∀ va, (allMapped.readable va len).length = len := by
    induction len with
    | zero => exact fun _ => rfl
    | succ len ih =>
      intro va
      rw [UserMem.readable]
      exact congrArg Nat.succ (ih (va + 1))
  rw [UserMem.copyin_eq, hlength, decide_eq_true rfl]

theorem gapFs_logs : ∃ t, Program.Returns (filewriteOp .wide ⟨0, by decide⟩ allMapped 0 3072 0) gapFs 3072 t ∧
    t.store.log.lh = gapLog ++ [40] := by
  let s := gapFs.setInode ⟨0, by decide⟩ { gapFs.itable ⟨0, by decide⟩ with locked := true }
  have hlock : Program.Returns (ilock .wide ⟨0, by decide⟩) gapFs () s := rfl
  have hstart : GapRun [100, 8292, 16484, 24676, 32868] [] 0 Dinode.zero.addrs s :=
    ⟨⟨gapFs_free, rfl, fun j _ => Block.word_zero j⟩, rfl⟩
  obtain ⟨t, hloop, addrs, ht⟩ := hstart.fills (0 + .ofNat 0) copyin_allMapped
  let u := t.setInode ⟨0, by decide⟩ { t.itable ⟨0, by decide⟩ with size := 14337 }
  have hself : u.itable ⟨0, by decide⟩ = { t.itable ⟨0, by decide⟩ with size := 14337 } := Fs.itable_setInode_self ..
  have hinum : (u.itable ⟨0, by decide⟩).inum = 1 := by
    rw [hself, ht.inode]
    rfl
  have hlog : u.store.log = { gapFs.store.log with lh := gapLog } := ht.log
  have hroom : ¬u.store.log.TooBig := by
    rw [hlog, Log.TooBig]
    decide
  obtain ⟨v, hupdate, hitable, hlh⟩ : ∃ v, Program.Returns (iupdate .wide ⟨0, by decide⟩) u () v ∧ v.itable = u.itable ∧
      v.store.log.lh = gapLog ++ [40] := by
    refine ⟨_, iupdate_logging .wide ⟨0, by decide⟩ hroom (by rw [hlog]; rfl), rfl, ?_⟩
    rw [hinum, Store.log_logging, hlog]
    decide
  have hwritei : Program.Returns (writei .wide ⟨0, by decide⟩ (.user allMapped (0 + .ofNat 0)) 11265 3072) s 3072 v := by
    refine inode_returns.bind ?_
    rw [if_neg (by decide), if_neg (by decide)]
    refine hloop.bind ?_
    have hsize : (t.itable ⟨0, by decide⟩).size = 11265 := by
      rw [ht.inode]
      rfl
    have hmodify : Program.Returns (modifyInode ⟨0, by decide⟩ fun ip =>
        if 14337 > ip.size.toNat then { ip with size := UInt32.ofNat 14337 } else ip) t () u := by
      have hlt : 14337 > (t.itable ⟨0, by decide⟩).size.toNat := by
        rw [hsize]
        decide
      have hgrown : (if 14337 > (t.itable ⟨0, by decide⟩).size.toNat
          then { t.itable ⟨0, by decide⟩ with size := UInt32.ofNat 14337 } else t.itable ⟨0, by decide⟩) =
          { t.itable ⟨0, by decide⟩ with size := 14337 } := if_pos hlt
      exact congrArg (fun x => (Except.ok (), t.setInode ⟨0, by decide⟩ x)) hgrown
    exact hmodify.bind (hupdate.bind .pure)
  let w := v.setFile ⟨0, by decide⟩ { v.ftable ⟨0, by decide⟩ with off := (v.ftable ⟨0, by decide⟩).off + 3072 }
  have hunlock : ¬((w.itable ⟨0, by decide⟩).locked = false ∨ (w.itable ⟨0, by decide⟩).ref < 1) := by
    have hlocked : (w.itable ⟨0, by decide⟩).locked = true := by
      show (v.itable ⟨0, by decide⟩).locked = true
      rw [hitable, hself, ht.inode]
    have href : (w.itable ⟨0, by decide⟩).ref = 1 := by
      show (v.itable ⟨0, by decide⟩).ref = 1
      rw [hitable, hself, ht.inode]
      rfl
    rw [hlocked, href]
    decide
  let x := w.setInode ⟨0, by decide⟩ { w.itable ⟨0, by decide⟩ with locked := false }
  have hmove : Program.Returns (modifyFile ⟨0, by decide⟩ fun fp => { fp with off := fp.off + 3072 }) v () w := rfl
  have hrelease : Program.Returns (iunlock ⟨0, by decide⟩) w () x := by
    refine inode_returns.bind ?_
    refine (congrFun (if_neg hunlock) w).trans ?_
    rfl
  exact ⟨x, Program.Returns.bind (t := gapFs) rfl
    (hlock.bind (hwritei.bind (.bind (.onlyIf (by decide) hmove) (hrelease.bind .pure)))), hlh⟩

/-- At the beginning of the file. -/
theorem filewrite_logs_start :
    Outcome (filewriteOp .wide ⟨0, by decide⟩ allMapped 0 3072 0)
      (fun _ t => LogsAtMost MAXOPBLOCKS gapFs.store t.store) (fun _ t => LogsAtMost MAXOPBLOCKS gapFs.store t.store)
      (gapFs.setFile ⟨0, by decide⟩ { gapFs.ftable ⟨0, by decide⟩ with off := 0 }) :=
  (filewrite_logs .wide ⟨0, by decide⟩ allMapped 0 3072).2 0
    (gapFs.setFile ⟨0, by decide⟩ { gapFs.ftable ⟨0, by decide⟩ with off := 0 }) (.inl rfl)

/-- A write of three blocks that begins inside of the missing block logs eleven. -/
theorem not_filewrite_logs : ¬∀ (sb : Superblock) (f : Fin NFILE) (mem : UserMem) (addr : UInt64) (n i : Nat) (s : Fs),
    Outcome (filewriteOp sb f mem addr n i) (fun _ t => LogsAtMost MAXOPBLOCKS s.store t.store)
      (fun _ t => LogsAtMost MAXOPBLOCKS s.store t.store) s := by
  intro h
  obtain ⟨t, hret, hlh⟩ := gapFs_logs
  obtain ⟨D, hcard, hlogs⟩ := (h .wide ⟨0, by decide⟩ allMapped 0 3072 0 gapFs).post hret
  have hsub : (gapLog ++ [40]).toFinset ⊆ D := by
    intro b hb
    rcases hlogs b (hlh ▸ List.mem_toFinset.mp hb) with hold | hin
    · cases hold
    · exact hin
  have heleven : (gapLog ++ [40]).toFinset.card = 11 := by decide
  have hle := Finset.card_le_card hsub
  rw [heleven] at hle
  exact absurd (hle.trans hcard) (by decide)

end

end LabSO.Kernel

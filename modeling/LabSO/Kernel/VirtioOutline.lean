import LabSO.Kernel.VirtioInv

/-! What holds of each caller of `virtio_disk_rw` and of each handler of an interrupt, where it stands. -/

namespace LabSO.Virtio
open Monitor Transition

variable {n m k : Nat} {d d' : Data n m} {p q : Fin n} {b b' : Fin m} {w w' : Call m} {idx : Idx} {i : Nat} {l : List Nat}
  {x : Option (Chain n m)} {ts : List Transfer} {point point' : Point m}

/-! ### Free descriptors -/

theorem allocDesc_some {disk disk' : Disk m} (h : disk.allocDesc = some (disk', i)) :
    i < NUM ∧ disk.free i = true ∧ disk' = disk.setFree i false := by
  obtain ⟨j, hj, heq⟩ := Option.map_eq_some_iff.mp h
  cases heq
  exact ⟨List.mem_range.mp (List.mem_of_find?_eq_some hj), List.find?_some hj, rfl⟩

theorem allocDesc_none {disk : Disk m} (h : disk.allocDesc = none) : disk.freeCount = 0 := by
  have hnone := List.find?_eq_none.mp (Option.map_eq_none_iff.mp h)
  refine Finset.card_eq_zero.mpr (Finset.filter_eq_empty_iff.mpr fun j hj => ?_)
  exact hnone j (List.mem_range.mpr (Finset.mem_range.mp hj))

theorem freeDesc_ok {disk : Disk m} (hlt : i < NUM) (hfree : disk.free i = false) :
    disk.freeDesc i = .ok ((disk.setDesc i ⟨.null, 0, 0, 0⟩).setFree i true) := by
  rw [Disk.freeDesc, if_neg (Nat.not_le.mpr hlt), if_neg (by simp [hfree])]

theorem freeCount_setFree {disk disk' : Disk m} (hlt : i < NUM) (hfree : disk.free i = false)
    (h : disk'.free = Function.update disk.free i true) : disk'.freeCount = disk.freeCount + 1 := by
  have hfilter : ((Finset.range NUM).filter fun j => disk'.free j) =
      insert i ((Finset.range NUM).filter fun j => disk.free j) := by
    ext j
    rw [h, Finset.mem_insert, Finset.mem_filter, Finset.mem_filter, Finset.mem_range]
    by_cases hj : j = i
    · subst hj
      simp [hlt]
    · simp [hj]
  rw [Disk.freeCount, hfilter, Finset.card_insert_of_notMem (by simp [hfree])]
  rfl

/-! ### Callers -/

/-- A process is in a call with the buffer, and with no other; the chain of the call is `x`, and while there is none the
    device has done `ts` with the buffer. -/
structure Calling (p : Fin n) (w : Call m) (x : Option (Chain n m)) (ts : List Transfer) (d : Data n m) : Prop where
  calls : ∀ b, d.calls b = some p ↔ b = w.b
  chain : d.chains w.b = x
  transfers : x = none → d.transfers w.b = ts

def Unsent (p : Fin n) (w : Call m) (d : Data n m) : Prop := Calling p w none w.start d

def Sent (p : Fin n) (w : Call m) (idx : Idx) (d : Data n m) : Prop := Calling p w (some ⟨p, w, idx⟩) [] d

def Served (p : Fin n) (w : Call m) (d : Data n m) : Prop := Calling p w none (w.start ++ [w.transfer]) d

/-- What a step leaves to those who are not in a call with the buffers in `mine`. -/
structure Frame (mine : Fin m → Prop) (d d' : Data n m) : Prop where
  calls : ∀ b, d'.calls b = d.calls b ∨ mine b ∧ d'.calls b = none
  chains : ∀ b, ¬mine b → d'.chains b = d.chains b
  transfers : ∀ b, ¬mine b → d.chains b = none → d'.transfers b = d.transfers b

def Idle (p : Fin n) (d : Data n m) : Prop := ∀ b, d.calls b ≠ some p

theorem Idle.frame {mine : Fin m → Prop} (h : Idle q d) (hf : Frame mine d d') : Idle q d' := fun b hb => by
  rcases hf.calls b with heq | ⟨-, heq⟩
  · exact h b (heq ▸ hb)
  · rw [heq] at hb
    cases hb

theorem Calling.frame {mine : Fin m → Prop} (h : Calling q w x ts d) (hf : Frame mine d d')
    (hmine : ∀ b, mine b → d.calls b ≠ some q) : Calling q w x ts d' := by
  have hb : ¬mine w.b := fun hm => hmine w.b hm ((h.calls w.b).mpr rfl)
  refine ⟨fun b => ?_, (hf.chains w.b hb).trans h.chain, fun hx => ?_⟩
  · rw [← h.calls b]
    rcases hf.calls b with heq | ⟨hm, heq⟩
    · rw [heq]
    · rw [heq]
      exact ⟨nofun, fun h' => absurd h' (hmine b hm)⟩
  · exact (hf.transfers w.b hb (h.chain.trans hx)).trans (h.transfers hx)

/-! ### Places -/

/-- What holds of a process at each place, with the lock held. -/
def RwInside (p : Fin n) (d : Data n m) : Point m → Prop
  | .alloc w idx => Inv idx none d ∧ Unsent p w d ∧ idx.length ≤ 2
  | .undo w idx | .undoWakeup w idx => Inv idx none d ∧ Unsent p w d ∧ d.disk.freeCount + idx.length ≤ 2
  | .formatHead w idx => Inv idx.list none d ∧ Unsent p w d
  | .formatMid w idx =>
    Inv idx.list none d ∧ Unsent p w d ∧ d.disk.ops idx.head = w.req ∧ d.disk.desc idx.head = Call.descHead idx
  | .formatTail w idx =>
    Inv idx.list none d ∧ Unsent p w d ∧ d.disk.ops idx.head = w.req ∧ d.disk.desc idx.head = Call.descHead idx ∧
      d.disk.desc idx.mid = w.descMid idx
  | .record w idx => Inv idx.list none d ∧ Unsent p w d ∧ Built d.disk w idx
  | .offer w idx =>
    Inv idx.list none d ∧ Unsent p w d ∧ Built d.disk w idx ∧ (d.disk.info idx.head).b = some w.b ∧ d.bdisk w.b = 1
  | .advance w idx =>
    Inv idx.list none d ∧ Unsent p w d ∧ Built d.disk w idx ∧ (d.disk.info idx.head).b = some w.b ∧ d.bdisk w.b = 1 ∧
      (d.disk.avail.ring (d.disk.avail.idx.toNat % NUM)).toNat = idx.head
  | .notify w idx | .waitLoop w idx => Inv [] none d ∧ Sent p w idx d
  | .chain w i => ∃ l, Inv (i :: l) none d ∧ Served p w d ∧ Links d.disk (i :: l)
  | .chainWakeup w next => ∃ l, Inv l none d ∧ Served p w d ∧ Links d.disk l ∧ next = l.head?
  | .finish w => Inv [] none d ∧ Served p w d
  | .return w => Inv [] none d ∧ Idle p d ∧ d.chains w.b = none ∧ d.transfers w.b = w.start ++ [w.transfer]
  | _ => False

/-- What holds of a handler at each place. -/
def IntrInside (d : Data n m) : Point m → Prop
  | .intrLoop => Inv [] none d
  | .intrTake id => Inv [] none d ∧ d.First id
  | .intrWakeup _ | .intrNext => ∃ i, Inv [] (some i) d
  | _ => False

def Inside (a : Thread n (Fin k)) (point : Point m) (d : Data n m) : Prop :=
  match a with | .inl p => RwInside p d point | .inr _ => IntrInside d point

/-- What holds of a thread that goes on at a place when it has got the lock. -/
def Waiting (a : Thread n (Fin k)) (point : Point m) (d : Data n m) : Prop :=
  match a, point with
  | .inl p, .alloc w [] => Unsent p w d
  | .inl p, .waitLoop w idx => Sent p w idx d
  | .inr _, .intrLoop => True
  | _, _ => False

def notes (n k m : Nat) : Notes n (Fin k) (Data n m) (Point m) where
  always d := ∃ hold busy, Inv hold busy d
  rest d := Inv [] none d
  idle a d := match a with | .inl p => Idle p d | .inr _ => True
  inside := Inside
  waiting := Waiting

/-! ### What a step keeps -/

/-- The buffer with which a process at a place is in a call. -/
def Point.call? : Point m → Option (Call m)
  | .alloc w _ | .undo w _ | .undoWakeup w _ | .formatHead w _ | .formatMid w _ | .formatTail w _ | .record w _ | .offer w _
  | .advance w _ | .notify w _ | .waitLoop w _ | .chain w _ | .chainWakeup w _ | .finish w => some w
  | _ => none

/-- The buffers that a step at the place may touch. -/
def Point.Mine (point : Point m) (b : Fin m) : Prop := ∃ w, point.call? = some w ∧ b = w.b

theorem Frame.refl {mine : Fin m → Prop} : Frame mine d d := ⟨fun _ => Or.inl rfl, fun _ _ => rfl, fun _ _ _ => rfl⟩

theorem Frame.setDisk {mine : Fin m → Prop} {disk : Disk m} : Frame mine d (d.setDisk disk) :=
  ⟨fun _ => Or.inl rfl, fun _ _ => rfl, fun _ _ _ => rfl⟩

theorem Calling.setDisk {disk : Disk m} (h : Calling p w x ts d) : Calling p w x ts (d.setDisk disk) :=
  ⟨h.calls, h.chain, h.transfers⟩

theorem Calling.setBdisk {y : Int} (h : Calling p w x ts d) : Calling p w x ts (d.setBdisk b y) :=
  ⟨h.calls, h.chain, h.transfers⟩

/-- The descriptors in hand are written. -/
theorem Quiet.setDisk {hold : List Nat} {disk : Disk m} (havail : disk.avail = d.disk.avail) (hused : disk.used = d.disk.used)
    (husedIdx : disk.usedIdx = d.disk.usedIdx) (hdesc : ∀ i, i ∉ hold → disk.desc i = d.disk.desc i)
    (hops : ∀ i, i ∉ hold → disk.ops i = d.disk.ops i) (hinfo : ∀ i, i ∉ hold → disk.info i = d.disk.info i) :
    Quiet hold d (d.setDisk disk) :=
  ⟨havail, hused, husedIdx, rfl, rfl, rfl, rfl, fun _ _ _ => rfl, hdesc, hops, hinfo⟩

theorem update_of_notMem {α : Type} {f : Nat → α} {y : α} (h : i ∉ l) {j : Nat} (hj : j ∈ l) :
    Function.update f j y i = f i := by
  refine Function.update_of_ne ?_ ..
  rintro rfl
  exact h hj

/-- What a process at a place leaves, when it changes the data. -/
structure Kept (p : Fin n) (point : Point m) (d : Data n m) (d' : Data n m) (point' : Point m) : Prop where
  always : ∃ hold busy, Inv hold busy d'
  inside : RwInside p d' point'
  frame : Frame point.Mine d d'

theorem kept_alloc {idx : List Nat} (hin : RwInside p d (.alloc w idx)) (hop : rwOp p d (.alloc w idx) = .set d' point') :
    Kept p (.alloc w idx) d d' point' := by
  obtain ⟨hinv, hunsent, hlen⟩ := hin
  rw [rwOp] at hop
  split at hop
  · next hnone =>
    cases hop
    refine ⟨⟨_, _, hinv⟩, ⟨hinv, hunsent, ?_⟩, .refl⟩
    rw [allocDesc_none hnone, Nat.zero_add]
    exact hlen
  · next disk i hsome =>
    obtain ⟨hlt, hfree, rfl⟩ := allocDesc_some hsome
    have hquiet : Quiet idx d (d.setDisk (d.disk.setFree i false)) :=
      .setDisk rfl rfl rfl (fun _ _ => rfl) (fun _ _ => rfl) fun _ _ => rfl
    have hinv' := hinv.quiet hquiet (hinv.parts.alloc hlt hfree)
    split at hop <;> cases hop
    · exact ⟨⟨_, _, hinv'⟩, ⟨hinv', hunsent.setDisk⟩, .setDisk⟩
    · next hne =>
      refine ⟨⟨_, _, hinv'⟩, ⟨hinv', hunsent.setDisk, ?_⟩, .setDisk⟩
      rcases idx with _ | ⟨i₀, _ | ⟨i₁, _ | ⟨i₂, idx⟩⟩⟩
      · exact Nat.le_of_ble_eq_true rfl
      · exact Nat.le_refl 2
      · exact absurd rfl (hne i₀ i₁)
      · exact absurd hlen (by simp)

/-- The first descriptor in hand is freed. -/
theorem Inv.freeDesc (h : Inv (i :: l) none d) (point : Point m) :
    d.freeDesc i point = .set (d.setDisk ((d.disk.setDesc i ⟨.null, 0, 0, 0⟩).setFree i true)) point ∧
      Inv l none (d.setDisk ((d.disk.setDesc i ⟨.null, 0, 0, 0⟩).setFree i true)) := by
  obtain ⟨hlt, hfree⟩ := h.parts.hold_taken i List.mem_cons_self
  constructor
  · rw [Data.freeDesc, freeDesc_ok hlt hfree]
  · refine h.quiet (.setDisk rfl rfl rfl (fun j hj => ?_) (fun _ _ => rfl) fun _ _ => rfl) h.parts.free
    exact update_of_notMem hj List.mem_cons_self

theorem kept_undo {idx : List Nat} (hin : RwInside p d (.undo w idx)) (hop : rwOp p d (.undo w idx) = .set d' point') :
    Kept p (.undo w idx) d d' point' := by
  obtain ⟨hinv, hunsent, hcount⟩ := hin
  cases idx with
  | nil => cases hop
  | cons i idx =>
    obtain ⟨heq, hinv'⟩ := hinv.freeDesc (.undoWakeup w idx)
    rw [rwOp, heq] at hop
    cases hop
    obtain ⟨hlt, hfree⟩ := hinv.parts.hold_taken i List.mem_cons_self
    refine ⟨⟨_, _, hinv'⟩, ⟨hinv', hunsent.setDisk, ?_⟩, .setDisk⟩
    have hadd : (d.setDisk ((d.disk.setDesc i ⟨.null, 0, 0, 0⟩).setFree i true)).disk.freeCount = d.disk.freeCount + 1 :=
      freeCount_setFree hlt hfree rfl
    rw [hadd]
    rw [List.length_cons] at hcount
    omega

theorem kept_chain (hin : RwInside p d (.chain w i)) (hop : rwOp p d (.chain w i) = .set d' point') :
    Kept p (.chain w i) d d' point' := by
  obtain ⟨l, hinv, hserved, hlinks⟩ := hin
  obtain ⟨heq, hinv'⟩ := hinv.freeDesc (.chainWakeup w l.head?)
  rw [rwOp, hlinks.next, heq] at hop
  cases hop
  refine ⟨⟨_, _, hinv'⟩, ⟨l, hinv', hserved.setDisk, hlinks.tail.congr fun j hj => ?_, rfl⟩, .setDisk⟩
  refine Function.update_of_ne ?_ ..
  rintro rfl
  exact (List.nodup_cons.mp hinv.parts.hold_nodup).1 hj

theorem Idx.mid_mem : idx.mid ∈ idx.list := by simp [list]

theorem Idx.tail_mem : idx.tail ∈ idx.list := by simp [list]

/-- The descriptors of a chain in hand are three. -/
theorem Inv.idx_ne (h : Inv idx.list none d) : idx.head ≠ idx.mid ∧ idx.head ≠ idx.tail ∧ idx.mid ≠ idx.tail := by
  have hnodup := h.parts.hold_nodup
  simp only [Idx.list, List.nodup_cons, List.mem_cons, List.not_mem_nil, or_false, not_or] at hnodup
  exact ⟨hnodup.1.1, hnodup.1.2, hnodup.2.1⟩

theorem kept_formatHead (hin : RwInside p d (.formatHead w idx))
    (hop : rwOp p d (.formatHead w idx) = .set d' point') : Kept p (.formatHead w idx) d d' point' := by
  obtain ⟨hinv, hunsent⟩ := hin
  have hinv' : Inv idx.list none d' := by
    cases hop
    exact hinv.quiet (.setDisk rfl rfl rfl (fun _ hi => update_of_notMem hi Idx.head_mem)
      (fun _ hi => update_of_notMem hi Idx.head_mem) fun _ _ => rfl) hinv.parts
  cases hop
  exact ⟨⟨_, _, hinv'⟩, ⟨hinv', hunsent.setDisk, Function.update_self .., Function.update_self ..⟩, .setDisk⟩

theorem kept_formatMid (hin : RwInside p d (.formatMid w idx)) (hop : rwOp p d (.formatMid w idx) = .set d' point') :
    Kept p (.formatMid w idx) d d' point' := by
  obtain ⟨hinv, hunsent, hops, hhead⟩ := hin
  have hinv' : Inv idx.list none d' := by
    cases hop
    exact hinv.quiet (.setDisk rfl rfl rfl (fun _ hi => update_of_notMem hi Idx.mid_mem) (fun _ _ => rfl)
      fun _ _ => rfl) hinv.parts
  cases hop
  refine ⟨⟨_, _, hinv'⟩, ⟨hinv', hunsent.setDisk, hops, ?_, Function.update_self ..⟩, .setDisk⟩
  exact (Function.update_of_ne hinv.idx_ne.1 ..).trans hhead

theorem kept_formatTail (hin : RwInside p d (.formatTail w idx)) (hop : rwOp p d (.formatTail w idx) = .set d' point') :
    Kept p (.formatTail w idx) d d' point' := by
  obtain ⟨hinv, hunsent, hops, hhead, hmid⟩ := hin
  have hinv' : Inv idx.list none d' := by
    cases hop
    exact hinv.quiet (.setDisk rfl rfl rfl (fun _ hi => update_of_notMem hi Idx.tail_mem) (fun _ _ => rfl)
      fun _ hi => update_of_notMem hi Idx.head_mem) hinv.parts
  cases hop
  refine ⟨⟨_, _, hinv'⟩, ⟨hinv', hunsent.setDisk, hops, ?_, ?_, Function.update_self ..⟩, .setDisk⟩
  · exact (Function.update_of_ne hinv.idx_ne.2.1 ..).trans hhead
  · exact (Function.update_of_ne hinv.idx_ne.2.2 ..).trans hmid

theorem kept_record (hin : RwInside p d (.record w idx)) (hop : rwOp p d (.record w idx) = .set d' point') :
    Kept p (.record w idx) d d' point' := by
  obtain ⟨hinv, hunsent, hbuilt⟩ := hin
  cases hop
  have hquiet : Quiet idx.list d ((d.setBdisk w.b 1).setDisk
      (d.disk.setInfo idx.head { d.disk.info idx.head with b := some w.b })) := by
    refine ⟨rfl, rfl, rfl, rfl, rfl, rfl, rfl, fun b c hc => ?_, fun _ _ => rfl, fun _ _ => rfl,
      fun _ hi => update_of_notMem hi Idx.head_mem⟩
    refine Function.update_of_ne ?_ ..
    rintro rfl
    rw [hunsent.chain] at hc
    cases hc
  have hinv' := hinv.quiet hquiet hinv.parts
  refine ⟨⟨_, _, hinv'⟩, ⟨hinv', hunsent.setBdisk.setDisk, hbuilt.congr (fun _ _ => rfl) rfl, ?_, Function.update_self ..⟩,
    fun _ => Or.inl rfl, fun _ _ => rfl, fun _ _ _ => rfl⟩
  show (Function.update d.disk.info idx.head { d.disk.info idx.head with b := some w.b } idx.head).b = some w.b
  rw [Function.update_self]

theorem kept_offer (hin : RwInside p d (.offer w idx)) (hop : rwOp p d (.offer w idx) = .set d' point') :
    Kept p (.offer w idx) d d' point' := by
  obtain ⟨hinv, hunsent, hbuilt, hinfo, hbdisk⟩ := hin
  cases hop
  have hinv' := hinv.setRing Idx.head_mem
  refine ⟨⟨_, _, hinv'⟩, ⟨hinv', hunsent.setDisk, hbuilt.congr (fun _ _ => rfl) rfl, hinfo, hbdisk, ?_⟩, .setDisk⟩
  show (Function.update d.disk.avail.ring (d.disk.avail.idx.toNat % NUM) (.ofNat idx.head)
    (d.disk.avail.idx.toNat % NUM)).toNat = idx.head
  rw [Function.update_self]
  exact toNat_ofNat_idx (hinv.parts.hold_taken _ Idx.head_mem).1

theorem kept_advance (hin : RwInside p d (.advance w idx)) (hop : rwOp p d (.advance w idx) = .set d' point') :
    Kept p (.advance w idx) d d' point' := by
  obtain ⟨hinv, hunsent, hbuilt, hinfo, hbdisk, hring⟩ := hin
  cases hop
  have hinv' := hinv.advance hbuilt ((hunsent.calls w.b).mpr rfl) hinfo hbdisk hunsent.chain (hunsent.transfers rfl) hring
  refine ⟨⟨_, _, hinv'⟩, ⟨hinv', hunsent.calls, Function.update_self .., nofun⟩, fun _ => Or.inl rfl, fun b hb => ?_,
    fun _ _ _ => rfl⟩
  exact Function.update_of_ne (fun heq => hb ⟨w, rfl, heq⟩) ..

theorem kept_waitLoop (hin : RwInside p d (.waitLoop w idx)) (hop : rwOp p d (.waitLoop w idx) = .set d' point') :
    Kept p (.waitLoop w idx) d d' point' := by
  obtain ⟨hinv, hsent⟩ := hin
  rw [rwOp] at hop
  split at hop
  · cases hop
  · next hbdisk =>
    cases hop
    obtain ⟨hinv', htransfers⟩ := hinv.takeBack hsent.chain hbdisk
    have hbuilt : Built d.disk w idx := (hinv.chain w.b _ hsent.chain).built
    have hlinks := hbuilt.links fun i hi => (hinv.parts.chain_taken w.b _ hsent.chain i hi).1
    refine ⟨⟨_, _, hinv'⟩, ⟨_, hinv', ⟨hsent.calls, Function.update_self .., fun _ => htransfers⟩, hlinks.congr fun _ _ => rfl⟩,
      fun _ => Or.inl rfl, fun b hb => ?_, fun _ _ _ => rfl⟩
    exact Function.update_of_ne (fun heq => hb ⟨w, rfl, heq⟩) ..

theorem kept_finish (hin : RwInside p d (.finish w)) (hop : rwOp p d (.finish w) = .set d' point') :
    Kept p (.finish w) d d' point' := by
  obtain ⟨hinv, hserved⟩ := hin
  cases hop
  have hinv' := hinv.setCall (x := none) hserved.chain
  refine ⟨⟨_, _, hinv'⟩, ⟨hinv', fun b hb => ?_, hserved.chain, hserved.transfers rfl⟩, fun b => ?_, fun _ _ => rfl,
    fun _ _ _ => rfl⟩ <;> by_cases hbb : b = w.b
  · have hb' : Function.update d.calls w.b none b = some p := hb
    rw [hbb, Function.update_self] at hb'
    cases hb'
  · have hb' : Function.update d.calls w.b none b = some p := hb
    rw [Function.update_of_ne hbb, hserved.calls b] at hb'
    exact hbb hb'
  · exact Or.inr ⟨⟨w, rfl, hbb⟩, hbb ▸ Function.update_self ..⟩
  · exact Or.inl (Function.update_of_ne hbb ..)

theorem kept_set (hin : RwInside p d point) (hop : rwOp p d point = .set d' point') : Kept p point d d' point' := by
  cases point with
  | alloc w idx => exact kept_alloc hin hop
  | undo w idx => exact kept_undo hin hop
  | formatHead w idx => exact kept_formatHead hin hop
  | formatMid w idx => exact kept_formatMid hin hop
  | formatTail w idx => exact kept_formatTail hin hop
  | record w idx => exact kept_record hin hop
  | offer w idx => exact kept_offer hin hop
  | advance w idx => exact kept_advance hin hop
  | notify w idx =>
    cases hop
    exact ⟨⟨_, _, hin.1⟩, hin, .refl⟩
  | waitLoop w idx => exact kept_waitLoop hin hop
  | chain w i => exact kept_chain hin hop
  | finish w => exact kept_finish hin hop
  | undoWakeup | chainWakeup | «return» => cases hop
  | intrLoop | intrTake | intrWakeup | intrNext | panic => cases hin

/-- What a handler at a place leaves. -/
structure IntrKept (d d' : Data n m) (point' : Point m) : Prop where
  always : ∃ hold busy, Inv hold busy d'
  inside : IntrInside d' point'
  calls : d'.calls = d.calls
  chains : d'.chains = d.chains
  transfers : d'.transfers = d.transfers

theorem kept_intr (hin : IntrInside d point) (hop : intrOp d point = .set d' point') : IntrKept d d' point' := by
  cases point <;> rw [intrOp] at hop <;> try cases hop
  case intrLoop =>
    split at hop
    · next hne =>
      cases hop
      have hinv : Inv [] none d := hin
      have hpub := hinv.flight.published
      have hne' : d.disk.usedIdx ≠ d.device.filled := fun heq => by
        rw [← heq, Ring.distance_pred hne] at hpub
        simp at hpub
      exact ⟨⟨_, _, hinv⟩, ⟨hinv, ⟨_, Ring.entries_pop dvd_ring hne'⟩, hne⟩, rfl, rfl, rfl⟩
    · cases hop
  case intrTake id =>
    obtain ⟨hinv, hfirst⟩ := hin
    obtain ⟨b, hb, hstatus, hinv'⟩ := hinv.mark hfirst
    rw [if_neg (by simp [hstatus]), hb] at hop
    cases hop
    exact ⟨⟨_, _, hinv'⟩, ⟨_, hinv'⟩, rfl, rfl, rfl⟩
  case intrNext =>
    obtain ⟨i, hinv⟩ := hin
    exact ⟨⟨_, _, hinv.pass⟩, hinv.pass, rfl, rfl, rfl⟩

/-! ### What the others keep -/

theorem Calling.aside (h : Calling p w x ts d) (ha : Aside d d') : Calling p w x ts d' := by
  refine ⟨fun b => ?_, ?_, fun hx => ?_⟩
  · rw [ha.calls]
    exact h.calls b
  · rw [ha.chains]
    exact h.chain
  · rw [ha.transfers w.b (h.chain.trans hx)]
    exact h.transfers hx

theorem Built.aside (h : Built d.disk w idx) (ha : Aside d d') : Built d'.disk w idx :=
  h.congr (fun _ _ => by rw [ha.desc]) (by rw [ha.ops])

theorem Links.aside (h : Links d.disk l) (ha : Aside d d') : Links d'.disk l := h.congr fun _ _ => by rw [ha.desc]

theorem freeCount_aside (ha : Aside d d') : d'.disk.freeCount = d.disk.freeCount := by
  unfold Disk.freeCount
  rw [ha.free]

/-- The device does not disturb a process at its place. -/
theorem rwInside_device {e : DeviceStep} (hin : RwInside p d point) (hstep : deviceStep d e = some d') :
    RwInside p d' point := by
  cases point with
  | alloc w idx =>
    obtain ⟨hinv, hunsent, hlen⟩ := hin
    obtain ⟨hinv', ha⟩ := hinv.deviceStep hstep
    exact ⟨hinv', hunsent.aside ha, hlen⟩
  | undo w idx | undoWakeup w idx =>
    obtain ⟨hinv, hunsent, hcount⟩ := hin
    obtain ⟨hinv', ha⟩ := hinv.deviceStep hstep
    exact ⟨hinv', hunsent.aside ha, (freeCount_aside ha).symm ▸ hcount⟩
  | formatHead w idx =>
    obtain ⟨hinv, hunsent⟩ := hin
    obtain ⟨hinv', ha⟩ := hinv.deviceStep hstep
    exact ⟨hinv', hunsent.aside ha⟩
  | formatMid w idx =>
    obtain ⟨hinv, hunsent, hops, hhead⟩ := hin
    obtain ⟨hinv', ha⟩ := hinv.deviceStep hstep
    exact ⟨hinv', hunsent.aside ha, ha.ops ▸ hops, ha.desc ▸ hhead⟩
  | formatTail w idx =>
    obtain ⟨hinv, hunsent, hops, hhead, hmid⟩ := hin
    obtain ⟨hinv', ha⟩ := hinv.deviceStep hstep
    exact ⟨hinv', hunsent.aside ha, ha.ops ▸ hops, ha.desc ▸ hhead, ha.desc ▸ hmid⟩
  | record w idx =>
    obtain ⟨hinv, hunsent, hbuilt⟩ := hin
    obtain ⟨hinv', ha⟩ := hinv.deviceStep hstep
    exact ⟨hinv', hunsent.aside ha, hbuilt.aside ha⟩
  | offer w idx =>
    obtain ⟨hinv, hunsent, hbuilt, hinfo, hbdisk⟩ := hin
    obtain ⟨hinv', ha⟩ := hinv.deviceStep hstep
    exact ⟨hinv', hunsent.aside ha, hbuilt.aside ha, (ha.info _).trans hinfo, ha.bdisk ▸ hbdisk⟩
  | advance w idx =>
    obtain ⟨hinv, hunsent, hbuilt, hinfo, hbdisk, hring⟩ := hin
    obtain ⟨hinv', ha⟩ := hinv.deviceStep hstep
    exact ⟨hinv', hunsent.aside ha, hbuilt.aside ha, (ha.info _).trans hinfo, ha.bdisk ▸ hbdisk, ha.avail ▸ hring⟩
  | notify w idx | waitLoop w idx =>
    obtain ⟨hinv, hsent⟩ := hin
    obtain ⟨hinv', ha⟩ := hinv.deviceStep hstep
    exact ⟨hinv', hsent.aside ha⟩
  | chain w i =>
    obtain ⟨l, hinv, hserved, hlinks⟩ := hin
    obtain ⟨hinv', ha⟩ := hinv.deviceStep hstep
    exact ⟨l, hinv', hserved.aside ha, hlinks.aside ha⟩
  | chainWakeup w next =>
    obtain ⟨l, hinv, hserved, hlinks, hnext⟩ := hin
    obtain ⟨hinv', ha⟩ := hinv.deviceStep hstep
    exact ⟨l, hinv', hserved.aside ha, hlinks.aside ha, hnext⟩
  | finish w =>
    obtain ⟨hinv, hserved⟩ := hin
    obtain ⟨hinv', ha⟩ := hinv.deviceStep hstep
    exact ⟨hinv', hserved.aside ha⟩
  | «return» w =>
    obtain ⟨hinv, hidle, hnone, htransfers⟩ := hin
    obtain ⟨hinv', ha⟩ := hinv.deviceStep hstep
    refine ⟨hinv', fun b => ?_, ha.chains ▸ hnone, (ha.transfers w.b hnone).trans htransfers⟩
    rw [ha.calls]
    exact hidle b
  | intrLoop | intrTake | intrWakeup | intrNext | panic => cases hin

theorem intrInside_device {e : DeviceStep} (hin : IntrInside d point) (hstep : deviceStep d e = some d') :
    IntrInside d' point := by
  cases point with
  | intrLoop =>
    have hinv : Inv [] none d := hin
    exact (hinv.deviceStep hstep).1
  | intrTake id =>
    obtain ⟨hinv, hfirst⟩ := hin
    obtain ⟨hinv', ha⟩ := hinv.deviceStep hstep
    exact ⟨hinv', ha.first id hfirst⟩
  | intrWakeup b | intrNext =>
    obtain ⟨i, hinv⟩ := hin
    exact ⟨i, (hinv.deviceStep hstep).1⟩
  | _ => cases hin

theorem waiting_congr {a : Thread n (Fin k)} (h : Waiting a point d)
    (hcalling : ∀ p w x ts, a = .inl p → Calling p w x ts d → Calling p w x ts d') : Waiting a point d' := by
  obtain p | a := a
  · cases point with
    | alloc w idx =>
      cases idx with
      | nil => exact hcalling p w _ _ rfl h
      | cons i idx => cases h
    | waitLoop w idx => exact hcalling p w _ _ rfl h
    | _ => cases h
  · cases point <;> exact h

/-- A process that enters a call leaves the calls of the others. -/
theorem Calling.setCall (h : Calling q w x ts d) (hnone : d.calls b = none) (hne : q ≠ p) :
    Calling q w x ts (d.setCall b (some p)) := by
  refine ⟨fun b' => ?_, h.chain, h.transfers⟩
  show Function.update d.calls b (some p) b' = some q ↔ _
  by_cases hbb : b' = b
  · subst hbb
    rw [Function.update_self, ← h.calls b', hnone]
    exact ⟨fun heq => absurd (Option.some.inj heq).symm hne, nofun⟩
  · rw [Function.update_of_ne hbb]
    exact h.calls b'

theorem Inv.chain_none {hold : List Nat} {busy : Option Nat} (h : Inv hold busy d) (hnone : d.calls b = none) :
    d.chains b = none := by
  cases hc : d.chains b with
  | none => rfl
  | some c =>
    have hcaller := (h.chain b c hc).caller
    rw [hnone] at hcaller
    cases hcaller

theorem rwInside_setCall (hin : RwInside q d point) (hnone : d.calls b = none) (hne : q ≠ p) :
    RwInside q (d.setCall b (some p)) point := by
  have hinv' : ∀ {hold busy}, Inv hold busy d → Inv hold busy (d.setCall b (some p)) :=
    fun hinv => hinv.setCall (hinv.chain_none hnone)
  have hcalling : ∀ {w x ts}, Calling q w x ts d → Calling q w x ts (d.setCall b (some p)) := fun h => h.setCall hnone hne
  cases point with
  | alloc | undo | undoWakeup => exact ⟨hinv' hin.1, hcalling hin.2.1, hin.2.2⟩
  | formatHead | notify | waitLoop | finish => exact ⟨hinv' hin.1, hcalling hin.2⟩
  | formatMid | formatTail | record | offer | advance => exact ⟨hinv' hin.1, hcalling hin.2.1, hin.2.2⟩
  | chain | chainWakeup =>
    obtain ⟨l, hinv, hserved, hrest⟩ := hin
    exact ⟨l, hinv' hinv, hcalling hserved, hrest⟩
  | «return» w =>
    obtain ⟨hinv, hidle, hrest⟩ := hin
    refine ⟨hinv' hinv, fun b' hb' => ?_, hrest⟩
    have hb'' : Function.update d.calls b (some p) b' = some q := hb'
    by_cases hbb : b' = b
    · rw [hbb, Function.update_self] at hb''
      exact hne (Option.some.inj hb'').symm
    · rw [Function.update_of_ne hbb] at hb''
      exact hidle b' hb''
  | intrLoop | intrTake | intrWakeup | intrNext | panic => cases hin

theorem intrInside_setCall {y : Option (Fin n)} (hin : IntrInside d point) (hnone : d.calls b = none) :
    IntrInside (d.setCall b y) point := by
  have hinv' : ∀ {hold busy}, Inv hold busy d → Inv hold busy (d.setCall b y) :=
    fun hinv => hinv.setCall (hinv.chain_none hnone)
  cases point with
  | intrLoop => exact hinv' hin
  | intrTake id => exact ⟨hinv' hin.1, hin.2⟩
  | intrWakeup b | intrNext =>
    obtain ⟨i, hinv⟩ := hin
    exact ⟨i, hinv' hinv⟩
  | _ => cases hin

/-! ### The code -/

/-- The calls of a process at a place are its own. -/
theorem mine_calls (hin : RwInside p d point) (hb : point.Mine b) : d.calls b = some p := by
  obtain ⟨w, hw, rfl⟩ := hb
  have hcalling : ∃ x ts, Calling p w x ts d := by
    cases point with
    | chain | chainWakeup =>
      cases hw
      obtain ⟨l, -, hserved, -⟩ := hin
      exact ⟨_, _, hserved⟩
    | formatHead | notify | waitLoop | finish =>
      cases hw
      exact ⟨_, _, hin.2⟩
    | alloc | undo | undoWakeup | formatMid | formatTail | record | offer | advance =>
      cases hw
      exact ⟨_, _, hin.2.1⟩
    | _ => cases hw
  obtain ⟨x, ts, h⟩ := hcalling
  exact (h.calls w.b).mpr rfl

/-- What a process does at a place, other than a change of the data. -/
inductive RwCase (d : Data n m) : Point m → Op (Chan m) (Data n m) (Point m) (Result m) → Prop
  | set (point : Point m) (d' : Data n m) (point' : Point m) : RwCase d point (.set d' point')
  | undoWakeup (w : Call m) (idx : List Nat) : RwCase d (.undoWakeup w idx) (.wakeup .free (.undo w idx))
  | allocSleep (w : Call m) : RwCase d (.undo w []) (.sleep .free (.alloc w []))
  | waitSleep (w : Call m) (idx : Idx) (bdisk : d.bdisk w.b = 1) :
    RwCase d (.waitLoop w idx) (.sleep (.buf w.b) (.waitLoop w idx))
  | chainWakeup (w : Call m) (next : Option Nat) :
    RwCase d (.chainWakeup w next) (.wakeup .free (match next with | some i => .chain w i | none => .finish w))
  | return (w : Call m) : RwCase d (.return w) (.release (.rw w))
  | stop (point : Point m) : RwCase d point .stop

theorem freeDesc_case (point : Point m) (i : Nat) (next : Point m) : RwCase d point (d.freeDesc i next) := by
  unfold Data.freeDesc
  split <;> exact .set ..

theorem rwOp_case (p : Fin n) (d : Data n m) (point : Point m) : RwCase d point (rwOp p d point) := by
  cases point with
  | alloc w idx =>
    rw [rwOp]
    split <;> exact .set ..
  | undo w idx =>
    cases idx with
    | nil => exact .allocSleep w
    | cons i idx => exact freeDesc_case ..
  | undoWakeup w idx => exact .undoWakeup w idx
  | waitLoop w idx =>
    rw [rwOp]
    split
    · next hbdisk => exact .waitSleep w idx hbdisk
    · exact .set ..
  | chain w i => exact freeDesc_case ..
  | chainWakeup w next => exact .chainWakeup w next
  | «return» w => exact .return w
  | formatHead | formatMid | formatTail | record | offer | advance | notify | finish => exact .set ..
  | intrLoop | intrTake | intrWakeup | intrNext | panic => exact .stop _

/-- What a handler does at a place, other than a change of the data. -/
inductive IntrCase (d : Data n m) : Point m → Op (Chan m) (Data n m) (Point m) (Result m) → Prop
  | set (point : Point m) (d' : Data n m) (point' : Point m) : IntrCase d point (.set d' point')
  | wakeup (b : Fin m) : IntrCase d (.intrWakeup b) (.wakeup (.buf b) .intrNext)
  | done (all : d.disk.usedIdx = d.disk.used.idx) : IntrCase d .intrLoop (.release .intr)
  | stop (point : Point m) : IntrCase d point .stop

theorem intrOp_case (d : Data n m) (point : Point m) : IntrCase d point (intrOp d point) := by
  cases point with
  | intrLoop =>
    rw [intrOp]
    split
    · exact .set ..
    · next hall => exact .done (not_not.mp hall)
  | intrTake id =>
    rw [intrOp]
    split
    · exact .set ..
    · split <;> exact .set ..
  | intrWakeup b => exact .wakeup b
  | intrNext => exact .set ..
  | _ => exact .stop _

theorem waiting_frame {a a' : Thread n (Fin k)} {mine : Fin m → Prop} (h : Waiting a' point d) (hne : a' ≠ a)
    (hf : Frame mine d d') (hmine : ∀ b, mine b → ∃ p, a = .inl p ∧ d.calls b = some p) : Waiting a' point d' := by
  refine waiting_congr h fun q w x ts hq hcalling => hcalling.frame hf fun b hb hcall => ?_
  obtain ⟨p, rfl, hp⟩ := hmine b hb
  obtain rfl : p = q := Option.some.inj (hp.symm.trans hcall)
  exact hne hq

theorem idle_frame {a' : Thread n (Fin k)} {mine : Fin m → Prop} (h : (notes n k m).idle a' d) (hf : Frame mine d d') :
    (notes n k m).idle a' d' := by
  obtain q | a' := a'
  · exact Idle.frame h hf
  · trivial

theorem outline_set {a : Thread n (Fin k)} (hin : Inside a point d) (hop : (code n k m).op a point d = .set d' point') :
    (∃ hold busy, Inv hold busy d') ∧ Inside a point' d' ∧ ∀ a', a' ≠ a →
      ((notes n k m).idle a' d → (notes n k m).idle a' d') ∧ ∀ point, Waiting a' point d → Waiting a' point d' := by
  obtain p | a := a
  · have hkept := kept_set hin hop
    refine ⟨hkept.always, hkept.inside, fun a' hne => ⟨fun h => idle_frame h hkept.frame, fun _ h => ?_⟩⟩
    exact waiting_frame h hne hkept.frame fun b hb => ⟨p, rfl, mine_calls hin hb⟩
  · have hkept := kept_intr hin hop
    have hframe : Frame (fun _ => False) d d' :=
      ⟨fun b => Or.inl (congrFun hkept.calls b), fun b _ => congrFun hkept.chains b, fun b _ _ => congrFun hkept.transfers b⟩
    refine ⟨hkept.always, hkept.inside, fun a' hne => ⟨fun h => idle_frame h hframe, fun _ h => ?_⟩⟩
    exact waiting_frame h hne hframe fun _ hb => hb.elim

theorem outline_enter {a : Thread n (Fin k)} {r : Request m} {o : Option (Point m)}
    (hidle : (notes n k m).idle a d) (hinv : ∃ hold busy, Inv hold busy d) (h : (code n k m).enter a r d = some (d', o)) :
    (∃ hold busy, Inv hold busy d') ∧ (Inv [] none d → Inv [] none d') ∧ (notes n k m).entered a d' o ∧
      ∀ a', a' ≠ a → (notes n k m).Keeps a' d d' := by
  obtain ⟨hold, busy, hinv⟩ := hinv
  cases r with
  | rw b write blockno =>
    obtain p | a := a
    · obtain ⟨hnone, heq⟩ := Option.ite_none_right_eq_some.mp h
      cases heq
      have hchain := hinv.chain_none hnone
      refine ⟨⟨_, _, hinv.setCall hchain⟩, fun h' => h'.setCall hchain, ⟨fun b' => ?_, hchain, fun _ => rfl⟩, fun a' hne => ?_⟩
      · show Function.update d.calls b (some p) b' = some p ↔ b' = b
        by_cases hbb : b' = b
        · rw [hbb, Function.update_self]
          exact ⟨fun _ => rfl, fun _ => rfl⟩
        · rw [Function.update_of_ne hbb]
          exact ⟨fun hp => absurd hp (hidle b'), fun heq => absurd heq hbb⟩
      · obtain q | a' := a'
        · have hqp : q ≠ p := fun heq => hne (congrArg Sum.inl heq)
          refine ⟨fun hq b' hb' => ?_, fun _ hin => rwInside_setCall hin hnone hqp, fun _ hw => ?_⟩
          · have hb'' : Function.update d.calls b (some p) b' = some q := hb'
            by_cases hbb : b' = b
            · rw [hbb, Function.update_self] at hb''
              exact hqp (Option.some.inj hb'').symm
            · rw [Function.update_of_ne hbb] at hb''
              exact hq b' hb''
          · refine waiting_congr hw fun q' w x ts hq' hcalling => ?_
            cases hq'
            exact hcalling.setCall hnone hqp
        · exact ⟨fun _ => trivial, fun _ hin => intrInside_setCall hin hnone, fun _ hw => waiting_congr hw nofun⟩
    · cases h
  | intr =>
    obtain p | a := a
    · cases h
    · cases h
      exact ⟨⟨_, _, hinv⟩, id, trivial, fun _ _ => ⟨id, fun _ => id, fun _ => id⟩⟩

theorem outline_env {e : DeviceStep} (hinv : ∃ hold busy, Inv hold busy d) (h : deviceStep d e = some d') :
    (∃ hold busy, Inv hold busy d') ∧ (Inv [] none d → Inv [] none d') ∧ ∀ a, (notes n k m).Keeps a d d' := by
  obtain ⟨hold, busy, hinv⟩ := hinv
  obtain ⟨hinv', ha⟩ := hinv.deviceStep h
  refine ⟨⟨_, _, hinv'⟩, fun h' => (h'.deviceStep h).1, fun a => ⟨fun hidle => ?_, fun _ hin => ?_, fun _ hw => ?_⟩⟩
  · obtain p | a := a
    · intro b
      rw [ha.calls]
      exact hidle b
    · trivial
  · obtain p | a := a
    · exact rwInside_device hin h
    · exact intrInside_device hin h
  · exact waiting_congr hw fun _ _ _ _ _ hcalling => hcalling.aside ha

theorem inside_of_waiting {a : Thread n (Fin k)} (hrest : Inv [] none d) (h : Waiting a point d) : Inside a point d := by
  obtain p | a := a
  · cases point with
    | alloc w idx =>
      cases idx with
      | nil => exact ⟨hrest, h, Nat.zero_le _⟩
      | cons i idx => cases h
    | waitLoop w idx => exact ⟨hrest, h⟩
    | _ => cases h
  · cases point <;> first | exact hrest | cases h

theorem outline (n k m : Nat) : Outline (code n k m) (fun _ => True) (notes n k m) where
  acquire _ hrest h := inside_of_waiting hrest h
  set _ hin hop := outline_set hin hop
  wakeup {a point d c point'} _ hin hop := by
    obtain p | a := a
    · have hcase := rwOp_case p d point
      rw [show rwOp p d point = _ from hop] at hcase
      cases hcase with
      | undoWakeup w idx => exact hin
      | chainWakeup w next =>
        obtain ⟨l, hinv, hserved, hlinks, rfl⟩ := hin
        cases l with
        | nil => exact ⟨hinv, hserved⟩
        | cons i l => exact ⟨l, hinv, hserved, hlinks⟩
    · have hcase := intrOp_case d point
      rw [show intrOp d point = _ from hop] at hcase
      cases hcase
      exact hin
  sleep {a point d c point'} _ hin hop := by
    obtain p | a := a
    · have hcase := rwOp_case p d point
      rw [show rwOp p d point = _ from hop] at hcase
      cases hcase with
      | allocSleep w => exact ⟨hin.1, hin.2.1⟩
      | waitSleep w idx bdisk => exact hin
    · have hcase := intrOp_case d point
      rw [show intrOp d point = _ from hop] at hcase
      cases hcase
  killed {a point d yes no} _ hin hop := by
    obtain p | a := a
    · have hcase := rwOp_case p d point
      rw [show rwOp p d point = _ from hop] at hcase
      cases hcase
    · have hcase := intrOp_case d point
      rw [show intrOp d point = _ from hop] at hcase
      cases hcase
  release {a point d r} _ hin hop := by
    obtain p | a := a
    · have hcase := rwOp_case p d point
      rw [show rwOp p d point = _ from hop] at hcase
      cases hcase
      exact ⟨hin.1, hin.2.1⟩
    · have hcase := intrOp_case d point
      rw [show intrOp d point = _ from hop] at hcase
      cases hcase
      exact ⟨hin, trivial⟩
  enter _ hinv hidle h := outline_enter hidle hinv h
  env hinv h := outline_env hinv h

end LabSO.Virtio

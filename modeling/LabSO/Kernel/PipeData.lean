import LabSO.Kernel.Pipe
import Mathlib

/-! What goes through a pipe: the buffer holds the last bytes put in, in order, also when the counters wrap around, and
    each call of `pipewrite` has put in the first bytes at its address. -/

namespace LabSO.Pipes
open Monitor Transition

variable {n : Nat} {b b' : Data n} {P : Request n → Prop} {p p' q : Fin n} {w : WriteCall} {r : ReadCall} {i : Nat} {k : Point}

/-! ### The buffer -/

/-- The file of a side is open. -/
def Pipe.isOpen (pi : Pipe) : Side → Bool
  | .read => pi.readopen
  | .write => pi.writeopen

/-- No copy to or from user memory fails in calls that meet `P`. -/
def Copies (P : Request n → Prop) : Prop := ∀ x, P x → x.fault = none

structure Ok (P : Request n → Prop) (b : Data n) : Prop where
  nread : b.pipe.nread = .ofNat b.removed.length
  nwrite : b.pipe.nwrite = .ofNat b.added.length
  fits : b.added.length ≤ b.removed.length + PIPESIZE
  taken : b.removed <+: b.added.map Prod.snd
  kept : ∀ j x, b.removed.length ≤ j → b.added[j]? = some x → b.pipe.data (j % PIPESIZE) = x.2
  /-- A file is closed when its last reference is gone. -/
  closed : ∀ side, b.pipe.isOpen side = false → ∀ q, b.refs side q = 0
  handed : Copies P → b.handed = b.removed

theorem ofNat_eq_iff {x y : Nat} : UInt32.ofNat x = UInt32.ofNat y ↔ x % 2 ^ 32 = y % 2 ^ 32 := by
  rw [← UInt32.toNat_inj, UInt32.toNat_ofNat', UInt32.toNat_ofNat']

theorem Ok.removed_le (h : Ok P b) : b.removed.length ≤ b.added.length := by
  simpa using h.taken.length_le

theorem Ok.empty_iff (h : Ok P b) : b.pipe.Empty ↔ b.removed.length = b.added.length := by
  have hle := h.removed_le
  have hfits := h.fits
  unfold Pipe.Empty
  rw [h.nread, h.nwrite, ofNat_eq_iff]
  unfold PIPESIZE at hfits
  constructor
  · intro heq
    omega
  · exact fun heq => by rw [heq]

theorem Ok.full_iff (h : Ok P b) : b.pipe.Full ↔ b.added.length = b.removed.length + PIPESIZE := by
  have hle := h.removed_le
  have hfits := h.fits
  unfold Pipe.Full
  rw [h.nread, h.nwrite, ← UInt32.ofNat_add, ofNat_eq_iff]
  unfold PIPESIZE at *
  constructor
  · intro heq
    omega
  · exact fun heq => by rw [heq]

/-- The counters give the number of bytes in the buffer, also across their wrap-around. -/
theorem Ok.used (h : Ok P b) : (b.pipe.nwrite - b.pipe.nread).toNat = b.added.length - b.removed.length := by
  have hle := h.removed_le
  have hfits := h.fits
  unfold PIPESIZE at hfits
  rw [h.nwrite, h.nread, UInt32.toNat_sub, UInt32.toNat_ofNat', UInt32.toNat_ofNat']
  omega

/-- The bytes in the buffer, from the next to be read on. -/
def Pipe.contents (pi : Pipe) : List UInt8 :=
  (List.range (pi.nwrite - pi.nread).toNat).map fun j => pi.data ((pi.nread.toNat + j) % PIPESIZE)

/-- What was put in is what was taken out, and then what the buffer holds. -/
theorem Ok.contents (h : Ok P b) : b.removed ++ b.pipe.contents = b.added.map Prod.snd := by
  obtain ⟨rest, hrest⟩ := h.taken
  have hlength : b.added.length = b.removed.length + rest.length := by
    rw [← List.length_append, hrest, List.length_map]
  suffices hcontents : b.pipe.contents = rest by
    rw [hcontents, hrest]
  have hused : (b.pipe.nwrite - b.pipe.nread).toNat = rest.length := by
    rw [h.used, hlength]
    omega
  refine List.ext_getElem (by simp [Pipe.contents, hused]) fun j _ hj => ?_
  simp only [Pipe.contents, List.getElem_map, List.getElem_range]
  have hlt : b.removed.length + j < b.added.length := by omega
  have hslot : (b.pipe.nread.toNat + j) % PIPESIZE = (b.removed.length + j) % PIPESIZE := by
    rw [h.nread, UInt32.toNat_ofNat', Nat.add_mod, Nat.mod_mod_of_dvd _ (by decide), ← Nat.add_mod]
  have hget : (b.added.map Prod.snd)[b.removed.length + j]? = some rest[j] := by
    rw [← hrest, List.getElem?_append_right (Nat.le_add_right _ _), Nat.add_sub_cancel_left, List.getElem?_eq_getElem hj]
  rw [List.getElem?_map, List.getElem?_eq_getElem hlt, Option.map_some] at hget
  rw [hslot, h.kept _ _ (Nat.le_add_right _ _) (List.getElem?_eq_getElem hlt)]
  exact Option.some.inj hget

theorem Ok.alloc (h : Fresh b) : Ok P b where
  nread := by
    rw [h.pipe, h.removed]
    rfl
  nwrite := by
    rw [h.pipe, h.added]
    rfl
  fits := by
    rw [h.added, h.removed]
    exact Nat.zero_le _
  taken := by
    rw [h.added, h.removed]
    exact List.nil_prefix
  kept j x _ hx := by
    rw [h.added] at hx
    cases hx
  closed side hside := by
    rw [h.pipe] at hside
    cases side <;> cases hside
  handed _ := h.handed.trans h.removed.symm

theorem Ok.congr (h : Ok P b) (hpipe : b'.pipe = b.pipe) (hadded : b'.added = b.added) (hremoved : b'.removed = b.removed)
    (hhanded : b'.handed = b.handed) (hrefs : ∀ side, (∀ q, b.refs side q = 0) → ∀ q, b'.refs side q = 0) : Ok P b' := by
  obtain ⟨nread, nwrite, fits, taken, kept, closed, handed⟩ := h
  rw [← hpipe] at nread nwrite kept closed
  rw [← hadded] at nwrite fits taken kept
  rw [← hremoved] at nread fits taken kept handed
  rw [← hhanded] at handed
  exact ⟨nread, nwrite, fits, taken, kept, fun side hside => hrefs side (closed side hside), handed⟩

theorem Ok.add {ch : UInt8} (h : Ok P b) (hfull : ¬b.pipe.Full) : Ok P (b.add p ch) := by
  have hle := h.removed_le
  have hfits := h.fits
  rw [h.full_iff] at hfull
  refine ⟨h.nread, ?_, ?_, ?_, fun j x hj hx => ?_, h.closed, h.handed⟩
  · show b.pipe.nwrite + 1 = .ofNat (b.added ++ [(p, ch)]).length
    rw [h.nwrite, List.length_append, UInt32.ofNat_add]
    rfl
  · show (b.added ++ [(p, ch)]).length ≤ b.removed.length + PIPESIZE
    rw [List.length_append, List.length_singleton]
    omega
  · show b.removed <+: (b.added ++ [(p, ch)]).map Prod.snd
    rw [List.map_append]
    exact h.taken.trans (List.prefix_append _ _)
  · have hx' : (b.added ++ [(p, ch)])[j]? = some x := hx
    show Function.update b.pipe.data (b.pipe.nwrite.toNat % PIPESIZE) ch (j % PIPESIZE) = x.2
    have hslot : b.pipe.nwrite.toNat % PIPESIZE = b.added.length % PIPESIZE := by
      rw [h.nwrite, UInt32.toNat_ofNat']
      exact Nat.mod_mod_of_dvd _ (by decide)
    rw [hslot]
    rcases Nat.lt_trichotomy j b.added.length with hlt | rfl | hgt
    · -- The slot of a byte that is still there is another one.
      have hne : j % PIPESIZE ≠ b.added.length % PIPESIZE := by
        have hj' : b.removed.length ≤ j := hj
        unfold PIPESIZE at *
        omega
      rw [Function.update_of_ne hne]
      rw [List.getElem?_append_left hlt] at hx'
      exact h.kept j x hj hx'
    · rw [List.getElem?_concat_length] at hx'
      cases hx'
      exact Function.update_self ..
    · rw [List.getElem?_eq_none] at hx'
      · cases hx'
      · rw [List.length_append, List.length_singleton]
        omega

/-- The byte that a reader takes is the next one. -/
theorem Ok.first (h : Ok P b) (hempty : ¬b.pipe.Empty) : (b.added.map Prod.snd)[b.removed.length]? = some b.pipe.first := by
  have hle := h.removed_le
  rw [h.empty_iff] at hempty
  have hlt : b.removed.length < b.added.length := by omega
  have hslot : b.pipe.nread.toNat % PIPESIZE = b.removed.length % PIPESIZE := by
    rw [h.nread, UInt32.toNat_ofNat']
    exact Nat.mod_mod_of_dvd _ (by decide)
  rw [List.getElem?_map, List.getElem?_eq_getElem hlt, Option.map_some, Pipe.first, hslot,
    h.kept _ _ (Nat.le_refl _) (List.getElem?_eq_getElem hlt)]

theorem prefix_snoc {α : Type} {l m : List α} {x : α} (h : l <+: m) (hx : m[l.length]? = some x) : l ++ [x] <+: m := by
  obtain ⟨rest, rfl⟩ := h
  rw [List.getElem?_append_right (Nat.le_refl _), Nat.sub_self] at hx
  cases rest with
  | nil => cases hx
  | cons y rest =>
    cases hx
    exact ⟨rest, by simp⟩

theorem Ok.remove {copied : Bool} (h : Ok P b) (hempty : ¬b.pipe.Empty) (hcopied : Copies P → copied = true) :
    Ok P (b.remove copied) := by
  have hfirst := h.first hempty
  have htaken : b.removed ++ [b.pipe.first] <+: b.added.map Prod.snd := prefix_snoc h.taken hfirst
  refine ⟨?_, h.nwrite, ?_, htaken, fun j x hj hx => h.kept j x ?_ hx, h.closed, fun hP => ?_⟩
  · show b.pipe.nread + 1 = .ofNat (b.removed ++ [b.pipe.first]).length
    rw [h.nread, List.length_append, UInt32.ofNat_add]
    rfl
  · show b.added.length ≤ (b.removed ++ [b.pipe.first]).length + PIPESIZE
    rw [List.length_append]
    exact Nat.le_trans h.fits (by omega)
  · have hj' : (b.removed ++ [b.pipe.first]).length ≤ j := hj
    rw [List.length_append] at hj'
    omega
  · show (if copied then b.handed ++ [b.pipe.first] else b.handed) = b.removed ++ [b.pipe.first]
    rw [hcopied hP, if_pos rfl, h.handed hP]

theorem Ok.close {side : Side} (h : Ok P b) (hrefs : ∀ q, b.refs side q = 0) :
    Ok P { b with pipe := b.pipe.close side } := by
  refine ⟨?_, ?_, h.fits, h.taken, ?_, fun side' hside => ?_, h.handed⟩
  · cases side <;> exact h.nread
  · cases side <;> exact h.nwrite
  · cases side <;> exact h.kept
  · by_cases heq : side' = side
    · rw [heq]
      exact hrefs
    · refine h.closed side' ?_
      cases side <;> cases side' <;> first | exact absurd rfl heq | exact hside

/-! ### The calls -/

/-- The call of `pipewrite` by `p` has put in exactly the first `i` bytes at its address. -/
def WriteCall.Put (w : WriteCall) (p : Fin n) (b : Data n) (i : Nat) : Prop :=
  w.start ≤ b.added.length ∧
    ((b.added.drop w.start).filter fun x => decide (x.1 = p)).map Prod.snd = (List.range i).map w.src

structure Writes (P : Request n → Prop) (p : Fin n) (b : Data n) (w : WriteCall) (i : Nat) : Prop where
  put : w.Put p b i
  refs : 0 < b.refs .write p
  call : P (.write w.n w.src w.fault)

structure Reads (P : Request n → Prop) (p : Fin n) (b : Data n) (r : ReadCall) : Prop where
  refs : 0 < b.refs .read p
  call : P (.read r.n r.fault)

/-- A read that got nothing found nothing to wait for. -/
def Ended (b : Data n) : Prop := b.pipe.Empty ∧ b.pipe.writeopen = false

/-- What holds at each place, with the lock held. -/
def Inside (P : Request n → Prop) (p : Fin n) (b : Data n) : Point → Prop
  | .writeLoop w i | .writeDone w i | .writeReturn w i => Writes P p b w i
  | .writeOpen w i | .writeFail w i => Writes P p b w i ∧ i < w.n
  | .writeKilled w i => (Writes P p b w i ∧ i < w.n) ∧ b.pipe.readopen = true
  | .writeBody w i => Writes P p b w i ∧ b.pipe.readopen = true
  | .writeSleep w i => Writes P p b w i ∧ b.pipe.readopen = true ∧ b.pipe.Full
  | .readLoop r | .readFail r => Reads P p b r
  | .readKilled r | .readSleep r => Reads P p b r ∧ b.pipe.Empty ∧ b.pipe.writeopen = true
  | .readCopy r i => Reads P p b r ∧ (i = 0 → b.pipe.Empty → Ended b)
  | .readDone r i | .readReturn r i => Reads P p b r ∧ (i = 0 → 0 < r.n → r.fault ≠ some 0 → Ended b)
  | .closeBody side => ∀ q, b.refs side q = 0
  | .closeWakeup _ | .closeReturn _ => True

/-- What holds of a process that goes on at a place when it has got the lock. -/
def Outside (P : Request n → Prop) (p : Fin n) (b : Data n) : Point → Prop
  | .writeLoop w i => Writes P p b w i
  | .readLoop r => Reads P p b r
  | .closeBody side => ∀ q, b.refs side q = 0
  | _ => False

def In (P : Request n → Prop) (a : Thread n Empty) (k : Point) (b : Data n) : Prop :=
  match a with | .inl p => Inside P p b k

def Out (P : Request n → Prop) (a : Thread n Empty) (k : Point) (b : Data n) : Prop :=
  match a with | .inl p => Outside P p b k

def notes (P : Request n → Prop) : Notes n Empty (Data n) Point where
  always := Ok P
  rest _ := True
  idle _ _ := True
  inside := In P
  waiting := Out P

theorem Outside.inside (h : Outside P p b k) : Inside P p b k := by
  cases k <;> first | exact h | cases h

/-- What a call leaves to the other processes: the pipe, and their references. -/
structure Frame (p : Fin n) (b b' : Data n) : Prop where
  pipe : b'.pipe = b.pipe
  added : b'.added = b.added
  removed : b'.removed = b.removed
  handed : b'.handed = b.handed
  refs : ∀ side q, q ≠ p → b.refs side q ≤ b'.refs side q
  gone : ∀ side, (∀ q, b.refs side q = 0) → ∀ q, b'.refs side q = 0

theorem Frame.refl : Frame p b b := ⟨rfl, rfl, rfl, rfl, fun _ _ _ => Nat.le_refl _, fun _ h => h⟩

theorem refs_setRefs (side side' : Side) (m : Nat) :
    (b.setRefs side p m).refs side' q = if side' = side ∧ q = p then m else b.refs side' q := by
  show Function.update b.refs side (Function.update (b.refs side) p m) side' q = _
  by_cases hs : side' = side
  · subst hs
    rw [Function.update_self, Function.update_apply]
    simp
  · rw [Function.update_of_ne hs, if_neg fun h => hs h.1]

theorem Frame.setRefs {side : Side} {m : Nat} (hpos : 0 < b.refs side q) (h : p' = p ∨ b.refs side p' ≤ m) :
    Frame p b (b.setRefs side p' m) where
  pipe := rfl
  added := rfl
  removed := rfl
  handed := rfl
  refs side' x hx := by
    rw [refs_setRefs]
    split
    · next heq =>
      obtain ⟨rfl, rfl⟩ := heq
      rcases h with rfl | h
      · exact absurd rfl hx
      · exact h
    · exact Nat.le_refl _
  gone side' hzero x := by
    rw [refs_setRefs]
    split
    · next heq =>
      obtain ⟨rfl, -⟩ := heq
      rw [hzero q] at hpos
      cases hpos
    · exact hzero x

theorem Writes.frame (h : Writes P q b w i) (hf : Frame p b b') (hne : q ≠ p) : Writes P q b' w i where
  put := by
    have hput := h.put
    rwa [WriteCall.Put, ← hf.added] at hput
  refs := Nat.lt_of_lt_of_le h.refs (hf.refs _ _ hne)
  call := h.call

theorem Reads.frame (h : Reads P q b r) (hf : Frame p b b') (hne : q ≠ p) : Reads P q b' r :=
  ⟨Nat.lt_of_lt_of_le h.refs (hf.refs _ _ hne), h.call⟩

theorem Inside.frame (h : Inside P q b k) (hf : Frame p b b') (hne : q ≠ p) : Inside P q b' k := by
  cases k with
  | writeLoop w i | writeDone w i | writeReturn w i => exact Writes.frame h hf hne
  | writeOpen w i | writeFail w i => exact ⟨h.1.frame hf hne, h.2⟩
  | writeKilled w i => exact ⟨⟨h.1.1.frame hf hne, h.1.2⟩, hf.pipe ▸ h.2⟩
  | writeBody w i =>
    obtain ⟨hw, hopen⟩ := h
    exact ⟨hw.frame hf hne, hf.pipe ▸ hopen⟩
  | writeSleep w i =>
    obtain ⟨hw, hopen, hfull⟩ := h
    exact ⟨hw.frame hf hne, hf.pipe ▸ hopen, hf.pipe ▸ hfull⟩
  | readLoop r | readFail r => exact Reads.frame h hf hne
  | readKilled r | readSleep r =>
    obtain ⟨hr, hempty, hopen⟩ := h
    exact ⟨hr.frame hf hne, hf.pipe ▸ hempty, hf.pipe ▸ hopen⟩
  | readCopy r i | readDone r i | readReturn r i =>
    obtain ⟨hr, hend⟩ := h
    refine ⟨hr.frame hf hne, ?_⟩
    rwa [Ended, hf.pipe]
  | closeBody side => exact hf.gone side h
  | closeWakeup side | closeReturn side => trivial

theorem Outside.frame (h : Outside P q b k) (hf : Frame p b b') (hne : q ≠ p) : Outside P q b' k := by
  cases k with
  | writeLoop w i => exact Writes.frame h hf hne
  | readLoop r => exact Reads.frame h hf hne
  | closeBody side => exact hf.gone side h
  | _ => cases h

theorem WriteCall.Put.next {ch : UInt8} (h : w.Put p b i) (hch : ch = w.src i) : w.Put p (b.add p ch) (i + 1) := by
  obtain ⟨hstart, hput⟩ := h
  refine ⟨?_, ?_⟩
  · show w.start ≤ (b.added ++ [(p, ch)]).length
    rw [List.length_append]
    exact Nat.le_trans hstart (Nat.le_add_right _ _)
  · show (((b.added ++ [(p, ch)]).drop w.start).filter fun x => decide (x.1 = p)).map Prod.snd = _
    rw [List.drop_append_of_le_length hstart, List.filter_append, List.map_append, hput, List.range_succ, List.map_append, hch]
    simp

/-- A byte that another process puts in is none of this call. -/
theorem WriteCall.Put.other {ch : UInt8} (h : w.Put p b i) (hne : q ≠ p) : w.Put p (b.add q ch) i := by
  obtain ⟨hstart, hput⟩ := h
  refine ⟨?_, ?_⟩
  · show w.start ≤ (b.added ++ [(q, ch)]).length
    rw [List.length_append]
    exact Nat.le_trans hstart (Nat.le_add_right _ _)
  · show (((b.added ++ [(q, ch)]).drop w.start).filter fun x => decide (x.1 = p)).map Prod.snd = _
    rw [List.drop_append_of_le_length hstart, List.filter_append, List.map_append, hput]
    simp [hne]

theorem Writes.open (h : Writes P p b w i) (hok : Ok P b) : b.pipe.writeopen = true := by
  by_contra hne
  have hzero := hok.closed .write (by simpa [Pipe.isOpen] using hne) p
  exact absurd hzero (Nat.ne_of_gt h.refs)

theorem Reads.open (h : Reads P p b r) (hok : Ok P b) : b.pipe.readopen = true := by
  by_contra hne
  have hzero := hok.closed .read (by simpa [Pipe.isOpen] using hne) p
  exact absurd hzero (Nat.ne_of_gt h.refs)

/-! ### The annotated code -/

/-- What a step under the lock keeps, and what it leaves to the processes that wait for the lock. -/
structure Kept (P : Request n → Prop) (p : Fin n) (b' : Data n) (k' : Point) (b : Data n) : Prop where
  ok : Ok P b'
  inside : Inside P p b' k'
  others : ∀ q k, q ≠ p → Outside P q b k → Outside P q b' k

theorem Kept.skip (hok : Ok P b) (hin : Inside P p b k) : Kept P p b k b := ⟨hok, hin, fun _ _ _ h => h⟩

theorem kept_set {k' : Point} (hok : Ok P b) (hin : Inside P p b k) (hop : op p b k = .set b' k') : Kept P p b' k' b := by
  cases k with
  | writeLoop w i =>
    cases hop
    refine .skip hok ?_
    split
    · next hlt => exact ⟨hin, hlt⟩
    · exact hin
  | writeOpen w i =>
    cases hop
    refine .skip hok ?_
    split
    · next hopen => exact ⟨hin, hopen⟩
    · exact hin
  | writeBody w i =>
    obtain ⟨hw, hopen⟩ := hin
    rw [op] at hop
    split at hop
    · cases hop
    · next hfull =>
      split at hop
      · cases hop
        exact .skip hok hw
      · cases hop
        refine ⟨hok.add hfull, ⟨hw.put.next rfl, hw.refs, hw.call⟩, fun q k hq hk => ?_⟩
        cases k with
        | writeLoop w' j =>
          have hw' : Writes P q b w' j := hk
          exact ⟨hw'.put.other hq.symm, hw'.refs, hw'.call⟩
        | readLoop r =>
          have hr : Reads P q b r := hk
          exact ⟨hr.refs, hr.call⟩
        | closeBody side => exact hk
        | _ => cases hk
  | readLoop r =>
    cases hop
    refine .skip hok ?_
    split
    · next hcond => exact ⟨hin, hcond.1, hcond.2⟩
    · next hcond =>
      refine ⟨hin, fun _ hempty => ⟨hempty, ?_⟩⟩
      rw [not_and] at hcond
      simpa using hcond hempty
  | readCopy r i =>
    obtain ⟨hr, hend⟩ := hin
    have hothers : ∀ copied q k, q ≠ p → Outside P q b k → Outside P q (b.remove copied) k := fun copied q k hq hk => by
      cases k with
      | writeLoop w' j =>
        have hw' : Writes P q b w' j := hk
        exact ⟨hw'.put, hw'.refs, hw'.call⟩
      | readLoop r =>
        have hr : Reads P q b r := hk
        exact ⟨hr.refs, hr.call⟩
      | closeBody side => exact hk
      | _ => cases hk
    rw [op] at hop
    split at hop
    · next hcond =>
      split at hop
      · next hfault =>
        cases hop
        refine ⟨hok.remove hcond.2 fun hP => ?_, ⟨⟨hr.refs, hr.call⟩, fun hi _ hne => ?_⟩, hothers false⟩
        · have hnone : r.fault = none := hP _ hr.call
          rw [hnone] at hfault
          cases hfault
        · rw [hi] at hfault
          exact absurd hfault hne
      · cases hop
        exact ⟨hok.remove hcond.2 fun _ => rfl, ⟨⟨hr.refs, hr.call⟩, by rintro ⟨⟩⟩, hothers true⟩
    · next hcond =>
      cases hop
      refine .skip hok ⟨hr, fun hi hpos _ => ?_⟩
      subst hi
      rw [not_and, not_not] at hcond
      exact hend rfl (hcond hpos)
  | closeBody side =>
    cases hop
    refine ⟨hok.close hin, trivial, fun q k hq hk => ?_⟩
    cases k with
    | writeLoop w' j =>
      have hw' : Writes P q b w' j := hk
      exact ⟨hw'.put, hw'.refs, hw'.call⟩
    | readLoop r =>
      have hr : Reads P q b r := hk
      exact ⟨hr.refs, hr.call⟩
    | closeBody side => exact hk
    | _ => cases hk
  | _ => cases hop

theorem frame_enter {x : Request n} {o : Option Point} (h : enter p b x = some (b', o)) : Frame p b b' := by
  cases x with
  | write len src fault =>
    obtain ⟨-, heq⟩ := Option.ite_none_right_eq_some.mp h
    cases heq
    exact .refl
  | read len fault =>
    obtain ⟨-, heq⟩ := Option.ite_none_right_eq_some.mp h
    cases heq
    exact .refl
  | share side q =>
    obtain ⟨hpos, heq⟩ := Option.ite_none_right_eq_some.mp h
    cases heq
    exact .setRefs hpos (Or.inr (Nat.le_succ _))
  | close side =>
    obtain ⟨hpos, heq⟩ := Option.ite_none_right_eq_some.mp h
    cases heq
    exact .setRefs hpos (Or.inl rfl)

/-- Where a call goes on, what is said of that place holds. -/
theorem outside_enter {x : Request n} (hP : P x) (h : enter p b x = some (b', some k)) : Outside P p b' k := by
  cases x with
  | write len src fault =>
    obtain ⟨hpos, heq⟩ := Option.ite_none_right_eq_some.mp h
    cases heq
    refine ⟨⟨Nat.le_refl _, ?_⟩, hpos, hP⟩
    show ((b.added.drop b.added.length).filter _).map Prod.snd = _
    rw [List.drop_length]
    rfl
  | read len fault =>
    obtain ⟨hpos, heq⟩ := Option.ite_none_right_eq_some.mp h
    cases heq
    exact ⟨hpos, hP⟩
  | share side q =>
    obtain ⟨-, heq⟩ := Option.ite_none_right_eq_some.mp h
    cases heq
  | close side =>
    obtain ⟨-, heq⟩ := Option.ite_none_right_eq_some.mp h
    simp only [Option.some.injEq, Prod.mk.injEq] at heq
    obtain ⟨rfl, hk⟩ := heq
    obtain ⟨hzero, hk⟩ := Option.ite_none_right_eq_some.mp hk
    cases hk
    exact hzero

theorem outline (P : Request n → Prop) : Outline (code n) P (notes P) where
  acquire {a k b} _ _ h := match a with | .inl p => Outside.inside h
  set {a k b b' k'} hok hin hop := by
    obtain p | a := a
    · have hkept := kept_set hok hin hop
      refine ⟨hkept.ok, hkept.inside, fun a' hne => ⟨id, fun k h => ?_⟩⟩
      obtain q | a' := a'
      · exact hkept.others q k (fun heq => hne (congrArg Sum.inl heq)) h
      · cases a'
    · cases a
  wakeup {a k b c k'} hok hin hop := by
    obtain p | a := a
    · rcases op_wakeup hop with ⟨w, i, rfl, hfull, -, rfl⟩ | ⟨w, i, rfl, -, rfl⟩ | ⟨r, i, rfl, -, rfl⟩ | ⟨side, rfl, -, rfl⟩
      · exact ⟨hin.1, hin.2, hfull⟩
      · exact hin
      · exact hin
      · exact hin
    · cases a
  sleep {a k b c k'} hok hin hop := by
    obtain p | a := a
    · rcases op_sleep hop with ⟨w, i, rfl, -, rfl⟩ | ⟨r, rfl, -, rfl⟩
      · exact ⟨trivial, hin.1⟩
      · exact ⟨trivial, hin.1⟩
    · cases a
  killed {a k b yes no} hok hin hop := by
    obtain p | a := a
    · rcases op_killed hop with ⟨w, i, rfl, rfl, rfl⟩ | ⟨r, rfl, rfl, rfl⟩
      · exact ⟨hin.1, hin.1.1, hin.2⟩
      · exact ⟨hin.1, hin⟩
    · cases a
  release _ _ _ := ⟨trivial, trivial⟩
  enter {a x b b' o} hP hok _ h := by
    obtain p | a := a
    · have hframe := frame_enter h
      refine ⟨hok.congr hframe.pipe hframe.added hframe.removed hframe.handed hframe.gone, id, ?_, fun a' hne => ?_⟩
      · cases o with
        | none => trivial
        | some k => exact outside_enter hP h
      · obtain q | a' := a'
        · have hq : q ≠ p := fun heq => hne (congrArg Sum.inl heq)
          exact ⟨id, fun k hk => Inside.frame hk hframe hq, fun k hk => Outside.frame hk hframe hq⟩
        · cases a'
    · cases a
  env {e b b'} := nomatch e

/-! ### Along a run -/

theorem outlined_boot {s : PipeState n} (hboot : Boot s) (hfresh : Fresh s.data) : Outlined (notes P) s :=
  .boot hboot (.alloc hfresh) trivial fun _ => trivial

theorem pipe_run {s t : PipeState n} {ls : List (Action n Empty (Request n) Empty × Event n Empty Result)} (hboot : Boot s)
    (hfresh : Fresh s.data) (hP : ∀ l ∈ ls, CallOk P l) (hrun : Run (Step (code n)) s ls t) :
    Locked t ∧ Outlined (notes P) t :=
  (outline P).run hboot (outlined_boot hboot hfresh) hP hrun

/-- A write that returns its length has put in exactly its bytes, in order, and a read that returns 0 although it asked for
    more found the buffer empty and the write side closed. -/
def ReturnOk (b : Data n) : Event n Empty Result → Prop
  | .returned (.inl p) (.write w value) => value = w.n →
    ((b.added.drop w.start).filter fun x => decide (x.1 = p)).map Prod.snd = (List.range w.n.toNat).map w.src
  | .returned (.inl _) (.read r value) => value = 0 → 0 < r.n → b.pipe.Empty ∧ b.pipe.writeopen = false
  | _ => True

theorem returnOk_step {s t : PipeState n} {l : Action n Empty (Request n) Empty × Event n Empty Result}
    (hP : Copies P) (ho : Outlined (notes P) s) (hstep : Step (code n) s l t) : ReturnOk s.data l.2 := by
  cases step_inv hstep with
  | @release a point result pc op =>
    obtain p | a := a
    · have hin : Inside P p s.data point := ho.inside (a := .inl p) (by rw [pc]; rfl)
      rcases op_release op with ⟨w, i, rfl, rfl⟩ | ⟨w, i, rfl, rfl⟩ | ⟨r, rfl, rfl⟩ | ⟨r, i, rfl, rfl⟩ | ⟨side, freed, rfl, rfl⟩
      · intro hval
        have hlt : (i : Int) < w.n := hin.2
        omega
      · intro hval
        have hlen : w.n.toNat = i := by omega
        rw [hlen]
        exact hin.put.2
      · intro hval
        cases hval
      · intro hval hpos
        have hnone : r.fault = none := hP _ hin.1.call
        exact hin.2 (by exact_mod_cast hval) hpos (by rw [hnone]; nofun)
      · trivial
    · cases a
  | _ => trivial

/-- The bytes that reads get are, in order, those that writes put in, up to what the buffer still holds; the buffer never
    holds more than it has room for. -/
theorem pipe_conserves {s t : PipeState n} {ls : List (Action n Empty (Request n) Empty × Event n Empty Result)}
    (hboot : Boot s) (hfresh : Fresh s.data) (hcopies : ∀ l ∈ ls, CallOk (fun x => x.fault = none) l)
    (hrun : Run (Step (code n)) s ls t) :
    (t.data.pipe.nwrite - t.data.pipe.nread).toNat ≤ PIPESIZE ∧ t.data.handed <+: t.data.added.map Prod.snd ∧
      t.data.handed ++ t.data.pipe.contents = t.data.added.map Prod.snd ∧
      AllSteps (Step (code n)) s ls fun u l => ReturnOk u.data l.2 := by
  have hP : Copies fun x : Request n => x.fault = none := fun _ => id
  have hok := (pipe_run hboot hfresh hcopies hrun).2.data
  refine ⟨?_, ?_, ?_, ?_⟩
  · rw [hok.used]
    have := hok.fits
    omega
  · rw [hok.handed hP]
    exact hok.taken
  · rw [hok.handed hP]
    exact hok.contents
  · exact ((outline _).allStates hboot (outlined_boot hboot hfresh) hcopies).allSteps (fun _ _ _ _ => ofStep_det)
      (fun _ _ _ hu _ => returnOk_step hP hu.2) hrun

attribute [local instance] Transition.neZero_two

/-- Process 0 writes two bytes, and process 1 reads them. -/
def writeThenRead : List (Action 2 Empty (Request 2) Empty) :=
  [.call (.inl 0) (.share .read 1), .call (.inl 0) (.write 2 (fun i => .ofNat (i + 7)) none)] ++
    List.replicate 15 (.step (.inl 0)) ++ [.call (.inl 1) (.read 5 none)] ++ List.replicate 10 (.step (.inl 1))

theorem fresh_fresh : Fresh (fresh p) := ⟨rfl, rfl, rfl, rfl⟩

theorem writeThenRead_runs : (exec (step (code 2)) (boot 2 Empty Chan (fresh 0)) writeThenRead).isSome := by decide

theorem pipe_conserves_twoBytes :
    let t := ((exec (step (code 2)) (boot 2 Empty Chan (fresh 0)) writeThenRead).get writeThenRead_runs).2
    t.data.handed = [7, 8] ∧ t.data.handed <+: t.data.added.map Prod.snd :=
  ⟨by decide, (pipe_conserves (boot_boot _) fresh_fresh (by decide) (run_exec writeThenRead_runs)).2.1⟩

end LabSO.Pipes

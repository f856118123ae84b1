import LabSO.Kernel.BcacheInv
import Mathlib.Data.Set.Function

/-! What the buffers hold: as long as no two of the blocks that are asked for lie in one place of the disk, no reference
    counter wraps around, and no buffer is given up with changes that are not on the disk. -/

namespace LabSO.Bcache
open Circular Transition

variable {P α : Type*} {B : Set BlockId} {s t : State P α} {a : Action P α} {e : Event α} {p q : P} {b c : Fin NBUF}
  {blk : BlockId}

/-- The buffer and the block that a call of `bread` is about. -/
def Pc.wants : Pc → Option (Fin NBUF × BlockId)
  | .acquiring b blk | .locked b blk | .reading b blk _ | .filled b blk => some (b, blk)
  | .idle | .writing _ _ | .releasing _ => none

/-- `bread` has the sleep-lock of the buffer and has not returned. -/
def Pc.Fetching (b : Fin NBUF) : Pc → Prop
  | .locked c _ | .reading c _ _ | .filled c _ => c = b
  | .idle | .acquiring _ _ | .writing _ _ | .releasing _ => False

theorem Pc.Fetching.holds {pc : Pc} (h : pc.Fetching b) : pc.holds = some b := by
  cases pc <;> cases h <;> rfl

/-- Some buffer carries the block, and has its data. -/
def State.Cached (s : State P α) (blk : BlockId) : Prop := ∃ b, (s.buf b).toBlockId = blk ∧ (s.buf b).valid = true

/-- Nobody has had a chance to change the data since a holder left it. -/
def State.Settled (s : State P α) (b : Fin NBUF) : Prop :=
  ∀ p, (s.buf b).lock = some p → ∃ blk, s.pc p = .locked b blk

structure Contents (B : Set BlockId) (s : State P α) : Prop where
  wants : ∀ {p b blk}, (s.pc p).wants = some (b, blk) → (s.buf b).toBlockId = blk ∧ blk ∈ B
  reading : ∀ {p b blk at'}, s.pc p = .reading b blk at' → at' = sector blk.blockno ∧ (s.buf b).valid = false
  filled : ∀ {p b blk}, s.pc p = .filled b blk →
    (s.buf b).valid = false ∧ (s.buf b).data = s.disk (sector blk.blockno)
  writing : ∀ {p b at'}, s.pc p = .writing b at' → at' = sector (s.buf b).blockno ∧ (s.buf b).valid = true
  ready : ∀ {p b}, (s.buf b).lock = some p → ¬(s.pc p).Fetching b → (s.buf b).valid = true
  known : ∀ {b}, (s.buf b).valid = true → (s.buf b).toBlockId ∈ B
  clean : ∀ {b}, (s.buf b).valid = true → s.changed b = false → (s.buf b).data = s.disk (sector (s.buf b).blockno)
  settled : ∀ {b}, (s.buf b).valid = true → s.Settled b → (s.buf b).data = s.left (s.buf b).toBlockId
  away : ∀ {blk}, blk ∈ B → s.Cached blk ∨ s.disk (sector blk.blockno) = s.left blk

theorem contents_init (k : Links Node) (zero : α) (disk : UInt64 → α) : Contents B (State.init k zero disk : State P α) where
  wants := nofun
  reading := nofun
  filled := nofun
  writing := nofun
  ready := nofun
  known := nofun
  clean := nofun
  settled := nofun
  away _ := Or.inr rfl

/-- Nothing changes but references. -/
theorem Contents.congr (hc : Contents B s) (hblk : ∀ b, (t.buf b).toBlockId = (s.buf b).toBlockId)
    (hvalid : ∀ b, (t.buf b).valid = (s.buf b).valid) (hlock : ∀ b, (t.buf b).lock = (s.buf b).lock)
    (hdata : ∀ b, (t.buf b).data = (s.buf b).data) (hpc : t.pc = s.pc) (hdisk : t.disk = s.disk)
    (hchanged : t.changed = s.changed) (hleft : t.left = s.left) : Contents B t where
  wants := by
    rw [hpc]
    intro p b blk h
    rw [hblk]
    exact hc.wants h
  reading := by
    rw [hpc]
    intro p b blk at' h
    rw [hvalid]
    exact hc.reading h
  filled := by
    rw [hpc, hdisk]
    intro p b blk h
    rw [hvalid, hdata]
    exact hc.filled h
  writing := by
    rw [hpc]
    intro p b at' h
    rw [hvalid, hblk]
    exact hc.writing h
  ready := by
    rw [hpc]
    intro p b h
    rw [hlock] at h
    rw [hvalid]
    exact hc.ready h
  known := by
    intro b h
    rw [hvalid] at h
    rw [hblk]
    exact hc.known h
  clean := by
    rw [hchanged, hdisk]
    intro b h
    rw [hvalid] at h
    rw [hdata, hblk]
    exact hc.clean h
  settled := by
    intro b h hs
    rw [hvalid] at h
    rw [hdata, hblk, hleft]
    refine hc.settled h fun p hp => ?_
    rw [← hlock] at hp
    rw [← hpc]
    exact hs p hp
  away := by
    rw [hdisk, hleft]
    intro blk h
    refine (hc.away h).imp_left ?_
    rintro ⟨b, hb, hv⟩
    exact ⟨b, (hblk b).trans hb, (hvalid b).trans hv⟩

theorem Contents.setRefs (hc : Contents B s) (n : UInt32) (l : List (Ref P)) :
    Contents B ((s.setBuf b { s.buf b with refcnt := n }).setRefs b l) := by
  exact hc.congr (proj_update Buf.toBlockId (by rfl)) (proj_update Buf.valid (by rfl)) (proj_update Buf.lock (by rfl))
    (proj_update Buf.data (by rfl)) rfl rfl rfl rfl

theorem Contents.change (hc : Contents B s) (hr : Refs s) (hpc : s.pc p = .idle) (hlock : (s.buf b).lock = some p)
    (data : α) : Contents B ((s.setBuf b { s.buf b with data }).setChanged b true) := by
  have hholds := @hr.holds
  obtain ⟨wants, reading, filled, writing, ready, known, clean, settled, away⟩ := hc
  constructor <;> simp only [State.setBuf, State.setChanged]
  · grind [Function.update_apply]
  · grind [Function.update_apply]
  · grind [Function.update_apply, Pc.holds]
  · grind [Function.update_apply]
  · grind [Function.update_apply]
  · grind [Function.update_apply]
  · grind [Function.update_apply]
  · intro c hv hs
    rcases eq_or_ne c b with rfl | hne
    · obtain ⟨blk', hblk'⟩ := hs p (by simpa only [Function.update_self] using hlock)
      rw [hpc] at hblk'
      cases hblk'
    · simp only [Function.update_of_ne hne] at hv ⊢
      exact settled hv fun q hq => hs q (by simpa only [Function.update_of_ne hne] using hq)
  · intro blk' hmem
    refine (away hmem).imp_left ?_
    rintro ⟨c, hcb, hv⟩
    exact ⟨c, by grind [Function.update_apply], by grind [Function.update_apply]⟩

variable [DecidableEq P]

/-- A process enters or leaves a function, and has no sleep-lock for it. -/
theorem Contents.setPc (hc : Contents B s) {pc : Pc} (hold : (s.pc p).holds = none) (hnew : pc.holds = none)
    (hwants : ∀ {b blk}, pc.wants = some (b, blk) → (s.buf b).toBlockId = blk ∧ blk ∈ B) : Contents B (s.setPc p pc) := by
  obtain ⟨wants, reading, filled, writing, ready, known, clean, settled, away⟩ := hc
  constructor <;> simp only [State.setPc]
  · grind [Function.update_apply]
  · grind [Function.update_apply, Pc.holds]
  · grind [Function.update_apply, Pc.holds]
  · grind [Function.update_apply, Pc.holds]
  · intro q b hlock hfetch
    refine ready hlock fun hf => hfetch ?_
    have hqp : q ≠ p := by
      rintro rfl
      rw [hf.holds] at hold
      cases hold
    rwa [Function.update_of_ne hqp]
  · exact known
  · exact clean
  · intro b hvalid hs
    refine settled hvalid fun q hq => ?_
    obtain ⟨blk, hblk⟩ := hs q hq
    grind [Function.update_apply, Pc.holds]
  · exact away

/-- A process that has a sleep-lock goes on in a function. -/
theorem Contents.write (hc : Contents B s) (hpc : s.pc p = .idle) (hlock : (s.buf b).lock = some p) :
    Contents B (s.setPc p (.writing b (sector (s.buf b).blockno))) := by
  obtain ⟨wants, reading, filled, writing, ready, known, clean, settled, away⟩ := hc
  constructor <;> simp only [State.setPc]
  · grind [Function.update_apply, Pc.wants]
  · grind [Function.update_apply]
  · grind [Function.update_apply]
  · grind [Function.update_apply, Pc.Fetching]
  · grind [Function.update_apply, Pc.Fetching]
  · exact known
  · exact clean
  · intro c hvalid hs
    refine settled hvalid fun q hq => ?_
    obtain ⟨blk, hblk⟩ := hs q hq
    grind [Function.update_apply]
  · exact away

/-- `bread` has found the buffer valid: it holds what was left in the block. -/
theorem Contents.hit (hc : Contents B s) (hr : Refs s) (hpc : s.pc p = .locked b blk) (hvalid : (s.buf b).valid = true) :
    (s.buf b).data = s.left blk ∧ Contents B (s.setPc p .idle) := by
  have hlock : (s.buf b).lock = some p := hr.holds (by rw [hpc, Pc.holds])
  have hblk : (s.buf b).toBlockId = blk := (hc.wants (by rw [hpc, Pc.wants])).1
  obtain ⟨wants, reading, filled, writing, ready, known, clean, settled, away⟩ := hc
  refine ⟨?_, ?_⟩
  · rw [← hblk]
    refine settled hvalid fun q hq => ⟨blk, ?_⟩
    obtain rfl : p = q := Option.some.inj (hlock.symm.trans hq)
    exact hpc
  · constructor <;> simp only [State.setPc]
    · grind [Function.update_apply, Pc.wants]
    · grind [Function.update_apply]
    · grind [Function.update_apply]
    · grind [Function.update_apply]
    · intro q c hq hfetch
      rcases eq_or_ne c b with rfl | hne
      · exact hvalid
      · refine ready hq fun hf => hfetch ?_
        grind [Function.update_apply, Pc.Fetching]
    · exact known
    · exact clean
    · intro c hv hs
      refine settled hv fun q hq => ?_
      obtain ⟨blk', hblk'⟩ := hs q hq
      grind [Function.update_apply]
    · exact away

theorem Contents.read (hc : Contents B s) (hpc : s.pc p = .locked b blk) (hvalid : (s.buf b).valid = false) :
    Contents B (s.setPc p (.reading b blk (sector (s.buf b).blockno))) := by
  have hblk : (s.buf b).toBlockId = blk := (hc.wants (by rw [hpc, Pc.wants])).1
  obtain ⟨wants, reading, filled, writing, ready, known, clean, settled, away⟩ := hc
  constructor <;> simp only [State.setPc]
  · grind [Function.update_apply, Pc.wants]
  · grind [Function.update_apply]
  · grind [Function.update_apply]
  · grind [Function.update_apply]
  · grind [Function.update_apply, Pc.Fetching]
  · exact known
  · exact clean
  · intro c hv hs
    refine settled hv fun q hq => ?_
    obtain ⟨blk', hblk'⟩ := hs q hq
    grind [Function.update_apply]
  · exact away

theorem Contents.load (hc : Contents B s) (hr : Refs s) {at' : UInt64} (hpc : s.pc p = .reading b blk at') :
    Contents B ((s.load b at').setPc p (.filled b blk)) := by
  have hlock : (s.buf b).lock = some p := hr.holds (by rw [hpc, Pc.holds])
  obtain ⟨hat, hinvalid⟩ := hc.reading hpc
  have hholds := @hr.holds
  obtain ⟨wants, reading, filled, writing, ready, known, clean, settled, away⟩ := hc
  constructor <;> simp only [State.load, State.setBuf, State.setPc]
  · grind [Function.update_apply, Pc.wants]
  · grind [Function.update_apply, Pc.holds]
  · grind [Function.update_apply, Pc.holds]
  · grind [Function.update_apply, Pc.holds]
  · grind [Function.update_apply, Pc.Fetching]
  · grind [Function.update_apply]
  · grind [Function.update_apply]
  · intro c hv hs
    have hne : c ≠ b := by
      rintro rfl
      simp [hinvalid] at hv
    simp only [Function.update_of_ne hne] at hv ⊢
    refine settled hv fun q hq => ?_
    obtain ⟨blk', hblk'⟩ := hs q (by simpa only [Function.update_of_ne hne] using hq)
    grind [Function.update_apply]
  · intro blk' hmem
    refine (away hmem).imp_left ?_
    rintro ⟨c, hcb, hv⟩
    exact ⟨c, by grind [Function.update_apply], by grind [Function.update_apply]⟩

/-- `bread` has filled the buffer from the disk: nobody else had a buffer for the block, so the disk has what was left in it. -/
theorem Contents.fill (hc : Contents B s) (hr : Refs s) (hu : Unique s) (hdev : ∀ blk ∈ B, blk.dev ≠ 0)
    (hpc : s.pc p = .filled b blk) : (s.buf b).data = s.left blk ∧
      Contents B ((s.setBuf b { s.buf b with valid := true }).setPc p .idle) := by
  have hlock : (s.buf b).lock = some p := hr.holds (by rw [hpc, Pc.holds])
  obtain ⟨hblk, hmem⟩ := hc.wants (show (s.pc p).wants = some (b, blk) by rw [hpc, Pc.wants])
  obtain ⟨hinvalid, hdata⟩ := hc.filled hpc
  have hholds := @hr.holds
  refine ⟨?_, ?_⟩
  · rcases hc.away hmem with ⟨c, hcb, hv⟩ | heq
    · obtain rfl : c = b := hu c b (hcb.trans hblk.symm) (hcb ▸ hdev blk hmem)
      rw [hinvalid] at hv
      cases hv
    · rw [hdata, heq]
  · obtain ⟨wants, reading, filled, writing, ready, known, clean, settled, away⟩ := hc
    constructor <;> simp only [State.setBuf, State.setPc]
    · grind [Function.update_apply, Pc.wants]
    · grind [Function.update_apply, Pc.holds]
    · grind [Function.update_apply, Pc.holds]
    · grind [Function.update_apply]
    · intro q c hq hfetch
      rcases eq_or_ne c b with rfl | hne
      · rw [Function.update_self]
      · rw [Function.update_of_ne hne] at hq ⊢
        refine ready hq fun hf => hfetch ?_
        grind [Function.update_apply, Pc.Fetching]
    · grind [Function.update_apply]
    · grind [Function.update_apply]
    · intro c hv hs
      rcases eq_or_ne c b with rfl | hne
      · obtain ⟨blk', hblk'⟩ := hs p (by simpa only [Function.update_self] using hlock)
        simp [Function.update_self] at hblk'
      · simp only [Function.update_of_ne hne] at hv ⊢
        refine settled hv fun q hq => ?_
        obtain ⟨blk', hblk'⟩ := hs q (by simpa only [Function.update_of_ne hne] using hq)
        grind [Function.update_apply]
    · intro blk' hmem'
      refine (away hmem').imp_left ?_
      rintro ⟨c, hcb, hv⟩
      exact ⟨c, by grind [Function.update_apply], by grind [Function.update_apply]⟩

/-- The disk takes the contents of a buffer: no other block of the run is in that place. -/
theorem Contents.store (hc : Contents B s) (hr : Refs s) (hu : Unique s) (hdev : ∀ blk ∈ B, blk.dev ≠ 0)
    (hB : Set.InjOn (fun blk => sector blk.blockno) B) {at' : UInt64} (hpc : s.pc p = .writing b at') :
    Contents B ((s.store b at').setPc p .idle) := by
  have hlock : (s.buf b).lock = some p := hr.holds (by rw [hpc, Pc.holds])
  obtain ⟨rfl, hvalid⟩ := hc.writing hpc
  have hblk := hc.known hvalid
  have hapart : ∀ {blk}, blk ∈ B → blk ≠ (s.buf b).toBlockId → sector blk.blockno ≠ sector (s.buf b).blockno :=
    fun hmem hne heq => hne (hB hmem hblk heq)
  have hother : ∀ {c}, c ≠ b → (s.buf c).toBlockId ≠ (s.buf b).toBlockId :=
    fun hne heq => hne (hu b _ heq.symm (hdev _ hblk)).symm
  have hholds := @hr.holds
  obtain ⟨wants, reading, filled, writing, ready, known, clean, settled, away⟩ := hc
  constructor <;> simp only [State.store, State.setChanged, State.setPc]
  · grind [Function.update_apply, Pc.wants]
  · grind [Function.update_apply]
  · intro q c blk hq
    have hqp : q ≠ p := by
      rintro rfl
      simp [Function.update_self] at hq
    rw [Function.update_of_ne hqp] at hq
    obtain ⟨hinvalid, hdata⟩ := filled hq
    obtain ⟨hcb, hmem⟩ := wants (show (s.pc q).wants = some (c, blk) by rw [hq, Pc.wants])
    have hne : c ≠ b := by
      rintro rfl
      rw [hinvalid] at hvalid
      cases hvalid
    rw [Function.update_of_ne (hapart hmem (hcb ▸ hother hne))]
    exact ⟨hinvalid, hdata⟩
  · grind [Function.update_apply]
  · intro q c hq hfetch
    rcases eq_or_ne c b with rfl | hne
    · exact hvalid
    · refine ready hq fun hf => hfetch ?_
      grind [Function.update_apply, Pc.Fetching]
  · exact known
  · intro c hv hch
    rcases eq_or_ne c b with rfl | hne
    · rw [Function.update_self]
    · rw [Function.update_of_ne hne] at hch
      rw [Function.update_of_ne (hapart (known hv) (hother hne)), clean hv hch]
  · intro c hv hs
    refine settled hv fun q hq => ?_
    obtain ⟨blk', hblk'⟩ := hs q hq
    grind [Function.update_apply]
  · intro blk hmem
    rcases eq_or_ne blk (s.buf b).toBlockId with rfl | hne
    · exact Or.inl ⟨b, rfl, hvalid⟩
    · rw [Function.update_of_ne (hapart hmem hne)]
      exact away hmem

theorem Contents.lock (hc : Contents B s) (hr : Refs s) (hpc : s.pc p = .acquiring b blk)
    (hfree : (s.buf b).lock = none) : Contents B (s.lock p b blk) := by
  have hholds := @hr.holds
  obtain ⟨wants, reading, filled, writing, ready, known, clean, settled, away⟩ := hc
  constructor <;> simp only [State.lock, State.setBuf, State.setRefs, State.setPc]
  · grind [Function.update_apply, Pc.wants]
  · grind [Function.update_apply]
  · grind [Function.update_apply]
  · grind [Function.update_apply]
  · grind [Function.update_apply, Pc.Fetching]
  · grind [Function.update_apply]
  · grind [Function.update_apply]
  · intro c hv hs
    rcases eq_or_ne c b with rfl | hne
    · simp only [Function.update_self] at hv ⊢
      exact settled hv fun q hq => absurd (hfree.symm.trans hq) (by rintro ⟨⟩)
    · simp only [Function.update_of_ne hne] at hv ⊢
      refine settled hv fun q hq => ?_
      obtain ⟨blk', hblk'⟩ := hs q (by simpa only [Function.update_of_ne hne] using hq)
      grind [Function.update_apply]
  · intro blk' hmem
    refine (away hmem).imp_left ?_
    rintro ⟨c, hcb, hv⟩
    exact ⟨c, by grind [Function.update_apply], by grind [Function.update_apply]⟩

/-- The holder of a buffer gives the sleep-lock up, and leaves its data in the block. -/
theorem Contents.unlock (hc : Contents B s) (hr : Refs s) (hu : Unique s) (hdev : ∀ blk ∈ B, blk.dev ≠ 0)
    (hpc : s.pc p = .idle) (hlock : (s.buf b).lock = some p) : Contents B (s.unlock p b) := by
  have hvalid : (s.buf b).valid = true := hc.ready hlock (by rw [hpc, Pc.Fetching]; exact not_false)
  have hother : ∀ {c}, c ≠ b → (s.buf c).toBlockId ≠ (s.buf b).toBlockId :=
    fun hne heq => hne (hu b _ heq.symm (hdev _ (hc.known hvalid))).symm
  have hholds := @hr.holds
  obtain ⟨wants, reading, filled, writing, ready, known, clean, settled, away⟩ := hc
  constructor <;> simp only [State.unlock, State.setBuf, State.setRefs, State.setPc]
  · grind [Function.update_apply, Pc.wants]
  · grind [Function.update_apply]
  · grind [Function.update_apply]
  · grind [Function.update_apply]
  · intro q c hq hfetch
    rcases eq_or_ne c b with rfl | hne
    · simp [Function.update_self] at hq
    · rw [Function.update_of_ne hne] at hq ⊢
      refine ready hq fun hf => hfetch ?_
      grind [Function.update_apply, Pc.Fetching]
  · grind [Function.update_apply]
  · grind [Function.update_apply]
  · intro c hv hs
    rcases eq_or_ne c b with rfl | hne
    · simp only [Function.update_self]
    · simp only [Function.update_of_ne hne] at hv ⊢
      rw [Function.update_of_ne (hother hne)]
      refine settled hv fun q hq => ?_
      obtain ⟨blk', hblk'⟩ := hs q (by simpa only [Function.update_of_ne hne] using hq)
      grind [Function.update_apply]
  · intro blk' hmem
    rcases eq_or_ne blk' (s.buf b).toBlockId with rfl | hne
    · exact Or.inl ⟨b, by simp, by simpa using hvalid⟩
    · rw [Function.update_of_ne hne]
      refine (away hmem).imp_left ?_
      rintro ⟨c, hcb, hv⟩
      exact ⟨c, by grind [Function.update_apply], by grind [Function.update_apply]⟩

omit [DecidableEq P] in
theorem Refs.nil_of_unused (hr : Refs s) (hbound : (s.refs b).length < 2 ^ 32) (h : (s.buf b).refcnt = 0) :
    s.refs b = [] := by
  have hcount := congrArg UInt32.toNat ((hr.count b).symm.trans h)
  rw [UInt32.toNat_ofNat_of_lt' hbound] at hcount
  exact List.length_eq_zero_iff.mp hcount

/-- A buffer that nobody has a reference to gets another block. What it held before is on the disk. -/
theorem Contents.recycle (hc : Contents B s) (hr : Refs s) (hnil : s.refs b = []) (hclean : s.changed b = false)
    (hpc : s.pc p = .idle) (hmem : blk ∈ B) :
    Contents B ((s.recycle b blk (.wait p)).setPc p (.acquiring b blk)) := by
  have hlock : (s.buf b).lock = none := by
    cases hl : (s.buf b).lock with
    | none => rfl
    | some q =>
      have hheld := hr.held hl
      rw [hnil] at hheld
      cases hheld
  have hholds : ∀ {q}, (s.pc q).holds ≠ some b := fun hq => absurd (hlock.symm.trans (hr.holds hq)) nofun
  have hwants : ∀ {q blk'}, (s.pc q).wants ≠ some (b, blk') := by
    intro q blk' hq
    cases hqpc : s.pc q with
    | acquiring c blk'' =>
      rw [hqpc, Pc.wants] at hq
      cases hq
      have hwait := hr.awaited hqpc
      rw [hnil] at hwait
      cases hwait
    | locked | reading | filled =>
      rw [hqpc, Pc.wants] at hq
      cases hq
      exact hholds (by rw [hqpc, Pc.holds])
    | idle | writing | releasing =>
      rw [hqpc, Pc.wants] at hq
      cases hq
  obtain ⟨wants, reading, filled, writing, ready, known, clean, settled, away⟩ := hc
  constructor <;> simp only [State.recycle, State.setBuf, State.setRefs, State.setChanged, State.setPc]
  · grind [Function.update_apply, Pc.wants]
  · grind [Function.update_apply, Pc.holds]
  · grind [Function.update_apply, Pc.holds]
  · grind [Function.update_apply, Pc.holds]
  · intro q c hq hfetch
    rcases eq_or_ne c b with rfl | hne
    · rw [Function.update_self] at hq
      exact absurd (hlock.symm.trans hq) nofun
    · rw [Function.update_of_ne hne] at hq ⊢
      refine ready hq fun hf => hfetch ?_
      grind [Function.update_apply, Pc.Fetching]
  · grind [Function.update_apply]
  · grind [Function.update_apply]
  · intro c hv hs
    rcases eq_or_ne c b with rfl | hne
    · simp [Function.update_self] at hv
    · simp only [Function.update_of_ne hne] at hv ⊢
      refine settled hv fun q hq => ?_
      obtain ⟨blk', hblk'⟩ := hs q (by simpa only [Function.update_of_ne hne] using hq)
      grind [Function.update_apply]
  · intro blk' hmem'
    rcases away hmem' with ⟨c, rfl, hv⟩ | heq
    · rcases eq_or_ne c b with rfl | hne
      · have hdata : (s.buf c).data = s.left (s.buf c).toBlockId :=
          settled hv fun q hq => absurd (hlock.symm.trans hq) nofun
        exact Or.inr ((clean hv hclean).symm.trans hdata)
      · exact Or.inl ⟨c, by simp [Function.update_of_ne hne], by simpa [Function.update_of_ne hne] using hv⟩
    · exact Or.inr heq

/-- What the processes are asked to keep to in a state: no counter wraps around, and a buffer whose counter is 0 has been
    written to the disk after its last change. -/
structure Kept (s : State P α) : Prop where
  bounded : ∀ b, (s.refs b).length < 2 ^ 32
  written : ∀ b, (s.buf b).refcnt = 0 → s.changed b = false

theorem Move.contents (hB : Set.InjOn (fun blk => sector blk.blockno) B) (hdev : ∀ blk ∈ B, blk.dev ≠ 0)
    (hu : Unique s) (hr : Refs s) (hk : Kept s) (ha : ∀ blk, a.asks = some blk → blk ∈ B) (hc : Contents B s)
    (h : Move s a e t) : Contents B t ∧ ∀ blk data, e = .returned blk data → data = s.left blk := by
  cases h with
  | @found p b blk hpc hb =>
    have hblk : ((s.addRef b (.wait p)).buf b).toBlockId = blk := by
      rw [← lookup_found hb]
      exact proj_update Buf.toBlockId (by rfl) b
    refine ⟨Contents.setPc (hc.setRefs _ _) (congrArg Pc.holds hpc) rfl ?_, nofun⟩
    rintro c blk' hwants
    cases hwants
    exact ⟨hblk, ha _ rfl⟩
  | pin => exact ⟨hc.setRefs _ _, nofun⟩
  | unpin => exact ⟨hc.setRefs _ _, nofun⟩
  | @recycle p b blk hpc hmiss hb =>
    have hnil := hr.nil_of_unused (hk.bounded b) (unused_found hb)
    exact ⟨hc.recycle hr hnil (hk.written b (unused_found hb)) hpc (ha _ rfl), nofun⟩
  | write hpc hlock => exact ⟨hc.write hpc hlock, nofun⟩
  | unlock hpc hlock => exact ⟨hc.unlock hr hu hdev hpc hlock, nofun⟩
  | change hpc hlock => exact ⟨hc.change hr hpc hlock _, nofun⟩
  | lock hpc hfree => exact ⟨hc.lock hr hpc hfree, nofun⟩
  | hit hpc hvalid =>
    obtain ⟨hdata, hc'⟩ := hc.hit hr hpc hvalid
    refine ⟨hc', ?_⟩
    rintro blk data ⟨⟩
    exact hdata
  | read hpc hvalid => exact ⟨hc.read hpc hvalid, nofun⟩
  | load hpc => exact ⟨hc.load hr hpc, nofun⟩
  | filled hpc =>
    obtain ⟨hdata, hc'⟩ := hc.fill hr hu hdev hpc
    refine ⟨hc', ?_⟩
    rintro blk data ⟨⟩
    exact hdata
  | store hpc => exact ⟨hc.store hr hu hdev hB hpc, nofun⟩
  | @release p b hpc =>
    obtain ⟨k, hk⟩ := release_eq s p b
    rw [hk]
    refine ⟨Contents.congr (s := (s.dropRef b (.drop p)).setPc p .idle) ?_ (fun _ => rfl) (fun _ => rfl) (fun _ => rfl)
      (fun _ => rfl) rfl rfl rfl rfl, nofun⟩
    exact Contents.setPc (hc.setRefs _ _) (congrArg Pc.holds hpc) rfl nofun
  | noBuffers | spin | notHolding =>
    exact ⟨hc.congr (fun _ => rfl) (fun _ => rfl) (fun _ => rfl) (fun _ => rfl) rfl rfl rfl rfl, nofun⟩

end LabSO.Bcache

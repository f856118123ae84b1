import LabSO.Kernel.Bcache
import Mathlib.Data.Fintype.Card
import Mathlib.Data.Fintype.Option

/-! The steps of the buffer cache one by one, and what they keep whatever the processes do: the list, the blocks that the
    buffers carry, and the references. -/

namespace LabSO.Bcache
open Circular Transition

variable {P α : Type*}

/-! ### The list -/

/-- The pointers form one circular list of the head and all buffers, each once. -/
def Listed (k : Links Node) : Prop := ∃ l, Circle k none l ∧ ∀ b : Fin NBUF, some b ∈ l

theorem length_le {k : Links Node} {l : List Node} (hc : Circle k none l) : l.length < NBUF + 1 := by
  have hcard := hc.nodup.length_le_card
  rw [List.length_cons, Fintype.card_option, Fintype.card_fin] at hcard
  exact hcard

theorem listed_binit (k : Links Node) : Listed (binit k) := by
  have hfold : ∀ (bs : List (Fin NBUF)) (k : Links Node) (l : List Node), Circle k none l → bs.Nodup →
      (∀ b ∈ bs, some b ∉ l) → ∃ l', Circle (bs.foldl (fun k b => k.pushFront none (some b)) k) none l' ∧
        ∀ b, b ∈ bs ∨ some b ∈ l → some b ∈ l' := by
    intro bs
    induction bs with
    | nil => exact fun k l hc _ _ => ⟨l, hc, by simp⟩
    | cons a bs ih =>
      intro k l hc hbs hl
      obtain ⟨ha, hbs⟩ := List.nodup_cons.mp hbs
      have hc' := hc.pushFront (b := some a) (by simpa using hl a List.mem_cons_self)
      have hl' : ∀ b ∈ bs, some b ∉ some a :: l := by
        intro b hb hmem
        rcases List.mem_cons.mp hmem with heq | hmem
        · exact ha (Option.some.inj heq ▸ hb)
        · exact hl b (List.mem_cons_of_mem _ hb) hmem
      obtain ⟨l', hl'c, hmem⟩ := ih _ _ hc' hbs hl'
      refine ⟨l', hl'c, fun b hb => hmem b ?_⟩
      rcases hb with hb | hb
      · rcases List.mem_cons.mp hb with rfl | hb
        · exact Or.inr List.mem_cons_self
        · exact Or.inl hb
      · exact Or.inr (List.mem_cons_of_mem _ hb)
  obtain ⟨l, hc, hmem⟩ := hfold (List.finRange NBUF) ((k.setPrev none none).setNext none none) []
    (.empty (by simp [Links.setNext]) (by simp [Links.setNext, Links.setPrev])) (List.nodup_finRange _) (by simp)
  exact ⟨l, hc, fun b => hmem b (Or.inl (List.mem_finRange b))⟩

theorem Listed.toFront {k : Links Node} (h : Listed k) (b : Fin NBUF) :
    Listed ((k.unlink (some b)).pushFront none (some b)) := by
  obtain ⟨l, hc, hmem⟩ := h
  obtain ⟨l₁, l₂, rfl⟩ := List.append_of_mem (hmem b)
  have hb : some b ∉ none :: (l₁ ++ l₂) := by
    have hnodup := hc.nodup
    rw [← List.cons_append, List.nodup_middle, List.nodup_cons] at hnodup
    exact hnodup.1
  refine ⟨_, hc.unlink.pushFront hb, fun c => ?_⟩
  have hcm := hmem c
  rw [List.mem_append, List.mem_cons] at hcm
  rw [List.mem_cons, List.mem_append]
  tauto

theorem search_some {next : Node → Node} {p : Fin NBUF → Bool} {b : Fin NBUF} (h : search next p = some (some b)) :
    p b = true := by
  obtain ⟨o, ho, hb⟩ := Option.map_eq_some_iff.mp h
  obtain rfl : o = some (some b) := Option.join_eq_some_iff.mp hb
  simpa using walk_some ho

/-- On the circular list a search ends, and it finds a buffer if there is one. -/
theorem Listed.search_next {k : Links Node} (h : Listed k) (p : Fin NBUF → Bool) :
    ∃ o, search k.next p = some o ∧ (o = none → ∀ b, p b = false) := by
  obtain ⟨l, hc, hmem⟩ := h
  refine ⟨_, congrArg (Option.map Option.join) (hc.walk_next (length_le hc)), fun hnone b => ?_⟩
  cases hfind : l.find? (fun n => n.any p) with
  | none => simpa using List.find?_eq_none.mp hfind _ (hmem b)
  | some n =>
    rw [hfind] at hnone
    have hn := List.find?_some hfind
    rw [show n = none from hnone] at hn
    cases hn

theorem Listed.search_prev {k : Links Node} (h : Listed k) (p : Fin NBUF → Bool) :
    ∃ o, search k.prev p = some o ∧ (o = none → ∀ b, p b = false) := by
  obtain ⟨l, hc, hmem⟩ := h
  have hflip : Listed k.flip := ⟨_, hc.flip, fun b => List.mem_reverse.mpr (hmem b)⟩
  exact hflip.search_next p

variable {s t : State P α} {a : Action P α} {e : Event α} {p q : P} {b c : Fin NBUF} {blk : BlockId}

theorem lookup_found (h : s.lookup blk = some (some b)) : (s.buf b).toBlockId = blk := by
  simpa using search_some h

theorem lookup_missed (hs : Listed s.links) (h : s.lookup blk = some none) : (s.buf b).toBlockId ≠ blk := by
  obtain ⟨o, ho, hnone⟩ := hs.search_next fun b => (s.buf b).toBlockId == blk
  obtain rfl : o = none := Option.some.inj (ho.symm.trans h)
  simpa using hnone rfl b

theorem unused_found (h : s.unused = some (some b)) : (s.buf b).refcnt = 0 := by
  simpa using search_some h

theorem unused_missed (hs : Listed s.links) (h : s.unused = some none) : (s.buf b).refcnt ≠ 0 := by
  obtain ⟨o, ho, hnone⟩ := hs.search_prev fun b => (s.buf b).refcnt == 0
  obtain rfl : o = none := Option.some.inj (ho.symm.trans h)
  simpa using hnone rfl b

/-- A buffer is replaced by one that agrees with it in `g`. -/
theorem proj_update {γ : Type*} (g : Buf P α → γ) {x : Buf P α} (hx : g x = g (s.buf b)) (c : Fin NBUF) :
    g (Function.update s.buf b x c) = g (s.buf c) := by
  rcases eq_or_ne c b with rfl | hne
  · rw [Function.update_self, hx]
  · rw [Function.update_of_ne hne]

/-! ### Steps -/

variable [DecidableEq P]

/-- What the steps of the cache do. -/
inductive Move (s : State P α) : Action P α → Event α → State P α → Prop
  | found {p : P} {b : Fin NBUF} {blk : BlockId} (hpc : s.pc p = .idle) (hb : s.lookup blk = some (some b)) :
      Move s (.call p (.bread blk)) .silent ((s.addRef b (.wait p)).setPc p (.acquiring b blk))
  | recycle {p : P} {b : Fin NBUF} {blk : BlockId} (hpc : s.pc p = .idle) (hmiss : s.lookup blk = some none) (hb : s.unused = some (some b)) :
      Move s (.call p (.bread blk)) .silent ((s.recycle b blk (.wait p)).setPc p (.acquiring b blk))
  | noBuffers {p : P} {blk : BlockId} (hmiss : s.lookup blk = some none) (hb : s.unused = some none) :
      Move s (.call p (.bread blk)) .silent (s.halt (.panic "bget: no buffers"))
  | spin {p : P} {blk : BlockId} (h : s.lookup blk = none ∨ s.unused = none) : Move s (.call p (.bread blk)) .silent (s.halt .spin)
  | notHolding {p : P} {c : Call α} {msg : String} (hmsg : msg ≠ "bget: no buffers") : Move s (.call p c) .silent (s.halt (.panic msg))
  | write {p : P} {b : Fin NBUF} (hpc : s.pc p = .idle) (hlock : (s.buf b).lock = some p) :
      Move s (.call p (.bwrite b)) .silent (s.setPc p (.writing b (sector (s.buf b).blockno)))
  | unlock {p : P} {b : Fin NBUF} (hpc : s.pc p = .idle) (hlock : (s.buf b).lock = some p) :
      Move s (.call p (.brelse b)) .silent (s.unlock p b)
  | pin {p : P} {b : Fin NBUF} : Move s (.call p (.bpin b)) .silent (s.addRef b .pin)
  | unpin {p : P} {b : Fin NBUF} (hpin : .pin ∈ s.refs b) : Move s (.call p (.bunpin b)) .silent (s.dropRef b .pin)
  | change {p : P} {b : Fin NBUF} {data : α} (hpc : s.pc p = .idle) (hlock : (s.buf b).lock = some p) :
      Move s (.call p (.change b data)) .silent ((s.setBuf b { s.buf b with data }).setChanged b true)
  | lock {p : P} {b : Fin NBUF} {blk : BlockId} (hpc : s.pc p = .acquiring b blk) (hfree : (s.buf b).lock = none) :
      Move s (.next p) .silent (s.lock p b blk)
  | hit {p : P} {b : Fin NBUF} {blk : BlockId} (hpc : s.pc p = .locked b blk) (hvalid : (s.buf b).valid = true) :
      Move s (.next p) (.returned blk (s.buf b).data) (s.setPc p .idle)
  | read {p : P} {b : Fin NBUF} {blk : BlockId} (hpc : s.pc p = .locked b blk) (hvalid : (s.buf b).valid = false) :
      Move s (.next p) .silent (s.setPc p (.reading b blk (sector (s.buf b).blockno)))
  | load {p : P} {b : Fin NBUF} {blk : BlockId} {at' : UInt64} (hpc : s.pc p = .reading b blk at') :
      Move s (.next p) .silent ((s.load b at').setPc p (.filled b blk))
  | filled {p : P} {b : Fin NBUF} {blk : BlockId} (hpc : s.pc p = .filled b blk) :
      Move s (.next p) (.returned blk (s.buf b).data) ((s.setBuf b { s.buf b with valid := true }).setPc p .idle)
  | store {p : P} {b : Fin NBUF} {at' : UInt64} (hpc : s.pc p = .writing b at') : Move s (.next p) .silent ((s.store b at').setPc p .idle)
  | release {p : P} {b : Fin NBUF} (hpc : s.pc p = .releasing b) : Move s (.next p) .silent (s.release p b)

theorem move_bget (hpc : s.pc p = .idle) : Move s (.call p (.bread blk)) .silent (s.bget p blk) := by
  rw [State.bget]
  split
  · exact .spin (Or.inl ‹_›)
  · exact .found hpc ‹_›
  · split
    · exact .spin (Or.inr ‹_›)
    · exact .recycle hpc ‹_› ‹_›
    · exact .noBuffers ‹_› ‹_›

theorem move_enter {c : Call α} (hpc : s.pc p = .idle) (h : s.enter p c = some t) : Move s (.call p c) .silent t := by
  cases c with
  | bread blk =>
    cases h
    exact move_bget hpc
  | bwrite b =>
    rw [State.enter] at h
    split at h <;> cases h
    · exact .write hpc ‹_›
    · exact .notHolding (by decide)
  | brelse b =>
    rw [State.enter] at h
    split at h <;> cases h
    · exact .unlock hpc ‹_›
    · exact .notHolding (by decide)
  | bpin b =>
    cases h
    exact .pin
  | bunpin b =>
    rw [State.enter] at h
    split at h <;> cases h
    exact .unpin ‹_›
  | change b data =>
    rw [State.enter] at h
    split at h <;> cases h
    exact .change hpc ‹_›

theorem move_continue (h : s.continue p = some (e, t)) : Move s (.next p) e t := by
  rw [State.continue] at h
  split at h
  · cases h
  · split at h <;> cases h
    exact .lock ‹_› ‹_›
  · split at h <;> cases h
    · exact .hit ‹_› ‹_›
    · exact .read ‹_› (Bool.eq_false_of_not_eq_true ‹_›)
  · cases h
    exact .load ‹_›
  · cases h
    exact .filled ‹_›
  · cases h
    exact .store ‹_›
  · cases h
    exact .release ‹_›

theorem move_of_step {l : Action P α × Event α} (h : Step s l t) : Move s l.1 l.2 t := by
  obtain ⟨a, e⟩ := l
  have hstep : step s a = some (e, t) := h
  unfold step at hstep
  split at hstep
  · cases hstep
  · split at hstep
    · split at hstep
      · obtain ⟨u, hu, heq⟩ := Option.map_eq_some_iff.mp hstep
        cases heq
        exact move_enter ‹_› hu
      · cases hstep
    · exact move_continue hstep

theorem running_of_step {l : Action P α × Event α} (h : Step s l t) : s.halted = none := by
  have hstep : step s l.1 = some (l.2, t) := h
  rw [step.eq_def] at hstep
  split at hstep
  · cases hstep
  · exact Option.not_isSome_iff_eq_none.mp ‹_›

/-! ### The list and the blocks along a run -/

theorem Move.listed (hs : Listed s.links) (h : Move s a e t) : Listed t.links := by
  cases h with
  | release =>
    show Listed (ite _ (State.toFront _ _) _ : State P α).links
    split
    · exact hs.toFront _
    · exact hs
  | _ => exact hs

/-- At most one buffer carries any given block; the device number 0 is that of the buffers that carry none yet. -/
def Unique (s : State P α) : Prop :=
  ∀ b c, (s.buf b).toBlockId = (s.buf c).toBlockId → (s.buf b).dev ≠ 0 → b = c

/-- A step gives a block to at most one buffer, which is unused and takes the block that is asked for. -/
theorem Move.block (h : Move s a e t) : (t.buf c).toBlockId = (s.buf c).toBlockId ∨
    (s.buf c).refcnt = 0 ∧ ∃ p, a = .call p (.bread (t.buf c).toBlockId) ∧ s.lookup (t.buf c).toBlockId = some none ∧
      ∀ d, d ≠ c → (t.buf d).toBlockId = (s.buf d).toBlockId := by
  cases h with
  | @recycle p b blk hpc hmiss hb =>
    rcases eq_or_ne c b with rfl | hne
    · refine Or.inr ⟨unused_found hb, p, ?_⟩
      have hblk : (((s.recycle c blk (.wait p)).setPc p (.acquiring c blk)).buf c).toBlockId = blk := by
        show (Function.update s.buf c _ c).toBlockId = blk
        rw [Function.update_self]
      rw [hblk]
      refine ⟨rfl, hmiss, fun d hd => ?_⟩
      show (Function.update s.buf c _ d).toBlockId = _
      rw [Function.update_of_ne hd]
    · refine Or.inl ?_
      show (Function.update s.buf b _ c).toBlockId = _
      rw [Function.update_of_ne hne]
  | release =>
    refine Or.inl ?_
    show (Buf.toBlockId ((ite _ (State.toFront _ _) _ : State P α).buf c)) = _
    split
    · exact proj_update Buf.toBlockId (by rfl) c
    · exact proj_update Buf.toBlockId (by rfl) c
  | found | pin | unpin | unlock | change | lock | load | filled => exact Or.inl (proj_update Buf.toBlockId (by rfl) c)
  | _ => exact Or.inl rfl

theorem Move.unique (hs : Listed s.links) (hunique : Unique s) (h : Move s a e t) : Unique t := by
  intro b c heq hdev
  rcases h.block (c := b) with hb | ⟨-, p, -, hmiss, hother⟩
  · rcases h.block (c := c) with hc | ⟨-, p, -, hmiss, hother⟩
    · exact hunique b c (hb.symm.trans (heq.trans hc)) (congrArg BlockId.dev hb ▸ hdev)
    · by_contra hne
      exact lookup_missed hs hmiss (hb.symm.trans heq)
  · by_contra hne
    exact lookup_missed hs hmiss ((hother c (Ne.symm hne)).symm.trans heq.symm)

/-! ### References -/

/-- The buffer whose sleep-lock a process holds in the middle of a function. -/
def Pc.holds : Pc → Option (Fin NBUF)
  | .locked b _ | .reading b _ _ | .filled b _ | .writing b _ => some b
  | .idle | .acquiring _ _ | .releasing _ => none

/-- Whoever waits for a sleep-lock, holds it or has just given it up has a reference, and `refcnt` counts the references
    modulo 2^32. -/
structure Refs (s : State P α) : Prop where
  holds : ∀ {p b}, (s.pc p).holds = some b → (s.buf b).lock = some p
  awaited : ∀ {p b blk}, s.pc p = .acquiring b blk → .wait p ∈ s.refs b
  dropped : ∀ {p b}, s.pc p = .releasing b → .drop p ∈ s.refs b
  held : ∀ {p b}, (s.buf b).lock = some p → .hold p ∈ s.refs b
  count : ∀ b, (s.buf b).refcnt = .ofNat (s.refs b).length

omit [DecidableEq P] in
theorem refs_init (k : Links Node) (zero : α) (disk : UInt64 → α) : Refs (State.init k zero disk : State P α) where
  holds := nofun
  awaited := nofun
  dropped := nofun
  held := nofun
  count _ := rfl

section Lists
variable {l : List (Ref P)} {r r' : Ref P}

theorem length_replace (h : r ∈ l) : (r' :: l.erase r).length = l.length := by
  rw [List.length_cons, List.length_erase_of_mem h, Nat.sub_add_cancel (List.length_pos_of_mem h)]

theorem ofNat_erase (h : r ∈ l) : UInt32.ofNat (l.erase r).length = .ofNat l.length - 1 := by
  obtain ⟨n, hn⟩ := Nat.exists_eq_add_one.mpr (List.length_pos_of_mem h)
  rw [List.length_erase_of_mem h, hn, UInt32.ofNat_add]
  simp

end Lists

theorem release_eq (s : State P α) (p : P) (b : Fin NBUF) :
    ∃ k, s.release p b = { (s.dropRef b (.drop p)).setPc p .idle with links := k } := by
  rw [State.release]
  split
  · exact ⟨_, rfl⟩
  · exact ⟨_, rfl⟩

theorem Move.refs (hr : Refs s) (h : Move s a e t) : Refs t := by
  obtain ⟨holds, awaited, dropped, held, count⟩ := hr
  cases h with
  | found | pin =>
    constructor <;> simp only [State.addRef, State.setBuf, State.setRefs, State.setPc] <;>
      grind [Pc.holds, Function.update_apply, UInt32.ofNat_add]
  | recycle hpc hmiss hb =>
    -- the counter was 0, so the number of references is a multiple of 2^32
    have hzero := unused_found hb
    constructor <;> simp only [State.recycle, State.setBuf, State.setRefs, State.setChanged, State.setPc] <;>
      grind [Pc.holds, Function.update_apply, UInt32.ofNat_add]
  | unlock hpc hlock =>
    constructor <;> simp only [State.unlock, State.setBuf, State.setRefs, State.setPc] <;>
      grind [Pc.holds, Function.update_apply, length_replace]
  | unpin hpin =>
    constructor <;> simp only [State.dropRef, State.setBuf, State.setRefs] <;>
      grind [Pc.holds, Function.update_apply, ofNat_erase]
  | lock hpc hfree =>
    constructor <;> simp only [State.lock, State.setBuf, State.setRefs, State.setPc] <;>
      grind [Pc.holds, Function.update_apply, length_replace]
  | @release p b hpc =>
    obtain ⟨k, hk⟩ := release_eq s p b
    have hdrop := dropped hpc
    rw [hk]
    constructor <;> simp only [State.dropRef, State.setBuf, State.setRefs, State.setPc] <;>
      grind [Pc.holds, Function.update_apply, ofNat_erase]
  | write | change | hit | read | load | filled | store =>
    constructor <;> simp only [State.load, State.store, State.setChanged, State.setBuf, State.setPc] <;>
      grind [Pc.holds, Function.update_apply]
  | noBuffers | spin | notHolding => exact ⟨holds, awaited, dropped, held, count⟩

end LabSO.Bcache

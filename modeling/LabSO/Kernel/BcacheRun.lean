import LabSO.Kernel.BcacheData

/-! Runs of the buffer cache: its list and its blocks in all of them, and what `bread` returns. -/

namespace LabSO.Bcache
open Circular Transition

variable {P α : Type*} [DecidableEq P] {k : Links Node} {zero : α} {disk : UInt64 → α} {ls : List (Action P α × Event α)}

/-- `bread` returns what was left in the block. -/
def Event.Left (left : BlockId → α) : Event α → Prop
  | .silent => True
  | .returned blk data => data = left blk

instance [DecidableEq α] (left : BlockId → α) (e : Event α) : Decidable (e.Left left) :=
  match e with
  | .silent => inferInstanceAs (Decidable True)
  | .returned _ _ => inferInstanceAs (Decidable (_ = _))

/-- The cache between two steps, whatever the processes do. -/
structure Sound (s : State P α) : Prop where
  listed : Listed s.links
  unique : Unique s
  refs : Refs s

omit [DecidableEq P] in
theorem sound_init : Sound (State.init k zero disk : State P α) where
  listed := listed_binit k
  unique _ _ _ h := absurd rfl h
  refs := refs_init k zero disk

theorem Sound.step {s t : State P α} {l : Action P α × Event α} (hs : Sound s) (h : Step s l t) : Sound t where
  listed := (move_of_step h).listed hs.listed
  unique := (move_of_step h).unique hs.listed hs.unique
  refs := (move_of_step h).refs hs.refs

theorem sound_run {t : State P α} (h : Run Step (.init k zero disk) ls t) : Sound t :=
  h.invariant (fun _ _ _ hs hstep => hs.step hstep) sound_init

theorem contents_run {B : Set BlockId} {t : State P α} (hsub : asked ls ⊆ B) (hdev : ∀ blk ∈ B, blk.dev ≠ 0)
    (hB : Set.InjOn (fun blk => sector blk.blockno) B) (hkept : AllSteps Step (.init k zero disk) ls fun s _ => Kept s)
    (h : Run Step (.init k zero disk) ls t) : Contents B t := by
  have hasked : AllSteps Step (.init k zero disk) ls fun _ l => ∀ blk, l.1.asks = some blk → blk ∈ B :=
    AllSteps.of_mem fun l hl _ blk hblk => hsub ⟨l, hl, hblk⟩
  have hstep : ∀ (s : State P α) l u, Sound s ∧ Contents B s →
      (Kept s ∧ ∀ blk, l.1.asks = some blk → blk ∈ B) → Step s l u → Sound u ∧ Contents B u := by
    rintro s l u ⟨hs, hc⟩ ⟨hk, ha⟩ hstep
    exact ⟨hs.step hstep, ((move_of_step hstep).contents hB hdev hs.unique hs.refs hk ha hc).1⟩
  exact ((hkept.and hasked).invariant hstep ⟨sound_init, contents_init k zero disk⟩ h).2

/-- In every run the pointers form one circular list of the head and the buffers, no two buffers carry the same block, and
    a buffer that is referred to keeps its block. If also no two of the blocks that the run asks for are in one place of
    the disk, no reference counter wraps around, and buffers are given up written to the disk, then `bread` returns what
    the last holder left in the block. -/
theorem bcache_run {k : Links Node} {zero : α} {disk : UInt64 → α} {ls : List (Action P α × Event α)} {t : State P α}
    (hrun : Run Step (.init k zero disk) ls t) (hdev : ∀ blk ∈ asked ls, blk.dev ≠ 0) :
    AllStates Step (.init k zero disk) ls (fun s => Listed s.links ∧ Unique s) ∧
      (∀ ms l s u, ms ++ [l] <+: ls → Run Step (.init k zero disk) ms s → Step s l u →
        ∀ b, 0 < (s.buf b).refcnt → (u.buf b).toBlockId = (s.buf b).toBlockId) ∧
      (Set.InjOn (fun blk => sector blk.blockno) (asked ls) → AllSteps Step (.init k zero disk) ls (fun s _ => Kept s) →
        AllSteps Step (.init k zero disk) ls fun s l => l.2.Left s.left) := by
  refine ⟨?_, ?_, ?_⟩
  · intro ms s _ hs
    exact ⟨(sound_run hs).listed, (sound_run hs).unique⟩
  · intro ms l s u _ _ hstep b hb
    rcases (move_of_step hstep).block (c := b) with heq | ⟨hzero, -⟩
    · exact heq
    · rw [hzero] at hb
      exact absurd hb (by decide)
  · intro hB hkept ms l s hms hs
    have hdet : ∀ (s : State P α) l t u, Step s l t → Step s l u → t = u := fun _ _ _ _ => ofStep_det
    obtain ⟨u, hstep⟩ := hrun.step_of_prefix hdet hms hs
    have hsub : asked ms ⊆ asked ls := by
      rintro blk ⟨m, hmem, hblk⟩
      exact ⟨m, hms.subset (List.mem_append_left _ hmem), hblk⟩
    have hc := contents_run hsub hdev hB (hkept.of_prefix ((List.prefix_append _ _).trans hms)) hs
    have hask : ∀ blk, l.1.asks = some blk → blk ∈ asked ls := fun blk hblk => ⟨l, hms.subset (by simp), hblk⟩
    have hk : Kept s := hkept ms l s hms hs
    obtain ⟨-, hdata⟩ := (move_of_step hstep).contents hB hdev (sound_run hs).unique (sound_run hs).refs hk hask hc
    cases he : l.2 with
    | silent => trivial
    | returned blk data => exact hdata blk data he

/-- Process 0 reads the block, changes it to 7, writes it and releases its buffer. -/
def rewrite (blk : BlockId) : List (Action Nat UInt8) :=
  [.call 0 (.bread blk), .next 0, .next 0, .next 0, .next 0, .call 0 (.change 0 7), .call 0 (.bwrite 0), .next 0,
    .call 0 (.brelse 0), .next 0]

/-- All blocks of the disk are zero. -/
def blank : State Nat UInt8 := .init ⟨id, id⟩ 0 fun _ => 0

/-- Process 1 reads the block that process 0 has rewritten. -/
def reread : List (Action Nat UInt8) := rewrite ⟨1, 5⟩ ++ [.call 1 (.bread ⟨1, 5⟩), .next 1, .next 1]

instance (s : State P α) : Decidable (Kept s) :=
  decidable_of_iff (∀ b, (s.refs b).length < 2 ^ 32 ∧ ((s.buf b).refcnt = 0 → s.changed b = false))
    ⟨fun h => ⟨fun b => (h b).1, fun b => (h b).2⟩, fun h b => ⟨h.bounded b, h.written b⟩⟩

theorem exec_reread : (exec step blank reread).isSome := by decide +kernel

theorem bcache_run_reread : ∃ ls t, Run Step blank ls t ∧ AllSteps Step blank ls (fun s l => l.2.Left s.left) ∧
    (.next 1, .returned ⟨1, 5⟩ 7) ∈ ls := by
  have hasked : ∀ l ∈ ((exec step blank reread).get exec_reread).1, ∀ blk ∈ l.1.asks, blk = ⟨1, 5⟩ := by decide +kernel
  have hkept : ∀ x ∈ steps step blank reread, Kept x.1 := by decide +kernel
  refine ⟨_, _, run_exec exec_reread, (bcache_run (run_exec exec_reread) ?_).2.2 ?_ (allSteps_exec exec_reread hkept),
    by decide +kernel⟩
  · rintro blk ⟨l, hl, hblk⟩
    rw [hasked l hl blk hblk]
    decide
  · rintro blk ⟨l, hl, hblk⟩ blk' ⟨l', hl', hblk'⟩ -
    rw [hasked l hl blk hblk, hasked l' hl' blk' hblk']

/-! ### Runs in which `bread` returns something else -/

/-- The start of a run that is about to read two blocks with one process and one of them with 2^32 processes: process 1
    holds a buffer for block 5, and has not looked at it yet. The disk has its number in each sector. -/
def numbered : State Nat UInt64 := .init ⟨id, id⟩ 0 id

/-- `n` more processes than process 1 have asked for block 5. -/
structure Crowded (n : Nat) (s : State Nat UInt64) : Prop where
  running : s.halted = none
  links : s.links = numbered.links
  first : s.buf 0 = { dev := 1, blockno := 5, valid := false, lock := some 1, refcnt := .ofNat (n + 1), data := 0 }
  others : ∀ b, b ≠ 0 → s.buf b = numbered.buf b
  holder : s.pc 1 = .locked 0 ⟨1, 5⟩
  idle : ∀ p, p = 0 ∨ n + 1 < p → s.pc p = .idle
  disk : s.disk = id
  left : s.left = numbered.left

theorem Crowded.lookup_five {n : Nat} {s : State Nat UInt64} (h : Crowded n s) : s.lookup ⟨1, 5⟩ = some (some 0) := by
  have hblk : (fun b => (s.buf b).toBlockId == ⟨1, 5⟩) = fun b => b == 0 := by
    funext b
    rcases eq_or_ne b 0 with rfl | hne
    · rw [h.first]
      rfl
    · rw [h.others b hne, beq_eq_false_iff_ne.mpr hne]
      rfl
  rw [State.lookup, hblk, h.links]
  decide +kernel

theorem Crowded.lookup_six {n : Nat} {s : State Nat UInt64} (h : Crowded n s) : s.lookup ⟨1, 6⟩ = some none := by
  have hblk : (fun b => (s.buf b).toBlockId == ⟨1, 6⟩) = fun _ => false := by
    funext b
    rcases eq_or_ne b 0 with rfl | hne
    · rw [h.first]
      rfl
    · rw [h.others b hne]
      rfl
  rw [State.lookup, hblk, h.links]
  decide +kernel

theorem Crowded.unused {s : State Nat UInt64} (h : Crowded (2 ^ 32 - 1) s) : s.unused = some (some 0) := by
  have hzero : (fun b => (s.buf b).refcnt == 0) = fun _ => true := by
    funext b
    rcases eq_or_ne b 0 with rfl | hne
    · rw [h.first]
      rfl
    · rw [h.others b hne]
      rfl
  rw [State.unused, hzero, h.links]
  decide +kernel

/-- The labels of the run: process 1 gets its buffer, and the processes from 2 on ask for the same block. -/
def crowdOf (n : Nat) : List (Action Nat UInt64 × Event UInt64) :=
  [(.call 1 (.bread ⟨1, 5⟩), .silent), (.next 1, .silent)] ++
    (List.range n).map fun i => (.call (i + 2) (.bread ⟨1, 5⟩), .silent)

theorem step_call {s t : State P α} {p : P} {c : Call α} (hrun : s.halted = none) (hpc : s.pc p = .idle)
    (h : s.enter p c = some t) : Step s (.call p c, .silent) t := by
  show step s (.call p c) = _
  rw [step, hrun, hpc, h]
  rfl

theorem step_next {s t : State P α} {p : P} {e : Event α} (hrun : s.halted = none)
    (h : s.continue p = some (e, t)) : Step s (.next p, e) t := by
  show step s (.next p) = _
  rw [step, hrun]
  exact h

theorem run_crowded (n : Nat) : ∃ s, Run Step numbered (crowdOf n) s ∧ Crowded n s := by
  induction n with
  | zero =>
    have hlookup : numbered.lookup ⟨1, 5⟩ = some none := by decide +kernel
    have hunused : numbered.unused = some (some 0) := by decide +kernel
    have hbread : Step numbered (.call 1 (.bread ⟨1, 5⟩), .silent)
        ((numbered.recycle 0 ⟨1, 5⟩ (.wait 1)).setPc 1 (.acquiring 0 ⟨1, 5⟩)) := by
      refine step_call rfl rfl ?_
      rw [State.enter, State.bget, hlookup, hunused]
    refine ⟨_, (Run.single hbread).tail (step_next rfl rfl), ?_⟩
    exact
      { running := rfl
        links := rfl
        first := rfl
        others b hb := (Function.update_of_ne hb ..).trans (Function.update_of_ne hb ..)
        holder := rfl
        idle p hp := by
          have hne : p ≠ 1 := by omega
          exact (Function.update_of_ne hne ..).trans (Function.update_of_ne hne ..)
        disk := rfl
        left := rfl }
  | succ n ih =>
    obtain ⟨s, hrun, hs⟩ := ih
    have hstep : Step s (.call (n + 2) (.bread ⟨1, 5⟩), .silent)
        ((s.addRef 0 (.wait (n + 2))).setPc (n + 2) (.acquiring 0 ⟨1, 5⟩)) := by
      refine step_call hs.running (hs.idle _ (by omega)) ?_
      rw [State.enter, State.bget, hs.lookup_five]
    have hcrowd : crowdOf (n + 1) = crowdOf n ++ [(.call (n + 2) (.bread ⟨1, 5⟩), .silent)] := by
      simp [crowdOf, List.range_succ]
    refine ⟨_, hcrowd ▸ hrun.tail hstep, ?_⟩
    exact
      { running := hs.running
        links := hs.links
        first := by
          rw [UInt32.ofNat_add (n + 1) 1]
          simp [State.addRef, State.setBuf, State.setRefs, State.setPc, hs.first]
        others b hb := (Function.update_of_ne hb ..).trans (hs.others b hb)
        holder := by
          have hne : 1 ≠ n + 2 := by omega
          simpa [State.addRef, State.setBuf, State.setRefs, State.setPc, Function.update_of_ne hne] using hs.holder
        idle p hp := by
          have hne : p ≠ n + 2 := by omega
          exact (Function.update_of_ne hne ..).trans (hs.idle p (by omega))
        disk := hs.disk
        left := hs.left }

/-- The end of the run: process 0 takes the buffer of process 1 for block 6, and process 1 reads the disk. -/
def wrapped : List (Action Nat UInt64 × Event UInt64) :=
  [(.call 0 (.bread ⟨1, 6⟩), .silent), (.next 1, .silent), (.next 1, .silent), (.next 1, .returned ⟨1, 5⟩ 12)]

/-- When the counter of the buffer has wrapped around to 0, process 1 gets block 6 for block 5. -/
theorem run_wrapped : ∃ t, Run Step numbered (crowdOf (2 ^ 32 - 1) ++ wrapped) t ∧
    ¬AllSteps Step numbered (crowdOf (2 ^ 32 - 1) ++ wrapped) fun s l => l.2.Left s.left := by
  obtain ⟨s, hrun, hs⟩ := run_crowded (2 ^ 32 - 1)
  have hbread : Step s (.call 0 (.bread ⟨1, 6⟩), .silent)
      ((s.recycle 0 ⟨1, 6⟩ (.wait 0)).setPc 0 (.acquiring 0 ⟨1, 6⟩)) := by
    refine step_call hs.running (hs.idle 0 (Or.inl rfl)) ?_
    rw [State.enter, State.bget, hs.lookup_six, hs.unused]
  have hpc : ((s.recycle 0 ⟨1, 6⟩ (.wait 0)).setPc 0 (.acquiring 0 ⟨1, 6⟩)).pc 1 = .locked 0 ⟨1, 5⟩ := by
    simpa [State.recycle, State.setBuf, State.setRefs, State.setChanged, State.setPc] using hs.holder
  have hbuf : ((s.recycle 0 ⟨1, 6⟩ (.wait 0)).setPc 0 (.acquiring 0 ⟨1, 6⟩)).buf 0 =
      { dev := 1, blockno := 6, valid := false, lock := some 1, refcnt := 1, data := 0 } := by
    simp [State.recycle, State.setBuf, State.setRefs, State.setChanged, State.setPc, hs.first]
  have hdisk : ((s.recycle 0 ⟨1, 6⟩ (.wait 0)).setPc 0 (.acquiring 0 ⟨1, 6⟩)).disk 12 = 12 := congrFun hs.disk 12
  generalize hu : (s.recycle 0 ⟨1, 6⟩ (.wait 0)).setPc 0 (.acquiring 0 ⟨1, 6⟩) = u at hbread hpc hbuf hdisk
  have hrunning : u.halted = none := hu ▸ hs.running
  have hleft : u.left = numbered.left := hu ▸ hs.left
  have hread : Step u (.next 1, .silent) (u.setPc 1 (.reading 0 ⟨1, 5⟩ 12)) := by
    refine step_next hrunning ?_
    rw [State.continue, hpc]
    simp [hbuf, sector]
  have hload : Step (u.setPc 1 (.reading 0 ⟨1, 5⟩ 12)) (.next 1, .silent)
      (((u.setPc 1 (.reading 0 ⟨1, 5⟩ 12)).load 0 12).setPc 1 (.filled 0 ⟨1, 5⟩)) := step_next hrunning rfl
  have hreturn : ∃ t, Step (((u.setPc 1 (.reading 0 ⟨1, 5⟩ 12)).load 0 12).setPc 1 (.filled 0 ⟨1, 5⟩))
      (.next 1, .returned ⟨1, 5⟩ 12) t := by
    refine ⟨_, step_next hrunning (congrArg some (Prod.ext ?_ rfl))⟩
    show Event.returned _ (Function.update u.buf 0 { u.buf 0 with data := u.disk 12 } 0).data = _
    rw [Function.update_self, hdisk]
  obtain ⟨t, hreturn⟩ := hreturn
  have hend := ((hrun.tail hbread).tail hread).tail hload
  have hwhole := hend.tail hreturn
  simp only [List.append_assoc, List.cons_append, List.nil_append] at hend hwhole
  refine ⟨t, hwhole, fun hall => ?_⟩
  have heq := hall (crowdOf (2 ^ 32 - 1) ++ [(.call 0 (.bread ⟨1, 6⟩), .silent), (.next 1, .silent), (.next 1, .silent)])
    (.next 1, .returned ⟨1, 5⟩ 12) _ (by simp [wrapped]) hend
  have hfive : (12 : UInt64) = u.left ⟨1, 5⟩ := heq
  rw [hleft] at hfive
  exact absurd hfive (by decide)

theorem Move.changed {s t : State P α} {a : Action P α} {e : Event α} {b : Fin NBUF} (h : Move s a e t)
    (ha : ∀ p data, a ≠ .call p (.change b data)) (hb : s.changed b = false) : t.changed b = false := by
  cases h with
  | @recycle p c blk hpc hmiss hc =>
    rcases eq_or_ne b c with rfl | hne
    · exact Function.update_self ..
    · exact (Function.update_of_ne hne ..).trans hb
  | @store p c at' hpc =>
    rcases eq_or_ne b c with rfl | hne
    · exact Function.update_self ..
    · exact (Function.update_of_ne hne ..).trans hb
  | @change p c data hpc hlock =>
    have hne : b ≠ c := by
      rintro rfl
      exact ha p data rfl
    exact (Function.update_of_ne hne ..).trans hb
  | @release p c hpc =>
    obtain ⟨k, hk⟩ := release_eq s p c
    rw [hk]
    exact hb
  | _ => exact hb

/-- Process 1 reads a block after block 5 of device 1 was rewritten. -/
def readAlias (blk : BlockId) : List (Action Nat UInt8) :=
  rewrite ⟨1, 5⟩ ++ [.call 1 (.bread blk), .next 1, .next 1, .next 1, .next 1]

theorem alias_not_left {blk : BlockId} (h : (exec step blank (readAlias blk)).isSome)
    (hkept : ∀ x ∈ steps step blank (readAlias blk), Kept x.1)
    (hleft : ¬∀ x ∈ steps step blank (readAlias blk), x.2.2.Left x.1.left) :
    ∃ ls t, Run Step blank ls t ∧ asked ls ⊆ {⟨1, 5⟩, blk} ∧ AllSteps Step blank ls (fun s _ => Kept s) ∧
      ¬AllSteps Step blank ls fun s l => l.2.Left s.left := by
  obtain ⟨⟨ls, t⟩, hexec⟩ := Option.isSome_iff_exists.mp h
  refine ⟨ls, t, run_of_exec hexec, ?_, allSteps_of_exec hexec hkept, fun hall => hleft (hall.of_exec hexec)⟩
  rintro blk' ⟨l, hl, hblk⟩
  have hmem := List.mem_map_of_mem (f := Prod.fst) hl
  rw [map_fst_of_exec hexec] at hmem
  generalize l.1 = a at hmem hblk
  simp only [readAlias, rewrite, List.cons_append, List.nil_append, List.mem_cons, List.not_mem_nil, or_false] at hmem
  rcases hmem with rfl | rfl | rfl | rfl | rfl | rfl | rfl | rfl | rfl | rfl | rfl | rfl | rfl | rfl | rfl <;> cases hblk
  · exact Or.inl rfl
  · exact Or.inr rfl

theorem mem_crowd {n : Nat} {l : Action Nat UInt64 × Event UInt64} (h : l ∈ crowdOf n ++ wrapped) :
    (∃ p blk, l.1 = .call p (.bread blk) ∧ (blk = ⟨1, 5⟩ ∨ blk = ⟨1, 6⟩)) ∨ l.1 = .next 1 := by
  simp only [crowdOf, wrapped, List.cons_append, List.nil_append, List.mem_append, List.mem_cons, List.mem_map,
    List.not_mem_nil, or_false] at h
  rcases h with rfl | rfl | ⟨i, -, rfl⟩ | rfl | rfl | rfl | rfl
  · exact Or.inl ⟨1, ⟨1, 5⟩, rfl, Or.inl rfl⟩
  · exact Or.inr rfl
  · exact Or.inl ⟨i + 2, ⟨1, 5⟩, rfl, Or.inl rfl⟩
  · exact Or.inl ⟨0, ⟨1, 6⟩, rfl, Or.inr rfl⟩
  · exact Or.inr rfl
  · exact Or.inr rfl
  · exact Or.inr rfl

/-- What `bread` returns is not always what was left in the block: when two blocks are in one place of the disk, which
    has them by the number alone, and that modulo 2^31; and when a reference counter wraps around. -/
theorem bread_not_left :
    (∃ ls t, Run Step blank ls t ∧ asked ls ⊆ {⟨1, 5⟩, ⟨2, 5⟩} ∧ AllSteps Step blank ls (fun s _ => Kept s) ∧
        ¬AllSteps Step blank ls fun s l => l.2.Left s.left) ∧
      (∃ ls t, Run Step blank ls t ∧ asked ls ⊆ {⟨1, 5⟩, ⟨1, 5 + 2 ^ 31⟩} ∧ AllSteps Step blank ls (fun s _ => Kept s) ∧
        ¬AllSteps Step blank ls fun s l => l.2.Left s.left) ∧
      (∃ ls t, Run Step numbered ls t ∧ asked ls ⊆ {⟨1, 5⟩, ⟨1, 6⟩} ∧
        AllSteps Step numbered ls (fun s _ => ∀ b, (s.buf b).refcnt = 0 → s.changed b = false) ∧
        ¬AllSteps Step numbered ls fun s l => l.2.Left s.left) := by
  refine ⟨alias_not_left (by decide +kernel) (by decide +kernel) (by decide +kernel),
    alias_not_left (by decide +kernel) (by decide +kernel) (by decide +kernel), ?_⟩
  obtain ⟨t, hrun, hleft⟩ := run_wrapped
  refine ⟨_, t, hrun, ?_, ?_, hleft⟩
  · rintro blk ⟨l, hl, hblk⟩
    rcases mem_crowd hl with ⟨p, blk', heq, hor⟩ | heq <;> rw [heq] at hblk <;> cases hblk
    exact hor
  · intro ms l s hms hs b _
    have hno : AllSteps Step numbered ms fun _ l => ∀ b p data, l.1 ≠ .call p (.change b data) := by
      refine AllSteps.of_mem fun l hl _ b p data hchange => ?_
      have hmem := hms.subset (List.mem_append_left [_] hl)
      rcases mem_crowd hmem with ⟨q, blk, heq, -⟩ | heq <;> rw [heq] at hchange <;> cases hchange
    exact hno.invariant (P := fun s => ∀ b, s.changed b = false)
      (fun _ _ _ hs hno hstep b => (move_of_step hstep).changed (hno b) (hs b)) (fun _ => rfl) hs b

end LabSO.Bcache

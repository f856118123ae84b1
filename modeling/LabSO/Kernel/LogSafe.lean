import LabSO.Kernel.LogSteps
import LabSO.Lib.Transition
import Mathlib.Data.Finset.Card

/-! The log under any interleaving of operations. A commit runs alone, all blocks of an operation go to one commit, each
    block is listed and pinned once, nobody sleeps in `begin_op` without a reason, and two of the panics are out of
    reach. -/

namespace LabSO.Kernel
open Transition

variable {ι : Type} {s t : LogState ι} {p q : ι}

/-- The process is in `commit`. -/
def LogState.Commits (s : LogState ι) (p : ι) : Prop := ∃ stage, s.procs p = .commit stage

/-! ### Phases -/

theorem wakeup_inOp {op : Nat} : s.wakeup.procs q = .inOp op ↔ s.procs q = .inOp op := by
  simp only [LogState.wakeup]
  split
  · next h => simp [h]
  · rfl

theorem wakeup_commits : s.wakeup.Commits q ↔ s.Commits q := by
  simp only [LogState.Commits, LogState.wakeup]
  split
  · next h => simp [h]
  · rfl

theorem wakeup_ne_sleeping : s.wakeup.procs q ≠ .sleeping := by
  simp only [LogState.wakeup]
  split
  · simp
  · assumption

/-- Who is in an operation, and who commits. -/
structure LogPhases (s : LogState ι) : Prop where
  op_lt : ∀ p op, s.procs p = .inOp op → op < s.ops
  op_inj : ∀ p q op, s.procs p = .inOp op → s.procs q = .inOp op → p = q
  count : ∃ S : Finset ι, (∀ p, p ∈ S ↔ ∃ op, s.procs p = .inOp op) ∧ s.store.log.outstanding = S.card
  committing : ∀ p, s.Commits p → s.store.log.committing = true
  one : ∀ p q, s.Commits p → s.Commits q → p = q
  alone : s.store.log.committing = true → s.store.log.outstanding = 0

theorem LogPhases.pos (h : LogPhases s) {op : Nat} (hp : s.procs p = .inOp op) : 0 < s.store.log.outstanding := by
  obtain ⟨S, hS, hcard⟩ := h.count
  rw [hcard]
  exact_mod_cast Finset.card_pos.mpr ⟨p, (hS p).mpr ⟨op, hp⟩⟩

theorem LogPhases.not_committing (h : LogPhases s) {op : Nat} (hp : s.procs p = .inOp op) :
    s.store.log.committing = false := by
  by_contra hne
  have hpos := h.pos hp
  have hzero := h.alone (eq_true_of_ne_false hne)
  omega

theorem logPhases_init (start : BlockNo) (size : Int) (disk : Disk) :
    LogPhases (LogState.init start size disk : LogState ι) where
  op_lt _ _ h := nomatch h
  op_inj _ _ _ h := nomatch h
  count := ⟨∅, fun p => by simp [LogState.init], rfl⟩
  committing _ h := nomatch h
  one _ _ h := nomatch h
  alone h := nomatch h

theorem LogPhases.keeps (h : LogPhases s) (hop : ∀ q op, t.procs q = .inOp op ↔ s.procs q = .inOp op)
    (hcommits : ∀ q, t.Commits q ↔ s.Commits q) (hout : t.store.log.outstanding = s.store.log.outstanding)
    (hcommitting : t.store.log.committing = s.store.log.committing) (hops : t.ops = s.ops) : LogPhases t where
  op_lt q op hq := hops ▸ h.op_lt q op ((hop q op).mp hq)
  op_inj q r op hq hr := h.op_inj q r op ((hop q op).mp hq) ((hop r op).mp hr)
  count := by
    obtain ⟨S, hS, hcard⟩ := h.count
    exact ⟨S, fun q => (hS q).trans (exists_congr fun op => (hop q op).symm), hout.trans hcard⟩
  committing q hq := hcommitting.trans (h.committing q ((hcommits q).mp hq))
  one q r hq hr := h.one q r ((hcommits q).mp hq) ((hcommits r).mp hr)
  alone hc := hout.trans (h.alone (hcommitting ▸ hc))

variable [DecidableEq ι] {action : LogAction}

theorem setPhase_procs (s : LogState ι) (p q : ι) (phase : LogPhase) :
    (s.setPhase p phase).procs q = if q = p then phase else s.procs q := Function.update_apply ..

theorem setPhase_inOp {phase : LogPhase} {op : Nat} (hphase : phase ≠ .inOp op) (hp : s.procs p ≠ .inOp op) :
    (s.setPhase p phase).procs q = .inOp op ↔ s.procs q = .inOp op := by
  rw [setPhase_procs]
  split
  · next h => simp [h, hphase, hp]
  · rfl

theorem setPhase_commits {phase : LogPhase} (hphase : ∀ stage, phase ≠ .commit stage) (hp : ¬s.Commits p) :
    (s.setPhase p phase).Commits q ↔ s.Commits q := by
  unfold LogState.Commits
  rw [setPhase_procs]
  split
  · next h =>
    subst h
    exact iff_of_false (fun ⟨stage, h⟩ => hphase stage h) hp
  · rfl

theorem setPhase_commit_commits {stage : CommitAt} (hp : s.Commits p) :
    (s.setPhase p (.commit stage)).Commits q ↔ s.Commits q := by
  unfold LogState.Commits
  rw [setPhase_procs]
  split
  · next h =>
    subst h
    exact iff_of_true ⟨stage, rfl⟩ hp
  · rfl

/-- An operation that ends leaves the others. -/
theorem exists_erase {S : Finset ι} (hS : ∀ q, q ∈ S ↔ ∃ op, s.procs q = .inOp op) {phase : LogPhase} {op : Nat}
    (hp : s.procs p = .inOp op) (hphase : ∀ op, phase ≠ .inOp op) :
    (∀ q, q ∈ S.erase p ↔ ∃ op, (s.setPhase p phase).procs q = .inOp op) ∧ (S.erase p).card + 1 = S.card := by
  refine ⟨fun q => ?_, Finset.card_erase_add_one ((hS p).mpr ⟨op, hp⟩)⟩
  rw [Finset.mem_erase, hS, setPhase_procs]
  split
  · next h =>
    subst h
    exact iff_of_false (fun h => h.1 rfl) fun ⟨op, h⟩ => hphase op h
  · next h => simp [h]

theorem LogPhases.begins (h : LogPhases s) (hp : s.procs p = .user ∨ s.procs p = .woken)
    (hcommitting : s.store.log.committing = false) : LogPhases
      { (s.setLog { s.store.log with outstanding := s.store.log.outstanding + 1 }).setPhase p (.inOp s.ops) with
        ops := s.ops + 1 } := by
  have hnone : ∀ q, ¬s.Commits q := fun q hq => by simp [h.committing q hq] at hcommitting
  have hnot : ∀ op, s.procs p ≠ .inOp op := by rcases hp with hp | hp <;> simp [hp]
  have hprocs : ∀ q op, (s.setPhase p (.inOp s.ops)).procs q = .inOp op ↔
      (q = p ∧ op = s.ops) ∨ s.procs q = .inOp op := by
    intro q op
    rw [setPhase_procs]
    split
    · next heq =>
      subst heq
      simp [hnot, eq_comm]
    · next hne => simp [hne]
  have hcommits : ∀ q, ¬(s.setPhase p (.inOp s.ops)).Commits q := by
    rintro q ⟨stage, hq⟩
    rw [setPhase_procs] at hq
    split at hq
    · cases hq
    · exact hnone q ⟨stage, hq⟩
  refine ⟨fun q op hq => ?_, fun q r op hq hr => ?_, ?_, fun q hq => absurd hq (hcommits q),
    fun q _ hq => absurd hq (hcommits q), fun hc => absurd (hcommitting.symm.trans hc) nofun⟩
  · rcases (hprocs q op).mp hq with ⟨-, hop⟩ | hq'
    · exact hop.trans_lt (Nat.lt_succ_self _)
    · exact Nat.lt_succ_of_lt (h.op_lt q op hq')
  · rcases (hprocs q op).mp hq with ⟨hqp, hop⟩ | hq' <;> rcases (hprocs r op).mp hr with ⟨hrp, hop'⟩ | hr'
    · exact hqp.trans hrp.symm
    · exact absurd hop (h.op_lt r op hr').ne
    · exact absurd hop' (h.op_lt q op hq').ne
    · exact h.op_inj q r op hq' hr'
  · obtain ⟨S, hS, hcard⟩ := h.count
    have hmem : p ∉ S := fun hmem => by
      obtain ⟨op, hop⟩ := (hS p).mp hmem
      exact hnot op hop
    refine ⟨S.cons p hmem, fun q => ?_, ?_⟩
    · rw [Finset.mem_cons, hS]
      constructor
      · rintro (rfl | ⟨op, hop⟩)
        · exact ⟨s.ops, (hprocs q _).mpr (Or.inl ⟨rfl, rfl⟩)⟩
        · exact ⟨op, (hprocs q op).mpr (Or.inr hop)⟩
      · rintro ⟨op, hop⟩
        exact ((hprocs q op).mp hop).imp (fun h => h.1) fun h => ⟨op, h⟩
    · rw [Finset.card_cons]
      exact congrArg (· + 1) hcard

/-- A process that leaves its operation. -/
theorem LogPhases.leaves {phase : LogPhase} {op : Nat} {log : Log} (h : LogPhases s) (hp : s.procs p = .inOp op)
    (hphase : ∀ op, phase ≠ .inOp op) (hout : log.outstanding = s.store.log.outstanding - 1)
    (hcommits : (∃ stage, phase = .commit stage) → log.committing = true)
    (halone : log.committing = true → log.outstanding = 0) : LogPhases ((s.setLog log).setPhase p phase) := by
  have hfalse := h.not_committing hp
  have hinOp : ∀ q op', (s.setPhase p phase).procs q = .inOp op' → s.procs q = .inOp op' := by
    intro q op' hq
    rw [setPhase_procs] at hq
    split at hq
    · exact absurd hq (hphase op')
    · exact hq
  have hcommit : ∀ q, (s.setPhase p phase).Commits q → q = p ∧ ∃ stage, phase = .commit stage := by
    rintro q ⟨stage, hq⟩
    rw [setPhase_procs] at hq
    split at hq
    · next heq => exact ⟨heq, stage, hq⟩
    · exact absurd (hfalse.symm.trans (h.committing q ⟨stage, hq⟩)) nofun
  refine ⟨fun q op' hq => h.op_lt q op' (hinOp q op' hq), fun q r op' hq hr => ?_, ?_,
    fun q hq => hcommits (hcommit q hq).2, fun q r hq hr => (hcommit q hq).1.trans (hcommit r hr).1.symm, halone⟩
  · exact h.op_inj q r op' (hinOp q op' hq) (hinOp r op' hr)
  · obtain ⟨S, hS, hcard⟩ := h.count
    obtain ⟨hS', hcard'⟩ := exists_erase hS hp hphase
    refine ⟨S.erase p, hS', hout.trans ?_⟩
    rw [hcard, ← hcard']
    push_cast
    omega

theorem LogPhases.endsCommit (h : LogPhases s) (hp : s.Commits p) : LogPhases (s.endCommit p) := by
  have hinOp : ∀ q op, (s.endCommit p).procs q = .inOp op ↔ s.procs q = .inOp op := by
    intro q op
    obtain ⟨stage, hp⟩ := hp
    exact wakeup_inOp.trans (setPhase_inOp nofun (by simp [LogState.setLog, hp]))
  have hnone : ∀ q, ¬(s.endCommit p).Commits q := by
    intro q hq
    obtain ⟨stage, hq⟩ : ((s.setLog { s.store.log with committing := false }).setPhase p .user).Commits q :=
      wakeup_commits.mp hq
    rw [setPhase_procs] at hq
    split at hq
    · cases hq
    · next hne => exact hne (h.one q p ⟨stage, hq⟩ hp)
  refine ⟨fun q op hq => h.op_lt q op ((hinOp q op).mp hq), fun q r op hq hr => ?_, ?_,
    fun q hq => absurd hq (hnone q), fun q _ hq => absurd hq (hnone q), nofun⟩
  · exact h.op_inj q r op ((hinOp q op).mp hq) ((hinOp r op).mp hr)
  · obtain ⟨S, hS, hcard⟩ := h.count
    exact ⟨S, fun q => (hS q).trans (exists_congr fun op => (hinOp q op).symm), hcard⟩

theorem logPhases_step (h : LogPhases s) (hcase : LogCase s p action t) : LogPhases t := by
  cases hcase with
  | sleeps hp hfull =>
    have hop : ∀ op, s.procs p ≠ .inOp op := by rcases hp with hp | hp <;> simp [hp]
    have hcommits : ¬s.Commits p := by rcases hp with hp | hp <;> simp [LogState.Commits, hp]
    exact h.keeps (fun q op => setPhase_inOp nofun (hop op)) (fun q => setPhase_commits nofun hcommits) rfl rfl rfl
  | begins hp hcommitting hroom => exact h.begins hp hcommitting
  | tooBig b data hp hbig => exact h.keeps (fun _ _ => .rfl) (fun _ => .rfl) rfl rfl rfl
  | outside b data hp hout => exact h.keeps (fun _ _ => .rfl) (fun _ => .rfl) rfl rfl rfl
  | appends b data hp hsmall hb => exact h.keeps (fun _ _ => .rfl) (fun _ => .rfl) rfl rfl rfl
  | absorbs b data hp hsmall hb => exact h.keeps (fun _ _ => .rfl) (fun _ => .rfl) rfl rfl rfl
  | clashes hp hcommitting => exact h.keeps (fun _ _ => .rfl) (fun _ => .rfl) rfl rfl rfl
  | ends hp hcommitting hmore =>
    have hleaves : LogPhases
        ((s.setLog { s.store.log with outstanding := s.store.log.outstanding - 1 }).setPhase p .user) :=
      h.leaves hp nofun rfl nofun fun hc => absurd (hcommitting.symm.trans hc) nofun
    exact hleaves.keeps (fun q op => wakeup_inOp) (fun q => wakeup_commits) rfl rfl rfl
  | endsLast hp hcommitting hlast =>
    exact h.leaves hp nofun (by rw [hlast]; rfl) (fun _ => rfl) fun _ => rfl
  | @commits stage next u hp hstep =>
    have hframe := commitStep_frame hstep
    have hinOp : ∀ op, u.procs p ≠ .inOp op := fun op => by simp [hframe.procs, hp]
    refine h.keeps (fun q op => ?_) (fun q => ?_) hframe.outstanding hframe.committing hframe.ops
    · rw [setPhase_inOp (by simp) (hinOp op), hframe.procs]
    · rw [setPhase_commit_commits ⟨_, (congrFun hframe.procs p).trans hp⟩, LogState.Commits, hframe.procs, LogState.Commits]
  | endsCommit hp => exact h.endsCommit ⟨_, hp⟩
  | killed hp =>
    exact h.keeps (fun q op => setPhase_inOp nofun (by simp [hp]))
      (fun q => setPhase_commits nofun (by simp [LogState.Commits, hp])) rfl rfl rfl

/-! ### Sleeping -/

/-- Who sleeps has a reason to: a commit is under way, or the log might be exhausted. -/
def SleepsForSpace (s : LogState ι) : Prop :=
  s.store.log.committing = false → ¬s.store.log.mightExhaust → ∀ p, s.procs p ≠ .sleeping

theorem sleepsForSpace_step (hphases : LogPhases s) (h : SleepsForSpace s) (hcase : LogCase s p action t) :
    SleepsForSpace t := by
  intro hcommitting hroom q
  cases hcase with
  | sleeps hp hfull =>
    have hfalse : s.store.log.committing = false := hcommitting
    exact absurd hfull (not_or.mpr ⟨by simp [hfalse], hroom⟩)
  | begins hp hcommitting' hroom' =>
    rw [setPhase_procs]
    split
    · simp
    · exact h hcommitting' hroom' q
  | tooBig b data hp hbig => exact h hcommitting hroom q
  | outside b data hp hout => exact h hcommitting hroom q
  | appends b data hp hsmall hb =>
    refine h hcommitting (fun hfull => hroom ?_) q
    unfold Log.mightExhaust at hfull ⊢
    rw [List.length_append]
    push_cast
    omega
  | absorbs b data hp hsmall hb => exact h hcommitting hroom q
  | clashes hp hcommitting => exact h hcommitting hroom q
  | ends hp hcommitting hmore => exact wakeup_ne_sleeping
  | endsLast hp hcommitting' hlast => exact absurd hcommitting nofun
  | @commits stage next u hp hstep =>
    have hframe := commitStep_frame hstep
    have htrue := hphases.committing p ⟨stage, hp⟩
    exact absurd (hframe.committing.symm.trans hcommitting) (by simp [htrue])
  | endsCommit hp => exact wakeup_ne_sleeping
  | killed hp =>
    rw [setPhase_procs]
    split
    · simp
    · exact h hcommitting hroom q

/-! ### Blocks -/

/-- How many of `n` entries have been written to the log. -/
def CommitAt.wrote (n : Nat) : CommitAt → Nat
  | .writeLog tail => tail
  | .writeHead | .install _ | .clearHead | .eraseHead | .returned => n

/-- How many of `n` entries have been installed and unpinned. -/
def CommitAt.unpinned (n : Nat) : CommitAt → Nat
  | .writeLog _ | .writeHead => 0
  | .install tail => tail
  | .clearHead | .eraseHead | .returned => n

/-- The blocks that are pinned are those of the list, each of them once. -/
def PinnedOnce (pins : BlockNo → Int) (l : List BlockNo) : Prop :=
  (∀ b ∈ l, pins b = 1) ∧ ∀ b, b ∉ l → pins b = 0

theorem PinnedOnce.bpin {pins : BlockNo → Int} {l : List BlockNo} {b : BlockNo} (h : PinnedOnce pins l) (hb : b ∉ l) :
    PinnedOnce (Function.update pins b (pins b + 1)) (l ++ [b]) := by
  refine ⟨fun b' hb' => ?_, fun b' hb' => ?_⟩
  · rcases eq_or_ne b' b with rfl | hne
    · rw [Function.update_self, h.2 b' hb]
      rfl
    · rw [Function.update_of_ne hne]
      exact h.1 b' (by simpa [hne] using hb')
  · rw [List.mem_append, List.mem_singleton, not_or] at hb'
    rw [Function.update_of_ne hb'.2]
    exact h.2 b' hb'.1

theorem PinnedOnce.bunpin {pins : BlockNo → Int} {l : List BlockNo} {b : BlockNo} (h : PinnedOnce pins (b :: l))
    (hb : b ∉ l) : PinnedOnce (Function.update pins b (pins b - 1)) l := by
  refine ⟨fun b' hb' => ?_, fun b' hb' => ?_⟩
  · rw [Function.update_of_ne (by rintro rfl; exact hb hb')]
    exact h.1 b' (List.mem_cons_of_mem _ hb')
  · rcases eq_or_ne b' b with rfl | hne
    · rw [Function.update_self, h.1 b' List.mem_cons_self]
      rfl
    · rw [Function.update_of_ne hne]
      exact h.2 b' (by simp [hne, hb'])

/-- How far `commit` has come with the entries. -/
structure CommitStage (s : LogState ι) (stage : CommitAt) : Prop where
  cleared : stage = .eraseHead ∨ stage = .returned → s.store.log.lh = []
  written : ∀ b ∈ s.store.log.lh.take (stage.wrote s.store.log.lh.length), (s.commits, b) ∈ s.written
  installed : ∀ b ∈ s.store.log.lh.take (stage.unpinned s.store.log.lh.length), (s.commits, b) ∈ s.installed
  pins : PinnedOnce s.store.pins (s.store.log.lh.drop (stage.unpinned s.store.log.lh.length))

theorem mem_take_succ {α : Type} {l : List α} {i : Nat} {a b : α} (hi : l[i]? = some a) (hb : b ∈ l.take (i + 1)) :
    b ∈ l.take i ∨ b = a := by
  rw [List.take_add_one, hi] at hb
  simpa using hb

omit [DecidableEq ι] in
theorem commitStage_step {stage next : CommitAt} (hnodup : s.store.log.lh.Nodup) (h : CommitStage s stage)
    (hstep : s.commitStep stage = some (next, t)) : CommitStage t next := by
  cases stage with
  | writeLog tail =>
    rw [LogState.commitStep] at hstep
    split at hstep
    · next b hb =>
      cases hstep
      refine ⟨by simp, fun b' hb' => ?_, h.installed, h.pins⟩
      rcases mem_take_succ hb hb' with hold | rfl
      · exact List.mem_append_left _ (h.written b' hold)
      · exact List.mem_append_right _ (by simp)
    · next hnone =>
      cases hstep
      have hle : s.store.log.lh.length ≤ tail := List.getElem?_eq_none_iff.mp hnone
      refine ⟨by simp, fun b hb => h.written b ?_, h.installed, h.pins⟩
      rw [CommitAt.wrote, List.take_of_length_le hle]
      exact List.mem_of_mem_take hb
  | writeHead =>
    cases hstep
    exact ⟨by simp, h.written, h.installed, h.pins⟩
  | install tail =>
    rw [LogState.commitStep] at hstep
    split at hstep
    · next b hb =>
      cases hstep
      obtain ⟨hlt, hget⟩ := List.getElem?_eq_some_iff.mp hb
      have hdrop : s.store.log.lh.drop tail = b :: s.store.log.lh.drop (tail + 1) := by
        rw [List.drop_eq_getElem_cons hlt, hget]
      have hpins : PinnedOnce s.store.pins (s.store.log.lh.drop tail) := h.pins
      have hdropNodup : (s.store.log.lh.drop tail).Nodup := hnodup.sublist (List.drop_sublist _ _)
      rw [hdrop] at hpins hdropNodup
      refine ⟨by simp, h.written, fun b' hb' => ?_, hpins.bunpin (List.nodup_cons.mp hdropNodup).1⟩
      rcases mem_take_succ hb hb' with hold | rfl
      · exact List.mem_append_left _ (h.installed b' hold)
      · exact List.mem_append_right _ (by simp)
    · next hnone =>
      cases hstep
      have hle : s.store.log.lh.length ≤ tail := List.getElem?_eq_none_iff.mp hnone
      have hpins : PinnedOnce s.store.pins (s.store.log.lh.drop tail) := h.pins
      rw [List.drop_eq_nil_of_le hle, ← List.drop_length] at hpins
      refine ⟨by simp, h.written, fun b hb => h.installed b ?_, hpins⟩
      rw [CommitAt.unpinned, List.take_of_length_le hle]
      exact List.mem_of_mem_take hb
  | clearHead =>
    cases hstep
    have hpins : PinnedOnce s.store.pins (s.store.log.lh.drop s.store.log.lh.length) := h.pins
    rw [List.drop_length] at hpins
    exact ⟨fun _ => rfl, (by rintro _ ⟨⟩), (by rintro _ ⟨⟩), hpins⟩
  | eraseHead =>
    cases hstep
    exact ⟨fun _ => h.cleared (Or.inl rfl), h.written, h.installed, h.pins⟩
  | returned => cases hstep

/-- The block went to the log and to its home in the commit with this number. -/
def LogState.Wrote (s : LogState ι) (commit : Nat) (b : BlockNo) : Prop := (commit, b) ∈ s.written ∧ (commit, b) ∈ s.installed

/-- Which blocks are listed, pinned and written. -/
structure LogBlocks (s : LogState ι) : Prop where
  nodup : s.store.log.lh.Nodup
  op_lt : ∀ e ∈ s.logged, e.op < s.ops
  commit_le : ∀ e ∈ s.logged, e.commit ≤ s.commits
  same : ∀ e ∈ s.logged, ∀ e' ∈ s.logged, e.op = e'.op → e.commit = e'.commit
  active : ∀ p op, s.procs p = .inOp op → ∀ e ∈ s.logged, e.op = op → e.commit = s.commits
  past : ∀ e ∈ s.logged, e.commit < s.commits → s.Wrote e.commit e.blockno
  current : ∀ e ∈ s.logged, e.commit = s.commits → e.blockno ∈ s.store.log.lh ∨ s.Wrote s.commits e.blockno
  fresh : s.store.log.committing = false → ∀ e ∈ s.logged, e.commit = s.commits → e.blockno ∈ s.store.log.lh
  ofLogged : ∀ b ∈ s.store.log.lh, ∃ e ∈ s.logged, e.commit = s.commits ∧ e.blockno = b
  pins : s.store.log.committing = false → PinnedOnce s.store.pins s.store.log.lh
  stage : ∀ p stage, s.procs p = .commit stage → CommitStage s stage

omit [DecidableEq ι] in
theorem logBlocks_init (start : BlockNo) (size : Int) (disk : Disk) :
    LogBlocks (LogState.init start size disk : LogState ι) where
  nodup := List.nodup_nil
  op_lt := nofun
  commit_le := nofun
  same := nofun
  active := nofun
  past := nofun
  current := nofun
  fresh := nofun
  ofLogged := nofun
  pins _ := ⟨nofun, fun _ _ => rfl⟩
  stage := nofun

omit [DecidableEq ι] in
theorem CommitStage.congr {stage : CommitAt} (h : CommitStage s stage) (hlh : t.store.log.lh = s.store.log.lh)
    (hpins : t.store.pins = s.store.pins) (hcommits : t.commits = s.commits) (hwritten : t.written = s.written)
    (hinstalled : t.installed = s.installed) : CommitStage t stage := by
  refine ⟨fun hs => hlh.trans (h.cleared hs), ?_, ?_, ?_⟩
  · rw [hlh, hcommits, hwritten]
    exact h.written
  · rw [hlh, hcommits, hinstalled]
    exact h.installed
  · rw [hlh, hpins]
    exact h.pins

omit [DecidableEq ι] in
/-- A step that only changes phases: it starts no commit, and the operations that begin are new. -/
theorem LogBlocks.keeps (h : LogBlocks s) (hop : ∀ q op, t.procs q = .inOp op → s.procs q = .inOp op ∨ s.ops ≤ op)
    (hcommit : ∀ q stage, t.procs q = .commit stage → s.procs q = .commit stage)
    (hlh : t.store.log.lh = s.store.log.lh) (hpins : t.store.pins = s.store.pins)
    (hcommitting : t.store.log.committing = s.store.log.committing) (hops : s.ops ≤ t.ops)
    (hcommits : t.commits = s.commits) (hlogged : t.logged = s.logged) (hwritten : t.written = s.written)
    (hinstalled : t.installed = s.installed) : LogBlocks t := by
  have hwrote : ∀ c b, t.Wrote c b ↔ s.Wrote c b := fun c b => by
    simp only [LogState.Wrote, hwritten, hinstalled]
  refine ⟨hlh ▸ h.nodup, ?_, ?_, ?_, ?_, ?_, ?_, ?_, ?_, ?_, fun q stage hq =>
    (h.stage q stage (hcommit q stage hq)).congr hlh hpins hcommits hwritten hinstalled⟩
  · exact fun e he => (h.op_lt e (hlogged ▸ he)).trans_le hops
  · simpa only [hlogged, hcommits] using h.commit_le
  · simpa only [hlogged] using h.same
  · intro q op hq e he heq
    rw [hlogged] at he
    rw [hcommits]
    rcases hop q op hq with hq | hge
    · exact h.active q op hq e he heq
    · exact absurd (h.op_lt e he) (by omega)
  · simpa only [hlogged, hcommits, hwrote] using h.past
  · simpa only [hlogged, hcommits, hlh, hwrote] using h.current
  · simpa only [hlogged, hcommits, hlh, hcommitting] using h.fresh
  · simpa only [hlogged, hcommits, hlh] using h.ofLogged
  · simpa only [hlh, hpins, hcommitting] using h.pins

omit [DecidableEq ι] in
/-- A call of `log_write`, which leaves its block in the list. -/
theorem LogBlocks.logs {op : Nat} {b : BlockNo} {store : Store} (hphases : LogPhases s) (h : LogBlocks s)
    (hp : s.procs p = .inOp op) (hsub : ∀ b' ∈ s.store.log.lh, b' ∈ store.log.lh) (hmem : b ∈ store.log.lh)
    (hback : ∀ b' ∈ store.log.lh, b' ∈ s.store.log.lh ∨ b' = b) (hnodup : store.log.lh.Nodup)
    (hpins : PinnedOnce store.pins store.log.lh) :
    LogBlocks { s with store, logged := s.logged ++ [⟨op, b, s.commits⟩] } := by
  have hmemLogged : ∀ e, e ∈ s.logged ++ [⟨op, b, s.commits⟩] ↔ e ∈ s.logged ∨ e = ⟨op, b, s.commits⟩ := by simp
  refine ⟨hnodup, fun e he => ?_, fun e he => ?_, fun e he e' he' heq => ?_, fun q op' hq e he heq => ?_,
    fun e he hlt => ?_, fun e he heq => ?_, fun _ e he heq => ?_, fun b' hb' => ?_, fun _ => hpins, fun q stage hq => ?_⟩
  · rcases (hmemLogged e).mp he with he | rfl
    · exact h.op_lt e he
    · exact hphases.op_lt p op hp
  · rcases (hmemLogged e).mp he with he | rfl
    · exact h.commit_le e he
    · exact le_rfl
  · rcases (hmemLogged e).mp he with he | rfl <;> rcases (hmemLogged e').mp he' with he' | rfl
    · exact h.same e he e' he' heq
    · exact h.active p op hp e he heq
    · exact (h.active p op hp e' he' heq.symm).symm
    · rfl
  · rcases (hmemLogged e).mp he with he | rfl
    · exact h.active q op' hq e he heq
    · rfl
  · rcases (hmemLogged e).mp he with he | rfl
    · exact h.past e he hlt
    · exact absurd hlt (lt_irrefl _)
  · rcases (hmemLogged e).mp he with he | rfl
    · exact (h.current e he heq).imp_left (hsub _)
    · exact Or.inl hmem
  · rcases (hmemLogged e).mp he with he | rfl
    · exact hsub _ (h.fresh (hphases.not_committing hp) e he heq)
    · exact hmem
  · rcases hback b' hb' with hold | rfl
    · obtain ⟨e, he, hcommit, hb⟩ := h.ofLogged b' hold
      exact ⟨e, List.mem_append_left _ he, hcommit, hb⟩
    · exact ⟨_, (hmemLogged _).mpr (Or.inr rfl), rfl, rfl⟩
  · have htrue := hphases.committing q ⟨stage, hq⟩
    exact absurd htrue (by simp [hphases.not_committing hp])

theorem setPhase_eq_commit {phase : LogPhase} {stage : CommitAt} (hphase : ∀ stage, phase ≠ .commit stage)
    (h : (s.setPhase p phase).procs q = .commit stage) : s.procs q = .commit stage := by
  rw [setPhase_procs] at h
  split at h
  · exact absurd h (hphase stage)
  · exact h

theorem setPhase_eq_inOp {phase : LogPhase} {op : Nat} (hphase : ∀ op, phase ≠ .inOp op)
    (h : (s.setPhase p phase).procs q = .inOp op) : s.procs q = .inOp op := by
  rw [setPhase_procs] at h
  split at h
  · exact absurd h (hphase op)
  · exact h

omit [DecidableEq ι] in
theorem wakeup_commit {stage : CommitAt} : s.wakeup.procs q = .commit stage ↔ s.procs q = .commit stage := by
  simp only [LogState.wakeup]
  split
  · next h => simp [h]
  · rfl

/-- A step of `commit`. -/
theorem LogBlocks.commits {stage next : CommitAt} (hphases : LogPhases s) (h : LogBlocks s)
    (hp : s.procs p = .commit stage) (hstep : s.commitStep stage = some (next, t)) :
    LogBlocks (t.setPhase p (.commit next)) := by
  have htrue := hphases.committing p ⟨stage, hp⟩
  have hframe := commitStep_frame hstep
  have hstage := h.stage p stage hp
  obtain ⟨hwritten, hinstalled, hlh⟩ := commitStep_grows hstep
  have hwrote : ∀ c b, s.Wrote c b → (t.setPhase p (.commit next)).Wrote c b := fun c b hb =>
    ⟨hwritten hb.1, hinstalled hb.2⟩
  have hcommitting : t.store.log.committing = true := hframe.committing.trans htrue
  refine ⟨?_, fun e he => ?_, fun e he => ?_, fun e he e' he' => ?_, fun q op hq => ?_, fun e he hlt => ?_,
    fun e he heq => ?_, fun hc => absurd (hcommitting.symm.trans hc) nofun, fun b hb => ?_,
    fun hc => absurd (hcommitting.symm.trans hc) nofun, fun q stage' hq => ?_⟩
  · rcases hlh with hlh | ⟨-, hlh⟩
    · exact hlh ▸ h.nodup
    · exact hlh ▸ List.nodup_nil
  · exact hframe.ops ▸ h.op_lt e (hframe.logged ▸ he)
  · exact hframe.commits ▸ h.commit_le e (hframe.logged ▸ he)
  · exact h.same e (hframe.logged ▸ he) e' (hframe.logged ▸ he')
  · have hq' := setPhase_eq_inOp (by simp) hq
    rw [hframe.procs] at hq'
    exact absurd htrue (by simp [hphases.not_committing hq'])
  · exact hwrote _ _ (h.past e (hframe.logged ▸ he) (hframe.commits ▸ hlt))
  · rcases h.current e (hframe.logged ▸ he) (heq.trans hframe.commits) with hmem | hdone
    · rcases hlh with hlh | ⟨rfl, -⟩
      · exact Or.inl (hlh.symm ▸ hmem)
      · -- Before the list is cleared, all of it has been installed.
        have hall : s.store.log.lh.take s.store.log.lh.length = s.store.log.lh := List.take_length
        refine Or.inr (hwrote _ _ ?_)
        show s.Wrote t.commits e.blockno
        rw [hframe.commits]
        exact ⟨hstage.written _ (hall.symm ▸ hmem), hstage.installed _ (hall.symm ▸ hmem)⟩
    · exact Or.inr (hwrote _ _ (hframe.commits.symm ▸ hdone))
  · rcases hlh with hlh | ⟨-, hlh⟩
    · obtain ⟨e, he, hcommit, heq⟩ := h.ofLogged b (hlh ▸ hb)
      exact ⟨e, hframe.logged.symm ▸ he, hcommit.trans hframe.commits.symm, heq⟩
    · exact absurd (hlh ▸ hb) (List.not_mem_nil)
  · rw [setPhase_procs] at hq
    split at hq
    · cases hq
      exact (commitStage_step h.nodup hstage hstep).congr rfl rfl rfl rfl rfl
    · next hne =>
      rw [hframe.procs] at hq
      exact absurd (hphases.one q p ⟨stage', hq⟩ ⟨stage, hp⟩) hne

/-- The end of a commit: nothing is left in the list. -/
theorem LogBlocks.endsCommit (hphases : LogPhases s) (h : LogBlocks s) (hp : s.procs p = .commit .returned) :
    LogBlocks (s.endCommit p) := by
  have htrue := hphases.committing p ⟨_, hp⟩
  have hstage := h.stage p _ hp
  have hnil : s.store.log.lh = [] := hstage.cleared (Or.inr rfl)
  have hpins := hstage.pins
  rw [hnil] at hpins
  have hphases' := hphases.endsCommit ⟨_, hp⟩
  refine ⟨h.nodup, h.op_lt, fun e he => Nat.le_succ_of_le (h.commit_le e he), h.same, fun q op hq => ?_, fun e he hlt => ?_,
    fun e he heq => ?_, fun _ e he heq => ?_, fun b hb => ?_, fun _ => ?_, fun q stage hq => ?_⟩
  · have hq' : s.procs q = .inOp op := setPhase_eq_inOp (by simp) (wakeup_inOp.mp hq)
    exact absurd htrue (by simp [hphases.not_committing hq'])
  · rcases Nat.lt_succ_iff_lt_or_eq.mp hlt with hlt | heq
    · exact h.past e he hlt
    · rw [heq]
      exact (h.current e he heq).resolve_left (hnil ▸ List.not_mem_nil)
  · exact absurd heq (Nat.lt_succ_of_le (h.commit_le e he)).ne
  · exact absurd heq (Nat.lt_succ_of_le (h.commit_le e he)).ne
  · exact absurd (hnil ▸ hb : b ∈ []) List.not_mem_nil
  · show PinnedOnce s.store.pins s.store.log.lh
    rw [hnil]
    exact hpins
  · exact absurd (hphases'.committing q ⟨stage, hq⟩) nofun

/-- The start of a commit. -/
theorem LogBlocks.endsLast {op : Nat} (hphases : LogPhases s) (h : LogBlocks s) (hp : s.procs p = .inOp op) :
    LogBlocks ((s.setLog { s.store.log with outstanding := 0, committing := true }).setPhase p
      (.commit (if s.store.log.lh.length > 0 then .writeLog 0 else .returned))) := by
  have hfalse := hphases.not_committing hp
  refine ⟨h.nodup, h.op_lt, h.commit_le, h.same, fun q op' hq => h.active q op' (setPhase_eq_inOp (by simp) hq), h.past,
    h.current, nofun, h.ofLogged, nofun, fun q stage hq => ?_⟩
  rw [setPhase_procs] at hq
  split at hq
  · split at hq
    · cases hq
      exact ⟨by simp, nofun, nofun, h.pins hfalse⟩
    · next hlen =>
      cases hq
      have hnil : s.store.log.lh = [] := List.length_eq_zero_iff.mp (by omega)
      have hpins := h.pins hfalse
      refine ⟨fun _ => hnil, ?_, ?_, ?_⟩
      · simp [LogState.setPhase, LogState.setLog, hnil]
      · simp [LogState.setPhase, LogState.setLog, hnil]
      · simpa [LogState.setPhase, LogState.setLog, hnil] using hpins
  · exact absurd (hphases.committing q ⟨stage, hq⟩) (by simp [hfalse])

theorem logBlocks_step (hphases : LogPhases s) (h : LogBlocks s) (hcase : LogCase s p action t) : LogBlocks t := by
  cases hcase with
  | sleeps hp hfull =>
    exact h.keeps (fun q op hq => Or.inl (setPhase_eq_inOp (by simp) hq)) (fun q stage hq => setPhase_eq_commit (by simp) hq)
      rfl rfl rfl le_rfl rfl rfl rfl rfl
  | begins hp hcommitting hroom =>
    refine h.keeps (fun q op hq => ?_) (fun q stage hq => setPhase_eq_commit (p := p) (by simp) hq)
      rfl rfl rfl (Nat.le_succ _) rfl rfl rfl rfl
    rw [setPhase_procs] at hq
    split at hq
    · cases hq
      exact Or.inr le_rfl
    · exact Or.inl hq
  | tooBig b data hp hbig =>
    exact h.keeps (fun _ _ hq => Or.inl hq) (fun _ _ hq => hq) rfl rfl rfl le_rfl rfl rfl rfl rfl
  | outside b data hp hout =>
    exact h.keeps (fun _ _ hq => Or.inl hq) (fun _ _ hq => hq) rfl rfl rfl le_rfl rfl rfl rfl rfl
  | appends b data hp hsmall hb =>
    have hpins := (h.pins (hphases.not_committing hp)).bpin hb
    refine h.logs hphases hp (fun b' hb' => List.mem_append_left _ hb') (by simp) (fun b' hb' => by simpa using hb')
      ?_ hpins
    exact List.nodup_append.mpr ⟨h.nodup, List.nodup_singleton b, by simpa using fun b' hb' => ne_of_mem_of_not_mem hb' hb⟩
  | absorbs b data hp hsmall hb =>
    exact h.logs hphases hp (fun b' hb' => hb') hb (fun b' hb' => Or.inl hb') h.nodup
      (h.pins (hphases.not_committing hp))
  | clashes hp hcommitting =>
    exact h.keeps (fun _ _ hq => Or.inl hq) (fun _ _ hq => hq) rfl rfl rfl le_rfl rfl rfl rfl rfl
  | ends hp hcommitting hmore =>
    exact h.keeps (fun q op hq => Or.inl (setPhase_eq_inOp (by simp) (wakeup_inOp.mp hq)))
      (fun q stage hq => setPhase_eq_commit (by simp) (wakeup_commit.mp hq)) rfl rfl rfl le_rfl rfl rfl rfl rfl
  | endsLast hp hcommitting hlast => exact h.endsLast hphases hp
  | commits hp hstep => exact h.commits hphases hp hstep
  | endsCommit hp => exact h.endsCommit hphases hp
  | killed hp =>
    exact h.keeps (fun q op hq => Or.inl (setPhase_eq_inOp (by simp) hq)) (fun q stage hq => setPhase_eq_commit (by simp) hq)
      rfl rfl rfl le_rfl rfl rfl rfl rfl

/-! ### Runs -/

/-- What holds between the steps of a run. -/
structure LogInv (s : LogState ι) : Prop where
  phases : LogPhases s
  sleeping : SleepsForSpace s
  blocks : LogBlocks s
  panicked : s.panicked = none ∨ s.panicked = some "too big a transaction"

omit [DecidableEq ι] in
theorem logInv_init (start : BlockNo) (size : Int) (disk : Disk) :
    LogInv (LogState.init start size disk : LogState ι) where
  phases := logPhases_init start size disk
  sleeping _ _ _ := nofun
  blocks := logBlocks_init start size disk
  panicked := Or.inl rfl

theorem panicked_step (hphases : LogPhases s) (hpanicked : s.panicked = none) (hcase : LogCase s p action t) :
    t.panicked = none ∨ t.panicked = some "too big a transaction" := by
  cases hcase with
  | tooBig b data hp hbig => exact Or.inr rfl
  | outside b data hp hout => exact absurd (hphases.pos hp) (by omega)
  | clashes hp hcommitting => exact absurd hcommitting (by simp [hphases.not_committing hp])
  | commits hp hstep =>
    left
    rw [← hpanicked]
    exact (commitStep_frame hstep).panicked
  | _ => exact Or.inl hpanicked

theorem logInv_step {l : ι × LogAction} (h : LogInv s) (hstep : LogStep s l t) : LogInv t := by
  obtain ⟨hpanicked, hcase⟩ := logStep_cases hstep
  exact ⟨logPhases_step h.phases hcase, sleepsForSpace_step h.phases h.sleeping hcase,
    logBlocks_step h.phases h.blocks hcase, panicked_step h.phases hpanicked hcase⟩

theorem logInv_run {start : BlockNo} {size : Int} {disk : Disk} {ls : List (ι × LogAction)}
    (hrun : Run LogStep (LogState.init start size disk) ls s) : LogInv s :=
  hrun.invariant (fun _ _ _ => logInv_step) (logInv_init start size disk)

/-- What is safe about the log, whatever the processes do. -/
structure LogSafe (s : LogState ι) : Prop where
  /-- A commit runs while no operation does. -/
  alone : ∀ p, s.Commits p → s.store.log.outstanding = 0
  /-- No process can call `log_write` before the commit has ended. -/
  quiet : s.store.log.committing = true → ∀ p b data, logStep s (p, .logWrite b data) = none
  /-- The blocks of an operation go to one commit. -/
  together : ∀ op, ∃ c, ∀ e ∈ s.logged, e.op = op → e.commit = c ∧ (c < s.commits → s.Wrote c e.blockno)
  nodup : s.store.log.lh.Nodup
  /-- The listed buffers are pinned once. -/
  pinned : s.store.log.committing = false → PinnedOnce s.store.pins s.store.log.lh
  /-- In a commit, those that `install_trans` has not unpinned yet. -/
  unpinned : ∀ p stage, s.procs p = .commit stage →
    PinnedOnce s.store.pins (s.store.log.lh.drop (stage.unpinned s.store.log.lh.length))
  /-- Nobody sleeps where `begin_op` would let it in. -/
  awake : s.store.log.committing = false → ¬s.store.log.mightExhaust → ∀ p, s.procs p ≠ .sleeping
  panicked : s.panicked ≠ some "log.committing" ∧ s.panicked ≠ some "log_write outside of trans"

theorem LogInv.quiet (h : LogInv s) (hcommitting : s.store.log.committing = true) (p : ι) (b : BlockNo) (data : Block) :
    logStep s (p, .logWrite b data) = none := by
  rcases hstep : logStep s (p, .logWrite b data) with _ | t
  · rfl
  · obtain ⟨-, hcase⟩ := logStep_cases hstep
    obtain ⟨op, hp⟩ := hcase.inOp
    exact absurd hcommitting (by simp [h.phases.not_committing hp])

omit [DecidableEq ι] in
theorem LogBlocks.together (h : LogBlocks s) (op : Nat) :
    ∃ c, ∀ e ∈ s.logged, e.op = op → e.commit = c ∧ (c < s.commits → s.Wrote c e.blockno) := by
  by_cases hop : ∃ e ∈ s.logged, e.op = op
  · obtain ⟨e, he, rfl⟩ := hop
    refine ⟨e.commit, fun e' he' heq => ?_⟩
    have hsame := h.same e' he' e he heq
    exact ⟨hsame, fun hlt => hsame ▸ h.past e' he' (hsame ▸ hlt)⟩
  · exact ⟨0, fun e he heq => absurd ⟨e, he, heq⟩ hop⟩

theorem logSafe_of_run {start : BlockNo} {size : Int} {disk : Disk} {ls : List (ι × LogAction)}
    (hrun : Run LogStep (LogState.init start size disk) ls s) : LogSafe s := by
  have h := logInv_run hrun
  refine ⟨fun p hp => h.phases.alone (h.phases.committing p hp), h.quiet, h.blocks.together, h.blocks.nodup, h.blocks.pins,
    fun p stage hp => (h.blocks.stage p stage hp).pins, h.sleeping, ?_⟩
  rcases h.panicked with hnone | hbig
  · simp [hnone]
  · simp [hbig]

/-- Two operations, of which the second waits for the commit of the first. -/
def twoOps : List (Bool × LogAction) :=
  [(false, .beginOp), (false, .logWrite 45 .zero), (false, .logWrite 46 .zero), (false, .endOp), (true, .beginOp),
    (false, .commit), (false, .commit), (false, .commit), (false, .commit), (false, .commit)]

theorem twoOps_runs : (twoOps.foldlM logStep (LogState.init 2 30 fun _ => .zero)).isSome := rfl

theorem logSafe_of_run_twoOps : LogSafe ((twoOps.foldlM logStep (LogState.init 2 30 fun _ => .zero)).get twoOps_runs) :=
  logSafe_of_run (run_of_foldlM (Option.some_get twoOps_runs).symm)

/-- After these steps `install_trans` has unpinned block 45, which is still listed. -/
theorem not_pinned_installing : ¬∀ (start : BlockNo) (size : Int) (disk : Disk) (ls : List (Bool × LogAction))
    (s : LogState Bool), Run LogStep (LogState.init start size disk) ls s →
      s.store.log.lh.Nodup ∧ ∀ b ∈ s.store.log.lh, s.store.pins b = 1 := by
  intro h
  obtain ⟨-, hpins⟩ := h 2 30 (fun _ => .zero) twoOps _ (run_of_foldlM (Option.some_get twoOps_runs).symm)
  exact absurd (hpins 45 (by decide)) (by decide)

end LabSO.Kernel

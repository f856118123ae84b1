import LabSO.Kernel.LogSafe
import LabSO.Mkfs.Layout
import Mathlib.Algebra.Order.BigOperators.Group.Finset
import Mathlib.Data.Finset.Dedup

/-! The space of the log. `begin_op` reserves MAXOPBLOCKS of the LOGSIZE entries for each operation, and operations that
    log no more never need more than all of them. But the log that `mkfs` lays out has LOGSIZE blocks with the header, and
    `log_write` refuses the last entry, and also any block once the others are taken. -/

namespace LabSO.Kernel
open Transition

variable {ι : Type} {s t : LogState ι} {p q : ι}

/-- The blocks that an operation has logged. -/
def LogState.loggedBy (s : LogState ι) (op : Nat) : List BlockNo :=
  (s.logged.filter fun e => e.op = op).map (·.blockno)

/-- The blocks that were logged since the last commit. -/
def LogState.loggedSince (s : LogState ι) : List BlockNo :=
  (s.logged.filter fun e => e.commit = s.commits).map (·.blockno)

/-- How many distinct blocks the operation of a process has logged. -/
def LogState.used (s : LogState ι) (p : ι) : Nat :=
  match s.procs p with
  | .inOp op => (s.loggedBy op).toFinset.card
  | _ => 0

/-- How many with the call of `log_write` that it makes. -/
def LogState.uses (s : LogState ι) (l : ι × LogAction) : Nat :=
  match s.procs l.1, l.2 with
  | .inOp op, .logWrite b _ => (b :: s.loggedBy op).toFinset.card
  | _, _ => 0

/-- An operation logs at most MAXOPBLOCKS distinct blocks. -/
def WithinOp (s : LogState ι) (l : ι × LogAction) : Prop := s.uses l ≤ MAXOPBLOCKS

instance (s : LogState ι) (l : ι × LogAction) : Decidable (WithinOp s l) := inferInstanceAs (Decidable (_ ≤ _))

/-- `log_write` is not called any more once LOGSIZE - 1 distinct blocks were logged since the last commit. -/
def BeforeLast (s : LogState ι) (l : ι × LogAction) : Prop :=
  ∀ b data, l.2 = .logWrite b data → s.loggedSince.toFinset.card < LOGSIZE - 1

theorem mem_loggedBy {op : Nat} {b : BlockNo} :
    b ∈ s.loggedBy op ↔ ∃ e ∈ s.logged, e.op = op ∧ e.blockno = b := by
  simp [LogState.loggedBy, and_assoc]

theorem mem_loggedSince {b : BlockNo} :
    b ∈ s.loggedSince ↔ ∃ e ∈ s.logged, e.commit = s.commits ∧ e.blockno = b := by
  simp [LogState.loggedSince, and_assoc]

/-- While no commit runs, the list has each block that was logged since the last one. -/
theorem length_lh (h : LogBlocks s) (hcommitting : s.store.log.committing = false) :
    s.store.log.lh.length = s.loggedSince.toFinset.card := by
  rw [← List.toFinset_card_of_nodup h.nodup]
  refine congrArg Finset.card (Finset.ext fun b => ?_)
  rw [List.mem_toFinset, List.mem_toFinset, mem_loggedSince]
  constructor
  · exact h.ofLogged b
  · rintro ⟨e, he, hcommit, rfl⟩
    exact h.fresh hcommitting e he hcommit

/-- The blocks of an operation in progress are in the list. -/
theorem loggedBy_subset (hphases : LogPhases s) (h : LogBlocks s) {op : Nat} (hp : s.procs p = .inOp op) :
    s.loggedBy op ⊆ s.store.log.lh := by
  intro b hb
  obtain ⟨e, he, heq, rfl⟩ := mem_loggedBy.mp hb
  exact h.fresh (hphases.not_committing hp) e he (h.active p op hp e he heq)

/-! ### The reservation -/

/-- The entries that are taken and those that are reserved for the operations in progress are no more than LOGSIZE. -/
def Reserved (s : LogState ι) : Prop :=
  ∀ S : Finset ι, (∀ p, p ∈ S ↔ ∃ op, s.procs p = .inOp op) →
    s.store.log.lh.length + ∑ p ∈ S, (MAXOPBLOCKS - s.used p) ≤ LOGSIZE

theorem used_eq {op : Nat} (hp : s.procs p = .inOp op) : s.used p = (s.loggedBy op).toFinset.card := by
  rw [LogState.used, hp]

theorem used_congr (hprocs : t.procs p = s.procs p) (hlogged : t.logged = s.logged) : t.used p = s.used p := by
  simp only [LogState.used, LogState.loggedBy, hprocs, hlogged]

theorem LogPhases.card_eq (h : LogPhases s) {S : Finset ι} (hS : ∀ p, p ∈ S ↔ ∃ op, s.procs p = .inOp op) :
    s.store.log.outstanding = S.card := by
  obtain ⟨S', hS', hcard⟩ := h.count
  obtain rfl : S' = S := Finset.ext fun p => (hS' p).trans (hS p).symm
  exact hcard

/-- A step after which no more operations are in progress, and nothing more is logged. -/
theorem Reserved.keeps (hphases : LogPhases s) (h : Reserved s)
    (hop : ∀ q op, t.procs q = .inOp op → s.procs q = .inOp op) (hlogged : t.logged = s.logged)
    (hlh : t.store.log.lh.length ≤ s.store.log.lh.length) : Reserved t := by
  intro S hS
  obtain ⟨S', hS', -⟩ := hphases.count
  have hsub : S ⊆ S' := fun q hq => by
    obtain ⟨op, hq'⟩ := (hS q).mp hq
    exact (hS' q).mpr ⟨op, hop q op hq'⟩
  have hsum : ∑ q ∈ S, (MAXOPBLOCKS - t.used q) ≤ ∑ q ∈ S', (MAXOPBLOCKS - s.used q) := by
    refine (Finset.sum_congr rfl fun q hq => ?_).trans_le (Finset.sum_le_sum_of_subset hsub)
    obtain ⟨op, hq'⟩ := (hS q).mp hq
    rw [used_congr (hq'.trans (hop q op hq').symm) hlogged]
  have := h S' hS'
  omega

/-- `begin_op` admits an operation for which there is room. -/
theorem reserved_begins (hphases : LogPhases t) (hout : t.store.log.outstanding = s.store.log.outstanding + 1)
    (hlh : t.store.log.lh = s.store.log.lh) (hroom : ¬s.store.log.mightExhaust) : Reserved t := by
  intro S hS
  have hcard := hphases.card_eq hS
  have hsum : ∑ q ∈ S, (MAXOPBLOCKS - t.used q) ≤ S.card * MAXOPBLOCKS :=
    Finset.sum_le_card_nsmul _ _ _ fun q _ => Nat.sub_le _ _
  unfold Log.mightExhaust at hroom
  rw [← hout, hcard, ← hlh] at hroom
  have hroom' : t.store.log.lh.length + S.card * MAXOPBLOCKS ≤ LOGSIZE := by exact_mod_cast not_lt.mp hroom
  omega

theorem reserved_init (start : BlockNo) (size : Int) (disk : Disk) : Reserved (LogState.init start size disk : LogState ι) := by
  intro S hS
  have hempty : S = ∅ := Finset.eq_empty_of_forall_notMem fun p hp => by
    obtain ⟨op, hop⟩ := (hS p).mp hp
    cases hop
  subst hempty
  exact Nat.zero_le _

/-- A call of `log_write` takes an entry from the reservation of its operation. -/
theorem Reserved.logs {op : Nat} {b : BlockNo} {store : Store} [DecidableEq ι] (hphases : LogPhases s) (h : Reserved s)
    (hp : s.procs p = .inOp op)
    (hfits : store.log.lh.length + (MAXOPBLOCKS - (insert b (s.loggedBy op).toFinset).card) ≤
      s.store.log.lh.length + (MAXOPBLOCKS - (s.loggedBy op).toFinset.card)) :
    Reserved { s with store, logged := s.logged ++ [⟨op, b, s.commits⟩] } := by
  intro S hS
  let t : LogState ι := { s with store, logged := s.logged ++ [⟨op, b, s.commits⟩] }
  have hmem : p ∈ S := (hS p).mpr ⟨op, hp⟩
  have hother : ∀ q ∈ S.erase p, MAXOPBLOCKS - t.used q = MAXOPBLOCKS - s.used q := by
    intro q hq
    obtain ⟨hne, hqS⟩ := Finset.mem_erase.mp hq
    obtain ⟨op', hq'⟩ : ∃ op, s.procs q = .inOp op := (hS q).mp hqS
    have hop : op ≠ op' := by
      rintro rfl
      exact hne (hphases.op_inj q p op hq' hp)
    have hlogged : t.loggedBy op' = s.loggedBy op' := by simp [t, LogState.loggedBy, List.filter_append, hop]
    have hq'' : t.procs q = .inOp op' := hq'
    rw [used_eq hq'', used_eq hq', hlogged]
  have hself : t.used p = (insert b (s.loggedBy op).toFinset).card := by
    have hp' : t.procs p = .inOp op := hp
    rw [used_eq hp']
    refine congrArg Finset.card (Finset.ext fun b' => ?_)
    simp [t, LogState.loggedBy, List.filter_append]
  have hbefore := h S hS
  rw [← Finset.add_sum_erase S _ hmem, used_eq hp] at hbefore
  show store.log.lh.length + ∑ q ∈ S, (MAXOPBLOCKS - t.used q) ≤ LOGSIZE
  rw [← Finset.add_sum_erase S _ hmem, Finset.sum_congr rfl hother, hself]
  omega

variable [DecidableEq ι] {action : LogAction}

theorem reserved_step (hphases : LogPhases s) (hblocks : LogBlocks s) (h : Reserved s) (hwithin : WithinOp s (p, action))
    (hcase : LogCase s p action t) : Reserved t := by
  have hphases' := logPhases_step hphases hcase
  cases hcase with
  | sleeps hp hfull => exact h.keeps hphases (fun q op hq => setPhase_eq_inOp (by simp) hq) rfl le_rfl
  | begins hp hcommitting hroom => exact reserved_begins hphases' rfl rfl hroom
  | tooBig b data hp hbig => exact h.keeps hphases (fun _ _ hq => hq) rfl le_rfl
  | outside b data hp hout => exact h.keeps hphases (fun _ _ hq => hq) rfl le_rfl
  | @appends op b data hp hsmall hb =>
    have hnew : b ∉ (s.loggedBy op).toFinset := fun hmem =>
      hb (loggedBy_subset hphases hblocks hp (List.mem_toFinset.mp hmem))
    have hcard := Finset.card_insert_of_notMem hnew
    simp only [WithinOp, LogState.uses, hp, List.toFinset_cons] at hwithin
    refine h.logs hphases hp ?_
    rw [List.length_append, List.length_singleton]
    omega
  | @absorbs op b data hp hsmall hb =>
    have hcard := Finset.card_le_card (Finset.subset_insert b (s.loggedBy op).toFinset)
    refine h.logs hphases hp ?_
    show s.store.log.lh.length + _ ≤ _
    omega
  | clashes hp hcommitting => exact h.keeps hphases (fun _ _ hq => hq) rfl le_rfl
  | ends hp hcommitting hmore =>
    exact h.keeps hphases (fun q op hq => setPhase_eq_inOp (by simp) (wakeup_inOp.mp hq)) rfl le_rfl
  | endsLast hp hcommitting hlast => exact h.keeps hphases (fun q op hq => setPhase_eq_inOp (by simp) hq) rfl le_rfl
  | @commits stage next u hp hstep =>
    have hframe := commitStep_frame hstep
    refine h.keeps hphases (fun q op hq => ?_) hframe.logged ?_
    · have hq' := setPhase_eq_inOp (by simp) hq
      rwa [hframe.procs] at hq'
    · rcases (commitStep_grows hstep).2.2 with hlh | ⟨-, hlh⟩
      · exact (congrArg List.length hlh).le
      · exact (congrArg List.length hlh).trans_le (Nat.zero_le _)
  | endsCommit hp => exact h.keeps hphases (fun q op hq => setPhase_eq_inOp (by simp) (wakeup_inOp.mp hq)) rfl le_rfl
  | killed hp => exact h.keeps hphases (fun q op hq => setPhase_eq_inOp (by simp) hq) rfl le_rfl

/-! ### The last entry -/

theorem size_step (hcase : LogCase s p action t) : t.store.log.size = s.store.log.size := by
  cases hcase with
  | commits hp hstep => exact (commitStep_frame hstep).size
  | _ => rfl

omit [DecidableEq ι] in
/-- With the log of `mkfs`, the check of `log_write` lets through what comes before the last entry. -/
theorem tooBig_iff (hsize : s.store.log.size = LOGSIZE) :
    s.store.log.TooBig ↔ LOGSIZE - 1 ≤ s.store.log.lh.length := by
  unfold Log.TooBig
  rw [hsize]
  have : 1 ≤ LOGSIZE := by decide
  omega

/-- The log of a file system that `mkfs` made. -/
def mkfsLog (disk : Disk) : LogState ι := LogState.init Mkfs.sb.logstart Mkfs.sb.nlog.toInt32.toInt disk

/-- A state of a run on the log of `mkfs`, before it panics. -/
structure MkfsInv (s : LogState ι) : Prop where
  inv : LogInv s
  size : s.store.log.size = LOGSIZE
  fits : s.panicked ≠ some "too big a transaction"

omit [DecidableEq ι] in
theorem mkfsInv_init (disk : Disk) : MkfsInv (mkfsLog disk : LogState ι) := ⟨logInv_init _ _ _, rfl, nofun⟩

omit [DecidableEq ι] in
/-- Inside of an operation, `log_write` goes through as long as the last entry is not reached. -/
theorem tooBig_iff_logged (h : MkfsInv s) {op : Nat} (hp : s.procs p = .inOp op) :
    s.store.log.TooBig ↔ ¬s.loggedSince.toFinset.card < LOGSIZE - 1 := by
  rw [tooBig_iff h.size, length_lh h.inv.blocks (h.inv.phases.not_committing hp), not_lt]

theorem mkfsInv_step {l : ι × LogAction} (h : MkfsInv s) (hlast : BeforeLast s l) (hstep : LogStep s l t) :
    MkfsInv t := by
  obtain ⟨p, action⟩ := l
  obtain ⟨-, hcase⟩ := logStep_cases hstep
  refine ⟨logInv_step h.inv hstep, (size_step hcase).trans h.size, fun hbig => ?_⟩
  cases hcase with
  | tooBig b data hp hbig' => exact (tooBig_iff_logged h hp).mp hbig' (hlast b data rfl)
  | outside b data hp hout => simp at hbig
  | clashes hp hcommitting => simp at hbig
  | commits hp hcommit => exact h.fits ((commitStep_frame hcommit).panicked.symm.trans hbig)
  | _ => exact h.fits hbig

theorem beforeLast_of_fits {l : ι × LogAction} (h : MkfsInv s) (h' : MkfsInv t) (hstep : LogStep s l t) :
    BeforeLast s l := by
  intro b data hl
  obtain ⟨p, action⟩ := l
  obtain rfl : action = .logWrite b data := hl
  obtain ⟨-, hcase⟩ := logStep_cases hstep
  obtain ⟨op, hp⟩ := hcase.inOp
  by_contra hnot
  have hbig := (tooBig_iff_logged h hp).mpr hnot
  cases hcase with
  | tooBig b data hp' hbig' => exact h'.fits rfl
  | outside b data hp' hout => exact absurd (h.inv.phases.pos hp) (by omega)
  | appends b data hp' hsmall hb => exact hsmall hbig
  | absorbs b data hp' hsmall hb => exact hsmall hbig

/-- In a run of operations that log at most MAXOPBLOCKS distinct blocks each, the entries in use and those reserved never
    exceed LOGSIZE; `log_write` panics exactly if it is called after all but one of them are taken. -/
theorem noneTooBig_iff {disk : Disk} {ls : List (ι × LogAction)} (hrun : Run LogStep (mkfsLog disk) ls s)
    (hops : AllSteps LogStep (mkfsLog disk) ls WithinOp) :
    AllStates LogStep (mkfsLog disk) ls Reserved ∧
      (AllStates LogStep (mkfsLog disk) ls (fun t => t.panicked ≠ some "too big a transaction") ↔
        AllSteps LogStep (mkfsLog disk) ls BeforeLast) := by
  have hdet : ∀ (s : LogState ι) l t u, LogStep s l t → LogStep s l u → t = u :=
    fun s l t u ht hu => Option.some.inj (ht.symm.trans hu)
  have hinv : AllStates LogStep (mkfsLog disk) ls fun t : LogState ι => LogInv t ∧ t.store.log.size = LOGSIZE :=
    .of_invariant (fun _ _ _ ht hstep => ⟨logInv_step ht.1 hstep, (size_step (logStep_cases hstep).2).trans ht.2⟩)
      ⟨logInv_init _ _ _, rfl⟩
  refine ⟨?_, fun hall => ?_, fun hall => ?_⟩
  · have hreserved : AllStates LogStep (mkfsLog disk) ls fun t : LogState ι => LogInv t ∧ Reserved t :=
      AllSteps.allStates (fun t l u ht hl hstep => ⟨logInv_step ht.1 hstep,
        reserved_step ht.1.phases ht.1.blocks ht.2 hl (logStep_cases hstep).2⟩) ⟨logInv_init _ _ _, reserved_init _ _ _⟩ hops
    exact hreserved.mono fun t ht => ht.2
  · have hmkfs : AllStates LogStep (mkfsLog disk) ls fun t : LogState ι => MkfsInv t :=
      (hinv.and hall).mono fun t ht => ⟨ht.1.1, ht.1.2, ht.2⟩
    exact hmkfs.allSteps hdet (fun t l u ht hu hstep => beforeLast_of_fits ht hu hstep) hrun
  · have hmkfs : AllStates LogStep (mkfsLog disk) ls fun t : LogState ι => MkfsInv t :=
      AllSteps.allStates (fun t l u ht hl hstep => mkfsInv_step ht hl hstep) (mkfsInv_init disk) hall
    exact hmkfs.mono fun t ht => ht.fits

/-- Three operations that together log 30 distinct blocks, ten each. -/
def fullGroup : List (Fin 3 × LogAction) :=
  (List.finRange 3).map (fun p => (p, .beginOp)) ++
    (List.finRange 3).flatMap fun p => (List.range 10).map fun i => (p, .logWrite (.ofNat (100 + 10 * p + i)) .zero)

/-- One operation that logs ten blocks. -/
def oneOp : List (Fin 3 × LogAction) :=
  (0, .beginOp) :: (List.range 10).map fun i => (0, .logWrite (.ofNat (100 + i)) .zero)

theorem fullGroup_runs : (fullGroup.foldlM logStep (mkfsLog fun _ => .zero)).isSome := rfl

theorem oneOp_runs : (oneOp.foldlM logStep (mkfsLog fun _ => .zero)).isSome := rfl

theorem noneTooBig_iff_oneOp :
    AllStates LogStep (mkfsLog fun _ => .zero) oneOp Reserved ∧
      (AllStates LogStep (mkfsLog fun _ => .zero) oneOp (fun t => t.panicked ≠ some "too big a transaction") ↔
        AllSteps LogStep (mkfsLog fun _ => .zero) oneOp BeforeLast) :=
  noneTooBig_iff (run_of_foldlM (Option.some_get oneOp_runs).symm) (allSteps_of_trail (by decide +kernel))

/-- The last call of the full group panics. -/
theorem not_noneTooBig_fullGroup : ¬∀ (disk : Disk) (ls : List (Fin 3 × LogAction)) (s : LogState (Fin 3)),
    Run LogStep (mkfsLog disk) ls s → AllSteps LogStep (mkfsLog disk) ls WithinOp →
      s.panicked ≠ some "too big a transaction" := by
  intro h
  have hwithin : AllSteps LogStep (mkfsLog fun _ => .zero) fullGroup WithinOp := allSteps_of_trail (by decide +kernel)
  exact h (fun _ => .zero) fullGroup _ (run_of_foldlM (Option.some_get fullGroup_runs).symm) hwithin (by decide +kernel)

end LabSO.Kernel

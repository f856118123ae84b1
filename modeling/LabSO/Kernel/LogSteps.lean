import LabSO.Kernel.LogMachine

/-! What each step of the log does, once for all invariants. -/

namespace LabSO.Kernel

variable {ι : Type}

/-! ### The log and the pins under the steps of `commit` -/

@[simp] theorem Store.writeLogAt_log (s : Store) (tail : Nat) (b : BlockNo) : (s.writeLogAt tail b).log = s.log := rfl

@[simp] theorem Store.writeLogAt_pins (s : Store) (tail : Nat) (b : BlockNo) : (s.writeLogAt tail b).pins = s.pins := rfl

@[simp] theorem Store.writeHead_log (s : Store) : s.writeHead.log = s.log := rfl

@[simp] theorem Store.writeHead_pins (s : Store) : s.writeHead.pins = s.pins := rfl

@[simp] theorem Store.installAt_log (s : Store) (tail : Nat) (b : BlockNo) : (s.installAt false tail b).log = s.log := rfl

@[simp] theorem Store.installAt_pins (s : Store) (tail : Nat) (b : BlockNo) :
    (s.installAt false tail b).pins = Function.update s.pins b (s.pins b - 1) := rfl

@[simp] theorem Store.clearHead_log (s : Store) : s.clearHead.log = { s.log with lh := [] } := rfl

@[simp] theorem Store.clearHead_pins (s : Store) : s.clearHead.pins = s.pins := rfl

/-! ### The critical sections -/

theorem Log.beginOp_eq_none {log : Log} (h : log.beginOp = none) : log.committing = true ∨ log.mightExhaust := by
  by_contra hnot
  rw [not_or] at hnot
  rw [beginOp, if_neg hnot.1, if_neg hnot.2] at h
  cases h

theorem Log.beginOp_eq_some {log log' : Log} (h : log.beginOp = some log') :
    log.committing = false ∧ ¬log.mightExhaust ∧ log' = { log with outstanding := log.outstanding + 1 } := by
  unfold beginOp at h
  split at h
  · cases h
  · next hcommitting =>
    split at h
    · cases h
    · next hroom => exact ⟨eq_false_of_ne_true hcommitting, hroom, (Option.some.inj h).symm⟩

theorem Log.endOp_eq_error {log : Log} {msg : String} (h : log.endOp = .error msg) :
    msg = "log.committing" ∧ log.committing = true := by
  unfold endOp at h
  dsimp only at h
  split at h
  · next hcommitting => exact ⟨(Except.error.inj h).symm, hcommitting⟩
  · split at h <;> cases h

theorem Log.endOp_eq_last {log log' : Log} (h : log.endOp = .ok (true, log')) :
    log.committing = false ∧ log.outstanding = 1 ∧ log' = { log with outstanding := 0, committing := true } := by
  unfold endOp at h
  dsimp only at h
  split at h
  · cases h
  · next hcommitting =>
    split at h
    · next hlast =>
      refine ⟨eq_false_of_ne_true hcommitting, by omega, ?_⟩
      rw [← (Prod.mk.inj (Except.ok.inj h)).2, hlast]
    · simp at h

theorem Log.endOp_eq_other {log log' : Log} (h : log.endOp = .ok (false, log')) :
    log.committing = false ∧ log.outstanding ≠ 1 ∧ log' = { log with outstanding := log.outstanding - 1 } := by
  unfold endOp at h
  dsimp only at h
  split at h
  · cases h
  · next hcommitting =>
    split at h
    · simp at h
    · next hlast => exact ⟨eq_false_of_ne_true hcommitting, by omega, (Prod.mk.inj (Except.ok.inj h)).2.symm⟩

/-- The check of `log_write`. -/
def Log.TooBig (log : Log) : Prop := log.lh.length ≥ LOGSIZE ∨ log.lh.length ≥ log.size - 1

theorem Log.logWrite_eq_error {log : Log} {b : BlockNo} {msg : String} (h : log.logWrite b = .error msg) :
    (msg = "too big a transaction" ∧ log.TooBig) ∨ (msg = "log_write outside of trans" ∧ log.outstanding < 1) := by
  unfold logWrite at h
  split at h
  · next hbig => exact Or.inl ⟨(Except.error.inj h).symm, hbig⟩
  · split at h
    · next hout => exact Or.inr ⟨(Except.error.inj h).symm, hout⟩
    · dsimp only at h
      split at h <;> cases h

theorem Log.logWrite_eq_ok {log log' : Log} {b : BlockNo} {new : Bool} (h : log.logWrite b = .ok (new, log')) :
    ¬log.TooBig ∧ ((new = true ∧ b ∉ log.lh ∧ log' = { log with lh := log.lh ++ [b] }) ∨
      (new = false ∧ b ∈ log.lh ∧ log' = log)) := by
  unfold logWrite at h
  split at h
  · cases h
  · next hbig =>
    refine ⟨hbig, ?_⟩
    split at h
    · cases h
    · dsimp only at h
      split at h
      · next hi =>
        cases h
        exact Or.inl ⟨rfl, List.idxOf_eq_length_iff.mp hi, rfl⟩
      · next hi =>
        cases h
        have hmem : b ∈ log.lh := by
          by_contra hnot
          exact hi (List.idxOf_eq_length_iff.mpr hnot)
        refine Or.inr ⟨rfl, hmem, ?_⟩
        -- The entry that is found has the number that is written.
        have hlt := List.idxOf_lt_length_iff.mpr hmem
        have hset := List.set_getElem_self hlt
        rw [List.getElem_idxOf hlt] at hset
        rw [hset]

/-! ### The steps -/

/-- What the steps of `commit` leave alone. -/
structure LogState.Frame (s t : LogState ι) : Prop where
  procs : t.procs = s.procs
  panicked : t.panicked = s.panicked
  ops : t.ops = s.ops
  commits : t.commits = s.commits
  logged : t.logged = s.logged
  outstanding : t.store.log.outstanding = s.store.log.outstanding
  committing : t.store.log.committing = s.store.log.committing
  size : t.store.log.size = s.store.log.size

theorem commitStep_frame {s t : LogState ι} {stage next : CommitAt} (h : s.commitStep stage = some (next, t)) :
    s.Frame t := by
  cases stage with
  | writeLog tail =>
    rw [LogState.commitStep] at h
    split at h <;> cases h <;> exact ⟨rfl, rfl, rfl, rfl, rfl, rfl, rfl, rfl⟩
  | install tail =>
    rw [LogState.commitStep] at h
    split at h <;> cases h <;> exact ⟨rfl, rfl, rfl, rfl, rfl, rfl, rfl, rfl⟩
  | returned => cases h
  | writeHead | clearHead | eraseHead =>
    cases h
    exact ⟨rfl, rfl, rfl, rfl, rfl, rfl, rfl, rfl⟩

/-- What `commit` has written stays so, and the list stays until it is cleared. -/
theorem commitStep_grows {s t : LogState ι} {stage next : CommitAt} (h : s.commitStep stage = some (next, t)) :
    s.written ⊆ t.written ∧ s.installed ⊆ t.installed ∧
      (t.store.log.lh = s.store.log.lh ∨ stage = .clearHead ∧ t.store.log.lh = []) := by
  cases stage with
  | writeLog tail =>
    rw [LogState.commitStep] at h
    split at h <;> cases h
    · exact ⟨List.subset_append_left _ _, List.Subset.refl _, Or.inl rfl⟩
    · exact ⟨List.Subset.refl _, List.Subset.refl _, Or.inl rfl⟩
  | install tail =>
    rw [LogState.commitStep] at h
    split at h <;> cases h
    · exact ⟨List.Subset.refl _, List.subset_append_left _ _, Or.inl rfl⟩
    · exact ⟨List.Subset.refl _, List.Subset.refl _, Or.inl rfl⟩
  | clearHead =>
    cases h
    exact ⟨List.Subset.refl _, List.Subset.refl _, Or.inr ⟨rfl, rfl⟩⟩
  | returned => cases h
  | writeHead | eraseHead =>
    cases h
    exact ⟨List.Subset.refl _, List.Subset.refl _, Or.inl rfl⟩

variable [DecidableEq ι]

/-- What a step of a process can do. -/
inductive LogCase (s : LogState ι) (p : ι) : LogAction → LogState ι → Prop
  | sleeps (hp : s.procs p = .user ∨ s.procs p = .woken)
    (hfull : s.store.log.committing = true ∨ s.store.log.mightExhaust) : LogCase s p .beginOp (s.setPhase p .sleeping)
  | begins (hp : s.procs p = .user ∨ s.procs p = .woken) (hcommitting : s.store.log.committing = false)
    (hroom : ¬s.store.log.mightExhaust) :
    LogCase s p .beginOp { (s.setLog { s.store.log with outstanding := s.store.log.outstanding + 1 }).setPhase p (.inOp s.ops) with
      ops := s.ops + 1 }
  | tooBig {op : Nat} (b : BlockNo) (data : Block) (hp : s.procs p = .inOp op) (hbig : s.store.log.TooBig) :
    LogCase s p (.logWrite b data) { s with store := s.store.setBuf b data, panicked := some "too big a transaction" }
  | outside {op : Nat} (b : BlockNo) (data : Block) (hp : s.procs p = .inOp op) (hout : s.store.log.outstanding < 1) :
    LogCase s p (.logWrite b data) { s with store := s.store.setBuf b data, panicked := some "log_write outside of trans" }
  | appends {op : Nat} (b : BlockNo) (data : Block) (hp : s.procs p = .inOp op) (hsmall : ¬s.store.log.TooBig)
    (hb : b ∉ s.store.log.lh) :
    LogCase s p (.logWrite b data) { s with
      store := { (s.store.setBuf b data).bpin b with log := { s.store.log with lh := s.store.log.lh ++ [b] } }
      logged := s.logged ++ [⟨op, b, s.commits⟩] }
  | absorbs {op : Nat} (b : BlockNo) (data : Block) (hp : s.procs p = .inOp op) (hsmall : ¬s.store.log.TooBig)
    (hb : b ∈ s.store.log.lh) :
    LogCase s p (.logWrite b data) { s with store := s.store.setBuf b data, logged := s.logged ++ [⟨op, b, s.commits⟩] }
  | clashes {op : Nat} (hp : s.procs p = .inOp op) (hcommitting : s.store.log.committing = true) :
    LogCase s p .endOp { s with panicked := some "log.committing" }
  | ends {op : Nat} (hp : s.procs p = .inOp op) (hcommitting : s.store.log.committing = false)
    (hmore : s.store.log.outstanding ≠ 1) :
    LogCase s p .endOp
      ((s.setLog { s.store.log with outstanding := s.store.log.outstanding - 1 }).setPhase p .user).wakeup
  | endsLast {op : Nat} (hp : s.procs p = .inOp op) (hcommitting : s.store.log.committing = false)
    (hlast : s.store.log.outstanding = 1) :
    LogCase s p .endOp ((s.setLog { s.store.log with outstanding := 0, committing := true }).setPhase p
      (.commit (if s.store.log.lh.length > 0 then .writeLog 0 else .returned)))
  | commits {stage next : CommitAt} {t : LogState ι} (hp : s.procs p = .commit stage)
    (hstep : s.commitStep stage = some (next, t)) : LogCase s p .commit (t.setPhase p (.commit next))
  | endsCommit (hp : s.procs p = .commit .returned) :
    LogCase s p .endCommit { ((s.setLog { s.store.log with committing := false }).setPhase p .user).wakeup with
      commits := s.commits + 1 }
  | killed (hp : s.procs p = .sleeping) : LogCase s p .kill (s.setPhase p .woken)

theorem beginOp_case {s : LogState ι} {p : ι} (hp : s.procs p = .user ∨ s.procs p = .woken) :
    LogCase s p .beginOp (s.beginOp p) := by
  rcases h : s.store.log.beginOp with _ | log
  · rw [LogState.beginOp, h]
    exact .sleeps hp (Log.beginOp_eq_none h)
  · obtain ⟨hcommitting, hroom, rfl⟩ := Log.beginOp_eq_some h
    rw [LogState.beginOp, h]
    exact .begins hp hcommitting hroom

theorem logWrite_case {s : LogState ι} {p : ι} {op : Nat} (hp : s.procs p = .inOp op) (b : BlockNo) (data : Block) :
    LogCase s p (.logWrite b data) (s.logWrite op b data) := by
  rcases h : s.store.log.logWrite b with msg | ⟨new, log⟩
  · rw [LogState.logWrite, h]
    rcases Log.logWrite_eq_error h with ⟨rfl, hbig⟩ | ⟨rfl, hout⟩
    · exact .tooBig b data hp hbig
    · exact .outside b data hp hout
  · rw [LogState.logWrite, h]
    obtain ⟨hsmall, ⟨rfl, hb, rfl⟩ | ⟨rfl, hb, rfl⟩⟩ := Log.logWrite_eq_ok h
    · exact .appends b data hp hsmall hb
    · exact .absorbs b data hp hsmall hb

theorem endOp_case {s : LogState ι} {p : ι} {op : Nat} (hp : s.procs p = .inOp op) : LogCase s p .endOp (s.endOp p) := by
  rcases h : s.store.log.endOp with msg | ⟨last, log⟩
  · obtain ⟨rfl, hcommitting⟩ := Log.endOp_eq_error h
    rw [LogState.endOp, h]
    exact .clashes hp hcommitting
  · rw [LogState.endOp, h]
    cases last with
    | true =>
      obtain ⟨hcommitting, hlast, rfl⟩ := Log.endOp_eq_last h
      exact .endsLast hp hcommitting hlast
    | false =>
      obtain ⟨hcommitting, hmore, rfl⟩ := Log.endOp_eq_other h
      exact .ends hp hcommitting hmore

theorem logStep_cases {s t : LogState ι} {p : ι} {action : LogAction} (h : LogStep s (p, action) t) :
    s.panicked = none ∧ LogCase s p action t := by
  unfold LogStep logStep at h
  split at h
  · cases h
  next hpanicked =>
    refine ⟨by simpa using hpanicked, ?_⟩
    dsimp only at h
    split at h
    · next hp =>
      cases h
      exact beginOp_case (Or.inl hp)
    · next hp =>
      cases h
      exact beginOp_case (Or.inr hp)
    · next hp =>
      cases h
      exact logWrite_case hp _ _
    · next hp =>
      cases h
      exact endOp_case hp
    · next hp =>
      obtain ⟨⟨next, u⟩, hstep, rfl⟩ := Option.map_eq_some_iff.mp h
      exact .commits hp hstep
    · next hp =>
      cases h
      exact .endsCommit hp
    · next hp =>
      cases h
      exact .killed hp
    · cases h

/-- `log_write` is called inside of operations only. -/
theorem LogCase.inOp {s t : LogState ι} {p : ι} {b : BlockNo} {data : Block} (h : LogCase s p (.logWrite b data) t) :
    ∃ op, s.procs p = .inOp op := by
  cases h with
  | tooBig b data hp hbig => exact ⟨_, hp⟩
  | outside b data hp hout => exact ⟨_, hp⟩
  | appends b data hp hsmall hb => exact ⟨_, hp⟩
  | absorbs b data hp hsmall hb => exact ⟨_, hp⟩

end LabSO.Kernel

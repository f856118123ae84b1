import LabSO.Shell.ExecuteChild
import LabSO.Shell.Parsing

/-! No assertion fails while a parsed pipeline is executed, in the shell or in a child, whatever the calls return.
    `parse_pipeline` lets empty commands through, but never alone, and the other assertions hold of any pipeline. -/

namespace LabSO.Shell
open Program

variable {sys : Sys}

/-! ### The calls and the internal commands -/

theorem mockExecvp_avoids (argv : List (Option Text)) : Avoids (mockExecvp sys argv) .abort := by
  intro w
  unfold mockExecvp
  split
  · exact nofun
  · exact nofun

theorem mockExit_avoids {α : Type} (status : Int) : Avoids (mockExit status : Process α) .abort := .halt nofun

theorem builtinCd_avoids {cmd : Scommand} (h : cmd.command ≠ []) : Avoids (builtinCd sys cmd) .abort := by
  obtain ⟨command, out, inp⟩ := cmd
  unfold builtinCd
  match command, h with
  | [first], _ => exact .liftState
  | first :: route :: rest, _ =>
    -- The route is at the front once the name of the command is gone.
    exact .orHalt_bind rfl (.orHalt_bind rfl (.bind .liftState fun res => .onlyIf fun _ => .liftState))

theorem builtinRun_avoids {cmd : Scommand} (h : builtinIsInternal cmd = some true) :
    Avoids (builtinRun sys cmd) .abort := by
  unfold builtinRun
  rw [h]
  dsimp only
  split
  · refine builtinCd_avoids fun hnil => ?_
    simp [builtinIsInternal, Scommand.front, hnil] at h
  · exact .liftState
  · exact mockExit_avoids 0

/-! ### Commands and children -/

theorem redirectIf_avoids (filename : Option Text) (flags : OpenFlags) (fd : Int) :
    Avoids (redirectIf sys filename flags fd) .abort := by
  cases filename with
  | none => exact .pure
  | some filename =>
    exact .bind .liftState fun _ => .bind .liftState fun _ => .bind .liftState fun _ => .bind .liftState fun _ => .pure

theorem executeScommand_avoids (sc : Scommand) : Avoids (executeScommand sys sc) .abort :=
  .orHalt_bind (takeStrings_eq sc) (.bind (redirectIf_avoids _ _ _) fun _ => .bind (redirectIf_avoids _ _ _) fun _ =>
    mockExecvp_avoids _)

theorem childFailed_avoids : Avoids childFailed .abort := .bind .liftState fun _ => mockExit_avoids 1

theorem plugPipe_avoids (other mine fd : Int) : Avoids (plugPipe sys other mine fd) .abort :=
  .bind .liftState fun _ => .bind .liftState fun _ => .bind .liftState fun _ => .pure

theorem runChild_avoids {n i : Nat} {apipe : Pipeline} {sc : Scommand} {before here : Int × Int}
    (hfront : apipe.front = some sc) : Avoids (runChild sys n i apipe before here) .abort := by
  refine .orHalt_bind hfront (.orHalt_bind sc.toStringChecked_eq (.bind (.onlyIf fun _ => ?_) fun _ => ?_))
  · exact .bind .liftState fun _ => .orHalt_bind apipe.destroy_eq (mockExit_avoids 1)
  · exact .bind (.onlyIf fun _ => plugPipe_avoids _ _ _) fun _ => .bind (.onlyIf fun _ => plugPipe_avoids _ _ _) fun _ =>
      .bind (executeScommand_avoids sc) fun _ => childFailed_avoids

/-! ### Pipelines -/

theorem openPipe_avoids (n i : Nat) : Avoids (openPipe sys n i) .abort := by
  unfold openPipe
  split
  · refine .bind ?_ fun pipefd => ?_
    · exact .liftState
    · cases pipefd with
      | none => exact mockExit_avoids 1
      | some pipefd => exact .pure
  · exact .pure

theorem closeBoth_avoids (pipefd : Int × Int) : Avoids (closeBoth sys pipefd) .abort :=
  .bind .liftState fun _ => .bind .liftState fun _ => .pure

/-- As many commands are left as steps. -/
theorem executePipelineLoop_avoids (n : Nat) {k i : Nat} {apipe : Pipeline} (before : Int × Int) (ids : List Int)
    (hlen : apipe.length = k) : Avoids (executePipelineLoop sys n k i apipe before ids) .abort := by
  induction k generalizing i apipe before ids with
  | zero => exact .pure
  | succ k ih =>
    obtain ⟨sc, rest, hcommands⟩ := List.exists_cons_of_length_eq_add_one hlen
    have hfront : apipe.front = some sc := by
      unfold Pipeline.front
      rw [hcommands]
      rfl
    have hpop : apipe.popFront = some { apipe with scommands := rest } := by
      unfold Pipeline.popFront
      rw [hcommands]
    have hrest : Pipeline.length { apipe with scommands := rest } = k := by
      unfold Pipeline.length at hlen ⊢
      rw [hcommands] at hlen
      exact Nat.succ.inj hlen
    refine .bind (openPipe_avoids n i) fun here => .bind .liftState fun pid => .bind ?_ fun _ => ?_
    · exact .onlyIf fun _ => runChild_avoids hfront
    · split
      · exact .bind .liftState fun _ => .pure
      · exact .bind (.onlyIf fun _ => closeBoth_avoids before) fun _ => .orHalt_bind hpop (ih here _ hrest)

theorem waitAll_avoids (pids : List Int) : Avoids (waitAll pids) .abort := by
  induction pids with
  | nil => exact .pure
  | cons pid rest ih => exact .bind .liftState fun _ => ih

theorem executeSingle_avoids {apipe : Pipeline} {sc : Scommand} (hfront : apipe.front = some sc) :
    Avoids (executeSingle sys apipe) .abort := by
  refine .bind .liftState fun pid => .bind (.onlyIf fun _ => ?_) fun _ => ?_
  · exact .orHalt_bind hfront (.bind (executeScommand_avoids sc) fun _ => childFailed_avoids)
  · split
    · exact .liftState
    · exact .liftState

theorem executeSeveral_avoids (apipe : Pipeline) : Avoids (executeSeveral sys apipe) .abort := by
  refine .bind (executePipelineLoop_avoids _ _ _ rfl) fun result => ?_
  cases result with
  | none => exact .pure
  | some result =>
    obtain ⟨ids, apipe⟩ := result
    dsimp only
    split
    · exact waitAll_avoids ids
    · exact .liftState

/-- The assertions only ask that a single command has a string. -/
theorem executePipeline_avoids {apipe : Pipeline} (h : onlyEmpty apipe = false) :
    Avoids (executePipeline sys apipe) .abort := by
  unfold executePipeline
  split
  · exact .pure
  · next hne =>
    obtain ⟨scommands, wait⟩ := apipe
    match scommands with
    | [] => exact absurd rfl hne
    | [sc] =>
      obtain ⟨command, out, inp⟩ := sc
      cases command with
      | nil => cases h
      | cons first rest =>
        refine .orHalt_bind rfl ?_
        split
        · next hinternal => exact .orHalt_bind rfl (builtinRun_avoids (congrArg some hinternal))
        · exact executeSingle_avoids rfl
    | sc :: sc' :: rest => exact .orHalt_bind rfl (executeSeveral_avoids _)

theorem not_onlyEmpty_of_parse {σ : Type} {L : ParserLib σ} {fuel : Nat} {p q : σ} {apipe : Pipeline} {printed : String}
    (h : parsePipeline L fuel p = .ok (some apipe, printed, q)) : onlyEmpty apipe = false := by
  unfold parsePipeline at h
  split at h
  · cases h
  · split at h
    · cases h
    · cases h
    · dsimp only at h
      split at h
      · cases h
      · next honly =>
        split at h
        · cases h
        · cases h
          exact Bool.eq_false_iff.mpr honly

/-- A pipeline that `parse_pipeline` returned is executed without a failing assertion, from any state and with any
    outcome of the calls; what `close` and `dup2` return is not looked at, and a child is the case in which `fork`
    returns 0. Afterwards any pipeline can be destroyed. -/
theorem executePipeline_asserts {σ : Type} (L : ParserLib σ) (fuel : Nat) (p q : σ) (apipe : Pipeline) (printed : String)
    (h : parsePipeline L fuel p = .ok (some apipe, printed, q)) :
    (∀ (sys : Sys) (w : World), (executePipeline sys apipe w).1 ≠ .error .abort) ∧
    ∀ rest : Pipeline, rest.destroy = some () :=
  ⟨fun _ => executePipeline_avoids (not_onlyEmpty_of_parse h), Pipeline.destroy_eq⟩

theorem executePipeline_asserts_trailing :
    (∀ (sys : Sys) (w : World), (executePipeline sys ⟨[⟨["ls".toList], none, none⟩, Scommand.new], true⟩ w).1 ≠
      .error .abort) ∧ ∀ rest : Pipeline, rest.destroy = some () :=
  executePipeline_asserts (textParser plainWord) 10 "ls |\n".toList [] _ "" rfl

end LabSO.Shell

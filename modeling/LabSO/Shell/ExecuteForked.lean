import LabSO.Shell.Outcomes

/-! The children of `execute_pipeline`, whatever its calls give. A process that came from a `fork` does not return: it
    ends in `execvp`, or in `exit` with a failure, and makes no further `fork` and no `waitpid`. -/

namespace LabSO.Shell
open Program

variable {os : Os} {α β : Type} {m : Process α} {f : α → Process β} {apipe : Pipeline}

/-- How a child may end. -/
def ChildEnding : Ending → Prop
  | .exec _ => True
  | .exit status => status ≠ 0
  | .abort => False

/-- The program does not return, ends as a child may, and neither forks nor waits. -/
structure Final (m : Process α) : Prop where
  ends : ∀ w, Wp ChildEnding m (fun _ _ => False) w
  quiet : Emits m Quiet

/-- The program neither forks nor waits, and if it halts, it ends as a child may. -/
structure Safe (m : Process α) : Prop where
  ends : ∀ w, Wp ChildEnding m (fun _ _ => True) w
  quiet : Emits m Quiet

theorem Final.bind (hm : Final m) : Final (m >>= f) where
  ends w := (hm.ends w).bind fun _ _ h => h.elim
  quiet w := by
    obtain ⟨calls, hlog, hcalls⟩ := hm.quiet w
    refine ⟨calls, ?_, hcalls⟩
    have hends := hm.ends w
    rcases hw : m w with ⟨e | a, t⟩
    · have hhalts : (m >>= f) w = (.error e, t) := Halts.bind hw
      rw [hhalts]
      rwa [hw] at hlog
    · exact (hends.post hw).elim

theorem Safe.bind (hm : Safe m) (hf : ∀ a, Safe (f a)) : Safe (m >>= f) where
  ends w := (hm.ends w).bind fun a t _ => (hf a).ends t
  quiet := hm.quiet.bind fun a => (hf a).quiet

theorem Safe.bind_final (hm : Safe m) (hf : ∀ a, Final (f a)) : Final (m >>= f) where
  ends w := (hm.ends w).bind fun a t _ => (hf a).ends t
  quiet := hm.quiet.bind fun a => (hf a).quiet

theorem Safe.pure (a : α) : Safe (Pure.pure a) := ⟨fun _ => .pure trivial, .pure a⟩

theorem Safe.onlyIf {c : Prop} [Decidable c] {m : Process Unit} (hm : Safe m) : Safe (Program.onlyIf c m) where
  ends w := .onlyIf (fun _ => hm.ends w) fun _ => trivial
  quiet := hm.quiet.onlyIf

/-- An expression that has a value does not end the process. -/
theorem Final.orHalt_bind {e : Ending} {o : Option α} {a : α} (ho : o = some a) (hf : Final (f a)) :
    Final (Program.orHalt e o >>= f) := by
  rw [ho]
  exact hf

/-- A part of the child that ends it. -/
theorem Final.onlyIf {c : Prop} [Decidable c] {m : Process Unit} (hm : Final m) : Safe (Program.onlyIf c m) where
  ends w := .onlyIf (fun _ => (hm.ends w).mono fun _ _ _ => trivial) fun _ => trivial
  quiet := hm.quiet.onlyIf

theorem Logs.safe {record : α → Call} (h : Logs m record) (hquiet : ∀ a, Quiet (record a)) : Safe m where
  ends w := by
    obtain ⟨result, fds, hreturns⟩ := h w
    exact .of_returns hreturns trivial
  quiet w := by
    obtain ⟨result, fds, hreturns⟩ := h w
    refine ⟨[record result], by rw [hreturns], fun call hcall => ?_⟩
    rw [List.mem_singleton.mp hcall]
    exact hquiet result

theorem print_safe (stream : Stream) (text : String) : Safe (print stream text) := by
  have hlogs : Logs (print stream text) fun _ => .print stream text.toList := logs_push fun _ => rfl
  exact hlogs.safe fun _ => ⟨rfl, rfl⟩

/-! ### The child -/

theorem close_safe (fd : Int) : Safe (os.close fd) := (os.logs_close fd).safe fun _ => ⟨rfl, rfl⟩

theorem dup2_safe (oldfd newfd : Int) : Safe (os.dup2 oldfd newfd) := (os.logs_dup2 oldfd newfd).safe fun _ => ⟨rfl, rfl⟩

theorem redirectIf_safe (filename : Option Text) (flags : OpenFlags) (fd : Int) : Safe (os.redirectIf filename flags fd) := by
  cases filename with
  | none => exact .pure ()
  | some filename =>
    exact ((os.logs_openFile filename flags).safe fun _ => ⟨rfl, rfl⟩).bind fun file => (close_safe fd).bind fun _ =>
      (dup2_safe file fd).bind fun _ => (close_safe file).bind fun _ => .pure ()

theorem execvp_safe (argv : List (Option Text)) : Safe (os.execvp argv) where
  ends w := by
    obtain ⟨fds, hreturns | hhalts⟩ := os.logs_execvp argv w
    · exact .of_returns hreturns trivial
    · exact .of_halts hhalts trivial
  quiet w := by
    obtain ⟨fds, hrun | hrun⟩ := os.logs_execvp argv w
    · exact ⟨[.execvp argv], by rw [hrun], fun call hcall => by rw [List.mem_singleton.mp hcall]; exact ⟨rfl, rfl⟩⟩
    · exact ⟨[.execvp argv], by rw [hrun], fun call hcall => by rw [List.mem_singleton.mp hcall]; exact ⟨rfl, rfl⟩⟩

theorem executeScommand_safe (sc : Scommand) : Safe (os.executeScommand sc) := by
  rw [Os.executeScommand, takeStrings_eq]
  exact (redirectIf_safe _ _ _).bind fun _ => (redirectIf_safe _ _ _).bind fun _ => execvp_safe _

theorem exit_final : Final (mockExit 1 : Process α) := ⟨fun _ => .halt (show (1 : Int) ≠ 0 by decide), .halt _⟩

theorem childFailed_final : Final childFailed := (print_safe _ _).bind_final fun _ => exit_final

theorem plugPipe_safe (other mine fd : Int) : Safe (os.plugPipe other mine fd) :=
  (close_safe other).bind fun _ => (dup2_safe mine fd).bind fun _ => (close_safe mine).bind fun _ => .pure ()

theorem runChild_final {n i : Nat} {sc : Scommand} {before here : Int × Int} (hfront : apipe.front = some sc) :
    Final (os.runChild n i apipe before here) := by
  have hempty : Final (do
      print .stdout "Error, es necesario otro comando.\n"
      orHalt .abort apipe.destroy
      mockExit 1 : Process Unit) := by
    rw [apipe.destroy_eq]
    exact (print_safe _ _).bind_final fun _ => exit_final
  rw [Os.runChild, hfront]
  refine Final.orHalt_bind rfl (Final.orHalt_bind sc.toStringChecked_eq ?_)
  exact hempty.onlyIf.bind_final fun _ => (plugPipe_safe _ _ _).onlyIf.bind_final fun _ =>
    (plugPipe_safe _ _ _).onlyIf.bind_final fun _ => (executeScommand_safe sc).bind_final fun _ => childFailed_final

/-! ### The shell and its children -/

/-- Whatever the calls give, after a `fork` that returned 0 the process neither forks nor waits, and ends as a child
    may. -/
def Apart (m : Process α) : Prop :=
  ∀ w, ∃ calls, (m w).2.log = w.log ++ calls ∧ ∀ before after, calls = before ++ .fork 0 :: after →
    (∃ ending, (m w).1 = .error ending ∧ ChildEnding ending) ∧ ∀ call ∈ after, Quiet call

theorem not_noFork (pid : Int) : ¬NoFork (.fork pid) := fun h : true = false => nomatch h

/-- The call does not create this process. -/
def NotForked (call : Call) : Prop := call ≠ .fork 0

theorem Apart.of_emits (h : Emits m NotForked) : Apart m := by
  intro w
  obtain ⟨calls, hlog, hcalls⟩ := h w
  exact ⟨calls, hlog, fun before after heq => absurd rfl (hcalls (.fork 0) (by simp [heq]))⟩

theorem Apart.orHalt_bind {e : Ending} {o : Option α} {a : α} (ho : o = some a) (hf : Apart (f a)) :
    Apart (Program.orHalt e o >>= f) := by
  rw [ho]
  exact hf

theorem Apart.bind (hm : Apart m) (hf : ∀ a, Apart (f a)) : Apart (m >>= f) := by
  intro w
  obtain ⟨calls, hlog, hcalls⟩ := hm w
  rcases hw : m w with ⟨e | a, t⟩
  · have hhalts : (m >>= f) w = (.error e, t) := Halts.bind hw
    rw [hhalts]
    rw [hw] at hlog hcalls
    refine ⟨calls, hlog, fun before after heq => ?_⟩
    obtain ⟨⟨ending, hend, hchild⟩, hafter⟩ := hcalls before after heq
    cases hend
    exact ⟨⟨e, rfl, hchild⟩, hafter⟩
  · have hrun : (m >>= f) w = f a t := Returns.bind_eq hw
    rw [hrun]
    rw [hw] at hlog hcalls
    obtain ⟨calls', hlog', hcalls'⟩ := hf a t
    -- A part that returns has not been forked.
    have hparent : .fork 0 ∉ calls := by
      intro hmem
      obtain ⟨before, after, heq⟩ := List.append_of_mem hmem
      obtain ⟨⟨ending, hend, -⟩, -⟩ := hcalls before after heq
      cases hend
    refine ⟨calls ++ calls', by rw [hlog', hlog, List.append_assoc], fun before after heq => ?_⟩
    rcases List.append_eq_append_iff.mp heq with ⟨before', -, heq'⟩ | ⟨_ | ⟨call, mid⟩, rfl, hmid⟩
    · exact hcalls' before' after heq'
    · exact hcalls' [] after hmid.symm
    · obtain ⟨rfl, -⟩ := List.cons.inj hmid
      exact absurd (List.mem_append_right before List.mem_cons_self) hparent

/-- A `fork`, what the child does, and what the shell does. -/
theorem Apart.fork {child : Process Unit} {rest : Int → Process β} (hchild : Final child) (hrest : ∀ pid, Apart (rest pid)) :
    Apart (do
      let newProc ← os.fork
      onlyIf (newProc = 0) child
      rest newProc) := by
  intro w
  obtain ⟨pid, fds, hfork⟩ := os.logs_fork w
  rw [hfork.bind_eq]
  by_cases hzero : pid = 0
  · subst hzero
    obtain ⟨calls, hlog, hcalls⟩ := hchild.quiet { fds, log := w.log ++ [.fork 0] }
    have hends := hchild.ends { fds, log := w.log ++ [.fork 0] }
    rcases hrun : child { fds, log := w.log ++ [.fork 0] } with ⟨e | a, t⟩
    · have hhalts : Halts (onlyIf ((0 : Int) = 0) child >>= fun _ => rest 0) { fds, log := w.log ++ [.fork 0] } e t :=
        (Halts.onlyIf rfl hrun).bind
      rw [hhalts]
      rw [hrun] at hlog
      refine ⟨.fork 0 :: calls, by rw [hlog, List.append_assoc]; rfl, fun before after heq => ?_⟩
      cases before with
      | nil =>
        obtain ⟨-, rfl⟩ := List.cons.inj heq
        exact ⟨⟨e, rfl, hends.not_halts hrun⟩, hcalls⟩
      | cons first before =>
        obtain ⟨-, rfl⟩ := List.cons.inj heq
        exact absurd (hcalls (.fork 0) (by simp)).2 (not_noFork 0)
    · exact (hends.post hrun).elim
  · obtain ⟨calls, hlog, hcalls⟩ := hrest pid { fds, log := w.log ++ [.fork pid] }
    rw [(Returns.onlyIf_not hzero).bind_eq]
    refine ⟨.fork pid :: calls, by rw [hlog, List.append_assoc]; rfl, fun before after heq => ?_⟩
    cases before with
    | nil =>
      obtain ⟨hpid, -⟩ := List.cons.inj heq
      exact absurd (Call.fork.inj hpid) hzero
    | cons first before =>
      obtain ⟨-, rfl⟩ := List.cons.inj heq
      exact hcalls before after rfl

theorem quiet_notForked {call : Call} (h : Quiet call) : NotForked call := by
  rintro rfl
  exact not_noFork 0 h.2

theorem noFork_notForked {call : Call} (h : NoFork call) : NotForked call := by
  rintro rfl
  exact not_noFork 0 h

theorem Safe.apart (h : Safe m) : Apart m := .of_emits (h.quiet.mono fun _ => quiet_notForked)

theorem openPipe_apart (n i : Nat) : Apart (os.openPipe n i) := by
  unfold Os.openPipe
  split
  · refine ((os.logs_pipe).safe fun _ => ⟨rfl, rfl⟩).apart.bind fun pipefd => ?_
    cases pipefd with
    | none => exact .of_emits (.halt _)
    | some pipefd => exact .of_emits (.pure pipefd)
  · exact .of_emits (.pure _)

theorem closeBoth_safe (pipefd : Int × Int) : Safe (os.closeBoth pipefd) :=
  (close_safe _).bind fun _ => (close_safe _).bind fun _ => .pure ()

theorem executePipelineLoop_apart {n k i : Nat} {before : Int × Int} {ids : List Int} (hlen : apipe.scommands.length = k) :
    Apart (os.executePipelineLoop n k i apipe before ids) := by
  induction k generalizing i apipe before ids with
  | zero => exact .of_emits (.pure _)
  | succ k ih =>
    obtain ⟨rest, hpop, hrest, -⟩ := popFront_of_length hlen
    obtain ⟨sc, hfront⟩ : ∃ sc, apipe.front = some sc := by
      cases hscommands : apipe.scommands with
      | nil => simp [hscommands] at hlen
      | cons sc scommands => exact ⟨sc, by simp [Pipeline.front, hscommands]⟩
    refine (openPipe_apart n i).bind fun here => .fork (runChild_final hfront) fun pid => ?_
    split
    · exact (print_safe _ _).apart.bind fun _ => .of_emits (.pure _)
    · exact (closeBoth_safe before).onlyIf.apart.bind fun _ => .orHalt_bind hpop (ih hrest)

theorem ending_apart (wait : Bool) (pids : List Int) : Apart (if wait then waitAll pids else ignoreChildren) :=
  .of_emits ((ending_emits wait pids).mono fun _ => noFork_notForked)

theorem builtinRun_apart (cmd : Scommand) : Apart (os.builtinRun cmd) := by
  have hchdir : ∀ path, Safe (os.chdir path) := fun path => (os.logs_chdir path).safe fun _ => ⟨rfl, rfl⟩
  have horHalt : ∀ {γ : Type} (o : Option γ), Apart (orHalt .abort o) := fun o => .of_emits (.orHalt _ _)
  unfold Os.builtinRun
  split
  · split
    · unfold Os.builtinCd
      split
      · exact (print_safe _ _).apart
      · exact (horHalt _).bind fun _ => (horHalt _).bind fun _ => (hchdir _).apart.bind fun _ => (print_safe _ _).onlyIf.apart
    · exact (print_safe _ _).apart
    · exact .of_emits (.halt _)
  · exact .of_emits (.halt _)

/-- A process that a `fork` in `execute_pipeline` created ends in a successful `execvp`, or in `exit` with a failure, and
    neither creates a process nor waits for one. -/
theorem executePipeline_apart (os : Os) (apipe : Pipeline) : Apart (os.executePipeline apipe) := by
  unfold Os.executePipeline
  split
  · exact .of_emits (.pure ())
  · refine Apart.bind (.of_emits (.orHalt _ _)) fun alone => ?_
    split
    · exact Apart.bind (.of_emits (.orHalt _ _)) fun sc => builtinRun_apart sc
    · split
      · next hone =>
        obtain ⟨sc, hscommands⟩ := List.length_eq_one_iff.mp hone
        have hfront : apipe.front = some sc := by rw [Pipeline.front, hscommands]; rfl
        have hchild : Final (do
            let sc ← orHalt .abort apipe.front
            os.executeScommand sc
            childFailed) :=
          .orHalt_bind hfront ((executeScommand_safe sc).bind_final fun _ => childFailed_final)
        refine .fork hchild fun pid => ?_
        split
        · exact .of_emits (emits_push fun _ => ⟨_, rfl, nofun⟩)
        · exact .of_emits (emits_push fun _ => ⟨_, rfl, nofun⟩)
      · refine (executePipelineLoop_apart rfl).bind fun result => ?_
        cases result with
        | none => exact .of_emits (.pure ())
        | some result => exact ending_apart result.2.getWait result.1

end LabSO.Shell

import LabSO.Shell.ExecuteParent

/-! Which calls `execute_pipeline` makes, whatever they return. Every `fork` comes before every `waitpid`, and it waits
    for a child only in a foreground pipeline whose forks and pipes all succeed. -/

namespace LabSO.Shell
open Program

variable {sys : Sys} {w : World} {apipe : Pipeline} {α β : Type} {m : Process α} {f : α → Process β} {C D : Call → Prop}

/-- From any state, the program makes calls of one kind only. -/
def Emits (m : Process α) (C : Call → Prop) : Prop :=
  ∀ w, ∃ calls, (m w).2.log = w.log ++ calls ∧ ∀ call ∈ calls, C call

/-- From any state, the program makes calls of the first kind, and then of the second. -/
def EmitsThen (m : Process α) (C D : Call → Prop) : Prop :=
  ∀ w, ∃ calls calls', (m w).2.log = w.log ++ (calls ++ calls') ∧ (∀ call ∈ calls, C call) ∧ ∀ call ∈ calls', D call

/-! ### Rules -/

theorem Emits.pure (a : α) : Emits (Pure.pure a) C := fun _ => ⟨[], (List.append_nil _).symm, nofun⟩

theorem Emits.halt (e : Ending) : Emits (Program.halt e : Process α) C := fun _ => ⟨[], (List.append_nil _).symm, nofun⟩

theorem Emits.orHalt (e : Ending) (o : Option α) : Emits (Program.orHalt e o) C := by
  cases o with
  | none => exact .halt e
  | some a => exact .pure a

theorem Emits.orHalt_bind {e : Ending} {o : Option α} {a : α} (ho : o = some a) (hf : Emits (f a) C) :
    Emits (Program.orHalt e o >>= f) C := by
  rw [ho]
  exact hf

theorem EmitsThen.bind (hm : Emits m C) (hf : ∀ a, EmitsThen (f a) C D) : EmitsThen (m >>= f) C D := by
  intro w
  obtain ⟨calls, hlog, hcalls⟩ := hm w
  rcases hw : m w with ⟨e | a, t⟩
  · have hhalts : (m >>= f) w = (.error e, t) := Halts.bind hw
    rw [hhalts]
    rw [hw] at hlog
    exact ⟨calls, [], by rw [List.append_nil]; exact hlog, hcalls, nofun⟩
  · have hgoes : (m >>= f) w = f a t := Returns.bind_eq hw
    rw [hgoes]
    rw [hw] at hlog
    obtain ⟨before, after, hlog', hbefore, hafter⟩ := hf a t
    refine ⟨calls ++ before, after, ?_, ?_, hafter⟩
    · rw [hlog', hlog]
      simp
    · intro call hcall
      rcases List.mem_append.mp hcall with hcall | hcall
      · exact hcalls call hcall
      · exact hbefore call hcall

theorem Emits.first (h : Emits m C) : EmitsThen m C D := by
  intro w
  obtain ⟨calls, hlog, hcalls⟩ := h w
  exact ⟨calls, [], by rwa [List.append_nil], hcalls, nofun⟩

theorem Emits.second (h : Emits m D) : EmitsThen m C D := by
  intro w
  obtain ⟨calls, hlog, hcalls⟩ := h w
  exact ⟨[], calls, hlog, nofun, hcalls⟩

theorem Emits.bind (hm : Emits m C) (hf : ∀ a, Emits (f a) C) : Emits (m >>= f) C := by
  intro w
  obtain ⟨calls, calls', hlog, hcalls, hcalls'⟩ := EmitsThen.bind (D := C) hm (fun a => (hf a).first) w
  refine ⟨calls ++ calls', hlog, fun call hcall => ?_⟩
  rcases List.mem_append.mp hcall with hcall | hcall
  · exact hcalls call hcall
  · exact hcalls' call hcall

theorem Emits.mono (h : Emits m C) (hCD : ∀ call, C call → D call) : Emits m D := by
  intro w
  obtain ⟨calls, hlog, hcalls⟩ := h w
  exact ⟨calls, hlog, fun call hcall => hCD call (hcalls call hcall)⟩

theorem Emits.onlyIf {c : Prop} [Decidable c] {m : Process Unit} (hm : Emits m C) : Emits (Program.onlyIf c m) C := by
  unfold Program.onlyIf
  split
  · exact hm
  · exact .pure ()

theorem emits_push {g : World → α × World} (hg : ∀ w, ∃ call, (g w).2.log = w.log ++ [call] ∧ C call) :
    Emits (liftState g) C := by
  intro w
  obtain ⟨call, hlog, hcall⟩ := hg w
  refine ⟨[call], hlog, fun call' hcall' => ?_⟩
  rwa [List.mem_singleton.mp hcall']

/-! ### Calls that wait for no child -/

/-- The call waits for no child. -/
def NoWait (call : Call) : Prop := call.waited? = none

/-- The call creates no child. -/
def NoFork (call : Call) : Prop := call.isFork = false

def Quiet (call : Call) : Prop := NoWait call ∧ NoFork call

section
variable {fd fd' pid : Int} {text : String} {stream : Stream}

theorem mockClose_emits : Emits (mockClose sys fd) NoWait := emits_push fun w => by
  split
  · exact ⟨_, rfl, rfl⟩
  · exact ⟨_, rfl, rfl⟩

theorem mockDup2_emits : Emits (mockDup2 sys fd fd') NoWait := emits_push fun w => by
  split
  · exact ⟨_, rfl, rfl⟩
  · split
    · exact ⟨_, rfl, rfl⟩
    · split
      · exact ⟨_, rfl, rfl⟩
      · exact ⟨_, rfl, rfl⟩

theorem mockOpen_emits {filename : Text} {flags : OpenFlags} : Emits (mockOpen sys filename flags) NoWait :=
  emits_push fun w => by
    split
    · exact ⟨_, rfl, rfl⟩
    · exact ⟨_, rfl, rfl⟩

theorem mockPipe_emits : Emits (mockPipe sys) NoWait := emits_push fun w => by
  split
  · exact ⟨_, rfl, rfl⟩
  · dsimp only
    split
    · exact ⟨_, rfl, rfl⟩
    · exact ⟨_, rfl, rfl⟩

theorem mockFork_emits : Emits (mockFork sys) NoWait := emits_push fun _ => ⟨_, rfl, rfl⟩

theorem print_emits (hC : C (.print stream text.toList)) : Emits (print stream text) C := emits_push fun _ => ⟨_, rfl, hC⟩

theorem print_noWait : Emits (print stream text) NoWait := print_emits rfl

theorem mockExecvp_emits {argv : List (Option Text)} : Emits (mockExecvp sys argv) NoWait := by
  intro w
  refine ⟨[.execvp argv], ?_, by simp [NoWait, Call.waited?]⟩
  unfold mockExecvp
  split
  · rfl
  · rfl

end

theorem redirectIf_emits (filename : Option Text) (flags : OpenFlags) (fd : Int) :
    Emits (redirectIf sys filename flags fd) NoWait := by
  cases filename with
  | none => exact .pure ()
  | some filename =>
    exact mockOpen_emits.bind fun _ => mockClose_emits.bind fun _ => mockDup2_emits.bind fun _ =>
      mockClose_emits.bind fun _ => .pure ()

theorem executeScommand_emits (sc : Scommand) : Emits (executeScommand sys sc) NoWait :=
  (Emits.orHalt _ _).bind fun _ => (redirectIf_emits _ _ _).bind fun _ => (redirectIf_emits _ _ _).bind fun _ =>
    mockExecvp_emits

theorem childFailed_emits : Emits childFailed NoWait := print_noWait.bind fun _ => .halt _

theorem plugPipe_emits (other mine fd : Int) : Emits (plugPipe sys other mine fd) NoWait :=
  mockClose_emits.bind fun _ => mockDup2_emits.bind fun _ => mockClose_emits.bind fun _ => .pure ()

theorem runChild_emits (n i : Nat) (before here : Int × Int) : Emits (runChild sys n i apipe before here) NoWait :=
  (Emits.orHalt _ _).bind fun sc => (Emits.orHalt _ _).bind fun _ =>
    (print_noWait.bind fun _ => (Emits.orHalt _ _).bind fun _ => .halt _).onlyIf.bind fun _ =>
      (plugPipe_emits _ _ _).onlyIf.bind fun _ => (plugPipe_emits _ _ _).onlyIf.bind fun _ =>
        (executeScommand_emits sc).bind fun _ => childFailed_emits

theorem openPipe_emits (n i : Nat) : Emits (openPipe sys n i) NoWait := by
  unfold openPipe
  split
  · refine mockPipe_emits.bind fun pipefd => ?_
    cases pipefd with
    | none => exact .halt _
    | some pipefd => exact .pure pipefd
  · exact .pure _

theorem executePipelineLoop_emits {sys : Sys} (n k i : Nat) (apipe : Pipeline) (before : Int × Int) (ids : List Int) :
    Emits (executePipelineLoop sys n k i apipe before ids) NoWait := by
  induction k generalizing i apipe before ids with
  | zero => exact .pure _
  | succ k ih =>
    refine (openPipe_emits n i).bind fun here => mockFork_emits.bind fun pid =>
      (runChild_emits n i before here).onlyIf.bind fun _ => ?_
    split
    · exact print_noWait.bind fun _ => .pure _
    · exact (mockClose_emits.bind fun _ => mockClose_emits.bind fun _ => .pure ()).onlyIf.bind fun _ =>
        (Emits.orHalt _ _).bind fun apipe => ih (i + 1) apipe here _

theorem builtinRun_emits (cmd : Scommand) : Emits (builtinRun sys cmd) Quiet := by
  have hchdir : ∀ path, Emits (mockChdir sys path) Quiet := fun path => emits_push fun _ => ⟨_, rfl, rfl, rfl⟩
  unfold builtinRun
  split
  · split
    · unfold builtinCd
      split
      · exact print_emits ⟨rfl, rfl⟩
      · exact (Emits.orHalt _ _).bind fun _ => (Emits.orHalt _ _).bind fun _ =>
          (hchdir _).bind fun _ => (print_emits ⟨rfl, rfl⟩).onlyIf
    · exact print_emits ⟨rfl, rfl⟩
    · exact .halt _
  · exact .halt _

/-! ### `execute_pipeline` -/

theorem waitAll_emits (pids : List Int) : Emits (waitAll pids) NoFork := by
  induction pids with
  | nil => exact .pure ()
  | cons pid rest ih =>
    have hwait : Emits (mockWaitpid pid) NoFork := emits_push fun _ => ⟨_, rfl, rfl⟩
    exact hwait.bind fun _ => ih

theorem ending_emits (wait : Bool) (pids : List Int) : Emits (if wait then waitAll pids else ignoreChildren) NoFork := by
  split
  · exact waitAll_emits pids
  · exact emits_push fun _ => ⟨_, rfl, rfl⟩

theorem executeSingle_emits (apipe : Pipeline) : EmitsThen (executeSingle sys apipe) NoWait NoFork := by
  refine .bind mockFork_emits fun pid => .bind (Emits.onlyIf ?_) fun _ => Emits.second ?_
  · exact (Emits.orHalt _ _).bind fun sc => (executeScommand_emits sc).bind fun _ => childFailed_emits
  · split
    · exact emits_push fun _ => ⟨_, rfl, rfl⟩
    · exact emits_push fun _ => ⟨_, rfl, rfl⟩

theorem executeSeveral_emits (apipe : Pipeline) : EmitsThen (executeSeveral sys apipe) NoWait NoFork := by
  refine .bind (executePipelineLoop_emits _ _ _ _ _ _) fun result => ?_
  cases result with
  | none => exact (Emits.pure ()).first
  | some result => exact (ending_emits result.2.getWait result.1).second

/-- All forks come before all waits. -/
theorem executePipeline_emits (apipe : Pipeline) : EmitsThen (executePipeline sys apipe) NoWait NoFork := by
  unfold executePipeline
  split
  · exact (Emits.pure ()).first
  · refine .bind (Emits.orHalt _ _) fun alone => ?_
    split
    · exact .bind (Emits.orHalt _ _) fun sc => ((builtinRun_emits sc).mono fun _ h => h.1).first
    · split
      · exact executeSingle_emits apipe
      · exact executeSeveral_emits apipe

/-- The calls of `execute_pipeline` from a state. -/
def pipelineCalls (sys : Sys) (apipe : Pipeline) (w : World) : List Call :=
  (executePipeline sys apipe w).2.log.drop w.log.length

theorem pipelineCalls_eq {calls : List Call} (h : (executePipeline sys apipe w).2.log = w.log ++ calls) :
    pipelineCalls sys apipe w = calls := by
  rw [pipelineCalls, h, List.drop_left]

theorem pipelineCalls_order (sys : Sys) (apipe : Pipeline) (w : World) : ∃ calls calls',
    pipelineCalls sys apipe w = calls ++ calls' ∧ (∀ call ∈ calls, NoWait call) ∧ ∀ call ∈ calls', NoFork call := by
  obtain ⟨calls, calls', hlog, hcalls⟩ := (executePipeline_emits apipe : EmitsThen (executePipeline sys apipe) NoWait NoFork) w
  exact ⟨calls, calls', pipelineCalls_eq hlog, hcalls⟩

theorem mem_child {calls : List Call} {pid : Int} (hpid : 0 < pid) :
    pid ∈ calls.filterMap Call.child? ↔ .fork pid ∈ calls := by
  rw [List.mem_filterMap]
  constructor
  · rintro ⟨call, hcall, hchild⟩
    unfold Call.child? at hchild
    split at hchild
    · split at hchild
      · cases hchild
        exact hcall
      · cases hchild
    · cases hchild
  · exact fun hfork => ⟨_, hfork, if_pos hpid⟩

theorem mem_waited {calls : List Call} {pid : Int} : pid ∈ calls.filterMap Call.waited? ↔ .waitpid pid ∈ calls := by
  rw [List.mem_filterMap]
  constructor
  · rintro ⟨call, hcall, hwaited⟩
    unfold Call.waited? at hwaited
    split at hwaited
    · cases hwaited
      exact hcall
    · cases hwaited
  · exact fun hwait => ⟨_, hwait, rfl⟩

theorem not_waited {calls : List Call} {pid : Int} (h : ∀ call ∈ calls, NoWait call) : .waitpid pid ∉ calls :=
  fun hmem => nomatch h _ hmem

/-- Where a fork or a pipe fails, the shell waits for no child. -/
theorem not_waited_of_fails (hne : apipe.isEmpty = false) (halone : builtinAlone apipe = some false)
    (hforks : ∀ k, sys.fork k = -1 ∨ 0 < sys.fork k) (hfails : ¬ShellSucceeds sys apipe.length w) {pid : Int}
    (hpid : 0 < pid) : .waitpid pid ∉ pipelineCalls sys apipe w := by
  have hshell : ∀ k, sys.fork k ≠ 0 := fun k => by
    have := hforks k
    omega
  by_cases hone : apipe.length = 1
  · have hfork : sys.fork w.forks = -1 := by
      refine (hforks w.forks).resolve_right fun hpos => hfails ⟨fun k hk => ?_, fun k hk => by omega, by omega⟩
      obtain rfl : k = 0 := by omega
      exact hpos
    have hlog : (executePipeline sys apipe w).2.log = w.log ++ (.fork (-1) :: endCalls apipe.getWait [-1]) := by
      rw [executePipeline_single hne halone hone, single_returns (hshell _), hfork]
    rw [pipelineCalls_eq hlog]
    intro hmem
    cases hwait : apipe.getWait <;> rw [hwait] at hmem <;> simp [endCalls] at hmem
    omega
  · have hmany : 2 ≤ apipe.length := by
      have hpos : apipe.length ≠ 0 := by simpa [Pipeline.length, Pipeline.isEmpty] using hne
      omega
    obtain ⟨calls, hlog, hcalls⟩ := executePipelineLoop_emits apipe.length apipe.length 0 apipe (0, 0) [] w
    have hsame : (executePipeline sys apipe w).2.log = w.log ++ calls := by
      rw [executePipeline_several hne hone, ← hlog]
      rcases loop_fails (0, 0) [] hmany (Nat.zero_add _) .first (fun _ => rfl) rfl hshell
        (mt shellSucceeds_iff.mpr hfails) with ⟨w', hhalts⟩ | ⟨w', hloop, -⟩
      · have hseveral : executeSeveral sys apipe w = (.error (.exit 1), w') := hhalts.bind
        rw [hseveral, hhalts]
      · have hseveral : executeSeveral sys apipe w = (.ok (), w') := hloop.bind .pure
        rw [hseveral, hloop]
    rw [pipelineCalls_eq hsame]
    exact not_waited hcalls

/-- The shell waits for a child exactly if it created it for a foreground pipeline whose calls all succeed. -/
theorem waited_iff (hforks : ∀ k, sys.fork k = -1 ∨ 0 < sys.fork k) {pid : Int} (hpid : 0 < pid) :
    .waitpid pid ∈ pipelineCalls sys apipe w ↔
      apipe.getWait = true ∧ ShellSucceeds sys apipe.length w ∧ .fork pid ∈ pipelineCalls sys apipe w := by
  have hquiet : ∀ calls, (executePipeline sys apipe w).2.log = w.log ++ calls → (∀ call ∈ calls, Quiet call) →
      (.waitpid pid ∈ pipelineCalls sys apipe w ↔
        apipe.getWait = true ∧ ShellSucceeds sys apipe.length w ∧ .fork pid ∈ pipelineCalls sys apipe w) := by
    intro calls hlog hcalls
    rw [pipelineCalls_eq hlog]
    exact iff_of_false (not_waited fun call hcall => (hcalls call hcall).1) fun h => by cases (hcalls _ h.2.2).2
  by_cases hne : apipe.isEmpty = true
  · have hreturns : executePipeline sys apipe w = (.ok (), w) := by
      rw [executePipeline, if_pos hne]
      rfl
    exact hquiet [] (by rw [hreturns, List.append_nil]) (by rintro _ ⟨⟩)
  · rw [Bool.not_eq_true] at hne
    rcases halone : builtinAlone apipe with _ | _ | _
    · have hhalts : executePipeline sys apipe w = (.error .abort, w) := by
        rw [executePipeline, if_neg (by simp [hne]), halone]
        rfl
      exact hquiet [] (by rw [hhalts, List.append_nil]) (by rintro _ ⟨⟩)
    · by_cases hok : ShellSucceeds sys apipe.length w
      · obtain ⟨calls, hreturns, hcalls⟩ := executePipeline_shell hne halone hok
        have hlog : (executePipeline sys apipe w).2.log = w.log ++ calls := by rw [hreturns]
        rw [pipelineCalls_eq hlog, ← mem_waited, hcalls.waited, ← mem_child hpid]
        cases apipe.getWait with
        | true => simp [hok]
        | false => simp
      · exact iff_of_false (not_waited_of_fails hne halone hforks hok hpid) fun h => hok h.2.1
    · have hrest : Emits (executePipeline sys apipe) Quiet := by
        rw [executePipeline, if_neg (by simp [hne])]
        refine .orHalt_bind halone ?_
        rw [if_pos rfl]
        exact (Emits.orHalt _ _).bind fun sc => builtinRun_emits sc
      obtain ⟨calls, hlog, hcalls⟩ := hrest w
      exact hquiet calls hlog hcalls

end LabSO.Shell

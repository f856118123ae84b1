import LabSO.Shell.ExecuteCalls
import LabSO.Lib.Transition

/-! The children of the shell over a session: the calls that `execute_pipeline` makes for one pipeline after another,
    with the terminations of the children at any point between them. A child that terminates while SIGCHLD is ignored
    is gone, and otherwise a zombie until the shell waits for it. -/

namespace LabSO.Shell
open Transition

/-- A pipeline that the shell executes, and the state in which it starts to. -/
structure Job where
  apipe : Pipeline
  entry : World

def Job.calls (sys : Sys) (job : Job) : List Call := pipelineCalls sys job.apipe job.entry

/-- What the loop of `main` executes of the pipelines it parsed, up to the end of the shell. -/
def jobs (sys : Sys) : List Pipeline → World → List Job
  | [], _ => []
  | apipe :: rest, w => ⟨apipe, w⟩ ::
    match executePipeline sys apipe w with
    | (.ok (), w) => jobs sys rest w
    | (.error _, _) => []

/-- A child of the shell that is not reaped, with the number of the job that created it. -/
structure Child where
  pid : Int
  job : Nat
  zombie : Bool
deriving DecidableEq, Repr

/-- The shell and its children. -/
structure Host where
  /-- The job number `number`, the last one that the shell started. -/
  job : Job
  number : Nat
  /-- The calls of the job, made and still to make. -/
  made : List Call
  todo : List Call
  later : List Job
  children : List Child
  ignored : Bool

inductive HostAction
  /-- The shell makes its next call; a `waitpid` that waits for a child names it. -/
  | call (reaped : Option Int)
  /-- The shell goes on to the next pipeline. -/
  | next
  | exits (pid : Int)
deriving DecidableEq, Repr

/-- A child with this pid terminates. -/
def Child.exit (pid : Int) (child : Child) : Child := if child.pid = pid then { child with zombie := true } else child

def without (pid : Int) (children : List Child) : List Child := children.filter fun child => child.pid ≠ pid

/-- `waitpid`, with the pid of the zombie it reaps or without any; -1 stands for any child. It blocks while a child it
    waits for is running. -/
def reap (children : List Child) (pid : Int) : Option Int → Option (List Child)
  | some x =>
    if (pid = -1 ∨ pid = x) ∧ ∃ child ∈ children, child.pid = x ∧ child.zombie then some (without x children) else none
  | none => if ∀ child ∈ children, pid ≠ -1 ∧ child.pid ≠ pid then some children else none

/-- What a call does to the children. A new one gets a pid that none of the others has. -/
def makeCall (host : Host) (call : Call) (reaped : Option Int) : Option Host :=
  match call with
  | .fork pid =>
    if 0 < pid then
      if ∀ child ∈ host.children, child.pid ≠ pid then
        some { host with children := host.children ++ [⟨pid, host.number, false⟩] }
      else none
    else some host
  | .waitpid pid => (reap host.children pid reaped).map fun children => { host with children }
  | .signal => some { host with ignored := true }
  | _ => some host

def hostStep (sys : Sys) (host : Host) : HostAction → Option Host
  | .call reaped =>
    match host.todo with
    | [] => none
    | call :: todo => makeCall { host with made := host.made ++ [call], todo } call reaped
  | .next =>
    match host.todo, host.later with
    | [], job :: later => some { host with job, number := host.number + 1, made := [], todo := job.calls sys, later }
    | _, _ => none
  | .exits pid =>
    if ∃ child ∈ host.children, child.pid = pid ∧ child.zombie = false then
      some { host with
        children := if host.ignored then without pid host.children else host.children.map (Child.exit pid) }
    else none

def HostStep (sys : Sys) (host : Host) (action : HostAction) (host' : Host) : Prop := hostStep sys host action = some host'

/-- The shell before its first pipeline. -/
def Host.start (sys : Sys) (pipelines : List Pipeline) (w : World) : Host where
  job := ⟨Pipeline.new, w⟩
  number := 0
  made := []
  todo := []
  later := jobs sys pipelines w
  children := []
  ignored := false

/-- Each zombie is a child of the job in progress, and the shell is still to wait for it. -/
def NoneLost (host : Host) : Prop :=
  ∀ child ∈ host.children, child.zombie = true → child.job = host.number ∧ .waitpid child.pid ∈ host.todo

/-- A child terminates only while SIGCHLD is ignored, or during its own job, if that is a foreground pipeline whose
    forks and pipes all succeed. -/
def EndsInTime (sys : Sys) (host : Host) (action : HostAction) : Prop :=
  ∀ pid, action = .exits pid → host.ignored = true ∨ ∀ child ∈ host.children, child.pid = pid →
    child.job = host.number ∧ host.job.apipe.getWait = true ∧ ShellSucceeds sys host.job.apipe.length host.job.entry

/-! ### What a step does -/

section
variable {sys : Sys} {host host' : Host} {call : Call} {reaped : Option Int} {pid : Int} {children : List Child}

/-- How a call changes the children: it adds one, removes those with one pid, or none. -/
inductive CallCase (host : Host) : Call → Host → Prop
  | fork {pid : Int} (hpid : 0 < pid) (hnew : ∀ child ∈ host.children, child.pid ≠ pid) :
    CallCase host (.fork pid) { host with children := host.children ++ [⟨pid, host.number, false⟩] }
  | reap {pid x : Int} (hpid : pid = -1 ∨ pid = x) :
    CallCase host (.waitpid pid) { host with children := without x host.children }
  | none {pid : Int} (hpid : ∀ child ∈ host.children, pid ≠ -1 ∧ child.pid ≠ pid) : CallCase host (.waitpid pid) host
  | other {call : Call} (ignored : Bool) (hcall : call.waited? = none) (hfork : call.child? = none)
    (hignored : host.ignored = true → ignored = true) : CallCase host call { host with ignored }

theorem makeCall_case (h : makeCall host call reaped = some host') : CallCase host call host' := by
  unfold makeCall at h
  split at h
  · next pid =>
    split at h
    · next hpid =>
      obtain ⟨hnew, heq⟩ := Option.ite_none_right_eq_some.mp h
      cases heq
      exact .fork hpid hnew
    · next hpid =>
      cases h
      exact .other host.ignored rfl (if_neg hpid) id
  · next pid =>
    obtain ⟨children, hreap, rfl⟩ := Option.map_eq_some_iff.mp h
    unfold reap at hreap
    split at hreap
    · next x =>
      obtain ⟨⟨hpid, -⟩, heq⟩ := Option.ite_none_right_eq_some.mp hreap
      cases heq
      exact .reap hpid
    · obtain ⟨hnone, heq⟩ := Option.ite_none_right_eq_some.mp hreap
      cases heq
      exact .none hnone
  · cases h
    exact .other true rfl rfl fun _ => rfl
  · next hfork hwait _ =>
    cases h
    refine .other host.ignored ?_ ?_ id
    · unfold Call.waited?
      split
      · exact absurd rfl (hwait _)
      · rfl
    · unfold Call.child?
      split
      · exact absurd rfl (hfork _)
      · rfl

theorem mem_without {child : Child} (h : child ∈ without pid children) : child ∈ children ∧ child.pid ≠ pid := by
  simpa [without] using h

end

/-! ### Along a session -/

/-- What holds between the calls of a session. -/
structure InSession (sys : Sys) (host : Host) : Prop where
  calls : host.made ++ host.todo = host.job.calls sys
  pid : ∀ child ∈ host.children, 0 < child.pid
  number : ∀ child ∈ host.children, child.job ≤ host.number
  forked : ∀ child ∈ host.children, child.job = host.number → .fork child.pid ∈ host.made
  /-- The shell did not wait for a child that is still there. -/
  pending : ∀ child ∈ host.children, child.job = host.number → .waitpid child.pid ∉ host.made

section
variable {sys : Sys} {host host' : Host} {action : HostAction}

theorem inSession_start (sys : Sys) (pipelines : List Pipeline) (w : World) :
    InSession sys (Host.start sys pipelines w) where
  calls := by
    have hreturns : executePipeline sys Pipeline.new w = (.ok (), w) := rfl
    have hnone : pipelineCalls sys Pipeline.new w = [] := pipelineCalls_eq (by rw [hreturns, List.append_nil])
    exact hnone.symm
  pid := nofun
  number := nofun
  forked := nofun
  pending := nofun

/-- Before a fork of a job comes no wait. -/
theorem not_waited_before {job : Job} {pid pid' : Int} {made todo : List Call}
    (h : made ++ .fork pid :: todo = job.calls sys) : .waitpid pid' ∉ made := by
  obtain ⟨calls, calls', heq, hcalls, hcalls'⟩ := pipelineCalls_order sys job.apipe job.entry
  rw [Job.calls, heq] at h
  rcases List.append_eq_append_iff.mp h with ⟨between, hmade, -⟩ | ⟨between, hmade, hrest⟩
  · exact fun hmem => not_waited hcalls (hmade ▸ List.mem_append_left _ hmem)
  · cases between with
    | nil =>
      rw [List.append_nil] at hmade
      exact hmade ▸ not_waited hcalls
    | cons call between =>
      have hfork := hcalls' (.fork pid) (by rw [hrest]; simp)
      cases hfork

theorem inSession_step (h : InSession sys host) (hstep : HostStep sys host action host') : InSession sys host' := by
  unfold HostStep hostStep at hstep
  cases action with
  | call reaped =>
    dsimp only at hstep
    split at hstep
    · cases hstep
    · next call todo htodo =>
      have hcalls : host.made ++ [call] ++ todo = host.job.calls sys := by
        rw [← h.calls, htodo]
        simp
      have hmade : ∀ c ∈ host.made, c ∈ host.made ++ [call] := fun c => List.mem_append_left _
      cases makeCall_case hstep with
      | @fork pid hpid hnew =>
        have hbefore : ∀ pid', .waitpid pid' ∉ host.made ++ [.fork pid] := by
          intro pid' hmem
          rcases List.mem_append.mp hmem with hmem | hmem
          · exact not_waited_before (by simpa using hcalls) hmem
          · simp at hmem
        refine ⟨hcalls, fun child hchild => ?_, fun child hchild => ?_, fun child hchild hjob => ?_,
          fun child _ _ => hbefore child.pid⟩
        all_goals
          rcases List.mem_append.mp hchild with hchild | hchild
        · exact h.pid child hchild
        · rw [List.mem_singleton.mp hchild]
          exact hpid
        · exact h.number child hchild
        · rw [List.mem_singleton.mp hchild]
        · exact hmade _ (h.forked child hchild hjob)
        · rw [List.mem_singleton.mp hchild]
          simp
      | @reap pid x hpid =>
        refine ⟨hcalls, fun child hchild => h.pid child (mem_without hchild).1,
          fun child hchild => h.number child (mem_without hchild).1,
          fun child hchild hjob => hmade _ (h.forked child (mem_without hchild).1 hjob), fun child hchild hjob hmem => ?_⟩
        obtain ⟨hmem', hne⟩ := mem_without hchild
        have hpos := h.pid child hmem'
        rcases List.mem_append.mp hmem with hmem | hmem
        · exact h.pending child hmem' hjob hmem
        · have heq : child.pid = pid := by simpa using hmem
          rcases hpid with rfl | rfl
          · omega
          · exact hne heq
      | @none pid hpid =>
        refine ⟨hcalls, h.pid, h.number, fun child hchild hjob => hmade _ (h.forked child hchild hjob),
          fun child hchild hjob hmem => ?_⟩
        rcases List.mem_append.mp hmem with hmem | hmem
        · exact h.pending child hchild hjob hmem
        · exact (hpid child hchild).2 (by simpa using hmem)
      | other ignored hcall hfork hignored =>
        refine ⟨hcalls, h.pid, h.number, fun child hchild hjob => hmade _ (h.forked child hchild hjob),
          fun child hchild hjob hmem => ?_⟩
        rcases List.mem_append.mp hmem with hmem | hmem
        · exact h.pending child hchild hjob hmem
        · rw [← List.mem_singleton.mp hmem] at hcall
          cases hcall
  | next =>
    dsimp only at hstep
    split at hstep
    · next job later htodo hlater =>
      cases hstep
      refine ⟨rfl, h.pid, fun child hchild => Nat.le_succ_of_le (h.number child hchild), fun child hchild hjob => ?_,
        fun child hchild hjob => by simp⟩
      have hle := h.number child hchild
      have heq : child.job = host.number + 1 := hjob
      omega
    · cases hstep
  | exits pid =>
    obtain ⟨-, heq⟩ := Option.ite_none_right_eq_some.mp hstep
    cases heq
    -- The children that are left have the pids and jobs they had.
    have hleft : ∀ child ∈ (if host.ignored then without pid host.children else host.children.map (Child.exit pid)),
        ∃ child' ∈ host.children, child'.pid = child.pid ∧ child'.job = child.job := by
      intro child hchild
      split at hchild
      · exact ⟨child, (mem_without hchild).1, rfl, rfl⟩
      · obtain ⟨child', hmem, rfl⟩ := List.mem_map.mp hchild
        refine ⟨child', hmem, ?_, ?_⟩
        · unfold Child.exit
          split <;> rfl
        · unfold Child.exit
          split <;> rfl
    refine ⟨h.calls, fun child hchild => ?_, fun child hchild => ?_, fun child hchild hjob => ?_,
      fun child hchild hjob => ?_⟩
    all_goals
      obtain ⟨child', hmem, hpid, hnumber⟩ := hleft child hchild
    · rw [← hpid]
      exact h.pid child' hmem
    · rw [← hnumber]
      exact h.number child' hmem
    · rw [← hpid]
      exact h.forked child' hmem (hnumber.trans hjob)
    · rw [← hpid]
      exact h.pending child' hmem (hnumber.trans hjob)

/-- A child of the job in progress is still to be waited for exactly if the job waits for its children. -/
theorem InSession.waited_iff (h : InSession sys host) (hforks : ∀ k, sys.fork k = -1 ∨ 0 < sys.fork k) {child : Child}
    (hchild : child ∈ host.children) (hjob : child.job = host.number) : .waitpid child.pid ∈ host.todo ↔
      host.job.apipe.getWait = true ∧ ShellSucceeds sys host.job.apipe.length host.job.entry := by
  have hiff : .waitpid child.pid ∈ host.job.calls sys ↔ host.job.apipe.getWait = true ∧
      ShellSucceeds sys host.job.apipe.length host.job.entry ∧ .fork child.pid ∈ host.job.calls sys :=
    LabSO.Shell.waited_iff hforks (h.pid child hchild)
  rw [← h.calls] at hiff
  have hfork : .fork child.pid ∈ host.made ++ host.todo := List.mem_append_left _ (h.forked child hchild hjob)
  constructor
  · intro hmem
    obtain ⟨hwait, hok, -⟩ := hiff.mp (List.mem_append_right _ hmem)
    exact ⟨hwait, hok⟩
  · rintro ⟨hwait, hok⟩
    exact (List.mem_append.mp (hiff.mpr ⟨hwait, hok, hfork⟩)).resolve_left (h.pending child hchild hjob)

theorem noneLost_step (hin : InSession sys host) (hforks : ∀ k, sys.fork k = -1 ∨ 0 < sys.fork k) (h : NoneLost host)
    (hends : EndsInTime sys host action) (hstep : HostStep sys host action host') : NoneLost host' := by
  unfold HostStep hostStep at hstep
  cases action with
  | call reaped =>
    dsimp only at hstep
    split at hstep
    · cases hstep
    · next call todo htodo =>
      have hnext : ∀ child ∈ host.children, child.zombie = true → call ≠ .waitpid child.pid →
          child.job = host.number ∧ .waitpid child.pid ∈ todo := by
        intro child hchild hzombie hne
        obtain ⟨hjob, hmem⟩ := h child hchild hzombie
        rw [htodo] at hmem
        exact ⟨hjob, (List.mem_cons.mp hmem).resolve_left hne.symm⟩
      cases makeCall_case hstep with
      | fork hpid hnew =>
        intro child hchild hzombie
        rcases List.mem_append.mp hchild with hchild | hchild
        · exact hnext child hchild hzombie nofun
        · rw [List.mem_singleton.mp hchild] at hzombie
          cases hzombie
      | @reap pid x hpid =>
        intro child hchild hzombie
        obtain ⟨hmem, hne⟩ := mem_without hchild
        refine hnext child hmem hzombie fun heq => ?_
        have hpos := hin.pid child hmem
        cases heq
        rcases hpid with hpid | hpid
        · omega
        · exact hne hpid
      | none hpid =>
        intro child hchild hzombie
        refine hnext child hchild hzombie fun heq => ?_
        cases heq
        exact (hpid child hchild).2 rfl
      | other ignored hcall hfork hignored =>
        intro child hchild hzombie
        refine hnext child hchild hzombie fun heq => ?_
        rw [heq] at hcall
        cases hcall
  | next =>
    dsimp only at hstep
    split at hstep
    · next job later htodo hlater =>
      cases hstep
      intro child hchild hzombie
      have hnil := (h child hchild hzombie).2
      rw [htodo] at hnil
      cases hnil
    · cases hstep
  | exits pid =>
    obtain ⟨-, heq⟩ := Option.ite_none_right_eq_some.mp hstep
    cases heq
    intro child hchild hzombie
    dsimp only at hchild
    rcases hends pid rfl with hignored | hjob
    · rw [if_pos hignored] at hchild
      exact h child (mem_without hchild).1 hzombie
    · split at hchild
      · exact h child (mem_without hchild).1 hzombie
      · obtain ⟨child', hmem, rfl⟩ := List.mem_map.mp hchild
        unfold Child.exit at hzombie ⊢
        split
        · next hpid =>
          obtain ⟨hnumber, hwait⟩ := hjob child' hmem hpid
          exact ⟨hnumber, (hin.waited_iff hforks hmem hnumber).mpr hwait⟩
        · next hpid =>
          rw [if_neg hpid] at hzombie
          exact h child' hmem hzombie

theorem endsInTime_of_noneLost (hin : InSession sys host) (hforks : ∀ k, sys.fork k = -1 ∨ 0 < sys.fork k)
    (h : NoneLost host') (hstep : HostStep sys host action host') : EndsInTime sys host action := by
  rintro pid rfl
  by_cases hignored : host.ignored = true
  · exact Or.inl hignored
  · refine Or.inr fun child hchild hpid => ?_
    unfold HostStep hostStep at hstep
    obtain ⟨-, heq⟩ := Option.ite_none_right_eq_some.mp hstep
    cases heq
    have hexit : Child.exit pid child = { child with zombie := true } := if_pos hpid
    have hmem : { child with zombie := true } ∈
        (if host.ignored then without pid host.children else host.children.map (Child.exit pid)) := by
      rw [if_neg hignored, ← hexit]
      exact List.mem_map_of_mem hchild
    obtain ⟨hjob, hwait⟩ := h _ hmem rfl
    exact ⟨hjob, (hin.waited_iff hforks hchild hjob).mp hwait⟩

end

/-- All along a session each zombie is still to be waited for, exactly if no child terminates too early or too late:
    each one that does while SIGCHLD is not ignored is a child of the foreground pipeline in progress. -/
theorem noneLost_iff {sys : Sys} {pipelines : List Pipeline} {w : World} {actions : List HostAction} {host : Host}
    (hforks : ∀ k, sys.fork k = -1 ∨ 0 < sys.fork k)
    (hrun : Run (HostStep sys) (Host.start sys pipelines w) actions host) :
    AllStates (HostStep sys) (Host.start sys pipelines w) actions NoneLost ↔
      AllSteps (HostStep sys) (Host.start sys pipelines w) actions (EndsInTime sys) := by
  have hin : AllStates (HostStep sys) (Host.start sys pipelines w) actions (InSession sys) :=
    .of_invariant (fun _ _ _ => inSession_step) (inSession_start sys pipelines w)
  have hdet : ∀ s l t u, HostStep sys s l t → HostStep sys s l u → t = u :=
    fun s l t u ht hu => Option.some.inj (ht.symm.trans hu)
  constructor
  · intro hall
    exact (hin.and hall).allSteps hdet (fun t l u ht hu hstep => endsInTime_of_noneLost ht.1 hforks hu.2 hstep) hrun
  · intro hall
    have hboth : AllStates (HostStep sys) (Host.start sys pipelines w) actions fun t => InSession sys t ∧ NoneLost t :=
      AllSteps.allStates (T := HostStep sys) (P := fun t => InSession sys t ∧ NoneLost t)
        (fun t l u ht hl hstep => ⟨inSession_step ht.1 hstep, noneLost_step ht.1 hforks ht.2 hl hstep⟩)
        ⟨inSession_start sys pipelines w, nofun⟩ hall
    exact hboth.mono fun _ ht => ht.2

/-- `ls &` and then `ls`. -/
def twoCommands : List Pipeline :=
  [⟨[⟨["ls".toList], none, none⟩], false⟩, ⟨[⟨["ls".toList], none, none⟩], true⟩]

/-- The child of the background command terminates after the call of `signal`. -/
def afterSignal : List HostAction := [.next, .call none, .call none, .exits 100, .next, .call none]

/-- It terminates before. -/
def beforeSignal : List HostAction := [.next, .call none, .exits 100, .call none]

theorem afterSignal_runs : (afterSignal.foldlM (hostStep workingSys) (Host.start workingSys twoCommands mockResetAll)).isSome :=
  rfl

theorem beforeSignal_runs :
    (beforeSignal.foldlM (hostStep workingSys) (Host.start workingSys twoCommands mockResetAll)).isSome := rfl

theorem workingSys_forks (k : Nat) : workingSys.fork k = -1 ∨ 0 < workingSys.fork k := by
  right
  show (0 : Int) < 100 + k
  omega

theorem noneLost_iff_afterSignal :
    AllStates (HostStep workingSys) (Host.start workingSys twoCommands mockResetAll) afterSignal NoneLost ↔
      AllSteps (HostStep workingSys) (Host.start workingSys twoCommands mockResetAll) afterSignal
        (EndsInTime workingSys) :=
  noneLost_iff workingSys_forks (run_of_foldlM (Option.some_get afterSignal_runs).symm)

theorem not_noneLost_beforeSignal : ¬∀ (sys : Sys) (pipelines : List Pipeline) (w : World) (actions : List HostAction)
    (host : Host), (∀ k, sys.fork k = -1 ∨ 0 < sys.fork k) →
    Run (HostStep sys) (Host.start sys pipelines w) actions host → NoneLost host := by
  intro h
  have hnone := h workingSys twoCommands mockResetAll beforeSignal _ workingSys_forks
    (run_of_foldlM (Option.some_get beforeSignal_runs).symm)
  -- Child 100 is a zombie, and the shell has made all its calls for the pipeline.
  obtain ⟨-, hwait⟩ := hnone ⟨100, 1, true⟩ (by decide) rfl
  revert hwait
  decide

end LabSO.Shell

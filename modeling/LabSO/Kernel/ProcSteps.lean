import LabSO.Kernel.ProcMachine
import Mathlib.Tactic.Common

/-! What one step of the process machine does: the cases of an instruction (`Instr`) and of a step (`StepCase`). -/

namespace LabSO.Kernel.Procs

variable {n : Nat} {κ : Type} {init p : Fin n} {s t : State n κ} {pc pc' : Pc n} {effect : Effect n} {event : Event n}

/-! ### The instructions of a thread -/

/-- The instructions in a section, each with what it found. -/
inductive SectionInstr (init : Fin n) (s : State n κ) (p : Fin n) : Section n → Effect n → Pc n → Event n → Prop
  | forkFound {mem : Memory} {np : Fin n} (unused : (s.procs np).state = .unused) :
    SectionInstr init s p (.forkCheck mem np) .skip (.inside (.forkFound mem np)) .silent
  | forkOther {mem : Memory} {np : Fin n} :
    SectionInstr init s p (.forkCheck mem np) .skip (.inside (.forkSkip mem np)) .silent
  | forkSkip {mem : Memory} {np : Fin n} :
    SectionInstr init s p (.forkSkip mem np) (.releaseProc np) (.at (.forkScan mem (np + 1))) .silent
  | create {mem : Memory} {np : Fin n} : SectionInstr init s p (.forkFound mem np)
    (.create np { s.procs np with pid := s.nextpid, state := .used }) (.inside (.forkMemory mem np s.nextpid)) .silent
  | noMemory {mem : Memory} {np : Fin n} {pid : Int} :
    SectionInstr init s p (.forkMemory mem np pid) .skip (.inside (.forkFree np pid)) .silent
  | memory {mem : Memory} {np : Fin n} {pid : Int} :
    SectionInstr init s p (.forkMemory mem np pid) .skip (.inside (.forkContext mem np pid)) .silent
  | setup {mem : Memory} {np : Fin n} {pid : Int} :
    SectionInstr init s p (.forkContext mem np pid) (.setup np) (.inside (.forkCopy mem np pid)) .silent
  | noCopy {mem : Memory} {np : Fin n} {pid : Int} :
    SectionInstr init s p (.forkCopy mem np pid) .skip (.inside (.forkFree np pid)) .silent
  | copy {mem : Memory} {np : Fin n} {pid : Int} :
    SectionInstr init s p (.forkCopy mem np pid) .skip (.inside (.forkRelease np pid)) .silent
  | drop {np : Fin n} {pid : Int} :
    SectionInstr init s p (.forkFree np pid) (.write np (.free n)) (.inside (.forkFail np)) .silent
  | forkFail {np : Fin n} :
    SectionInstr init s p (.forkFail np) (.releaseProc np) (.at (.returned (-1))) .silent
  | forkRelease {np : Fin n} {pid : Int} :
    SectionInstr init s p (.forkRelease np pid) (.releaseProc np) (.at (.forkParent np pid)) .silent
  | adopt {np : Fin n} {pid : Int} : SectionInstr init s p (.forkAdopt np pid)
    (.write np { s.procs np with parent := some p }) (.inside (.forkAdopted np pid)) .silent
  | forkAdopted {np : Fin n} {pid : Int} :
    SectionInstr init s p (.forkAdopted np pid) (.release .wait) (.at (.forkRunnable np pid)) .silent
  | start {np : Fin n} {pid : Int} : SectionInstr init s p (.forkState np pid)
    (.write np { s.procs np with state := .runnable }) (.inside (.forkDone np pid)) (.forked p np pid)
  | forkDone {np : Fin n} {pid : Int} :
    SectionInstr init s p (.forkDone np pid) (.releaseProc np) (.at (.returned pid)) .silent
  | reparent {status : Int} {q : Fin n} (child : (s.procs q).parent = some p) :
    SectionInstr init s p (.exitReparent status q) (.write q { s.procs q with parent := some init })
      (.inside (.wakeup (some (.proc init)) 0 (.reparent status (q + 1)))) .silent
  | reparentOther {status : Int} {q : Fin n} (other : (s.procs q).parent ≠ some p) :
    SectionInstr init s p (.exitReparent status q) .skip (.inside (.exitReparent status (q + 1))) .silent
  | reparentEnd {status : Int} {j : Nat} (all : ¬j < n) :
    SectionInstr init s p (.exitReparent status j) .skip (.inside (.exitWakeup status)) .silent
  | exitWakeup {status : Int} : SectionInstr init s p (.exitWakeup status) .skip
    (.inside (.wakeup ((s.procs p).parent.map .proc) 0 (.exit status))) .silent
  | exitLock {status : Int} :
    SectionInstr init s p (.exitLock status) (.acquireProc p) (.inside (.exitState status)) .silent
  | die {status : Int} : SectionInstr init s p (.exitState status)
    (.write p { s.procs p with xstate := status, state := .zombie }) (.inside .exitRelease) (.exited p status)
  | exitRelease : SectionInstr init s p .exitRelease (.release .wait) (.inside .exitSched) .silent
  | exitSched : SectionInstr init s p .exitSched .swtch .zombie .silent
  | wakeupSelf {chan : Option (Chan n)} {f : Waker} :
    SectionInstr init s p (.wakeup chan p f) .skip (.inside (.wakeup chan (p + 1) f)) .silent
  | wakeupAcquire {chan : Option (Chan n)} {q : Fin n} {f : Waker} (other : q ≠ p) :
    SectionInstr init s p (.wakeup chan q f) (.acquireProc q) (.inside (.wakeupTest chan q f)) .silent
  | wakeupEnd {chan : Option (Chan n)} {j : Nat} {f : Waker} (all : ¬j < n) :
    SectionInstr init s p (.wakeup chan j f) .skip (.inside f.return) .silent
  | wake {chan : Option (Chan n)} {q : Fin n} {f : Waker} : SectionInstr init s p (.wakeupTest chan q f)
    (.write q ((s.procs q).wake chan)) (.inside (.wakeupRelease chan q f)) .silent
  | wakeupRelease {chan : Option (Chan n)} {q : Fin n} {f : Waker} :
    SectionInstr init s p (.wakeupRelease chan q f) (.releaseProc q) (.inside (.wakeup chan (q + 1) f)) .silent
  | waitChild {bad havekids : Bool} {q : Fin n} (child : (s.procs q).parent = some p) :
    SectionInstr init s p (.waitScan bad havekids q) (.acquireProc q) (.inside (.waitCheck bad q)) .silent
  | waitOther {bad havekids : Bool} {q : Fin n} (other : (s.procs q).parent ≠ some p) :
    SectionInstr init s p (.waitScan bad havekids q) .skip (.inside (.waitScan bad havekids (q + 1))) .silent
  | waitNone {bad havekids : Bool} {j : Nat} (all : ¬j < n) :
    SectionInstr init s p (.waitScan bad havekids j) .skip (.inside (.waitReturn (-1))) .silent
  | waitEnd {bad havekids : Bool} {j : Nat} (all : ¬j < n) :
    SectionInstr init s p (.waitScan bad havekids j) .skip (.inside (.waitKilled bad)) .silent
  | waitBad {bad : Bool} {q : Fin n} :
    SectionInstr init s p (.waitCheck bad q) .skip (.inside (.waitFound q (-1))) .silent
  | reap {bad : Bool} {q : Fin n} (zombie : (s.procs q).state = .zombie) :
    SectionInstr init s p (.waitCheck bad q) (.write q (.free n)) (.inside (.waitFound q (s.procs q).pid))
      (.reaped p q (s.procs q).pid (s.procs q).xstate)
  | waitAlive {bad : Bool} {q : Fin n} (alive : (s.procs q).state ≠ .zombie) :
    SectionInstr init s p (.waitCheck bad q) .skip (.inside (.waitSkip bad q)) .silent
  | waitSkip {bad : Bool} {q : Fin n} :
    SectionInstr init s p (.waitSkip bad q) (.releaseProc q) (.inside (.waitScan bad true (q + 1))) .silent
  | waitFound {q : Fin n} {result : Int} :
    SectionInstr init s p (.waitFound q result) (.releaseProc q) (.inside (.waitReturn result)) .silent
  | waitReturn {result : Int} :
    SectionInstr init s p (.waitReturn result) (.release .wait) (.at (.returned result)) .silent
  | waitKilled {bad : Bool} :
    SectionInstr init s p (.waitKilled bad) (.acquireProc p) (.inside (.waitKilledRead bad)) .silent
  | waitKilledRead {bad killed : Bool} :
    SectionInstr init s p (.waitKilledRead bad) .skip (.inside (.waitKilledRelease bad killed)) .silent
  | waitStops {bad killed : Bool} :
    SectionInstr init s p (.waitKilledRelease bad killed) (.releaseProc p) (.inside (.waitReturn (-1))) .silent
  | waitSleeps {bad killed : Bool} :
    SectionInstr init s p (.waitKilledRelease bad killed) (.releaseProc p) (.inside (.sleepAcquire (.wait bad))) .silent
  | sleepAcquire {f : Sleeper} :
    SectionInstr init s p (.sleepAcquire f) (.acquireProc p) (.inside (.sleepRelease f)) .silent
  | sleepRelease {f : Sleeper} :
    SectionInstr init s p (.sleepRelease f) (.release f.lk) (.inside (.sleepMark f)) .silent
  | sleepMark {f : Sleeper} : SectionInstr init s p (.sleepMark f)
    (.write p { s.procs p with chan := some (f.chan p), state := .sleeping }) (.inside (.sleepSched f)) .silent
  | sleepSched {f : Sleeper} : SectionInstr init s p (.sleepSched f) .swtch (.inside (.sleepTidy f)) .silent
  | sleepTidy {f : Sleeper} :
    SectionInstr init s p (.sleepTidy f) (.write p { s.procs p with chan := none }) (.inside (.sleepUnlock f)) .silent
  | sleepUnlock {f : Sleeper} :
    SectionInstr init s p (.sleepUnlock f) (.releaseProc p) (.at (.reacquire f)) .silent
  | kill {pid : Int} {q : Fin n} (same : (s.procs q).pid = pid) : SectionInstr init s p (.killCheck pid q)
    (.write q (s.procs q).kill) (.inside (.killRelease pid q true)) .silent
  | killOther {pid : Int} {q : Fin n} :
    SectionInstr init s p (.killCheck pid q) .skip (.inside (.killRelease pid q false)) .silent
  | killDone {pid : Int} {q : Fin n} :
    SectionInstr init s p (.killRelease pid q true) (.releaseProc q) (.at (.returned 0)) (.killed p pid 0)
  | killNext {pid : Int} {q : Fin n} :
    SectionInstr init s p (.killRelease pid q false) (.releaseProc q) (.at (.killScan pid (q + 1))) .silent
  | setkilled : SectionInstr init s p .setkilled (.write p { s.procs p with killed := true })
    (.inside .setkilledRelease) .silent
  | setkilledRelease : SectionInstr init s p .setkilledRelease (.releaseProc p) (.at .user) .silent

inductive Instr (init : Fin n) (s : State n κ) (p : Fin n) : Pc n → Effect n → Pc n → Event n → Prop
  | returned {result : Int} : Instr init s p (.at (.returned result)) .skip (.at .user) (.returned p result)
  | forkScan {mem : Memory} {q : Fin n} :
    Instr init s p (.at (.forkScan mem q)) (.acquireProc q) (.inside (.forkCheck mem q)) .silent
  | forkNone {mem : Memory} {j : Nat} : Instr init s p (.at (.forkScan mem j)) .skip (.at (.returned (-1))) .silent
  | forkParent {np : Fin n} {pid : Int} :
    Instr init s p (.at (.forkParent np pid)) (.acquire .wait) (.inside (.forkAdopt np pid)) .silent
  | forkRunnable {np : Fin n} {pid : Int} :
    Instr init s p (.at (.forkRunnable np pid)) (.acquireProc np) (.inside (.forkState np pid)) .silent
  | exitAcquire {status : Int} :
    Instr init s p (.at (.exitAcquire status)) (.acquire .wait) (.inside (.exitReparent status 0)) .silent
  | waitAcquire {bad : Bool} :
    Instr init s p (.at (.waitAcquire bad)) (.acquire .wait) (.inside (.waitScan bad false 0)) .silent
  | reacquire {f : Sleeper} : Instr init s p (.at (.reacquire f)) (.acquire f.lk) (.inside f.return) .silent
  | killScan {pid : Int} {q : Fin n} :
    Instr init s p (.at (.killScan pid q)) (.acquireProc q) (.inside (.killCheck pid q)) .silent
  | killNone {pid : Int} {j : Nat} :
    Instr init s p (.at (.killScan pid j)) .skip (.at (.returned (-1))) (.killed p pid (-1))
  | setkilledAcquire : Instr init s p (.at .setkilledAcquire) (.acquireProc p) (.inside .setkilled) .silent
  | otherAcquire {i : Nat} :
    Instr init s p (.at (.otherAcquire i)) (.acquire (.other i)) (.inside (.other i)) .silent
  | inside {sec : Section n} {effect : Effect n} {pc' : Pc n} {event : Event n}
    (instr : SectionInstr init s p sec effect pc' event) : Instr init s p (.inside sec) effect pc' event
  | yieldAcquire {k : Point n} : Instr init s p (.yield .acquire k) (.acquireProc p) (.yield .state k) .silent
  | yieldState {k : Point n} : Instr init s p (.yield .state k)
    (.write p { s.procs p with state := .runnable }) (.yield .sched k) .silent
  | yieldSched {k : Point n} : Instr init s p (.yield .sched k) .swtch (.yield .release k) .silent
  | yieldRelease {k : Point n} : Instr init s p (.yield .release k) (.releaseProc p) (.at k) .silent

theorem sectionStep_instr {sec : Section n} (h : sectionStep init s p sec = some (effect, pc', event)) :
    SectionInstr init s p sec effect pc' event := by
  cases sec <;> simp only [sectionStep] at h
  case forkCheck mem np =>
    split at h
    · next hunused =>
      cases h
      exact .forkFound hunused
    · cases h
      exact .forkOther
  case forkMemory mem np pid =>
    split at h <;> cases h
    · exact .noMemory
    · exact .memory
  case forkCopy mem np pid =>
    split at h <;> cases h
    · exact .noCopy
    · exact .copy
  case exitReparent status j =>
    split at h
    · next hj =>
      split at h <;> cases h
      · next hchild => exact .reparent (q := ⟨j, hj⟩) hchild
      · next hother => exact .reparentOther (q := ⟨j, hj⟩) hother
    · next hall =>
      cases h
      exact .reparentEnd hall
  case wakeup chan j f =>
    split at h
    · next hj =>
      split at h <;> cases h
      · next hself =>
        subst hself
        exact .wakeupSelf
      · next hother => exact .wakeupAcquire (q := ⟨j, hj⟩) hother
    · next hall =>
      cases h
      exact .wakeupEnd hall
  case waitScan bad havekids j =>
    split at h
    · next hj =>
      split at h <;> cases h
      · next hchild => exact .waitChild (q := ⟨j, hj⟩) hchild
      · next hother => exact .waitOther (q := ⟨j, hj⟩) hother
    · next hall =>
      split at h <;> cases h
      · exact .waitEnd hall
      · exact .waitNone hall
  case waitCheck bad q =>
    split at h
    · next hzombie =>
      split at h <;> cases h
      · exact .waitBad
      · exact .reap hzombie
    · next halive =>
      cases h
      exact .waitAlive halive
  case waitKilledRelease bad killed =>
    split at h <;> cases h
    · exact .waitStops
    · exact .waitSleeps
  case killCheck pid q =>
    split at h <;> cases h
    · next hsame => exact .kill hsame
    · exact .killOther
  case killRelease pid q found =>
    cases found <;> cases h
    · exact .killNext
    · exact .killDone
  all_goals
    cases h
    try constructor

theorem threadStep_instr (h : threadStep init s p pc = some (effect, pc', event)) : Instr init s p pc effect pc' event := by
  cases pc with
  | «at» point =>
    cases point <;> simp only [threadStep] at h
    case forkScan mem j =>
      split at h <;> cases h
      · next hj => exact .forkScan (q := ⟨j, hj⟩)
      · exact .forkNone
    case killScan pid j =>
      split at h <;> cases h
      · next hj => exact .killScan (q := ⟨j, hj⟩)
      · exact .killNone
    all_goals
      cases h
      try constructor
  | inside sec => exact .inside (sectionStep_instr h)
  | yield stage k => cases stage <;> cases h <;> constructor
  | zombie => cases h

/-! ### The steps of the machine -/

namespace State

section
variable (s : State n κ) (q : Fin n) (x : Proc n) (pc : Pc n) (h : Option κ) (lk : Outer)

@[simp] theorem setProc_procs : (s.setProc q x).procs = Function.update s.procs q x := rfl
@[simp] theorem setProc_procLock : (s.setProc q x).procLock = s.procLock := rfl
@[simp] theorem setProc_outer : (s.setProc q x).outer = s.outer := rfl
@[simp] theorem setProc_context : (s.setProc q x).context = s.context := rfl
@[simp] theorem setProc_cpus : (s.setProc q x).cpus = s.cpus := rfl
@[simp] theorem setProc_proc : (s.setProc q x).proc = s.proc := rfl
@[simp] theorem setProc_thread : (s.setProc q x).thread = s.thread := rfl
@[simp] theorem setProcLock_procs : (s.setProcLock q h).procs = s.procs := rfl
@[simp] theorem setProcLock_procLock : (s.setProcLock q h).procLock = Function.update s.procLock q h := rfl
@[simp] theorem setProcLock_outer : (s.setProcLock q h).outer = s.outer := rfl
@[simp] theorem setProcLock_context : (s.setProcLock q h).context = s.context := rfl
@[simp] theorem setProcLock_cpus : (s.setProcLock q h).cpus = s.cpus := rfl
@[simp] theorem setProcLock_proc : (s.setProcLock q h).proc = s.proc := rfl
@[simp] theorem setProcLock_thread : (s.setProcLock q h).thread = s.thread := rfl
@[simp] theorem setOuter_procs : (s.setOuter lk h).procs = s.procs := rfl
@[simp] theorem setOuter_procLock : (s.setOuter lk h).procLock = s.procLock := rfl
@[simp] theorem setOuter_outer : (s.setOuter lk h).outer = Function.update s.outer lk h := rfl
@[simp] theorem setOuter_context : (s.setOuter lk h).context = s.context := rfl
@[simp] theorem setOuter_cpus : (s.setOuter lk h).cpus = s.cpus := rfl
@[simp] theorem setOuter_proc : (s.setOuter lk h).proc = s.proc := rfl
@[simp] theorem setOuter_thread : (s.setOuter lk h).thread = s.thread := rfl
@[simp] theorem setContext_procs : (s.setContext q pc).procs = s.procs := rfl
@[simp] theorem setContext_procLock : (s.setContext q pc).procLock = s.procLock := rfl
@[simp] theorem setContext_outer : (s.setContext q pc).outer = s.outer := rfl
@[simp] theorem setContext_context : (s.setContext q pc).context = Function.update s.context q (some pc) := rfl
@[simp] theorem setContext_cpus : (s.setContext q pc).cpus = s.cpus := rfl
@[simp] theorem setContext_proc : (s.setContext q pc).proc = s.proc := rfl
@[simp] theorem setContext_thread : (s.setContext q pc).thread = s.thread := rfl
@[simp] theorem setThread_procs : (s.setThread q pc).procs = s.procs := rfl
@[simp] theorem setThread_procLock : (s.setThread q pc).procLock = s.procLock := rfl
@[simp] theorem setThread_outer : (s.setThread q pc).outer = s.outer := rfl
@[simp] theorem setThread_context : (s.setThread q pc).context = s.context := rfl
@[simp] theorem setThread_cpus : (s.setThread q pc).cpus = s.cpus := rfl
@[simp] theorem setThread_proc : (s.setThread q pc).proc = s.proc := rfl
@[simp] theorem setThread_thread : (s.setThread q pc).thread = Function.update s.thread q pc := rfl

end

section
variable [DecidableEq κ] (s : State n κ) (p : Fin n) (c : κ) (cpu : Cpu n) (o : Option (Fin n)) (pc : Pc n)

@[simp] theorem setCpu_procs : (s.setCpu c cpu).procs = s.procs := rfl
@[simp] theorem setCpu_procLock : (s.setCpu c cpu).procLock = s.procLock := rfl
@[simp] theorem setCpu_outer : (s.setCpu c cpu).outer = s.outer := rfl
@[simp] theorem setCpu_context : (s.setCpu c cpu).context = s.context := rfl
@[simp] theorem setCpu_cpus : (s.setCpu c cpu).cpus = Function.update s.cpus c cpu := rfl
@[simp] theorem setCpu_proc : (s.setCpu c cpu).proc = s.proc := rfl
@[simp] theorem setCpu_thread : (s.setCpu c cpu).thread = s.thread := rfl
@[simp] theorem setCurrent_procs : (s.setCurrent c o).procs = s.procs := rfl
@[simp] theorem setCurrent_procLock : (s.setCurrent c o).procLock = s.procLock := rfl
@[simp] theorem setCurrent_outer : (s.setCurrent c o).outer = s.outer := rfl
@[simp] theorem setCurrent_context : (s.setCurrent c o).context = s.context := rfl
@[simp] theorem setCurrent_cpus : (s.setCurrent c o).cpus = s.cpus := rfl
@[simp] theorem setCurrent_proc : (s.setCurrent c o).proc = Function.update s.proc c o := rfl
@[simp] theorem setCurrent_thread : (s.setCurrent c o).thread = s.thread := rfl
@[simp] theorem goTo_procs : (s.goTo c p cpu pc).procs = s.procs := rfl
@[simp] theorem goTo_procLock : (s.goTo c p cpu pc).procLock = s.procLock := rfl
@[simp] theorem goTo_outer : (s.goTo c p cpu pc).outer = s.outer := rfl
@[simp] theorem goTo_context : (s.goTo c p cpu pc).context = s.context := rfl
@[simp] theorem goTo_cpus : (s.goTo c p cpu pc).cpus = Function.update s.cpus c cpu := rfl
@[simp] theorem goTo_proc : (s.goTo c p cpu pc).proc = s.proc := rfl
@[simp] theorem goTo_thread : (s.goTo c p cpu pc).thread = Function.update s.thread p pc := rfl

end

end State

/-- The table after an instruction. -/
def Effect.procs (s : State n κ) : Effect n → Fin n → Proc n
  | .write q x => Function.update s.procs q x
  | .create q x => Function.update s.procs q x
  | _ => s.procs

theorem applyEffect_procs {c : κ} (ha : applyEffect s c effect = some t) : t.procs = effect.procs s := by
  cases effect with
  | acquire | acquireProc =>
    obtain ⟨-, ht⟩ := Option.ite_none_right_eq_some.mp ha
    cases ht
    rfl
  | _ =>
    cases ha
    rfl

/-- What a process does on request, without a lock taken or given up. -/
inductive Enters (init p : Fin n) : Pc n → Pc n → Prop
  | fork {mem : Memory} : Enters init p (.at .user) (.at (.forkScan mem 0))
  | exit {status : Int} (other : p ≠ init) : Enters init p (.at .user) (.at (.exitAcquire status))
  | wait {bad : Bool} : Enters init p (.at .user) (.at (.waitAcquire bad))
  | kill {pid : Int} : Enters init p (.at .user) (.at (.killScan pid 0))
  | setkilled : Enters init p (.at .user) (.at .setkilledAcquire)
  | lock {i : Nat} : Enters init p (.at .user) (.at (.otherAcquire i))
  | sleep {i chan : Nat} : Enters init p (.inside (.other i)) (.inside (.sleepAcquire (.other i chan)))
  | wakeup {i chan : Nat} : Enters init p (.inside (.other i)) (.inside (.wakeup (some (.other chan)) 0 (.other i)))
  | preempt {k : Point n} : Enters init p (.at k) (.yield .acquire k)

variable [DecidableEq κ]

inductive StepCase (init : Fin n) (s : State n κ) : Action n κ × Event n → State n κ → Prop
  | scan {c : κ} {q : Fin n} (cpu : s.cpus c = .scan q) (free : s.procLock q = none) :
    StepCase init s (.cpu c, .silent) ((s.setProcLock q (some c)).setCpu c (.check q))
  | wrap {c : κ} {j : Nat} (cpu : s.cpus c = .scan j) : StepCase init s (.cpu c, .silent) (s.setCpu c (.scan 0))
  | choose {c : κ} {q : Fin n} (cpu : s.cpus c = .check q) (runnable : (s.procs q).state = .runnable) :
    StepCase init s (.cpu c, .silent) ((s.setProc q { s.procs q with state := .running }).setCpu c (.set q))
  | pass {c : κ} {q : Fin n} (cpu : s.cpus c = .check q) : StepCase init s (.cpu c, .silent) (s.setCpu c (.unlock q))
  | set {c : κ} {q : Fin n} (cpu : s.cpus c = .set q) :
    StepCase init s (.cpu c, .silent) ((s.setCurrent c (some q)).setCpu c (.restore q))
  | restore {c : κ} {q : Fin n} {pc : Pc n} (cpu : s.cpus c = .restore q) (context : s.context q = some pc) :
    StepCase init s (.cpu c, .silent) (s.setCpu c (.run q pc))
  | thread {c : κ} {p : Fin n} {pc pc' : Pc n} {effect : Effect n} {event : Event n} {t : State n κ}
    (cpu : s.cpus c = .run p pc) (instr : Instr init s p pc effect pc' event) (apply : applyEffect s c effect = some t) :
    StepCase init s (.cpu c, event) (t.goTo c p (effect.cpu p pc') pc')
  | save {c : κ} {p : Fin n} {pc : Pc n} (cpu : s.cpus c = .save p pc) :
    StepCase init s (.cpu c, .silent) ((s.setContext p pc).setCpu c (.clear p))
  | clear {c : κ} {p : Fin n} (cpu : s.cpus c = .clear p) :
    StepCase init s (.cpu c, .silent) ((s.setCurrent c none).setCpu c (.unlock p))
  | unlock {c : κ} {q : Fin n} (cpu : s.cpus c = .unlock q) :
    StepCase init s (.cpu c, .silent) ((s.setProcLock q none).setCpu c (.scan (q + 1)))
  | enters {a : Action n κ} {c : κ} {p : Fin n} {pc pc' : Pc n} (cpu : s.cpus c = .run p pc) (enters : Enters init p pc pc') :
    StepCase init s (a, .silent) (s.goTo c p (.run p pc') pc')
  | unlockOther {a : Action n κ} {c : κ} {p : Fin n} {i : Nat} (cpu : s.cpus c = .run p (.inside (.other i))) :
    StepCase init s (a, .silent) ((s.setOuter (.other i) none).goTo c p (.run p (.at .user)) (.at .user))
  | interrupt {q : Fin n} {chan : Nat} (free : s.procLock q = none) :
    StepCase init s (.interrupt q chan, .silent) (s.setProc q ((s.procs q).wake (some (.other chan))))

theorem enter_inv {r : Request} (h : enter init p pc r = some pc') : Enters init p pc pc' := by
  unfold enter at h
  split at h
  · cases h
    exact .fork
  · split at h
    · cases h
    · next hne =>
      cases h
      exact .exit hne
  · cases h
    exact .wait
  · cases h
    exact .kill
  · cases h
    exact .setkilled
  · cases h
    exact .lock
  · cases h
    exact .sleep
  · cases h
    exact .wakeup
  · cases h

theorem cpuStep_inv {c : κ} (h : cpuStep init s c = some (event, t)) : StepCase init s (.cpu c, event) t := by
  unfold cpuStep at h
  split at h
  · next j hcpu =>
    split at h
    · next hj =>
      split at h <;> cases h
      next hfree => exact .scan (q := ⟨j, hj⟩) hcpu hfree
    · cases h
      exact .wrap hcpu
  · next q hcpu =>
    split at h <;> cases h
    · next hrunnable => exact .choose hcpu hrunnable
    · exact .pass hcpu
  · next q hcpu =>
    cases h
    exact .set hcpu
  · next q hcpu =>
    obtain ⟨pc, hpc, heq⟩ := Option.map_eq_some_iff.mp h
    cases heq
    exact .restore hcpu hpc
  · next p pc hcpu =>
    split at h
    · cases h
    · next effect pc' event' hthread =>
      obtain ⟨u, hu, heq⟩ := Option.map_eq_some_iff.mp h
      cases heq
      exact .thread hcpu (threadStep_instr hthread) hu
  · next p pc hcpu =>
    cases h
    exact .save hcpu
  · next p hcpu =>
    cases h
    exact .clear hcpu
  · next q hcpu =>
    cases h
    exact .unlock hcpu

theorem request_inv {c : κ} {r : Request} (h : step init s (.request c r) = some (event, t)) :
    StepCase init s (.request c r, event) t := by
  simp only [step] at h
  split at h
  · next p pc hcpu =>
    split at h
    · obtain ⟨u, hu, heq⟩ := Option.map_eq_some_iff.mp h
      cases heq
      unfold unlockStep at hu
      split at hu <;> cases hu
      exact .unlockOther hcpu
    · obtain ⟨pc', hpc', heq⟩ := Option.map_eq_some_iff.mp h
      cases heq
      exact .enters hcpu (enter_inv hpc')
  · cases h

theorem preempt_inv {c : κ} (h : step init s (.preempt c) = some (event, t)) : StepCase init s (.preempt c, event) t := by
  simp only [step] at h
  split at h
  · next p k hcpu =>
    split at h <;> cases h
    exact .enters hcpu .preempt
  · cases h

theorem step_inv {l : Action n κ × Event n} (h : Step init s l t) : StepCase init s l t := by
  obtain ⟨action, event⟩ := l
  simp only [Transition.ofStep] at h
  cases action with
  | cpu c => exact cpuStep_inv h
  | request c r => exact request_inv h
  | preempt c => exact preempt_inv h
  | interrupt q chan =>
    simp only [step] at h
    split at h <;> cases h
    next hfree => exact .interrupt hfree

end LabSO.Kernel.Procs

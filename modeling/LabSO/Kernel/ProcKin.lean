import LabSO.Kernel.ProcFamily
import LabSO.Kernel.ProcSched

/-! The process table as a family: the slots hold the processes that have not been waited for, and every step of the machine
    is one the family allows. Only while `reparent` runs does a slot say `init` where the family has the exiting parent. -/

namespace LabSO.Kernel.Procs
open Transition Locks

variable {n : Nat} {κ : Type} {init p : Fin n} {s t : State n κ} {pc pc' : Pc n} {effect : Effect n} {event : Event n}

/-! ### Places in the code -/

/-- In `exit` with `wait_lock`, until the state is set: how many slots `reparent` has passed. -/
def Section.orphans : Section n → Option Nat
  | .exitReparent _ j | .wakeup _ _ (.reparent _ j) | .wakeupTest _ _ (.reparent _ j)
  | .wakeupRelease _ _ (.reparent _ j) => some j
  | .exitWakeup _ | .wakeup _ _ (.exit _) | .wakeupTest _ _ (.exit _) | .wakeupRelease _ _ (.exit _) | .exitLock _
  | .exitState _ => some n
  | _ => none

/-- The child that `wait` looks at. -/
def Section.checks : Section n → Option (Fin n)
  | .waitCheck _ q => some q
  | _ => none

def Point.Exits : Point n → Prop
  | .exitAcquire _ => True
  | _ => False

def Pc.orphans : Pc n → Option Nat
  | .inside sec => sec.orphans
  | _ => none

def Pc.checks : Pc n → Option (Fin n)
  | .inside sec => sec.checks
  | _ => none

def Pc.Exits : Pc n → Prop
  | .at k => k.Exits
  | .yield _ k => k.Exits
  | .inside sec => sec.orphans.isSome
  | .zombie => False

theorem wait_of_orphans (h : pc.orphans ≠ none) : pc.heldOuter = some .wait := by
  cases pc with
  | inside sec =>
    cases sec with
    | wakeup chan j f | wakeupTest chan j f | wakeupRelease chan j f => cases f <;> first | rfl | exact absurd rfl h
    | _ => first | rfl | exact absurd rfl h
  | _ => exact absurd rfl h

theorem wait_of_checks {q : Fin n} (h : pc.checks = some q) : pc.heldOuter = some .wait := by
  cases pc with
  | inside sec => cases sec <;> first | rfl | cases h
  | _ => cases h

/-! ### What an instruction does to the family -/

/-- What the family sees of a slot stays. -/
structure Tweak (x y : Proc n) : Prop where
  pid : y.pid = x.pid
  parent : y.parent = x.parent
  xstate : y.xstate = x.xstate
  state : y.state = x.state ∨ Live x.state ∧ Live y.state

theorem Tweak.refl (x : Proc n) : Tweak x x := ⟨rfl, rfl, rfl, Or.inl rfl⟩

def Effect.Tweak (s : State n κ) : Effect n → Prop
  | .write q x => Procs.Tweak (s.procs q) x
  | .create .. => False
  | _ => True

/-- No process of the family forks, exits or is waited for. -/
def Event.Quiet : Event n → Prop
  | .forked .. | .exited .. | .reaped .. => False
  | _ => True

/-- The next place in the code asks for no more than the one before and what the thread found. -/
structure Follows (init : Fin n) (s : State n κ) (p : Fin n) (pc pc' : Pc n) : Prop where
  making : ∀ m', pc'.making = some m' → (m'.pid = none ∧ m'.adopted = false ∧ (s.procs m'.np).state = .unused) ∨
    ∃ m, pc.making = some m ∧ m'.np = m.np ∧ m'.pid = m.pid ∧ m'.adopted = m.adopted
  exits : pc'.Exits → pc.Exits ∨ p ≠ init
  orphans : ∀ j', pc'.orphans = some j' → ∀ q : Fin n, q < j' → (∃ j, pc.orphans = some j ∧ q < j) ∨
    (s.procs q).parent ≠ some p
  keeps : pc.orphans ≠ none → pc'.orphans ≠ none
  checks : ∀ q, pc'.checks = some q → (s.procs q).parent = some p

/-- The instructions, by what they do to the family. -/
inductive Deed (init : Fin n) (s : State n κ) (p : Fin n) : Pc n → Effect n → Pc n → Event n → Prop
  | tweak {pc pc' : Pc n} {effect : Effect n} {event : Event n} (tweak : effect.Tweak s) (quiet : event.Quiet)
    (follows : Follows init s p pc pc') : Deed init s p pc effect pc' event
  | create {mem : Memory} {np : Fin n} : Deed init s p (.inside (.forkFound mem np))
    (.create np { s.procs np with pid := s.nextpid, state := .used }) (.inside (.forkMemory mem np s.nextpid)) .silent
  | drop {np : Fin n} {pid : Int} :
    Deed init s p (.inside (.forkFree np pid)) (.write np (.free n)) (.inside (.forkFail np)) .silent
  | adopt {np : Fin n} {pid : Int} : Deed init s p (.inside (.forkAdopt np pid))
    (.write np { s.procs np with parent := some p }) (.inside (.forkAdopted np pid)) .silent
  | start {np : Fin n} {pid : Int} : Deed init s p (.inside (.forkState np pid))
    (.write np { s.procs np with state := .runnable }) (.inside (.forkDone np pid)) (.forked p np pid)
  | reparent {status : Int} {q : Fin n} (child : (s.procs q).parent = some p) :
    Deed init s p (.inside (.exitReparent status q)) (.write q { s.procs q with parent := some init })
      (.inside (.wakeup (some (.proc init)) 0 (.reparent status (q + 1)))) .silent
  | die {status : Int} : Deed init s p (.inside (.exitState status))
    (.write p { s.procs p with xstate := status, state := .zombie }) (.inside .exitRelease) (.exited p status)
  | reap {bad : Bool} {q : Fin n} (zombie : (s.procs q).state = .zombie) :
    Deed init s p (.inside (.waitCheck bad q)) (.write q (.free n)) (.inside (.waitFound q (s.procs q).pid))
      (.reaped p q (s.procs q).pid (s.procs q).xstate)

theorem wake_tweak (x : Proc n) (chan : Option (Chan n)) : Tweak x (x.wake chan) := by
  unfold Proc.wake
  split
  · next h => exact ⟨rfl, rfl, rfl, Or.inr ⟨by simp [Live, h.1], by simp [Live]⟩⟩
  · exact .refl x

theorem kill_tweak (x : Proc n) : Tweak x x.kill := by
  refine ⟨rfl, rfl, rfl, ?_⟩
  rcases kill_state x with hst | ⟨hsleep, hst⟩
  · exact Or.inl hst
  · exact Or.inr ⟨by simp [Live, hsleep], by simp [Live, hst]⟩

/-- Outside `fork`, `exit` and the check of `wait` there is nothing to follow. -/
theorem Follows.out (hmaking : pc'.making = none) (hexits : ¬pc'.Exits) (hkeeps : pc.orphans = none) (horphans : pc'.orphans = none)
    (hchecks : pc'.checks = none) : Follows init s p pc pc' where
  making m' hm' := by rw [hmaking] at hm'; cases hm'
  exits h := absurd h hexits
  orphans j' hj' := by rw [horphans] at hj'; cases hj'
  keeps h := absurd hkeeps h
  checks q hq := by rw [hchecks] at hq; cases hq

/-- In `fork`, where the child is the same. -/
theorem Follows.fork {m m' : Making n} (hm : pc.making = some m) (hm' : pc'.making = some m') (hnp : m'.np = m.np)
    (hpid : m'.pid = m.pid) (hadopted : m'.adopted = m.adopted) (hexits : ¬pc'.Exits) (hkeeps : pc.orphans = none)
    (horphans : pc'.orphans = none) (hchecks : pc'.checks = none) : Follows init s p pc pc' where
  making m'' hm'' := by
    obtain rfl : m' = m'' := Option.some.inj (hm'.symm.trans hm'')
    exact Or.inr ⟨m, hm, hnp, hpid, hadopted⟩
  exits h := absurd h hexits
  orphans j' hj' := by rw [horphans] at hj'; cases hj'
  keeps h := absurd hkeeps h
  checks q hq := by rw [hchecks] at hq; cases hq

/-- In `exit`, where the slots passed before have no child. -/
theorem Follows.exit {j j' : Nat} (hj : pc.orphans = some j) (hj' : pc'.orphans = some j') (hmaking : pc'.making = none)
    (hexits : pc.Exits) (hchecks : pc'.checks = none)
    (hpass : ∀ q : Fin n, q < j' → q < j ∨ (s.procs q).parent ≠ some p) : Follows init s p pc pc' where
  making m' hm' := by rw [hmaking] at hm'; cases hm'
  exits _ := Or.inl hexits
  orphans k hk q hq := by
    obtain rfl := Option.some.inj (hj'.symm.trans hk)
    exact (hpass q hq).imp_left fun hlt => ⟨j, hj, hlt⟩
  keeps _ := by rw [hj']; simp
  checks q hq := by rw [hchecks] at hq; cases hq

/-- The steps of `yield` leave all as it is. -/
theorem Follows.yield (hmaking : pc'.making = pc.making) (hexits : pc'.Exits → pc.Exits ∨ p ≠ init) (hkeeps : pc.orphans = none)
    (horphans : pc'.orphans = none) (hchecks : pc'.checks = none) : Follows init s p pc pc' where
  making m' hm' := Or.inr ⟨m', hmaking ▸ hm', rfl, rfl, rfl⟩
  exits h := hexits h
  orphans j' hj' := by rw [horphans] at hj'; cases hj'
  keeps h := absurd hkeeps h
  checks q hq := by rw [hchecks] at hq; cases hq

theorem SectionInstr.deed {sec : Section n} (h : SectionInstr init s p sec effect pc' event)
    (hown : (s.procs p).state = (Pc.inside sec).own) : Deed init s p (.inside sec) effect pc' event := by
  cases h with
  | forkFound unused =>
    refine .tweak trivial trivial ⟨fun m hm => ?_, ?_, ?_, ?_, ?_⟩
    · cases hm
      exact Or.inl ⟨rfl, rfl, unused⟩
    all_goals simp [Pc.Exits, Pc.orphans, Section.orphans, Pc.checks, Section.checks]
  | create => exact .create
  | noMemory | memory | setup | noCopy | copy | forkRelease | forkAdopted =>
    exact .tweak trivial trivial (.fork rfl rfl rfl rfl rfl (by simp [Pc.Exits, Point.Exits, Section.orphans]) rfl rfl rfl)
  | drop => exact .drop
  | adopt => exact .adopt
  | start => exact .start
  | reparent child => exact .reparent child
  | @reparentOther status q other =>
    refine .tweak trivial trivial (.exit rfl rfl rfl rfl rfl fun r hr => ?_)
    rcases Nat.lt_succ_iff_lt_or_eq.mp hr with hlt | heq
    · exact Or.inl hlt
    · rw [Fin.ext heq]
      exact Or.inr other
  | @reparentEnd status j all =>
    exact .tweak trivial trivial (.exit rfl rfl rfl rfl rfl fun r hr => Or.inl (by omega))
  | exitWakeup | exitLock => exact .tweak trivial trivial (.exit rfl rfl rfl rfl rfl fun r hr => Or.inl hr)
  | die => exact .die
  | @wakeupSelf chan f | @wakeupAcquire chan q f | @wakeupEnd chan j f | @wakeupRelease chan q f =>
    cases f with
    | other i => exact .tweak trivial trivial (.out rfl (by simp [Pc.Exits, Section.orphans, Waker.return]) rfl rfl rfl)
    | _ => exact .tweak trivial trivial (.exit rfl rfl rfl rfl rfl fun r hr => Or.inl hr)
  | @wake chan q f =>
    have htweak := wake_tweak (s.procs q) chan
    cases f with
    | other i => exact .tweak htweak trivial (.out rfl (by simp [Pc.Exits, Section.orphans]) rfl rfl rfl)
    | _ => exact .tweak htweak trivial (.exit rfl rfl rfl rfl rfl fun r hr => Or.inl hr)
  | @waitChild bad havekids q child =>
    refine .tweak trivial trivial ⟨?_, ?_, ?_, ?_, fun r hr => ?_⟩
    · simp [Pc.making, Section.making]
    · simp [Pc.Exits, Section.orphans]
    · simp [Pc.orphans, Section.orphans]
    · simp [Pc.orphans, Section.orphans]
    · cases hr
      exact child
  | reap zombie => exact .reap zombie
  | @kill pid q => exact .tweak (kill_tweak (s.procs q)) trivial (.out rfl (by simp [Pc.Exits, Section.orphans]) rfl rfl rfl)
  | sleepMark =>
    have hlive : Live (s.procs p).state := by simp [hown, Pc.own, Live]
    exact .tweak ⟨rfl, rfl, rfl, Or.inr ⟨hlive, by simp [Live]⟩⟩ trivial
      (.out rfl (by simp [Pc.Exits, Section.orphans]) rfl rfl rfl)
  | sleepTidy | setkilled =>
    exact .tweak ⟨rfl, rfl, rfl, Or.inl rfl⟩ trivial (.out rfl (by simp [Pc.Exits, Section.orphans]) rfl rfl rfl)
  | _ =>
    exact .tweak trivial trivial (.out rfl (by simp [Pc.Exits, Section.orphans, Point.Exits]) rfl rfl rfl)

theorem Instr.deed (h : Instr init s p pc effect pc' event) (hown : (s.procs p).state = pc.own) :
    Deed init s p pc effect pc' event := by
  cases h with
  | inside instr => exact instr.deed hown
  | forkParent | forkRunnable =>
    exact .tweak trivial trivial (.fork rfl rfl rfl rfl rfl (by simp [Pc.Exits, Section.orphans]) rfl rfl rfl)
  | exitAcquire =>
    refine .tweak trivial trivial ⟨?_, fun _ => Or.inl trivial, fun j hj q hq => ?_, ?_, ?_⟩
    · simp [Pc.making, Section.making]
    · cases hj
      exact absurd hq (Nat.not_lt_zero _)
    · simp [Pc.orphans]
    · simp [Pc.checks, Section.checks]
  | @reacquire f =>
    cases f <;> exact .tweak trivial trivial (.out rfl (by simp [Pc.Exits, Section.orphans, Sleeper.return]) rfl rfl rfl)
  | yieldAcquire | yieldSched | yieldRelease => exact .tweak trivial trivial (.yield rfl Or.inl rfl rfl rfl)
  | yieldState =>
    have hlive : Live (s.procs p).state := by simp [hown, Pc.own, Live]
    exact .tweak ⟨rfl, rfl, rfl, Or.inr ⟨hlive, by simp [Live]⟩⟩ trivial (.yield rfl Or.inl rfl rfl rfl)
  | _ => exact .tweak trivial trivial (.out rfl (by simp [Pc.Exits, Section.orphans, Point.Exits]) rfl rfl rfl)

theorem Enters.follows (h : Enters init p pc pc') : Follows init s p pc pc' := by
  cases h with
  | exit other =>
    exact ⟨by simp [Pc.making, Point.making], fun _ => Or.inr other, by simp [Pc.orphans], by simp [Pc.orphans],
      by simp [Pc.checks]⟩
  | preempt => exact .yield rfl Or.inl rfl rfl rfl
  | _ => exact .out rfl (by simp [Pc.Exits, Point.Exits, Section.orphans]) rfl rfl rfl

/-! ### The invariant -/

/-- What the family says of a slot. -/
def Fits : Option (Node n) → Proc n → Prop
  | none, x => x.state = .unused ∨ x.state = .used
  | some node, x => x.pid = node.pid ∧
    (Live x.state ∧ node.status = none ∨ x.state = .zombie ∧ node.status = some x.xstate)

/-- What a thread knows about the slots it has to do with. -/
structure Note (init : Fin n) (s : State n κ) (p : Fin n) (pc : Pc n) : Prop where
  pid : ∀ m pid, pc.making = some m → m.pid = some pid → (s.procs m.np).pid = pid
  parent : ∀ m, pc.making = some m → (s.procs m.np).parent = if m.adopted then some p else none
  exits : pc.Exits → p ≠ init
  orphans : ∀ j, pc.orphans = some j → ∀ q : Fin n, q < j → (s.procs q).parent ≠ some p
  checks : ∀ q, pc.checks = some q → (s.procs q).parent = some p

structure Kin (init : Fin n) (F : Family n) (s : State n κ) : Prop where
  fits : ∀ q, Fits (F q) (s.procs q)
  parents : ∀ q node, F q = some node → (s.procs q).parent = node.parent ∨
    ∃ r, (s.thread r).orphans ≠ none ∧ node.parent = some r ∧ (s.procs q).parent = some init
  unused : ∀ q, (s.procs q).state = .unused → (s.procs q).parent = none
  alive : ∀ q r, (s.procs q).parent = some r → Live (s.procs r).state
  first : Live (s.procs init).state
  note : ∀ p, Note init s p (s.thread p)

theorem Tweak.fits {x y : Proc n} {node : Option (Node n)} (h : Tweak x y) (hfits : Fits node x) : Fits node y := by
  obtain ⟨hpid, -, hxstate, hstate⟩ := h
  cases node with
  | none =>
    rcases hstate with hst | ⟨hlive, -⟩
    · exact hfits.imp hst.trans hst.trans
    · rcases hfits with hst | hst <;> simp [hst, Live] at hlive
  | some node =>
    obtain ⟨hnode, hst'⟩ := hfits
    refine ⟨hpid.trans hnode, ?_⟩
    rw [hxstate]
    rcases hstate with hst | ⟨hlive, hlive'⟩
    · rwa [hst]
    · rcases hst' with ⟨-, hnone⟩ | ⟨hzombie, -⟩
      · exact Or.inl ⟨hlive', hnone⟩
      · simp [hzombie, Live] at hlive

theorem Tweak.live {x y : Proc n} (h : Tweak x y) (hx : Live x.state) : Live y.state := by
  rcases h.state with hst | ⟨-, hlive⟩
  · rwa [hst]
  · exact hlive

theorem Tweak.unused {x y : Proc n} (h : Tweak x y) (hy : y.state = .unused) : x.state = .unused := by
  rcases h.state with hst | ⟨-, hlive⟩
  · rw [← hst, hy]
  · simp [hy, Live] at hlive

/-- Notes are about pids and parents. -/
theorem Note.same (h : Note init s p pc) (hpid : ∀ q, (t.procs q).pid = (s.procs q).pid)
    (hparent : ∀ q, (t.procs q).parent = (s.procs q).parent) : Note init t p pc where
  pid m pid hm hpid' := (hpid m.np).trans (h.pid m pid hm hpid')
  parent m hm := (hparent m.np).trans (h.parent m hm)
  exits := h.exits
  orphans j hj q hq := by
    rw [hparent]
    exact h.orphans j hj q hq
  checks q hq := (hparent q).trans (h.checks q hq)

/-- A note stays when another thread writes a slot that the thread does not make, and that neither becomes nor was a child of
    its where it matters. -/
theorem Note.write {q : Fin n} {x : Proc n} (h : Note init s p pc) (hprocs : t.procs = Function.update s.procs q x)
    (hmaking : ∀ m, pc.making = some m → m.np ≠ q) (horphans : pc.orphans ≠ none → x.parent ≠ some p)
    (hchecks : pc.checks = some q → x.parent = some p) : Note init t p pc := by
  have hother : ∀ r, r ≠ q → t.procs r = s.procs r := fun r hr => by rw [hprocs, Function.update_of_ne hr]
  have hself : t.procs q = x := by rw [hprocs, Function.update_self]
  refine ⟨fun m pid hm hpid => ?_, fun m hm => ?_, h.exits, fun j hj r hr => ?_, fun r hr => ?_⟩
  · rw [hother m.np (hmaking m hm)]
    exact h.pid m pid hm hpid
  · rw [hother m.np (hmaking m hm)]
    exact h.parent m hm
  · by_cases hrq : r = q
    · rw [hrq, hself]
      exact horphans (by rw [hj]; simp)
    · rw [hother r hrq]
      exact h.orphans j hj r hr
  · by_cases hrq : r = q
    · subst hrq
      rw [hself]
      exact hchecks hr
    · rw [hother r hrq]
      exact h.checks r hr

theorem Note.follows (h : Note init s p pc) (hf : Follows init s p pc pc') (hunused : ∀ q, (s.procs q).state = .unused →
    (s.procs q).parent = none) : Note init s p pc' where
  pid m' pid hm' hpid := by
    rcases hf.making m' hm' with ⟨hnone, -⟩ | ⟨m, hm, hnp, hpid', -⟩
    · rw [hnone] at hpid
      cases hpid
    · rw [hnp]
      exact h.pid m pid hm (hpid' ▸ hpid)
  parent m' hm' := by
    rcases hf.making m' hm' with ⟨-, hadopted, hst⟩ | ⟨m, hm, hnp, -, hadopted⟩
    · rw [hadopted, hunused _ hst]
      rfl
    · rw [hnp, hadopted]
      exact h.parent m hm
  exits hexits := (hf.exits hexits).elim h.exits id
  orphans j' hj' q hq := by
    rcases hf.orphans j' hj' q hq with ⟨j, hj, hlt⟩ | hne
    · exact h.orphans j hj q hlt
    · exact hne
  checks := hf.checks

theorem note_forkret : Note init s p forkret where
  pid m pid hm := by cases hm
  parent m hm := by cases hm
  exits h := by cases h
  orphans j hj := by cases hj
  checks q hq := by cases hq

namespace Sched

/-- Only one thread holds a lock that is taken before the others. -/
theorem outer_unique {p' : Fin n} {lk : Outer} (h : Sched s) (hl : Locked s) (hp : (s.thread p).heldOuter = some lk)
    (hp' : (s.thread p').heldOuter = some lk) : p = p' := by
  have hrun : ∀ r, (s.thread r).heldOuter = some lk → ∃ c, s.cpus c = .run r (s.thread r) := fun r hr =>
    h.on_cpu fun hparked => by
      rw [(held_of_parked (p := r) hparked).1] at hr
      cases hr
  obtain ⟨c, hc⟩ := hrun p hp
  obtain ⟨d, hd⟩ := hrun p' hp'
  have hcd : c = d := hl.outer.unique (a := lk) (by rw [State.heldOuter, hc]; exact hp) (by rw [State.heldOuter, hd]; exact hp')
  rw [hcd, hd] at hc
  cases hc
  rfl

end Sched

/-! ### A step -/

theorem Sched.runs {c : κ} (h : Sched s) (hcpu : s.cpus c = .run p pc) :
    (s.procs p).state = pc.own ∧ s.thread p = pc := by
  have hcarries := h.carries c
  rw [hcpu] at hcarries
  exact hcarries

theorem Kin.tweak {F : Family n} (h : Kin init F s) (hprocs : ∀ q, Procs.Tweak (s.procs q) (t.procs q))
    (hnote : ∀ r, Note init s r (t.thread r)) (hkeeps : ∀ r, (s.thread r).orphans ≠ none → (t.thread r).orphans ≠ none) :
    Kin init F t where
  fits q := (hprocs q).fits (h.fits q)
  parents q node hq := by
    rw [(hprocs q).parent]
    rcases h.parents q node hq with hparent | ⟨r, hr, hnode, hparent⟩
    · exact Or.inl hparent
    · exact Or.inr ⟨r, hkeeps r hr, hnode, hparent⟩
  unused q hq := (hprocs q).parent.trans (h.unused q ((hprocs q).unused hq))
  alive q r hq := (hprocs r).live (h.alive q r ((hprocs q).parent ▸ hq))
  first := (hprocs init).live h.first
  note r := (hnote r).same (fun q => (hprocs q).pid) fun q => (hprocs q).parent

/-- A write to the slot `q` that the family follows. -/
theorem Kin.write {F G : Family n} {q : Fin n} {x : Proc n} (h : Kin init F s) (hprocs : t.procs = Function.update s.procs q x)
    (hfits : Fits (G q) x) (hothers : ∀ r y, r ≠ q → Fits (F r) y → Fits (G r) y)
    (hparents : ∀ r node, G r = some node → (t.procs r).parent = node.parent ∨
      ∃ r', (t.thread r').orphans ≠ none ∧ node.parent = some r' ∧ (t.procs r).parent = some init)
    (hunused : x.state = .unused → x.parent = none) (hx : ∀ r, x.parent = some r → Live (s.procs r).state)
    (halive : Live x.state ∨ x.parent ≠ some q ∧ ∀ r, (s.procs r).parent ≠ some q) (hinit : q = init → Live x.state)
    (hnote : ∀ r, Note init t r (t.thread r)) : Kin init G t := by
  have hother : ∀ r, r ≠ q → t.procs r = s.procs r := fun r hr => by rw [hprocs, Function.update_of_ne hr]
  have hself : t.procs q = x := by rw [hprocs, Function.update_self]
  refine ⟨fun r => ?_, hparents, fun r hr => ?_, fun r r' hr => ?_, ?_, hnote⟩
  · by_cases hrq : r = q
    · rw [hrq, hself]
      exact hfits
    · rw [hother r hrq]
      exact hothers r _ hrq (h.fits r)
  · by_cases hrq : r = q
    · rw [hrq, hself] at hr ⊢
      exact hunused hr
    · rw [hother r hrq] at hr ⊢
      exact h.unused r hr
  · have hlive : Live (s.procs r').state := by
      by_cases hrq : r = q
      · rw [hrq, hself] at hr
        exact hx r' hr
      · rw [hother r hrq] at hr
        exact h.alive r r' hr
    by_cases hrq' : r' = q
    · subst hrq'
      rcases halive with hlive' | ⟨hx, hnone⟩
      · rwa [hself]
      · by_cases hrq : r = r'
        · rw [hrq, hself] at hr
          exact absurd hr hx
        · rw [hother r hrq] at hr
          exact absurd hr (hnone r)
    · rwa [hother r' hrq']
  · by_cases hq : init = q
    · rw [hq, hself]
      exact hinit hq.symm
    · rw [hother init hq]
      exact h.first

theorem Kin.alive_of_live {F : Family n} (h : Kin init F s) (hlive : Live (s.procs p).state) : F.Alive p := by
  have hfits := h.fits p
  cases hF : F p with
  | none =>
    rw [hF] at hfits
    rcases hfits with hst | hst <;> simp [hst, Live] at hlive
  | some node =>
    rw [hF] at hfits
    rcases hfits.2 with ⟨-, hnone⟩ | ⟨hzombie, -⟩
    · exact ⟨node, hF, hnone⟩
    · simp [hzombie, Live] at hlive

section Thread
variable {F : Family n} {c : κ} {q : Fin n} {x : Proc n}

/-- The parents of the others, when the slot `q` is written by a thread that is not in `exit`. -/
theorem Kin.parents_write {r : Fin n} {node : Node n} (h : Kin init F s) (hprocs : t.procs = Function.update s.procs q x)
    (hthread : t.thread = Function.update s.thread p pc') (horphans : (s.thread p).orphans = none) (hrq : r ≠ q)
    (hr : F r = some node) : (t.procs r).parent = node.parent ∨
      ∃ r', (t.thread r').orphans ≠ none ∧ node.parent = some r' ∧ (t.procs r).parent = some init := by
  rw [hprocs, Function.update_of_ne hrq]
  rcases h.parents r node hr with hparent | ⟨r', hr', hnode, hparent⟩
  · exact Or.inl hparent
  · have hrp : r' ≠ p := fun heq => hr' (heq ▸ horphans)
    exact Or.inr ⟨r', by rwa [hthread, Function.update_of_ne hrp], hnode, hparent⟩

theorem slot_ne {r : Fin n} {node : Node n} (hq : F q = none) (hr : F r = some node) : r ≠ q := by
  rintro rfl
  rw [hq] at hr
  cases hr

/-- A slot that a thread makes is not in the family, and has no child. -/
theorem Kin.making (h : Kin init F s) (hs : Sched s) (hcpu : s.cpus c = .run p pc) {m : Making n} (hm : pc.making = some m) :
    F m.np = none ∧ (∀ r, (s.procs r).parent ≠ some m.np) ∧ m.np ≠ init ∧ m.np ≠ p ∧
      ∀ r m', r ≠ p → (s.thread r).making = some m' → m'.np ≠ m.np := by
  rw [← (hs.runs hcpu).2] at hm
  have hstate := (hs.making p m hm).state
  have hdead : ¬Live (s.procs m.np).state := by
    rw [hstate]
    rcases making_state m with hst | hst <;> simp [hst, Live]
  refine ⟨?_, fun r hr => hdead (h.alive r m.np hr), fun heq => hdead (heq ▸ h.first), fun heq => ?_,
    fun r m' hr hm' heq => hr (hs.makers r p m' m hm' hm heq)⟩
  · have hfits := h.fits m.np
    cases hF : F m.np with
    | none => rfl
    | some node =>
      rw [hF] at hfits
      rcases hfits.2 with ⟨hlive, -⟩ | ⟨hzombie, -⟩
      · exact absurd hlive hdead
      · rcases making_state m with hst | hst <;> simp_all
  · exact hs.making_off hm c (by rw [hcpu, heq]; rfl)

/-- The notes when `p` goes on and writes the slot that it makes. -/
theorem Kin.notes (h : Kin init F s) (hprocs : t.procs = Function.update s.procs q x)
    (hthread : t.thread = Function.update s.thread p pc') (hself : Note init t p pc')
    (hmaking : ∀ r m, r ≠ p → (s.thread r).making = some m → m.np ≠ q)
    (horphans : ∀ r, r ≠ p → (s.thread r).orphans ≠ none → x.parent ≠ some r)
    (hchecks : ∀ r, r ≠ p → (s.thread r).checks = some q → x.parent = some r) : ∀ r, Note init t r (t.thread r) := by
  intro r
  by_cases hr : r = p
  · rw [hr, hthread, Function.update_self]
    exact hself
  · rw [hthread, Function.update_of_ne hr]
    exact (h.note r).write hprocs (fun m => hmaking r m hr) (horphans r hr) (hchecks r hr)

theorem Kin.create {mem : Memory} {np : Fin n} {pid : Int} (h : Kin init F s) (hs : Sched s)
    (hcpu : s.cpus c = .run p (.inside (.forkFound mem np)))
    (hprocs : t.procs = Function.update s.procs np { s.procs np with pid := pid, state := .used })
    (hthread : t.thread = Function.update s.thread p (.inside (.forkMemory mem np pid))) : Kin init F t := by
  obtain ⟨hown, hpc⟩ := hs.runs hcpu
  obtain ⟨hF, hchild, hinit, hne, hmakers⟩ := h.making hs hcpu (m := ⟨np, none, false, false⟩) rfl
  have hunused : (s.procs np).state = .unused := (hs.making p ⟨np, none, false, false⟩ (by rw [hpc]; rfl)).state
  have hparent := h.unused np hunused
  have hself : Note init t p (.inside (.forkMemory mem np pid)) := by
    refine ⟨fun m pid' hm hpid => ?_, fun m hm => ?_, ?_, ?_, ?_⟩
    · cases hm
      cases hpid
      rw [hprocs, Function.update_self]
    · cases hm
      rw [hprocs, Function.update_self]
      exact hparent
    · simp [Pc.Exits, Section.orphans]
    · simp [Pc.orphans, Section.orphans]
    · simp [Pc.checks, Section.checks]
  refine h.write hprocs (hF ▸ Or.inr rfl) (fun r y _ => id)
    (fun r node hr => h.parents_write hprocs hthread (by rw [hpc]; rfl) (slot_ne hF hr) hr)
    (fun hst => by cases hst) (fun r hr => h.alive np r hr) (Or.inr ⟨hchild np, hchild⟩) (fun heq => absurd heq hinit) ?_
  refine h.notes hprocs hthread hself hmakers (fun r _ _ => ?_) fun r _ hr => ?_
  · rw [hparent]
    simp
  · exact (h.note r).checks np hr

theorem Kin.drop {np : Fin n} {pid : Int} (h : Kin init F s) (hs : Sched s)
    (hcpu : s.cpus c = .run p (.inside (.forkFree np pid))) (hprocs : t.procs = Function.update s.procs np (.free n))
    (hthread : t.thread = Function.update s.thread p (.inside (.forkFail np))) : Kin init F t := by
  obtain ⟨hown, hpc⟩ := hs.runs hcpu
  obtain ⟨hF, hchild, hinit, hne, hmakers⟩ := h.making hs hcpu (m := ⟨np, some pid, false, false⟩) rfl
  have hparent : (s.procs np).parent = none := (h.note p).parent ⟨np, some pid, false, false⟩ (by rw [hpc]; rfl)
  have hself : Note init t p (.inside (.forkFail np)) :=
    ⟨by simp [Pc.making, Section.making], by simp [Pc.making, Section.making], by simp [Pc.Exits, Section.orphans],
      by simp [Pc.orphans, Section.orphans], by simp [Pc.checks, Section.checks]⟩
  refine h.write hprocs (hF ▸ Or.inl rfl) (fun r y _ => id)
    (fun r node hr => h.parents_write hprocs hthread (by rw [hpc]; rfl) (slot_ne hF hr) hr)
    (fun _ => rfl) (fun r hr => by cases hr) (Or.inr ⟨by simp [Proc.free], hchild⟩) (fun heq => absurd heq hinit) ?_
  refine h.notes hprocs hthread hself hmakers (fun r _ _ => by simp [Proc.free]) fun r _ hr => ?_
  rw [(h.note r).checks np hr] at hparent
  cases hparent

theorem Kin.adopt {np : Fin n} {pid : Int} (h : Kin init F s) (hs : Sched s)
    (hcpu : s.cpus c = .run p (.inside (.forkAdopt np pid)))
    (hprocs : t.procs = Function.update s.procs np { s.procs np with parent := some p })
    (hthread : t.thread = Function.update s.thread p (.inside (.forkAdopted np pid))) : Kin init F t := by
  obtain ⟨hown, hpc⟩ := hs.runs hcpu
  obtain ⟨hF, hchild, hinit, hne, hmakers⟩ := h.making hs hcpu (m := ⟨np, some pid, true, false⟩) rfl
  have hm : (s.thread p).making = some ⟨np, some pid, true, false⟩ := by rw [hpc]; rfl
  have hused : (s.procs np).state = .used := (hs.making p _ hm).state
  have hpid : (s.procs np).pid = pid := (h.note p).pid _ pid hm rfl
  have hparent : (s.procs np).parent = none := (h.note p).parent _ hm
  have hlive : Live (s.procs p).state := by rw [hown]; simp [Pc.own, Live]
  have hself : Note init t p (.inside (.forkAdopted np pid)) := by
    refine ⟨fun m pid' hm hpid' => ?_, fun m hm => ?_, ?_, ?_, ?_⟩
    · cases hm
      cases hpid'
      rw [hprocs, Function.update_self]
      exact hpid
    · cases hm
      rw [hprocs, Function.update_self]
      rfl
    · simp [Pc.Exits, Section.orphans]
    · simp [Pc.orphans, Section.orphans]
    · simp [Pc.checks, Section.checks]
  refine h.write hprocs (hF ▸ Or.inr hused) (fun r y _ => id)
    (fun r node hr => h.parents_write hprocs hthread (by rw [hpc]; rfl) (slot_ne hF hr) hr)
    (fun hst => ?_) (fun r hr => ?_) (Or.inr ⟨fun heq => hne (Option.some.inj heq).symm, hchild⟩) (fun heq => absurd heq hinit) ?_
  · rw [hused] at hst
    cases hst
  · cases hr
    exact hlive
  refine h.notes hprocs hthread hself hmakers (fun r hr _ heq => hr (Option.some.inj heq).symm) fun r _ hr => ?_
  rw [(h.note r).checks np hr] at hparent
  cases hparent

/-- The new process is in the family from here on. -/
theorem Kin.start {np : Fin n} {pid : Int} (h : Kin init F s) (hs : Sched s)
    (hcpu : s.cpus c = .run p (.inside (.forkState np pid)))
    (hprocs : t.procs = Function.update s.procs np { s.procs np with state := .runnable })
    (hthread : t.thread = Function.update s.thread p (.inside (.forkDone np pid))) :
    F.Step init (.forked p np pid) (F.next init (.forked p np pid)) ∧ Kin init (F.next init (.forked p np pid)) t := by
  obtain ⟨hown, hpc⟩ := hs.runs hcpu
  obtain ⟨hF, hchild, hinit, hne, hmakers⟩ := h.making hs hcpu (m := ⟨np, some pid, true, true⟩) rfl
  have hm : (s.thread p).making = some ⟨np, some pid, true, true⟩ := by rw [hpc]; rfl
  have hpid : (s.procs np).pid = pid := (h.note p).pid _ pid hm rfl
  have hparent : (s.procs np).parent = some p := (h.note p).parent _ hm
  have hlive : Live (s.procs p).state := by rw [hown]; simp [Pc.own, Live]
  have hself : Note init t p (.inside (.forkDone np pid)) :=
    ⟨by simp [Pc.making, Section.making], by simp [Pc.making, Section.making], by simp [Pc.Exits, Section.orphans],
      by simp [Pc.orphans, Section.orphans], by simp [Pc.checks, Section.checks]⟩
  refine ⟨⟨⟨h.alive_of_live hlive, hF⟩, rfl⟩, ?_⟩
  refine h.write hprocs ?_ (fun r y hr hfits => ?_) (fun r node hr => ?_) (fun hst => by cases hst)
    (fun r hr => h.alive np r hr) (Or.inl (by simp [Live])) (fun heq => absurd heq hinit) ?_
  · rw [Family.next, Function.update_self]
    exact ⟨hpid, Or.inl ⟨by simp [Live], rfl⟩⟩
  · rwa [Family.next, Function.update_of_ne hr]
  · by_cases hrnp : r = np
    · subst hrnp
      rw [Family.next, Function.update_self] at hr
      cases hr
      rw [hprocs, Function.update_self]
      exact Or.inl hparent
    · rw [Family.next, Function.update_of_ne hrnp] at hr
      exact h.parents_write hprocs hthread (by rw [hpc]; rfl) hrnp hr
  · refine h.notes hprocs hthread hself hmakers (fun r hr _ => ?_) fun r _ hr => (h.note r).checks np hr
    rw [hparent]
    exact fun heq => hr (Option.some.inj heq).symm

theorem Kin.reparent {status : Int} (h : Kin init F s) (hs : Sched s) (hl : Locked s)
    (hcpu : s.cpus c = .run p (.inside (.exitReparent status q))) (hchild : (s.procs q).parent = some p)
    (hprocs : t.procs = Function.update s.procs q { s.procs q with parent := some init })
    (hthread : t.thread =
      Function.update s.thread p (.inside (.wakeup (some (.proc init)) 0 (.reparent status (q + 1))))) : Kin init F t := by
  obtain ⟨hown, hpc⟩ := hs.runs hcpu
  have hnote := h.note p
  rw [hpc] at hnote
  have hinit : p ≠ init := hnote.exits rfl
  have hwait : (s.thread p).heldOuter = some .wait := by rw [hpc]; rfl
  have horphans : ∀ r, (t.thread r).orphans ≠ none ↔ (s.thread r).orphans ≠ none := by
    intro r
    rw [hthread]
    by_cases hr : r = p
    · rw [hr, Function.update_self, hpc]
      simp [Pc.orphans, Section.orphans]
    · rw [Function.update_of_ne hr]
  have hself : Note init t p (.inside (.wakeup (some (.proc init)) 0 (.reparent status (q + 1)))) := by
    refine ⟨by simp [Pc.making, Section.making], by simp [Pc.making, Section.making], fun _ => hinit, fun j hj r hr => ?_,
      by simp [Pc.checks, Section.checks]⟩
    cases hj
    rw [hprocs]
    by_cases hrq : r = q
    · rw [hrq, Function.update_self]
      exact fun heq => hinit (Option.some.inj heq).symm
    · rw [Function.update_of_ne hrq]
      refine hnote.orphans q rfl r ?_
      have hne : (r : Nat) ≠ q := fun heq => hrq (Fin.ext heq)
      omega
  have hfits : Fits (F q) { s.procs q with parent := some init } := by
    have hfits := h.fits q
    cases hF : F q <;> rw [hF] at hfits <;> exact hfits
  refine h.write hprocs hfits (fun r y _ => id) (fun r node hr => ?_) (fun hst => ?_) (fun r hr => ?_) ?_
    (fun heq => heq ▸ h.first) ?_
  · by_cases hrq : r = q
    · subst hrq
      rw [hprocs, Function.update_self]
      rcases h.parents r node hr with hparent | ⟨r', hr', hnode, hparent⟩
      · exact Or.inr ⟨p, (horphans p).mpr (by rw [hpc]; simp [Pc.orphans, Section.orphans]), hparent.symm.trans hchild, rfl⟩
      · exact absurd (Option.some.inj (hchild.symm.trans hparent)) hinit
    · rw [hprocs, Function.update_of_ne hrq]
      rcases h.parents r node hr with hparent | ⟨r', hr', hnode, hparent⟩
      · exact Or.inl hparent
      · exact Or.inr ⟨r', (horphans r').mpr hr', hnode, hparent⟩
  · rw [h.unused q hst] at hchild
    cases hchild
  · cases hr
    exact h.first
  · by_cases hlive : Live (s.procs q).state
    · exact Or.inl hlive
    · refine Or.inr ⟨fun heq => hlive ?_, fun r hr => hlive (h.alive r q hr)⟩
      rw [← Option.some.inj heq]
      exact h.first
  · refine h.notes hprocs hthread hself (fun r m hr hm hnp => ?_) (fun r hr hr' => ?_) fun r hr hr' => ?_
    · have hparent := (h.note r).parent m hm
      rw [hnp, hchild] at hparent
      split at hparent
      · exact hr (Option.some.inj hparent).symm
      · cases hparent
    · exact absurd (hs.outer_unique hl (wait_of_orphans hr') hwait) hr
    · exact absurd (hs.outer_unique hl (wait_of_checks hr') hwait) hr

/-- The process exits in the family, and what `reparent` did comes true there. -/
theorem Kin.die {status : Int} (h : Kin init F s) (hs : Sched s) (hl : Locked s)
    (hcpu : s.cpus c = .run p (.inside (.exitState status)))
    (hprocs : t.procs = Function.update s.procs p { s.procs p with xstate := status, state := .zombie })
    (hthread : t.thread = Function.update s.thread p (.inside .exitRelease)) :
    F.Step init (.exited p status) (F.next init (.exited p status)) ∧ Kin init (F.next init (.exited p status)) t := by
  obtain ⟨hown, hpc⟩ := hs.runs hcpu
  have hnote := h.note p
  rw [hpc] at hnote
  have hinit : p ≠ init := hnote.exits rfl
  have hwait : (s.thread p).heldOuter = some .wait := by rw [hpc]; rfl
  have hchild : ∀ r, (s.procs r).parent ≠ some p := fun r => hnote.orphans n rfl r r.isLt
  obtain ⟨node, hnode, hstatus⟩ := h.alive_of_live (p := p) (by rw [hown]; simp [Pc.own, Live])
  have hself : Note init t p (.inside .exitRelease) :=
    ⟨by simp [Pc.making, Section.making], by simp [Pc.making, Section.making], by simp [Pc.Exits, Section.orphans],
      by simp [Pc.orphans, Section.orphans], by simp [Pc.checks, Section.checks]⟩
  have hparent : ∀ r, (t.procs r).parent = (s.procs r).parent := by
    intro r
    rw [hprocs]
    by_cases hr : r = p
    · rw [hr, Function.update_self]
    · rw [Function.update_of_ne hr]
  refine ⟨⟨⟨⟨node, hnode, hstatus⟩, hinit⟩, rfl⟩, ?_⟩
  refine h.write hprocs ?_ (fun r y hr hfits => ?_) (fun r node' hr => ?_) (fun hst => by cases hst)
    (fun r hr => h.alive p r hr) (Or.inr ⟨hchild p, hchild⟩) (fun heq => absurd heq hinit) ?_
  · have hfits := h.fits p
    rw [hnode] at hfits
    simp only [Family.next, hnode]
    exact ⟨hfits.1, Or.inr ⟨rfl, by simp [Node.exit]⟩⟩
  · simp only [Family.next]
    cases hF : F r with
    | none =>
      rw [hF] at hfits
      exact hfits
    | some node' =>
      rw [hF] at hfits
      refine ⟨hfits.1, ?_⟩
      simpa [Node.exit, hr] using hfits.2
  · obtain ⟨node₀, hr₀, rfl⟩ := Option.map_eq_some_iff.mp hr
    rw [hparent]
    refine Or.inl ?_
    rcases h.parents r node₀ hr₀ with hsame | ⟨r', hr', hold, hnew⟩
    · have hne : node₀.parent ≠ some p := hsame ▸ hchild r
      simp [Node.exit, hne, hsame]
    · obtain rfl := hs.outer_unique hl (wait_of_orphans hr') hwait
      simp [Node.exit, hold, hnew]
  · refine h.notes hprocs hthread hself (fun r m hr hm hnp => ?_) (fun r hr hr' => ?_) fun r hr hr' => ?_
    · exact hs.making_off hm c (by rw [hcpu, hnp]; rfl)
    · exact absurd (hs.outer_unique hl (wait_of_orphans hr') hwait) hr
    · exact absurd (hs.outer_unique hl (wait_of_checks hr') hwait) hr

theorem Kin.reap {bad : Bool} (h : Kin init F s) (hs : Sched s) (hl : Locked s)
    (hcpu : s.cpus c = .run p (.inside (.waitCheck bad q))) (hzombie : (s.procs q).state = .zombie)
    (hprocs : t.procs = Function.update s.procs q (.free n))
    (hthread : t.thread = Function.update s.thread p (.inside (.waitFound q (s.procs q).pid))) :
    F.Step init (.reaped p q (s.procs q).pid (s.procs q).xstate)
      (F.next init (.reaped p q (s.procs q).pid (s.procs q).xstate)) ∧
    Kin init (F.next init (.reaped p q (s.procs q).pid (s.procs q).xstate)) t := by
  obtain ⟨hown, hpc⟩ := hs.runs hcpu
  have hwait : (s.thread p).heldOuter = some .wait := by rw [hpc]; rfl
  have horphans : (s.thread p).orphans = none := by rw [hpc]; rfl
  have hchild : (s.procs q).parent = some p := (h.note p).checks q (by rw [hpc]; rfl)
  have hlive : ¬Live (s.procs q).state := by simp [hzombie, Live]
  have hnode : F q = some ⟨(s.procs q).pid, some p, some (s.procs q).xstate⟩ := by
    have hfits := h.fits q
    cases hF : F q with
    | none =>
      rw [hF] at hfits
      rcases hfits with hst | hst <;> simp [hst] at hzombie
    | some node =>
      rw [hF] at hfits
      obtain ⟨hpid, ⟨hl, -⟩ | ⟨-, hstatus⟩⟩ := hfits
      · exact absurd hl hlive
      · have hparent : node.parent = some p := by
          rcases h.parents q node hF with hsame | ⟨r, hr, -⟩
          · rw [← hsame, hchild]
          · obtain rfl := hs.outer_unique hl (wait_of_orphans hr) hwait
            exact absurd horphans hr
        rw [hpid, ← hstatus, ← hparent]
  have hself : Note init t p (.inside (.waitFound q (s.procs q).pid)) :=
    ⟨by simp [Pc.making, Section.making], by simp [Pc.making, Section.making], by simp [Pc.Exits, Section.orphans],
      by simp [Pc.orphans, Section.orphans], by simp [Pc.checks, Section.checks]⟩
  refine ⟨⟨⟨h.alive_of_live (p := p) (by rw [hown]; simp [Pc.own, Live]), hnode⟩, rfl⟩, ?_⟩
  refine h.write hprocs ?_ (fun r y hr hfits => ?_) (fun r node hr => ?_) (fun _ => rfl) (fun r hr => by cases hr)
    (Or.inr ⟨by simp [Proc.free], fun r hr => hlive (h.alive r q hr)⟩) (fun heq => absurd (heq ▸ h.first) hlive) ?_
  · rw [Family.next, Function.update_self]
    exact Or.inl rfl
  · rwa [Family.next, Function.update_of_ne hr]
  · by_cases hrq : r = q
    · rw [hrq, Family.next, Function.update_self] at hr
      cases hr
    · rw [Family.next, Function.update_of_ne hrq] at hr
      exact h.parents_write hprocs hthread horphans hrq hr
  · refine h.notes hprocs hthread hself (fun r m _ hm hnp => ?_) (fun r _ _ => by simp [Proc.free]) fun r hr hr' => ?_
    · have hstate := (hs.making r m hm).state
      rw [hnp, hzombie] at hstate
      rcases making_state m with hst | hst <;> simp [hst] at hstate
    · exact absurd (hs.outer_unique hl (wait_of_checks hr') hwait) hr

end Thread

theorem Tweak.setProc {q : Fin n} {x : Proc n} (h : Tweak (s.procs q) x) (r : Fin n) :
    Tweak (s.procs r) ((s.setProc q x).procs r) := by
  by_cases hr : r = q
  · subst hr
    rwa [State.setProc_procs, Function.update_self]
  · rw [State.setProc_procs, Function.update_of_ne hr]
    exact .refl _

theorem Effect.Tweak.procs [DecidableEq κ] {c : κ} (h : effect.Tweak s) (ha : applyEffect s c effect = some t) (q : Fin n) :
    Procs.Tweak (s.procs q) (t.procs q) := by
  cases effect with
  | acquire | acquireProc =>
    obtain ⟨-, ht⟩ := Option.ite_none_right_eq_some.mp ha
    cases ht
    exact .refl _
  | write r x =>
    cases ha
    exact Tweak.setProc h q
  | create => cases h
  | _ =>
    cases ha
    exact .refl _

/-- Only the thread of a slot in the making is set up by another. -/
theorem applyEffect_thread [DecidableEq κ] {c : κ} (ha : applyEffect s c effect = some t) (r : Fin n) :
    t.thread r = s.thread r ∨ effect = .setup r ∧ t.thread r = forkret := by
  cases effect with
  | acquire | acquireProc =>
    obtain ⟨-, ht⟩ := Option.ite_none_right_eq_some.mp ha
    cases ht
    exact Or.inl rfl
  | setup q =>
    cases ha
    by_cases hr : r = q
    · subst hr
      exact Or.inr ⟨rfl, by rw [State.setThread_thread, Function.update_self]⟩
    · exact Or.inl (by rw [State.setThread_thread, Function.update_of_ne hr, State.setContext_thread])
  | _ =>
    cases ha
    exact Or.inl rfl

theorem setup_making {q : Fin n} (h : Kind s p pc (.setup q) pc') : ∃ m, pc.making = some m ∧ m.np = q := by
  cases h with
  | quiet quiet => cases quiet
  | setup own making => exact ⟨_, making, rfl⟩

theorem orphans_of_parked (h : pc.Parked) : pc.orphans = none := by
  cases pc with
  | inside sec => cases sec <;> first | rfl | cases h
  | _ => rfl

theorem Event.Quiet.step {F : Family n} (h : event.Quiet) : F.Step init event F ∧ F.next init event = F := by
  cases event <;> first | exact ⟨⟨trivial, rfl⟩, rfl⟩ | cases h

theorem Boot.kin (h : Boot init s) : Kin init (Family.boot init) s where
  fits q := by
    by_cases hq : q = init
    · subst hq
      rw [Family.boot, if_pos rfl, h.first]
      exact ⟨rfl, Or.inl ⟨by simp [Live], rfl⟩⟩
    · rw [Family.boot, if_neg hq, h.unused q hq]
      exact Or.inl rfl
  parents q node hq := by
    unfold Family.boot at hq
    split at hq
    · next hinit =>
      cases hq
      rw [hinit, h.first]
      exact Or.inl rfl
    · cases hq
  unused q hq := by
    by_cases hinit : q = init
    · rw [hinit, h.first]
      rfl
    · rw [h.unused q hinit]
      rfl
  alive q r hq := by
    by_cases hinit : q = init
    · rw [hinit, h.first] at hq
      cases hq
    · rw [h.unused q hinit] at hq
      cases hq
  first := by
    rw [h.first]
    simp [Live]
  note p := by
    rw [h.thread]
    exact note_forkret

variable [DecidableEq κ]

theorem Kin.thread_tweak {F : Family n} {c : κ} (h : Kin init F s) (hs : Sched s) (hcpu : s.cpus c = .run p pc)
    (hk : Kind s p pc effect pc') (htweak : effect.Tweak s) (hfollows : Follows init s p pc pc')
    (ha : applyEffect s c effect = some t) : Kin init F (t.goTo c p (effect.cpu p pc') pc') := by
  obtain ⟨hown, hpc⟩ := hs.runs hcpu
  have hsetup : ∀ r, effect = .setup r → (s.thread r).orphans = none := by
    rintro r rfl
    obtain ⟨m, hm, rfl⟩ := setup_making hk
    rw [← hpc] at hm
    exact orphans_of_parked (hs.off m.np (hs.making_off hm)).2.parked
  refine h.tweak (fun q => htweak.procs ha q) (fun r => ?_) fun r hr => ?_
  · by_cases hrp : r = p
    · rw [hrp, State.goTo_thread, Function.update_self]
      have hnote := h.note p
      rw [hpc] at hnote
      exact hnote.follows hfollows h.unused
    · rw [State.goTo_thread, Function.update_of_ne hrp]
      rcases applyEffect_thread ha r with hthread | ⟨-, hthread⟩ <;> rw [hthread]
      · exact h.note r
      · exact note_forkret
  · by_cases hrp : r = p
    · rw [hrp, hpc] at hr
      rw [hrp, State.goTo_thread, Function.update_self]
      exact hfollows.keeps hr
    · rw [State.goTo_thread, Function.update_of_ne hrp]
      rcases applyEffect_thread ha r with hthread | ⟨heffect, -⟩
      · rwa [hthread]
      · exact absurd (hsetup r heffect) hr

/-- Every step is one that the family allows. -/
theorem kin_step {F : Family n} {l : Action n κ × Event n} (h : Kin init F s) (hs : Sched s) (hl : Locked s)
    (hstep : Step init s l t) : F.Step init l.2 (F.next init l.2) ∧ Kin init (F.next init l.2) t := by
  have hidle : (∀ q, Procs.Tweak (s.procs q) (t.procs q)) → t.thread = s.thread → Kin init F t := fun hprocs hthread =>
    h.tweak hprocs (fun r => hthread ▸ h.note r) fun r hr => hthread ▸ hr
  have hsame : (∀ q, t.procs q = s.procs q) → t.thread = s.thread → Kin init F t := fun hprocs =>
    hidle fun q => by
      rw [hprocs]
      exact .refl _
  cases step_inv hstep with
  | scan | wrap | pass | set | restore | save | clear | unlock => exact ⟨⟨trivial, rfl⟩, hsame (fun _ => rfl) rfl⟩
  | @choose c q cpu runnable =>
    have htweak : Procs.Tweak (s.procs q) { s.procs q with state := .running } :=
      ⟨rfl, rfl, rfl, Or.inr ⟨by simp [runnable, Live], by simp [Live]⟩⟩
    exact ⟨⟨trivial, rfl⟩, hidle htweak.setProc rfl⟩
  | interrupt free => exact ⟨⟨trivial, rfl⟩, hidle (wake_tweak _ _).setProc rfl⟩
  | enters cpu enters =>
    exact ⟨⟨trivial, rfl⟩, h.thread_tweak hs cpu enters.kind trivial enters.follows rfl⟩
  | @unlockOther a c p i cpu =>
    have hk : Kind s p (.inside (.other i)) (.release (.other i)) (.at .user) := .quiet trivial rfl (.none rfl)
    exact ⟨⟨trivial, rfl⟩, h.thread_tweak hs cpu hk trivial (.out rfl id rfl rfl rfl) rfl⟩
  | @thread c p pc pc' effect event u cpu instr apply =>
    have hk : Kind s p pc effect pc' := instr.kind
    cases instr.deed (hs.runs cpu).1 with
    | tweak htweak hquiet hfollows =>
      rw [hquiet.step.2]
      exact ⟨hquiet.step.1, h.thread_tweak hs cpu hk htweak hfollows apply⟩
    | create =>
      cases apply
      exact ⟨⟨trivial, rfl⟩, h.create hs cpu rfl rfl⟩
    | drop =>
      cases apply
      exact ⟨⟨trivial, rfl⟩, h.drop hs cpu rfl rfl⟩
    | adopt =>
      cases apply
      exact ⟨⟨trivial, rfl⟩, h.adopt hs cpu rfl rfl⟩
    | start =>
      cases apply
      exact h.start hs cpu rfl rfl
    | reparent child =>
      cases apply
      exact ⟨⟨trivial, rfl⟩, h.reparent hs hl cpu child rfl rfl⟩
    | die =>
      cases apply
      exact h.die hs hl cpu rfl rfl
    | reap zombie =>
      cases apply
      exact h.reap hs hl cpu zombie rfl rfl

/-- The events of a run are those of a family. -/
theorem kin_run {ls : List (Action n κ × Event n)} (hboot : Boot init s) (h : Run (Step init) s ls t) :
    ∃ F, Run (Family.Step init) (Family.boot init) (ls.map (·.2)) F ∧ Kin init F t := by
  induction h with
  | refl => exact ⟨_, .refl, hboot.kin⟩
  | tail hrun hstep ih =>
    obtain ⟨F, hF, hkin⟩ := ih
    obtain ⟨hl, hs⟩ := sched_run hboot hrun
    obtain ⟨hallowed, hkin'⟩ := kin_step hkin hs hl hstep
    rw [List.map_append]
    exact ⟨_, hF.tail hallowed, hkin'⟩

end LabSO.Kernel.Procs

import LabSO.Kernel.ProcLocks

/-! Scheduling: no process is on two CPUs, `p->state` is `RUNNING` exactly while one CPU is on `p`, and what a CPU loads from
    `p->context` is where the thread of `p` was left. -/

namespace LabSO.Kernel.Procs
open Transition Locks

variable {n : Nat} {κ : Type} {init p : Fin n} {s t : State n κ} {pc pc' : Pc n} {effect : Effect n} {event : Event n}

/-! ### Places in the code -/

/-- The state of a process whose thread is at this place on a CPU. -/
def Pc.own : Pc n → ProcState
  | .inside (.sleepSched _) => .sleeping
  | .inside .exitRelease | .inside .exitSched => .zombie
  | .yield .sched _ => .runnable
  | _ => .running

/-- The slot that `fork` makes into a process. `pid` is none before `allocpid`; the slot is ready once `allocproc` has set
    its context up, and adopted once it has a parent. -/
structure Making (n : Nat) where
  np : Fin n
  pid : Option Int
  ready : Bool
  adopted : Bool

def Making.state (m : Making n) : ProcState := if m.pid.isNone then .unused else .used

def Section.making : Section n → Option (Making n)
  | .forkFound _ np => some ⟨np, none, false, false⟩
  | .forkMemory _ np pid | .forkContext _ np pid | .forkFree np pid => some ⟨np, some pid, false, false⟩
  | .forkCopy _ np pid | .forkRelease np pid | .forkAdopt np pid => some ⟨np, some pid, true, false⟩
  | .forkAdopted np pid | .forkState np pid => some ⟨np, some pid, true, true⟩
  | _ => none

def Point.making : Point n → Option (Making n)
  | .forkParent np pid => some ⟨np, some pid, true, false⟩
  | .forkRunnable np pid => some ⟨np, some pid, true, true⟩
  | _ => none

def Pc.making : Pc n → Option (Making n)
  | .at k => k.making
  | .inside sec => sec.making
  | .yield _ k => k.making
  | .zombie => none

/-- The process that a CPU is on, from the choice in `scheduler` to the end of the way back. -/
def Cpu.on : Cpu n → Option (Fin n)
  | .set q | .restore q | .run q _ | .save q _ | .clear q => some q
  | _ => none

theorem own_of_parked (h : pc.Parked) : pc.own = .running := by
  cases pc with
  | «at» k => cases h
  | inside sec => cases sec <;> first | rfl | cases h
  | yield stage k => cases stage <;> first | rfl | cases h
  | zombie => rfl

theorem own_cases (pc : Pc n) : pc.own = .running ∨ (pc.own = .runnable ∨ pc.own = .sleeping ∨ pc.own = .zombie) ∧
    pc.heldProc p = some p := by
  cases pc with
  | inside sec => cases sec <;> first | exact Or.inl rfl | exact Or.inr ⟨by simp [Pc.own], rfl⟩
  | yield stage k => cases stage <;> first | exact Or.inl rfl | exact Or.inr ⟨by simp [Pc.own], rfl⟩
  | _ => exact Or.inl rfl

/-- A slot that is found unused is held. -/
theorem heldProc_of_found {m : Making n} (h : pc.making = some m) (hpid : m.pid = none) :
    ¬pc.Parked ∧ pc.heldProc p = some m.np := by
  have hpoint : ∀ k : Point n, k.making ≠ some m := by
    intro k hk
    cases k <;> cases hk <;> cases hpid
  cases pc with
  | inside sec => cases sec <;> cases h <;> first | exact ⟨id, rfl⟩ | cases hpid
  | zombie => cases h
  | _ => exact absurd h (hpoint _)

/-! ### What an instruction does to the states -/

/-- What a thread has at stake: a child in the making has its state, and once it is ready starts in `forkret`. -/
structure Making.Holds (m : Making n) (s : State n κ) : Prop where
  state : (s.procs m.np).state = m.state
  context : m.ready → s.context m.np = some forkret
  thread : m.ready → s.thread m.np = forkret

/-- Instructions that leave the state of every process. -/
def Effect.Quiet (s : State n κ) : Effect n → Prop
  | .write q x => x.state = (s.procs q).state
  | .create .. | .setup _ | .swtch => False
  | _ => True

/-- The child in the making is the same, or there is none. -/
def Keeps (pc pc' : Pc n) : Prop :=
  ∀ m', pc'.making = some m' → ∃ m, pc.making = some m ∧ m'.np = m.np ∧ m'.state = m.state ∧ (m'.ready → m.ready)

theorem Keeps.same (h : pc'.making = pc.making) : Keeps pc pc' := fun m' hm' => ⟨m', h ▸ hm', rfl, rfl, id⟩

theorem Keeps.none (h : pc'.making = none) : Keeps pc pc' := fun m' hm' => by rw [h] at hm'; cases hm'

/-- The kinds of instructions, by what they do to states and contexts. -/
inductive Kind (s : State n κ) (p : Fin n) (pc : Pc n) : Effect n → Pc n → Prop
  | quiet {effect : Effect n} {pc' : Pc n} (quiet : effect.Quiet s) (own : pc'.own = pc.own)
    (keeps : Keeps pc pc') : Kind s p pc effect pc'
  /-- The process changes its own state before a `sched`. -/
  | mark {x : Proc n} {pc' : Pc n} (own : pc.own = .running) (state : x.state = pc'.own) (keeps : Keeps pc pc') :
    Kind s p pc (.write p x) pc'
  | leave {pc' : Pc n} (own : pc.own ≠ .running) (parked : pc'.Parked) (keeps : Keeps pc pc') : Kind s p pc .swtch pc'
  | found {pc' : Pc n} {m : Making n} (own : pc'.own = pc.own) (held : pc.heldProc p = some m.np)
    (making : pc'.making = some m) (unused : (s.procs m.np).state = .unused) (pid : m.pid = none) (ready : m.ready = false) :
    Kind s p pc .skip pc'
  | create {x : Proc n} {pc' : Pc n} {m m' : Making n} (own : pc'.own = pc.own) (making : pc.making = some m)
    (making' : pc'.making = some m') (np : m'.np = m.np) (state : x.state = m'.state) (ready : m'.ready = false) :
    Kind s p pc (.create m.np x) pc'
  | setup {pc' : Pc n} {m m' : Making n} (own : pc'.own = pc.own) (making : pc.making = some m)
    (making' : pc'.making = some m') (np : m'.np = m.np) (state : m'.state = m.state) : Kind s p pc (.setup m.np) pc'
  | drop {x : Proc n} {pc' : Pc n} {m : Making n} (own : pc'.own = pc.own) (making : pc.making = some m)
    (making' : pc'.making = none) (state : x.state = .unused) : Kind s p pc (.write m.np x) pc'
  | start {x : Proc n} {pc' : Pc n} {m : Making n} (own : pc'.own = pc.own) (making : pc.making = some m)
    (making' : pc'.making = none) (ready : m.ready) (state : x.state = .runnable) : Kind s p pc (.write m.np x) pc'
  /-- A sleeper is woken, or a zombie is freed. -/
  | other {q : Fin n} {x : Proc n} {pc' : Pc n} (own : pc.own = .running) (own' : pc'.own = .running)
    (making : pc'.making = none) (held : pc.heldProc p = some q)
    (state : (s.procs q).state = .sleeping ∧ x.state = .runnable ∨ (s.procs q).state = .zombie ∧ x.state = .unused) :
    Kind s p pc (.write q x) pc'

theorem wake_state (x : Proc n) (chan : Option (Chan n)) :
    (x.wake chan).state = x.state ∨ x.state = .sleeping ∧ (x.wake chan).state = .runnable := by
  unfold Proc.wake
  split
  · next h => exact Or.inr ⟨h.1, rfl⟩
  · exact Or.inl rfl

theorem kill_state (x : Proc n) : x.kill.state = x.state ∨ x.state = .sleeping ∧ x.kill.state = .runnable := by
  unfold Proc.kill
  by_cases h : x.state = .sleeping
  · exact Or.inr ⟨h, if_pos h⟩
  · exact Or.inl (if_neg h)

theorem SectionInstr.kind {sec : Section n} (h : SectionInstr init s p sec effect pc' event) :
    Kind s p (.inside sec) effect pc' := by
  cases h with
  | @forkFound mem np unused => exact .found (m := ⟨np, none, false, false⟩) rfl rfl rfl unused rfl rfl
  | @create mem np => exact .create (m := ⟨np, none, false, false⟩) rfl rfl rfl rfl rfl rfl
  | @setup mem np pid => exact .setup (m := ⟨np, some pid, false, false⟩) rfl rfl rfl rfl rfl
  | @drop np pid => exact .drop (m := ⟨np, some pid, false, false⟩) rfl rfl rfl rfl
  | @start np pid => exact .start (m := ⟨np, some pid, true, true⟩) rfl rfl rfl rfl rfl
  | noMemory | memory | copy | forkRelease => exact .quiet trivial rfl (.same rfl)
  | noCopy => exact .quiet trivial rfl fun m' hm' => ⟨_, rfl, by cases hm'; rfl, by cases hm'; rfl, fun _ => rfl⟩
  | forkAdopted => exact .quiet trivial rfl (.same rfl)
  | adopt => exact .quiet rfl rfl fun m' hm' => ⟨_, rfl, by cases hm'; rfl, by cases hm'; rfl, fun _ => rfl⟩
  | die | sleepMark => exact .mark rfl rfl (.none rfl)
  | exitSched | sleepSched => exact .leave (by simp [Pc.own]) trivial (.none rfl)
  | reap zombie => exact .other rfl rfl rfl rfl (Or.inr ⟨zombie, rfl⟩)
  | @wake chan q f =>
    rcases wake_state (s.procs q) chan with hst | hst
    · exact .quiet hst rfl (.none rfl)
    · exact .other rfl rfl rfl rfl (Or.inl hst)
  | @kill pid q =>
    rcases kill_state (s.procs q) with hst | hst
    · exact .quiet hst rfl (.none rfl)
    · exact .other rfl rfl rfl rfl (Or.inl hst)
  | @wakeupEnd chan j f => cases f <;> exact .quiet trivial rfl (.none rfl)
  | reparent | sleepTidy | setkilled => exact .quiet rfl rfl (.none rfl)
  | _ => exact .quiet trivial rfl (.none rfl)

theorem Instr.kind (h : Instr init s p pc effect pc' event) : Kind s p pc effect pc' := by
  cases h with
  | inside instr => exact instr.kind
  | forkParent | forkRunnable => exact .quiet trivial rfl (.same rfl)
  | yieldState => exact .mark rfl rfl (.same rfl)
  | yieldSched => exact .leave (by simp [Pc.own]) trivial (.same rfl)
  | yieldAcquire | yieldRelease => exact .quiet trivial rfl (.same rfl)
  | @reacquire f => cases f <;> exact .quiet trivial rfl (.none rfl)
  | _ => exact .quiet trivial rfl (.none rfl)

theorem Enters.kind (h : Enters init p pc pc') : Kind s p pc .skip pc' := by
  cases h with
  | preempt => exact .quiet trivial rfl (.same rfl)
  | _ => exact .quiet trivial rfl (.none rfl)

/-! ### The invariant -/

/-- `RUNNABLE`, `SLEEPING` or `ZOMBIE`, as `sched` wants it. -/
def Idle (st : ProcState) : Prop := st = .runnable ∨ st = .sleeping ∨ st = .zombie

def Live (st : ProcState) : Prop := st = .runnable ∨ st = .sleeping ∨ st = .running

/-- The thread of `p` waits to be loaded: if the process lives, `p->context` says where. -/
structure State.Rests (s : State n κ) (p : Fin n) : Prop where
  parked : (s.thread p).Parked
  context : Live (s.procs p).state → s.context p = some (s.thread p)

/-- What the process that a CPU is on looks like. -/
def Cpu.Carries (s : State n κ) : Cpu n → Prop
  | .set p | .restore p => (s.procs p).state = .running ∧ s.Rests p
  | .run p pc => (s.procs p).state = pc.own ∧ s.thread p = pc
  | .save p pc => Idle (s.procs p).state ∧ s.thread p = pc ∧ pc.Parked
  | .clear p => Idle (s.procs p).state ∧ s.Rests p
  | _ => True

def State.Off (s : State n κ) (p : Fin n) : Prop := ∀ c, (s.cpus c).on ≠ some p

structure Sched (s : State n κ) : Prop where
  carries : ∀ c, (s.cpus c).Carries s
  alone : ∀ c c' p, (s.cpus c).on = some p → (s.cpus c').on = some p → c = c'
  off : ∀ p, s.Off p → (s.procs p).state ≠ .running ∧ s.Rests p
  making : ∀ p m, (s.thread p).making = some m → m.Holds s
  makers : ∀ p p' m m', (s.thread p).making = some m → (s.thread p').making = some m' → m.np = m'.np → p = p'

/-- Nothing of what scheduling looks at changes for `q`. -/
structure Same (s t : State n κ) (q : Fin n) : Prop where
  state : (t.procs q).state = (s.procs q).state
  context : t.context q = s.context q
  thread : t.thread q = s.thread q

theorem Same.rests (h : Same s t p) (hrests : s.Rests p) : t.Rests p where
  parked := h.thread ▸ hrests.parked
  context hlive := by
    rw [h.context, h.thread]
    exact hrests.context (h.state ▸ hlive)

theorem Same.holds {m : Making n} (h : Same s t m.np) (hm : m.Holds s) : m.Holds t where
  state := h.state.trans hm.state
  context hready := h.context.trans (hm.context hready)
  thread hready := h.thread.trans (hm.thread hready)

theorem Same.carries {cpu : Cpu n} (h : ∀ p, cpu.on = some p → Same s t p) (hcpu : cpu.Carries s) : cpu.Carries t := by
  cases cpu with
  | set p | restore p => exact ⟨(h p rfl).state.trans hcpu.1, (h p rfl).rests hcpu.2⟩
  | run p pc => exact ⟨(h p rfl).state.trans hcpu.1, (h p rfl).thread.trans hcpu.2⟩
  | save p pc =>
    obtain ⟨hidle, hthread, hparked⟩ := hcpu
    exact ⟨(h p rfl).state ▸ hidle, (h p rfl).thread.trans hthread, hparked⟩
  | clear p => exact ⟨(h p rfl).state ▸ hcpu.1, (h p rfl).rests hcpu.2⟩
  | _ => trivial

theorem making_state (m : Making n) : m.state = .unused ∨ m.state = .used := by
  unfold Making.state
  split
  · exact Or.inl rfl
  · exact Or.inr rfl

/-- A process on a CPU is in none of the states of a slot that is not one yet. -/
theorem Cpu.Carries.state {cpu : Cpu n} (h : cpu.Carries s) (hon : cpu.on = some p) :
    (s.procs p).state = .running ∨ Idle (s.procs p).state ∧ cpu.heldProc = some p := by
  cases cpu with
  | set q | restore q =>
    cases hon
    exact Or.inl h.1
  | run q pc =>
    cases hon
    rw [h.1]
    exact own_cases pc
  | save q pc | clear q =>
    cases hon
    exact Or.inr ⟨h.1, rfl⟩
  | _ => cases hon

namespace Sched

theorem on_cases (h : Sched s) {c : κ} (hon : (s.cpus c).on = some p) :
    (s.procs p).state = .running ∨ Idle (s.procs p).state ∧ (s.cpus c).heldProc = some p :=
  (h.carries c).state hon

/-- A slot in the making is on no CPU. -/
theorem making_off (h : Sched s) {m : Making n} (hm : (s.thread p).making = some m) : s.Off m.np := by
  intro c hon
  have hstate := (h.making p m hm).state
  rcases making_state m with hst | hst <;> rw [hst] at hstate <;>
    rcases h.on_cases hon with hrun | ⟨hidle | hidle | hidle, -⟩ <;> simp_all

/-- A process that does not run and whose lock is held elsewhere is on no CPU. -/
theorem held_off (h : Sched s) (hl : Locked s) {c : κ} {q : Fin n} (hheld : (s.cpus c).heldProc = some q)
    (hon : (s.cpus c).on ≠ some q) (hst : (s.procs q).state ≠ .running) : s.Off q := by
  intro d hd
  rcases h.on_cases hd with hrun | ⟨-, hlock⟩
  · exact hst hrun
  · have hdc : d = c := hl.proc.unique (a := q) hlock hheld
    exact hon (hdc ▸ hd)

theorem free_off (h : Sched s) (hl : Locked s) {q : Fin n} (hfree : s.procLock q = none)
    (hst : (s.procs q).state ≠ .running) : s.Off q := by
  intro d hd
  rcases h.on_cases hd with hrun | ⟨-, hlock⟩
  · exact hst hrun
  · exact hl.proc.not_free hfree hlock

/-- A thread that is not parked is on a CPU, at its place in the code. -/
theorem on_cpu (h : Sched s) (hp : ¬(s.thread p).Parked) : ∃ c, s.cpus c = .run p (s.thread p) := by
  have hon : ∃ c, (s.cpus c).on = some p := by
    by_contra hnone
    exact hp (h.off p fun c hc => hnone ⟨c, hc⟩).2.parked
  obtain ⟨c, hc⟩ := hon
  have hcarries := h.carries c
  refine ⟨c, ?_⟩
  generalize s.cpus c = cpu at hc hcarries
  cases cpu with
  | set q | restore q | clear q =>
    cases hc
    exact absurd hcarries.2.parked hp
  | run q pc =>
    cases hc
    rw [hcarries.2]
  | save q pc =>
    cases hc
    obtain ⟨-, hthread, hparked⟩ := hcarries
    rw [hthread] at hp
    exact absurd hparked hp
  | _ => cases hc

end Sched

variable [DecidableEq κ]

/-- A step of the CPU `c` that stays on the process it is on. -/
theorem Sched.move {c : κ} {cpu : Cpu n} (h : Sched s) (hcpus : t.cpus = Function.update s.cpus c cpu)
    (hon : cpu.on = (s.cpus c).on) (hcarries : cpu.Carries t)
    (hothers : ∀ q, (s.cpus c).on ≠ some q → Same s t q ∨ s.Off q ∧ (t.procs q).state ≠ .running ∧ t.Rests q)
    (hmaking : ∀ p m, (t.thread p).making = some m → m.Holds t)
    (hmakers : ∀ p p' m m', (t.thread p).making = some m → (t.thread p').making = some m' → m.np = m'.np → p = p') :
    Sched t := by
  have hself : t.cpus c = cpu := by rw [hcpus, Function.update_self]
  have hother : ∀ d, d ≠ c → t.cpus d = s.cpus d := fun d hd => by rw [hcpus, Function.update_of_ne hd]
  have hons : ∀ d, (t.cpus d).on = (s.cpus d).on := by
    intro d
    by_cases hdc : d = c
    · rw [hdc, hself, hon]
    · rw [hother d hdc]
  refine ⟨fun d => ?_, fun d d' p hd hd' => ?_, fun p hp => ?_, hmaking, hmakers⟩
  · by_cases hdc : d = c
    · rw [hdc, hself]
      exact hcarries
    · rw [hother d hdc]
      refine Same.carries (fun p hp => ?_) (h.carries d)
      have hne : (s.cpus c).on ≠ some p := fun hc => hdc (h.alone d c p hp hc)
      rcases hothers p hne with hsame | ⟨hoff, -⟩
      · exact hsame
      · exact absurd hp (hoff d)
  · rw [hons] at hd hd'
    exact h.alone d d' p hd hd'
  · have hoff : s.Off p := fun d hd => hp d ((hons d).trans hd)
    rcases hothers p (hoff c) with hsame | ⟨-, hrests⟩
    · obtain ⟨hst, hrests⟩ := h.off p hoff
      exact ⟨hsame.state ▸ hst, hsame.rests hrests⟩
    · exact hrests

/-- A step of a CPU that changes nothing of what scheduling looks at. -/
theorem Sched.idle {c : κ} {cpu : Cpu n} (h : Sched s) (hcpus : t.cpus = Function.update s.cpus c cpu)
    (hon : cpu.on = (s.cpus c).on) (hcarries : cpu.Carries s) (hsame : ∀ q, Same s t q) : Sched t := by
  refine h.move hcpus hon (Same.carries (fun p _ => hsame p) hcarries) (fun q _ => Or.inl (hsame q)) (fun p m hm => ?_)
    fun p p' m m' hm hm' => ?_
  · rw [(hsame p).thread] at hm
    exact (hsame m.np).holds (h.making p m hm)
  · rw [(hsame p).thread] at hm
    rw [(hsame p').thread] at hm'
    exact h.makers p p' m m' hm hm'

/-! ### An instruction -/

section Thread
variable {c : κ}

/-- A thread goes on, and changes at most the slot `q` besides its own. -/
theorem Sched.thread {cpu : Cpu n} {q : Fin n} (h : Sched s) (hcpu : s.cpus c = .run p pc)
    (hcpus : t.cpus = Function.update s.cpus c cpu) (hon : cpu.on = some p) (hcarries : cpu.Carries t)
    (hthread : t.thread p = pc') (hothers : ∀ r, r ≠ p → r ≠ q → Same s t r)
    (hq : q ≠ p → s.Off q ∧ (t.procs q).state ≠ .running ∧ t.Rests q)
    (hqthread : q ≠ p → t.thread q = s.thread q ∨ t.thread q = forkret)
    (hfree : ∀ r m, r ≠ p → (s.thread r).making = some m → m.np ≠ q)
    (hmaking : ∀ m, pc'.making = some m → m.Holds t ∧
      ∀ r m', r ≠ p → (s.thread r).making = some m' → m'.np ≠ m.np) : Sched t := by
  have hc : (s.cpus c).on = some p := by rw [hcpu]; rfl
  have hkept : ∀ r m, r ≠ p → (t.thread r).making = some m → (s.thread r).making = some m := by
    intro r m hr hm
    by_cases hrq : r = q
    · subst hrq
      rcases hqthread hr with hthread | hthread <;> rw [hthread] at hm
      · exact hm
      · cases hm
    · rwa [(hothers r hr hrq).thread] at hm
  have hpart : ∀ r m m', r ≠ p → (t.thread r).making = some m → (t.thread p).making = some m' → m.np ≠ m'.np := by
    intro r m m' hr hm hm'
    rw [hthread] at hm'
    exact (hmaking m' hm').2 r m hr (hkept r m hr hm)
  refine h.move hcpus (hon.trans hc.symm) hcarries (fun r hr => ?_) (fun r m hm => ?_) fun r r' m m' hm hm' hnp => ?_
  · have hrp : r ≠ p := fun heq => hr (heq ▸ hc)
    by_cases hrq : r = q
    · subst hrq
      exact Or.inr (hq hrp)
    · exact Or.inl (hothers r hrp hrq)
  · by_cases hr : r = p
    · subst hr
      rw [hthread] at hm
      exact (hmaking m hm).1
    · have hm' := hkept r m hr hm
      refine (hothers m.np ?_ (hfree r m hr hm')).holds (h.making r m hm')
      rintro heq
      exact h.making_off hm' c (heq ▸ hc)
  · by_cases hr : r = p <;> by_cases hr' : r' = p
    · rw [hr, hr']
    · subst hr
      exact absurd hnp.symm (hpart r' m' m hr' hm' hm)
    · subst hr'
      exact absurd hnp (hpart r m m' hr hm hm')
    · exact h.makers r r' m m' (hkept r m hr hm) (hkept r' m' hr' hm') hnp

/-- A thread goes on, and changes no slot but its own. -/
theorem Sched.alone_thread {cpu : Cpu n} (h : Sched s) (hcpu : s.cpus c = .run p pc)
    (hcpus : t.cpus = Function.update s.cpus c cpu) (hon : cpu.on = some p) (hcarries : cpu.Carries t)
    (hthread : t.thread p = pc') (hothers : ∀ r, r ≠ p → Same s t r)
    (hmaking : ∀ m, pc'.making = some m → m.Holds t ∧
      ∀ r m', r ≠ p → (s.thread r).making = some m' → m'.np ≠ m.np) : Sched t := by
  refine h.thread (q := p) hcpu hcpus hon hcarries hthread (fun r hr _ => hothers r hr) (fun hne => absurd rfl hne)
    (fun hne => absurd rfl hne) (fun r m hr hm heq => ?_) hmaking
  exact h.making_off hm c (by rw [hcpu, heq]; rfl)

omit [DecidableEq κ] in
/-- What a thread makes is still its own when it goes on. -/
theorem Sched.keeps (h : Sched s) (hcpu : s.cpus c = .run p pc) (hkeeps : Keeps pc pc')
    (hothers : ∀ r, r ≠ p → Same s t r) {m : Making n} (hm : pc'.making = some m) :
    m.Holds t ∧ ∀ r m', r ≠ p → (s.thread r).making = some m' → m'.np ≠ m.np := by
  have hpc : s.thread p = pc := by
    have hcarries := h.carries c
    rw [hcpu] at hcarries
    exact hcarries.2
  obtain ⟨m₀, hm₀, hnp, hstate, hready⟩ := hkeeps m hm
  rw [← hpc] at hm₀
  have hne : m₀.np ≠ p := fun heq => h.making_off hm₀ c (by rw [hcpu, heq]; rfl)
  have hholds := (hothers m₀.np hne).holds (h.making p m₀ hm₀)
  refine ⟨⟨?_, ?_, ?_⟩, fun r m' hr hm' heq => hr (h.makers r p m' m₀ hm' hm₀ (heq.trans hnp))⟩
  · rw [hnp, hstate]
    exact hholds.state
  · intro hr
    rw [hnp]
    exact hholds.context (hready hr)
  · intro hr
    rw [hnp]
    exact hholds.thread (hready hr)

omit [DecidableEq κ] in
theorem Effect.Quiet.same (hq : effect.Quiet s) (ha : applyEffect s c effect = some t) (q : Fin n) : Same s t q := by
  cases effect with
  | acquire | acquireProc =>
    obtain ⟨-, ht⟩ := Option.ite_none_right_eq_some.mp ha
    cases ht
    exact ⟨rfl, rfl, rfl⟩
  | write r x =>
    cases ha
    refine ⟨?_, rfl, rfl⟩
    by_cases hr : q = r
    · subst hr
      rw [State.setProc_procs, Function.update_self]
      exact hq
    · rw [State.setProc_procs, Function.update_of_ne hr]
  | create | setup | swtch => cases hq
  | _ =>
    cases ha
    exact ⟨rfl, rfl, rfl⟩

omit [DecidableEq κ] in
theorem Effect.Quiet.cpu (hq : effect.Quiet s) : effect.cpu p pc' = .run p pc' := by
  cases effect <;> first | rfl | cases hq

theorem Same.goTo {cpu : Cpu n} {r : Fin n} (h : Same s t r) (hr : r ≠ p) : Same s (t.goTo c p cpu pc') r where
  state := h.state
  context := h.context
  thread := by rw [State.goTo_thread, Function.update_of_ne hr, h.thread]

omit [DecidableEq κ] in
theorem Same.write {q r : Fin n} {x : Proc n} (hr : r ≠ q) : Same s (s.setProc q x) r where
  state := by rw [State.setProc_procs, Function.update_of_ne hr]
  context := rfl
  thread := rfl

theorem goTo_thread_self {cpu : Cpu n} : (t.goTo c p cpu pc').thread p = pc' := by
  rw [State.goTo_thread, Function.update_self]

/-- A thread writes a slot that is on no CPU. -/
theorem Sched.write {q : Fin n} {x : Proc n} (h : Sched s) (hcpu : s.cpus c = .run p pc) (hown : pc'.own = pc.own)
    (hcpus : t.cpus = Function.update s.cpus c (.run p pc')) (hprocs : t.procs = Function.update s.procs q x)
    (hcontext : t.context = s.context) (hthread : t.thread = Function.update s.thread p pc') (hoff : s.Off q)
    (hst : x.state ≠ .running) (hlive : Live x.state → s.context q = some (s.thread q))
    (hfree : ∀ r m, r ≠ p → (s.thread r).making = some m → m.np ≠ q)
    (hmaking : ∀ m, pc'.making = some m → m.np = q ∧ x.state = m.state ∧ m.ready = false) : Sched t := by
  have hcarries := h.carries c
  rw [hcpu] at hcarries
  have hne : q ≠ p := fun heq => hoff c (by rw [hcpu, heq]; rfl)
  have hself : t.thread p = pc' := by rw [hthread, Function.update_self]
  have hq : t.thread q = s.thread q := by rw [hthread, Function.update_of_ne hne]
  have hx : (t.procs q).state = x.state := by rw [hprocs, Function.update_self]
  refine h.thread (q := q) hcpu hcpus rfl ⟨?_, hself⟩ hself (fun r hr hrq => ⟨?_, ?_, ?_⟩) (fun _ => ⟨hoff, ?_, ?_, ?_⟩)
    (fun _ => Or.inl hq) hfree fun m hm => ?_
  · rw [hprocs, Function.update_of_ne hne.symm, hcarries.1, hown]
  · rw [hprocs, Function.update_of_ne hrq]
  · rw [hcontext]
  · rw [hthread, Function.update_of_ne hr]
  · rwa [hx]
  · rw [hq]
    exact (h.off q hoff).2.parked
  · rw [hx, hq, hcontext]
    exact hlive
  · obtain ⟨rfl, hstate, hready⟩ := hmaking m hm
    exact ⟨⟨hx.trans hstate, by simp [hready], by simp [hready]⟩, fun r m' hr hm' => hfree r m' hr hm'⟩

theorem Sched.instr (h : Sched s) (hl : Locked s) (hcpu : s.cpus c = .run p pc) (hk : Kind s p pc effect pc')
    (ha : applyEffect s c effect = some t) : Sched (t.goTo c p (effect.cpu p pc') pc') := by
  have hcarries := h.carries c
  rw [hcpu] at hcarries
  obtain ⟨hown, hpc⟩ := hcarries
  have hc : (s.cpus c).on = some p := by rw [hcpu]; rfl
  have hcpus : ∀ cpu, (t.goTo c p cpu pc').cpus = Function.update s.cpus c cpu := fun cpu => by
    rw [State.goTo_cpus, (applyEffect_cpus ha).1]
  -- What the thread makes is its own, and on no CPU.
  have hmine : ∀ m, pc.making = some m → m.np ≠ p ∧ s.Off m.np ∧ m.Holds s ∧
      ∀ r m', r ≠ p → (s.thread r).making = some m' → m'.np ≠ m.np := by
    intro m hm
    rw [← hpc] at hm
    refine ⟨fun heq => h.making_off hm c (heq ▸ hc), h.making_off hm, h.making p m hm, fun r m' hr hm' heq => ?_⟩
    exact hr (h.makers r p m' m hm' hm heq)
  cases hk with
  | quiet quiet own keeps =>
    rw [quiet.cpu]
    have hsame := quiet.same ha
    have hothers : ∀ r, r ≠ p → Same s (t.goTo c p (.run p pc') pc') r := fun r hr => (hsame r).goTo hr
    refine h.alone_thread hcpu (hcpus _) rfl ⟨?_, goTo_thread_self⟩ goTo_thread_self hothers fun m => h.keeps hcpu keeps hothers
    rw [State.goTo_procs, (hsame p).state, hown, own]
  | @mark x _ own state keeps =>
    cases ha
    have hothers : ∀ r, r ≠ p → Same s ((s.setProc p x).goTo c p (.run p pc') pc') r := fun r hr => (Same.write hr).goTo hr
    refine h.alone_thread hcpu (hcpus _) rfl ⟨?_, goTo_thread_self⟩ goTo_thread_self hothers fun m => h.keeps hcpu keeps hothers
    rw [State.goTo_procs, State.setProc_procs, Function.update_self, state]
  | leave own parked keeps =>
    cases ha
    have hothers : ∀ r, r ≠ p → Same s (s.goTo c p (.save p pc') pc') r := fun r hr => Same.goTo ⟨rfl, rfl, rfl⟩ hr
    refine h.alone_thread hcpu (hcpus _) rfl ⟨?_, goTo_thread_self, parked⟩ goTo_thread_self hothers
      fun m => h.keeps hcpu keeps hothers
    rw [State.goTo_procs, hown]
    rcases own_cases (p := p) pc with hrun | ⟨hidle, -⟩
    · exact absurd hrun own
    · exact hidle
  | @found _ m own held making unused pid ready =>
    cases ha
    have hothers : ∀ r, r ≠ p → Same s (s.goTo c p (.run p pc') pc') r := fun r hr => Same.goTo ⟨rfl, rfl, rfl⟩ hr
    refine h.alone_thread hcpu (hcpus _) rfl ⟨hown.trans own.symm, goTo_thread_self⟩ goTo_thread_self hothers fun m' hm' => ?_
    obtain rfl : m = m' := Option.some.inj (making.symm.trans hm')
    refine ⟨⟨by rw [State.goTo_procs, unused, Making.state, pid]; rfl, by simp [ready], by simp [ready]⟩, fun r m' hr hr' hnp => ?_⟩
    -- Another thread that has found the slot unused would hold its lock.
    have hstate := (h.making r m' hr').state
    rw [hnp, unused] at hstate
    have hpid : m'.pid = none := by
      unfold Making.state at hstate
      split at hstate
      · next hnone => exact Option.isNone_iff_eq_none.mp hnone
      · cases hstate
    obtain ⟨hparked, hlock⟩ := heldProc_of_found (p := r) hr' hpid
    obtain ⟨d, hd⟩ := h.on_cpu hparked
    have hdc : d = c := hl.proc.unique (a := m.np) (by rw [State.heldProc, hd, ← hnp]; exact hlock)
      (by rw [State.heldProc, hcpu]; exact held)
    rw [hdc, hcpu] at hd
    cases hd
    exact hr rfl
  | @create x _ m m' own making making' np state ready =>
    cases ha
    obtain ⟨hne, hoff, hholds, hfree⟩ := hmine m making
    have hst := making_state m'
    rw [← state] at hst
    refine h.write hcpu own (hcpus _) rfl rfl rfl hoff (by rcases hst with hst | hst <;> simp [hst])
      (fun hlive => by rcases hst with hst | hst <;> simp [hst, Live] at hlive) hfree fun m'' hm'' => ?_
    obtain rfl : m' = m'' := Option.some.inj (making'.symm.trans hm'')
    exact ⟨np, state, ready⟩
  | @setup _ m m' own making making' np state =>
    cases ha
    rw [show Effect.cpu p pc' (.setup m.np) = .run p pc' from rfl]
    obtain ⟨hne, hoff, hholds, hfree⟩ := hmine m making
    have hstate : (s.procs m.np).state = .unused ∨ (s.procs m.np).state = .used := by
      rw [hholds.state]
      exact making_state m
    have hthread : (((s.setContext m.np forkret).setThread m.np forkret).goTo c p (.run p pc') pc').thread m.np = forkret := by
      rw [State.goTo_thread, Function.update_of_ne hne, State.setThread_thread, Function.update_self]
    have hcontext : (((s.setContext m.np forkret).setThread m.np forkret).goTo c p (.run p pc') pc').context m.np =
        some forkret := by
      rw [State.goTo_context, State.setThread_context, State.setContext_context, Function.update_self]
    refine h.thread (q := m.np) hcpu (hcpus _) rfl ⟨hown.trans own.symm, goTo_thread_self⟩ goTo_thread_self
      (fun r hr hrq => Same.goTo ⟨rfl, ?_, ?_⟩ hr) (fun _ => ⟨hoff, ?_, ?_, fun _ => ?_⟩) (fun _ => Or.inr hthread) hfree
      fun m'' hm'' => ?_
    · rw [State.setThread_context, State.setContext_context, Function.update_of_ne hrq]
    · rw [State.setThread_thread, Function.update_of_ne hrq, State.setContext_thread]
    · rcases hstate with hst | hst <;> simp [hst]
    · rw [hthread]
      trivial
    · rw [hthread]
      exact hcontext
    · obtain rfl : m' = m'' := Option.some.inj (making'.symm.trans hm'')
      refine ⟨⟨?_, fun _ => ?_, fun _ => ?_⟩, ?_⟩
      · rw [np, state]
        exact hholds.state
      · rw [np]
        exact hcontext
      · rw [np]
        exact hthread
      · rw [np]
        exact hfree
  | @drop x _ m own making making' state =>
    cases ha
    obtain ⟨-, hoff, -, hfree⟩ := hmine m making
    exact h.write hcpu own (hcpus _) rfl rfl rfl hoff (by simp [state]) (fun hlive => by simp [state, Live] at hlive) hfree
      fun m' hm' => by rw [making'] at hm'; cases hm'
  | @start x _ m own making making' ready state =>
    cases ha
    obtain ⟨-, hoff, hholds, hfree⟩ := hmine m making
    refine h.write hcpu own (hcpus _) rfl rfl rfl hoff (by simp [state]) (fun _ => ?_) hfree
      fun m' hm' => by rw [making'] at hm'; cases hm'
    rw [hholds.context ready, hholds.thread ready]
  | @other q x _ own own' making held state =>
    cases ha
    have hlock : (s.cpus c).heldProc = some q := by rw [hcpu]; exact held
    have hst : (s.procs q).state ≠ .running := by rcases state with ⟨hst, -⟩ | ⟨hst, -⟩ <;> simp [hst]
    have hon : (s.cpus c).on ≠ some q := by
      intro hq
      obtain rfl := Option.some.inj (hc.symm.trans hq)
      exact hst (hown.trans own)
    have hoff := h.held_off hl hlock hon hst
    refine h.write hcpu (own'.trans own.symm) (hcpus _) rfl rfl rfl hoff ?_ (fun hlive => ?_) (fun r m hr hm hnp => ?_)
      fun m hm => by rw [making] at hm; cases hm
    · rcases state with ⟨-, hx⟩ | ⟨-, hx⟩ <;> simp [hx]
    · rcases state with ⟨hsleep, -⟩ | ⟨-, hx⟩
      · exact (h.off q hoff).2.context (by simp [hsleep, Live])
      · simp [hx, Live] at hlive
    · have hstate := (h.making r m hm).state
      rw [hnp] at hstate
      rcases making_state m with hm | hm <;> rw [hm] at hstate <;> rcases state with ⟨hst, -⟩ | ⟨hst, -⟩ <;> simp_all

end Thread

/-! ### A step -/

theorem Sched.choose {c : κ} {q : Fin n} (h : Sched s) (hl : Locked s) (hcpu : s.cpus c = .check q)
    (hrunnable : (s.procs q).state = .runnable) :
    Sched ((s.setProc q { s.procs q with state := .running }).setCpu c (.set q)) := by
  have hoff : s.Off q := h.held_off hl (c := c) (by rw [hcpu]; rfl) (by rw [hcpu]; simp [Cpu.on]) (by simp [hrunnable])
  have hrests := (h.off q hoff).2
  have hother : ∀ d, d ≠ c → Function.update s.cpus c (Cpu.set q) d = s.cpus d := fun d hd => Function.update_of_ne hd _ _
  have hsame : ∀ r, r ≠ q → Same s ((s.setProc q { s.procs q with state := .running }).setCpu c (.set q)) r :=
    fun r hr => ⟨(Same.write hr).state, rfl, rfl⟩
  refine ⟨fun d => ?_, fun d d' r hd hd' => ?_, fun r hr => ?_, fun r m hm => ?_, h.makers⟩
  · by_cases hd : d = c
    · subst hd
      rw [State.setCpu_cpus, Function.update_self]
      exact ⟨by simp, hrests.parked, fun _ => hrests.context (by simp [hrunnable, Live])⟩
    · rw [State.setCpu_cpus, State.setProc_cpus, hother d hd]
      refine Same.carries (fun r hr => hsame r ?_) (h.carries d)
      rintro rfl
      exact hoff d hr
  · rw [State.setCpu_cpus, State.setProc_cpus] at hd hd'
    by_cases hdc : d = c <;> by_cases hdc' : d' = c
    · rw [hdc, hdc']
    · subst hdc
      rw [Function.update_self] at hd
      rw [hother d' hdc'] at hd'
      cases hd
      exact absurd hd' (hoff d')
    · subst hdc'
      rw [Function.update_self] at hd'
      rw [hother d hdc] at hd
      cases hd'
      exact absurd hd (hoff d)
    · rw [hother d hdc] at hd
      rw [hother d' hdc'] at hd'
      exact h.alone d d' r hd hd'
  · have hrq : r ≠ q := by
      rintro rfl
      refine hr c ?_
      rw [State.setCpu_cpus, Function.update_self]
      rfl
    have hroff : s.Off r := by
      intro d hd
      by_cases hdc : d = c
      · rw [hdc, hcpu] at hd
        cases hd
      · exact hr d (by rw [State.setCpu_cpus, State.setProc_cpus, hother d hdc, hd])
    obtain ⟨hst, hrests⟩ := h.off r hroff
    exact ⟨(hsame r hrq).state ▸ hst, (hsame r hrq).rests hrests⟩
  · refine (hsame m.np ?_).holds (h.making r m hm)
    rintro rfl
    have hstate := (h.making r m hm).state
    rcases making_state m with hst | hst <;> simp_all

theorem Sched.clear {c : κ} (h : Sched s) (hcpu : s.cpus c = .clear p) :
    Sched ((s.setCurrent c none).setCpu c (.unlock p)) := by
  have hother : ∀ d, d ≠ c → Function.update s.cpus c (Cpu.unlock p) d = s.cpus d := fun d hd => Function.update_of_ne hd _ _
  have hon : ∀ d r, (Function.update s.cpus c (Cpu.unlock p) d).on = some r → d ≠ c ∧ (s.cpus d).on = some r := by
    intro d r hd
    by_cases hdc : d = c
    · subst hdc
      rw [Function.update_self] at hd
      cases hd
    · rw [hother d hdc] at hd
      exact ⟨hdc, hd⟩
  have hcarries := h.carries c
  rw [hcpu] at hcarries
  refine ⟨fun d => ?_, fun d d' r hd hd' => ?_, fun r hr => ?_, fun r m hm => ?_, h.makers⟩
  · by_cases hd : d = c
    · subst hd
      rw [State.setCpu_cpus, Function.update_self]
      trivial
    · rw [State.setCpu_cpus, State.setCurrent_cpus, hother d hd]
      exact Same.carries (s := s) (fun r _ => ⟨rfl, rfl, rfl⟩) (h.carries d)
  · exact h.alone d d' r (hon d r hd).2 (hon d' r hd').2
  · by_cases hrp : r = p
    · subst hrp
      obtain ⟨hidle, hrests⟩ := hcarries
      refine ⟨fun hst => ?_, hrests.parked, hrests.context⟩
      rw [State.setCpu_procs, State.setCurrent_procs] at hst
      simp [hst, Idle] at hidle
    · have hroff : s.Off r := by
        intro d hd
        by_cases hdc : d = c
        · rw [hdc, hcpu] at hd
          exact hrp (Option.some.inj hd).symm
        · exact hr d (by rw [State.setCpu_cpus, State.setCurrent_cpus, hother d hdc, hd])
      obtain ⟨hst, hrests⟩ := h.off r hroff
      exact ⟨hst, hrests.parked, hrests.context⟩
  · obtain ⟨hstate, hcontext, hthread⟩ := h.making r m hm
    exact ⟨hstate, hcontext, hthread⟩

theorem Sched.save {c : κ} (h : Sched s) (hcpu : s.cpus c = .save p pc) : Sched ((s.setContext p pc).setCpu c (.clear p)) := by
  have hcarries := h.carries c
  rw [hcpu] at hcarries
  obtain ⟨hidle, hthread, hparked⟩ := hcarries
  have hsame : ∀ r, r ≠ p → Same s ((s.setContext p pc).setCpu c (.clear p)) r :=
    fun r hr => ⟨rfl, Function.update_of_ne hr _ _, rfl⟩
  refine h.move rfl (by rw [hcpu]; rfl) ⟨hidle, ?_, fun _ => ?_⟩ (fun r hr => Or.inl (hsame r ?_)) (fun r m hm => ?_) h.makers
  · rw [State.setCpu_thread, State.setContext_thread, hthread]
    exact hparked
  · rw [State.setCpu_context, State.setContext_context, Function.update_self, State.setCpu_thread, State.setContext_thread,
      hthread]
  · rintro rfl
    exact hr (by rw [hcpu]; rfl)
  · refine (hsame m.np ?_).holds (h.making r m hm)
    rintro rfl
    exact h.making_off hm c (by rw [hcpu]; rfl)

omit [DecidableEq κ] in
theorem Sched.interrupt {q : Fin n} {chan : Option (Chan n)} (h : Sched s) (hl : Locked s) (hfree : s.procLock q = none) :
    Sched (s.setProc q ((s.procs q).wake chan)) := by
  have hsame : ∀ r, r ≠ q → Same s (s.setProc q ((s.procs q).wake chan)) r := fun r hr => .write hr
  have hself : ((s.setProc q ((s.procs q).wake chan)).procs q) = (s.procs q).wake chan := by
    rw [State.setProc_procs, Function.update_self]
  rcases wake_state (s.procs q) chan with hst | ⟨hsleep, hst⟩
  · have hall : ∀ r, Same s (s.setProc q ((s.procs q).wake chan)) r := by
      intro r
      by_cases hr : r = q
      · subst hr
        exact ⟨by rw [hself, hst], rfl, rfl⟩
      · exact hsame r hr
    exact ⟨fun d => Same.carries (fun r _ => hall r) (h.carries d), h.alone,
      fun r hr => ⟨(hall r).state ▸ (h.off r hr).1, (hall r).rests (h.off r hr).2⟩,
      fun r m hm => (hall m.np).holds (h.making r m hm), h.makers⟩
  · have hoff : s.Off q := h.free_off hl hfree (by simp [hsleep])
    refine ⟨fun d => Same.carries (fun r hr => hsame r ?_) (h.carries d), h.alone, fun r hr => ?_, fun r m hm => ?_, h.makers⟩
    · rintro rfl
      exact hoff d hr
    · by_cases hrq : r = q
      · subst hrq
        have hrests := (h.off r hoff).2
        exact ⟨by simp [hself, hst], hrests.parked, fun _ => hrests.context (by simp [hsleep, Live])⟩
      · exact ⟨(hsame r hrq).state ▸ (h.off r hr).1, (hsame r hrq).rests (h.off r hr).2⟩
    · refine (hsame m.np ?_).holds (h.making r m hm)
      rintro rfl
      have hstate := (h.making r m hm).state
      rcases making_state m with hm | hm <;> simp_all

theorem sched_step {l : Action n κ × Event n} (h : Sched s) (hl : Locked s) (hstep : Step init s l t) : Sched t := by
  cases step_inv hstep with
  | scan cpu | wrap cpu | pass cpu | unlock cpu =>
    exact h.idle rfl (by rw [cpu]; rfl) trivial fun _ => ⟨rfl, rfl, rfl⟩
  | choose cpu runnable => exact h.choose hl cpu runnable
  | @set c q cpu =>
    have hcarries := h.carries c
    rw [cpu] at hcarries
    exact h.idle rfl (by rw [cpu]; rfl) hcarries fun _ => ⟨rfl, rfl, rfl⟩
  | @restore c q pc cpu context =>
    have hcarries := h.carries c
    rw [cpu] at hcarries
    obtain ⟨hrunning, hrests⟩ := hcarries
    have hpc := hrests.context (by simp [hrunning, Live])
    rw [context] at hpc
    obtain rfl := Option.some.inj hpc
    refine h.idle rfl (by rw [cpu]; rfl) ⟨?_, rfl⟩ fun _ => ⟨rfl, rfl, rfl⟩
    rw [hrunning, own_of_parked hrests.parked]
  | thread cpu instr apply => exact h.instr hl cpu instr.kind apply
  | save cpu => exact h.save cpu
  | clear cpu => exact h.clear cpu
  | enters cpu enters => exact h.instr hl cpu enters.kind rfl
  | @unlockOther a c p i cpu =>
    have hk : Kind s p (.inside (.other i)) (.release (.other i)) (.at .user) := .quiet trivial rfl (.none rfl)
    exact h.instr hl cpu hk rfl
  | interrupt free => exact h.interrupt hl free

omit [DecidableEq κ] in
theorem Boot.sched (h : Boot init s) : Sched s where
  carries c := by rw [h.cpus]; trivial
  alone c c' p hc := by
    rw [h.cpus] at hc
    cases hc
  off p _ := by
    refine ⟨?_, by rw [h.thread]; trivial, fun hlive => ?_⟩
    · by_cases hp : p = init
      · rw [hp, h.first]
        simp
      · rw [h.unused p hp]
        simp [Proc.free]
    · by_cases hp : p = init
      · rw [h.context, if_pos hp, h.thread]
      · simp [h.unused p hp, Proc.free, Live] at hlive
  making p m hm := by
    rw [h.thread] at hm
    cases hm
  makers p p' m m' hm := by
    rw [h.thread] at hm
    cases hm

theorem sched_run {ls : List (Action n κ × Event n)} (hboot : Boot init s) (h : Run (Step init) s ls t) :
    Locked t ∧ Sched t :=
  h.invariant (I := fun u => Locked u ∧ Sched u)
    (fun _ _ _ hu hstep => ⟨locked_step hu.1 hstep, sched_step hu.2 hu.1 hstep⟩) ⟨hboot.locked, hboot.sched⟩

/-- What keeps two CPUs apart: `c->proc` of one only is `p`, which runs exactly then when its lock is free, and `p->context`
    is loaded and stored under `p->lock`, loaded when no CPU is about to store it and as it was stored. -/
structure Scheduled (s : State n κ) : Prop where
  alone : ∀ c c' p, s.proc c = some p → s.proc c' = some p → c = c'
  run : ∀ c p pc, s.cpus c = .run p pc → s.proc c = some p
  running : ∀ p, s.procLock p = none → ((s.procs p).state = .running ↔ ∃! c, s.proc c = some p)
  handOver : ∀ c p, s.cpus c = .restore p ∨ (∃ pc, s.cpus c = .save p pc) → s.procLock p = some c
  restore : ∀ c p, s.cpus c = .restore p →
    s.context p = some (s.thread p) ∧ ∀ c' pc, s.cpus c' ≠ .run p pc ∧ s.cpus c' ≠ .save p pc

omit [DecidableEq κ] in
/-- A CPU is on the process in `c->proc`; while the lock of the process is free, it executes the process. -/
theorem run_of_current (hl : Locked s) {c : κ} (hc : s.proc c = some p) :
    (s.cpus c).on = some p ∧ (s.procLock p = none → ∃ pc, s.cpus c = .run p pc) := by
  rw [hl.current] at hc
  have hlock := hl.proc c p
  rw [State.heldProc] at hlock
  generalize s.cpus c = cpu at hc hlock
  cases cpu with
  | run q pc =>
    cases hc
    exact ⟨rfl, fun _ => ⟨pc, rfl⟩⟩
  | restore q | save q | clear q =>
    cases hc
    refine ⟨rfl, fun hfree => ?_⟩
    rw [hlock rfl] at hfree
    cases hfree
  | _ => cases hc

omit [DecidableEq κ] in
theorem running_iff (hl : Locked s) (h : Sched s) (hfree : s.procLock p = none) :
    (s.procs p).state = .running ↔ ∃! c, s.proc c = some p := by
  constructor
  · intro hrunning
    have hon : ∃ c, (s.cpus c).on = some p := by
      by_contra hnone
      exact (h.off p fun c hc => hnone ⟨c, hc⟩).1 hrunning
    obtain ⟨c, hc⟩ := hon
    have hunique : ∀ d, s.proc d = some p → d = c := fun d hd => h.alone d c p (run_of_current hl hd).1 hc
    refine ⟨c, (hl.current c).trans ?_, hunique⟩
    have hlock := hl.proc c p
    rw [State.heldProc] at hlock
    generalize s.cpus c = cpu at hc hlock
    cases cpu with
    | set q =>
      cases hc
      rw [hlock rfl] at hfree
      cases hfree
    | restore q | run q | save q | clear q =>
      cases hc
      rfl
    | _ => cases hc
  · rintro ⟨c, hc, -⟩
    obtain ⟨hon, hrun⟩ := run_of_current hl hc
    rcases h.on_cases hon with hrunning | ⟨-, hlock⟩
    · exact hrunning
    · exact absurd hlock (hl.proc.not_free hfree)

omit [DecidableEq κ] in
theorem scheduled_of (hl : Locked s) (h : Sched s) : Scheduled s where
  alone c c' p hc hc' := h.alone c c' p (run_of_current hl hc).1 (run_of_current hl hc').1
  run c p pc hc := by
    rw [hl.current, hc]
    rfl
  running _ := running_iff hl h
  handOver c p hc := by
    refine hl.proc c p ?_
    rcases hc with hc | ⟨pc, hc⟩ <;> rw [State.heldProc, hc] <;> rfl
  restore c p hc := by
    have hcarries := h.carries c
    rw [hc] at hcarries
    obtain ⟨hrunning, hrests⟩ := hcarries
    have hon : (s.cpus c).on = some p := by rw [hc]; rfl
    refine ⟨hrests.context (by simp [hrunning, Live]), fun d pc => ⟨fun hd => ?_, fun hd => ?_⟩⟩
    · obtain rfl := h.alone d c p (by rw [hd]; rfl) hon
      rw [hc] at hd
      cases hd
    · obtain rfl := h.alone d c p (by rw [hd]; rfl) hon
      rw [hc] at hd
      cases hd

theorem schedule_run {ls : List (Action n κ × Event n)} (hboot : Boot init s) (h : Run (Step init) s ls t) : Scheduled t :=
  scheduled_of (sched_run hboot h).1 (sched_run hboot h).2

/-- The first process forks on one CPU, and another CPU runs its child. -/
def forkTwoCpus : List (Action 2 Bool) :=
  List.replicate 5 (.cpu true) ++ [.request true (.fork .enough)] ++ List.replicate 17 (.cpu true) ++
    List.replicate 8 (.cpu false)

theorem forkTwoCpus_runs : (exec (step 0) (boot Bool 0) forkTwoCpus).isSome := by decide

theorem schedule_run_twoCpus :
    let t := ((exec (step 0) (boot Bool 0) forkTwoCpus).get forkTwoCpus_runs).2
    t.cpus true = .run 0 (.at .user) ∧ t.cpus false = .run 1 (.at .user) ∧ Scheduled t :=
  ⟨by decide, by decide, schedule_run (boot_boot _) (run_exec forkTwoCpus_runs)⟩

end LabSO.Kernel.Procs

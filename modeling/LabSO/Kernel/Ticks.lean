import LabSO.Lib.MonitorRules
import Mathlib

/-! `sys_sleep` (`sysproc.c`) and the clock interrupt (`trap.c`): processes that wait for a number of ticks. The number is an
    `int`, and it is compared with a difference of `uint`s. -/

namespace LabSO.Ticks
open Monitor Transition

/-- `now` is the number of ticks since the start, and `tested` the number when a thread has last compared; the code does not
    look at these. -/
structure Data (n : Nat) where
  ticks : UInt32
  now : Nat
  tested : Thread n Unit → Nat

/-- A call of `sys_sleep`: its argument, and `ticks` and the number of ticks when it started. -/
structure SleepCall where
  n : Int32
  ticks0 : UInt32
  start : Nat
deriving DecidableEq, Repr

/-- The places in `sys_sleep` and in `clockintr`, under `tickslock`. -/
inductive Point
  /-- `ticks0 = ticks`. -/
  | start (n : Int32)
  /-- `while(ticks - ticks0 < n)`. -/
  | test (x : SleepCall)
  | killed (x : SleepCall)
  /-- `release(&tickslock); return -1;`. -/
  | fail (x : SleepCall)
  | sleep (x : SleepCall)
  | done (x : SleepCall)
  | tick
  | tickWakeup
  | tickDone
deriving DecidableEq, Repr

inductive Request
  | sleep (n : Int32)
  | clockintr
deriving DecidableEq, Repr

inductive Result
  | sleep (x : SleepCall) (value : Int)
  | clockintr
deriving DecidableEq, Repr

variable {n : Nat}

/-- `ticks - ticks0 < n`, where the `int` becomes a `uint`. -/
def SleepCall.waits (x : SleepCall) (ticks : UInt32) : Bool := ticks - x.ticks0 < x.n.toUInt32

/-- The next step of a thread at each place. -/
def op (a : Thread n Unit) (k : Point) (b : Data n) : Op Unit (Data n) Point Result :=
  match k with
  | .start n => .set b (.test ⟨n, b.ticks, b.now⟩)
  | .test x => .set { b with tested := Function.update b.tested a b.now } (if x.waits b.ticks then .killed x else .done x)
  | .killed x => .killed (.fail x) (.sleep x)
  | .fail x => .release (.sleep x (-1))
  | .sleep x => .sleep () (.test x)
  | .done x => .release (.sleep x 0)
  | .tick => .set { b with ticks := b.ticks + 1, now := b.now + 1 } .tickWakeup
  | .tickWakeup => .wakeup () .tickDone
  | .tickDone => .release .clockintr

/-- Processes call `sys_sleep`, and the interrupt handler of the first CPU `clockintr`. -/
def enter (a : Thread n Unit) (r : Request) (b : Data n) : Option (Data n × Option Point) :=
  match a, r with
  | .inl _, .sleep n => some (b, some (.start n))
  | .inr _, .clockintr => some (b, some .tick)
  | _, _ => none

def code (n : Nat) : Code n Unit Unit (Data n) Point Result Request Empty where
  op := op
  enter := enter
  env e _ := nomatch e

abbrev TickState (n : Nat) : Type := State n Unit Unit (Data n) Point

abbrev Label (n : Nat) : Type := Action n Unit Request Empty × Event n Unit Result

/-- The ticks since the call started. -/
def SleepCall.elapsed (x : SleepCall) (b : Data n) : Int := (b.now : Int) - x.start

/-- A process goes on waiting while fewer than `max n 0` ticks have occurred, and not any longer; with the lock free, none is
    asleep after its time is up. -/
structure OnTime (s : TickState n) : Prop where
  waits : ∀ p x, s.pcs (.inl p) = .at (.killed x) → x.elapsed s.data < max x.n.toInt 0
  returns : ∀ p x, s.pcs (.inl p) = .at (.done x) → max x.n.toInt 0 ≤ x.elapsed s.data
  awake : s.lock = none → ∀ p x, (s.slots p).status = .sleeping → (s.slots p).chan = some () →
    (s.pcs (.inl p)).waiting? = some (.test x) → x.elapsed s.data < max x.n.toInt 0

/-- The argument is not negative, and the difference of the counters has not wrapped around to less than it; or it is
    negative, and the difference is not less than it as a `uint`. -/
def SleepCall.Timely (x : SleepCall) (e : Int) : Prop :=
  0 ≤ x.n.toInt ∧ (e < 2 ^ 32 ∨ x.n.toInt ≤ e % 2 ^ 32) ∨ x.n.toInt < 0 ∧ x.n.toInt + 2 ^ 32 ≤ e % 2 ^ 32

instance (x : SleepCall) (e : Int) : Decidable (x.Timely e) := inferInstanceAs (Decidable (_ ∨ _))

/-- If the step is a comparison, it comes at a time that is right. -/
def Timely (s : TickState n) (l : Label n) : Prop :=
  ∀ p x, l.1 = .step (.inl p) → s.pcs (.inl p) = .at (.test x) → x.Timely (x.elapsed s.data)

/-! ### The comparison -/

variable {t₀ : UInt32} {b b' : Data n} {x : SleepCall} {a a' : Thread n Unit} {k k' : Point} {p : Fin n} {e : Int}
  {g : SleepCall → Int → Prop}

theorem toInt_eq (m : Int32) : m.toInt = if 2 * m.toUInt32.toNat < 2 ^ 32 then (m.toUInt32.toNat : Int)
    else m.toUInt32.toNat - 2 ^ 32 := BitVec.toInt_eq_toNat_cond m.toBitVec

/-- The code's comparison, of the number of ticks. -/
def SleepCall.Short (x : SleepCall) (e : Int) : Prop := e % 2 ^ 32 < x.n.toUInt32.toNat

/-- The comparison is the right one exactly at a time that is right. -/
theorem timely_iff (he : 0 ≤ e) : (x.Short e ↔ e < max x.n.toInt 0) ↔ x.Timely e := by
  have hn := toInt_eq x.n
  have hlt := x.n.toUInt32.toNat_lt
  unfold SleepCall.Short SleepCall.Timely
  split at hn <;> omega

structure SleepCall.Started (x : SleepCall) (t₀ : UInt32) (b : Data n) : Prop where
  ticks0 : x.ticks0 = t₀ + .ofNat x.start
  le : x.start ≤ b.now

theorem SleepCall.Started.waits_iff (h : x.Started t₀ b) (hticks : b.ticks = t₀ + .ofNat b.now) :
    x.waits b.ticks = true ↔ x.Short (x.elapsed b) := by
  have hle := h.le
  have hdiff : (b.ticks - x.ticks0).toNat = (b.now - x.start) % 2 ^ 32 := by
    rw [hticks, h.ticks0, UInt32.toNat_sub, UInt32.toNat_add, UInt32.toNat_add, UInt32.toNat_ofNat', UInt32.toNat_ofNat']
    omega
  rw [SleepCall.waits, decide_eq_true_iff, UInt32.lt_iff_toNat_lt, hdiff, SleepCall.Short, SleepCall.elapsed]
  omega

/-! ### The annotated code -/

/-- The code, with no way on from a comparison that does not meet `g`. -/
def guarded (n : Nat) (g : SleepCall → Int → Prop) [∀ x e, Decidable (g x e)] :
    Code n Unit Unit (Data n) Point Result Request Empty where
  op a k b :=
    match k with
    | .test x => if g x (x.elapsed b) then op a (.test x) b else .stop
    | k => op a k b
  enter := enter
  env e _ := nomatch e

/-- What a process has found that goes on waiting. -/
def SleepCall.Waits (x : SleepCall) (g : SleepCall → Int → Prop) (e : Int) : Prop := g x e ∧ x.Short e

/-- What holds of a process at each place, with the lock held. -/
def Inside (g : SleepCall → Int → Prop) (t₀ : UInt32) (p : Fin n) (k : Point) (b : Data n) : Prop :=
  match k with
  | .test x => x.Started t₀ b
  | .killed x | .sleep x => x.Started t₀ b ∧ b.tested (.inl p) = b.now ∧ x.Waits g (x.elapsed b)
  | .done x => x.Started t₀ b ∧ g x (x.elapsed b) ∧ ¬x.Short (x.elapsed b)
  | _ => True

/-- What holds of a process that goes on at a place when it has got the lock. -/
def Outside (g : SleepCall → Int → Prop) (t₀ : UInt32) (p : Fin n) (k : Point) (b : Data n) : Prop :=
  match k with
  | .start _ => True
  | .test x => x.Started t₀ b ∧ x.Waits g ((b.tested (.inl p) : Int) - x.start)
  | _ => False

/-- Where the interrupt handler can be. -/
def Ticking (k : Point) : Prop := k = .tick ∨ k = .tickWakeup ∨ k = .tickDone

def notes (n : Nat) (g : SleepCall → Int → Prop) (t₀ : UInt32) : Notes n Unit (Data n) Point where
  always b := b.ticks = t₀ + .ofNat b.now
  rest _ := True
  idle _ _ := True
  inside a k b := match a with | .inl p => Inside g t₀ p k b | .inr _ => Ticking k
  waiting a k b := match a with | .inl p => Outside g t₀ p k b | .inr _ => k = .tick

theorem Outside.inside (h : Outside g t₀ p k b) : Inside g t₀ p k b := by
  cases k <;> first | trivial | exact h.1

/-- What others do leaves a process that waits for the lock what it has found. -/
theorem Outside.congr (h : Outside g t₀ p k b) (hnow : b.now ≤ b'.now) (htested : b'.tested (.inl p) = b.tested (.inl p)) :
    Outside g t₀ p k b' := by
  cases k with
  | start m => trivial
  | test x =>
    obtain ⟨hstarted, hwaits⟩ := h
    refine ⟨⟨hstarted.ticks0, Nat.le_trans hstarted.le hnow⟩, ?_⟩
    rwa [htested]
  | _ => cases h

variable [∀ x e, Decidable (g x e)]

theorem op_test {o : Op Unit (Data n) Point Result} (hop : (guarded n g).op a (.test x) b = o) : o = .stop ∨
    g x (x.elapsed b) ∧ o = .set { b with tested := Function.update b.tested a b.now }
      (if x.waits b.ticks then .killed x else .done x) := by
  dsimp only [guarded] at hop
  split at hop
  · next hg => exact .inr ⟨hg, hop.symm⟩
  · exact .inl hop.symm

theorem tick_ok (h : b.ticks = t₀ + .ofNat b.now) : b.ticks + 1 = t₀ + .ofNat (b.now + 1) := by
  rw [h, UInt32.ofNat_add, UInt32.add_assoc]
  rfl

theorem kept_set (hok : b.ticks = t₀ + .ofNat b.now) (hin : Inside g t₀ p k b)
    (hop : (guarded n g).op (.inl p) k b = .set b' k') :
    b'.ticks = t₀ + .ofNat b'.now ∧ Inside g t₀ p k' b' ∧ b.now ≤ b'.now ∧ ∀ q, q ≠ p → b'.tested (.inl q) = b.tested (.inl q) := by
  cases k with
  | start m =>
    cases hop
    exact ⟨hok, ⟨hok, Nat.le_refl _⟩, Nat.le_refl _, fun _ _ => rfl⟩
  | test x =>
    have hstarted : x.Started t₀ b := hin
    have hwaits := hstarted.waits_iff hok
    obtain heq | ⟨hg, heq⟩ := op_test hop <;> cases heq
    refine ⟨hok, ?_, Nat.le_refl _, fun q hq => Function.update_of_ne (fun heq => hq (Sum.inl.inj heq)) ..⟩
    split
    · next hw => exact ⟨⟨hstarted.ticks0, hstarted.le⟩, Function.update_self .., hg, hwaits.mp hw⟩
    · next hw => exact ⟨⟨hstarted.ticks0, hstarted.le⟩, hg, fun hshort => hw (hwaits.mpr hshort)⟩
  | tick =>
    cases hop
    exact ⟨tick_ok hok, trivial, Nat.le_succ _, fun _ _ => rfl⟩
  | _ => cases hop

theorem outline (n : Nat) (g : SleepCall → Int → Prop) [∀ x e, Decidable (g x e)] (t₀ : UInt32) :
    Outline (guarded n g) (fun _ => True) (notes n g t₀) where
  acquire {a k b} _ _ h :=
    match a with
    | .inl p => Outside.inside h
    | .inr _ => .inl h
  set {a k b b' k'} hok hin hop := by
    obtain p | i := a
    · obtain ⟨hok', hin', hnow, htested⟩ := kept_set hok hin hop
      refine ⟨hok', hin', fun a' hne => ⟨id, fun k h => ?_⟩⟩
      obtain q | i := a'
      · exact Outside.congr h hnow (htested q fun heq => hne (congrArg Sum.inl heq))
      · exact h
    · obtain rfl | rfl | rfl : Ticking k := hin <;> cases hop
      refine ⟨tick_ok hok, .inr (.inl rfl), fun a' _ => ⟨id, fun k h => ?_⟩⟩
      obtain q | i := a'
      · exact Outside.congr h (Nat.le_succ _) rfl
      · exact h
  wakeup {a k b c k'} _ hin hop := by
    obtain p | i := a
    · cases k with
      | tickWakeup =>
        cases hop
        trivial
      | test x => obtain heq | ⟨-, heq⟩ := op_test hop <;> cases heq
      | _ => cases hop
    · obtain rfl | rfl | rfl : Ticking k := hin <;> cases hop
      exact .inr (.inr rfl)
  sleep {a k b c k'} _ hin hop := by
    obtain p | i := a
    · cases k with
      | sleep x =>
        cases hop
        obtain ⟨hstarted, htested, hwaits⟩ := hin
        refine ⟨trivial, hstarted, ?_⟩
        rwa [htested]
      | test x => obtain heq | ⟨-, heq⟩ := op_test hop <;> cases heq
      | _ => cases hop
    · obtain rfl | rfl | rfl : Ticking k := hin <;> cases hop
  killed {a k b yes no} _ hin hop := by
    obtain p | i := a
    · cases k with
      | killed x =>
        cases hop
        exact ⟨trivial, hin⟩
      | test x => obtain heq | ⟨-, heq⟩ := op_test hop <;> cases heq
      | _ => cases hop
    · obtain rfl | rfl | rfl : Ticking k := hin <;> cases hop
  release _ _ _ := ⟨trivial, trivial⟩
  enter {a x b b' o} _ hok _ h := by
    rcases a with p | i <;> cases x <;> cases h
    · exact ⟨hok, id, trivial, fun _ _ => ⟨id, fun _ => id, fun _ => id⟩⟩
    · exact ⟨hok, id, rfl, fun _ _ => ⟨id, fun _ => id, fun _ => id⟩⟩
  env {e} := nomatch e

/-! ### Who is woken -/

/-- A tick has occurred since the process has compared. -/
def Due (p : Fin n) (_ : Unit) (b : Data n) : Prop := b.tested (.inl p) ≠ b.now

def Owes (_ : Thread n Unit) (k : Point) (_ : Unit) : Prop := k = .tickWakeup

theorem signals (n : Nat) (g : SleepCall → Int → Prop) [∀ x e, Decidable (g x e)] (t₀ : UInt32) :
    SignalsFor (guarded n g) (notes n g t₀) Due Owes where
  set {a k b b' k' p c} _ _ hop hdue h := by
    cases k with
    | start m =>
      cases hop
      exact absurd (h hdue) nofun
    | test x =>
      obtain heq | ⟨-, heq⟩ := op_test hop <;> cases heq
      by_cases hself : .inl p = a
      · subst hself
        exact absurd (Function.update_self ..) hdue
      · have htested : Function.update b.tested a b.now (.inl p) = b.tested (.inl p) := Function.update_of_ne hself ..
        exact absurd (h fun heq => hdue (htested.trans heq)) nofun
    | tick =>
      cases hop
      rfl
    | _ => cases hop
  wakeup _ _ _ hne := absurd rfl hne
  sleep {a k b c k'} _ hin hop := by
    cases k with
    | sleep x =>
      cases hop
      refine ⟨fun p hp => ?_, nofun⟩
      subst hp
      exact not_not_intro hin.2.1
    | test x => obtain heq | ⟨-, heq⟩ := op_test hop <;> cases heq
    | _ => cases hop
  killed {a k b yes no p c} _ _ hop _ howes := by
    cases howes
    cases hop
  enter {a x b b' o p c} _ h hdue := by
    rcases a with q | i <;> cases x <;> cases h <;> exact hdue
  env {e} := nomatch e

theorem not_strands (s : TickState n) (l : Label n) : ¬StrandsFor (guarded n g) Due Owes s l := by
  rintro ⟨a, k, result, c, p, -, -, hop, rfl, -⟩
  cases hop

/-! ### Runs -/

section
variable {s t u : TickState n} {ls : List (Label n)} {l : Label n}

theorem guarded_true : guarded n (fun _ _ => True) = code n := by
  rw [guarded, code]
  congr 1
  funext a k b
  cases k <;> rfl

/-- A comparison at a time that is right is a step of the guarded code. -/
theorem step_guarded (htimely : Timely u l) (ho : Outlined (notes n (fun _ _ => True) t₀) u) (h : Step (code n) u l t) :
    Step (guarded n SleepCall.Timely) u l t := by
  have hsame : step (guarded n SleepCall.Timely) u l.1 = step (code n) u l.1 := by
    refine step_congr (fun a k hl hpc => ?_) rfl rfl
    cases k with
    | test x =>
      obtain p | i := a
      · exact if_pos (htimely p x hl hpc)
      · have hin : Ticking (.test x) := ho.inside (a := .inr i) (k := Point.test x) (by rw [hpc]; rfl)
        obtain heq | heq | heq := hin <;> cases heq
    | _ => rfl
  exact hsame.trans h

omit [∀ x e, Decidable (g x e)] in
theorem outlined_boot (hboot : Boot s) (hnow : s.data.now = 0) : Outlined (notes n g s.data.ticks) s := by
  refine .boot hboot ?_ trivial fun _ => trivial
  show s.data.ticks = s.data.ticks + .ofNat s.data.now
  rw [hnow]
  exact (UInt32.add_zero _).symm

theorem elapsed_nonneg (h : x.Started t₀ b) : 0 ≤ x.elapsed b := Int.sub_nonneg_of_le (Int.ofNat_le.mpr h.le)

theorem onTime_of_signalled (hl : Locked s) (ho : Outlined (notes n SleepCall.Timely t₀) s)
    (h : SignalledFor Due Owes s) : OnTime s where
  waits p x hpc := by
    obtain ⟨hstarted, -, htimely, hshort⟩ : Inside SleepCall.Timely t₀ p (.killed x) s.data :=
      ho.inside (a := .inl p) (k := Point.killed x) (by rw [hpc]; rfl)
    exact ((timely_iff (elapsed_nonneg hstarted)).mpr htimely).mp hshort
  returns p x hpc := by
    obtain ⟨hstarted, htimely, hshort⟩ : Inside SleepCall.Timely t₀ p (.done x) s.data :=
      ho.inside (a := .inl p) (k := Point.done x) (by rw [hpc]; rfl)
    exact Int.not_lt.mp fun hlt => hshort (((timely_iff (elapsed_nonneg hstarted)).mpr htimely).mpr hlt)
  awake hfree p x hsleep hchan hwaiting := by
    obtain ⟨hstarted, htimely, hshort⟩ : Outside SleepCall.Timely t₀ p (.test x) s.data := ho.waiting (a := .inl p) hwaiting
    have hsame : s.data.tested (.inl p) = s.data.now := not_not.mp (h.not_due hl hfree hsleep hchan)
    rw [hsame] at htimely hshort
    exact ((timely_iff (elapsed_nonneg hstarted)).mpr htimely).mp hshort

/-- A comparison after which all is right comes at a time that is right. -/
theorem timely_of_onTime (ho : Outlined (notes n (fun _ _ => True) t₀) u) (h : OnTime t) (hstep : Step (code n) u l t) :
    Timely u l := by
  intro p x hl hpc
  have hstarted : x.Started t₀ u.data := ho.inside (a := .inl p) (k := Point.test x) (by rw [hpc]; rfl)
  have hwaits := hstarted.waits_iff ho.data
  obtain ⟨action, event⟩ := l
  obtain rfl : action = .step (.inl p) := hl
  have heq : threadStep (code n) u (.inl p) = some (event, t) := hstep
  rw [threadStep, hpc] at heq
  cases heq
  refine (timely_iff (elapsed_nonneg hstarted)).mp ⟨fun hshort => ?_, fun hlt => ?_⟩
  · refine h.waits p x ?_
    rw [State.setPc_pcs, Function.update_self, if_pos (hwaits.mpr hshort)]
  · by_contra hshort
    have hle := h.returns p x (by rw [State.setPc_pcs, Function.update_self, if_neg fun hw => hshort (hwaits.mp hw)])
    exact absurd hlt (Int.not_lt.mpr hle)

/-- Along every run, all is right if and only if all comparisons come at times that are right. -/
theorem onTime_iff (hboot : Boot s) (hnow : s.data.now = 0) (hrun : Run (Step (code n)) s ls t) :
    AllStates (Step (code n)) s ls OnTime ↔ AllSteps (Step (code n)) s ls Timely := by
  have hok : ∀ ms : List (Label n), ∀ l ∈ ms, CallOk (fun _ => True) l := fun _ l _ => callOk_true l
  have houtline : AllStates (Step (code n)) s ls fun u => Locked u ∧ Outlined (notes n (fun _ _ => True) s.data.ticks) u := by
    have h := (outline n (fun _ _ => True) s.data.ticks).allStates hboot (outlined_boot hboot hnow) (hok ls)
    rwa [guarded_true] at h
  constructor
  · intro hall
    refine (houtline.and hall).allSteps (fun _ _ _ _ => ofStep_det) (fun u l v hu hv hstep => ?_) hrun
    exact timely_of_onTime hu.1.2 hv.2 hstep
  · intro hall ms u hms hrun
    have hguarded : Run (Step (guarded n SleepCall.Timely)) s ms u := by
      have houtlined : AllSteps (Step (code n)) s ms fun v _ => Outlined (notes n (fun _ _ => True) s.data.ticks) v :=
        fun ns l v hns hv => (houtline ns v ((List.prefix_append ns [l]).trans (hns.trans hms)) hv).2
      exact (((hall.of_prefix hms).and houtlined).restrict hrun).mono fun v l w h => step_guarded h.2.1 h.2.2 h.1
    obtain ⟨hl, ho⟩ := (outline n SleepCall.Timely s.data.ticks).run hboot (outlined_boot hboot hnow) (hok ms) hguarded
    exact onTime_of_signalled hl ho ((signals n SleepCall.Timely s.data.ticks).run (outline n _ _) hboot
      (outlined_boot hboot hnow) (hok ms) (fun _ l v _ _ => not_strands v l) hguarded)

end

/-- Before the first tick, with a counter that is about to wrap around. -/
def fresh (n : Nat) : Data n := ⟨0xffffffff, 0, fun _ => 0⟩

attribute [local instance] Transition.neZero_one

/-- A process sleeps for `m` ticks, and compares once before and once after a tick. -/
def oneTick (m : Int32) : List (Action 1 Unit Request Empty) :=
  [.call (.inl 0) (.sleep m)] ++ List.replicate 9 (.step (.inl 0)) ++ [.call (.inr ()) .clockintr] ++
    List.replicate 6 (.step (.inr ())) ++ List.replicate 4 (.step (.inl 0))

theorem oneTick_runs : (exec (step (code 1)) (boot 1 Unit Unit (fresh 1)) (oneTick 1)).isSome := by decide

theorem onTime_iff_oneTick : AllStates (Step (code 1)) (boot 1 Unit Unit (fresh 1))
    ((exec (step (code 1)) (boot 1 Unit Unit (fresh 1)) (oneTick 1)).get oneTick_runs).1 OnTime := by
  have htimely : ∀ y ∈ steps (step (code 1)) (boot 1 Unit Unit (fresh 1)) (oneTick 1), ∀ p : Fin 1,
      (match y.1.pcs (.inl p) with | .at (.test x) => decide (x.Timely (x.elapsed y.1.data)) | _ => true) = true := by decide
  refine (onTime_iff (boot_boot _) rfl (run_exec oneTick_runs)).mpr (allSteps_exec oneTick_runs fun y hy p x _ hpc => ?_)
  have hp := htimely y hy p
  rw [hpc] at hp
  exact of_decide_eq_true hp

/-- `sleep(-1)`, as far as the comparison. -/
def minusOne : List (Action 1 Unit Request Empty) := [.call (.inl 0) (.sleep (-1))] ++ List.replicate 3 (.step (.inl 0))

theorem minusOne_runs : (exec (step (code 1)) (boot 1 Unit Unit (fresh 1)) minusOne).isSome := by decide

/-- It goes on waiting. -/
theorem not_onTime : ¬∀ (s t : TickState 1) (ls : List (Label 1)), Boot s → s.data.now = 0 → Run (Step (code 1)) s ls t →
    AllStates (Step (code 1)) s ls OnTime := by
  intro h
  have hlast := h _ _ _ (boot_boot (fresh 1)) rfl (run_exec minusOne_runs) _ _ (List.prefix_refl _) (run_exec minusOne_runs)
  exact absurd (hlast.waits 0 ⟨-1, 0xffffffff, 0⟩ (by decide)) (by decide)

end LabSO.Ticks

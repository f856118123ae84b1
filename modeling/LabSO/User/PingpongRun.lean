import LabSO.User.Pingpong
import Mathlib.Data.List.Nodup

/-! One run of `pingpong` whose two semaphores no other run touches: where its processes stand, what its
    semaphores hold and what it has printed. -/

namespace LabSO.User
open Kernel

variable {amount i k a b : Nat} {sems sems' : Nat → Semaphore} {role : Role} {p c pc pc' : Pc} {d : Down}
  {place : Down → Place} {next : Place} {e : Event} {out : List String}

/-! ### `sem_down` -/

/-- A semaphore of bound 1 with its unit, and without. -/
def withUnit : Semaphore := ⟨1, 1⟩
def noUnit : Semaphore := ⟨0, 1⟩

theorem downStep_takes (hd : d ≠ .asleep) (h : sems i = withUnit) :
    downStep sems i d place next = some (.down i noUnit, next) := by
  rw [downStep, if_neg hd, h]
  cases d <;> rfl

theorem downStep_sleeps (hd : d ≠ .asleep) (h : sems i = noUnit) :
    downStep sems i d place next = some (.down i noUnit, place .asleep) := by
  rw [downStep, if_neg hd, h]
  cases d <;> rfl

theorem downStep_passes (place : Down → Place) (next : Place) (hd : d ≠ .asleep) (h : (sems i).count ≠ 0) :
    ∃ sem, downStep sems i d place next = some (.down i sem, next) := by
  have hloop : (sems i).downLoop = some { sems i with count := wrap32 ((sems i).count - 1) } := if_neg h
  cases d with
  | asleep => exact absurd rfl hd
  | woken =>
    have htest : semDown (sems i) .woken = (sems i).downLoop := rfl
    exact ⟨_, by rw [downStep, if_neg hd, htest, hloop]⟩
  | call =>
    by_cases hclosed : (sems i).count = -1
    · exact ⟨sems i, by rw [downStep, if_neg hd, semDown, if_pos hclosed]⟩
    · exact ⟨_, by rw [downStep, if_neg hd, semDown, if_neg hclosed, hloop]⟩

theorem downStep_inv {place' : Place} (h : downStep sems i d place next = some (e, place')) :
    (∃ sem, e = .down i sem) ∧ d ≠ .asleep ∧
      (place' = next ∨ place' = place .asleep ∧ (d = .woken → (sems i).count = 0)) := by
  unfold downStep at h
  split at h
  · cases h
  · next hd =>
    split at h
    · cases h
      exact ⟨⟨_, rfl⟩, hd, Or.inl rfl⟩
    · next hsleep =>
      cases h
      refine ⟨⟨_, rfl⟩, hd, Or.inr ⟨rfl, fun hwoken => ?_⟩⟩
      by_contra hcount
      have hloop : (sems i).downLoop = none := by rwa [hwoken] at hsleep
      rw [Semaphore.downLoop, if_neg hcount] at hloop
      cases hloop

/-! ### The cases of a step -/

/-- The cases of a step of a process: where it stood, what the step did and where it stands then. -/
inductive PcCase (amount : Nat) (sems : Nat → Semaphore) (role : Role) : Pc → Event → Pc → Prop
  | opened {index : Nat} {opened : List Nat} (few : opened.length ≠ 2) (more : index < 256) :
    PcCase amount sems role (.scan index opened) (.opened index withUnit) (.scan (index + 1) (opened ++ [index]))
  | openFails {index : Nat} {opened : List Nat} (few : opened.length ≠ 2) (more : index < 256)
    (isOpen : (sems index).count ≠ -1) :
    PcCase amount sems role (.scan index opened) .silent (.scan (index + 1) opened)
  | found {index a b : Nat} : PcCase amount sems role (.scan index [a, b]) .silent (.body a b (.downFirst .call))
  | notFound {index : Nat} {opened : List Nat} (few : opened.length ≠ 2) (all : ¬index < 256) :
    PcCase amount sems role (.scan index opened) (.print openErrorText) .failed
  | failed : PcCase amount sems role .failed .silent .exited
  | downFirst {a b : Nat} {d : Down} {sem : Semaphore} :
    PcCase amount sems role (.body a b (.downFirst d)) (.down b sem) (.body a b .fork)
  | downFirstSleeps {a b : Nat} {d : Down} {sem : Semaphore} (awake : d ≠ .asleep)
    (zero : d = .woken → (sems b).count = 0) :
    PcCase amount sems role (.body a b (.downFirst d)) (.down b sem) (.body a b (.downFirst .asleep))
  | fork {a b : Nat} : PcCase amount sems role (.body a b .fork) (.fork (.body a b (whileLoop amount 0)))
    (.body a b (whileLoop amount 0))
  | forkFails {a b : Nat} : PcCase amount sems role (.body a b .fork) .silent (.body a b .forkFailed)
  | forkFailed {a b : Nat} : PcCase amount sems role (.body a b .forkFailed) (.print forkErrorText)
    (.body a b (whileLoop amount 0))
  | down {a b k : Nat} {d : Down} {sem : Semaphore} : PcCase amount sems role (.body a b (.down k d))
    (.down (downIndex role a b) sem) (.body a b (.print k))
  | downSleeps {a b k : Nat} {d : Down} {sem : Semaphore} (awake : d ≠ .asleep)
    (zero : d = .woken → (sems (downIndex role a b)).count = 0) : PcCase amount sems role (.body a b (.down k d))
    (.down (downIndex role a b) sem) (.body a b (.down k .asleep))
  | print {a b k : Nat} : PcCase amount sems role (.body a b (.print k)) (.print (roundText role)) (.body a b (.up k))
  | up {a b k : Nat} {sem : Semaphore} {wakes : Bool} : PcCase amount sems role (.body a b (.up k))
    (.up (upIndex role a b) sem wakes) (.body a b (whileLoop amount (k + 1)))
  | wait {a b : Nat} : PcCase amount sems role (.body a b .wait) .silent (.body a b .close1)
  | close1 {a b : Nat} {sem : Semaphore} :
    PcCase amount sems role (.body a b .close1) (.close a sem) (.body a b .close2)
  | close2 {a b : Nat} {sem : Semaphore} :
    PcCase amount sems role (.body a b .close2) (.close b sem) (.body a b .exit)
  | exit {a b : Nat} : PcCase amount sems role (.body a b .exit) .silent .exited

theorem openBody_inv (sem : Semaphore) :
    (sem.openBody 1 = (0, sem) ∧ sem.count ≠ -1) ∨ sem.openBody 1 = (1, withUnit) := by
  by_cases hclosed : sem.count ≠ -1
  · exact Or.inl ⟨if_pos hclosed, hclosed⟩
  · exact Or.inr (if_neg hclosed)

theorem pcStep_cases {forkFails : Bool} (hstep : pcStep amount forkFails sems c role pc = some (e, pc')) :
    PcCase amount sems role pc e pc' := by
  cases pc with
  | unborn => cases hstep
  | exited => cases hstep
  | failed =>
    cases hstep
    exact .failed
  | scan index opened =>
    unfold pcStep at hstep
    dsimp only at hstep
    split at hstep
    · next hmore =>
      rcases openBody_inv (sems index) with ⟨hopen, hcount⟩ | hopen
      · rw [hopen] at hstep
        cases hstep
        exact .openFails hmore.1 hmore.2 hcount
      · rw [hopen] at hstep
        cases hstep
        exact .opened hmore.1 hmore.2
    · next hend =>
      by_cases hlen : opened.length = 2
      · obtain ⟨a, b, rfl⟩ := List.length_eq_two.mp hlen
        cases hstep
        exact .found
      · split at hstep
        · exact absurd rfl hlen
        · cases hstep
          exact .notFound hlen fun hindex => hend ⟨hlen, hindex⟩
  | body a b place =>
    cases place with
    | downFirst d =>
      obtain ⟨⟨e, place⟩, hdown, heq⟩ := Option.map_eq_some_iff.mp hstep
      cases heq
      obtain ⟨⟨sem, rfl⟩, hd, rfl | ⟨rfl, hzero⟩⟩ := downStep_inv hdown
      · exact .downFirst
      · exact .downFirstSleeps hd hzero
    | down k d =>
      obtain ⟨⟨e, place⟩, hdown, heq⟩ := Option.map_eq_some_iff.mp hstep
      cases heq
      obtain ⟨⟨sem, rfl⟩, hd, rfl | ⟨rfl, hzero⟩⟩ := downStep_inv hdown
      · exact .down
      · exact .downSleeps hd hzero
    | fork =>
      simp only [pcStep, bodyStep] at hstep
      split at hstep
      · cases hstep
        exact .forkFails
      · cases hstep
        exact .fork
    | wait =>
      simp only [pcStep, bodyStep] at hstep
      split at hstep
      · cases hstep
      · cases hstep
        exact .wait
    | forkFailed | print k | up k | close1 | close2 | exit =>
      cases hstep
      constructor

/-! ### Sleeping and waking -/

def Down.wake : Down → Down
  | .asleep => .woken
  | d => d

theorem Down.wake_ne_asleep (d : Down) : d.wake ≠ .asleep := by cases d <;> decide

theorem wakeOn_down : Pc.wakeOn (downIndex role a b) role (.body a b (.down k d)) = .body a b (.down k d.wake) := by
  unfold Pc.wakeOn
  cases d with
  | asleep => exact if_pos rfl
  | _ => exact ite_self _

theorem wakeOn_whileLoop : Pc.wakeOn i role (.body a b (whileLoop amount k)) = .body a b (whileLoop amount k) := by
  unfold Pc.wakeOn whileLoop
  split <;> split <;> rfl

/-- What a step makes of the process `role` of its own run. -/
def Event.afterPc (role : Role) (pc : Pc) : Event → Pc
  | up i _ true => pc.wakeOn i role
  | fork child => if role = .child then child else pc
  | _ => pc

theorem afterPc_up (sem : Semaphore) (wakes : Bool) :
    Event.afterPc role pc (.up i sem wakes) = if wakes then pc.wakeOn i role else pc := by
  cases wakes <;> rfl

def Event.afterOutput (out : List String) : Event → List String
  | print text => out ++ [text]
  | _ => out

/-! ### The states of a run -/

/-- What `k` rounds print. -/
def rounds : Nat → List String
  | 0 => []
  | k + 1 => rounds k ++ [pingText, pongText]

theorem rounds_succ : rounds k ++ [pingText] ++ [pongText] = rounds (k + 1) := List.append_assoc ..

/-- A child that is past its rounds. -/
inductive Ending (a b : Nat) : Pc → Prop
  | wait : Ending a b (.body a b .wait)
  | close1 : Ending a b (.body a b .close1)
  | close2 : Ending a b (.body a b .close2)
  | exit : Ending a b (.body a b .exit)
  | exited : Ending a b .exited

theorem Ending.wakeOn (h : Ending a b c) : c.wakeOn i .child = c := by cases h <;> exact ite_self _

/-- The parent stands at the first place, the child at the second; the run has printed the last. In a round the unit
    is with the semaphore or the process that the name of the case says. Once the child is past its rounds it
    closes the semaphores whatever the parent does. -/
inductive RunOk (amount : Nat) (sems : Nat → Semaphore) : Pc → Pc → List String → Prop
  | scan {index : Nat} {opened : List Nat} (few : opened.length ≤ 2) (nodup : opened.Nodup)
    (below : ∀ i ∈ opened, i < index) (units : ∀ i ∈ opened, sems i = withUnit) :
    RunOk amount sems (.scan index opened) .unborn []
  | ready {a b : Nat} (ne : a ≠ b) (sem1 : sems a = withUnit) (sem2 : sems b = withUnit) :
    RunOk amount sems (.body a b (.downFirst .call)) .unborn []
  | forking {a b : Nat} (ne : a ≠ b) (sem1 : sems a = withUnit) (sem2 : sems b = noUnit) :
    RunOk amount sems (.body a b .fork) .unborn []
  | childTurn {a b k : Nat} {d d' : Down} (ne : a ≠ b) (more : k < amount) (parent : d ≠ .woken) (child : d' ≠ .asleep)
    (sem1 : sems a = withUnit) (sem2 : sems b = noUnit) :
    RunOk amount sems (.body a b (.down k d)) (.body a b (.down k d')) (rounds k)
  | childPrint {a b k : Nat} {d : Down} (ne : a ≠ b) (more : k < amount) (parent : d ≠ .woken)
    (sem1 : sems a = noUnit) (sem2 : sems b = noUnit) :
    RunOk amount sems (.body a b (.down k d)) (.body a b (.print k)) (rounds k)
  | childUp {a b k : Nat} {d : Down} (ne : a ≠ b) (more : k < amount) (parent : d ≠ .woken)
    (sem1 : sems a = noUnit) (sem2 : sems b = noUnit) :
    RunOk amount sems (.body a b (.down k d)) (.body a b (.up k)) (rounds k ++ [pingText])
  | parentTurn {a b k : Nat} {d d' : Down} (ne : a ≠ b) (more : k + 1 < amount) (parent : d ≠ .asleep)
    (child : d' ≠ .woken) (sem1 : sems a = noUnit) (sem2 : sems b = withUnit) :
    RunOk amount sems (.body a b (.down k d)) (.body a b (.down (k + 1) d')) (rounds k ++ [pingText])
  | parentPrint {a b k : Nat} {d' : Down} (ne : a ≠ b) (more : k + 1 < amount) (child : d' ≠ .woken)
    (sem1 : sems a = noUnit) (sem2 : sems b = noUnit) :
    RunOk amount sems (.body a b (.print k)) (.body a b (.down (k + 1) d')) (rounds k ++ [pingText])
  | parentUp {a b k : Nat} {d' : Down} (ne : a ≠ b) (more : k + 1 < amount) (child : d' ≠ .woken)
    (sem1 : sems a = noUnit) (sem2 : sems b = noUnit) :
    RunOk amount sems (.body a b (.up k)) (.body a b (.down (k + 1) d')) (rounds (k + 1))
  | lastTurn {a b k : Nat} {d : Down} {c : Pc} (last : k + 1 = amount) (parent : d ≠ .asleep) (child : Ending a b c)
    (sem2 : (sems b).count ≠ 0) : RunOk amount sems (.body a b (.down k d)) c (rounds k ++ [pingText])
  | lastPrint {a b k : Nat} {c : Pc} (last : k + 1 = amount) (child : Ending a b c) :
    RunOk amount sems (.body a b (.print k)) c (rounds k ++ [pingText])
  | lastUp {a b k : Nat} {c : Pc} (last : k + 1 = amount) (child : Ending a b c) :
    RunOk amount sems (.body a b (.up k)) c (rounds (k + 1))
  | waiting {a b : Nat} {c : Pc} (child : Ending a b c) : RunOk amount sems (.body a b .wait) c (rounds amount)
  | closing {a b : Nat} {place : Place} (at_end : place = .close1 ∨ place = .close2 ∨ place = .exit) :
    RunOk amount sems (.body a b place) .exited (rounds amount)
  | finished : RunOk amount sems .exited .exited (rounds amount)

/-! ### The steps of a run -/

theorem RunOk.start_rounds (ne : a ≠ b) (sem1 : sems a = withUnit) (sem2 : sems b = noUnit) :
    RunOk amount sems (.body a b (whileLoop amount 0)) (.body a b (whileLoop amount 0)) [] := by
  unfold whileLoop
  split
  · next more => exact .childTurn ne more (by decide) (by decide) sem1 sem2
  · next none =>
    obtain rfl : amount = 0 := by omega
    exact .waiting .wait

theorem closeBody_count_ne (i : Nat) (h : (sems b).count ≠ 0) :
    (Function.update sems i (sems i).closeBody.2 b).count ≠ 0 := by
  by_cases hb : b = i
  · subst hb
    rw [Function.update_self, Semaphore.closeBody]
    split
    · exact h
    · show (-1 : Int) ≠ 0
      decide
  · rwa [Function.update_of_ne hb]

theorem upBody_noUnit : noUnit.upBody = (1, withUnit) := rfl

/-- A round that finds the unit. -/
theorem down_takes (hd : d ≠ .asleep) (h : sems (downIndex role a b) = withUnit)
    (hstep : pcStep amount false sems c role (.body a b (.down k d)) = some (e, pc')) :
    e = .down (downIndex role a b) noUnit ∧ pc' = .body a b (.print k) := by
  rw [pcStep, bodyStep, downStep_takes hd h] at hstep
  cases hstep
  exact ⟨rfl, rfl⟩

/-- A round that does not find the unit. -/
theorem down_sleeps {forkFails : Bool} (h : sems (downIndex role a b) = noUnit)
    (hstep : pcStep amount forkFails sems c role (.body a b (.down k d)) = some (e, pc')) :
    e = .down (downIndex role a b) noUnit ∧ pc' = .body a b (.down k .asleep) ∧ e.sems sems = sems := by
  by_cases hd : d = .asleep
  · rw [hd] at hstep
    cases hstep
  · rw [pcStep, bodyStep, downStep_sleeps hd h] at hstep
    cases hstep
    refine ⟨rfl, rfl, ?_⟩
    rw [Event.sems, ← h, Function.update_eq_self]

/-- The child of a run takes a step. -/
theorem RunOk.child_step (h : RunOk amount sems p c out) (hstep : pcStep amount false sems c .child c = some (e, pc')) :
    RunOk amount (e.sems sems) (e.afterPc .parent p) (e.afterPc .child pc') (e.afterOutput out) := by
  -- A child past its rounds closes the semaphores and exits.
  have hending : ∀ {a b : Nat}, Ending a b c → Ending a b pc' ∧
      (e = .silent ∨ ∃ i, e = .close i (sems i).closeBody.2) := by
    intro a b hchild
    cases hchild with
    | wait =>
      cases hstep
      exact ⟨.close1, Or.inl rfl⟩
    | close1 =>
      cases hstep
      exact ⟨.close2, Or.inr ⟨_, rfl⟩⟩
    | close2 =>
      cases hstep
      exact ⟨.exit, Or.inr ⟨_, rfl⟩⟩
    | exit =>
      cases hstep
      exact ⟨.exited, Or.inl rfl⟩
    | exited => cases hstep
  cases h with
  | scan => cases hstep
  | ready => cases hstep
  | forking => cases hstep
  | childTurn ne more parent child sem1 sem2 =>
    obtain ⟨rfl, rfl⟩ := down_takes child sem1 hstep
    exact .childPrint ne more parent (Function.update_self ..) ((Function.update_of_ne ne.symm _ _).trans sem2)
  | childPrint ne more parent sem1 sem2 =>
    cases hstep
    exact .childUp ne more parent sem1 sem2
  | @childUp a b k d ne more parent sem1 sem2 =>
    rw [pcStep, bodyStep, upIndex, sem2, upBody_noUnit] at hstep
    cases hstep
    show RunOk amount (Function.update sems b withUnit) (Pc.wakeOn (downIndex .parent a b) .parent _)
      (Pc.wakeOn b .child _) _
    rw [wakeOn_down, wakeOn_whileLoop]
    have hsem2 : Function.update sems b withUnit b = withUnit := Function.update_self ..
    by_cases hlast : k + 1 < amount
    · rw [whileLoop, if_pos hlast]
      exact .parentTurn ne hlast d.wake_ne_asleep (by decide) (by rwa [Function.update_of_ne ne]) hsem2
    · rw [whileLoop, if_neg hlast]
      exact .lastTurn (by omega) d.wake_ne_asleep .wait (by rw [hsem2]; decide)
  | parentTurn ne more parent child sem1 sem2 =>
    obtain ⟨rfl, rfl, hsame⟩ := down_sleeps sem1 hstep
    rw [hsame]
    exact .parentTurn ne more parent (by decide) sem1 sem2
  | parentPrint ne more child sem1 sem2 =>
    obtain ⟨rfl, rfl, hsame⟩ := down_sleeps sem1 hstep
    rw [hsame]
    exact .parentPrint ne more (by decide) sem1 sem2
  | parentUp ne more child sem1 sem2 =>
    obtain ⟨rfl, rfl, hsame⟩ := down_sleeps sem1 hstep
    rw [hsame]
    exact .parentUp ne more (by decide) sem1 sem2
  | lastTurn last parent child sem2 =>
    obtain ⟨hchild, rfl | ⟨i, rfl⟩⟩ := hending child
    · exact .lastTurn last parent hchild sem2
    · exact .lastTurn last parent hchild (closeBody_count_ne i sem2)
  | lastPrint last child =>
    obtain ⟨hchild, rfl | ⟨i, rfl⟩⟩ := hending child <;> exact .lastPrint last hchild
  | lastUp last child =>
    obtain ⟨hchild, rfl | ⟨i, rfl⟩⟩ := hending child <;> exact .lastUp last hchild
  | waiting child =>
    obtain ⟨hchild, rfl | ⟨i, rfl⟩⟩ := hending child <;> exact .waiting hchild
  | closing => cases hstep
  | finished => cases hstep

/-- The search for semaphores goes on. -/
theorem scan_step {index : Nat} {opened : List Nat} (few : opened.length ≤ 2) (nodup : opened.Nodup)
    (below : ∀ i ∈ opened, i < index) (units : ∀ i ∈ opened, sems i = withUnit)
    (hstep : pcStep amount false sems .unborn .parent (.scan index opened) = some (e, pc'))
    (hfound : e ≠ .print openErrorText) :
    RunOk amount (e.sems sems) (e.afterPc .parent pc') (e.afterPc .child .unborn) (e.afterOutput []) := by
  cases pcStep_cases hstep with
  | openFails more => exact .scan few nodup (fun i hi => Nat.lt_succ_of_lt (below i hi)) units
  | opened more =>
    have hfresh : index ∉ opened := fun hmem => Nat.lt_irrefl _ (below index hmem)
    refine .scan ?_ (List.nodup_append.mpr ⟨nodup, List.nodup_singleton _, ?_⟩) ?_ ?_
    · rw [List.length_append, List.length_singleton]
      omega
    · intro i hi j hj heq
      rw [heq, List.mem_singleton.mp hj] at hi
      exact hfresh hi
    · intro i hi
      rcases List.mem_append.mp hi with hi | hi
      · exact Nat.lt_succ_of_lt (below i hi)
      · rw [List.mem_singleton.mp hi]
        exact Nat.lt_succ_self _
    · intro i hi
      rcases List.mem_append.mp hi with hi | hi
      · have hne : i ≠ index := fun heq => hfresh (heq ▸ hi)
        rw [Event.sems, Function.update_of_ne hne]
        exact units i hi
      · rw [List.mem_singleton.mp hi]
        exact Function.update_self ..
  | found => exact .ready (by simpa using nodup) (units _ (by simp)) (units _ (by simp))
  | notFound => exact absurd rfl hfound

/-- The parent of a run takes a step. -/
theorem RunOk.parent_step (h : RunOk amount sems p c out) (hstep : pcStep amount false sems c .parent p = some (e, pc'))
    (hfound : e ≠ .print openErrorText) :
    RunOk amount (e.sems sems) (e.afterPc .parent pc') (e.afterPc .child c) (e.afterOutput out) := by
  cases h with
  | scan few nodup below units =>
    exact scan_step few nodup below units hstep hfound
  | @ready a b ne sem1 sem2 =>
    rw [pcStep, bodyStep, downStep_takes (by decide) sem2] at hstep
    cases hstep
    refine .forking ne ?_ (Function.update_self ..)
    rwa [Event.sems, Function.update_of_ne ne]
  | forking ne sem1 sem2 =>
    cases hstep
    exact .start_rounds ne sem1 sem2
  | childTurn ne more parent child sem1 sem2 =>
    obtain ⟨rfl, rfl, hsame⟩ := down_sleeps sem2 hstep
    rw [hsame]
    exact .childTurn ne more (by decide) child sem1 sem2
  | childPrint ne more parent sem1 sem2 =>
    obtain ⟨rfl, rfl, hsame⟩ := down_sleeps sem2 hstep
    rw [hsame]
    exact .childPrint ne more (by decide) sem1 sem2
  | childUp ne more parent sem1 sem2 =>
    obtain ⟨rfl, rfl, hsame⟩ := down_sleeps sem2 hstep
    rw [hsame]
    exact .childUp ne more (by decide) sem1 sem2
  | parentTurn ne more parent child sem1 sem2 =>
    obtain ⟨rfl, rfl⟩ := down_takes parent sem2 hstep
    exact .parentPrint ne more child ((Function.update_of_ne ne _ _).trans sem1) (Function.update_self ..)
  | parentPrint ne more child sem1 sem2 =>
    cases hstep
    show RunOk amount sems _ _ (rounds _ ++ [pingText] ++ [pongText])
    rw [rounds_succ]
    exact .parentUp ne more child sem1 sem2
  | @parentUp a b k d' ne more child sem1 sem2 =>
    rw [pcStep, bodyStep, upIndex, sem1, upBody_noUnit] at hstep
    cases hstep
    show RunOk amount (Function.update sems a withUnit) (Pc.wakeOn a .parent _)
      (Pc.wakeOn (downIndex .child a b) .child _) _
    rw [wakeOn_down, wakeOn_whileLoop, whileLoop, if_pos more]
    refine .childTurn ne more (by decide) d'.wake_ne_asleep (Function.update_self ..) ?_
    rwa [Function.update_of_ne ne.symm]
  | @lastTurn a b k d c last parent child sem2 =>
    obtain ⟨sem, hdown⟩ := downStep_passes (.down k) (.print k) parent sem2
    rw [pcStep, bodyStep, downIndex, hdown] at hstep
    cases hstep
    exact .lastPrint last child
  | lastPrint last child =>
    cases hstep
    show RunOk amount sems _ _ (rounds _ ++ [pingText] ++ [pongText])
    rw [rounds_succ]
    exact .lastUp last child
  | @lastUp a b k c last child =>
    cases hstep
    have hdone : whileLoop amount (k + 1) = .wait := if_neg (by omega)
    rw [afterPc_up, afterPc_up, child.wakeOn, wakeOn_whileLoop, hdone, last]
    simp only [ite_self]
    exact .waiting child
  | waiting child =>
    cases child with
    | exited =>
      cases hstep
      exact .closing (Or.inl rfl)
    | _ => cases hstep
  | closing at_end =>
    rcases at_end with rfl | rfl | rfl <;> cases hstep
    · exact .closing (Or.inr (Or.inl rfl))
    · exact .closing (Or.inr (Or.inr rfl))
    · exact .finished
  | finished => cases hstep

theorem scan_isSome {forkFails : Bool} {index : Nat} {opened : List Nat} :
    (pcStep amount forkFails sems c role (.scan index opened)).isSome := by
  unfold pcStep
  dsimp only
  split <;> split <;> rfl

/-- Unless both have exited, the parent or the child can take a step. -/
theorem RunOk.progress (h : RunOk amount sems p c out) : (p = .exited ∧ c = .exited) ∨
    (pcStep amount false sems c .parent p).isSome ∨ (pcStep amount false sems c .child c).isSome := by
  cases h with
  | scan => exact Or.inr (Or.inl scan_isSome)
  | @ready a b ne sem1 sem2 =>
    refine Or.inr (Or.inl ?_)
    rw [pcStep, bodyStep, downStep_takes (by decide) sem2]
    rfl
  | @childTurn a b k d d' ne more parent child sem1 sem2 =>
    refine Or.inr (Or.inr ?_)
    rw [pcStep, bodyStep, downIndex, downStep_takes child sem1]
    rfl
  | @parentTurn a b k d d' ne more parent child sem1 sem2 =>
    refine Or.inr (Or.inl ?_)
    rw [pcStep, bodyStep, downIndex, downStep_takes parent sem2]
    rfl
  | @lastTurn a b k d c last parent child sem2 =>
    refine Or.inr (Or.inl ?_)
    obtain ⟨sem, hdown⟩ := downStep_passes (.down k) (.print k) parent sem2
    rw [pcStep, bodyStep, downIndex, hdown]
    rfl
  | forking | parentPrint | parentUp | lastPrint | lastUp => exact Or.inr (Or.inl rfl)
  | childPrint | childUp => exact Or.inr (Or.inr rfl)
  | waiting child =>
    cases child with
    | exited => exact Or.inr (Or.inl rfl)
    | _ => exact Or.inr (Or.inr rfl)
  | closing at_end => rcases at_end with rfl | rfl | rfl <;> exact Or.inr (Or.inl rfl)
  | finished => exact Or.inl ⟨rfl, rfl⟩

theorem RunOk.output_of_exited (h : RunOk amount sems .exited c out) : c = .exited ∧ out = rounds amount := by
  generalize hp : Pc.exited = p at h
  cases h with
  | finished => exact ⟨rfl, rfl⟩
  | _ => cases hp

theorem rounds_mono {n : Nat} (h : k ≤ n) : rounds k <+: rounds n := by
  induction h with
  | refl => exact List.prefix_refl _
  | step _ ih => exact ih.trans (List.prefix_append _ _)

/-- What a run has printed is the beginning of its rounds. -/
theorem RunOk.output_begins (h : RunOk amount sems p c out) : out <+: rounds amount := by
  have hping : ∀ {k : Nat}, k < amount → rounds k ++ [pingText] <+: rounds amount := by
    intro k hk
    refine List.IsPrefix.trans ?_ (rounds_mono (Nat.succ_le_of_lt hk))
    exact ⟨[pongText], rounds_succ⟩
  cases h with
  | scan | ready | forking => exact List.nil_prefix
  | childTurn ne more | childPrint ne more => exact rounds_mono (Nat.le_of_lt more)
  | childUp ne more => exact hping more
  | parentTurn ne more | parentPrint ne more => exact hping (Nat.lt_of_succ_lt more)
  | parentUp ne more => exact rounds_mono (Nat.le_of_lt more)
  | lastTurn last | lastPrint last => exact hping (by omega)
  | lastUp last => exact rounds_mono (Nat.le_of_eq last)
  | waiting | closing | finished => exact List.prefix_refl _

theorem rounds_count (k : Nat) : (rounds k).count pingText = k ∧ (rounds k).count pongText = k := by
  induction k with
  | zero => exact ⟨rfl, rfl⟩
  | succ k ih =>
    rw [rounds, List.count_append, List.count_append, ih.1, ih.2]
    exact ⟨rfl, rfl⟩

/-! ### How many steps a run takes -/

def placeWeight (amount : Nat) : Place → Nat
  | .exit => 1
  | .close2 => 2
  | .close1 => 3
  | .wait => 4
  | .up i => 4 * (amount - (i + 1)) + 5
  | .print i => 4 * (amount - (i + 1)) + 6
  | .down i d => 4 * (amount - (i + 1)) + if d = .call then 8 else 7
  | .forkFailed => 4 * amount + 5
  -- From here on the steps of the child are counted too.
  | .fork => 2 * (4 * amount + 4) + 1
  | .downFirst d => 2 * (4 * amount + 4) + if d = .call then 3 else 2

/-- A bound on the steps that a process still takes, and those of the child that it will create. -/
def Pc.weight (amount : Nat) : Pc → Nat
  | .unborn => 0
  | .scan index _ => 2 * (4 * amount + 4) + 4 + (256 - index)
  | .failed => 1
  | .body _ _ place => placeWeight amount place
  | .exited => 0

def Event.forkWeight (amount : Nat) : Event → Nat
  | fork child => child.weight amount
  | _ => 0

theorem whileLoop_weight (amount k : Nat) : placeWeight amount (whileLoop amount k) ≤ 4 * (amount - k) + 4 := by
  unfold whileLoop
  split
  · simp only [placeWeight, if_true]
    omega
  · simp only [placeWeight]
    omega

theorem wakeOn_weight : (pc.wakeOn i role).weight amount = pc.weight amount := by
  unfold Pc.wakeOn Pc.wake
  split
  · split <;> rfl
  · rfl

/-- A process that was woken finds a unit. -/
def Pc.Resumes (sems : Nat → Semaphore) (role : Role) : Pc → Prop
  | .body _ sem2 (.downFirst .woken) => (sems sem2).count ≠ 0
  | .body sem1 sem2 (.down _ .woken) => (sems (downIndex role sem1 sem2)).count ≠ 0
  | _ => True

theorem resumes_down (h : d = .woken → (sems (downIndex role a b)).count ≠ 0) :
    (Pc.body a b (.down k d)).Resumes sems role := by
  cases d with
  | woken => exact h rfl
  | _ => trivial

theorem RunOk.resumes (h : RunOk amount sems p c out) : p.Resumes sems .parent ∧ c.Resumes sems .child := by
  have hunit : ∀ {i : Nat}, sems i = withUnit → (sems i).count ≠ 0 := by
    intro i hi
    rw [hi]
    decide
  have hending : ∀ {a b : Nat}, Ending a b c → c.Resumes sems .child := fun hchild => by cases hchild <;> trivial
  cases h with
  | childTurn ne more parent child sem1 sem2 =>
    exact ⟨resumes_down fun hd => absurd hd parent, resumes_down fun _ => hunit sem1⟩
  | childPrint ne more parent | childUp ne more parent => exact ⟨resumes_down fun hd => absurd hd parent, trivial⟩
  | parentTurn ne more parent child sem1 sem2 =>
    exact ⟨resumes_down fun _ => hunit sem2, resumes_down fun hd => absurd hd child⟩
  | parentPrint ne more child | parentUp ne more child => exact ⟨trivial, resumes_down fun hd => absurd hd child⟩
  | lastTurn last parent child sem2 => exact ⟨resumes_down fun _ => sem2, hending child⟩
  | lastPrint last child | lastUp last child | waiting child => exact ⟨trivial, hending child⟩
  | closing at_end => rcases at_end with rfl | rfl | rfl <;> exact ⟨trivial, trivial⟩
  | _ => exact ⟨trivial, trivial⟩

/-- Each step of a run takes at least one from the weights of its processes. -/
theorem pcStep_weight {forkFails : Bool} (hresumes : pc.Resumes sems role)
    (hstep : pcStep amount forkFails sems c role pc = some (e, pc')) :
    pc'.weight amount + e.forkWeight amount < pc.weight amount := by
  have hloop := whileLoop_weight amount
  cases pcStep_cases hstep with
  | opened few more | openFails few more =>
    simp only [Pc.weight, Event.forkWeight]
    omega
  | found =>
    simp only [Pc.weight, placeWeight, Event.forkWeight, if_true]
    omega
  | notFound =>
    simp only [Pc.weight, Event.forkWeight]
    omega
  | downFirst | down =>
    simp only [Pc.weight, placeWeight, Event.forkWeight]
    split <;> omega
  | @downFirstSleeps a b d sem awake zero | @downSleeps a b k d sem awake zero =>
    cases d with
    | asleep => exact absurd rfl awake
    | woken => exact absurd (zero rfl) hresumes
    | call => exact Nat.lt_succ_self _
  | @fork a b =>
    have := hloop 0
    show placeWeight amount (whileLoop amount 0) + placeWeight amount (whileLoop amount 0) < 2 * (4 * amount + 4) + 1
    omega
  | forkFails =>
    simp only [Pc.weight, placeWeight, Event.forkWeight]
    omega
  | forkFailed => exact Nat.lt_succ_of_le (hloop 0)
  | @up a b k => exact Nat.lt_succ_of_le (hloop (k + 1))
  | failed | print | wait | close1 | close2 | exit => exact Nat.lt_succ_self _

end LabSO.User

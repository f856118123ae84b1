import LabSO.Lib.Monitor
import Mathlib.Tactic.Common

/-! Rules for the machine of `Monitor`: one thread at a time holds the lock, annotated code keeps what its annotations
    say, and code that pays the wakeups it owes leaves nobody asleep who has something to do. -/

namespace LabSO.Monitor

variable {n : Nat} {η γ β π ρ ν ε : Type} {code : Code n η γ β π ρ ν ε} {s t : State n η γ β π} {a a' : Thread n η}
  {p q : Fin n} {c : γ} {k : π}

/-! ### Places -/

/-- The point at which a thread goes on, where it has the lock until then. -/
def Pc.inside? : Pc γ π → Option π
  | .at k | .wakeup _ _ k => some k
  | _ => none

/-- The point at which a thread goes on, where it has to take the lock before. -/
def Pc.waiting? : Pc γ π → Option π
  | .acquire k | .sleepAcquire _ k | .sleepRelease _ k | .sleepMark _ k | .sleepSwitch _ k | .asleep _ k => some k
  | _ => none

/-- With the lock held. -/
def Pc.Holds : Pc γ π → Prop
  | .at _ | .wakeup .. | .sleepAcquire .. | .sleepRelease .. => True
  | _ => False

/-- With the lock of the own slot held. -/
def Pc.Dozes : Pc γ π → Prop
  | .sleepRelease .. | .sleepMark .. | .sleepSwitch .. => True
  | _ => False

/-- In `sleep` with the lock given up. -/
def Pc.Lulled : Pc γ π → Prop
  | .sleepMark .. | .sleepSwitch .. | .asleep .. => True
  | _ => False

theorem Pc.holds_of_inside {pc : Pc γ π} (h : pc.inside? = some k) : pc.Holds := by
  cases pc <;> cases h <;> trivial

section
variable (s : State n η γ β π) (a : Thread n η) (p : Fin n) (pc : Pc γ π) (x : Slot γ) (h : Option (Thread n η)) (d : β)

@[simp] theorem State.setPc_data [DecidableEq η] : (s.setPc a pc).data = s.data := rfl
@[simp] theorem State.setPc_lock [DecidableEq η] : (s.setPc a pc).lock = s.lock := rfl
@[simp] theorem State.setPc_slots [DecidableEq η] : (s.setPc a pc).slots = s.slots := rfl
@[simp] theorem State.setPc_pcs [DecidableEq η] : (s.setPc a pc).pcs = Function.update s.pcs a pc := rfl
@[simp] theorem State.setSlot_data : (s.setSlot p x).data = s.data := rfl
@[simp] theorem State.setSlot_lock : (s.setSlot p x).lock = s.lock := rfl
@[simp] theorem State.setSlot_slots : (s.setSlot p x).slots = Function.update s.slots p x := rfl
@[simp] theorem State.setSlot_pcs : (s.setSlot p x).pcs = s.pcs := rfl
@[simp] theorem State.setLock_data : (s.setLock h).data = s.data := rfl
@[simp] theorem State.setLock_lock : (s.setLock h).lock = h := rfl
@[simp] theorem State.setLock_slots : (s.setLock h).slots = s.slots := rfl
@[simp] theorem State.setLock_pcs : (s.setLock h).pcs = s.pcs := rfl
@[simp] theorem State.setData_data : (s.setData d).data = d := rfl
@[simp] theorem State.setData_lock : (s.setData d).lock = s.lock := rfl
@[simp] theorem State.setData_slots : (s.setData d).slots = s.slots := rfl
@[simp] theorem State.setData_pcs : (s.setData d).pcs = s.pcs := rfl

end

/-! ### The locks -/

structure Locked (s : State n η γ β π) : Prop where
  /-- The lock is held by the thread that stands where it is held. -/
  holder : ∀ a, s.lock = some a ↔ (s.pcs a).Holds
  slot : ∀ p, (s.slots p).lock = true ↔ (s.pcs (.inl p)).Dozes
  sleeping : ∀ p, (s.slots p).status = .sleeping → ∃ c k, (s.slots p).chan = some c ∧
    (s.pcs (.inl p) = .sleepSwitch c k ∨ s.pcs (.inl p) = .asleep c k)

theorem Locked.unique (h : Locked s) (ha : (s.pcs a).Holds) (ha' : (s.pcs a').Holds) : a' = a :=
  Option.some.inj (((h.holder a').mpr ha').symm.trans ((h.holder a).mpr ha))

theorem Locked.boot (h : Boot s) : Locked s where
  holder a := by
    rw [h.lock, h.pcs a]
    exact ⟨nofun, False.elim⟩
  slot p := by
    rw [h.slotLock p, h.pcs (.inl p)]
    exact ⟨nofun, False.elim⟩
  sleeping p hp := absurd hp (h.status p)

theorem Locked.setData (h : Locked s) (data : β) : Locked (s.setData data) := ⟨h.holder, h.slot, h.sleeping⟩

/-- A slot changes while its process does not. -/
theorem Locked.setSlot {x : Slot γ} (h : Locked s) (hlock : x.lock = (s.slots p).lock)
    (hsleep : x.status = .sleeping → (s.slots p).status = .sleeping ∧ x.chan = (s.slots p).chan) :
    Locked (s.setSlot p x) := by
  refine ⟨h.holder, fun q => ?_, fun q hq => ?_⟩
  · rw [State.setSlot_slots, State.setSlot_pcs, ← h.slot q]
    by_cases hqp : q = p
    · rw [hqp, Function.update_self, hlock]
    · rw [Function.update_of_ne hqp]
  · rw [State.setSlot_slots] at hq ⊢
    rw [State.setSlot_pcs]
    by_cases hqp : q = p
    · subst hqp
      rw [Function.update_self] at hq ⊢
      obtain ⟨hstatus, hchan⟩ := hsleep hq
      rw [hchan]
      exact h.sleeping q hstatus
    · rw [Function.update_of_ne hqp] at hq ⊢
      exact h.sleeping q hq

section Steps
variable [DecidableEq η]

theorem holder_setPc {pc : Pc γ π} (h : ∀ b, s.lock = some b ↔ (s.pcs b).Holds) (ha : pc.Holds ↔ (s.pcs a).Holds) (b) :
    (s.setPc a pc).lock = some b ↔ ((s.setPc a pc).pcs b).Holds := by
  rw [State.setPc_lock, State.setPc_pcs, h b]
  by_cases hb : b = a
  · rw [hb, Function.update_self, ha]
  · rw [Function.update_of_ne hb]

theorem holder_acquire {pc : Pc γ π} (h : ∀ b, s.lock = some b ↔ (s.pcs b).Holds) (hfree : s.lock = none) (ha : pc.Holds)
    (b) : ((s.setLock (some a)).setPc a pc).lock = some b ↔ (((s.setLock (some a)).setPc a pc).pcs b).Holds := by
  rw [State.setPc_lock, State.setLock_lock, State.setPc_pcs, State.setLock_pcs, Option.some.injEq]
  by_cases hb : b = a
  · rw [hb, Function.update_self]
    exact ⟨fun _ => ha, fun _ => rfl⟩
  · rw [Function.update_of_ne hb, ← h b, hfree]
    exact ⟨fun heq => absurd heq.symm hb, nofun⟩

theorem holder_release {pc : Pc γ π} (h : ∀ b, s.lock = some b ↔ (s.pcs b).Holds) (ha : (s.pcs a).Holds) (hpc : ¬pc.Holds)
    (b) : ((s.setLock none).setPc a pc).lock = some b ↔ (((s.setLock none).setPc a pc).pcs b).Holds := by
  rw [State.setPc_lock, State.setLock_lock, State.setPc_pcs, State.setLock_pcs]
  by_cases hb : b = a
  · rw [hb, Function.update_self]
    exact ⟨nofun, fun hh => absurd hh hpc⟩
  · rw [Function.update_of_ne hb, ← h b, (h a).mpr ha]
    exact ⟨nofun, fun heq => absurd (Option.some.inj heq).symm hb⟩

theorem slot_setPc {pc : Pc γ π} (h : ∀ q, (s.slots q).lock = true ↔ (s.pcs (.inl q)).Dozes)
    (ha : pc.Dozes ↔ (s.pcs a).Dozes) (q) : ((s.setPc a pc).slots q).lock = true ↔ ((s.setPc a pc).pcs (.inl q)).Dozes := by
  rw [State.setPc_slots, State.setPc_pcs, h q]
  by_cases hb : .inl q = a
  · rw [hb, Function.update_self, ha]
  · rw [Function.update_of_ne hb]

theorem slot_setSlot {x : Slot γ} {pc : Pc γ π} (h : ∀ q, (s.slots q).lock = true ↔ (s.pcs (.inl q)).Dozes)
    (hx : x.lock = true ↔ pc.Dozes) (q) : (((s.setSlot p x).setPc (.inl p) pc).slots q).lock = true ↔
      (((s.setSlot p x).setPc (.inl p) pc).pcs (.inl q)).Dozes := by
  rw [State.setPc_slots, State.setPc_pcs, State.setSlot_slots, State.setSlot_pcs]
  by_cases hq : q = p
  · rw [hq, Function.update_self, Function.update_self, hx]
  · rw [Function.update_of_ne hq, Function.update_of_ne fun heq => hq (Sum.inl.inj heq), h q]

/-- A thread that is not in `sleep` can go anywhere without a word about sleepers. -/
theorem sleeping_setPc {pc : Pc γ π}
    (h : ∀ p, (s.slots p).status = .sleeping → ∃ c k, (s.slots p).chan = some c ∧
      (s.pcs (.inl p) = .sleepSwitch c k ∨ s.pcs (.inl p) = .asleep c k))
    (ha : ∀ c k, s.pcs a ≠ .sleepSwitch c k ∧ s.pcs a ≠ .asleep c k) (p)
    (hp : ((s.setPc a pc).slots p).status = .sleeping) : ∃ c k, ((s.setPc a pc).slots p).chan = some c ∧
      ((s.setPc a pc).pcs (.inl p) = .sleepSwitch c k ∨ (s.setPc a pc).pcs (.inl p) = .asleep c k) := by
  obtain ⟨c, k, hchan, hpc⟩ := h p hp
  have hne : (.inl p : Thread n η) ≠ a := by
    rintro rfl
    rcases hpc with hpc | hpc
    · exact (ha c k).1 hpc
    · exact (ha c k).2 hpc
  refine ⟨c, k, hchan, ?_⟩
  rw [State.setPc_pcs, Function.update_of_ne hne]
  exact hpc

/-- A thread that does not sleep moves, with or without the lock as before. -/
theorem Locked.setPc {pc : Pc γ π} (h : Locked s) (hholds : pc.Holds ↔ (s.pcs a).Holds)
    (hdozes : pc.Dozes ↔ (s.pcs a).Dozes) (ha : ∀ c k, s.pcs a ≠ .sleepSwitch c k ∧ s.pcs a ≠ .asleep c k) :
    Locked (s.setPc a pc) :=
  ⟨holder_setPc h.holder hholds, slot_setPc h.slot hdozes, sleeping_setPc h.sleeping ha⟩

/-- A process on its way through `sleep` changes its slot. -/
theorem Locked.setSlot_setPc {x : Slot γ} {pc : Pc γ π} (h : Locked s) (hholds : pc.Holds ↔ (s.pcs (.inl p)).Holds)
    (hx : x.lock = true ↔ pc.Dozes)
    (hsleep : x.status = .sleeping → ∃ c k, x.chan = some c ∧ (pc = .sleepSwitch c k ∨ pc = .asleep c k)) :
    Locked ((s.setSlot p x).setPc (.inl p) pc) := by
  refine ⟨holder_setPc h.holder hholds, slot_setSlot h.slot hx, fun q hq => ?_⟩
  rw [State.setPc_slots, State.setSlot_slots] at hq ⊢
  rw [State.setPc_pcs, State.setSlot_pcs]
  by_cases hqp : q = p
  · subst hqp
    rw [Function.update_self] at hq ⊢
    rw [Function.update_self]
    exact hsleep hq
  · rw [Function.update_of_ne hqp] at hq ⊢
    rw [Function.update_of_ne fun heq => hqp (Sum.inl.inj heq)]
    exact h.sleeping q hq

variable [DecidableEq γ]

omit [DecidableEq η] in
theorem Slot.wake_lock (x : Slot γ) (c : γ) : (x.wake c).lock = x.lock := by
  unfold wake
  split <;> rfl

omit [DecidableEq η] in
theorem Slot.wake_sleeping {x : Slot γ} (h : (x.wake c).status = .sleeping) :
    x.status = .sleeping ∧ (x.wake c).chan = x.chan := by
  unfold wake at *
  split at h
  · cases h
  · next hn =>
    rw [if_neg hn]
    exact ⟨h, rfl⟩

omit [DecidableEq γ] in
theorem Slot.kill_sleeping {x : Slot γ} (h : x.kill.status = .sleeping) : x.status = .sleeping ∧ x.kill.chan = x.chan := by
  unfold kill at *
  simp only at h
  split at h
  · cases h
  · exact ⟨h, rfl⟩

theorem locked_step {l : Action n η ν ε × Event n η ρ} (h : Locked s) (hstep : Step code s l t) : Locked t := by
  cases step_inv hstep with
  | @acquire a next pc free =>
    refine ⟨holder_acquire h.holder free trivial, ?_, ?_⟩
    · exact slot_setPc h.slot (by rw [State.setLock_pcs, pc]; rfl)
    · exact sleeping_setPc h.sleeping fun _ _ => by rw [State.setLock_pcs, pc]; exact ⟨nofun, nofun⟩
  | @set a point next data pc op =>
    refine (h.setData data).setPc ?_ ?_ fun _ _ => ?_ <;> rw [State.setData_pcs, pc]
    · rfl
    · rfl
    · exact ⟨nofun, nofun⟩
  | @passes a point pc' pc passes =>
    cases passes <;> refine h.setPc ?_ ?_ fun _ _ => ?_ <;> rw [pc] <;> first | rfl | exact ⟨nofun, nofun⟩
  | @release a point result pc op =>
    refine ⟨holder_release h.holder (by rw [pc]; trivial) not_false, ?_, ?_⟩
    · exact slot_setPc h.slot (by rw [State.setLock_pcs, pc]; rfl)
    · exact sleeping_setPc h.sleeping fun _ _ => by rw [State.setLock_pcs, pc]; exact ⟨nofun, nofun⟩
  | @wakeupSelf p chan next pc =>
    refine h.setPc ?_ ?_ fun _ _ => ?_ <;> rw [pc] <;> first | rfl | exact ⟨nofun, nofun⟩
  | @wakeupTest a chan q next pc other free =>
    have hs := h.setSlot (p := q) (Slot.wake_lock (s.slots q) chan) fun hsleep => Slot.wake_sleeping hsleep
    refine hs.setPc ?_ ?_ fun _ _ => ?_ <;> rw [State.setSlot_pcs, pc] <;> first | rfl | exact ⟨nofun, nofun⟩
  | @wakeupEnd a chan j next pc all =>
    refine h.setPc ?_ ?_ fun _ _ => ?_ <;> rw [pc] <;> first | rfl | exact ⟨nofun, nofun⟩
  | @sleepAcquire p chan next pc free =>
    refine h.setSlot_setPc (by rw [pc]; rfl) ⟨fun _ => trivial, fun _ => rfl⟩ fun hsleep => ?_
    obtain ⟨c, k, -, hpc | hpc⟩ := h.sleeping p hsleep <;> rw [pc] at hpc <;> cases hpc
  | @sleepRelease p chan next pc =>
    refine ⟨holder_release h.holder (by rw [pc]; trivial) not_false, ?_, ?_⟩
    · exact slot_setPc h.slot (by rw [State.setLock_pcs, pc]; rfl)
    · exact sleeping_setPc h.sleeping fun _ _ => by rw [State.setLock_pcs, pc]; exact ⟨nofun, nofun⟩
  | @sleepMark p chan next pc =>
    have hlock : (s.slots p).lock = true := (h.slot p).mpr (by rw [pc]; trivial)
    exact h.setSlot_setPc (by rw [pc]; rfl) ⟨fun _ => trivial, fun _ => hlock⟩ fun _ => ⟨chan, next, rfl, Or.inl rfl⟩
  | @sleepSwitch p chan next pc =>
    refine h.setSlot_setPc (by rw [pc]; rfl) ⟨nofun, False.elim⟩ fun hsleep => ?_
    obtain ⟨c, k, hchan, hpc | hpc⟩ := h.sleeping p hsleep <;> rw [pc] at hpc <;> cases hpc
    exact ⟨chan, next, hchan, Or.inr rfl⟩
  | @resume p chan next pc runnable =>
    refine h.setSlot_setPc (by rw [pc]; rfl) ?_ nofun
    rw [h.slot p, pc]
    rfl
  | @call a request data next pc enter =>
    refine (h.setData data).setPc ?_ ?_ fun _ _ => ?_ <;> rw [State.setData_pcs, pc] <;> first | rfl | exact ⟨nofun, nofun⟩
  | callOut pc enter => exact h.setData _
  | @kill p free => exact h.setSlot rfl Slot.kill_sleeping
  | env env => exact h.setData _

end Steps

/-! ### Annotated code -/

/-- Annotations of code: `always` holds throughout, and `rest` while no thread is inside; `idle` holds of a thread that is
    out, `inside` of one at a point with the lock held, and `waiting` of one that goes on there when it has the lock. -/
structure Notes (n : Nat) (η β π : Type) where
  always : β → Prop
  rest : β → Prop
  idle : Thread n η → β → Prop
  inside : Thread n η → π → β → Prop
  waiting : Thread n η → π → β → Prop

/-- What is noted of a thread is kept by a change of the data. -/
structure Notes.Keeps (N : Notes n η β π) (a : Thread n η) (b b' : β) : Prop where
  idle : N.idle a b → N.idle a b'
  inside : ∀ k, N.inside a k b → N.inside a k b'
  waiting : ∀ k, N.waiting a k b → N.waiting a k b'

/-- Where a thread stands after a call that leads there: at a point, or out. -/
def Notes.entered (N : Notes n η β π) (a : Thread n η) (b : β) : Option π → Prop
  | none => N.idle a b
  | some k => N.waiting a k b

/-- The code keeps its annotations, for calls that meet `Ok`. -/
structure Outline (code : Code n η γ β π ρ ν ε) (Ok : ν → Prop) (N : Notes n η β π) : Prop where
  acquire : ∀ {a k b}, N.always b → N.rest b → N.waiting a k b → N.inside a k b
  set : ∀ {a k b b' k'}, N.always b → N.inside a k b → code.op a k b = .set b' k' →
    N.always b' ∧ N.inside a k' b' ∧ ∀ a', a' ≠ a →
      (N.idle a' b → N.idle a' b') ∧ ∀ k, N.waiting a' k b → N.waiting a' k b'
  wakeup : ∀ {a k b c k'}, N.always b → N.inside a k b → code.op a k b = .wakeup c k' → N.inside a k' b
  sleep : ∀ {a k b c k'}, N.always b → N.inside a k b → code.op a k b = .sleep c k' → N.rest b ∧ N.waiting a k' b
  killed : ∀ {a k b yes no}, N.always b → N.inside a k b → code.op a k b = .killed yes no →
    N.inside a yes b ∧ N.inside a no b
  release : ∀ {a k b r}, N.always b → N.inside a k b → code.op a k b = .release r → N.rest b ∧ N.idle a b
  enter : ∀ {a r b b' o}, Ok r → N.always b → N.idle a b → code.enter a r b = some (b', o) →
    N.always b' ∧ (N.rest b → N.rest b') ∧ N.entered a b' o ∧ ∀ a', a' ≠ a → N.Keeps a' b b'
  env : ∀ {e b b'}, N.always b → code.env e b = some b' → N.always b' ∧ (N.rest b → N.rest b') ∧ ∀ a, N.Keeps a b b'

variable {Ok : ν → Prop} {N : Notes n η β π}

/-- A call that the step makes meets `Ok`. -/
def CallOk (Ok : ν → Prop) (l : Action n η ν ε × Event n η ρ) : Prop :=
  match l.1 with
  | .call _ r => Ok r
  | _ => True

instance [DecidablePred Ok] : ∀ l : Action n η ν ε × Event n η ρ, Decidable (CallOk Ok l)
  | (.call _ r, _) => inferInstanceAs (Decidable (Ok r))
  | (.step _, _) | (.kill _, _) | (.env _, _) => .isTrue trivial

theorem callOk_true (l : Action n η ν ε × Event n η ρ) : CallOk (fun _ => True) l := by
  unfold CallOk
  split <;> trivial

/-- What holds of a thread where it stands. -/
structure Notes.At (N : Notes n η β π) (a : Thread n η) (b : β) (pc : Pc γ π) : Prop where
  idle : pc = .out → N.idle a b
  inside : ∀ k, pc.inside? = some k → N.inside a k b
  waiting : ∀ k, pc.waiting? = some k → N.waiting a k b

/-- The annotations hold where the threads stand. -/
structure Outlined (N : Notes n η β π) (s : State n η γ β π) : Prop where
  data : N.always s.data
  rest : (∀ a, (s.pcs a).inside? = none) → N.rest s.data
  thread : ∀ a, N.At a s.data (s.pcs a)

theorem Outlined.inside (h : Outlined N s) (ha : (s.pcs a).inside? = some k) : N.inside a k s.data :=
  (h.thread a).inside k ha

theorem Outlined.waiting (h : Outlined N s) (ha : (s.pcs a).waiting? = some k) : N.waiting a k s.data :=
  (h.thread a).waiting k ha

theorem Outlined.boot (h : Boot s) (halways : N.always s.data) (hrest : N.rest s.data) (hidle : ∀ a, N.idle a s.data) :
    Outlined N s where
  data := halways
  rest _ := hrest
  thread a := by
    rw [h.pcs a]
    exact ⟨fun _ => hidle a, nofun, nofun⟩

theorem Outlined.congr (h : Outlined N s) (hd : t.data = s.data) (hpcs : t.pcs = s.pcs) : Outlined N t := by
  obtain ⟨data, rest, thread⟩ := h
  rw [← hd] at data rest thread
  rw [← hpcs] at rest thread
  exact ⟨data, rest, thread⟩

theorem Notes.At.keeps {b b' : β} {pc : Pc γ π} (h : N.At a b pc) (hk : N.Keeps a b b') : N.At a b' pc :=
  ⟨fun hpc => hk.idle (h.idle hpc), fun k hpc => hk.inside k (h.inside k hpc), fun k hpc => hk.waiting k (h.waiting k hpc)⟩

theorem Notes.At.moves {b : β} {pc pc' : Pc γ π} (h : N.At a b pc) (hout : pc' ≠ .out) (hinside : pc'.inside? = pc.inside?)
    (hwaiting : pc'.waiting? = pc.waiting?) : N.At a b pc' :=
  ⟨fun hpc => absurd hpc hout, fun k hpc => h.inside k (hinside ▸ hpc), fun k hpc => h.waiting k (hwaiting ▸ hpc)⟩

/-- With the lock free no thread is inside. -/
theorem Locked.inside_none (h : Locked s) (hfree : s.lock = none) (a : Thread n η) : (s.pcs a).inside? = none := by
  cases ha : (s.pcs a).inside? with
  | none => rfl
  | some k =>
    have hholds := (h.holder a).mpr (Pc.holds_of_inside ha)
    rw [hfree] at hholds
    cases hholds

section Steps
variable [DecidableEq η]

/-- A thread moves, the data as they are. -/
theorem Outlined.setPc {pc : Pc γ π} (h : Outlined N s) (hat : N.At a s.data pc)
    (hrest : pc.inside? = none → (∀ a', a' ≠ a → (s.pcs a').inside? = none) → N.rest s.data) :
    Outlined N (s.setPc a pc) where
  data := h.data
  rest hnone := by
    refine hrest ?_ fun a' hne => ?_
    · have ha := hnone a
      rwa [State.setPc_pcs, Function.update_self] at ha
    · have ha' := hnone a'
      rwa [State.setPc_pcs, Function.update_of_ne hne] at ha'
  thread a' := by
    rw [State.setPc_pcs, State.setPc_data]
    by_cases hne : a' = a
    · subst hne
      rwa [Function.update_self]
    · rw [Function.update_of_ne hne]
      exact h.thread a'

/-- A thread moves that is inside after it, or where it was. -/
theorem Outlined.moves {pc : Pc γ π} (h : Outlined N s) (hout : pc ≠ .out) (hinside : pc.inside? = (s.pcs a).inside?)
    (hwaiting : pc.waiting? = (s.pcs a).waiting?) : Outlined N (s.setPc a pc) := by
  refine h.setPc ((h.thread a).moves hout hinside hwaiting) fun hnone hothers => h.rest fun a' => ?_
  by_cases hne : a' = a
  · rw [hne, ← hinside]
    exact hnone
  · exact hothers a' hne

theorem Outlined.goesIn {pc : Pc γ π} (h : Outlined N s) (hpc : pc.inside? = some k) (hwaiting : pc.waiting? = none)
    (hout : pc ≠ .out) (hin : N.inside a k s.data) : Outlined N (s.setPc a pc) := by
  refine h.setPc ⟨fun heq => absurd heq hout, fun k' hk' => ?_, fun k' hk' => ?_⟩ fun hnone => ?_
  · rw [hpc] at hk'
    cases hk'
    exact hin
  · rw [hwaiting] at hk'
    cases hk'
  · rw [hpc] at hnone
    cases hnone

/-- A thread that is inside changes the data. -/
theorem Outlined.setData_setPc {data : β} {pc : Pc γ π} (h : Outlined N s) (halways : N.always data)
    (hrest : (∀ a', ((s.setPc a pc).pcs a').inside? = none) → N.rest data) (hat : N.At a data pc)
    (hothers : ∀ a', a' ≠ a → N.At a' s.data (s.pcs a') → N.At a' data (s.pcs a')) :
    Outlined N ((s.setData data).setPc a pc) where
  data := halways
  rest := hrest
  thread a' := by
    show N.At a' data (Function.update s.pcs a pc a')
    by_cases hne : a' = a
    · subst hne
      rwa [Function.update_self]
    · rw [Function.update_of_ne hne]
      exact hothers a' hne (h.thread a')

variable [DecidableEq γ]

theorem Outlined.step {l : Action n η ν ε × Event n η ρ} (code_ok : Outline code Ok N) (hl : Locked s)
    (h : Outlined N s) (hok : CallOk Ok l) (hstep : Step code s l t) : Outlined N t := by
  cases step_inv hstep with
  | @acquire a next pc free =>
    have hs : Outlined N (s.setLock (some a)) := h.congr rfl rfl
    refine hs.goesIn rfl rfl nofun ?_
    exact code_ok.acquire h.data (h.rest (hl.inside_none free)) (h.waiting (by rw [pc]; rfl))
  | @set a point next data pc op =>
    obtain ⟨halways, hin, hothers⟩ := code_ok.set h.data (h.inside (by rw [pc]; rfl)) op
    refine h.setData_setPc halways (fun hnone => ?_) ⟨nofun, fun k hk => ?_, nofun⟩ fun a' hne hat => ?_
    · have hself := hnone a
      rw [State.setPc_pcs, Function.update_self] at hself
      cases hself
    · cases hk
      exact hin
    · -- Nobody else has the lock.
      refine ⟨fun hpc => (hothers a' hne).1 (hat.idle hpc), fun k hk => ?_, fun k hk => ?_⟩
      · exact absurd (hl.unique (a := a) (by rw [pc]; trivial) (Pc.holds_of_inside hk)) hne
      · exact (hothers a' hne).2 k (hat.waiting k hk)
  | @passes a point pc' pc passes =>
    have hin := h.inside (a := a) (k := point) (by rw [pc]; rfl)
    cases passes with
    | wakeup op => exact h.goesIn rfl rfl nofun (code_ok.wakeup h.data hin op)
    | sleep op =>
      obtain ⟨hrest, hwaiting⟩ := code_ok.sleep h.data hin op
      refine h.setPc ⟨nofun, nofun, fun k hk => ?_⟩ fun _ _ => hrest
      cases hk
      exact hwaiting
    | killed self op free =>
      obtain ⟨hyes, hno⟩ := code_ok.killed h.data hin op
      refine h.goesIn rfl rfl nofun ?_
      split
      · exact hyes
      · exact hno
  | @release a point result pc op =>
    obtain ⟨hrest, hidle⟩ := code_ok.release h.data (h.inside (by rw [pc]; rfl)) op
    have hs : Outlined N (s.setLock none) := h.congr rfl rfl
    exact hs.setPc ⟨fun _ => hidle, nofun, nofun⟩ fun _ _ => hrest
  | @wakeupSelf p chan next pc => exact h.moves nofun (by rw [pc]; rfl) (by rw [pc]; rfl)
  | @wakeupTest a chan q next pc other free =>
    have hs : Outlined N (s.setSlot q ((s.slots q).wake chan)) := h.congr rfl rfl
    exact hs.moves nofun (by rw [State.setSlot_pcs, pc]; rfl) (by rw [State.setSlot_pcs, pc]; rfl)
  | @wakeupEnd a chan j next pc all => exact h.moves nofun (by rw [pc]; rfl) (by rw [pc]; rfl)
  | @sleepAcquire p chan next pc free =>
    have hs : Outlined N (s.setSlot p { s.slots p with lock := true }) := h.congr rfl rfl
    exact hs.moves nofun (by rw [State.setSlot_pcs, pc]; rfl) (by rw [State.setSlot_pcs, pc]; rfl)
  | @sleepRelease p chan next pc =>
    have hs : Outlined N (s.setLock none) := h.congr rfl rfl
    exact hs.moves nofun (by rw [State.setLock_pcs, pc]; rfl) (by rw [State.setLock_pcs, pc]; rfl)
  | @sleepMark p chan next pc =>
    have hs : Outlined N (s.setSlot p { s.slots p with status := .sleeping, chan := some chan }) := h.congr rfl rfl
    exact hs.moves nofun (by rw [State.setSlot_pcs, pc]; rfl) (by rw [State.setSlot_pcs, pc]; rfl)
  | @sleepSwitch p chan next pc =>
    have hs : Outlined N (s.setSlot p { s.slots p with lock := false }) := h.congr rfl rfl
    exact hs.moves nofun (by rw [State.setSlot_pcs, pc]; rfl) (by rw [State.setSlot_pcs, pc]; rfl)
  | @resume p chan next pc runnable =>
    have hs : Outlined N (s.setSlot p { s.slots p with status := .running, chan := none }) := h.congr rfl rfl
    exact hs.moves nofun (by rw [State.setSlot_pcs, pc]; rfl) (by rw [State.setSlot_pcs, pc]; rfl)
  | @call a request data next pc enter =>
    obtain ⟨halways, hrest, hnew, hothers⟩ := code_ok.enter hok h.data ((h.thread a).idle pc) enter
    refine h.setData_setPc halways (fun hnone => hrest (h.rest fun a' => ?_)) ⟨nofun, nofun, fun k hk => ?_⟩
      fun a' hne hat => hat.keeps (hothers a' hne)
    · by_cases hne : a' = a
      · rw [hne, pc]
        rfl
      · have ha' := hnone a'
        rwa [State.setPc_pcs, Function.update_of_ne hne] at ha'
    · cases hk
      exact hnew
  | @callOut a request data pc enter =>
    obtain ⟨halways, hrest, hnew, hothers⟩ := code_ok.enter hok h.data ((h.thread a).idle pc) enter
    refine ⟨halways, fun hnone => hrest (h.rest hnone), fun a' => ?_⟩
    by_cases hne : a' = a
    · subst hne
      rw [State.setData_pcs, pc]
      exact ⟨fun _ => hnew, nofun, nofun⟩
    · exact (h.thread a').keeps (hothers a' hne)
  | kill free => exact h.congr rfl rfl
  | env henv =>
    obtain ⟨halways, hrest, hall⟩ := code_ok.env h.data henv
    exact ⟨halways, fun hnone => hrest (h.rest hnone), fun a => (h.thread a).keeps (hall a)⟩

/-- In every state of a run the locks are in order and the annotations hold. -/
theorem Outline.allStates {ls : List (Action n η ν ε × Event n η ρ)} (code_ok : Outline code Ok N) (hboot : Boot s)
    (hs : Outlined N s) (hok : ∀ l ∈ ls, CallOk Ok l) :
    Transition.AllStates (Step code) s ls fun u => Locked u ∧ Outlined N u :=
  Transition.AllSteps.allStates (C := fun _ l => CallOk Ok l)
    (fun _ _ _ h hC hstep => ⟨locked_step h.1 hstep, h.2.step code_ok h.1 hC hstep⟩) ⟨.boot hboot, hs⟩
    (.of_mem fun l hl _ => hok l hl)

theorem Outline.run {ls : List (Action n η ν ε × Event n η ρ)} (code_ok : Outline code Ok N) (hboot : Boot s)
    (hs : Outlined N s) (hok : ∀ l ∈ ls, CallOk Ok l) (hrun : Transition.Run (Step code) s ls t) :
    Locked t ∧ Outlined N t :=
  code_ok.allStates hboot hs hok ls t (List.prefix_refl _) hrun

end Steps

/-! ### Wakeups -/

/-- On its way to sleep with the lock given up, or asleep: only a `wakeup` or a `kill` makes the process go on. -/
def Drowsy (s : State n η γ β π) (p : Fin n) (c : γ) : Prop :=
  (∃ k, s.pcs (.inl p) = .sleepMark c k) ∨ (∃ k, s.pcs (.inl p) = .sleepSwitch c k) ∨
    (∃ k, s.pcs (.inl p) = .asleep c k) ∧ (s.slots p).status = .sleeping

/-- `Due p c` says that the process `p` has something to do if it sleeps on `c`, and `Owes a k c` that the thread `a` still
    wakes who sleeps there before it gives up the lock, when it stands at `k`. -/
structure SignalsFor (code : Code n η γ β π ρ ν ε) (N : Notes n η β π) (Due : Fin n → γ → β → Prop)
    (Owes : Thread n η → π → γ → Prop) : Prop where
  set : ∀ {a k b b' k' p c}, N.always b → N.inside a k b → code.op a k b = .set b' k' → Due p c b' →
    (Due p c b → Owes a k c) → Owes a k' c
  wakeup : ∀ {a k b c k' p c'}, N.always b → N.inside a k b → code.op a k b = .wakeup c k' → c' ≠ c → Due p c' b →
    Owes a k c' → Owes a k' c'
  sleep : ∀ {a k b c k'}, N.always b → N.inside a k b → code.op a k b = .sleep c k' →
    (∀ p, a = .inl p → ¬Due p c b) ∧ ∀ p c', Owes a k c' → ¬Due p c' b
  killed : ∀ {a k b yes no p c}, N.always b → N.inside a k b → code.op a k b = .killed yes no → Due p c b → Owes a k c →
    Owes a yes c ∧ Owes a no c
  enter : ∀ {a r b b' o p c}, N.always b → code.enter a r b = some (b', o) → Due p c b' → Due p c b
  env : ∀ {e b b' p c}, N.always b → code.env e b = some b' → Due p c b' → Due p c b

variable {Due : Fin n → γ → β → Prop} {Owes : Thread n η → π → γ → Prop}

/-- The thread will wake the process if it sleeps on the channel. -/
def Covers (Owes : Thread n η → π → γ → Prop) (a : Thread n η) (c : γ) (p : Fin n) : Pc γ π → Prop
  | .at k => Owes a k c
  | .wakeup c' j k => c' = c ∧ j ≤ p ∨ Owes a k c
  | _ => False

structure SignalledFor (Due : Fin n → γ → β → Prop) (Owes : Thread n η → π → γ → Prop) (s : State n η γ β π) : Prop where
  covered : ∀ p c, Drowsy s p c → Due p c s.data → ∃ a, s.lock = some a ∧ Covers Owes a c p (s.pcs a)
  /-- Who is about to give up the lock has just found nothing to do. -/
  found : ∀ p c k, s.pcs (.inl p) = .sleepAcquire c k ∨ s.pcs (.inl p) = .sleepRelease c k → ¬Due p c s.data

/-- The step gives up the lock with a wakeup owed to a process that sleeps. -/
def StrandsFor (code : Code n η γ β π ρ ν ε) (Due : Fin n → γ → β → Prop) (Owes : Thread n η → π → γ → Prop) (s : State n η γ β π)
    (l : Action n η ν ε × Event n η ρ) : Prop :=
  ∃ a k result c p, l.1 = .step a ∧ s.pcs a = .at k ∧ code.op a k s.data = .release result ∧ Owes a k c ∧ Due p c s.data ∧
    Drowsy s p c

theorem drowsy_congr (hpc : t.pcs (.inl p) = s.pcs (.inl p)) (hs : (t.slots p).status = (s.slots p).status) :
    Drowsy t p c ↔ Drowsy s p c := by
  unfold Drowsy
  rw [hpc, hs]

theorem Drowsy.lulled (h : Drowsy s p c) : (s.pcs (.inl p)).Lulled := by
  rcases h with ⟨k, hk⟩ | ⟨k, hk⟩ | ⟨⟨k, hk⟩, -⟩ <;> rw [hk] <;> trivial

theorem SignalledFor.boot (h : Boot s) : SignalledFor Due Owes s where
  covered p c hp := by
    rcases hp with ⟨k, hk⟩ | ⟨k, hk⟩ | ⟨⟨k, hk⟩, -⟩ <;> rw [h.pcs] at hk <;> cases hk
  found p c k hk := by
    rcases hk with hk | hk <;> rw [h.pcs] at hk <;> cases hk

theorem SignalledFor.frame (h : SignalledFor Due Owes s) (hdrowsy : ∀ p c, Drowsy t p c → Drowsy s p c)
    (hdue : ∀ p c, Due p c t.data → Due p c s.data) (hlock : t.lock = s.lock)
    (hcovers : ∀ a c p, s.lock = some a → Drowsy t p c → Due p c s.data → Covers Owes a c p (s.pcs a) →
      Covers Owes a c p (t.pcs a))
    (hfound : ∀ p c k, t.pcs (.inl p) = .sleepAcquire c k ∨ t.pcs (.inl p) = .sleepRelease c k →
      s.pcs (.inl p) = .sleepAcquire c k ∨ s.pcs (.inl p) = .sleepRelease c k) : SignalledFor Due Owes t where
  covered p c hp hd := by
    obtain ⟨a, ha, hc⟩ := h.covered p c (hdrowsy p c hp) (hdue p c hd)
    exact ⟨a, hlock.trans ha, hcovers a c p ha hp (hdue p c hd) hc⟩
  found p c k hk hd := h.found p c k (hfound p c k hk) (hdue p c hd)

/-- The slot of a process changes, and nobody falls asleep by it. -/
theorem SignalledFor.setSlot {x : Slot γ} (h : SignalledFor Due Owes s)
    (hx : x.status = .sleeping → (s.slots p).status = .sleeping) : SignalledFor Due Owes (s.setSlot p x) := by
  refine h.frame (fun q c hq => ?_) (fun _ _ => id) rfl (fun _ _ _ _ _ _ => id) fun _ _ _ => id
  rcases hq with hk | hk | ⟨hk, hsleep⟩
  · exact Or.inl hk
  · exact Or.inr (Or.inl hk)
  · refine Or.inr (Or.inr ⟨hk, ?_⟩)
    rw [State.setSlot_slots] at hsleep
    by_cases hqp : q = p
    · subst hqp
      rw [Function.update_self] at hsleep
      exact hx hsleep
    · rwa [Function.update_of_ne hqp] at hsleep

theorem SignalledFor.setData {data : β} (h : SignalledFor Due Owes s) (hdue : ∀ p c, Due p c data → Due p c s.data) :
    SignalledFor Due Owes (s.setData data) :=
  h.frame (fun _ _ => id) hdue rfl (fun _ _ _ _ _ _ => id) fun _ _ _ => id

section Steps
variable [DecidableEq η]

theorem setPc_pcs_of_ne {pc : Pc γ π} (h : a' ≠ a) : (s.setPc a pc).pcs a' = s.pcs a' := Function.update_of_ne h ..

theorem setPc_pcs_self {pc : Pc γ π} : (s.setPc a pc).pcs a = pc := Function.update_self ..

/-- A thread that ends up awake leaves the others as they are. -/
theorem drowsy_of_setPc {pc : Pc γ π} (h : Drowsy (s.setPc a pc) p c) (hpc : ¬pc.Lulled) : .inl p ≠ a ∧ Drowsy s p c := by
  have hne : .inl p ≠ a := by
    rintro rfl
    have hlulled := h.lulled
    rw [setPc_pcs_self] at hlulled
    exact hpc hlulled
  exact ⟨hne, (drowsy_congr (setPc_pcs_of_ne hne) rfl).mp h⟩

/-- A holder of the lock moves and keeps it, the data as they are. -/
theorem SignalledFor.setPc {pc : Pc γ π} (h : SignalledFor Due Owes s) (hl : Locked s) (ha : (s.pcs a).Holds)
    (hpc : (∃ k, pc = .at k) ∨ ∃ c j k, pc = .wakeup c j k)
    (hcovers : ∀ c p, .inl p ≠ a → Due p c s.data → Covers Owes a c p (s.pcs a) → Covers Owes a c p pc) :
    SignalledFor Due Owes (s.setPc a pc) := by
  have hawake : ¬pc.Lulled := by rcases hpc with ⟨_, rfl⟩ | ⟨_, _, _, rfl⟩ <;> exact not_false
  refine h.frame (fun p c hp => (drowsy_of_setPc hp hawake).2) (fun _ _ => id) rfl (fun b c p hb hp hd hc => ?_)
    fun p c k hk => ?_
  · obtain rfl : b = a := Option.some.inj (hb.symm.trans ((hl.holder a).mpr ha))
    rw [setPc_pcs_self]
    exact hcovers c p (drowsy_of_setPc hp hawake).1 hd hc
  · by_cases hne : .inl p = a
    · subst hne
      rw [setPc_pcs_self] at hk
      rcases hpc with ⟨_, rfl⟩ | ⟨_, _, _, rfl⟩ <;> rcases hk with hk | hk <;> cases hk
    · rwa [setPc_pcs_of_ne hne] at hk

/-- A thread that gives up the lock leaves nobody asleep who has something to do. -/
theorem SignalledFor.setLock {pc : Pc γ π} (h : SignalledFor Due Owes s) (hl : Locked s) (ha : (s.pcs a).Holds)
    (hpc : ¬pc.Holds) (hself : ∀ p c, .inl p = a → Drowsy ((s.setLock none).setPc a pc) p c → ¬Due p c s.data)
    (hothers : ∀ p c, Drowsy s p c → Due p c s.data → ¬Covers Owes a c p (s.pcs a)) :
    SignalledFor Due Owes ((s.setLock none).setPc a pc) where
  covered p c hp hd := by
    by_cases hne : .inl p = a
    · exact absurd hd (hself p c hne hp)
    · have hs : Drowsy s p c := (drowsy_congr (setPc_pcs_of_ne hne) rfl).mp hp
      obtain ⟨b, hb, hc⟩ := h.covered p c hs hd
      obtain rfl : b = a := Option.some.inj (hb.symm.trans ((hl.holder a).mpr ha))
      exact absurd hc (hothers p c hs hd)
  found p c k hk := by
    by_cases hne : .inl p = a
    · subst hne
      rw [setPc_pcs_self] at hk
      rcases hk with rfl | rfl <;> exact absurd trivial hpc
    · rw [setPc_pcs_of_ne hne] at hk
      have hp : (s.pcs (.inl p)).Holds := by rcases hk with hk | hk <;> rw [show s.pcs (.inl p) = _ from hk] <;> trivial
      exact absurd (hl.unique ha hp) hne

/-- A process without the lock moves: it was on its way to sleep or asleep if it is so then. -/
theorem SignalledFor.move {pc : Pc γ π} (h : SignalledFor Due Owes s) (hl : Locked s) (hpc : ¬pc.Holds)
    (hs : ¬(s.pcs (.inl p)).Holds) (hdrowsy : ∀ c, Drowsy (s.setPc (.inl p) pc) p c → Drowsy s p c) :
    SignalledFor Due Owes (s.setPc (.inl p) pc) := by
  refine h.frame (fun q c hq => ?_) (fun _ _ => id) rfl (fun b c q hb _ _ hc => ?_) fun q c k hk => ?_
  · by_cases hqp : q = p
    · subst hqp
      exact hdrowsy c hq
    · exact (drowsy_congr (setPc_pcs_of_ne fun heq => hqp (Sum.inl.inj heq)) rfl).mp hq
  · have hne : b ≠ .inl p := by
      rintro rfl
      exact hs ((hl.holder _).mp hb)
    rwa [setPc_pcs_of_ne hne]
  · by_cases hqp : q = p
    · subst hqp
      rw [setPc_pcs_self] at hk
      rcases hk with rfl | rfl <;> exact absurd trivial hpc
    · rwa [setPc_pcs_of_ne fun heq => hqp (Sum.inl.inj heq)] at hk

variable [DecidableEq γ]

/-- A process that has just been tested does not sleep on the channel. -/
theorem not_drowsy_wake {pc : Pc γ π} (hl : Locked s) (hfree : (s.slots q).lock = false) (hne : a ≠ .inl q) :
    ¬Drowsy ((s.setSlot q ((s.slots q).wake c)).setPc a pc) q c := by
  have hpc : ((s.setSlot q ((s.slots q).wake c)).setPc a pc).pcs (.inl q) = s.pcs (.inl q) := setPc_pcs_of_ne hne.symm
  have hdozes : ¬(s.pcs (.inl q)).Dozes := fun hd => by
    rw [(hl.slot q).mpr hd] at hfree
    cases hfree
  unfold Drowsy
  rw [hpc, State.setPc_slots, State.setSlot_slots, Function.update_self]
  rintro (⟨k, hk⟩ | ⟨k, hk⟩ | ⟨⟨k, hk⟩, hsleep⟩)
  · exact hdozes (by rw [hk]; trivial)
  · exact hdozes (by rw [hk]; trivial)
  · obtain ⟨hstatus, -⟩ := Slot.wake_sleeping hsleep
    obtain ⟨c', k', hchan, hk' | hk'⟩ := hl.sleeping q hstatus
    · rw [hk'] at hk
      cases hk
    · rw [hk] at hk'
      cases hk'
      rw [Slot.wake, if_pos ⟨hstatus, hchan⟩] at hsleep
      cases hsleep

theorem SignalledFor.step {l : Action n η ν ε × Event n η ρ} (sig : SignalsFor code N Due Owes) (hl : Locked s)
    (ho : Outlined N s) (h : SignalledFor Due Owes s) (hn : ¬StrandsFor code Due Owes s l)
    (hstep : Step code s l t) : SignalledFor Due Owes t := by
  cases step_inv hstep with
  | @acquire a next pc free =>
    have hnone : ∀ p c, Drowsy s p c → ¬Due p c s.data := fun p c hp hd => by
      obtain ⟨b, hb, -⟩ := h.covered p c hp hd
      rw [free] at hb
      cases hb
    refine ⟨fun p c hp hd => ?_, fun p c k hk => ?_⟩
    · exact absurd hd (hnone p c (drowsy_of_setPc hp (by exact not_false)).2)
    · by_cases hne : .inl p = a
      · subst hne
        rw [setPc_pcs_self] at hk
        rcases hk with hk | hk <;> cases hk
      · rw [setPc_pcs_of_ne hne] at hk
        have hp : (s.pcs (.inl p)).Holds := by rcases hk with hk | hk <;> rw [show s.pcs (.inl p) = _ from hk] <;> trivial
        rw [← hl.holder, free] at hp
        cases hp
  | @set a point next data pc op =>
    have hin := ho.inside (a := a) (k := point) (by rw [pc]; rfl)
    have ha : (s.pcs a).Holds := by rw [pc]; trivial
    refine ⟨fun p c hp hd => ⟨a, (hl.holder a).mpr ha, ?_⟩, fun p c k hk => ?_⟩
    · have hs : Drowsy s p c := (drowsy_of_setPc hp (by exact not_false)).2
      rw [setPc_pcs_self]
      refine sig.set ho.data hin op hd fun hd' => ?_
      obtain ⟨b, hb, hc⟩ := h.covered p c hs hd'
      obtain rfl : b = a := Option.some.inj (hb.symm.trans ((hl.holder a).mpr ha))
      rwa [pc] at hc
    · by_cases hne : .inl p = a
      · subst hne
        rw [setPc_pcs_self] at hk
        rcases hk with hk | hk <;> cases hk
      · rw [setPc_pcs_of_ne hne] at hk
        have hp : (s.pcs (.inl p)).Holds := by rcases hk with hk | hk <;> rw [show s.pcs (.inl p) = _ from hk] <;> trivial
        exact absurd (hl.unique ha hp) hne
  | @passes a point pc' pc passes =>
    have hin := ho.inside (a := a) (k := point) (by rw [pc]; rfl)
    have ha : (s.pcs a).Holds := by rw [pc]; trivial
    cases passes with
    | @wakeup chan next op =>
      refine h.setPc hl ha (Or.inr ⟨_, _, _, rfl⟩) fun c p _ hd hc => ?_
      rw [pc] at hc
      by_cases hchan : c = chan
      · exact Or.inl ⟨hchan.symm, Nat.zero_le _⟩
      · exact Or.inr (sig.wakeup ho.data hin op hchan hd hc)
    | @sleep chan next op =>
      obtain ⟨hzero, hnone⟩ := sig.sleep ho.data hin op
      refine ⟨fun p c hp hd => ?_, fun p c k hk => ?_⟩
      · have hs : Drowsy s p c := (drowsy_of_setPc hp (by exact not_false)).2
        obtain ⟨b, hb, hc⟩ := h.covered p c hs hd
        obtain rfl : b = a := Option.some.inj (hb.symm.trans ((hl.holder a).mpr ha))
        rw [pc] at hc
        exact absurd hd (hnone p c hc)
      · by_cases hne : .inl p = a
        · subst hne
          rw [setPc_pcs_self] at hk
          rcases hk with hk | hk <;> cases hk
          exact hzero p rfl
        · rw [setPc_pcs_of_ne hne] at hk
          exact h.found p c k hk
    | @killed p yes no self op free =>
      refine h.setPc hl ha (Or.inl ⟨_, rfl⟩) fun c q _ hd hc => ?_
      rw [pc] at hc
      obtain ⟨hyes, hno⟩ := sig.killed ho.data hin op hd hc
      show Owes a _ c
      split
      · exact hyes
      · exact hno
  | @release a point result pc op =>
    refine h.setLock hl (by rw [pc]; trivial) not_false (fun p c hp hdrowsy => ?_) fun p c hp hd hc => ?_
    · subst hp
      have hlulled := hdrowsy.lulled
      rw [setPc_pcs_self] at hlulled
      cases hlulled
    · rw [pc] at hc
      exact hn ⟨a, point, result, c, p, rfl, pc, op, hc, hd, hp⟩
  | @wakeupSelf p chan next pc =>
    refine h.setPc hl (by rw [pc]; trivial) (Or.inr ⟨_, _, _, rfl⟩) fun c q hq _ hc => ?_
    rw [pc] at hc
    rcases hc with ⟨heq, hle⟩ | howes
    · have hne : (q : Nat) ≠ p := fun heq => hq (congrArg Sum.inl (Fin.ext heq))
      exact Or.inl ⟨heq, by omega⟩
    · exact Or.inr howes
  | @wakeupTest a chan q next pc other free =>
    have ha : (s.pcs a).Holds := by rw [pc]; trivial
    refine h.frame (fun p c hp => ?_) (fun _ _ => id) rfl (fun b c p hb hp _ hc => ?_) fun p c k hk => ?_
    · have hs := (drowsy_of_setPc hp (by exact not_false)).2
      rcases hs with hk | hk | ⟨hk, hsleep⟩
      · exact Or.inl hk
      · exact Or.inr (Or.inl hk)
      · refine Or.inr (Or.inr ⟨hk, ?_⟩)
        rw [State.setSlot_slots] at hsleep
        by_cases hpq : p = q
        · subst hpq
          rw [Function.update_self] at hsleep
          exact (Slot.wake_sleeping hsleep).1
        · rwa [Function.update_of_ne hpq] at hsleep
    · obtain rfl : b = a := Option.some.inj (hb.symm.trans ((hl.holder a).mpr ha))
      rw [setPc_pcs_self]
      rw [pc] at hc
      rcases hc with ⟨rfl, hle⟩ | howes
      · have hne : p ≠ q := by
          rintro rfl
          exact not_drowsy_wake hl free other hp
        have hne' : (p : Nat) ≠ q := fun heq => hne (Fin.ext heq)
        exact Or.inl ⟨rfl, by omega⟩
      · exact Or.inr howes
    · by_cases hne : .inl p = a
      · subst hne
        rw [setPc_pcs_self] at hk
        rcases hk with hk | hk <;> cases hk
      · rwa [setPc_pcs_of_ne hne] at hk
  | @wakeupEnd a chan j next pc all =>
    refine h.setPc hl (by rw [pc]; trivial) (Or.inl ⟨_, rfl⟩) fun c q _ _ hc => ?_
    rw [pc] at hc
    rcases hc with ⟨-, hle⟩ | howes
    · exact absurd (Nat.lt_of_le_of_lt hle q.isLt) all
    · exact howes
  | @sleepAcquire p chan next pc free =>
    have ha : (s.pcs (.inl p)).Holds := by rw [pc]; trivial
    have hs : SignalledFor Due Owes (s.setSlot p { s.slots p with lock := true }) := h.setSlot id
    refine hs.frame (fun q c hq => (drowsy_of_setPc hq (by exact not_false)).2) (fun _ _ => id) rfl
      (fun b c q hb _ _ hc => ?_) fun q c k hk => ?_
    · obtain rfl : b = .inl p := Option.some.inj (hb.symm.trans ((hl.holder _).mpr ha))
      rw [show (s.setSlot p _).pcs (.inl p) = _ from pc] at hc
      cases hc
    · by_cases hqp : q = p
      · subst hqp
        rw [setPc_pcs_self] at hk
        rcases hk with hk | hk <;> cases hk
        exact Or.inl pc
      · rwa [setPc_pcs_of_ne fun heq => hqp (Sum.inl.inj heq)] at hk
  | @sleepRelease p chan next pc =>
    refine h.setLock hl (by rw [pc]; trivial) not_false (fun q c hq hdrowsy => ?_) fun q c _ _ hc => ?_
    · cases hq
      unfold Drowsy at hdrowsy
      rw [setPc_pcs_self] at hdrowsy
      rcases hdrowsy with ⟨_, hk⟩ | ⟨_, hk⟩ | ⟨⟨_, hk⟩, -⟩ <;> cases hk
      exact h.found p chan next (Or.inr pc)
    · rw [pc] at hc
      cases hc
  | @sleepMark p chan next pc =>
    -- The process is drowsy before this step and after it.
    have hne : ∀ b, s.lock = some b → b ≠ .inl p := by
      rintro b hb rfl
      have := (hl.holder _).mp hb
      rwa [pc] at this
    refine h.frame (fun q c hq => ?_) (fun _ _ => id) rfl (fun b c q hb _ _ hc => ?_) fun q c k hk => ?_
    · by_cases hqp : q = p
      · subst hqp
        unfold Drowsy at hq
        rw [setPc_pcs_self] at hq
        rcases hq with ⟨_, hk⟩ | ⟨_, hk⟩ | ⟨⟨_, hk⟩, -⟩ <;> cases hk
        exact Or.inl ⟨next, pc⟩
      · refine (drowsy_congr ?_ ?_).mp hq
        · exact setPc_pcs_of_ne fun heq => hqp (Sum.inl.inj heq)
        · rw [State.setPc_slots, State.setSlot_slots, Function.update_of_ne hqp]
    · rwa [setPc_pcs_of_ne (hne b hb)]
    · by_cases hqp : q = p
      · subst hqp
        rw [setPc_pcs_self] at hk
        rcases hk with hk | hk <;> cases hk
      · rwa [setPc_pcs_of_ne fun heq => hqp (Sum.inl.inj heq)] at hk
  | @sleepSwitch p chan next pc =>
    have hs : SignalledFor Due Owes (s.setSlot p { s.slots p with lock := false }) := h.setSlot id
    have hne : ∀ b, s.lock = some b → b ≠ .inl p := by
      rintro b hb rfl
      have := (hl.holder _).mp hb
      rwa [pc] at this
    refine hs.frame (fun q c hq => ?_) (fun _ _ => id) rfl (fun b c q hb _ _ hc => ?_) fun q c k hk => ?_
    · by_cases hqp : q = p
      · subst hqp
        unfold Drowsy at hq
        rw [setPc_pcs_self] at hq
        rcases hq with ⟨_, hk⟩ | ⟨_, hk⟩ | ⟨⟨_, hk⟩, -⟩ <;> cases hk
        exact Or.inr (Or.inl ⟨next, pc⟩)
      · exact (drowsy_congr (setPc_pcs_of_ne fun heq => hqp (Sum.inl.inj heq)) rfl).mp hq
    · rwa [setPc_pcs_of_ne (hne b hb)]
    · by_cases hqp : q = p
      · subst hqp
        rw [setPc_pcs_self] at hk
        rcases hk with hk | hk <;> cases hk
      · rwa [setPc_pcs_of_ne fun heq => hqp (Sum.inl.inj heq)] at hk
  | @resume p chan next pc runnable =>
    have hs : SignalledFor Due Owes (s.setSlot p { s.slots p with status := .running, chan := none }) := h.setSlot nofun
    have hl' : Locked (s.setSlot p { s.slots p with status := .running, chan := none }) := hl.setSlot rfl nofun
    refine hs.move hl' not_false (by rw [State.setSlot_pcs, pc]; exact not_false) fun c hdrowsy => ?_
    exact (drowsy_of_setPc hdrowsy (by exact not_false)).2
  | @call a request data next pc enter =>
    have hs : SignalledFor Due Owes (s.setData data) := h.setData fun _ c hd => sig.enter ho.data enter hd
    refine hs.frame (fun q c hq => (drowsy_of_setPc hq (by exact not_false)).2) (fun _ _ => id) rfl
      (fun b c q hb _ _ hc => ?_) fun q c k hk => ?_
    · have hne : b ≠ a := by
        rintro rfl
        have := (hl.holder _).mp hb
        rwa [pc] at this
      rwa [setPc_pcs_of_ne hne]
    · by_cases hne : .inl q = a
      · subst hne
        rw [setPc_pcs_self] at hk
        rcases hk with hk | hk <;> cases hk
      · rwa [setPc_pcs_of_ne hne] at hk
  | callOut pc enter => exact h.setData fun _ c hd => sig.enter ho.data enter hd
  | kill free => exact h.setSlot fun hsleep => (Slot.kill_sleeping hsleep).1
  | env henv => exact h.setData fun _ c hd => sig.env ho.data henv hd

/-- In every state of a run that strands nobody, who sleeps has nothing to do or is about to be woken. -/
theorem SignalsFor.run {ls : List (Action n η ν ε × Event n η ρ)} (code_ok : Outline code Ok N)
    (sig : SignalsFor code N Due Owes) (hboot : Boot s) (hs : Outlined N s) (hok : ∀ l ∈ ls, CallOk Ok l)
    (hall : Transition.AllSteps (Step code) s ls fun u l => ¬StrandsFor code Due Owes u l)
    (hrun : Transition.Run (Step code) s ls t) : SignalledFor Due Owes t := by
  have h : (Locked t ∧ Outlined N t) ∧ SignalledFor Due Owes t :=
    ((Transition.AllSteps.of_mem fun l hl _ => hok l hl).and hall).invariant
      (P := fun u => (Locked u ∧ Outlined N u) ∧ SignalledFor Due Owes u)
      (fun _ _ _ hu hC hT =>
        ⟨⟨locked_step hu.1.1 hT, hu.1.2.step code_ok hu.1.1 hC.1 hT⟩, hu.2.step sig hu.1.1 hu.1.2 hC.2 hT⟩)
      ⟨⟨.boot hboot, hs⟩, .boot hboot⟩ hrun
  exact h.2

end Steps

/-- In a state with the lock free nobody sleeps who has something to do. -/
theorem SignalledFor.not_due (h : SignalledFor Due Owes s) (hl : Locked s) (hfree : s.lock = none)
    (hsleep : (s.slots p).status = .sleeping) (hchan : (s.slots p).chan = some c) : ¬Due p c s.data := by
  obtain ⟨c', k, hc', hpc⟩ := hl.sleeping p hsleep
  obtain rfl : c' = c := Option.some.inj (hc'.symm.trans hchan)
  intro hdue
  have hdrowsy : Drowsy s p c' := by
    rcases hpc with hpc | hpc
    · exact Or.inr (Or.inl ⟨k, hpc⟩)
    · exact Or.inr (Or.inr ⟨⟨k, hpc⟩, hsleep⟩)
  obtain ⟨a, ha, -⟩ := h.covered p c' hdrowsy hdue
  rw [hfree] at ha
  cases ha

/-! ### One reason for all that sleep on a channel -/

/-- `Due c` says that who sleeps on `c` has something to do. -/
structure Signals (code : Code n η γ β π ρ ν ε) (N : Notes n η β π) (Due : γ → β → Prop)
    (Owes : Thread n η → π → γ → Prop) : Prop where
  set : ∀ {a k b b' k' c}, N.always b → N.inside a k b → code.op a k b = .set b' k' → Due c b' →
    (Due c b → Owes a k c) → Owes a k' c
  wakeup : ∀ {a k b c k' c'}, N.always b → N.inside a k b → code.op a k b = .wakeup c k' → c' ≠ c → Due c' b →
    Owes a k c' → Owes a k' c'
  sleep : ∀ {a k b c k'}, N.always b → N.inside a k b → code.op a k b = .sleep c k' →
    ¬Due c b ∧ ∀ c', Owes a k c' → ¬Due c' b
  killed : ∀ {a k b yes no c}, N.always b → N.inside a k b → code.op a k b = .killed yes no → Due c b → Owes a k c →
    Owes a yes c ∧ Owes a no c
  enter : ∀ {a r b b' o c}, N.always b → code.enter a r b = some (b', o) → Due c b' → Due c b
  env : ∀ {e b b' c}, N.always b → code.env e b = some b' → Due c b' → Due c b

section
variable {Due : γ → β → Prop} {Owes : Thread n η → π → γ → Prop}

/-- Who sleeps has nothing to do or is about to be woken. -/
structure Signalled (Due : γ → β → Prop) (Owes : Thread n η → π → γ → Prop) (s : State n η γ β π) : Prop where
  covered : ∀ p c, Drowsy s p c → Due c s.data → ∃ a, s.lock = some a ∧ Covers Owes a c p (s.pcs a)
  /-- Who is about to give up the lock has just found nothing to do. -/
  found : ∀ p c k, s.pcs (.inl p) = .sleepAcquire c k ∨ s.pcs (.inl p) = .sleepRelease c k → ¬Due c s.data

/-- The step gives up the lock with a wakeup owed to a process that sleeps. -/
def Strands (code : Code n η γ β π ρ ν ε) (Due : γ → β → Prop) (Owes : Thread n η → π → γ → Prop) (s : State n η γ β π)
    (l : Action n η ν ε × Event n η ρ) : Prop :=
  ∃ a k result c p, l.1 = .step a ∧ s.pcs a = .at k ∧ code.op a k s.data = .release result ∧ Owes a k c ∧ Due c s.data ∧
    Drowsy s p c

theorem Signals.each (sig : Signals code N Due Owes) : SignalsFor code N (fun _ => Due) Owes where
  set := sig.set
  wakeup := sig.wakeup
  sleep halways hin hop :=
    have h := sig.sleep halways hin hop
    ⟨fun _ _ => h.1, fun _ => h.2⟩
  killed := sig.killed
  enter := sig.enter
  env := sig.env

theorem SignalledFor.all (h : SignalledFor (fun _ => Due) Owes s) : Signalled Due Owes s := ⟨h.covered, h.found⟩

theorem Signalled.each (h : Signalled Due Owes s) : SignalledFor (fun _ => Due) Owes s := ⟨h.covered, h.found⟩

/-- In every state of a run that strands nobody, who sleeps has nothing to do or is about to be woken. -/
theorem Signals.run [DecidableEq η] [DecidableEq γ] {ls : List (Action n η ν ε × Event n η ρ)} (code_ok : Outline code Ok N)
    (sig : Signals code N Due Owes) (hboot : Boot s) (hs : Outlined N s) (hok : ∀ l ∈ ls, CallOk Ok l)
    (hall : Transition.AllSteps (Step code) s ls fun u l => ¬Strands code Due Owes u l)
    (hrun : Transition.Run (Step code) s ls t) : Signalled Due Owes t :=
  (sig.each.run code_ok hboot hs hok hall hrun).all

/-- In a state with the lock free nobody sleeps who has something to do. -/
theorem Signalled.not_due (h : Signalled Due Owes s) (hl : Locked s) (hfree : s.lock = none)
    (hsleep : (s.slots p).status = .sleeping) (hchan : (s.slots p).chan = some c) : ¬Due c s.data :=
  h.each.not_due hl hfree hsleep hchan

end

end LabSO.Monitor

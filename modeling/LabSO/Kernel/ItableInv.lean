import LabSO.Kernel.Itable
import Mathlib.Data.Multiset.Count

/-! The steps of the inode table one by one, and the references and locks that they keep whatever the processes do. -/

namespace LabSO.Itable
open Kernel (NINODE Dinode)
open Transition

variable {P : Type*} {s t : State P} {ino : Ino} {i j : Fin NINODE}

theorem lookup_found (h : s.lookup ino = some i) : 0 < (s.entry i).ref ∧ (s.entry i).toIno = ino := by
  simpa using List.find?_some h

theorem lookup_missed (h : s.lookup ino = none) (hi : 0 < (s.entry i).ref) : (s.entry i).toIno ≠ ino := by
  simpa [hi] using List.find?_eq_none.mp h i (List.mem_finRange i)

theorem empty_found (h : s.empty = some i) : (s.entry i).ref = 0 := by
  simpa using List.find?_some h

theorem empty_missed (h : s.empty = none) (i : Fin NINODE) : (s.entry i).ref ≠ 0 := by
  simpa using List.find?_eq_none.mp h i (List.mem_finRange i)

/-! ### Steps -/

variable [DecidableEq P] {a : Action P} {e : Event} {p q : P}

/-- The action comes to the critical section of `iget`. -/
inductive Gets (s : State P) : Action P → P → Ino → Prop
  | call {p : P} {ino : Ino} (hpc : s.pc p = .idle) : Gets s (.call p (.iget ino)) p ino
  | next {p : P} {ino : Ino} (hpc : s.pc p = .getting ino) : Gets s (.next p) p ino

/-- `iput` finds that the inode is to be freed. -/
def State.Frees (s : State P) (i : Fin NINODE) : Prop :=
  (s.entry i).ref = 1 ∧ (s.entry i).valid = true ∧ (s.entry i).nlink = 0

/-- What the steps of the table do. -/
inductive Move (s : State P) : Action P → State P → Prop
  | found {a : Action P} {p : P} {ino : Ino} {i : Fin NINODE} (hget : Gets s a p ino) (hi : s.lookup ino = some i) :
      Move s a ((s.addRef i p).setPc p .idle)
  | recycle {a : Action P} {p : P} {ino : Ino} {i : Fin NINODE} (hget : Gets s a p ino) (hmiss : s.lookup ino = none)
      (hi : s.empty = some i) : Move s a ((s.recycle i ino p).setPc p .idle)
  | noInodes {a : Action P} {p : P} {ino : Ino} (hget : Gets s a p ino) (hmiss : s.lookup ino = none) (hi : s.empty = none) :
      Move s a (s.panic "iget: no inodes")
  | panic {a : Action P} {msg : String} (hmsg : msg ≠ "iget: no inodes") : Move s a (s.panic msg)
  | idup {p : P} {i : Fin NINODE} (hpc : s.pc p = .idle) (hp : p ∈ s.refs i) : Move s (.call p (.idup i)) (s.addRef i p)
  | ilock {p : P} {i : Fin NINODE} (hpc : s.pc p = .idle) (hp : p ∈ s.refs i) :
      Move s (.call p (.ilock i)) (s.setPc p (.acquiring i))
  | iunlock {p : P} {i : Fin NINODE} (hpc : s.pc p = .idle) (hlock : (s.entry i).lock = some p) :
      Move s (.call p (.iunlock i)) (s.setEntry i { s.entry i with lock := none })
  | iput {p : P} {i : Fin NINODE} (hpc : s.pc p = .idle) (hspare : s.Spare p i) (hkeep : ¬ s.Frees i) :
      Move s (.call p (.iput i)) (s.dropRef i p)
  | test {p : P} {i : Fin NINODE} (hpc : s.pc p = .idle) (hspare : s.Spare p i) (hfree : s.Frees i)
      (hlock : (s.entry i).lock = none) :
      Move s (.call p (.iput i)) ((s.setEntry i { s.entry i with lock := some p }).setPc p (.trunc i))
  | ialloc {p : P} {ino : Ino} {type : Int16} (hpc : s.pc p = .idle) (hzero : (s.disk ino).type = 0) (htype : type ≠ 0) :
      Move s (.call p (.ialloc ino type)) { (s.setDisk ino { Dinode.zero with type }).setPc p (.getting ino) with
        allocs := Function.update s.allocs ino (s.allocs ino + 1) }
  | change {p : P} {i : Fin NINODE} {d : Dinode} (hpc : s.pc p = .idle) (hlock : (s.entry i).lock = some p) :
      Move s (.call p (.change i d))
        ((s.setEntry i { s.entry i with toDinode := { d with type := (s.entry i).type } }).setChanged i true)
  | iupdate {p : P} {i : Fin NINODE} (hpc : s.pc p = .idle) (hlock : (s.entry i).lock = some p) :
      Move s (.call p (.iupdate i)) ((s.setDisk (s.entry i).toIno (s.entry i).toDinode).setChanged i false)
  | acquire {p : P} {i : Fin NINODE} (hpc : s.pc p = .acquiring i) (hfree : (s.entry i).lock = none) :
      Move s (.next p) ((s.setEntry i { s.entry i with lock := some p }).setPc p (.locked i))
  | hit {p : P} {i : Fin NINODE} (hpc : s.pc p = .locked i) (hvalid : (s.entry i).valid = true) :
      Move s (.next p) (s.setPc p .idle)
  | noType {p : P} {i : Fin NINODE} (hpc : s.pc p = .locked i) (hvalid : (s.entry i).valid = false)
      (hzero : (s.disk (s.entry i).toIno).type = 0) : Move s (.next p) ((s.load i).panic "ilock: no type")
  | load {p : P} {i : Fin NINODE} (hpc : s.pc p = .locked i) (hvalid : (s.entry i).valid = false)
      (htype : (s.disk (s.entry i).toIno).type ≠ 0) : Move s (.next p) ((s.load i).setPc p .idle)
  | itrunc {p : P} {i : Fin NINODE} (hpc : s.pc p = .trunc i) : Move s (.next p) ((s.itrunc i).setPc p (.free i))
  | ifree {p : P} {i : Fin NINODE} (hpc : s.pc p = .free i) : Move s (.next p) ((s.ifree i).setPc p (.clear i))
  | clear {p : P} {i : Fin NINODE} (hpc : s.pc p = .clear i) :
      Move s (.next p) ((s.setEntry i { s.entry i with valid := false, lock := none }).setPc p (.drop i))
  | drop {p : P} {i : Fin NINODE} (hpc : s.pc p = .drop i) : Move s (.next p) ((s.dropRef i p).setPc p .idle)
  | pass {p q : P} {i : Fin NINODE} (hspare : s.Spare p i) :
      Move s (.pass p i q) (s.setRefs i (q ::ₘ (s.refs i).erase p))

theorem move_iget {e : Event} (hget : Gets s a p ino) (h : s.iget p ino = (e, t)) : Move s a t := by
  rw [State.iget] at h
  split at h
  · cases h
    exact .found hget ‹_›
  · split at h <;> cases h
    · exact .recycle hget ‹_› ‹_›
    · exact .noInodes hget ‹_› ‹_›

theorem move_enter {c : Call} (hpc : s.pc p = .idle) (h : s.enter p c = some (e, t)) : Move s (.call p c) t := by
  cases c with
  | iget ino => exact move_iget (.call hpc) (Option.some.inj h)
  | idup i =>
    rw [State.enter] at h
    split at h <;> cases h
    exact .idup hpc ‹_›
  | ilock i =>
    rw [State.enter] at h
    split at h <;> cases h
    split
    · exact .panic (by decide)
    · exact .ilock hpc ‹_›
  | iunlock i =>
    rw [State.enter] at h
    cases h
    split
    · exact .panic (by decide)
    · next hheld => exact .iunlock hpc (not_not.mp (not_or.mp hheld).1)
  | iput i =>
    rw [State.enter] at h
    split at h <;> cases h
    rw [State.iput]
    split
    · next hfree =>
      split
      · exact .test hpc ‹_› hfree ‹_›
      · exact .panic (by decide)
    · next hkeep => exact .iput hpc ‹_› hkeep
  | ialloc ino type =>
    rw [State.enter] at h
    split at h <;> cases h
    next hzero => exact .ialloc hpc hzero.1 hzero.2
  | change i d =>
    rw [State.enter] at h
    split at h <;> cases h
    exact .change hpc ‹_›
  | iupdate i =>
    rw [State.enter] at h
    split at h <;> cases h
    exact .iupdate hpc ‹_›

theorem move_continue (h : s.continue p = some (e, t)) : Move s (.next p) t := by
  rw [State.continue] at h
  split at h
  · cases h
  · split at h <;> cases h
    exact .acquire ‹_› ‹_›
  · cases h
    split
    · exact .hit ‹_› ‹_›
    · next hvalid =>
      split
      · exact .noType ‹_› (Bool.eq_false_of_not_eq_true hvalid) ‹_›
      · exact .load ‹_› (Bool.eq_false_of_not_eq_true hvalid) ‹_›
  · cases h
    exact .itrunc ‹_›
  · cases h
    exact .ifree ‹_›
  · cases h
    exact .clear ‹_›
  · cases h
    exact .drop ‹_›
  · exact move_iget (.next ‹_›) (Option.some.inj h)

theorem move_of_step {l : Action P × Event} (h : Step s l t) : Move s l.1 t := by
  obtain ⟨a, e⟩ := l
  have hstep : step s a = some (e, t) := h
  unfold step at hstep
  split at hstep
  · cases hstep
  · split at hstep
    · split at hstep
      · exact move_enter ‹_› hstep
      · cases hstep
    · exact move_continue hstep
    · split at hstep <;> cases hstep
      exact .pass ‹_›

/-! ### References -/

/-- The entry whose sleep-lock a process holds in the middle of a function. -/
def Pc.holds : Pc → Option (Fin NINODE)
  | .locked i | .trunc i | .free i | .clear i => some i
  | .idle | .acquiring _ | .drop _ | .getting _ => none

theorem Pc.uses_of_holds {c : Pc} (h : c.holds = some i) : c.uses = some i := by
  cases c <;> first | exact h | cases h

/-- Whoever uses or has locked an inode has a reference, and `ref` counts the references modulo 2^32. -/
structure Refs (s : State P) : Prop where
  count : ∀ i, (s.entry i).ref = .ofNat (s.refs i).card
  uses : ∀ {p i}, (s.pc p).uses = some i → p ∈ s.refs i
  locks : ∀ {p i}, (s.entry i).lock = some p → p ∈ s.refs i
  holds : ∀ {p i}, (s.pc p).holds = some i → (s.entry i).lock = some p
  drops : ∀ {p i}, s.pc p = .drop i → (s.entry i).lock ≠ some p

omit [DecidableEq P] in
theorem refs_init (disk : Ino → Dinode) : Refs (State.init disk : State P) where
  count _ := rfl
  uses := nofun
  locks := nofun
  holds := nofun
  drops := nofun

/-- A process goes on by a step that concerns one entry. -/
theorem Refs.update {x : Entry P} {c : Pc} {m : Multiset P} (hr : Refs s) (hentry : t.entry = Function.update s.entry i x)
    (hpc : t.pc = Function.update s.pc p c) (hrefs : t.refs = Function.update s.refs i m)
    (hcount : x.ref = .ofNat m.card) (hkeep : ∀ q, q ≠ p → q ∈ s.refs i → q ∈ m)
    (hlock : ∀ q, q ≠ p → (x.lock = some q ↔ (s.entry i).lock = some q)) (hmem : c.uses = some i ∨ x.lock = some p → p ∈ m)
    (huses : ∀ j, c.uses = some j → j = i) (hholds : ∀ j, c.holds = some j → x.lock = some p)
    (hdrops : c = .drop i → x.lock ≠ some p) : Refs t where
  count j := by
    rw [hentry, hrefs]
    rcases eq_or_ne j i with rfl | hne
    · rw [Function.update_self, Function.update_self, hcount]
    · rw [Function.update_of_ne hne, Function.update_of_ne hne, hr.count]
  uses {q j} h := by
    rw [hpc] at h
    rw [hrefs]
    rcases eq_or_ne q p with rfl | hqp
    · rw [Function.update_self] at h
      obtain rfl := huses j h
      rw [Function.update_self]
      exact hmem (Or.inl h)
    · rw [Function.update_of_ne hqp] at h
      rcases eq_or_ne j i with rfl | hne
      · rw [Function.update_self]
        exact hkeep q hqp (hr.uses h)
      · rw [Function.update_of_ne hne]
        exact hr.uses h
  locks {q j} h := by
    rw [hentry] at h
    rw [hrefs]
    rcases eq_or_ne j i with rfl | hne
    · rw [Function.update_self] at h ⊢
      rcases eq_or_ne q p with rfl | hqp
      · exact hmem (Or.inr h)
      · exact hkeep q hqp (hr.locks ((hlock q hqp).mp h))
    · rw [Function.update_of_ne hne] at h ⊢
      exact hr.locks h
  holds {q j} h := by
    rw [hpc] at h
    rw [hentry]
    rcases eq_or_ne q p with rfl | hqp
    · rw [Function.update_self] at h
      obtain rfl := huses j (Pc.uses_of_holds h)
      rw [Function.update_self]
      exact hholds j h
    · rw [Function.update_of_ne hqp] at h
      rcases eq_or_ne j i with rfl | hne
      · rw [Function.update_self]
        exact (hlock q hqp).mpr (hr.holds h)
      · rw [Function.update_of_ne hne]
        exact hr.holds h
  drops {q j} h := by
    rw [hpc] at h
    rw [hentry]
    rcases eq_or_ne q p with rfl | hqp
    · rw [Function.update_self] at h
      obtain rfl := huses j (by rw [h]; rfl)
      rw [Function.update_self]
      exact hdrops h
    · rw [Function.update_of_ne hqp] at h
      rcases eq_or_ne j i with rfl | hne
      · rw [Function.update_self]
        exact mt (hlock q hqp).mp (hr.drops h)
      · rw [Function.update_of_ne hne]
        exact hr.drops h

omit [DecidableEq P] in
theorem ofNat_cons (m : Multiset P) (p : P) : Int32.ofNat (p ::ₘ m).card = .ofNat m.card + 1 := by
  rw [Multiset.card_cons, Int32.ofNat_add]
  rfl

theorem ofNat_erase {m : Multiset P} (h : p ∈ m) : Int32.ofNat (m.erase p).card = .ofNat m.card - 1 := by
  conv_rhs => rw [← Multiset.cons_erase h]
  rw [ofNat_cons]
  simp

theorem mem_of_spare (h : s.Spare p i) : p ∈ s.refs i := Multiset.count_pos.mp (Nat.zero_lt_of_lt h)

/-- A process that drops a spare reference keeps the one that it needs. -/
theorem mem_erase_of_spare (h : s.Spare p i) (hp : (s.entry i).lock = some p ∨ (s.pc p).uses = some i) :
    p ∈ (s.refs i).erase p := by
  rw [State.Spare, if_pos hp] at h
  refine Multiset.count_pos.mp ?_
  rw [Multiset.count_erase_self]
  omega

theorem Refs.pass (hr : Refs s) (hspare : s.Spare p i) : Refs (s.setRefs i (q ::ₘ (s.refs i).erase p)) := by
  have hmem : ∀ {r j}, (s.entry j).lock = some r ∨ (s.pc r).uses = some j →
      r ∈ Function.update s.refs i (q ::ₘ (s.refs i).erase p) j := by
    intro r j hrj
    have hold : r ∈ s.refs j := hrj.elim hr.locks hr.uses
    rcases eq_or_ne j i with rfl | hne
    · rw [Function.update_self]
      refine Multiset.mem_cons_of_mem ?_
      rcases eq_or_ne r p with rfl | hrp
      · exact mem_erase_of_spare hspare hrj
      · exact (Multiset.mem_erase_of_ne hrp).mpr hold
    · rwa [Function.update_of_ne hne]
  refine ⟨fun j => ?_, fun h => hmem (Or.inr h), fun h => hmem (Or.inl h), hr.holds, hr.drops⟩
  show (s.entry j).ref = .ofNat (Function.update s.refs i _ j).card
  rcases eq_or_ne j i with rfl | hne
  · rw [Function.update_self, ofNat_cons, ofNat_erase (mem_of_spare hspare), hr.count]
    simp
  · rw [Function.update_of_ne hne, hr.count]

theorem Move.refs (hr : Refs s) (h : Move s a t) : Refs t := by
  have hsame : ∀ i, Function.update s.refs i (s.refs i) = s.refs := fun i => Function.update_eq_self ..
  have hpcSame : ∀ p, Function.update s.pc p (s.pc p) = s.pc := fun p => Function.update_eq_self ..
  have hcons : ∀ i p, (s.entry i).ref + 1 = .ofNat (p ::ₘ s.refs i).card := by
    intro i p
    rw [ofNat_cons, hr.count]
  have herase : ∀ {i p}, p ∈ s.refs i → (s.entry i).ref - 1 = .ofNat ((s.refs i).erase p).card := by
    intro i p hp
    rw [ofNat_erase hp, hr.count]
  have hlocked : ∀ {i p q}, (s.entry i).lock = some p → q ≠ p → ((none : Option P) = some q ↔ (s.entry i).lock = some q) := by
    intro i p q hlock hq
    rw [hlock]
    exact ⟨nofun, fun h => absurd (Option.some.inj h).symm hq⟩
  have hfree : ∀ {i p q}, (s.entry i).lock = none → q ≠ p → (some p = some q ↔ (s.entry i).lock = some q) := by
    intro i p q hlock hq
    rw [hlock]
    exact ⟨fun h => absurd (Option.some.inj h).symm hq, nofun⟩
  cases h with
  | @found a p ino i hget hi =>
    refine hr.update (c := .idle) rfl rfl rfl (hcons i p) (fun q _ => Multiset.mem_cons_of_mem) (fun _ _ => Iff.rfl)
      (fun _ => Multiset.mem_cons_self p _) nofun nofun nofun
  | @recycle a p ino i hget hmiss hi =>
    -- the counter was 0, so the number of references is a multiple of 2^32
    have hone : (1 : Int32) = .ofNat (p ::ₘ s.refs i).card := by
      rw [← hcons, empty_found hi]
      rfl
    exact hr.update (c := .idle) rfl rfl rfl hone (fun q _ => Multiset.mem_cons_of_mem) (fun _ _ => Iff.rfl)
      (fun _ => Multiset.mem_cons_self p _) nofun nofun nofun
  | noInodes | panic => exact ⟨hr.count, hr.uses, hr.locks, hr.holds, hr.drops⟩
  | @idup p i hpc hp =>
    refine hr.update (c := s.pc p) rfl (hpcSame p).symm rfl (hcons i p) (fun q _ => Multiset.mem_cons_of_mem)
      (fun _ _ => Iff.rfl) (fun _ => Multiset.mem_cons_self p _) ?_ ?_ ?_
    all_goals
      rw [hpc]
      nofun
  | @ilock p i hpc hp =>
    exact hr.update (i := i) (c := .acquiring i) (Function.update_eq_self ..).symm rfl (hsame i).symm (hr.count i)
      (fun _ _ => id) (fun _ _ => Iff.rfl) (fun _ => hp) (fun j h => (Option.some.inj h).symm) nofun nofun
  | @iunlock p i hpc hlock =>
    refine hr.update (p := p) (c := s.pc p) rfl (hpcSame p).symm (hsame i).symm (hr.count i) (fun _ _ => id)
      (fun q hq => hlocked hlock hq) (fun _ => hr.locks hlock) ?_ ?_ ?_
    all_goals
      rw [hpc]
      nofun
  | @iput p i hpc hspare hkeep =>
    refine hr.update (c := s.pc p) rfl (hpcSame p).symm rfl (herase (mem_of_spare hspare))
      (fun q hq => (Multiset.mem_erase_of_ne hq).mpr) (fun _ _ => Iff.rfl) (fun h => mem_erase_of_spare hspare h.symm) ?_ ?_ ?_
    all_goals
      rw [hpc]
      nofun
  | @test p i hpc hspare hfrees hlock =>
    exact hr.update (c := .trunc i) rfl rfl (hsame i).symm (hr.count i) (fun _ _ => id) (fun q hq => hfree hlock hq)
      (fun _ => mem_of_spare hspare) (fun j h => (Option.some.inj h).symm) (fun _ _ => rfl) nofun
  | @ialloc p ino type hpc hzero htype =>
    exact hr.update (i := ⟨0, by decide⟩) (c := .getting ino) (Function.update_eq_self ..).symm rfl (hsame _).symm
      (hr.count _) (fun _ _ => id) (fun _ _ => Iff.rfl) (fun h => h.elim nofun hr.locks) nofun nofun nofun
  | @change p i d hpc hlock =>
    refine hr.update (p := p) (c := s.pc p) rfl (hpcSame p).symm (hsame i).symm (hr.count i) (fun _ _ => id)
      (fun _ _ => Iff.rfl) (fun _ => hr.locks hlock) ?_ ?_ ?_
    all_goals
      rw [hpc]
      nofun
  | iupdate => exact ⟨hr.count, hr.uses, hr.locks, hr.holds, hr.drops⟩
  | @acquire p i hpc hlock =>
    exact hr.update (c := .locked i) rfl rfl (hsame i).symm (hr.count i) (fun _ _ => id) (fun q hq => hfree hlock hq)
      (fun _ => hr.uses (by rw [hpc]; rfl)) (fun j h => (Option.some.inj h).symm) (fun _ _ => rfl) nofun
  | @hit p i hpc hvalid =>
    exact hr.update (i := i) (c := .idle) (Function.update_eq_self ..).symm rfl (hsame i).symm (hr.count i)
      (fun _ _ => id) (fun _ _ => Iff.rfl) (fun h => h.elim nofun hr.locks) nofun nofun nofun
  | @noType p i hpc hvalid hzero =>
    have hlock : (s.entry i).lock = some p := hr.holds (by rw [hpc]; rfl)
    exact hr.update (c := .locked i) rfl ((hpcSame p).symm.trans (congrArg _ hpc)) (hsame i).symm (hr.count i)
      (fun _ _ => id) (fun _ _ => Iff.rfl) (fun _ => hr.locks hlock) (fun j h => (Option.some.inj h).symm)
      (fun _ _ => hlock) nofun
  | @load p i hpc hvalid htype =>
    exact hr.update (c := .idle) rfl rfl (hsame i).symm (hr.count i) (fun _ _ => id) (fun _ _ => Iff.rfl)
      (fun h => h.elim nofun hr.locks) nofun nofun nofun
  | @itrunc p i hpc =>
    have hlock : (s.entry i).lock = some p := hr.holds (by rw [hpc]; rfl)
    exact hr.update (c := .free i) rfl rfl (hsame i).symm (hr.count i) (fun _ _ => id) (fun _ _ => Iff.rfl)
      (fun _ => hr.locks hlock) (fun j h => (Option.some.inj h).symm) (fun _ _ => hlock) nofun
  | @ifree p i hpc =>
    have hlock : (s.entry i).lock = some p := hr.holds (by rw [hpc]; rfl)
    exact hr.update (c := .clear i) rfl rfl (hsame i).symm (hr.count i) (fun _ _ => id) (fun _ _ => Iff.rfl)
      (fun _ => hr.locks hlock) (fun j h => (Option.some.inj h).symm) (fun _ _ => hlock) nofun
  | @clear p i hpc =>
    have hlock : (s.entry i).lock = some p := hr.holds (by rw [hpc]; rfl)
    exact hr.update (c := .drop i) rfl rfl (hsame i).symm (hr.count i) (fun _ _ => id) (fun q hq => hlocked hlock hq)
      (fun _ => hr.locks hlock) (fun j h => (Option.some.inj h).symm) nofun nofun
  | @drop p i hpc =>
    have hp : p ∈ s.refs i := hr.uses (by rw [hpc]; rfl)
    exact hr.update (c := .idle) rfl rfl rfl (herase hp) (fun q hq => (Multiset.mem_erase_of_ne hq).mpr)
      (fun _ _ => Iff.rfl) (fun h => h.elim nofun fun hlock => absurd hlock (hr.drops hpc)) nofun nofun nofun
  | pass hspare => exact hr.pass hspare

end LabSO.Itable

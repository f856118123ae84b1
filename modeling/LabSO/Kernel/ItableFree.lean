import LabSO.Kernel.ItableRun

/-! When `iput` frees an inode, and what the table is like in every run. -/

namespace LabSO.Itable
open Kernel (NINODE Dinode)
open Transition

variable {P : Type*} [DecidableEq P] {s t u : State P} {a : Action P} {l : Action P × Event} {ls ms ns : List (Action P × Event)}
  {ino : Ino} {i j : Fin NINODE} {p q : P} {disk : Ino → Dinode}

/-! ### Steps that free inodes and drop last references -/

omit [DecidableEq P] in
theorem refs_ne_zero (hp : p ∈ s.refs i) : s.refs i ≠ 0 := fun hzero => Multiset.notMem_zero _ (hzero ▸ hp)

/-- An inode is freed only by an `iput` that has truncated it. -/
theorem Move.freed (hr : Refs s) (hrun : s.panicked = none) (hs : Sound disk s) (h : Move s a t)
    (hne : (s.disk ino).type ≠ 0) (hzero : (t.disk ino).type = 0) :
    ∃ p i, a = .next p ∧ s.pc p = .free i ∧ (s.entry i).toIno = ino := by
  have hwrite : ∀ {k d}, t.disk = Function.update s.disk k d → k = ino ∧ d.type = 0 := by
    intro k d hdisk
    rw [hdisk] at hzero
    rcases eq_or_ne k ino with rfl | hk
    · rw [Function.update_self] at hzero
      exact ⟨rfl, hzero⟩
    · rw [Function.update_of_ne hk.symm] at hzero
      exact absurd hzero hne
  have htyped : ∀ {i p}, (s.entry i).lock = some p → s.role i ≠ some (.clear i) → s.role i ≠ some (.locked i) →
      (s.entry i).type ≠ 0 := by
    intro i p hlock hclear hlocked
    have hok := hs.ok i (refs_ne_zero (hr.locks hlock))
    obtain ⟨c, hc⟩ : ∃ c, s.role i = some c := by
      rw [State.role, hlock]
      exact ⟨_, rfl⟩
    refine hok.typed (not_not.mpr hrun) (hok.valid c hc ?_) hclear
    rintro rfl
    exact hlocked hc
  cases h with
  | @ialloc p k type hpc hfree htype => exact absurd (hwrite rfl).2 htype
  | @iupdate p i hpc hlock =>
    have hrole := role_of_idle hlock hpc
    exact absurd (hwrite rfl).2 (htyped hlock (by rw [hrole]; rintro ⟨⟩) (by rw [hrole]; rintro ⟨⟩))
  | @itrunc p i hpc =>
    have hholds : (s.pc p).holds = some i := by rw [hpc]; rfl
    have hlock := hr.holds hholds
    have hrole := role_of_holds hlock hholds
    exact absurd (hwrite rfl).2 (htyped hlock (by rw [hrole, hpc]; rintro ⟨⟩) (by rw [hrole, hpc]; rintro ⟨⟩))
  | @ifree p i hpc => exact ⟨p, i, rfl, hpc, (hwrite rfl).1⟩
  | _ => exact absurd hzero hne

theorem refs_eq_singleton {m : Multiset P} (hp : p ∈ m) (hzero : m.erase p = 0) : m = {p} := by
  rw [← Multiset.cons_erase hp, hzero]
  rfl

/-- The last reference to an entry is dropped by an `iput` for which there was nothing to free, or that has freed the
    inode. -/
theorem Move.last (hr : Refs s) (h : Move s a t) (hi : s.refs i ≠ 0) (hzero : t.refs i = 0) :
    ∃ p, a = .call p (.iput i) ∧ ((s.entry i).valid = true → (s.entry i).nlink ≠ 0) ∨ a = .next p ∧ s.pc p = .drop i := by
  have hset : ∀ {j m}, t.refs = Function.update s.refs j m → i = j ∧ m = 0 := by
    intro j m hrefs
    rw [hrefs] at hzero
    rcases eq_or_ne i j with rfl | hne
    · rw [Function.update_self] at hzero
      exact ⟨rfl, hzero⟩
    · rw [Function.update_of_ne hne] at hzero
      exact absurd hzero hi
  cases h with
  | found => exact absurd (hset rfl).2 (Multiset.cons_ne_zero)
  | recycle => exact absurd (hset rfl).2 (Multiset.cons_ne_zero)
  | idup => exact absurd (hset rfl).2 (Multiset.cons_ne_zero)
  | pass => exact absurd (hset rfl).2 (Multiset.cons_ne_zero)
  | @iput p j hpc hspare hkeep =>
    obtain ⟨rfl, herase⟩ := hset rfl
    refine ⟨p, Or.inl ⟨rfl, fun hvalid hnlink => hkeep ⟨?_, hvalid, hnlink⟩⟩⟩
    rw [hr.count, refs_eq_singleton (mem_of_spare hspare) herase]
    rfl
  | @drop p j hpc =>
    obtain ⟨rfl, -⟩ := hset rfl
    exact ⟨p, Or.inr ⟨rfl, hpc⟩⟩
  | _ => exact absurd hzero hi

/-- An `iput` begins to free an inode when it has the only reference to an entry that is valid and without links. -/
theorem Move.begins (hr : Refs s) (hfew : Few s) (h : Move s a t) (hp : t.pc p = .trunc i) (hold : s.pc p ≠ .trunc i) :
    a = .call p (.iput i) ∧ s.refs i = {p} ∧ (s.entry i).valid = true ∧ (s.entry i).nlink = 0 := by
  have hset : ∀ {q c}, t.pc = Function.update s.pc q c → c = .trunc i ∧ q = p := by
    intro q c hpc
    rw [hpc] at hp
    rcases eq_or_ne p q with rfl | hne
    · rw [Function.update_self] at hp
      exact ⟨hp, rfl⟩
    · rw [Function.update_of_ne hne] at hp
      exact absurd hp hold
  cases h with
  | @test q j hpc hspare hfrees hlock =>
    obtain ⟨htrunc, rfl⟩ := hset rfl
    cases htrunc
    exact ⟨rfl, hr.refs_of_one hfew hfrees.1 (mem_of_spare hspare), hfrees.2⟩
  | found | recycle | ilock | ialloc | acquire | hit | load | itrunc | ifree | clear | drop => exact absurd (hset rfl).1 nofun
  | _ => exact absurd hp hold

/-- In `iput` of an entry, the inode being freed or just freed. -/
def Pc.Freeing (i : Fin NINODE) (c : Pc) : Prop := c = .trunc i ∨ c = .free i ∨ c = .clear i

theorem Pc.Freeing.holds {c : Pc} (h : c.Freeing i) : c.holds = some i := by
  obtain rfl | rfl | rfl := h <;> rfl

/-- How a process comes to where it stands in `iput`. -/
theorem Move.path (h : Move s a t) : (∀ p, t.pc p = s.pc p ∨ (∀ i, ¬(t.pc p).Freeing i) ∧ ∀ i, t.pc p ≠ .drop i) ∨
    ∃ q c i, t.pc = Function.update s.pc q c ∧ (c = .trunc i ∧ s.Frees i ∧ s.Spare q i ∧ s.pc q = .idle ∨
      c = .free i ∧ s.pc q = .trunc i ∨ c = .clear i ∧ s.pc q = .free i ∨ c = .drop i ∧ s.pc q = .clear i) := by
  have hset : ∀ {q c}, (∀ i, ¬c.Freeing i) → (∀ i, c ≠ .drop i) → ∀ p, Function.update s.pc q c p = s.pc p ∨
      (∀ i, ¬(Function.update s.pc q c p).Freeing i) ∧ ∀ i, Function.update s.pc q c p ≠ .drop i := by
    intro q c hc hc' p
    rcases eq_or_ne p q with rfl | hne
    · rw [Function.update_self]
      exact Or.inr ⟨hc, hc'⟩
    · exact Or.inl (Function.update_of_ne hne ..)
  have hno : ∀ {c : Pc}, c.holds = none → ∀ i, ¬c.Freeing i := fun hc i h => absurd (hc.symm.trans h.holds) nofun
  cases h with
  | found | recycle | ilock | ialloc | hit | load | drop => exact Or.inl (hset (hno rfl) nofun)
  | acquire =>
    refine Or.inl (hset (fun i h => ?_) nofun)
    obtain h | h | h := h <;> cases h
  | @test q i hpc hspare hfrees hlock => exact Or.inr ⟨q, _, i, rfl, Or.inl ⟨rfl, hfrees, hspare, hpc⟩⟩
  | @itrunc q i hpc => exact Or.inr ⟨q, _, i, rfl, Or.inr (Or.inl ⟨rfl, hpc⟩)⟩
  | @ifree q i hpc => exact Or.inr ⟨q, _, i, rfl, Or.inr (Or.inr (Or.inl ⟨rfl, hpc⟩))⟩
  | @clear q i hpc => exact Or.inr ⟨q, _, i, rfl, Or.inr (Or.inr (Or.inr ⟨rfl, hpc⟩))⟩
  | _ => exact Or.inl fun p => Or.inl rfl

/-- While one process frees the inode of an entry, no other is on its way to drop its reference after that. -/
def Sole (s : State P) : Prop := ∀ p q i, (s.pc p).Freeing i → s.pc q ≠ .drop i

theorem Move.sole (hr : Refs s) (hfew : Few s) (hsole : Sole s) (h : Move s a t) : Sole t := by
  intro p q i hp hq
  rcases h.path with hsame | ⟨r, c, j, hpc, hcase⟩
  · rcases hsame p with hpp | ⟨hno, -⟩
    · rcases hsame q with hqq | ⟨-, hno⟩
      · exact hsole p q i (hpp ▸ hp) (hqq ▸ hq)
      · exact hno i hq
    · exact hno i hp
  · rw [hpc] at hp hq
    rcases eq_or_ne q r with rfl | hqr
    · -- the process comes to its second critical section, and had the lock up to now
      rw [Function.update_self] at hq
      subst hq
      rcases eq_or_ne p q with rfl | hpq
      · rw [Function.update_self] at hp
        obtain hp | hp | hp := hp <;> cases hp
      · rw [Function.update_of_ne hpq] at hp
        have hclear : s.pc q = .clear i := by
          obtain ⟨h, -⟩ | ⟨h, -⟩ | ⟨h, -⟩ | ⟨h, hclear⟩ := hcase <;> cases h
          exact hclear
        have hlock := hr.holds hp.holds
        rw [hr.holds (p := q) (by rw [hclear]; rfl)] at hlock
        exact hpq (Option.some.inj hlock).symm
    · rw [Function.update_of_ne hqr] at hq
      rcases eq_or_ne p r with rfl | hpr
      · rw [Function.update_self] at hp
        obtain ⟨rfl, hfrees, hspare, -⟩ | ⟨rfl, hold⟩ | ⟨rfl, hold⟩ | ⟨rfl, -⟩ := hcase
        · obtain rfl : j = i := by
            obtain h | h | h := hp <;> cases h
            rfl
          -- the only reference is that of the process which begins
          have hmem : q ∈ s.refs j := hr.uses (by rw [hq]; rfl)
          rw [hr.refs_of_one hfew hfrees.1 (mem_of_spare hspare)] at hmem
          exact hqr (Multiset.mem_singleton.mp hmem)
        · obtain h | h | h := hp <;> cases h
          exact hsole p q i (Or.inl hold) hq
        · obtain h | h | h := hp <;> cases h
          exact hsole p q i (Or.inr (Or.inl hold)) hq
        · obtain h | h | h := hp <;> cases h
      · rw [Function.update_of_ne hpr] at hp
        exact hsole p q i hp hq

/-- An entry with references keeps its inode. -/
theorem Move.toIno_eq (hr : Refs s) (hfew : Few s) (h : Move s a t) (hi : s.refs i ≠ 0) :
    (t.entry i).toIno = (s.entry i).toIno := by
  have hset : ∀ {j : Fin NINODE} {x : Entry P}, x.toIno = (s.entry j).toIno →
      (Function.update s.entry j x i).toIno = (s.entry i).toIno := by
    intro j x hx
    rcases eq_or_ne i j with rfl | hne
    · rw [Function.update_self, hx]
    · rw [Function.update_of_ne hne]
  cases h with
  | @recycle a p k j hget hmiss hj =>
    refine congrArg Entry.toIno (Function.update_of_ne ?_ ..)
    rintro rfl
    exact hi (hr.refs_of_zero hfew (empty_found hj))
  | found | idup | iunlock | iput | test | change | acquire | noType | load | itrunc | ifree | clear | drop => exact hset rfl
  | _ => rfl

/-- Nobody else makes a process go on that is in a function. -/
theorem Move.other (h : Move s a t) (ha : a ≠ .next p) (hpc : s.pc p ≠ .idle) : t.pc p = s.pc p := by
  have hset : ∀ {q c}, q ≠ p → Function.update s.pc q c p = s.pc p := fun hq => Function.update_of_ne hq.symm ..
  have hget : ∀ {q k}, Gets s a q k → q ≠ p := by
    rintro q k h rfl
    cases h with
    | call hidle => exact hpc hidle
    | next => exact ha rfl
  cases h with
  | found h | recycle h => exact hset (hget h)
  | ilock hidle | test hidle | ialloc hidle =>
    refine hset ?_
    rintro rfl
    exact hpc hidle
  | acquire | hit | load | itrunc | ifree | clear | drop =>
    refine hset ?_
    rintro rfl
    exact ha rfl
  | _ => rfl

/-- Whether the `iput` of an entry has the inode still to free. -/
def Pc.pending (i : Fin NINODE) (c : Pc) : Nat := if c = .trunc i ∨ c = .free i then 1 else 0

/-- While a process is in `iput` of an entry, its inode is freed by that process only. -/
theorem Move.window (hr : Refs s) (hs : Sound disk s) (hsole : Sole s) (h : Move s a t)
    (hin : (s.pc p).Freeing i ∨ s.pc p = .drop i) (hgo : t.pc p ≠ .idle) :
    ((t.pc p).Freeing i ∨ t.pc p = .drop i) ∧
      t.frees (s.entry i).toIno + (t.pc p).pending i = s.frees (s.entry i).toIno + (s.pc p).pending i := by
  have huses : (s.pc p).uses = some i := by
    rcases hin with hin | hin
    · exact Pc.uses_of_holds hin.holds
    · rw [hin]
      rfl
  have hi := refs_ne_zero (hr.uses huses)
  rcases eq_or_ne a (.next p) with rfl | ha
  · have hother : ∀ {c}, s.pc p = c → (∀ j, ¬c.Freeing j) → (∀ j, c ≠ .drop j) → False := by
      rintro c rfl hc hc'
      exact hin.elim (hc i) (hc' i)
    have hno : ∀ {c : Pc}, c.holds = none → ∀ i, ¬c.Freeing i := fun hc i h => absurd (hc.symm.trans h.holds) nofun
    have hlocked : ∀ {j i : Fin NINODE}, ¬(Pc.locked j).Freeing i := by
      rintro j i (h | h | h) <;> cases h
    cases h with
    | found hget | recycle hget | noInodes hget =>
      cases hget with
      | next hpc => exact (hother hpc (hno rfl) nofun).elim
    | panic => exact ⟨hin, rfl⟩
    | acquire hpc => exact (hother hpc (hno rfl) nofun).elim
    | hit hpc | noType hpc | load hpc => exact (hother hpc (fun _ => hlocked) nofun).elim
    | @itrunc _ j hpc =>
      have heq : ((s.itrunc j).setPc p (.free j)).pc p = .free j := Function.update_self ..
      rw [hpc] at huses
      cases huses
      rw [heq, hpc]
      exact ⟨Or.inl (Or.inr (Or.inl rfl)), by rw [Pc.pending, Pc.pending, if_pos (Or.inr rfl), if_pos (Or.inl rfl)]; rfl⟩
    | @ifree _ j hpc =>
      have heq : ((s.ifree j).setPc p (.clear j)).pc p = .clear j := Function.update_self ..
      rw [hpc] at huses
      cases huses
      rw [heq, hpc]
      refine ⟨Or.inl (Or.inr (Or.inr rfl)), ?_⟩
      show Function.update s.frees _ _ _ + _ = _
      rw [Function.update_self, Pc.pending, Pc.pending, if_neg (by nofun), if_pos (Or.inr rfl)]
    | @clear _ j hpc =>
      have heq : ((s.setEntry j { s.entry j with valid := false, lock := none }).setPc p (.drop j)).pc p = .drop j :=
        Function.update_self ..
      rw [hpc] at huses
      cases huses
      rw [heq, hpc]
      exact ⟨Or.inr rfl, by rw [Pc.pending, Pc.pending, if_neg (by nofun), if_neg (by nofun)]; rfl⟩
    | drop => exact absurd (Function.update_self ..) hgo
  · have hsame := h.other ha (fun hidle => by rw [hidle] at huses; cases huses)
    rw [hsame]
    refine ⟨hin, ?_⟩
    cases h with
    | @ifree q j hpc =>
      have hfreeing : (s.pc q).Freeing j := Or.inr (Or.inl hpc)
      have hqp : q ≠ p := by
        rintro rfl
        exact ha rfl
      have hlock := hr.holds hfreeing.holds
      have hne : (s.entry i).toIno ≠ (s.entry j).toIno := by
        intro heq
        obtain rfl := hs.unique i j hi (refs_ne_zero (hr.locks hlock)) heq
        rcases hin with hin | hin
        · rw [hr.holds hin.holds] at hlock
          exact hqp (Option.some.inj hlock).symm
        · exact hsole q p i hfreeing hin
      show Function.update s.frees _ _ _ + _ = _
      rw [Function.update_of_ne hne]
    | _ => rfl

/-! ### Runs -/

theorem running_of_step (h : Step s l t) : s.panicked = none := by
  have hstep : step s l.1 = some (l.2, t) := h
  rw [step.eq_def] at hstep
  split at hstep
  · cases hstep
  · exact Option.not_isSome_iff_eq_none.mp ‹_›

structure Good (disk : Ino → Dinode) (s : State P) : Prop where
  refs : Refs s
  sound : Sound disk s
  sole : Sole s

theorem Good.step (hg : Good disk s) (hc : Few s ∧ Kept s l.1) (h : Step s l t) : Good disk t :=
  have hmove := move_of_step h
  ⟨hmove.refs hg.refs, hmove.sound hg.refs hc.1 (running_of_step h) hc.2 hg.sound, hmove.sole hg.refs hc.1 hg.sole⟩

/-- From where `iput` begins to free the inode of an entry up to its end, the inode is freed once. -/
theorem Good.once (hg : Good disk s) (hall : AllSteps Step s ns fun u l => Few u ∧ Kept u l.1) (hpc : s.pc p = .trunc i)
    (hgo : AllStates Step s ns fun u => u.pc p ≠ .idle) (h : Run Step s ns u) :
    u.frees (s.entry i).toIno + (u.pc p).pending i = s.frees (s.entry i).toIno + 1 := by
  have hone : (s.pc p).pending i = 1 := by
    rw [hpc, Pc.pending, if_pos (Or.inl rfl)]
  have hinv : Good disk u ∧ ((u.pc p).Freeing i ∨ u.pc p = .drop i) ∧ (u.entry i).toIno = (s.entry i).toIno ∧
      u.frees (s.entry i).toIno + (u.pc p).pending i = s.frees (s.entry i).toIno + (s.pc p).pending i := by
    induction h with
    | refl => exact ⟨hg, Or.inl (Or.inl hpc), rfl, rfl⟩
    | @tail ns v l w hrun hstep ih =>
      have hlast := hall ns l v (List.prefix_refl _) hrun
      obtain ⟨hv, hin, hino, hfrees⟩ := ih (hall.of_prefix (List.prefix_append _ _))
        fun ms x hms => hgo ms x (hms.trans (List.prefix_append _ _))
      have hwindow := (move_of_step hstep).window hv.refs hv.sound hv.sole hin
        (hgo _ _ (List.prefix_refl _) (hrun.tail hstep))
      have huses : p ∈ v.refs i := by
        rcases hin with hin | hin
        · exact hv.refs.uses (Pc.uses_of_holds hin.holds)
        · exact hv.refs.uses (by rw [hin]; rfl)
      rw [hino] at hwindow
      exact ⟨hv.step hlast hstep, hwindow.1, ((move_of_step hstep).toIno_eq hv.refs hlast.1 (refs_ne_zero huses)).trans hino,
        hwindow.2.trans hfrees⟩
  rw [hinv.2.2.2, hone]

instance (s : State P) : Decidable (Few s) := inferInstanceAs (Decidable (∀ _, _))

/-- Process 0 allocates inode 5 and gives it up without a link. -/
def allocPut : List (Action Nat) :=
  [.call 0 (.ialloc ⟨1, 5⟩ 2), .next 0, .call 0 (.ilock 0), .next 0, .next 0, .call 0 (.iunlock 0), .call 0 (.iput 0),
    .next 0, .next 0, .next 0, .next 0]

/-- No inode is allocated. -/
def blank : State Nat := .init fun _ => Dinode.zero

theorem exec_allocPut : (exec step blank allocPut).isSome := by
  decide +kernel

/-- On disk, all inodes are files with a number of links. -/
def linked (n : Int16) : State Nat := .init fun _ => { Dinode.zero with type := 2, nlink := n }

end LabSO.Itable

import LabSO.Kernel.ConsoleData

/-! Runs of readers and interrupt handlers on the console: what each read gets, which reads meet the end of the file, and who
    sleeps. -/

namespace LabSO.Console
open Monitor Transition

variable {n : Nat} {η : Type} {b b' : Data} {x : ReadCall} {got : List UInt8} {c : UInt8} {k k' : Point}

/-! ### Reads -/

/-- A read that asks for something, and whose copies to the reader succeed. -/
def Request.Plain : Request → Prop
  | .read len fault => 0 < len ∧ fault = none
  | .intr _ => True

instance : DecidablePred Request.Plain
  | .read len fault => inferInstanceAs (Decidable (0 < len ∧ fault = none))
  | .intr _ => .isTrue trivial

/-- A read that goes on: it has got a part of a line. -/
structure Reads (x : ReadCall) (got : List UInt8) : Prop where
  pos : 0 < x.n
  copies : x.fault = none
  le : (got.length : Int) ≤ x.n
  plain : ∀ c ∈ got, ¬Ends c

/-- A read that is done: it has got all it asked for or a whole line, or it met the end of the file; in the latter case the
    `^D` stays for the next read, unless this one has got nothing. -/
structure Finished (b : Data) (x : ReadCall) (got : List UInt8) : Prop where
  pos : 0 < x.n
  le : (got.length : Int) ≤ x.n
  plain : ∀ c ∈ got.dropLast, ¬Ends c
  noEof : C 'D' ∉ got
  why : (got.length : Int) = x.n ∨ got.getLast? = some newline ∨
    got ≠ [] ∧ b.line.committed[b.consumed.length]? = some (C 'D') ∨ got = [] ∧ b.consumed.getLast? = some (C 'D')

theorem Reads.finished (h : Reads x got) (hwhy : (got.length : Int) = x.n ∨
    got ≠ [] ∧ b.line.committed[b.consumed.length]? = some (C 'D') ∨ got = [] ∧ b.consumed.getLast? = some (C 'D')) :
    Finished b x got where
  pos := h.pos
  le := h.le
  plain c hc := h.plain c (List.dropLast_subset _ hc)
  noEof hin := h.plain _ hin (Or.inr rfl)
  why := by
    rcases hwhy with hall | hnext | hlast
    · exact Or.inl hall
    · exact Or.inr (Or.inr (Or.inl hnext))
    · exact Or.inr (Or.inr (Or.inr hlast))

/-- What holds at each place, with the lock held. -/
def Inside (b : Data) : Point → Prop
  | .loop x got | .fail x got => Reads x got
  | .wait x got => Reads x got ∧ (got.length : Int) < x.n
  | .killed x got | .sleep x got => (Reads x got ∧ (got.length : Int) < x.n) ∧ b.cons.r = b.cons.w
  | .take x got => (Reads x got ∧ (got.length : Int) < x.n) ∧ b.cons.r ≠ b.cons.w
  | .done x got => Finished b x got
  | .intr _ | .intrWake | .intrDone => True

/-- What holds of a thread that goes on at a place when it has got the lock. -/
def Outside : Point → Prop
  | .loop x got => Reads x got
  | .wait x got => Reads x got ∧ (got.length : Int) < x.n
  | .intr _ => True
  | _ => False

def notes (n : Nat) (η : Type) : Notes n η Data Point where
  always := Ok
  rest _ := True
  idle _ _ := True
  inside _ k b := Inside b k
  waiting _ k _ := Outside k

theorem Outside.inside (h : Outside k) : Inside b k := by
  cases k <;> first | exact h | cases h

/-- The byte that a reader takes, by what it is. -/
theorem take_inv (b : Data) (x : ReadCall) (got : List UInt8) (hcopies : x.fault = none) :
    (b.cons.at b.cons.r = C 'D' ∧ got ≠ [] ∧ take b x got = (b, .done x got)) ∨
    (b.cons.at b.cons.r = C 'D' ∧ got = [] ∧ take b x got =
      ({ b with cons := { b.cons with r := b.cons.r + 1 }, consumed := b.consumed ++ [b.cons.at b.cons.r] }, .done x [])) ∨
    (b.cons.at b.cons.r ≠ C 'D' ∧ take b x got =
      ({ b with
          cons := { b.cons with r := b.cons.r + 1 }
          consumed := b.consumed ++ [b.cons.at b.cons.r]
          delivered := b.delivered ++ [b.cons.at b.cons.r] },
        if b.cons.at b.cons.r = newline then .done x (got ++ [b.cons.at b.cons.r])
        else .loop x (got ++ [b.cons.at b.cons.r]))) := by
  unfold take
  by_cases hc : b.cons.at b.cons.r = C 'D'
  · rw [if_pos hc]
    by_cases hgot : got = []
    · subst hgot
      rw [if_neg (by simp)]
      exact Or.inr (Or.inl ⟨hc, rfl, rfl⟩)
    · have hpos : 0 < got.length := List.length_pos_iff.mpr hgot
      rw [if_pos (by omega)]
      exact Or.inl ⟨hc, hgot, rfl⟩
  · rw [if_neg hc, if_neg (by rw [hcopies]; nofun)]
    exact Or.inr (Or.inr ⟨hc, rfl⟩)

theorem inside_take (hok : Ok b) (hreads : Reads x got) (hlt : (got.length : Int) < x.n) (hne : b.cons.r ≠ b.cons.w) :
    Ok (take b x got).1 ∧ Inside (take b x got).1 (take b x got).2 := by
  rcases take_inv b x got hreads.copies with ⟨hc, hgot, heq⟩ | ⟨hc, rfl, heq⟩ | ⟨hc, heq⟩
  · rw [heq]
    exact ⟨hok, hreads.finished (Or.inr (Or.inl ⟨hgot, hc ▸ hok.next hne⟩))⟩
  · rw [heq]
    refine ⟨hok.take hne (by rw [if_pos hc]), hreads.finished (Or.inr (Or.inr ⟨rfl, ?_⟩))⟩
    show (b.consumed ++ [b.cons.at b.cons.r]).getLast? = _
    rw [List.getLast?_concat, hc]
  · rw [heq]
    refine ⟨hok.take hne (by rw [if_neg hc]), ?_⟩
    have hlength : ((got ++ [b.cons.at b.cons.r]).length : Int) = got.length + 1 := by simp
    show Inside _ (if _ then _ else _)
    split
    · next hnl =>
      refine ⟨hreads.pos, by omega, fun d hd => ?_, fun hin => ?_, Or.inr (Or.inl ?_)⟩
      · rw [List.dropLast_concat] at hd
        exact hreads.plain d hd
      · rcases List.mem_append.mp hin with hin | hin
        · exact hreads.plain _ hin (Or.inr rfl)
        · exact hc (List.mem_singleton.mp hin).symm
      · rw [List.getLast?_concat, hnl]
    · next hnl =>
      refine ⟨hreads.pos, hreads.copies, by omega, fun d hd => ?_⟩
      rcases List.mem_append.mp hd with hd | hd
      · exact hreads.plain d hd
      · rw [List.mem_singleton.mp hd]
        rintro (h | h)
        · exact hnl h
        · exact hc h

theorem inside_set (hok : Ok b) (hin : Inside b k) (hop : op b k = .set b' k') : Ok b' ∧ Inside b' k' := by
  cases k with
  | loop x got =>
    cases hop
    refine ⟨hok, ?_⟩
    have hreads : Reads x got := hin
    split
    · next hlt => exact ⟨hreads, by omega⟩
    · next hge => exact hreads.finished (Or.inl (by have := hreads.le; omega))
  | wait x got =>
    cases hop
    refine ⟨hok, ?_⟩
    split
    · next heq => exact ⟨hin, heq⟩
    · next hne => exact ⟨hin, hne⟩
  | take x got =>
    cases hop
    obtain ⟨⟨hreads, hlt⟩, hne⟩ := hin
    exact inside_take hok hreads hlt hne
  | intr c =>
    cases hop
    refine ⟨hok.intr, ?_⟩
    unfold intr
    split_ifs <;> trivial
  | _ => cases hop

theorem outline {P : Request → Prop} (hP : Copies P) : Outline (code n η) P (notes n η) where
  acquire _ _ h := h.inside
  set {a k b b' k'} hok hin hop := by
    obtain ⟨hok', hin'⟩ := inside_set hok hin hop
    exact ⟨hok', hin', fun a' _ => ⟨id, fun _ h => h⟩⟩
  wakeup {a k b c k'} _ hin hop := by
    cases k <;> cases hop
    trivial
  sleep {a k b c k'} _ hin hop := by
    cases k <;> cases hop
    exact ⟨trivial, hin.1⟩
  killed {a k b yes no} _ hin hop := by
    cases k <;> cases hop
    exact ⟨hin.1.1, hin⟩
  release _ _ _ := ⟨trivial, trivial⟩
  enter {a r b b' o} hr hok _ h := by
    rcases a with p | i <;> rcases r with ⟨len, fault⟩ | c <;> cases h
    · obtain ⟨hpos, hcopies⟩ := hP _ _ hr
      exact ⟨hok, id, ⟨hpos, hcopies, Int.le_of_lt hpos, nofun⟩, fun _ _ => ⟨id, fun _ => id, fun _ => id⟩⟩
    · exact ⟨hok, id, trivial, fun _ _ => ⟨id, fun _ => id, fun _ => id⟩⟩
  env {e} := nomatch e

/-! ### Wakeups -/

/-- Who sleeps on `&cons.r` has something to do: there is committed input. -/
def Due (_ : Chan) (b : Data) : Prop := b.cons.r ≠ b.cons.w

/-- A handler that has committed input still wakes the readers. -/
def Owes (_ : Thread n η) (k : Point) (_ : Chan) : Prop := k = .intrWake

theorem killLine_frame (rounds : Nat) (s : Cons) : (s.killLine rounds).r = s.r ∧ (s.killLine rounds).w = s.w := by
  induction rounds generalizing s with
  | zero => exact ⟨rfl, rfl⟩
  | succ rounds ih =>
    rw [Cons.killLine]
    split
    · exact ih _
    · exact ⟨rfl, rfl⟩

/-- A handler moves the write index only where it then wakes the readers. -/
theorem intr_frame (hk : (intr b c).2 ≠ .intrWake) :
    (intr b c).1.cons.r = b.cons.r ∧ (intr b c).1.cons.w = b.cons.w := by
  unfold intr at *
  split at hk
  · next h => simp only [if_pos h, and_self]
  next h =>
  rw [if_neg h]
  split at hk
  · next h' =>
    rw [if_pos h']
    exact killLine_frame _ _
  next h' =>
  rw [if_neg h']
  split at hk
  · next h'' =>
    rw [if_pos h'']
    show (if b.cons.e ≠ b.cons.w then _ else b).cons.r = _ ∧ (if b.cons.e ≠ b.cons.w then _ else b).cons.w = _
    split <;> exact ⟨rfl, rfl⟩
  next h'' =>
  rw [if_neg h'']
  split at hk
  · next hroom =>
    rw [if_pos hroom]
    have hcommit : ¬(Ends (stored c) ∨ (b.cons.put (stored c)).Full) := fun h => hk (if_pos h)
    show (b.store (stored c)).cons.r = _ ∧ (b.store (stored c)).cons.w = _
    rw [Data.store, if_neg hcommit]
    exact ⟨rfl, rfl⟩
  · next hroom => simp only [if_neg hroom, and_self]

theorem signals : Signals (code n η) (notes n η) Due Owes where
  set {a k b b' k' c} _ hin hop hdue h := by
    cases k with
    | loop x got =>
      cases hop
      exact absurd (h hdue) nofun
    | wait x got =>
      cases hop
      exact absurd (h hdue) nofun
    | take x got =>
      have hne : b.cons.r ≠ b.cons.w := hin.2
      exact absurd (h hne) nofun
    | intr c =>
      cases hop
      by_contra hk
      obtain ⟨hr, hw⟩ := intr_frame hk
      have hdue' : Due () b := by
        rw [Due, hr, hw] at hdue
        exact hdue
      exact absurd (h hdue') nofun
    | _ => cases hop
  wakeup _ _ _ hne := absurd rfl hne
  sleep {a k b c k'} _ hin hop := by
    cases k <;> cases hop
    exact ⟨not_not_intro hin.2, nofun⟩
  killed {a k b yes no c} _ hin hop _ howes := by
    cases howes
    cases hop
  enter {a r b b' o c} _ h hdue := by
    rcases a with p | i <;> rcases r with ⟨len, fault⟩ | c <;> cases h <;> exact hdue
  env {e} := nomatch e

theorem not_strands [DecidableEq η] (s : ConsState n η) (l : Action n η Request Empty × Event n η Result) :
    ¬Strands (code n η) Due Owes s l := by
  rintro ⟨a, k, result, c, p, -, -, hop, howes, -⟩
  cases howes
  cases hop

/-! ### The end of the file -/

/-- A read that has met the end of the file at once, and is about to return 0. -/
def Point.eof : Point → Nat
  | .done _ [] => 1
  | _ => 0

def eofAt (pc : Pc Chan Point) : Nat := pc.inside?.elim 0 Point.eof

def pending (s : ConsState n η) : Nat := s.lock.elim 0 fun a => eofAt (s.pcs a)

/-- A read returns 0. -/
def isEof : Event n η Result → Bool
  | .returned _ (.read _ _ value) => value == 0
  | _ => false

/-- A step at a place takes a `^D` out of the buffer exactly if it ends a read that has got nothing. -/
theorem eof_set (hin : Inside b k) (hop : op b k = .set b' k') :
    k'.eof + b.consumed.count (C 'D') = b'.consumed.count (C 'D') ∧ k.eof = 0 := by
  cases k with
  | loop x got =>
    cases hop
    refine ⟨?_, rfl⟩
    have hreads : Reads x got := hin
    split
    · exact Nat.zero_add _
    · next hge =>
      cases got with
      | nil => exact absurd hreads.pos (by simpa using hge)
      | cons c got => exact Nat.zero_add _
  | wait x got =>
    cases hop
    refine ⟨?_, rfl⟩
    split <;> exact Nat.zero_add _
  | take x got =>
    cases hop
    refine ⟨?_, rfl⟩
    rcases take_inv b x got hin.1.1.copies with ⟨-, hgot, heq⟩ | ⟨hc, rfl, heq⟩ | ⟨hc, heq⟩
    · rw [heq]
      cases got with
      | nil => exact absurd rfl hgot
      | cons c got => exact Nat.zero_add _
    · rw [heq]
      show 1 + _ = (b.consumed ++ [b.cons.at b.cons.r]).count (C 'D')
      rw [List.count_append, hc, List.count_singleton_self, Nat.add_comm]
    · rw [heq]
      have hzero : (if b.cons.at b.cons.r = newline then Point.done x (got ++ [b.cons.at b.cons.r])
          else .loop x (got ++ [b.cons.at b.cons.r])).eof = 0 := by
        split
        · cases got <;> rfl
        · rfl
      show Point.eof _ + _ = (b.consumed ++ [b.cons.at b.cons.r]).count (C 'D')
      rw [hzero, List.count_append, List.count_singleton, if_neg (by simpa using hc), Nat.zero_add, Nat.add_zero]
  | intr c =>
    cases hop
    have hconsumed : (intr b c).1.consumed = b.consumed := by
      unfold intr
      split_ifs <;> rfl
    refine ⟨?_, rfl⟩
    rw [hconsumed]
    unfold intr
    split_ifs <;> exact Nat.zero_add _
  | _ => cases hop

section
variable {s t : ConsState n η} {a : Thread n η} {pc : Pc Chan Point}

theorem pending_of_holds (hl : Locked s) (ha : (s.pcs a).Holds) : pending s = eofAt (s.pcs a) := by
  rw [pending, (hl.holder a).mpr ha, Option.elim_some]

variable [DecidableEq η]

theorem pending_setPc_of_holds (hl : Locked s) (ha : (s.pcs a).Holds) : pending (s.setPc a pc) = eofAt pc := by
  rw [pending, State.setPc_lock, (hl.holder a).mpr ha, Option.elim_some, setPc_pcs_self]

/-- A thread moves, and ends no read. -/
theorem pending_setPc (hl : Locked s) (hpc : eofAt pc = eofAt (s.pcs a)) : pending (s.setPc a pc) = pending s := by
  by_cases ha : (s.pcs a).Holds
  · rw [pending_setPc_of_holds hl ha, pending_of_holds hl ha, hpc]
  · unfold pending
    rw [State.setPc_lock]
    cases hlock : s.lock with
    | none => rfl
    | some b =>
      have hb : (s.pcs b).Holds := (hl.holder b).mp hlock
      have hne : b ≠ a := fun heq => ha (heq ▸ hb)
      rw [Option.elim_some, Option.elim_some, setPc_pcs_of_ne hne]

theorem pending_step {l : Action n η Request Empty × Event n η Result} (hl : Locked s) (ho : Outlined (notes n η) s)
    (hstep : Step (code n η) s l t) :
    (if isEof l.2 then 1 else 0) + pending t + s.data.consumed.count (C 'D') =
      pending s + t.data.consumed.count (C 'D') := by
  -- Most steps neither return nor touch what was consumed.
  have hquiet : ∀ {u : ConsState n η}, u.data = s.data → pending u = pending s →
      (if isEof (.silent : Event n η Result) then 1 else 0) + pending u + s.data.consumed.count (C 'D') =
        pending s + u.data.consumed.count (C 'D') := by
    intro u hdata hpending
    rw [hdata, hpending]
    simp [isEof]
  cases step_inv hstep with
  | @acquire a next pc free =>
    have hwait : Outside next := ho.waiting (a := a) (by rw [pc]; rfl)
    refine hquiet rfl ?_
    have hnext : next.eof = 0 := by
      cases next <;> first | rfl | cases hwait
    have ht : pending ((s.setLock (some a)).setPc a (.at next)) = next.eof := by
      rw [pending, State.setPc_lock, State.setLock_lock, Option.elim_some, setPc_pcs_self]
      rfl
    rw [ht, hnext, pending, free, Option.elim_none]
  | @set a point next data pc op =>
    have hholds : (s.pcs a).Holds := by
      rw [pc]
      trivial
    obtain ⟨hcount, hpoint⟩ := eof_set (ho.inside (a := a) (by rw [pc]; rfl)) op
    have hs : pending s = 0 := by
      rw [pending_of_holds hl hholds, pc]
      exact hpoint
    have ht : pending ((s.setData data).setPc a (.at next)) = next.eof :=
      pending_setPc_of_holds (hl.setData data) hholds
    rw [hs, ht]
    simpa [isEof] using hcount
  | @passes a point pc' pc passes =>
    refine hquiet rfl (pending_setPc hl ?_)
    rw [pc]
    cases passes with
    | wakeup hop =>
      cases point <;> cases hop
      rfl
    | sleep hop =>
      cases point <;> cases hop
      rfl
    | killed _ hop =>
      cases point <;> cases hop
      split <;> rfl
  | @release a point result pc op =>
    have hholds : (s.pcs a).Holds := by
      rw [pc]
      trivial
    have hs : pending s = point.eof := by
      rw [pending_of_holds hl hholds, pc]
      rfl
    have ht : pending ((s.setLock none).setPc a .out) = 0 := rfl
    rw [hs, ht]
    cases point with
    | fail x got =>
      cases op
      simp [isEof, Point.eof]
    | done x got =>
      cases op
      cases got with
      | nil => simp [isEof, Point.eof]
      | cons c got =>
        have hne : (got.length : Int) + 1 ≠ 0 := by omega
        simp [isEof, Point.eof, hne]
    | intrDone =>
      cases op
      simp [isEof, Point.eof]
    | _ => cases op
  | @wakeupSelf p chan next pc => exact hquiet rfl (pending_setPc hl (by rw [pc]; rfl))
  | @wakeupTest a chan q next pc other free =>
    have hl' : Locked (s.setSlot q ((s.slots q).wake chan)) := hl.setSlot (Slot.wake_lock _ _) Slot.wake_sleeping
    exact hquiet rfl (pending_setPc hl' (by rw [State.setSlot_pcs, pc]; rfl))
  | @wakeupEnd a chan j next pc all => exact hquiet rfl (pending_setPc hl (by rw [pc]; rfl))
  | @sleepRelease p chan next pc =>
    have hs : pending s = 0 := by
      rw [pending_of_holds (a := .inl p) hl (by rw [pc]; trivial), pc]
      rfl
    exact hquiet rfl hs.symm
  | @sleepAcquire p chan next pc free =>
    refine hquiet rfl ?_
    have h : pending (s.setPc (.inl p) (.sleepRelease chan next)) = pending s := pending_setPc hl (by rw [pc]; rfl)
    exact h
  | @sleepMark p chan next pc =>
    refine hquiet rfl ?_
    have h : pending (s.setPc (.inl p) (.sleepSwitch chan next)) = pending s := pending_setPc hl (by rw [pc]; rfl)
    exact h
  | @sleepSwitch p chan next pc =>
    refine hquiet rfl ?_
    have h : pending (s.setPc (.inl p) (.asleep chan next)) = pending s := pending_setPc hl (by rw [pc]; rfl)
    exact h
  | @resume p chan next pc runnable =>
    refine hquiet rfl ?_
    have h : pending (s.setPc (.inl p) (.acquire next)) = pending s := pending_setPc hl (by rw [pc]; rfl)
    exact h
  | @call a request data next pc enter =>
    have hdata : data = s.data := by
      rcases a with p | i <;> rcases request with ⟨len, fault⟩ | c <;> cases enter <;> rfl
    subst hdata
    refine hquiet rfl ?_
    have h : pending (s.setPc a (.acquire next)) = pending s := pending_setPc hl (by rw [pc]; rfl)
    exact h
  | @callOut a request data pc enter =>
    rcases a with p | i <;> rcases request with ⟨len, fault⟩ | c <;> cases enter
  | kill free => exact hquiet rfl rfl
  | @env e data env => exact nomatch e

/-- The reads that return 0 are as many as the `^D` that were taken out of the buffer. -/
theorem eof_run {P : Request → Prop} {ls : List (Action n η Request Empty × Event n η Result)} (hP : Copies P)
    (hboot : Boot s) (hfresh : s.data = fresh) (hok : ∀ l ∈ ls, CallOk P l) (hrun : Run (Step (code n η)) s ls t) :
    ls.countP (fun l => isEof l.2) + pending t = t.data.consumed.count (C 'D') := by
  have hs : Outlined (notes n η) s := .boot hboot (hfresh ▸ ok_fresh) trivial fun _ => trivial
  induction hrun with
  | refl =>
    rw [pending, hboot.lock, hfresh]
    rfl
  | @tail ls t l u hrun hstep ih =>
    have hok' : ∀ l ∈ ls, CallOk P l := fun l hl => hok l (List.mem_append_left _ hl)
    obtain ⟨hl, ho⟩ := (outline hP).run hboot hs hok' hrun
    have hcount := ih hok'
    have hstep' := pending_step hl ho hstep
    rw [List.countP_append, List.countP_singleton]
    omega

end

/-! ### Along a run -/

/-- What a typed character does to the input, by the input alone: it is dropped if there is no room for it. -/
def accepts (b : Data) (c : UInt8) : List Key :=
  if c = C 'P' then []
  else if c = C 'U' then [.kill]
  else if c = C 'H' ∨ c = 0x7f then (if b.line.tail = [] then [] else [.erase])
  else if c ≠ 0 ∧ b.line.committed.length + b.line.tail.length < b.consumed.length + INPUT_BUF_SIZE then
    [.char (stored c) (b.line.committed.length + b.line.tail.length + 1 = b.consumed.length + INPUT_BUF_SIZE)]
  else []

theorem Ok.room_iff (h : Ok b) : b.cons.e - b.cons.r < .ofNat INPUT_BUF_SIZE ↔
    b.line.committed.length + b.line.tail.length < b.consumed.length + INPUT_BUF_SIZE := by
  refine ⟨h.room, fun hlt => ?_⟩
  have hused := h.used
  have hle := h.consumed_le
  have hlt' : b.line.committed.length + b.line.tail.length < b.consumed.length + 128 := hlt
  show (b.cons.e - b.cons.r).toNat < 128
  omega

theorem Ok.intr_keys (h : Ok b) : (Console.intr b c).1.keys = b.keys ++ accepts b c := by
  unfold Console.intr accepts
  by_cases hP : c = C 'P'
  · rw [if_pos hP, if_pos hP, List.append_nil]
  rw [if_neg hP, if_neg hP]
  by_cases hU : c = C 'U'
  · rw [if_pos hU, if_pos hU]
  rw [if_neg hU, if_neg hU]
  by_cases hH : c = C 'H' ∨ c = 0x7f
  · rw [if_pos hH, if_pos hH]
    show (if b.cons.e ≠ b.cons.w then _ else b).keys = _
    by_cases htail : b.line.tail = []
    · rw [if_pos htail, if_neg (fun hne => h.tail_iff.mp hne htail), List.append_nil]
    · rw [if_neg htail, if_pos (h.tail_iff.mpr htail)]
  rw [if_neg hH, if_neg hH]
  by_cases hroom : c ≠ 0 ∧ b.cons.e - b.cons.r < .ofNat INPUT_BUF_SIZE
  · have hfull := h.full_iff (c := stored c) hroom.2
    rw [if_pos hroom]
    show b.keys ++ [.char (stored c) (decide (b.cons.put (stored c)).Full)] = b.keys ++ if _ then _ else _
    rw [if_pos ⟨hroom.1, h.room_iff.mp hroom.2⟩, decide_eq_decide.mpr hfull]
    rfl
  · rw [if_neg hroom, if_neg (fun hc => hroom ⟨hc.1, h.room_iff.mpr hc.2⟩), List.append_nil]

/-- A read that was not killed has got whole what it returns, and is done for a reason. -/
def ReadOk (b : Data) : Event n η Result → Prop
  | .returned _ (.read x got value) => value ≠ -1 → value = got.length ∧ Finished b x got
  | _ => True

theorem readOk_step [DecidableEq η] {s t : ConsState n η} {l : Action n η Request Empty × Event n η Result}
    (ho : Outlined (notes n η) s) (hstep : Step (code n η) s l t) : ReadOk s.data l.2 := by
  cases step_inv hstep with
  | @release a point result pc op =>
    have hin : Inside s.data point := ho.inside (a := a) (by rw [pc]; rfl)
    cases point with
    | fail x got =>
      cases op
      exact fun hne => absurd rfl hne
    | done x got =>
      cases op
      exact fun _ => ⟨rfl, hin⟩
    | intrDone =>
      cases op
      trivial
    | _ => cases op
  | _ => trivial

/-- What a state of the console keeps: the order of the indices, the input of which reads get a prefix without the `^D`, and
    who sleeps. -/
structure Sound (s : ConsState n η) : Prop where
  order : (s.data.cons.w - s.data.cons.r).toNat ≤ (s.data.cons.e - s.data.cons.r).toNat ∧
    (s.data.cons.e - s.data.cons.r).toNat ≤ INPUT_BUF_SIZE
  input : s.data.consumed ++ s.data.cons.contents = s.data.line.committed
  delivered : s.data.delivered = s.data.consumed.filter (· ≠ C 'D')
  typing : ∀ c, (intr s.data c).1.keys = s.data.keys ++ accepts s.data c
  awake : s.lock = none → ∀ p, (s.slots p).status = .sleeping → s.data.cons.r = s.data.cons.w

theorem sound [DecidableEq η] {s : ConsState n η} (hl : Locked s) (ho : Outlined (notes n η) s)
    (hsig : Signalled Due Owes s) : Sound s where
  order := by
    have hok : Ok s.data := ho.data
    have hfits := hok.fits'
    rw [hok.waiting, hok.used]
    unfold INPUT_BUF_SIZE
    omega
  input := ho.data.contents
  delivered := ho.data.delivered
  typing _ := ho.data.intr_keys
  awake hfree p hsleep := by
    obtain ⟨chan, k, hchan, -⟩ := hl.sleeping p hsleep
    have hdue := hsig.not_due hl hfree hsleep hchan
    exact not_not.mp hdue

theorem committed_append (keys more : List Key) : (typed keys).committed <+: (typed (keys ++ more)).committed := by
  induction more using List.reverseRecOn with
  | nil =>
    have hkeys : keys ++ [] = keys := List.append_nil keys
    exact hkeys.symm ▸ List.prefix_refl _
  | append_singleton more key ih =>
    rw [← List.append_assoc, typed_concat]
    exact ih.trans (committed_edit _ _)

theorem committed_set (hok : Ok b) (hop : op b k = .set b' k') : b.line.committed <+: b'.line.committed := by
  cases k with
  | loop x got | wait x got =>
    cases hop
    exact List.prefix_refl _
  | take x got =>
    cases hop
    have hkeys : (take b x got).1.keys = b.keys := by
      unfold take
      simp only
      split_ifs <;> rfl
    have hline : (take b x got).1.line = b.line := congrArg typed hkeys
    exact hline.symm ▸ List.prefix_refl _
  | intr c =>
    cases hop
    rw [Data.line, Data.line, hok.intr_keys]
    exact committed_append _ _
  | _ => cases hop

theorem committed_step [DecidableEq η] {s t : ConsState n η} {l : Action n η Request Empty × Event n η Result}
    (ho : Outlined (notes n η) s) (hstep : Step (code n η) s l t) : s.data.line.committed <+: t.data.line.committed := by
  cases step_inv hstep with
  | @set a point next data pc op => exact committed_set ho.data op
  | @call a request data next pc enter =>
    rcases a with p | i <;> rcases request with ⟨len, fault⟩ | c <;> cases enter <;> exact List.prefix_refl _
  | @callOut a request data pc enter =>
    rcases a with p | i <;> rcases request with ⟨len, fault⟩ | c <;> cases enter
  | @env e data env => exact nomatch e
  | _ => exact List.prefix_refl _

/-- For readers that ask for something and interrupt handlers in any order: the input that is committed stays, reads get it in
    order, each that is not killed returns what it has got for a reason, those that return 0 are as many as the `^D` taken,
    and nobody sleeps while there is input. -/
theorem console_run [DecidableEq η] {s t : ConsState n η} {ls : List (Action n η Request Empty × Event n η Result)}
    (hboot : Boot s) (hfresh : s.data = fresh)
    (hreads : ∀ l ∈ ls, CallOk Request.Plain l)
    (hrun : Run (Step (code n η)) s ls t) :
    AllStates (Step (code n η)) s ls (fun u => Sound u ∧ u.data.line.committed <+: t.data.line.committed) ∧
      t.data.delivered <+: t.data.line.committed.filter (· ≠ C 'D') ∧
      AllSteps (Step (code n η)) s ls (fun u l => ReadOk u.data l.2) ∧
      (t.lock = none → ls.countP (fun l => isEof l.2) = t.data.consumed.count (C 'D')) := by
  have hP : Copies Request.Plain := fun _ _ => id
  have hs : Outlined (notes n η) s := .boot hboot (hfresh ▸ ok_fresh) trivial fun _ => trivial
  have houtline := (outline hP).allStates hboot hs hreads
  refine ⟨?_, ?_, ?_, fun hfree => ?_⟩
  · refine AllStates.and (fun ms u hms hu => ?_) ?_
    · obtain ⟨hl, ho⟩ := houtline ms u hms hu
      exact sound hl ho (signals.run (outline hP) hboot hs (fun l hl => hreads l (hms.subset hl))
        (fun _ l _ _ _ => not_strands _ l) hu)
    · clear hreads
      induction hrun with
      | refl => exact .nil (List.prefix_refl _)
      | @tail ls t l u hrun hstep ih =>
        have hall := ih fun ms v hms => houtline ms v (hms.trans (List.prefix_append _ _))
        have ho := (houtline ls t (List.prefix_append _ _) hrun).2
        have hgrow := committed_step ho hstep
        exact (hall.mono fun v hv => hv.trans hgrow).tail (fun _ _ _ _ => ofStep_det) hrun hstep (List.prefix_refl _)
  · have hok : Ok t.data := (houtline ls t (List.prefix_refl _) hrun).2.data
    rw [hok.delivered]
    exact hok.taken.filter _
  · exact houtline.allSteps (fun _ _ _ _ => ofStep_det) (fun _ _ _ hu _ => readOk_step hu.2) hrun
  · rw [← eof_run hP hboot hfresh hreads hrun, pending, hfree]
    rfl

attribute [local instance] Transition.neZero_one Transition.neZero_two

/-- The characters of a line and a `^D` are typed, with a character that is taken back; process 0 reads the line, and
    process 1 sleeps until it reads the end of the file. -/
def lineAndEof : List (Action 2 (Fin 1) Request Empty) :=
  [.call (.inl 1) (.read 4 none)] ++ List.replicate 9 (.step (.inl 1)) ++
    (['h', 'x', '\x7f', 'i', '\n', '\x04'].flatMap fun c =>
      .call (.inr 0) (.intr (.ofNat c.toNat)) :: List.replicate (if c = '\n' ∨ c = '\x04' then 7 else 3) (.step (.inr 0))) ++
    [.call (.inl 0) (.read 9 none)] ++ List.replicate 11 (.step (.inl 0)) ++ List.replicate 5 (.step (.inl 1))

theorem lineAndEof_runs : (exec (step (code 2 (Fin 1))) (boot 2 (Fin 1) Chan fresh) lineAndEof).isSome := by decide

theorem console_run_lineAndEof :
    let t := ((exec (step (code 2 (Fin 1))) (boot 2 (Fin 1) Chan fresh) lineAndEof).get lineAndEof_runs).2
    t.data.delivered = [104, 105, 10] ∧ t.data.delivered <+: t.data.line.committed.filter (· ≠ C 'D') :=
  ⟨by decide, (console_run (boot_boot _) rfl (by decide) (run_exec lineAndEof_runs)).2.1⟩

end LabSO.Console

import LabSO.Kernel.ItableInv

/-! Runs of the inode table: which entries there are, what they have in common with the inodes on disk, and when inodes are
    freed. -/

namespace LabSO.Itable
open Kernel (NINODE Dinode)
open Transition

variable {P : Type*} {s t : State P} {ino : Ino} {i j : Fin NINODE} {x : Entry P} {d : Dinode} {b : Bool} {r : Option Pc}
  {h h' : Prop}

/-! ### Counters that do not wrap -/

/-- No entry has as many references as `ref` cannot count. -/
def Few (s : State P) : Prop := ∀ i, (s.refs i).card < 2 ^ 31

theorem Refs.ref_toInt (hr : Refs s) (hfew : Few s) (i : Fin NINODE) : (s.entry i).ref.toInt = (s.refs i).card := by
  rw [hr.count, Int32.toInt_ofNat_of_lt (hfew i)]

theorem Refs.refs_of_zero (hr : Refs s) (hfew : Few s) (hi : (s.entry i).ref = 0) : s.refs i = 0 := by
  have hcard := hr.ref_toInt hfew i
  rw [hi] at hcard
  exact Multiset.card_eq_zero.mp (Int.ofNat.inj hcard).symm

theorem Refs.ref_pos (hr : Refs s) (hfew : Few s) (hi : s.refs i ≠ 0) : 0 < (s.entry i).ref := by
  rw [Int32.lt_iff_toInt_lt, hr.ref_toInt hfew]
  exact Int.natCast_pos.mpr (Multiset.card_pos.mpr hi)

theorem Refs.refs_of_pos (hr : Refs s) (hi : 0 < (s.entry i).ref) : s.refs i ≠ 0 := by
  intro hzero
  rw [hr.count, hzero, Multiset.card_zero] at hi
  exact absurd hi (by decide)

theorem Refs.refs_of_one {p : P} (hr : Refs s) (hfew : Few s) (hi : (s.entry i).ref = 1) (hp : p ∈ s.refs i) :
    s.refs i = {p} := by
  have hcard := hr.ref_toInt hfew i
  rw [hi] at hcard
  obtain ⟨q, hq⟩ := Multiset.card_eq_one.mp (Int.ofNat.inj hcard).symm
  rw [hq] at hp ⊢
  rw [Multiset.mem_singleton.mp hp]

/-! ### The entries and the inodes on disk -/

/-- What the holder of the sleep-lock of an inode is doing with it, if there is one. -/
def State.role (s : State P) (i : Fin NINODE) : Option Pc :=
  (s.entry i).lock.map fun p => if (s.pc p).holds = some i then s.pc p else .idle

/-- What an entry with references has to do with the inode on disk, its lock being used as given by `r`; `h` says that the
    kernel has stopped. -/
structure Entry.Ok (x : Entry P) (d : Dinode) (b : Bool) (i : Fin NINODE) (r : Option Pc) (h : Prop) : Prop where
  valid : ∀ c, r = some c → c ≠ .locked i → x.valid = true
  changed : b = true → r = some .idle
  type : x.valid = true → x.type ≠ 0 → d.type = x.type
  same : x.valid = true → x.type ≠ 0 → b = false → d = x.toDinode
  zero : x.valid = true → x.type = 0 → r = some (.clear i) ∨ r = some (.locked i) ∧ h
  trunc : r = some (.trunc i) → x.nlink = 0
  free : r = some (.free i) → x.nlink = 0 ∧ x.size = 0 ∧ x.addrs = Vector.replicate _ 0

theorem Entry.Ok.mono (hx : x.Ok d b i r h) (hh : h → h') : x.Ok d b i r h' :=
  ⟨hx.valid, hx.changed, hx.type, hx.same, fun hv hz => (hx.zero hv hz).imp_right fun hl => ⟨hl.1, hh hl.2⟩, hx.trunc, hx.free⟩

theorem Entry.Ok.congr {y : Entry P} (hx : x.Ok d b i r h) (hv : y.valid = x.valid) (hd : y.toDinode = x.toDinode) :
    y.Ok d b i r h := by
  refine ⟨?_, hx.changed, ?_, ?_, ?_, ?_, ?_⟩
  all_goals simp only [hv, hd]
  · exact hx.valid
  · exact hx.type
  · exact hx.same
  · exact hx.zero
  · exact hx.trunc
  · exact hx.free

/-- How many of the allocated inodes there are with a number: one or none. -/
def allocated (d : Dinode) : Nat := if d.type = 0 then 0 else 1

theorem allocated_congr {d d' : Dinode} (h : d.type = d'.type) : allocated d = allocated d' := by
  rw [allocated, allocated, h]

/-- At most one entry with references is for any given inode, and has to do with the one on disk as it must; and inodes are
    freed that were allocated. -/
structure Sound (disk : Ino → Dinode) (s : State P) : Prop where
  unique : ∀ i j, s.refs i ≠ 0 → s.refs j ≠ 0 → (s.entry i).toIno = (s.entry j).toIno → i = j
  ok : ∀ i, s.refs i ≠ 0 → (s.entry i).Ok (s.disk (s.entry i).toIno) (s.changed i) i (s.role i) (s.panicked ≠ none)
  ledger : ∀ ino, s.frees ino + allocated (s.disk ino) = s.allocs ino + allocated (disk ino)

theorem sound_init (disk : Ino → Dinode) : Sound disk (State.init disk : State P) :=
  ⟨fun _ _ hi => absurd rfl hi, fun _ hi => absurd rfl hi, fun _ => rfl⟩

theorem Sound.others {disk : Ino → Dinode} (hs : Sound disk s) (hi : s.refs i ≠ 0) :
    ∀ j, j ≠ i → s.refs j ≠ 0 → (s.entry j).toIno ≠ (s.entry i).toIno :=
  fun j hne hj heq => hne (hs.unique j i hj hi heq)

theorem Sound.panic {disk : Ino → Dinode} (hs : Sound disk s) (msg : String) : Sound disk (s.panic msg) :=
  ⟨hs.unique, fun i hi => (hs.ok i hi).mono fun _ => nofun, hs.ledger⟩

variable [DecidableEq P] {p q : P} {disk : Ino → Dinode} {c : Pc} {m : Multiset P}

/-- A process goes on by a step that concerns one entry and its inode. -/
theorem Sound.update (hs : Sound disk s) (hentry : t.entry = Function.update s.entry i x)
    (hpc : t.pc = Function.update s.pc p c) (hrefs : t.refs = Function.update s.refs i m)
    (hchanged : t.changed = Function.update s.changed i b) (hdisk : t.disk = Function.update s.disk x.toIno d)
    (hhalted : s.panicked ≠ none → t.panicked ≠ none) (hold : ∀ j, j ≠ i → (s.pc p).holds ≠ some j)
    (hnew : ∀ j, j ≠ i → c.holds ≠ some j) (hother : ∀ j, j ≠ i → s.refs j ≠ 0 → (s.entry j).toIno ≠ x.toIno)
    (hrole : t.role i = r) (hok : m ≠ 0 → x.Ok d b i r (t.panicked ≠ none))
    (hledger : ∀ ino, t.frees ino + allocated (t.disk ino) = t.allocs ino + allocated (disk ino)) : Sound disk t where
  unique j k hj hk heq := by
    rw [hrefs] at hj hk
    rw [hentry] at heq
    rcases eq_or_ne j i with rfl | hji
    · rcases eq_or_ne k j with rfl | hkj
      · rfl
      · rw [Function.update_self, Function.update_of_ne hkj] at heq
        rw [Function.update_of_ne hkj] at hk
        exact absurd heq.symm (hother k hkj hk)
    · rw [Function.update_of_ne hji] at hj heq
      rcases eq_or_ne k i with rfl | hki
      · rw [Function.update_self] at heq
        exact absurd heq (hother j hji hj)
      · rw [Function.update_of_ne hki] at hk heq
        exact hs.unique j k hj hk heq
  ok j hj := by
    rw [hrefs] at hj
    rw [hdisk, hentry, hchanged]
    rcases eq_or_ne j i with rfl | hji
    · rw [Function.update_self] at hj
      rw [Function.update_self, Function.update_self, Function.update_self, hrole]
      exact hok hj
    · rw [Function.update_of_ne hji] at hj
      have hrole : t.role j = s.role j := by
        rw [State.role, State.role, hentry, hpc, Function.update_of_ne hji]
        refine congrArg (Option.map · _) (funext fun q => ?_)
        rcases eq_or_ne q p with rfl | hqp
        · rw [Function.update_self, if_neg (hnew j hji), if_neg (hold j hji)]
        · rw [Function.update_of_ne hqp]
      rw [Function.update_of_ne hji, Function.update_of_ne hji, Function.update_of_ne (hother j hji hj), hrole]
      exact (hs.ok j hj).mono hhalted
  ledger := hledger

/-! ### The lock of an entry after a step -/

omit [DecidableEq P] in
theorem role_of_free (h : (s.entry i).lock = none) : s.role i = none := by
  rw [State.role, h]
  rfl

omit [DecidableEq P] in
theorem role_of_holds (h : (s.entry i).lock = some p) (hp : (s.pc p).holds = some i) : s.role i = some (s.pc p) := by
  rw [State.role, h, Option.map_some, if_pos hp]

omit [DecidableEq P] in
theorem role_of_idle (h : (s.entry i).lock = some p) (hp : s.pc p = .idle) : s.role i = some .idle := by
  rw [State.role, h, Option.map_some, hp]
  rfl

omit [DecidableEq P] in
theorem role_unlocked (hentry : t.entry = Function.update s.entry i x) (hlock : x.lock = none) : t.role i = none :=
  role_of_free (by rw [hentry, Function.update_self, hlock])

theorem role_busy (hentry : t.entry = Function.update s.entry i x) (hpc : t.pc = Function.update s.pc p c)
    (hlock : x.lock = some p) (hc : c.holds = some i) : t.role i = some c := by
  rw [State.role, hentry, hpc, Function.update_self, hlock, Option.map_some, Function.update_self, if_pos hc]

theorem role_held (hentry : t.entry = Function.update s.entry i x) (hpc : t.pc = Function.update s.pc p c)
    (hlock : x.lock = some p) (hc : c.holds ≠ some i) : t.role i = some .idle := by
  rw [State.role, hentry, hpc, Function.update_self, hlock, Option.map_some, Function.update_self, if_neg hc]

/-- The lock stays as it was, and the process that takes the step is not busy with it. -/
theorem role_congr (hentry : t.entry = Function.update s.entry i x) (hpc : t.pc = Function.update s.pc p c)
    (hlock : x.lock = (s.entry i).lock) (hold : (s.pc p).holds = none) (hnew : c.holds = none) : t.role i = s.role i := by
  rw [State.role, State.role, hentry, hpc, Function.update_self, hlock]
  refine congrArg (Option.map · _) (funext fun q => ?_)
  rcases eq_or_ne q p with rfl | hqp
  · rw [Function.update_self, hold, hnew]
    rfl
  · rw [Function.update_of_ne hqp]

/-- An inode is changed by its holder only, who writes it before unlocking it. -/
def Kept (s : State P) (a : Action P) : Prop := ∀ p i, a = .call p (.iunlock i) → s.changed i = false

/-- A step that neither uses the lock of an entry nor writes the inode on disk, and after which the entry has the same
    fields. -/
theorem Sound.refer (hs : Sound disk s) (hi : s.refs i ≠ 0) (hentry : t.entry = Function.update s.entry i x)
    (hpc : t.pc = Function.update s.pc p c) (hrefs : t.refs = Function.update s.refs i m)
    (hrest : t.changed = s.changed ∧ t.disk = s.disk ∧ t.panicked = s.panicked ∧ t.frees = s.frees ∧ t.allocs = s.allocs)
    (hx : x.toIno = (s.entry i).toIno ∧ x.toDinode = (s.entry i).toDinode ∧ x.lock = (s.entry i).lock ∧
      x.valid = (s.entry i).valid) (hold : (s.pc p).holds = none) (hnew : c.holds = none) : Sound disk t := by
  obtain ⟨hchanged, hdisk, hpanicked, hfrees, hallocs⟩ := hrest
  obtain ⟨hino, hd, hlock, hvalid⟩ := hx
  refine hs.update hentry hpc hrefs (hchanged.trans (Function.update_eq_self ..).symm)
    (hdisk.trans (Function.update_eq_self ..).symm) (fun h => hpanicked ▸ h) (fun j _ => by rw [hold]; nofun)
    (fun j _ => by rw [hnew]; nofun) (hino ▸ hs.others hi) (role_congr hentry hpc hlock hold hnew) (fun _ => ?_) fun ino => ?_
  · rw [hino, hpanicked]
    exact (hs.ok i hi).congr hvalid hd
  · rw [hfrees, hallocs, hdisk]
    exact hs.ledger ino

theorem Sound.ialloc {type : Int16} (hs : Sound disk s) (hpc : s.pc p = .idle) (hzero : (s.disk ino).type = 0)
    (htype : type ≠ 0) : Sound disk { (s.setDisk ino { Dinode.zero with type }).setPc p (.getting ino) with
      allocs := Function.update s.allocs ino (s.allocs ino + 1) } where
  unique := hs.unique
  ok j hj := by
    have hok := hs.ok j hj
    have hrole : State.role { (s.setDisk ino { Dinode.zero with type }).setPc p (.getting ino) with
        allocs := Function.update s.allocs ino (s.allocs ino + 1) } j = s.role j :=
      role_congr (x := s.entry j) (Function.update_eq_self ..).symm rfl rfl (by rw [hpc]; rfl) rfl
    rw [hrole]
    show (s.entry j).Ok (Function.update s.disk ino _ (s.entry j).toIno) _ _ _ _
    rcases eq_or_ne (s.entry j).toIno ino with rfl | hne
    · -- the entry has no inode of this number
      have hnone : (s.entry j).valid = true → (s.entry j).type = 0 := by
        intro hvalid
        by_contra htype
        exact htype ((hok.type hvalid htype).symm.trans hzero)
      exact ⟨hok.valid, hok.changed, fun hv h => absurd (hnone hv) h, fun hv h => absurd (hnone hv) h, hok.zero, hok.trunc,
        hok.free⟩
    · rw [Function.update_of_ne hne]
      exact hok
  ledger k := by
    show s.frees k + allocated (Function.update s.disk ino _ k) = Function.update s.allocs ino _ k + _
    have hledger := hs.ledger k
    rcases eq_or_ne k ino with rfl | hne
    · rw [Function.update_self, Function.update_self, allocated, if_neg htype]
      rw [allocated, if_pos hzero] at hledger
      omega
    · rw [Function.update_of_ne hne, Function.update_of_ne hne]
      exact hledger

/-- What the holder of a lock does with the entry and the inode on disk. -/
theorem Sound.hold {f : Ino → Nat} (hs : Sound disk s) (hi : s.refs i ≠ 0)
    (hentry : t.entry = Function.update s.entry i x) (hpc : t.pc = Function.update s.pc p c) (hrefs : t.refs = s.refs)
    (hchanged : t.changed = Function.update s.changed i b) (hdisk : t.disk = Function.update s.disk (s.entry i).toIno d)
    (hrest : t.panicked = s.panicked ∧ t.allocs = s.allocs) (hino : x.toIno = (s.entry i).toIno)
    (hold : (s.pc p).holds = none ∨ (s.pc p).holds = some i) (hnew : c.holds = none ∨ c.holds = some i)
    (hrole : t.role i = r) (hok : x.Ok d b i r (t.panicked ≠ none))
    (hfrees : t.frees = Function.update s.frees (s.entry i).toIno (f (s.entry i).toIno))
    (hledger : f (s.entry i).toIno + allocated d = s.frees (s.entry i).toIno + allocated (s.disk (s.entry i).toIno)) :
    Sound disk t := by
  have hne : ∀ {c' : Pc}, c'.holds = none ∨ c'.holds = some i → ∀ j, j ≠ i → c'.holds ≠ some j := by
    rintro c' (h | h) j hj heq
    · exact absurd (h.symm.trans heq) nofun
    · exact hj (Option.some.inj (heq.symm.trans h))
  refine hs.update hentry hpc (hrefs.trans (Function.update_eq_self ..).symm) hchanged (hino ▸ hdisk) (fun h => hrest.1 ▸ h)
    (hne hold) (hne hnew) (hino ▸ hs.others hi) hrole (fun _ => hok) fun ino => ?_
  have hold := hs.ledger ino
  rw [hfrees, hdisk, hrest.2]
  rcases eq_or_ne ino (s.entry i).toIno with rfl | hne
  · rw [Function.update_self, Function.update_self]
    omega
  · rw [Function.update_of_ne hne, Function.update_of_ne hne]
    exact hold

omit [DecidableEq P] in
theorem Gets.holds (h : Gets s a p ino) : (s.pc p).holds = none := by
  cases h with
  | call hpc => rw [hpc]; rfl
  | next hpc => rw [hpc]; rfl

omit [DecidableEq P] in
/-- An inode whose lock is held, but not by an `iput` that has freed it, has the type that it has on disk. -/
theorem Entry.Ok.typed (hx : x.Ok d b i r h) (hh : ¬h) (hvalid : x.valid = true) (hr : r ≠ some (.clear i)) : x.type ≠ 0 := by
  intro hzero
  rcases hx.zero hvalid hzero with hclear | ⟨-, hhalted⟩
  · exact hr hclear
  · exact hh hhalted

theorem Move.sound (hr : Refs s) (hfew : Few s) (hrun : s.panicked = none) (hkept : Kept s a) (hs : Sound disk s)
    (h : Move s a t) : Sound disk t := by
  have hsame : ∀ i, Function.update s.entry i (s.entry i) = s.entry := fun i => Function.update_eq_self ..
  have hpcSame : ∀ p, Function.update s.pc p (s.pc p) = s.pc := fun p => Function.update_eq_self ..
  have hrefsSame : ∀ i, Function.update s.refs i (s.refs i) = s.refs := fun i => Function.update_eq_self ..
  have hchangedSame : ∀ i, Function.update s.changed i (s.changed i) = s.changed := fun i => Function.update_eq_self ..
  have hdiskSame : ∀ ino, Function.update s.disk ino (s.disk ino) = s.disk := fun ino => Function.update_eq_self ..
  have hfreesSame : ∀ ino, Function.update s.frees ino (s.frees ino) = s.frees := fun ino => Function.update_eq_self ..
  have hne : ∀ {i p}, p ∈ s.refs i → s.refs i ≠ 0 := fun hp hzero => Multiset.notMem_zero _ (hzero ▸ hp)
  have hgoing : ¬(s.panicked ≠ none) := not_not.mpr hrun
  have hunchanged : ∀ {i p}, (s.entry i).lock = some p → (s.pc p).holds = some i → s.changed i = false := by
    intro i p hlock hholds
    by_contra hchanged
    have hidle := (hs.ok i (hne (hr.locks hlock))).changed (Bool.eq_true_of_not_eq_false hchanged)
    rw [role_of_holds hlock hholds] at hidle
    rw [Option.some.inj hidle] at hholds
    cases hholds
  cases h with
  | found hget hi =>
    exact hs.refer (hr.refs_of_pos (lookup_found hi).1) rfl rfl rfl ⟨rfl, rfl, rfl, rfl, rfl⟩ ⟨rfl, rfl, rfl, rfl⟩
      hget.holds rfl
  | @recycle a p ino i hget hmiss hi =>
    have hzero := hr.refs_of_zero hfew (empty_found hi)
    have hlock : (s.entry i).lock = none := by
      rw [Option.eq_none_iff_forall_ne_some]
      intro q hq
      exact hne (hr.locks hq) hzero
    refine hs.update (d := s.disk ino) rfl rfl rfl rfl (hdiskSame ino).symm id (fun j _ => by rw [hget.holds]; nofun)
      (fun _ _ => nofun) (fun j _ hj => lookup_missed hmiss (hr.ref_pos hfew hj)) (role_unlocked rfl hlock)
      (fun _ => ?_) hs.ledger
    exact ⟨nofun, nofun, nofun, nofun, nofun, nofun, nofun⟩
  | noInodes | panic => exact hs.panic _
  | idup hpc hp =>
    exact hs.refer (hne hp) rfl (hpcSame _).symm rfl ⟨rfl, rfl, rfl, rfl, rfl⟩ ⟨rfl, rfl, rfl, rfl⟩ (by rw [hpc]; rfl)
      (by rw [hpc]; rfl)
  | ilock hpc hp =>
    exact hs.refer (hne hp) (hsame _).symm rfl (hrefsSame _).symm ⟨rfl, rfl, rfl, rfl, rfl⟩ ⟨rfl, rfl, rfl, rfl⟩
      (by rw [hpc]; rfl) rfl
  | @iunlock p i hpc hlock =>
    have hi := hne (hr.locks hlock)
    have hok := hs.ok i hi
    have hfalse := hkept p i rfl
    have hrole := role_of_idle hlock hpc
    have htype := hok.typed hgoing (hok.valid _ hrole nofun) (by rw [hrole]; nofun)
    refine hs.hold (f := s.frees) hi rfl (hpcSame p).symm rfl (hchangedSame i).symm (hdiskSame _).symm ⟨rfl, rfl⟩ rfl
      (Or.inl (by rw [hpc]; rfl)) (Or.inl (by rw [hpc]; rfl)) (role_unlocked rfl rfl) ?_ (hfreesSame _).symm rfl
    exact ⟨nofun, fun h => absurd h (by rw [hfalse]; nofun), hok.type, hok.same, fun _ h => absurd h htype, nofun, nofun⟩
  | iput hpc hspare =>
    exact hs.refer (hne (mem_of_spare hspare)) rfl (hpcSame _).symm rfl ⟨rfl, rfl, rfl, rfl, rfl⟩ ⟨rfl, rfl, rfl, rfl⟩
      (by rw [hpc]; rfl) (by rw [hpc]; rfl)
  | @test p i hpc hspare hfrees hlock =>
    have hi := hne (mem_of_spare hspare)
    have hok := hs.ok i hi
    have hrole := role_of_free hlock
    have hfalse : s.changed i = false := by
      by_contra hchanged
      have hidle := hok.changed (Bool.eq_true_of_not_eq_false hchanged)
      rw [hrole] at hidle
      cases hidle
    have htype := hok.typed hgoing hfrees.2.1 (by rw [hrole]; nofun)
    refine hs.hold (f := s.frees) hi rfl rfl rfl (hchangedSame i).symm (hdiskSame _).symm ⟨rfl, rfl⟩ rfl
      (Or.inl (by rw [hpc]; rfl)) (Or.inr rfl) (role_busy rfl rfl rfl rfl) ?_ (hfreesSame _).symm rfl
    exact ⟨fun _ _ _ => hfrees.2.1, fun h => absurd h (by rw [hfalse]; nofun), hok.type, hok.same, fun _ h => absurd h htype,
      fun _ => hfrees.2.2, nofun⟩
  | ialloc hpc hzero htype => exact hs.ialloc hpc hzero htype
  | @change p i d hpc hlock =>
    have hi := hne (hr.locks hlock)
    have hok := hs.ok i hi
    have hrole := role_of_idle hlock hpc
    have hvalid := hok.valid _ hrole nofun
    have htype := hok.typed hgoing hvalid (by rw [hrole]; nofun)
    refine hs.hold (f := s.frees) hi rfl (hpcSame p).symm rfl rfl (hdiskSame _).symm ⟨rfl, rfl⟩ rfl
      (Or.inl (by rw [hpc]; rfl)) (Or.inl (by rw [hpc]; rfl)) (role_held rfl (hpcSame p).symm hlock (by rw [hpc]; nofun)) ?_
      (hfreesSame _).symm rfl
    exact ⟨fun _ _ _ => hvalid, fun _ => rfl, fun _ _ => hok.type hvalid htype, nofun, fun _ h => absurd h htype, nofun,
      nofun⟩
  | @iupdate p i hpc hlock =>
    have hi := hne (hr.locks hlock)
    have hok := hs.ok i hi
    have hrole := role_of_idle hlock hpc
    have hvalid := hok.valid _ hrole nofun
    have htype := hok.typed hgoing hvalid (by rw [hrole]; nofun)
    refine hs.hold (f := s.frees) hi (hsame i).symm (hpcSame p).symm rfl rfl rfl ⟨rfl, rfl⟩ rfl
      (Or.inl (by rw [hpc]; rfl)) (Or.inl (by rw [hpc]; rfl)) (role_held (hsame i).symm (hpcSame p).symm hlock (by rw [hpc]; nofun)) ?_
      (hfreesSame _).symm (congrArg _ (allocated_congr (hok.type hvalid htype).symm))
    exact ⟨fun _ _ _ => hvalid, nofun, fun _ _ => rfl, fun _ _ _ => rfl, fun _ h => absurd h htype, nofun, nofun⟩
  | @acquire p i hpc hlock =>
    have hi := hne (hr.uses (by rw [hpc]; rfl))
    have hok := hs.ok i hi
    have hrole := role_of_free hlock
    have hfalse : s.changed i = false := by
      by_contra hchanged
      have hidle := hok.changed (Bool.eq_true_of_not_eq_false hchanged)
      rw [hrole] at hidle
      cases hidle
    refine hs.hold (f := s.frees) hi rfl rfl rfl (hchangedSame i).symm (hdiskSame _).symm ⟨rfl, rfl⟩ rfl
      (Or.inl (by rw [hpc]; rfl)) (Or.inr rfl) (role_busy rfl rfl rfl rfl) ?_ (hfreesSame _).symm rfl
    refine ⟨fun c hc hlocked => absurd (Option.some.inj hc).symm hlocked, fun h => absurd h (by rw [hfalse]; nofun), hok.type,
      hok.same, fun hvalid h => ?_, nofun, nofun⟩
    exact absurd h (hok.typed hgoing hvalid (by rw [hrole]; nofun))
  | @hit p i hpc hvalid =>
    have hholds : (s.pc p).holds = some i := by rw [hpc]; rfl
    have hlock := hr.holds hholds
    have hi := hne (hr.locks hlock)
    have hok := hs.ok i hi
    have hrole := role_of_holds hlock hholds
    have htype := hok.typed hgoing hvalid (by rw [hrole, hpc]; nofun)
    refine hs.hold (f := s.frees) hi (hsame i).symm rfl rfl (hchangedSame i).symm (hdiskSame _).symm ⟨rfl, rfl⟩ rfl
      (Or.inr hholds) (Or.inl rfl) (role_held (hsame i).symm rfl hlock nofun) ?_ (hfreesSame _).symm rfl
    exact ⟨fun _ _ _ => hvalid, fun _ => rfl, hok.type, hok.same, fun _ h => absurd h htype, nofun, nofun⟩
  | @noType p i hpc hvalid hzero =>
    have hholds : (s.pc p).holds = some i := by rw [hpc]; rfl
    have hlock := hr.holds hholds
    have hi := hne (hr.locks hlock)
    have hfalse := hunchanged hlock hholds
    refine hs.update rfl (hpcSame p).symm (hrefsSame i).symm (hchangedSame i).symm (hdiskSame (s.entry i).toIno).symm nofun
      (fun j hj => ?_) (fun j hj => ?_) (hs.others hi) (role_busy rfl (hpcSame p).symm hlock hholds) (fun _ => ?_) hs.ledger
    · rw [hholds]
      exact fun h => hj (Option.some.inj h).symm
    · rw [hholds]
      exact fun h => hj (Option.some.inj h).symm
    · rw [hpc]
      exact ⟨fun _ _ _ => rfl, fun h => absurd h (by rw [hfalse]; nofun), fun _ _ => rfl, fun _ _ _ => rfl,
        fun _ _ => Or.inr ⟨rfl, nofun⟩, nofun, nofun⟩
  | @load p i hpc hvalid htype =>
    have hholds : (s.pc p).holds = some i := by rw [hpc]; rfl
    have hlock := hr.holds hholds
    have hi := hne (hr.locks hlock)
    refine hs.hold (f := s.frees) hi rfl rfl rfl (hchangedSame i).symm (hdiskSame _).symm ⟨rfl, rfl⟩ rfl
      (Or.inr hholds) (Or.inl rfl) (role_held rfl rfl hlock nofun) ?_ (hfreesSame _).symm rfl
    exact ⟨fun _ _ _ => rfl, fun _ => rfl, fun _ _ => rfl, fun _ _ _ => rfl, fun _ h => absurd h htype, nofun, nofun⟩
  | @itrunc p i hpc =>
    have hholds : (s.pc p).holds = some i := by rw [hpc]; rfl
    have hlock := hr.holds hholds
    have hi := hne (hr.locks hlock)
    have hok := hs.ok i hi
    have hrole : s.role i = some (.trunc i) := (role_of_holds hlock hholds).trans (congrArg some hpc)
    have hvalid := hok.valid _ hrole nofun
    have htype := hok.typed hgoing hvalid (by rw [hrole]; nofun)
    have hfalse := hunchanged hlock hholds
    refine hs.hold (f := s.frees) hi rfl rfl rfl (hchangedSame i).symm rfl ⟨rfl, rfl⟩ rfl (Or.inr hholds) (Or.inr rfl)
      (role_busy rfl rfl hlock rfl) ?_ (hfreesSame _).symm (congrArg _ (allocated_congr (hok.type hvalid htype).symm))
    exact ⟨fun _ _ _ => hvalid, fun h => absurd h (by rw [hfalse]; nofun), fun _ _ => rfl, fun _ _ _ => rfl,
      fun _ h => absurd h htype, nofun, fun _ => ⟨hok.trunc hrole, rfl, rfl⟩⟩
  | @ifree p i hpc =>
    have hholds : (s.pc p).holds = some i := by rw [hpc]; rfl
    have hlock := hr.holds hholds
    have hi := hne (hr.locks hlock)
    have hok := hs.ok i hi
    have hrole : s.role i = some (.free i) := (role_of_holds hlock hholds).trans (congrArg some hpc)
    have hvalid := hok.valid _ hrole nofun
    have htype := hok.typed hgoing hvalid (by rw [hrole]; nofun)
    have hfalse := hunchanged hlock hholds
    refine hs.hold (f := fun ino => s.frees ino + 1) hi rfl rfl rfl (hchangedSame i).symm rfl ⟨rfl, rfl⟩ rfl (Or.inr hholds)
      (Or.inr rfl) (role_busy rfl rfl hlock rfl) ?_ rfl ?_
    · exact ⟨fun _ _ _ => hvalid, fun h => absurd h (by rw [hfalse]; nofun), fun _ _ => rfl, fun _ _ _ => rfl,
        fun _ _ => Or.inl rfl, nofun, nofun⟩
    · have hdisk : (s.disk (s.entry i).toIno).type ≠ 0 := (hok.type hvalid htype).symm ▸ htype
      simp only [allocated, if_neg hdisk]
      rfl
  | @clear p i hpc =>
    have hholds : (s.pc p).holds = some i := by rw [hpc]; rfl
    have hlock := hr.holds hholds
    have hi := hne (hr.locks hlock)
    have hfalse := hunchanged hlock hholds
    refine hs.hold (f := s.frees) hi rfl rfl rfl (hchangedSame i).symm (hdiskSame _).symm ⟨rfl, rfl⟩ rfl (Or.inr hholds)
      (Or.inl rfl) (role_unlocked rfl rfl) ?_ (hfreesSame _).symm rfl
    exact ⟨nofun, fun h => absurd h (by rw [hfalse]; nofun), nofun, nofun, nofun, nofun, nofun⟩
  | @drop p i hpc =>
    exact hs.refer (hne (hr.uses (by rw [hpc]; rfl))) rfl rfl rfl ⟨rfl, rfl, rfl, rfl, rfl⟩ ⟨rfl, rfl, rfl, rfl⟩
      (by rw [hpc]; rfl) rfl
  | @pass p q i hspare =>
    have hold : ∀ {j}, Function.update s.refs i (q ::ₘ (s.refs i).erase p) j ≠ 0 → s.refs j ≠ 0 := by
      intro j hj
      rcases eq_or_ne j i with rfl | hji
      · exact hne (mem_of_spare hspare)
      · rwa [Function.update_of_ne hji] at hj
    exact ⟨fun j k hj hk => hs.unique j k (hold hj) (hold hk), fun j hj => hs.ok j (hold hj), hs.ledger⟩

end LabSO.Itable

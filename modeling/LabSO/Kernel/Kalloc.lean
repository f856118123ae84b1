import LabSO.Kernel.PageMapping
import LabSO.Lib.Transition

/-! `kalloc` and `kfree` (`kalloc.c`) on several CPUs. The free list is in the free pages, under `kmem.lock`; the junk is
    written byte by byte outside of the lock. -/

namespace LabSO.Paging
namespace Kalloc
open Memory Transition

/-- Where a CPU stands, with the page that it works on and the number of bytes that are filled. -/
inductive Pc
  | out
  /-- `memset(pa, 1, PGSIZE)`. -/
  | freeFill (pa i : Nat)
  | freeAcquire (pa : Nat)
  /-- `r->next = kmem.freelist`. -/
  | freeLink (pa : Nat)
  /-- `kmem.freelist = r`. -/
  | freeSet (pa : Nat)
  | freeRelease
  | allocAcquire
  /-- `r = kmem.freelist`. -/
  | allocRead
  /-- `if(r) kmem.freelist = r->next`. -/
  | allocPop (r : Nat)
  | allocRelease (r : Nat)
  /-- `memset((char*)r, 5, PGSIZE)`. -/
  | allocFill (r i : Nat)
  | panicked
deriving DecidableEq

/-- Who has a page: the free list, a CPU in `kalloc` or `kfree`, or who called `kalloc`. -/
inductive Holder (κ : Type)
  | free
  | cpu (c : κ)
  | caller
deriving DecidableEq

/-- The code does not look at `holder`. -/
structure State (κ : Type) where
  mem : Mem
  freelist : Nat
  /-- The CPU that has `kmem.lock`. -/
  lock : Option κ
  pcs : κ → Pc
  holder : Nat → Holder κ

inductive Action (κ : Type)
  | run (c : κ)
  | kalloc (c : κ)
  | kfree (c : κ) (pa : Nat)
  | write (a : Nat) (v : UInt8)

section
variable {κ : Type} [DecidableEq κ]

def State.setPc (s : State κ) (c : κ) (pc : Pc) : State κ := { s with pcs := Function.update s.pcs c pc }

def State.give (s : State κ) (b : Nat) (h : Holder κ) : State κ := { s with holder := Function.update s.holder b h }

/-- `r->next`. -/
@[irreducible] def next (m : Mem) (r : Nat) : Nat := load m r 8

def State.fill (s : State κ) (a : Nat) (v : UInt8) : State κ := { s with mem := Function.update s.mem a v }

/-- The next statement of a CPU. -/
def run (s : State κ) (c : κ) : Pc → Option (State κ)
  | .out | .panicked => none
  | .freeFill pa i =>
    if i < PGSIZE then some ((s.fill (pa + i) 1).setPc c (.freeFill pa (i + 1))) else some (s.setPc c (.freeAcquire pa))
  | .freeAcquire pa => if s.lock = none then some ({ s with lock := some c }.setPc c (.freeLink pa)) else none
  | .freeLink pa => some ({ s with mem := store s.mem pa 8 s.freelist }.setPc c (.freeSet pa))
  | .freeSet pa => some (({ s with freelist := pa }.give pa .free).setPc c .freeRelease)
  | .freeRelease => some ({ s with lock := none }.setPc c .out)
  | .allocAcquire => if s.lock = none then some ({ s with lock := some c }.setPc c .allocRead) else none
  | .allocRead => some (s.setPc c (.allocPop s.freelist))
  | .allocPop r =>
    if r = 0 then some (s.setPc c (.allocRelease 0))
    else some (({ s with freelist := next s.mem r }.give r (.cpu c)).setPc c (.allocRelease r))
  | .allocRelease r => some ({ s with lock := none }.setPc c (if r = 0 then .out else .allocFill r 0))
  | .allocFill r i =>
    if i < PGSIZE then some ((s.fill (r + i) 5).setPc c (.allocFill r (i + 1))) else some ((s.give r .caller).setPc c .out)

/-- A byte of a page that a caller of `kalloc` has, or of no page. -/
def Writable (M : Image) (s : State κ) (a : Nat) : Prop :=
  ∀ b, Page M b → b ≤ a → a < b + PGSIZE → s.holder b = .caller

variable (M : Image)

/-- A CPU goes on, or calls `kalloc`, or calls `kfree` with a page that `kalloc` has returned and that was not freed since; or
    who has pages writes in them. -/
inductive Step : State κ → Action κ → State κ → Prop
  | run {s t : State κ} {c : κ} (h : run s c (s.pcs c) = some t) : Step s (.run c) t
  | kalloc {s : State κ} {c : κ} (hout : s.pcs c = .out) : Step s (.kalloc c) (s.setPc c .allocAcquire)
  | kfree {s : State κ} {c : κ} {pa : Nat} (hout : s.pcs c = .out) (hpa : s.holder pa = .caller) :
    Step s (.kfree c pa) ((s.give pa (.cpu c)).setPc c
      (if pa % PGSIZE ≠ 0 ∨ pa < M.kend ∨ PHYSTOP ≤ pa then .panicked else .freeFill pa 0))
  | write {s : State κ} {a : Nat} {v : UInt8} (ha : Writable M s a) : Step s (.write a v) (s.fill a v)

end

/-- As the boot CPU leaves the allocator: no CPU is in it, and nobody has a page. -/
def State.boot (κ : Type) (t : Phys) : State κ where
  mem := t.mem
  freelist := t.freelist
  lock := none
  pcs _ := .out
  holder _ := .free

variable {κ : Type} (M : Image)

/-- The pages that are handed out. -/
def State.handed (s : State κ) : Set Nat := { b | s.holder b ≠ .free }

/-- The free list is `l`, which comes to an end and has no page twice; it and what is handed out are apart, and together they
    are all pages. `kalloc` returns 0 only when the list is empty, and `kfree` does not panic. -/
structure Sound (s : State κ) (l : List Nat) : Prop where
  chain : Chain (next s.mem) s.freelist l
  nodup : l.Nodup
  pages : ∀ b ∈ l, b % PGSIZE = 0 ∧ M.kend ≤ b ∧ b < PHYSTOP
  disjoint : ∀ b ∈ l, b ∉ s.handed
  together : ∀ b, b ∈ l ∨ b ∈ s.handed ↔ Page M b
  empty : ∀ c, s.pcs c = .allocRelease 0 → l = []
  running : ∀ c, s.pcs c ≠ .panicked

/-! ### The invariant -/

/-- With `kmem.lock` held. -/
def Pc.Locked : Pc → Prop
  | .freeLink _ | .freeSet _ | .freeRelease | .allocRead | .allocPop _ | .allocRelease _ => True
  | _ => False

/-- The page that a CPU works on. -/
def Pc.page? : Pc → Option Nat
  | .freeFill pa _ | .freeAcquire pa | .freeLink pa | .freeSet pa => some pa
  | .allocRelease r => if r = 0 then none else some r
  | .allocFill r _ => some r
  | _ => none

/-- What a CPU has found with the lock held. -/
def Pc.Found (s : State κ) : Pc → Prop
  | .freeSet pa => next s.mem pa = s.freelist
  | .allocPop r => r = s.freelist
  | .allocRelease r => r = 0 → s.freelist = 0
  | .panicked => False
  | _ => True

structure Inv (s : State κ) (l : List Nat) : Prop where
  chain : Chain (next s.mem) s.freelist l
  nodup : l.Nodup
  mem : ∀ b, b ∈ l ↔ Page M b ∧ s.holder b = .free
  handed : ∀ b, s.holder b ≠ .free → Page M b
  lock : ∀ c, s.lock = some c ↔ (s.pcs c).Locked
  page : ∀ c b, (s.pcs c).page? = some b → s.holder b = .cpu c
  found : ∀ c, (s.pcs c).Found s

section
variable {M} {s t : State κ} {l l' : List Nat} {c c' : κ} {pc : Pc} {b r pa : Nat} {x : Holder κ} {m : Mem} {e : Action κ}
  {es : List (Action κ)}

theorem Pc.Found.congr (h : pc.Found s) (hmem : t.mem = s.mem) (hlist : t.freelist = s.freelist) : pc.Found t := by
  cases pc with
  | freeSet pa => simpa only [Found, hmem, hlist] using h
  | allocPop r | allocRelease r => simpa only [Found, hlist] using h
  | _ => exact h

/-- Without the lock nothing has been found. -/
theorem Pc.Found.of_unlocked (h : pc.Found s) (hpc : ¬pc.Locked) : pc.Found t := by
  cases pc <;> first | trivial | exact absurd trivial hpc

theorem Inv.freelist_lt (h : Inv M s l) : s.freelist < 256 ^ 8 := by
  by_cases hz : s.freelist = 0
  · omega
  · obtain ⟨l', rfl, -⟩ := h.chain.inv hz
    have hbounds := ((h.mem _).mp List.mem_cons_self).1.bounds
    omega

/-- Memory changes, but for the links of the free pages and the link that a CPU has just written. -/
theorem Inv.setMem (h : Inv M s l) (hfree : ∀ b, Page M b → s.holder b = .free → next m b = next s.mem b)
    (hset : ∀ c pa, s.pcs c = .freeSet pa → next m pa = next s.mem pa) : Inv M { s with mem := m } l := by
  refine ⟨h.chain.congr fun b hb => ?_, h.nodup, h.mem, h.handed, h.lock, h.page, fun c => ?_⟩
  · obtain ⟨hpage, hholder⟩ := (h.mem b).mp hb
    exact hfree b hpage hholder
  · have hfound := h.found c
    show (s.pcs c).Found { s with mem := m }
    cases hpc : s.pcs c <;> rw [hpc] at hfound <;> try exact hfound
    next pa => exact (hset c pa hpc).trans hfound

/-- A write within a page leaves the links of the others. -/
theorem next_outside (hb : Page M b) (hpa : Page M pa) (hne : pa ≠ b) (hm : ∀ a, ¬(b ≤ a ∧ a < b + PGSIZE) → m a = s.mem a) :
    next m pa = next s.mem pa := by
  unfold next
  refine load_congr fun i hi => hm _ ?_
  rcases page_apart M b pa hb hpa hne.symm with hap | hap <;> simp only [PGSIZE] at * <;> omega

/-- A CPU writes within its page. -/
theorem Inv.write (h : Inv M s l) (hb : (s.pcs c).page? = some b) (hset : ∀ pa, s.pcs c ≠ .freeSet pa)
    (hm : ∀ a, ¬(b ≤ a ∧ a < b + PGSIZE) → m a = s.mem a) : Inv M { s with mem := m } l := by
  have hholder := h.page c b hb
  have hpage : Page M b := h.handed b (by rw [hholder]; nofun)
  refine h.setMem (fun b' hb' hfree => next_outside hpage hb' ?_ hm) fun c' pa hpc => ?_
  · rintro rfl
    rw [hholder] at hfree
    cases hfree
  · have hne : c' ≠ c := by
      rintro rfl
      exact hset pa hpc
    have hpa : s.holder pa = .cpu c' := h.page c' pa (by rw [hpc]; rfl)
    refine next_outside hpage (h.handed pa (by rw [hpa]; nofun)) ?_ hm
    rintro rfl
    exact hne (Holder.cpu.inj (hpa.symm.trans hholder))

theorem fill_outside {i : Nat} {v : UInt8} (hi : i < PGSIZE) (a : Nat) (ha : ¬(b ≤ a ∧ a < b + PGSIZE)) :
    Function.update s.mem (b + i) v a = s.mem a := Function.update_of_ne (by omega) ..

theorem Inv.locked (h : Inv M s l) (hc : (s.pcs c).Locked) (hne : c' ≠ c) : ¬(s.pcs c').Locked := fun hc' =>
  hne (Option.some.inj (((h.lock c').mpr hc').symm.trans ((h.lock c).mpr hc)))

/-- Two CPUs work on two pages. -/
theorem Inv.page_ne (h : Inv M s l) (hb : s.holder b = .cpu c) (hne : c' ≠ c) : (s.pcs c').page? ≠ some b := fun hpage =>
  hne (Holder.cpu.inj ((h.page c' b hpage).symm.trans hb))

variable [DecidableEq κ]

theorem setPc_self (s : State κ) (c : κ) (pc : Pc) : (s.setPc c pc).pcs c = pc := Function.update_self ..

theorem setPc_of_ne (s : State κ) (pc : Pc) (h : c' ≠ c) : (s.setPc c pc).pcs c' = s.pcs c' := Function.update_of_ne h ..

/-- A CPU moves, and perhaps the lock with it, and nothing changes hands. -/
theorem Inv.move (h : Inv M s l) (holder : Option κ)
    (hlock : ∀ c', holder = some c' ↔ ((s.setPc c pc).pcs c').Locked) (hpage : ∀ b, pc.page? = some b → s.holder b = .cpu c)
    (hfound : pc.Found s) : Inv M ({ s with lock := holder }.setPc c pc) l := by
  refine ⟨h.chain, h.nodup, h.mem, h.handed, hlock, fun c' => ?_, fun c' => ?_⟩ <;> by_cases hne : c' = c
  · rw [hne, setPc_self]
    exact hpage
  · rw [setPc_of_ne _ pc hne]
    exact h.page c'
  · rw [hne, setPc_self]
    exact hfound.congr rfl rfl
  · rw [setPc_of_ne _ pc hne]
    exact (h.found c').congr rfl rfl

theorem Inv.lock_update (h : Inv M s l) (hlocked : pc.Locked ↔ (s.pcs c).Locked) (c' : κ) :
    s.lock = some c' ↔ (Function.update s.pcs c pc c').Locked := by
  by_cases hne : c' = c
  · rw [hne, Function.update_self, hlocked]
    exact h.lock c
  · rw [Function.update_of_ne hne]
    exact h.lock c'

theorem Inv.setPc (h : Inv M s l) (hlocked : pc.Locked ↔ (s.pcs c).Locked)
    (hpage : ∀ b, pc.page? = some b → s.holder b = .cpu c) (hfound : pc.Found s) : Inv M (s.setPc c pc) l :=
  h.move s.lock (h.lock_update hlocked) hpage hfound

theorem Inv.acquire (h : Inv M s l) (hfree : s.lock = none) (hpc : pc.Locked) (hpage : pc.page? = (s.pcs c).page?)
    (hfound : pc.Found s) : Inv M ({ s with lock := some c }.setPc c pc) l := by
  refine h.move (some c) (fun c' => ?_) (hpage ▸ h.page c) hfound
  by_cases hne : c' = c
  · rw [hne, setPc_self]
    exact ⟨fun _ => hpc, fun _ => rfl⟩
  · rw [setPc_of_ne _ pc hne, ← h.lock c', hfree]
    exact ⟨fun heq => absurd (Option.some.inj heq).symm hne, nofun⟩

theorem Inv.release (h : Inv M s l) (hlocked : (s.pcs c).Locked) (hpc : ¬pc.Locked) (hpage : pc.page? = (s.pcs c).page?)
    (hfound : pc.Found s) : Inv M ({ s with lock := none }.setPc c pc) l := by
  refine h.move none (fun c' => ?_) (hpage ▸ h.page c) hfound
  by_cases hne : c' = c
  · rw [hne, setPc_self]
    exact ⟨nofun, fun hl => absurd hl hpc⟩
  · rw [setPc_of_ne _ pc hne]
    exact ⟨nofun, fun hl => absurd hl (h.locked hlocked hne)⟩

/-- A page goes from a CPU to its caller or back. -/
theorem Inv.give_setPc (h : Inv M s l) (hb : s.holder b = .cpu c ∨ s.holder b = .caller) (hx : x ≠ .free)
    (hlocked : pc.Locked ↔ (s.pcs c).Locked) (hpage : ∀ b', pc.page? = some b' → b' = b ∧ x = .cpu c) (hfound : pc.Found s) :
    Inv M ((s.give b x).setPc c pc) l := by
  have hne : s.holder b ≠ .free := by rcases hb with hb | hb <;> rw [hb] <;> nofun
  have hother : ∀ c' b', c' ≠ c → (s.pcs c').page? = some b' → b' ≠ b := by
    rintro c' b' hc' hpage' rfl
    have hcpu := h.page c' b' hpage'
    rcases hb with hb | hb <;> rw [hb] at hcpu
    · exact hc' (Holder.cpu.inj hcpu).symm
    · cases hcpu
  refine ⟨h.chain, h.nodup, fun b' => ?_, fun b' hb' => ?_, fun c' => ?_, fun c' b' => ?_, fun c' => ?_⟩
  · show b' ∈ l ↔ Page M b' ∧ Function.update s.holder b x b' = .free
    by_cases heq : b' = b
    · rw [heq, Function.update_self, h.mem b]
      exact and_congr_right fun _ => ⟨fun hf => absurd hf hne, fun hf => absurd hf hx⟩
    · rw [Function.update_of_ne heq]
      exact h.mem b'
  · by_cases heq : b' = b
    · rw [heq]
      exact h.handed b hne
    · exact h.handed b' ((Function.update_of_ne heq x s.holder) ▸ hb')
  · exact h.lock_update hlocked c'
  · intro hpage'
    show Function.update s.holder b x b' = .cpu c'
    by_cases heq : c' = c
    · rw [heq, setPc_self] at hpage'
      obtain ⟨rfl, rfl⟩ := hpage b' hpage'
      rw [heq, Function.update_self]
    · rw [setPc_of_ne _ pc heq] at hpage'
      rw [Function.update_of_ne (hother c' b' heq hpage')]
      exact h.page c' b' hpage'
  · by_cases heq : c' = c
    · rw [heq, setPc_self]
      exact hfound.congr rfl rfl
    · rw [setPc_of_ne _ pc heq]
      exact (h.found c').congr rfl rfl

/-! ### The steps -/

/-- `kmem.freelist = r` in `kfree`: the page becomes the first of the list. -/
theorem Inv.push (h : Inv M s l) (hpc : s.pcs c = .freeSet pa) :
    Inv M (({ s with freelist := pa }.give pa .free).setPc c .freeRelease) (pa :: l) := by
  have hholder : s.holder pa = .cpu c := h.page c pa (by rw [hpc]; rfl)
  have hpage : Page M pa := h.handed pa (by rw [hholder]; nofun)
  have hnotin : pa ∉ l := fun hin => by
    have hfree := ((h.mem pa).mp hin).2
    rw [hholder] at hfree
    cases hfree
  have hnext : next s.mem pa = s.freelist := by
    have hfound := h.found c
    rwa [hpc] at hfound
  have hlocked : (s.pcs c).Locked := by rw [hpc]; trivial
  refine ⟨.cons hpage.ne_zero ?_, List.nodup_cons.mpr ⟨hnotin, h.nodup⟩, fun b => ?_, fun b hb => ?_, fun c' => ?_,
    fun c' b => ?_, fun c' => ?_⟩
  · show Chain (next s.mem) (next s.mem pa) l
    rw [hnext]
    exact h.chain
  · show b ∈ pa :: l ↔ Page M b ∧ Function.update s.holder pa .free b = .free
    obtain rfl | hne := eq_or_ne b pa
    · rw [Function.update_self]
      exact ⟨fun _ => ⟨hpage, rfl⟩, fun _ => List.mem_cons_self⟩
    · rw [Function.update_of_ne hne, ← h.mem b, List.mem_cons, or_iff_right hne]
  · obtain rfl | hne := eq_or_ne b pa
    · exact hpage
    · exact h.handed b ((Function.update_of_ne hne (.free : Holder κ) s.holder) ▸ hb)
  · exact h.lock_update (by rw [hpc]; rfl) c'
  · intro hb
    show Function.update s.holder pa .free b = .cpu c'
    by_cases hne : c' = c
    · rw [hne, setPc_self] at hb
      cases hb
    · rw [setPc_of_ne _ _ hne] at hb
      have hb' : (s.pcs c').page? = some b := hb
      rw [Function.update_of_ne fun heq => h.page_ne hholder hne (by rw [hb', heq])]
      exact h.page c' b hb'
  · by_cases hne : c' = c
    · rw [hne, setPc_self]
      trivial
    · rw [setPc_of_ne _ _ hne]
      exact (h.found c').of_unlocked (h.locked hlocked hne)

/-- `kmem.freelist = r->next` in `kalloc`: the first page leaves the list. -/
theorem Inv.pop (h : Inv M s l) (hpc : s.pcs c = .allocPop r) (hne : r ≠ 0) :
    ∃ l', Inv M (({ s with freelist := next s.mem r }.give r (.cpu c)).setPc c (.allocRelease r)) l' := by
  have hr : r = s.freelist := by
    have hfound := h.found c
    rwa [hpc] at hfound
  subst hr
  obtain ⟨l', rfl, hrest⟩ := h.chain.inv hne
  obtain ⟨hnotin, hnodup⟩ := List.nodup_cons.mp h.nodup
  obtain ⟨hpage, hfree⟩ := (h.mem s.freelist).mp List.mem_cons_self
  have hlocked : (s.pcs c).Locked := by rw [hpc]; trivial
  refine ⟨l', hrest, hnodup, fun b => ?_, fun b hb => ?_, fun c' => ?_, fun c' b => ?_, fun c' => ?_⟩
  · show b ∈ l' ↔ Page M b ∧ Function.update s.holder s.freelist (.cpu c) b = .free
    obtain rfl | hneb := eq_or_ne b s.freelist
    · rw [Function.update_self]
      exact ⟨fun hb => absurd hb hnotin, fun hb => absurd hb.2 nofun⟩
    · rw [Function.update_of_ne hneb, ← h.mem b, List.mem_cons, or_iff_right hneb]
  · obtain rfl | hneb := eq_or_ne b s.freelist
    · exact hpage
    · exact h.handed b ((Function.update_of_ne hneb (.cpu c) s.holder) ▸ hb)
  · show s.lock = some c' ↔ (Function.update s.pcs c (.allocRelease s.freelist) c').Locked
    exact h.lock_update (by rw [hpc]; rfl) c'
  · intro hb
    show Function.update s.holder s.freelist (.cpu c) b = .cpu c'
    by_cases heq : c' = c
    · rw [heq, setPc_self, Pc.page?, if_neg hne, Option.some.injEq] at hb
      rw [← hb, Function.update_self, heq]
    · rw [setPc_of_ne _ _ heq] at hb
      have hcpu := h.page c' b hb
      have hneb : b ≠ s.freelist := by
        rintro rfl
        rw [hfree] at hcpu
        cases hcpu
      rw [Function.update_of_ne hneb]
      exact hcpu
  · by_cases heq : c' = c
    · rw [heq, setPc_self]
      exact fun hz => absurd hz hne
    · rw [setPc_of_ne _ _ heq]
      exact (h.found c').of_unlocked (h.locked hlocked heq)

theorem Inv.run (h : Inv M s l) (hrun : Kalloc.run s c (s.pcs c) = some t) : ∃ l', Inv M t l' := by
  have hown : ∀ b, (s.pcs c).page? = some b → s.holder b = .cpu c := h.page c
  have hfound := h.found c
  cases hpc : s.pcs c <;> rw [hpc] at hrun hown hfound <;> simp only [Kalloc.run] at hrun
  case freeFill pa i =>
    split at hrun <;> cases hrun
    · next hi =>
      have hw := h.write (m := Function.update s.mem (pa + i) 1) (b := pa) (by rw [hpc]; rfl) (by rw [hpc]; nofun)
        (fill_outside hi)
      exact ⟨l, hw.setPc (by rw [hpc]; rfl) hown trivial⟩
    · exact ⟨l, h.setPc (by rw [hpc]; rfl) hown trivial⟩
  case freeAcquire pa =>
    obtain ⟨hfree, heq⟩ := Option.ite_none_right_eq_some.mp hrun
    cases heq
    exact ⟨l, h.acquire hfree trivial (by rw [hpc]; rfl) trivial⟩
  case freeLink pa =>
    cases hrun
    have hpage : Page M pa := h.handed pa (by rw [hown pa rfl]; nofun)
    have hw := h.write (m := store s.mem pa 8 s.freelist) (b := pa) (by rw [hpc]; rfl) (by rw [hpc]; nofun) fun a ha =>
      store_of_not fun hin => ha ⟨hin.1, hin.2.trans_le (Nat.add_le_add_left (by decide) pa)⟩
    refine ⟨l, hw.setPc (by rw [hpc]; rfl) hown ?_⟩
    show next (store s.mem pa 8 s.freelist) pa = s.freelist
    unfold next
    rw [load_store, Nat.mod_eq_of_lt h.freelist_lt]
  case freeSet pa =>
    cases hrun
    exact ⟨pa :: l, h.push hpc⟩
  case freeRelease =>
    cases hrun
    exact ⟨l, h.release (by rw [hpc]; trivial) not_false (by rw [hpc]; rfl) trivial⟩
  case allocAcquire =>
    obtain ⟨hfree, heq⟩ := Option.ite_none_right_eq_some.mp hrun
    cases heq
    exact ⟨l, h.acquire hfree trivial (by rw [hpc]; rfl) trivial⟩
  case allocRead =>
    cases hrun
    exact ⟨l, h.setPc (by rw [hpc]; rfl) nofun rfl⟩
  case allocPop r =>
    split at hrun <;> cases hrun
    · next hzero =>
      exact ⟨l, h.setPc (by rw [hpc]; rfl) nofun fun _ => hfound.symm.trans hzero⟩
    · next hne => exact h.pop hpc hne
  case allocRelease r =>
    cases hrun
    refine ⟨l, h.release (by rw [hpc]; trivial) ?_ ?_ ?_⟩
    · split <;> exact not_false
    · rw [hpc, Pc.page?]
      split <;> rfl
    · split <;> trivial
  case allocFill r i =>
    split at hrun <;> cases hrun
    · next hi =>
      have hw := h.write (m := Function.update s.mem (r + i) 5) (b := r) (by rw [hpc]; rfl) (by rw [hpc]; nofun)
        (fill_outside hi)
      exact ⟨l, hw.setPc (by rw [hpc]; rfl) hown trivial⟩
    · exact ⟨l, h.give_setPc (.inl (hown r rfl)) nofun (by rw [hpc]; rfl) nofun trivial⟩
  all_goals cases hrun

theorem Inv.step (h : Inv M s l) (hstep : Step M s e t) : ∃ l', Inv M t l' := by
  cases hstep with
  | run hrun => exact h.run hrun
  | kalloc hout => exact ⟨l, h.setPc (by rw [hout]; rfl) (by rintro _ ⟨⟩) trivial⟩
  | @kfree c pa hout hpa =>
    obtain ⟨halign, hlo, hhi⟩ : Page M pa := h.handed pa (by rw [hpa]; rintro ⟨⟩)
    rw [if_neg (by omega)]
    exact ⟨l, h.give_setPc (.inr hpa) (by rintro ⟨⟩) (by rw [hout]; rfl) (fun b hb => ⟨(Option.some.inj hb).symm, rfl⟩) trivial⟩
  | @write a v ha =>
    have hother : ∀ b, Page M b → s.holder b ≠ .caller → next (Function.update s.mem a v) b = next s.mem b := by
      intro b hb hne
      unfold next
      refine load_congr fun i hi => Function.update_of_ne (fun heq => hne (ha b hb ?_ ?_)) ..
      · omega
      · simp only [PGSIZE]
        omega
    refine ⟨l, h.setMem (fun b hb hfree => hother b hb (by rw [hfree]; rintro ⟨⟩)) fun c pa hpc => ?_⟩
    have hpa : s.holder pa = .cpu c := h.page c pa (by rw [hpc]; rfl)
    exact hother pa (h.handed pa (by rw [hpa]; rintro ⟨⟩)) (by rw [hpa]; rintro ⟨⟩)

theorem Inv.sound (h : Inv M s l) : Sound M s l where
  chain := h.chain
  nodup := h.nodup
  pages b hb := ((h.mem b).mp hb).1
  disjoint b hb hhanded := hhanded ((h.mem b).mp hb).2
  together b := by
    constructor
    · rintro (hb | hb)
      · exact ((h.mem b).mp hb).1
      · exact h.handed b hb
    · intro hb
      by_cases hfree : s.holder b = .free
      · exact .inl ((h.mem b).mpr ⟨hb, hfree⟩)
      · exact .inr hfree
  empty c hpc := by
    have hfound := h.found c
    rw [hpc] at hfound
    have hchain := h.chain
    rw [hfound rfl] at hchain
    exact hchain.nil_inv
  running c hpc := by
    have hfound := h.found c
    rw [hpc] at hfound
    exact hfound

/-! ### Boot -/

end

end Kalloc
end LabSO.Paging

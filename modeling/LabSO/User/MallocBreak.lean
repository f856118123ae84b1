import LabSO.Kernel.Sbrk
import LabSO.User.MallocRun
import Mathlib.Algebra.Order.BigOperators.Group.List

/-! What `malloc` returns, and the end of the memory of the process. `sbrk` takes an `int`: with too many bytes `morecore` asks
    for a negative number, or for a few bytes, and records a block of all of them. -/

namespace LabSO.Malloc
open Chase Transition

/-- A program, and the size of its memory. -/
structure Process extends State where
  brk : Nat

/-- All the memory of the machine. -/
def MEMORY : Nat := 128 * 1024 * 1024

/-- The size of a process after `growproc`, if there is memory. -/
def grown (brk : Nat) (n : Int32) : Nat :=
  if (brk : Int) + n.toInt < 0 then brk else ((brk : Int) + n.toInt).toNat

/-- `sys_sbrk` fails and changes nothing, or returns the size from before. -/
theorem sys_sbrk_grown {M : Paging.Image} {s : Paging.Phys} {own : Nat → Paging.Owner} {V : Paging.View} {p : Paging.Proc}
    (h : Paging.Space M s own p.pagetable V p.sz) (n : Int32) :
    Program.Wp (fun _ => False) (Paging.sys_sbrk M p n) (fun r _ => r.1 = Paging.MINUS1 ∧ r.2 = p ∨
      r.1 = p.sz ∧ r.2.sz = grown p.sz n ∧ r.2.sz ≤ MEMORY) s := by
  have hsz := h.size_le
  have hmax : n.toInt < 2 ^ 31 := n.toInt_lt
  have hmin : -2 ^ 31 ≤ n.toInt := n.le_toInt
  have hsum : ¬(p.sz : Int) + n.toInt < 0 → grown p.sz n = Paging.addInt p.sz n.toInt := by
    intro hn
    have hadd := Paging.addInt_of_nonneg (Int.not_lt.mp hn) (by omega)
    rw [grown, if_neg hn]
    omega
  unfold Paging.sys_sbrk Paging.growproc
  by_cases hpos : 0 < n.toInt
  · have hadd := Paging.addInt_of_nonneg (x := p.sz) (n := n.toInt) (by omega) (by omega)
    rw [if_pos hpos]
    refine Program.Wp.seq (Program.Wp.seq (Paging.uvmalloc_spec h (by omega) Paging.perm_write (fun t own' V' ht => ?_)
      fun t own' V' ht => ?_))
    · rw [if_pos rfl]
      exact Program.Wp.pure (Program.Wp.pure (.inl ⟨rfl, rfl⟩))
    · rw [if_neg (by omega)]
      exact Program.Wp.pure (Program.Wp.pure (.inr ⟨rfl, (hsum (by omega)).symm, ht.space.size_le⟩))
  rw [if_neg hpos]
  by_cases hneg : n.toInt < 0
  · rw [if_pos hneg]
    by_cases hwrap : (p.sz : Int) + n.toInt < 0
    · have hlarge := Paging.addInt_of_neg hwrap hmin
      have hgrown : grown p.sz n = p.sz := if_pos hwrap
      unfold Paging.uvmdealloc
      rw [if_pos (by omega)]
      exact Program.Wp.seq (Program.Wp.seq (Program.Wp.pure (Program.Wp.pure (Program.Wp.pure
        (.inr ⟨rfl, hgrown.symm, hsz⟩)))))
    · have hadd := Paging.addInt_of_nonneg (Int.not_lt.mp hwrap) (by omega)
      refine Program.Wp.seq (Program.Wp.seq (Paging.uvmdealloc_spec h (by omega) fun t own' V' ht => ?_))
      exact Program.Wp.pure (Program.Wp.pure (.inr ⟨rfl, (hsum hwrap).symm, ht.space.size_le⟩))
  · rw [if_neg hneg]
    have hsame : grown p.sz n = p.sz := by
      rw [grown]
      split <;> omega
    exact Program.Wp.seq (Program.Wp.pure (Program.Wp.pure (.inr ⟨rfl, hsame.symm, hsz⟩)))

/-- What `morecore` asks of `sbrk`; in the header it records `coreUnits`. -/
def asked (nu : UInt32) : Int32 := .ofNat ((coreUnits nu).toNat * unit)

/-- The end of memory when the heap has become `h`, each time with `n` bytes more. -/
def Process.brkAt (P : Process) (n : Int32) (h : Heap) : Nat :=
  (fun brk => grown brk n)^[h.regions.length - P.heap.regions.length] P.brk

/-- `sbrk` as the kernel has it, in one call of `malloc`; it can fail at any time. -/
structure Kernel (P : Process) (sbrk : Sbrk) : Prop where
  start : ∀ h n a, sbrk h n = some a → a = P.brkAt n h
  room : ∀ h n a, sbrk h n = some a → grown a n ≤ MEMORY

variable (base : Nat)

/-- `malloc` comes to `morecore`: without memory it returns 0. -/
def Asks (h : Heap) (nbytes : UInt32) : Prop := ∃ fuel h', malloc base fuel (fun _ _ => none) h nbytes = some (h', 0)

/-- `morecore` asks for what it records, and never for less memory, and what `malloc` returns is before the end of memory. -/
structure Within (P : Process) (nbytes : UInt32) : Prop where
  covers : Asks base P.heap nbytes → (unit * (coreUnits (nunits nbytes)).toNat : Int) ≤ (asked (nunits nbytes)).toInt
  grows : Asks base P.heap nbytes → 0 ≤ (asked (nunits nbytes)).toInt
  below : ∀ sbrk, Kernel P sbrk → ∀ fuel h p, malloc base fuel sbrk P.heap nbytes = some (h, p) → p ≠ 0 →
    p + nbytes.toNat ≤ P.brkAt (asked (nunits nbytes)) h

/-- What a program does whose requests are all for a positive `int` of bytes. -/
inductive Process.Step : Process → Event → Process → Prop
  | malloc {P : Process} {fuel p : Nat} {sbrk : Sbrk} {nbytes : UInt32} {h : Heap} (hkernel : Kernel P sbrk) (hfits : Fits nbytes)
      (hret : Malloc.malloc base fuel sbrk P.heap nbytes = some (h, p)) :
      Step P (.malloc nbytes p)
        { heap := h, live := if p = 0 then P.live else ⟨⟨p - unit, (nunits nbytes).toNat⟩, nbytes⟩ :: P.live,
          brk := P.brkAt (asked (nunits nbytes)) h }
  | other {P : Process} {e : Event} {t : State} (hstep : Malloc.Step base P.toState e t) (he : ∀ nbytes p, e ≠ .malloc nbytes p) :
      Step P e { t with brk := P.brk }

/-! ### The requests -/

section
variable {base brk k fuel p q prevp : Nat} {rs : List Block} {fs : List Block} {h h' : Heap} {P Q : Process} {e : Event}
  {es : List Event} {hdr : Nat → Header} {sbrk sbrk' : Sbrk} {nu nbytes : UInt32} {n : Int32}

/-- `morecore` asks for at least what it records if and only if that is less than 2^31 bytes. -/
theorem covers_iff (nbytes : UInt32) :
    (unit * (coreUnits (nunits nbytes)).toNat : Int) ≤ (asked (nunits nbytes)).toInt ↔ Fits nbytes := by
  have hmax : (asked (nunits nbytes)).toInt < 2 ^ 31 := Int32.toInt_lt _
  rw [Fits, ← coreUnits_toNat]
  constructor
  · intro hle
    omega
  · intro hfits
    rw [asked, Int32.toInt_ofNat_of_lt (by rwa [Nat.mul_comm]), Nat.mul_comm]
    exact le_rfl

theorem asked_of_fits (hfits : Fits nbytes) :
    (asked (nunits nbytes)).toInt = ((unit * (coreUnits (nunits nbytes)).toNat : Nat) : Int) := by
  rw [Fits, ← coreUnits_toNat, Nat.mul_comm] at hfits
  rw [asked, Int32.toInt_ofNat_of_lt hfits, Nat.mul_comm]

/-- With no block that is large enough and no memory, nothing changes. -/
theorem mallocFrom_none (hring : Ring h.next base (starts fs)) (hsmall : ∀ x ∈ base :: starts fs, ¬nu ≤ h.size x)
    (hp : p ∈ base :: starts fs) (hret : mallocFrom (fun _ _ => none) nu fuel h prevp p = some (h', q)) : q = 0 := by
  induction fuel generalizing prevp p with
  | zero => cases hret
  | succ fuel ih =>
    rw [mallocFrom, if_neg (hsmall p hp)] at hret
    split at hret
    · cases hret
      rfl
    · exact ih (hring.next_mem hp) hret

theorem Inv.asks {s : State} (hi : Inv base s fs) (hbase : 0 < base)
    (hsmall : ∀ f ∈ fs, f.size < (nunits nbytes).toNat) : Asks base s.heap nbytes := by
  have hr := hi.ready hbase
  have hnot : ∀ x ∈ base :: starts fs, ¬nunits nbytes ≤ (s.heap.ready base).size x := by
    intro x hx hle
    have hle := UInt32.le_iff_toNat_le.mp hle
    have hpos := nunits_pos nbytes
    rcases List.mem_cons.mp hx with rfl | hx
    · have hroot : ((s.heap.ready x).size x).toNat = 0 := congrArg UInt32.toNat hr.root
      omega
    · obtain ⟨f, hf, rfl⟩ := List.mem_map.mp hx
      have hsize := hr.sizes f (List.mem_append_left _ hf)
      have hlt := hsmall f hf
      omega
  obtain ⟨m, x, hseek⟩ := hr.exists_seek (nunits nbytes)
  have hends : Ends (fun _ _ => none) (nunits nbytes) (s.heap.ready base) (s.heap.ready base).freep
      ((s.heap.ready base).next (s.heap.ready base).freep) :=
    ends_of_seek hseek (.inr ⟨0, s.heap.ready base, 0, rfl, .inl rfl⟩)
  obtain ⟨fuel, hfuel⟩ := hends
  obtain ⟨⟨h', q⟩, hret⟩ := hfuel fuel le_rfl
  obtain rfl := mallocFrom_none hr.ring hnot (hr.ring.next_mem hr.freep) hret
  exact ⟨fuel, h', hret⟩

/-! ### The end of memory -/

/-- The regions end before the end of memory, and all of them fit there. -/
structure Held (base brk : Nat) (rs : List Block) : Prop where
  aligned : brk % unit = 0
  above : base + unit ≤ brk
  fits : brk ≤ MEMORY
  below : ∀ r ∈ rs, r.stop ≤ brk
  total : unit * (rs.map Block.size).sum ≤ brk

theorem Held.push (hheld : Held base brk rs) (hn : n.toInt = ((unit * k : Nat) : Int)) (hroom : grown brk n ≤ MEMORY) :
    Held base (grown brk n) (⟨brk, n.toInt.toNat / unit⟩ :: rs) := by
  have hgrown : grown brk n = brk + unit * k := by
    rw [grown, if_neg (by omega)]
    omega
  have hsize : n.toInt.toNat / unit = k := by
    rw [hn, Int.toNat_natCast]
    exact Nat.mul_div_cancel_left k (Nat.succ_pos 15)
  have haligned := hheld.aligned
  have htotal := hheld.total
  rw [hgrown] at hroom ⊢
  rw [hsize]
  refine ⟨?_, hheld.above.trans (Nat.le_add_right ..), hroom, fun r hr => ?_, ?_⟩
  · rwa [Nat.add_mul_mod_self_left]
  · rcases List.mem_cons.mp hr with rfl | hr
    · exact le_rfl
    · exact (hheld.below r hr).trans (Nat.le_add_right ..)
  · rw [List.map_cons, List.sum_cons, Nat.mul_add, Nat.add_comm]
    exact Nat.add_le_add_right htotal _

theorem Held.small (hheld : Held base brk h.regions) : Small h := by
  have htotal := hheld.total
  have hfits := hheld.fits
  rw [Small, length_allUnits]
  simp only [unit, MEMORY] at *
  omega

/-! ### One call -/

section
variable {J : List Block → Prop} (hsame : ∀ h, J h.regions → sbrk h (asked nu) = sbrk' h (asked nu))
  (hpush : ∀ h a, J h.regions → sbrk h (asked nu) = some a → J (⟨a, (asked nu).toInt.toNat / unit⟩ :: h.regions))

include hsame hpush

/-- `J` holds of the regions, and each region more keeps it. -/
theorem morecore_congr (hJ : J h.regions) (hret : morecore fuel sbrk h nu = some (h', q)) :
    morecore fuel sbrk' h nu = some (h', q) ∧ J h'.regions := by
  have heq := hsame h hJ
  unfold morecore at hret ⊢
  dsimp only at hret ⊢
  rw [asked, coreUnits] at heq
  rw [← heq]
  split at hret
  · cases hret
    exact ⟨rfl, hJ⟩
  · next a ha =>
    obtain ⟨h₁, hfree, hpair⟩ := Option.map_eq_some_iff.mp hret
    cases hpair
    refine ⟨hret, ?_⟩
    rw [regions_free hfree]
    exact hpush h a hJ ha

theorem mallocFrom_congr (hJ : J h.regions) (hret : mallocFrom sbrk nu fuel h prevp p = some (h', q)) :
    mallocFrom sbrk' nu fuel h prevp p = some (h', q) ∧ J h'.regions := by
  induction fuel generalizing h prevp p with
  | zero => cases hret
  | succ fuel ih =>
    rw [mallocFrom] at hret ⊢
    split at hret
    · next hle =>
      rw [if_pos hle]
      have htake := congrArg Prod.fst (Option.some.inj hret)
      refine ⟨hret, ?_⟩
      rw [← show (h.take prevp p nu).1 = h' from htake, regions_take]
      exact hJ
    next hle =>
    rw [if_neg hle]
    split at hret
    · next hfreep =>
      rw [if_pos hfreep]
      split at hret
      · cases hret
      · next h₁ q₁ hcore =>
        obtain ⟨hcore', hJ₁⟩ := morecore_congr hsame hpush hJ hcore
        rw [hcore']
        dsimp only
        split at hret
        · next hzero =>
          cases hret
          rw [if_pos hzero]
          exact ⟨rfl, hJ₁⟩
        · next hzero =>
          rw [if_neg hzero]
          exact ih hJ₁ hret
    · next hfreep =>
      rw [if_neg hfreep]
      exact ih hJ hret

end

/-- The kernel that fails where the memory would not be new. -/
def freshened (base : Nat) (sbrk : Sbrk) : Sbrk := fun h n =>
  (sbrk h n).filter fun a => a % unit = 0 ∧ base + unit ≤ a ∧ ∀ r ∈ h.regions, r.stop ≤ a

theorem fresh_freshened (base : Nat) (sbrk : Sbrk) : Fresh base (freshened base sbrk) := by
  intro h n a ha
  exact of_decide_eq_true (Option.filter_eq_some_iff.mp ha).2

theorem brkAt_push (P : Process) (n : Int32) (h : Heap) (r : Block) (hle : P.heap.regions.length ≤ h.regions.length) :
    P.brkAt n { h with regions := r :: h.regions } = grown (P.brkAt n h) n := by
  rw [Process.brkAt, List.length_cons, Nat.succ_sub hle, Function.iterate_succ_apply']
  rfl

/-- In a call of `malloc` for a positive `int` of bytes, `sbrk` always gives new memory. -/
theorem Held.malloc (hheld : Held base P.brk P.heap.regions) (hkernel : Kernel P sbrk) (hfits : Fits nbytes)
    (hret : Malloc.malloc base fuel sbrk P.heap nbytes = some (h', q)) :
    Malloc.malloc base fuel (freshened base sbrk) P.heap nbytes = some (h', q) ∧
      Held base (P.brkAt (asked (nunits nbytes)) h') h'.regions := by
  have hasked := asked_of_fits hfits
  have hstart : P.heap.regions.length ≤ (P.heap.ready base).regions.length ∧
      Held base (P.brkAt (asked (nunits nbytes)) (P.heap.ready base)) (P.heap.ready base).regions := by
    rw [Process.brkAt, regions_ready, Nat.sub_self]
    exact ⟨le_rfl, hheld⟩
  let J : List Block → Prop := fun rs => P.heap.regions.length ≤ rs.length ∧
    Held base (P.brkAt (asked (nunits nbytes)) { P.heap with regions := rs }) rs
  have hsame : ∀ h : Heap, J h.regions →
      sbrk h (asked (nunits nbytes)) = freshened base sbrk h (asked (nunits nbytes)) := by
    intro h hJ
    cases hsbrk : sbrk h (asked (nunits nbytes)) with
    | none => rw [freshened, hsbrk, Option.filter_none]
    | some a =>
      obtain rfl := hkernel.start h _ a hsbrk
      rw [freshened, hsbrk, Option.filter_some_pos]
      exact decide_eq_true ⟨hJ.2.aligned, hJ.2.above, hJ.2.below⟩
  have hpush : ∀ (h : Heap) a, J h.regions → sbrk h (asked (nunits nbytes)) = some a →
      J (⟨a, (asked (nunits nbytes)).toInt.toNat / unit⟩ :: h.regions) := by
    intro h a hJ ha
    obtain rfl := hkernel.start h _ a ha
    refine ⟨hJ.1.trans (Nat.le_succ _), ?_⟩
    rw [brkAt_push P _ { P.heap with regions := h.regions } _ hJ.1]
    exact hJ.2.push hasked (hkernel.room h _ _ ha)
  obtain ⟨hret', -, hheld'⟩ := mallocFrom_congr hsame hpush hstart hret
  exact ⟨hret', hheld'⟩

/-! ### Runs -/

structure Process.Ok (base : Nat) (P : Process) (fs : List Block) : Prop where
  inv : Inv base P.toState fs
  held : Held base P.brk P.heap.regions

/-- What is not free ends before the end of memory, too. -/
theorem Process.Ok.stop_le (hok : P.Ok base fs) {b : Live} (hb : b ∈ P.live) : b.stop ≤ P.brk := by
  have hr := hok.inv.rep_of_mem hb
  have hbmem : b.toBlock ∈ fs ++ P.toState.blocks := List.mem_append_right _ (List.mem_map_of_mem hb)
  have hpos := (hr.ok _ hbmem).pos
  -- the last unit of the block
  have hlast : b.start + unit * (b.size - 1) ∈ b.units := mem_units.mpr ⟨_, Nat.sub_lt hpos Nat.one_pos, rfl⟩
  obtain ⟨r, hr', hmem⟩ := List.mem_flatMap.mp (hr.units.mem_iff.mp (List.mem_flatMap.mpr ⟨_, hbmem, hlast⟩))
  obtain ⟨i, hi, heq⟩ := mem_units.mp hmem
  have hstop := hok.held.below r hr'
  simp only [Block.stop, unit] at *
  omega

theorem Process.Ok.size_lt (hok : P.Ok base fs) {f : Block} (hf : f ∈ fs) : f.size < 2 ^ 27 := by
  have hunits : (allUnits (fs ++ P.toState.blocks)).length = (P.heap.regions.map Block.size).sum := by
    rcases hok.inv.rep with ⟨-, -, -, rfl⟩ | hr
    · cases hf
    · rw [hr.units.length_eq, length_allUnits]
  have hle : f.size ≤ ((fs ++ P.toState.blocks).map Block.size).sum :=
    List.le_sum_of_mem (List.mem_map_of_mem (List.mem_append_left _ hf))
  have htotal := hok.held.total
  have hfits := hok.held.fits
  rw [length_allUnits] at hunits
  simp only [unit, MEMORY] at htotal hfits
  omega

/-- A request for a positive `int` of bytes keeps the heap in order. -/
theorem Process.Ok.malloc (hok : P.Ok base fs) (hbase : 0 < base) (hkernel : Kernel P sbrk) (hfits : Fits nbytes)
    (hret : Malloc.malloc base fuel sbrk P.heap nbytes = some (h', q)) : ∃ fs', Process.Ok base
      { heap := h', live := if q = 0 then P.live else ⟨⟨q - unit, (nunits nbytes).toNat⟩, nbytes⟩ :: P.live,
        brk := P.brkAt (asked (nunits nbytes)) h' } fs' := by
  obtain ⟨hret, hheld⟩ := hok.held.malloc hkernel hfits hret
  have hfresh := fresh_freshened base sbrk
  by_cases hq : q = 0
  · subst hq
    obtain ⟨fs', hi⟩ := hok.inv.step hbase (.noMemory hfresh hfits hret) hheld.small
    refine ⟨fs', ?_, hheld⟩
    rw [if_pos rfl]
    exact hi
  · obtain ⟨fs', hi⟩ := hok.inv.step hbase (.malloc hfresh hfits hret hq) hheld.small
    refine ⟨fs', ?_, hheld⟩
    rw [if_neg hq]
    exact hi

theorem Process.Ok.step (hok : P.Ok base fs) (hbase : 0 < base) (hstep : Process.Step base P e Q) : ∃ fs', Q.Ok base fs' := by
  cases hstep with
  | malloc hkernel hfits hret => exact hok.malloc hbase hkernel hfits hret
  | @other _ t hstep he =>
    have hregions : t.heap.regions = P.heap.regions := by
      cases hstep with
      | malloc => exact absurd rfl (he _ _)
      | noMemory => exact absurd rfl (he _ _)
      | free hb hret => exact regions_free hret
      | write => rfl
    have hsmall := hok.held.small
    rw [Small, ← hregions] at hsmall
    obtain ⟨fs', hi⟩ := hok.inv.step hbase hstep hsmall
    exact ⟨fs', hi, hregions ▸ hok.held⟩

theorem Process.exists_ok (hbase : 0 < base) (habove : base + unit ≤ brk) (haligned : brk % unit = 0) (hbrk : brk ≤ MEMORY)
    (h : Run (Process.Step base) { State.init hdr with brk := brk } es P) : ∃ fs, P.Ok base fs := by
  induction h with
  | refl => exact ⟨[], ⟨.inl ⟨rfl, rfl, rfl, rfl⟩, nofun⟩, haligned, habove, hbrk, nofun, Nat.zero_le _⟩
  | tail _ hstep ih =>
    obtain ⟨fs, hok⟩ := ih
    exact hok.step hbase hstep

/-- After any run whose requests were for a positive `int` of bytes, the next call is in order if and only if its request is
    for one, too. -/
theorem within_iff (hbase : 0 < base) (habove : base + unit ≤ brk) (haligned : brk % unit = 0) (hbrk : brk ≤ MEMORY)
    (h : Run (Process.Step base) { State.init hdr with brk := brk } es P) (nbytes : UInt32) :
    Within base P nbytes ↔ Fits nbytes := by
  obtain ⟨fs, hok⟩ := Process.exists_ok hbase habove haligned hbrk h
  constructor
  · intro hwithin
    by_contra hfits
    refine hfits ((covers_iff nbytes).mp (hwithin.covers (hok.inv.asks hbase fun f hf => ?_)))
    have hlt := hok.size_lt hf
    rw [Fits] at hfits
    simp only [unit] at hfits
    omega
  · intro hfits
    have hcovers := (covers_iff nbytes).mpr hfits
    refine ⟨fun _ => hcovers, fun _ => (Int.natCast_nonneg _).trans hcovers, fun sbrk hkernel fuel h' p hret hp => ?_⟩
    obtain ⟨fs', hok'⟩ := hok.malloc hbase hkernel hfits hret
    have hmem : (⟨⟨p - unit, (nunits nbytes).toNat⟩, nbytes⟩ : Live) ∈
        if p = 0 then P.live else ⟨⟨p - unit, (nunits nbytes).toNat⟩, nbytes⟩ :: P.live := by
      rw [if_neg hp]
      exact List.mem_cons_self
    have hbytes := hok'.inv.bytes_le hmem
    have hstop := hok'.stop_le hmem
    simp only [Live.ptr] at hbytes
    have hle : p + nbytes.toNat ≤ p - unit + unit + nbytes.toNat := by omega
    exact hle.trans (hbytes.trans hstop)

end

/-- The kernel while there is memory. -/
def plenty (P : Process) : Sbrk := fun h n => if grown (P.brkAt n h) n ≤ MEMORY then some (P.brkAt n h) else none

theorem kernel_plenty (P : Process) : Kernel P (plenty P) := by
  refine ⟨fun h n a ha => ?_, fun h n a ha => ?_⟩ <;> rw [plenty] at ha <;> split at ha <;> cases ha
  · rfl
  · assumption

/-- A program that has called nothing yet. -/
def started : Process := { blank with brk := 8192 }

/-- After one call, there can be another. -/
theorem within_iff_second : ∃ P, Run (Process.Step 4096) started [.malloc 100 73616] P ∧ Within 4096 P 200 := by
  have h : (malloc 4096 99 (plenty started) started.heap 100).any fun r => r.2 = 73616 := by decide +kernel
  obtain ⟨⟨h', p⟩, hret, hp⟩ := (Option.any_eq_true _ _).mp h
  obtain rfl : p = 73616 := of_decide_eq_true hp
  have hrun := Run.single (Process.Step.malloc (kernel_plenty started) (by decide : Fits 100) hret)
  exact ⟨_, hrun, (within_iff (by decide) (by decide) (by decide) (by decide) hrun 200).mpr (by decide)⟩

/-- With the largest request, `morecore` asks for 16 bytes and `malloc` returns the end of memory; with 2 GiB, it asks for a
    negative number. -/
theorem not_within : ¬Within 4096 started 4294967295 ∧ ¬Within 4096 started 2147483648 := by
  constructor
  · intro hwithin
    have h : (malloc 4096 99 (plenty started) started.heap 4294967295).any fun r =>
        r.2 = 8208 ∧ started.brkAt (asked (nunits 4294967295)) r.1 = 8208 := by decide +kernel
    obtain ⟨⟨h', p⟩, hret, hcond⟩ := (Option.any_eq_true _ _).mp h
    obtain ⟨rfl, hbrk⟩ := of_decide_eq_true hcond
    have hbelow := hwithin.below _ (kernel_plenty started) 99 h' 8208 hret (by decide)
    rw [hbrk] at hbelow
    exact absurd hbelow (by decide)
  · intro hwithin
    have h : (malloc 4096 99 (fun _ _ => none) started.heap 2147483648).any fun r => r.2 = 0 := by decide +kernel
    obtain ⟨⟨h', p⟩, hret, hp⟩ := (Option.any_eq_true _ _).mp h
    obtain rfl : p = 0 := of_decide_eq_true hp
    exact absurd (hwithin.grows ⟨99, h', hret⟩) (by decide)

end LabSO.Malloc

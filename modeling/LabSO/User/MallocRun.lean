import LabSO.Lib.Transition
import LabSO.User.MallocLoops
import Mathlib.Order.Interval.Set.Disjoint

/-! What a program can rely on, whatever it allocates, writes and frees, and wherever `sbrk` finds memory. -/

namespace LabSO.Malloc
open Chase Transition

variable {a b c : Block} {fs bs : List Block} {base p : Nat} {h h' : Heap} {s t : State} {e : Event} {es : List Event}
  {hdr : Nat → Header} {nbytes : UInt32}

/-- The addresses of a block. -/
def Block.memory (a : Block) : Set Nat := Set.Ico a.start a.stop

/-- What the program may use of a block. -/
def Live.memory (b : Live) : Set Nat := Set.Ico b.ptr (b.ptr + b.bytes.toNat)

/-- The blocks of the free list: from `base` and back, by their addresses, and none of them touches the next. -/
structure FreeList (base : Nat) (h : Heap) (fs : List Block) : Prop where
  ring : Ring h.next base (starts fs)
  freep : h.freep ∈ base :: starts fs
  sizes : ∀ f ∈ fs, (h.size f.start).toNat = f.size
  sorted : fs.Pairwise fun f g => f.stop < g.start

/-- The blocks that are not free. -/
def State.blocks (s : State) : List Block := s.live.map Live.toBlock

/-- The memory of each block is in what `sbrk` has returned, apart from the others and from all headers, and each unit that
    `sbrk` has returned is in one block. Before the first call there is no free list. -/
structure Sound (base : Nat) (s : State) (fs : List Block) : Prop where
  memory : ∀ b ∈ s.live, ∀ x ∈ b.memory, ∃ r ∈ s.heap.regions, x ∈ r.memory
  apart : s.live.Pairwise fun b c => Disjoint b.memory c.memory
  headers : ∀ b ∈ s.live, ∀ x ∈ base :: starts (fs ++ s.blocks), Disjoint (Set.Ico x (x + unit)) b.memory
  list : s.heap.freep = 0 ∧ fs = [] ∨ FreeList base s.heap fs
  units : (allUnits (fs ++ s.blocks)).Perm (allUnits s.heap.regions)
  nodup : (allUnits s.heap.regions).Nodup

/-- The loops of `malloc` and `free` end. -/
structure Returns (base : Nat) (s : State) : Prop where
  free : ∀ b ∈ s.live, ∃ fuel h, Malloc.free fuel s.heap b.ptr = some h
  malloc : ∀ sbrk nbytes, Fresh base sbrk → Bounded sbrk → Fits nbytes → ∃ fuel r, Malloc.malloc base fuel sbrk s.heap nbytes = some r

/-! ### The invariant -/

/-- The free list `fs` before the first call, or after. -/
structure Inv (base : Nat) (s : State) (fs : List Block) : Prop where
  rep : (s.heap.freep = 0 ∧ s.live = [] ∧ s.heap.regions = [] ∧ fs = []) ∨ Rep base s.heap fs s.blocks
  sizes : ∀ b ∈ s.live, b.size = (nunits b.bytes).toNat

theorem nunits_toNat (nbytes : UInt32) : (nunits nbytes).toNat = (nbytes.toNat + unit - 1) / unit + 1 := by
  have hlt := nbytes.toNat_lt
  rw [nunits, UInt32.toNat_ofNat_of_lt']
  simp only [unit, UInt32.size]
  omega

theorem nunits_pos (nbytes : UInt32) : 0 < (nunits nbytes).toNat := by
  rw [nunits_toNat]
  exact Nat.succ_pos _

/-- The heap that the loop of `malloc` starts with. -/
def Heap.ready (base : Nat) (h : Heap) : Heap :=
  if h.freep = 0 then { h.set base { ptr := base, size := 0 } with freep := base } else h

theorem ready_eq (hfreep : h.freep = 0) :
    h.ready base = { h with hdr := Function.update h.hdr base ⟨base, 0⟩, freep := base } := if_pos hfreep

theorem Inv.ready (hi : Inv base s fs) (hbase : 0 < base) : Rep base (s.heap.ready base) fs s.blocks := by
  rcases hi.rep with ⟨hfreep, hlive, hregions, rfl⟩ | hr
  · have hhdr : (s.heap.ready base).hdr base = ⟨base, 0⟩ := by
      rw [ready_eq hfreep]
      exact Function.update_self ..
    have hempty : (s.heap.ready base).regions = [] := by
      rw [ready_eq hfreep]
      exact hregions
    rw [State.blocks, hlive]
    refine ⟨hbase, ?_, Ring.empty ?_, nofun, nofun, List.Pairwise.nil, ?_, ?_, ?_⟩
    · rw [Heap.size, hhdr]
    · rw [Heap.next, hhdr]
    · rw [ready_eq hfreep]
      exact List.mem_cons_self
    · rw [hempty]
      exact List.Perm.refl _
    · rw [hempty]
      exact List.nodup_nil
  · rw [Heap.ready, if_neg (hr.pos_of_mem hr.freep).ne']
    exact hr

theorem regions_ready (base : Nat) (h : Heap) : (h.ready base).regions = h.regions := by
  unfold Heap.ready
  split <;> rfl

theorem eq_of_unit (h : (allUnits bs).Nodup) (ha : a ∈ bs) (hb : b ∈ bs) {x : Nat} (hxa : x ∈ a.units) (hxb : x ∈ b.units) :
    a = b := by
  obtain ⟨bs₁, bs₂, rfl⟩ := List.append_of_mem ha
  rw [allUnits_append, allUnits_cons, ← List.append_assoc] at h
  rcases List.mem_append.mp hb with hb | hb
  · have hdisj := (List.nodup_append.mp (List.nodup_append.mp h).1).2.2
    exact absurd rfl (hdisj x (List.mem_flatMap.mpr ⟨b, hb, hxb⟩) x hxa)
  · rcases List.mem_cons.mp hb with rfl | hb
    · rfl
    · have hdisj := (List.nodup_append.mp h).2.2
      exact absurd rfl (hdisj x (List.mem_append_right _ hxa) x (List.mem_flatMap.mpr ⟨b, hb, hxb⟩))

theorem Rep.eq_of_unit (hr : Rep base h fs bs) (ha : a ∈ fs ++ bs) (hb : b ∈ fs ++ bs) {x : Nat} (hxa : x ∈ a.units)
    (hxb : x ∈ b.units) : a = b :=
  Malloc.eq_of_unit (hr.units.nodup_iff.mpr hr.nodup) ha hb hxa hxb

/-- The headers are not in what the program may use. -/
theorem Rep.write {live : List Live} (hr : Rep base h fs (live.map Live.toBlock)) (hbase : hdr base = h.hdr base)
    (hunits : ∀ r ∈ h.regions, ∀ x ∈ r.units, (∀ b ∈ live, x ∉ b.payload) → hdr x = h.hdr x) :
    Rep base { h with hdr } fs (live.map Live.toBlock) := by
  have hsame : ∀ a ∈ fs ++ live.map Live.toBlock, hdr a.start = h.hdr a.start := by
    intro a ha
    obtain ⟨r, hrmem, hx⟩ := hr.start_mem ha
    refine hunits r hrmem _ hx fun b hb hpay => ?_
    have hbmem : b.toBlock ∈ fs ++ live.map Live.toBlock := List.mem_append_right _ (List.mem_map_of_mem hb)
    obtain ⟨i, hi, hxi⟩ := List.mem_range'.mp hpay
    rw [Live.ptr] at hxi
    have hxb : a.start ∈ b.units := mem_units.mpr ⟨i + 1, by omega, by rw [hxi, Nat.mul_add, Nat.mul_one, Nat.add_assoc, Nat.add_comm unit]⟩
    obtain rfl := hr.eq_of_unit ha hbmem (start_mem_units (hr.ok a ha)) hxb
    simp only [unit] at hxi
    omega
  have hnext : ∀ x ∈ base :: starts fs, ({ h with hdr } : Heap).next x = h.next x := by
    intro x hx
    rcases List.mem_cons.mp hx with rfl | hx
    · exact congrArg Header.ptr hbase
    · obtain ⟨f, hf, rfl⟩ := List.mem_map.mp hx
      exact congrArg Header.ptr (hsame f (List.mem_append_left _ hf))
  refine { hr with root := ?_, ring := ⟨hr.ring.nodup, ?_⟩, sizes := fun a ha => ?_ }
  · show (hdr base).size = 0
    rw [hbase]
    exact hr.root
  · have hlinked := hr.ring.linked
    rw [← List.cons_append] at hlinked ⊢
    exact chain_congr hlinked hnext
  · show (hdr a.start).size.toNat = _
    rw [hsame a ha]
    exact hr.sizes a ha

/-- The units of `sbrk` only become more. -/
theorem Step.regions (hstep : Step base s e t) : s.heap.regions <:+ t.heap.regions := by
  cases hstep with
  | malloc _ _ hret _ => exact regions_ready base s.heap ▸ regions_mallocFrom hret
  | noMemory _ _ hret => exact regions_ready base s.heap ▸ regions_mallocFrom hret
  | free hb hret => exact regions_free hret ▸ List.suffix_refl _
  | write _ _ => exact List.suffix_refl _

theorem Inv.step (hi : Inv base s fs) (hbase : 0 < base) (hstep : Step base s e t) (hsmall : Small t.heap) :
    ∃ fs', Inv base t fs' := by
  cases hstep with
  | @malloc fuel p sbrk nbytes h hfresh hfits hret hp =>
    obtain ⟨fs', hr⟩ := (hi.ready hbase).mallocFrom hfresh hfits (nunits_pos nbytes) (hi.ready hbase).freep hsmall hret
    rw [if_neg hp] at hr
    refine ⟨fs', .inr hr, fun b hb => ?_⟩
    rcases List.mem_cons.mp hb with rfl | hb
    · rfl
    · exact hi.sizes b hb
  | @noMemory fuel sbrk nbytes h hfresh hfits hret =>
    obtain ⟨fs', hr⟩ := (hi.ready hbase).mallocFrom hfresh hfits (nunits_pos nbytes) (hi.ready hbase).freep hsmall hret
    exact ⟨fs', .inr hr, hi.sizes⟩
  | @free fuel b h hb hret =>
    rcases hi.rep with ⟨-, hlive, -⟩ | hr
    · rw [hlive] at hb
      cases hb
    · have hperm : s.blocks.Perm (b.toBlock :: (s.live.erase b).map Live.toBlock) :=
        (List.perm_cons_erase hb).map Live.toBlock
      obtain ⟨hregions, hfs⟩ := (hr.perm hperm).free.2 fuel h hret
      rw [Small, hregions] at hsmall
      obtain ⟨fs', hr', -⟩ := hfs hsmall
      exact ⟨fs', .inr hr', fun c hc => hi.sizes c (List.mem_of_mem_erase hc)⟩
  | @write hdr hhdr hunits =>
    refine ⟨fs, ?_, hi.sizes⟩
    rcases hi.rep with hempty | hr
    · exact .inl hempty
    · exact .inr (hr.write hhdr hunits)

/-! ### What follows from it -/

theorem Inv.bytes_le (hi : Inv base s fs) {b : Live} (hb : b ∈ s.live) : b.ptr + b.bytes.toNat ≤ b.stop := by
  have hsize := hi.sizes b hb
  rw [nunits_toNat] at hsize
  simp only [Live.ptr, Block.stop, hsize, unit]
  omega

theorem Inv.rep_of_mem (hi : Inv base s fs) {b : Live} (hb : b ∈ s.live) : Rep base s.heap fs s.blocks := by
  rcases hi.rep with ⟨-, hlive, -⟩ | hr
  · rw [hlive] at hb
    cases hb
  · exact hr

/-- The memory of a block is apart from the headers of all blocks, and from all of the others. -/
theorem Inv.disjoint (hi : Inv base s fs) {b : Live} (hb : b ∈ s.live) (ha : a ∈ fs ++ s.blocks) :
    Disjoint (Set.Ico a.start (a.start + unit)) b.memory ∧ (a ≠ b.toBlock → Disjoint a.memory b.memory) := by
  have hr := hi.rep_of_mem hb
  have hbytes := hi.bytes_le hb
  have hbmem : b.toBlock ∈ fs ++ s.blocks := List.mem_append_right _ (List.mem_map_of_mem hb)
  have haok := hr.ok a ha
  have hbok := hr.ok _ hbmem
  have hone : a.start + unit ≤ a.stop := by
    have hpos := haok.pos
    simp only [Block.stop, unit]
    omega
  have hother : a ≠ b.toBlock → Disjoint a.memory b.memory := by
    intro hne
    have hapart := apart_of_disjoint haok hbok fun x hxa hxb => hne (hr.eq_of_unit ha hbmem hxa hxb)
    refine Set.disjoint_left.mpr fun x hxa hxb => ?_
    simp only [Block.memory, Live.memory, Live.ptr, Set.mem_Ico, unit] at hxa hxb hbytes
    omega
  refine ⟨?_, hother⟩
  by_cases heq : a = b.toBlock
  · subst heq
    refine Set.disjoint_left.mpr fun x hxa hxb => ?_
    simp only [Live.memory, Live.ptr, Set.mem_Ico] at hxa hxb
    omega
  · exact (hother heq).mono_left (Set.Ico_subset_Ico_right hone)

theorem Inv.memory (hi : Inv base s fs) {b : Live} (hb : b ∈ s.live) {x : Nat} (hx : x ∈ b.memory) :
    ∃ r ∈ s.heap.regions, x ∈ r.memory := by
  have hr := hi.rep_of_mem hb
  have hbytes := hi.bytes_le hb
  have hbmem : b.toBlock ∈ fs ++ s.blocks := List.mem_append_right _ (List.mem_map_of_mem hb)
  -- the unit of the address
  have hunit : b.start + unit * ((x - b.start) / unit) ∈ b.units := by
    refine mem_units.mpr ⟨_, ?_, rfl⟩
    simp only [Live.memory, Live.ptr, Set.mem_Ico, Block.stop, unit] at hx hbytes ⊢
    omega
  obtain ⟨r, hr', hmem⟩ := List.mem_flatMap.mp (hr.units.mem_iff.mp (List.mem_flatMap.mpr ⟨_, hbmem, hunit⟩))
  obtain ⟨i, hi, heq⟩ := mem_units.mp hmem
  refine ⟨r, hr', ?_⟩
  simp only [Live.memory, Live.ptr, Block.memory, Set.mem_Ico, Block.stop, unit] at hx heq ⊢
  omega

theorem Inv.pairwise (hi : Inv base s fs) : s.live.Pairwise fun b c => Disjoint b.memory c.memory := by
  rcases hi.rep with ⟨-, hlive, -⟩ | hr
  · rw [hlive]
    exact List.Pairwise.nil
  · have hnodup := hr.units.nodup_iff.mpr hr.nodup
    rw [allUnits_append] at hnodup
    have hdisj := (List.nodup_flatMap.mp (List.nodup_append.mp hnodup).2.1).2
    refine (List.pairwise_map.mp hdisj).imp_of_mem fun {b c} hb hc hbc => ?_
    have hbmem : b.toBlock ∈ fs ++ s.blocks := List.mem_append_right _ (List.mem_map_of_mem hb)
    have hne : b.toBlock ≠ c.toBlock := by
      intro heq
      have hstart := start_mem_units (hr.ok _ hbmem)
      exact hbc hstart (heq ▸ hstart)
    refine ((hi.disjoint hc hbmem).2 hne).mono_left (Set.Ico_subset_Ico ?_ (hi.bytes_le hb))
    exact Nat.le_add_right ..

theorem Inv.sound (hi : Inv base s fs) : Sound base s fs := by
  refine ⟨fun b hb x hx => hi.memory hb hx, hi.pairwise, fun b hb x hx => ?_, ?_, ?_, ?_⟩
  · have hr := hi.rep_of_mem hb
    rcases List.mem_cons.mp hx with rfl | hx
    · have hbok := hr.ok b.toBlock (List.mem_append_right _ (List.mem_map_of_mem hb))
      have habove := hbok.above
      refine Set.disjoint_left.mpr fun y hy hyb => ?_
      simp only [Live.memory, Live.ptr, Set.mem_Ico] at hy hyb
      omega
    · obtain ⟨a, ha, rfl⟩ := List.mem_map.mp hx
      exact (hi.disjoint hb ha).1
  · rcases hi.rep with ⟨hfreep, -, -, hfs⟩ | hr
    · exact .inl ⟨hfreep, hfs⟩
    · exact .inr ⟨hr.ring, hr.freep, fun f hf => hr.sizes f (List.mem_append_left _ hf), hr.sorted⟩
  · rcases hi.rep with ⟨-, hlive, hregions, rfl⟩ | hr
    · rw [State.blocks, hlive, hregions]
      exact List.Perm.refl _
    · exact hr.units
  · rcases hi.rep with ⟨-, -, hregions, -⟩ | hr
    · rw [hregions]
      exact List.nodup_nil
    · exact hr.nodup

theorem Inv.returns (hi : Inv base s fs) (hbase : 0 < base) : Returns base s := by
  refine ⟨fun b hb => ?_, fun sbrk nbytes hfresh hbounded hfits => ?_⟩
  · have hperm : s.blocks.Perm (b.toBlock :: (s.live.erase b).map Live.toBlock) :=
      (List.perm_cons_erase hb).map Live.toBlock
    exact ((hi.rep_of_mem hb).perm hperm).free.1
  · obtain ⟨n, hn⟩ := (hi.ready hbase).ends hfresh hbounded hfits
    obtain ⟨r, hr⟩ := hn n le_rfl
    exact ⟨n, r, hr⟩

theorem exists_inv (hbase : 0 < base) (h : Run (Step base) (.init hdr) es s) (hsmall : Small s.heap) : ∃ fs, Inv base s fs := by
  induction h with
  | refl => exact ⟨[], .inl ⟨rfl, rfl, rfl, rfl⟩, nofun⟩
  | tail hrun hstep ih =>
    obtain ⟨fs, hi⟩ := ih (hsmall.of_suffix hstep.regions)
    exact hi.step hbase hstep hsmall

/-- After each run: the blocks and the free list are sound, the loops end, and what `malloc` has returned last is the pointer
    to a block for the number of bytes. -/
theorem malloc_run (hbase : 0 < base) (h : Run (Step base) (.init hdr) es s) (hsmall : Small s.heap) :
    (∃ fs, Sound base s fs) ∧ Returns base s ∧
      ∀ nbytes p, es.getLast? = some (.malloc nbytes p) → p ≠ 0 → ∃ b ∈ s.live, b.ptr = p ∧ b.bytes = nbytes := by
  obtain ⟨fs, hi⟩ := exists_inv hbase h hsmall
  refine ⟨⟨fs, hi.sound⟩, hi.returns hbase, fun nbytes p hlast hp => ?_⟩
  obtain ⟨es, rfl⟩ := List.getLast?_eq_some_iff.mp hlast
  obtain ⟨t, -, hstep⟩ := h.snoc_inv
  cases hstep with
  | malloc hfresh hfits hret hp =>
    refine ⟨_, List.mem_cons_self, ?_, rfl⟩
    have hbok := (hi.rep_of_mem List.mem_cons_self).ok _ (List.mem_append_right _ List.mem_cons_self)
    have hroot := hbok.root_lt
    simp only [Live.ptr] at hroot ⊢
    omega
  | noMemory => exact absurd rfl hp

/-! ### Programs that are run -/

instance (nbytes : UInt32) : Decidable (Fits nbytes) := inferInstanceAs (Decidable (_ < _))

/-- The end of all memory. -/
def brk (base : Nat) (h : Heap) : Nat := (h.regions.foldr (fun r m => max r.stop m) (base + unit) + unit - 1) / unit * unit

/-- Memory at the end of all that there is. -/
def contiguous (base : Nat) : Sbrk := fun h _ => some (brk base h)

theorem fresh_contiguous (base : Nat) : Fresh base (contiguous base) := by
  intro h n a ha
  obtain rfl := Option.some.inj ha
  have hle : ∀ rs : List Block, base + unit ≤ rs.foldr (fun r m => max r.stop m) (base + unit) ∧
      ∀ r ∈ rs, r.stop ≤ rs.foldr (fun r m => max r.stop m) (base + unit) := by
    intro rs
    induction rs with
    | nil => exact ⟨le_rfl, nofun⟩
    | cons r rs ih =>
      refine ⟨ih.1.trans (Nat.le_max_right ..), fun r' hr' => ?_⟩
      rcases List.mem_cons.mp hr' with rfl | hr'
      · exact Nat.le_max_left ..
      · exact (ih.2 r' hr').trans (Nat.le_max_right ..)
  obtain ⟨hbase, hregions⟩ := hle h.regions
  have hround : h.regions.foldr (fun r m => max r.stop m) (base + unit) ≤ brk base h := by
    simp only [brk, unit]
    omega
  exact ⟨Nat.mul_mod_left .., hbase.trans hround, fun r hr => (hregions r hr).trans hround⟩

/-- One call, with at most 99 rounds of each loop. -/
def attempt (base : Nat) (s : State) : Event → Option State
  | .malloc nbytes p =>
    match malloc base 99 (contiguous base) s.heap nbytes with
    | none => none
    | some (h, q) => if Fits nbytes ∧ p ≠ 0 ∧ q = p then some ⟨h, ⟨⟨p - unit, (nunits nbytes).toNat⟩, nbytes⟩ :: s.live⟩ else none
  | .free p =>
    match s.live.find? (·.ptr = p), free 99 s.heap p with
    | some b, some h => some ⟨h, s.live.erase b⟩
    | _, _ => none
  | .write => none

theorem step_of_attempt (h : attempt base s e = some t) : Step base s e t := by
  cases e with
  | malloc nbytes p =>
    rw [attempt] at h
    split at h
    · cases h
    · next h' q hret =>
      split at h
      · next hcond =>
        obtain ⟨hfits, hp, rfl⟩ := hcond
        cases h
        exact .malloc (fresh_contiguous base) hfits hret hp
      · cases h
  | free p =>
    rw [attempt] at h
    split at h
    · next b h' hb hret =>
      cases h
      obtain rfl : b.ptr = p := by simpa using List.find?_some hb
      exact .free (List.mem_of_find?_eq_some hb) hret
    · cases h
  | write => cases h

theorem run_of_attempt (h : es.foldlM (attempt base) s = some t) : Run (Step base) s es t :=
  (run_of_foldlM h).mono fun _ _ _ => step_of_attempt

/-- All memory is 0. -/
def blank : State := .init fun _ => ⟨0, 0⟩

/-- A block is freed between two others, and a smaller one is allocated. -/
def reuse : List Event :=
  [.malloc 100 69536, .malloc 40 69472, .malloc 10 69440, .free 69472, .malloc 20 69488]

theorem length_allUnits (bs : List Block) : (allUnits bs).length = (bs.map Block.size).sum := by
  simp [allUnits, List.length_flatMap]

theorem malloc_run_reuse : ∃ s, Run (Step 4096) blank reuse s ∧ s.live.length = 3 ∧ ∃ fs, Sound 4096 s fs := by
  have h : (reuse.foldlM (attempt 4096) blank).any fun s =>
      s.live.length = 3 ∧ (s.heap.regions.map Block.size).sum < 2 ^ 32 := by decide +kernel
  obtain ⟨s, hs, hcond⟩ := (Option.any_eq_true _ _).mp h
  obtain ⟨hlive, hsum⟩ := of_decide_eq_true hcond
  have hsmall : Small s.heap := by rwa [Small, length_allUnits]
  exact ⟨s, run_of_attempt hs, hlive, (malloc_run (by decide) (run_of_attempt hs) hsmall).1⟩

/-- With `n` blocks of almost 2 GiB, one after the other; all are freed in the end. -/
def huge (n : Nat) : List Event :=
  (List.range n).map (fun i => .malloc 2147483616 (4128 + unit * (2 ^ 27 - 1) * i)) ++
    (List.range n).map fun i => .free (4128 + unit * (2 ^ 27 - 1) * i)

/-- The sizes wrap around: with 33 regions of 2^27 - 1 units each, the size of the only free block is 2^27 - 33. -/
theorem size_wraps : ∃ s, Run (Step 4096) blank (huge 33) s ∧ ¬∃ fs, Sound 4096 s fs := by
  have h : ((huge 33).foldlM (attempt 4096) blank).any fun s =>
      s.live = [] ∧ s.heap.freep ≠ 0 ∧ s.heap.next 4096 = 4112 ∧ s.heap.next 4112 = 4096 ∧
        (s.heap.size 4112).toNat < (s.heap.regions.map Block.size).sum := by decide +kernel
  obtain ⟨s, hs, hcond⟩ := (Option.any_eq_true _ _).mp h
  obtain ⟨hlive, hfreep, hnext, hnext', hsize⟩ := of_decide_eq_true hcond
  refine ⟨s, run_of_attempt hs, fun ⟨fs, hsound⟩ => ?_⟩
  obtain ⟨hzero, -⟩ | hlist := hsound.list
  · exact hfreep hzero
  have hlength := hsound.units.length_eq
  rw [State.blocks, hlive, List.map_nil, List.append_nil, length_allUnits, length_allUnits] at hlength
  have hlinked := hlist.ring.linked
  -- the ring has one block
  cases fs with
  | nil =>
    have hroot := (List.isChain_cons_cons.mp hlinked).1
    omega
  | cons f fs =>
    obtain ⟨hroot, hlinked⟩ := List.isChain_cons_cons.mp hlinked
    obtain rfl | ⟨g, gs, rfl⟩ : fs = [] ∨ ∃ g gs, fs = g :: gs := by cases fs <;> simp
    · have hf := hlist.sizes f List.mem_cons_self
      rw [← hroot, hnext] at hf
      simp only [List.map_cons, List.map_nil, List.sum_cons, List.sum_nil] at hlength
      omega
    · have hg := (List.isChain_cons_cons.mp hlinked).1
      have hnodup := hlist.ring.nodup
      have hroot' : g.start = 4096 := by rw [← hg, ← hroot, hnext, hnext']
      simp [hroot'] at hnodup

end LabSO.Malloc

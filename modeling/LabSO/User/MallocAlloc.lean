import LabSO.User.MallocFree

/-! What `malloc` does: it takes a block from the free list, or the end of one, and asks for memory when no block is large
    enough. -/

namespace LabSO.Malloc
open Chase

variable {a b c f g r : Block} {bs cs fs gs L R : List Block} {base p q prevp bp x fuel : Nat} {h h' : Heap} {sbrk : Sbrk}
  {nu : UInt32}

theorem allUnits_perm (h : bs.Perm cs) : (allUnits bs).Perm (allUnits cs) := h.flatMap_right Block.units

/-- The blocks outside of the free list come in any order. -/
theorem Rep.perm (hr : Rep base h fs bs) (hperm : bs.Perm cs) : Rep base h fs cs := by
  have hmem : ∀ {a}, a ∈ fs ++ cs → a ∈ fs ++ bs := fun ha => (hperm.append_left fs).mem_iff.mpr ha
  exact { hr with
    sizes := fun a ha => hr.sizes a (hmem ha)
    ok := fun a ha => hr.ok a (hmem ha)
    units := (allUnits_perm (hperm.symm.append_left fs)).trans hr.units }

/-- `free` of a block returns, and then the block is in one of the free list. -/
theorem Rep.free (hr : Rep base h fs (b :: bs)) :
    (∃ fuel h', Malloc.free fuel h (b.start + unit) = some h') ∧
      ∀ fuel h', Malloc.free fuel h (b.start + unit) = some h' →
        h'.regions = h.regions ∧ (Small h → ∃ fs', Rep base h' fs' bs ∧ ∃ f ∈ fs', b.size ≤ f.size) := by
  have hbok := hr.ok b (by simp)
  have hnodup := hr.units.nodup_iff.mpr hr.nodup
  have hapart : ∀ f ∈ fs, b.stop ≤ f.start ∨ f.stop ≤ b.start := fun f hf =>
    apart_of_nodup hnodup hbok (hr.ok f (List.mem_append_left _ hf)) (List.mem_append_left _ hf)
  obtain ⟨L, R, rfl, hL, hR⟩ := exists_split hr.sorted (fun f hf => hr.ok f (List.mem_append_left _ hf)) hapart
  have hplace : Place b L R := ⟨hL, hR⟩
  obtain ⟨p, hp⟩ : ∃ p, IsLast base L p := ⟨_, List.getLast?_eq_some_getLast (List.cons_ne_nil base (starts L))⟩
  obtain ⟨⟨fuel, hseek⟩, huniq⟩ := hr.seek_place hbok hplace hp
  refine ⟨⟨fuel, h.link b.start p, ?_⟩, fun fuel h' hfree => ?_⟩
  · rw [Malloc.free, Nat.add_sub_cancel, hseek]
    rfl
  · rw [Malloc.free, Nat.add_sub_cancel] at hfree
    obtain ⟨q, hq, rfl⟩ := Option.map_eq_some_iff.mp hfree
    obtain rfl := huniq fuel q hq
    exact ⟨regions_link h b.start q, fun hsmall => hr.link hsmall hplace hp⟩

/-! ### More memory -/

/-- The units that `morecore` asks for. -/
def coreUnits (nu : UInt32) : UInt32 := if nu < 4096 then 4096 else nu

theorem coreUnits_toNat (nu : UInt32) : (coreUnits nu).toNat = max nu.toNat 4096 := by
  rw [coreUnits]
  split
  · next h =>
    have hlt : nu.toNat < 4096 := UInt32.lt_iff_toNat_lt.mp h
    exact (Nat.max_eq_right hlt.le).symm
  · next h =>
    have hle : ¬nu.toNat < 4096 := fun hlt => h (UInt32.lt_iff_toNat_lt.mpr hlt)
    exact (Nat.max_eq_left (Nat.le_of_not_lt hle)).symm

/-- The number of units in what `sbrk` is asked for. -/
theorem ofNat_units {n : Nat} (h : unit * n < 2 ^ 31) : (Int32.ofNat (n * unit)).toInt.toNat / unit = n := by
  rw [Int32.toInt_ofNat_of_lt (by rwa [Nat.mul_comm]), Int.toNat_natCast]
  exact Nat.mul_div_cancel n (Nat.succ_pos 15)

theorem unit_lt_stop (h : x ∈ a.units) : x < a.stop := by
  obtain ⟨i, hi, rfl⟩ := mem_units.mp h
  simp only [Block.stop, unit]
  omega

theorem Rep.start_mem (hr : Rep base h fs bs) (ha : a ∈ fs ++ bs) : ∃ r ∈ h.regions, a.start ∈ r.units := by
  have hmem : a.start ∈ allUnits (fs ++ bs) := List.mem_flatMap.mpr ⟨a, ha, start_mem_units (hr.ok a ha)⟩
  exact List.mem_flatMap.mp (hr.units.mem_iff.mp hmem)

/-- The heap with a new region as one block, whose header has its size. -/
def Heap.grow (h : Heap) (p : Nat) (nu : UInt32) : Heap :=
  let h := { h with regions := ⟨p, nu.toNat⟩ :: h.regions }
  h.set p { h.hdr p with size := nu }

/-- A new region is a block that is not in the free list. -/
theorem Rep.grow (hr : Rep base h fs bs) (hok : Block.Ok base ⟨p, nu.toNat⟩) (habove : ∀ r ∈ h.regions, r.stop ≤ p) :
    Rep base (h.grow p nu) fs (⟨p, nu.toNat⟩ :: bs) := by
  have hne : ∀ a ∈ fs ++ bs, a.start ≠ p := by
    intro a ha heq
    obtain ⟨r, hr', hmem⟩ := hr.start_mem ha
    have hlt := unit_lt_stop hmem
    have hle := habove r hr'
    omega
  have hother : ∀ x, x ≠ p → (h.grow p nu).hdr x = h.hdr x := fun x hx => Function.update_of_ne hx ..
  have hself : (h.grow p nu).hdr p = { h.hdr p with size := nu } := Function.update_self ..
  have hmem : ∀ {a}, a ∈ fs ++ ⟨p, nu.toNat⟩ :: bs → a = ⟨p, nu.toNat⟩ ∨ a ∈ fs ++ bs := by
    intro a ha
    rcases List.mem_append.mp ha with ha | ha
    · exact .inr (List.mem_append_left _ ha)
    · rcases List.mem_cons.mp ha with ha | ha
      · exact .inl ha
      · exact .inr (List.mem_append_right _ ha)
  refine ⟨hr.pos, ?_, ⟨hr.ring.nodup, ?_⟩, fun a ha => ?_, fun a ha => ?_, hr.sorted, hr.freep, ?_, ?_⟩
  · rw [Heap.size, hother base hok.root_lt.ne]
    exact hr.root
  · have hlinked := hr.ring.linked
    rw [← List.cons_append] at hlinked ⊢
    refine chain_congr hlinked fun x hx => ?_
    have hx : x ≠ p := by
      rcases List.mem_cons.mp hx with rfl | hx
      · exact hok.root_lt.ne
      · obtain ⟨a, ha, rfl⟩ := List.mem_map.mp hx
        exact hne a (List.mem_append_left _ ha)
    rw [Heap.next, hother x hx]
    rfl
  · rcases hmem ha with rfl | ha
    · rw [Heap.size, hself]
    · rw [Heap.size, hother _ (hne a ha)]
      exact hr.sizes a ha
  · rcases hmem ha with rfl | ha
    · exact hok
    · exact hr.ok a ha
  · show (allUnits (fs ++ ⟨p, nu.toNat⟩ :: bs)).Perm (allUnits (⟨p, nu.toNat⟩ :: h.regions))
    refine (allUnits_perm List.perm_middle).trans ?_
    rw [allUnits_cons, allUnits_cons]
    exact hr.units.append_left _
  · show (allUnits (⟨p, nu.toNat⟩ :: h.regions)).Nodup
    rw [allUnits_cons]
    refine List.Nodup.append (List.nodup_range' 16 (Nat.succ_pos 15)) hr.nodup fun x hx hx' => ?_
    obtain ⟨r, hr', hmem⟩ := List.mem_flatMap.mp hx'
    have hlt := unit_lt_stop hmem
    have hle := habove r hr'
    obtain ⟨i, -, rfl⟩ := mem_units.mp hx
    simp only at hlt
    omega

theorem morecore_eq (hnu : unit * max nu.toNat 4096 < 2 ^ 31) : morecore fuel sbrk h nu =
    match sbrk h (Int32.ofNat ((coreUnits nu).toNat * unit)) with
    | none => some (h, 0)
    | some p => (Malloc.free fuel (h.grow p (coreUnits nu)) (p + unit)).map fun h => (h, h.freep) := by
  have hunits := ofNat_units (n := (coreUnits nu).toNat) (by rwa [coreUnits_toNat])
  unfold Malloc.morecore
  dsimp only
  rw [← coreUnits, hunits]
  rfl

/-- What `morecore` does: nothing, or a region more, with a block that is large enough in the free list. -/
theorem Rep.morecore (hr : Rep base h fs bs) (hfresh : Fresh base sbrk) (hnu : unit * max nu.toNat 4096 < 2 ^ 31)
    (hret : Malloc.morecore fuel sbrk h nu = some (h', q)) : q = 0 ∧ h' = h ∨ q = h'.freep ∧
      ∃ r, h'.regions = r :: h.regions ∧ (Small h' → ∃ fs', Rep base h' fs' bs ∧ ∃ f ∈ fs', nu.toNat ≤ f.size) := by
  rw [morecore_eq hnu] at hret
  split at hret
  · cases hret
    exact .inl ⟨rfl, rfl⟩
  · next p hp =>
    obtain ⟨haligned, habove, hregions⟩ := hfresh _ _ _ hp
    have hcore := coreUnits_toNat nu
    obtain ⟨h₁, hfree, heq⟩ := Option.map_eq_some_iff.mp hret
    cases heq
    have hok : Block.Ok base ⟨p, (coreUnits nu).toNat⟩ := ⟨by show 0 < (coreUnits nu).toNat; omega, haligned, habove⟩
    obtain ⟨hkeep, hfs⟩ := (hr.grow hok hregions).free.2 fuel h' hfree
    refine .inr ⟨rfl, ⟨p, (coreUnits nu).toNat⟩, hkeep, fun hsmall => ?_⟩
    rw [Small, hkeep] at hsmall
    obtain ⟨fs', hr', f, hf, hle⟩ := hfs hsmall
    refine ⟨fs', hr', f, hf, ?_⟩
    simp only at hle
    omega

/-! ### Taking a block -/

/-- The pointers of the blocks after a place of the list. -/
theorem Rep.chain_rest (hr : Rep base h (L ++ R) bs) : (starts R ++ [base]).IsChain fun x y => h.next x = y :=
  hr.ring.linked.suffix ⟨base :: starts L, by simp⟩

/-- The block after `p` out of the list. -/
def Heap.unlink (h : Heap) (p x : Nat) : Heap := { h.set p { h.hdr p with ptr := h.next x } with freep := p }

theorem hdr_unlink (h : Heap) (p x : Nat) : (h.unlink p x).hdr = Function.update h.hdr p ⟨h.next x, h.size p⟩ := rfl

theorem size_unlink (h : Heap) (p x y : Nat) : (h.unlink p x).size y = h.size y := by
  rw [Heap.size, hdr_unlink]
  rcases eq_or_ne y p with rfl | hne
  · rw [Function.update_self]
  · rw [Function.update_of_ne hne]
    rfl

/-- A block leaves the free list. -/
theorem Rep.unlink (hr : Rep base h (L ++ f :: R) bs) (hp : IsLast base L p) :
    Rep base (h.unlink p f.start) (L ++ R) (f :: bs) := by
  have hperm : (L ++ R ++ f :: bs).Perm (L ++ f :: R ++ bs) :=
    List.perm_middle.trans (List.perm_middle.symm.append_right bs)
  have hr' : Rep base h ((L ++ [f]) ++ R) bs := by rwa [List.append_assoc, List.singleton_append]
  have hnext : h.next f.start = first base R := hr'.next_isLast (isLast_concat.mpr rfl)
  have hother : ∀ x, x ≠ p → (h.unlink p f.start).next x = h.next x := by
    intro x hx
    rw [Heap.next, hdr_unlink, Function.update_of_ne hx]
    rfl
  have hsorted : (L ++ R).Pairwise fun f g => f.stop < g.start :=
    hr.sorted.sublist ((List.sublist_cons_self f R).append_left L)
  have hok : ∀ a ∈ L ++ R, a.Ok base := fun a ha => hr.ok a (hperm.mem_iff.mp (List.mem_append_left _ ha))
  have hring := hr.ring
  rw [starts_append] at hring
  refine ⟨hr.pos, ?_, ?_, fun a ha => ?_, fun a ha => hr.ok a (hperm.mem_iff.mp ha), hsorted, ?_, ?_, hr.nodup⟩
  · rw [size_unlink]
    exact hr.root
  · rw [starts_append]
    refine hring.splice hp ?_ (fun x _ hx => hother x hx) (List.isChain_cons.mpr ⟨fun y hy => ?_, ?_⟩)
    · rw [← starts_append]
      exact nodup_of_sorted hsorted hok
    · rw [head?_first] at hy
      rw [Heap.next, hdr_unlink, Function.update_self, ← Option.some.inj hy]
      exact hnext
    · refine chain_congr hr'.chain_rest fun x hx => hother x ?_
      obtain ⟨g, hg, rfl⟩ := List.mem_map.mp hx
      exact (hr.isLast_lt hp (List.mem_cons_of_mem _ hg)).ne'
  · rw [size_unlink]
    exact hr.sizes a (hperm.mem_iff.mp ha)
  · rw [starts_append, ← List.cons_append]
    exact List.mem_append_left _ (List.mem_of_getLast? hp)
  · exact (allUnits_perm hperm).trans hr.units

/-- The end of the block at `p` is cut off. -/
def Heap.cut (h : Heap) (p : Nat) (nu : UInt32) : Heap :=
  let h := h.set p { h.hdr p with size := h.size p - nu }
  h.set (h.stop p) { h.hdr (h.stop p) with size := nu }

/-- Where the part begins that is cut off. -/
def Heap.cutAt (h : Heap) (p : Nat) (nu : UInt32) : Nat := p + unit * ((h.size p).toNat - nu.toNat)

theorem stop_cut (hlt : nu < h.size p) : (h.set p { h.hdr p with size := h.size p - nu }).stop p = h.cutAt p nu := by
  have hself : (h.set p { h.hdr p with size := h.size p - nu }).hdr p = ⟨h.next p, h.size p - nu⟩ := Function.update_self ..
  rw [Heap.stop, Heap.size, hself, UInt32.toNat_sub_of_le _ _ (UInt32.le_of_lt hlt)]
  rfl

/-- The headers at `p` and at the cut keep their pointers, and no other header changes. -/
theorem hdr_cut (hlt : nu < h.size p) : h.cutAt p nu ≠ p ∧ (h.cut p nu).hdr p = ⟨h.next p, h.size p - nu⟩ ∧
    (h.cut p nu).hdr (h.cutAt p nu) = ⟨h.next (h.cutAt p nu), nu⟩ ∧
    ∀ x, x ≠ p → x ≠ h.cutAt p nu → (h.cut p nu).hdr x = h.hdr x := by
  have hlt' : nu.toNat < (h.size p).toNat := UInt32.lt_iff_toNat_lt.mp hlt
  have hne : h.cutAt p nu ≠ p := by
    simp only [Heap.cutAt, unit]
    omega
  have hstop : (h.set p ⟨h.next p, h.size p - nu⟩).stop p = h.cutAt p nu := stop_cut hlt
  have hat : (h.set p ⟨h.next p, h.size p - nu⟩).hdr (h.cutAt p nu) = h.hdr (h.cutAt p nu) := Function.update_of_ne hne ..
  have hcut : (h.cut p nu).hdr = Function.update (Function.update h.hdr p ⟨h.next p, h.size p - nu⟩) (h.cutAt p nu)
      ⟨h.next (h.cutAt p nu), nu⟩ := by
    show ((h.set p ⟨h.next p, h.size p - nu⟩).set ((h.set p ⟨h.next p, h.size p - nu⟩).stop p)
      ⟨((h.set p ⟨h.next p, h.size p - nu⟩).hdr ((h.set p ⟨h.next p, h.size p - nu⟩).stop p)).ptr, nu⟩).hdr = _
    rw [hstop, hat]
    rfl
  rw [hcut]
  refine ⟨hne, ?_, Function.update_self .., fun x hx hx' => ?_⟩
  · rw [Function.update_of_ne hne.symm, Function.update_self]
  · rw [Function.update_of_ne hx', Function.update_of_ne hx]

/-- A block of the free list loses its end, which is a block outside of the list. -/
theorem Rep.cut (hr : Rep base h (L ++ f :: R) bs) (hpos : 0 < nu.toNat) (hlt : nu.toNat < f.size)
    (hp : p ∈ base :: starts (L ++ f :: R)) :
    Rep base { h.cut f.start nu with freep := p } (L ++ ⟨f.start, f.size - nu.toNat⟩ :: R)
      (⟨h.cutAt f.start nu, nu.toNat⟩ :: bs) := by
  have hfmem : f ∈ L ++ f :: R ++ bs := by simp
  have hfsize := hr.sizes f hfmem
  have hfok := hr.ok f hfmem
  have hnu : nu < h.size f.start := UInt32.lt_iff_toNat_lt.mpr (by rwa [hfsize])
  obtain ⟨hne, hself, hend, hrest⟩ := hdr_cut hnu
  have hat : h.cutAt f.start nu = f.start + unit * (f.size - nu.toNat) := by rw [Heap.cutAt, hfsize]
  -- both headers keep their pointers
  have hnext : ∀ x, (h.cut f.start nu).next x = h.next x := by
    intro x
    rw [Heap.next]
    rcases eq_or_ne x (h.cutAt f.start nu) with rfl | hx
    · rw [hend]
    · rcases eq_or_ne x f.start with rfl | hx'
      · rw [hself]
      · rw [hrest x hx' hx]
        rfl
  have hunits : f.units = Block.units ⟨f.start, f.size - nu.toNat⟩ ++ Block.units ⟨h.cutAt f.start nu, nu.toNat⟩ := by
    rw [hat, ← units_split, Nat.sub_add_cancel hlt.le]
  have hstarts : starts (L ++ ⟨f.start, f.size - nu.toNat⟩ :: R) = starts (L ++ f :: R) := by simp
  have hsmall : Block.stop ⟨f.start, f.size - nu.toNat⟩ ≤ f.stop := by
    simp only [Block.stop, unit]
    omega
  have hokcut : Block.Ok base ⟨h.cutAt f.start nu, nu.toNat⟩ := by
    have halign := hfok.aligned
    have habove := hfok.above
    refine ⟨hpos, ?_, ?_⟩ <;> simp only [hat, unit] at * <;> omega
  have hmem : ∀ {a}, a ∈ L ++ ⟨f.start, f.size - nu.toNat⟩ :: R ++ ⟨h.cutAt f.start nu, nu.toNat⟩ :: bs →
      a = ⟨f.start, f.size - nu.toNat⟩ ∨ a = ⟨h.cutAt f.start nu, nu.toNat⟩ ∨ a ∈ L ++ (R ++ bs) := by
    intro a ha
    simp only [List.append_assoc, List.cons_append, List.mem_append, List.mem_cons] at ha ⊢
    tauto
  have hother : ∀ a ∈ L ++ (R ++ bs), a ∈ L ++ f :: R ++ bs ∧ (h.cut f.start nu).hdr a.start = h.hdr a.start := by
    intro a ha
    have hmem : a ∈ L ++ f :: R ++ bs := by
      rw [List.append_assoc, List.cons_append]
      exact (List.sublist_cons_self f (R ++ bs)).append_left L |>.subset ha
    have hnodup := hr.units.nodup_iff.mpr hr.nodup
    rw [List.append_assoc, List.cons_append] at hnodup
    have hapart := apart_of_nodup hnodup hfok (hr.ok a hmem) ha
    have hlt := (hr.ok a hmem).start_lt_stop
    have hne₁ : a.start ≠ h.cutAt f.start nu := by
      simp only [hat, Block.stop, unit] at hapart hlt ⊢
      omega
    have hne₂ : a.start ≠ f.start := by
      have hlt' := hfok.start_lt_stop
      omega
    exact ⟨hmem, hrest _ hne₂ hne₁⟩
  obtain ⟨hsortL, hsortR, hcross⟩ := List.pairwise_append.mp hr.sorted
  obtain ⟨hfR, hsortR⟩ := List.pairwise_cons.mp hsortR
  refine ⟨hr.pos, ?_, ?_, fun a ha => ?_, fun a ha => ?_, ?_, hstarts ▸ hp, ?_, hr.nodup⟩
  · show ((h.cut f.start nu).hdr base).size = 0
    rw [hrest base hfok.root_lt.ne hokcut.root_lt.ne]
    exact hr.root
  · rw [hstarts]
    have hring := hr.ring
    rw [← funext hnext] at hring
    exact hring
  · rcases hmem ha with rfl | rfl | ha
    · show ((h.cut f.start nu).hdr f.start).size.toNat = _
      rw [hself, UInt32.toNat_sub_of_le _ _ (UInt32.le_of_lt hnu), hfsize]
    · show ((h.cut f.start nu).hdr (h.cutAt f.start nu)).size.toNat = _
      rw [hend]
    · obtain ⟨hmem, hhdr⟩ := hother a ha
      show ((h.cut f.start nu).hdr a.start).size.toNat = _
      rw [hhdr]
      exact hr.sizes a hmem
  · rcases hmem ha with rfl | rfl | ha
    · exact ⟨Nat.sub_pos_of_lt hlt, hfok.aligned, hfok.above⟩
    · exact hokcut
    · exact hr.ok a (hother a ha).1
  · refine List.pairwise_append.mpr ⟨hsortL, List.pairwise_cons.mpr ⟨fun g hg => ?_, hsortR⟩, fun e he g hg => ?_⟩
    · exact hsmall.trans_lt (hfR g hg)
    · rcases List.mem_cons.mp hg with rfl | hg
      · exact hcross e he f List.mem_cons_self
      · exact hcross e he g (List.mem_cons_of_mem _ hg)
  · refine List.Perm.trans ?_ hr.units
    simp only [allUnits_append, allUnits_cons, List.append_assoc, hunits]
    refine List.Perm.append_left _ (List.Perm.append_left _ ?_)
    rw [← List.append_assoc, ← List.append_assoc]
    exact List.perm_append_comm.append_right _

/-- `malloc` takes the block that it has come to, or the end of it. -/
theorem Rep.take (hr : Rep base h (L ++ f :: R) bs) (hp : IsLast base L prevp) (hpos : 0 < nu.toNat) (hle : nu.toNat ≤ f.size)
    (htake : h.take prevp f.start nu = (h', q)) : q ≠ 0 ∧ ∃ fs', Rep base h' fs' (⟨q - unit, nu.toNat⟩ :: bs) := by
  have hfsize := hr.sizes f (by simp)
  rw [Heap.take] at htake
  split at htake
  · next heq =>
    cases htake
    have hsize : nu.toNat = f.size := by rw [← hfsize, heq]
    refine ⟨Nat.succ_ne_zero _, L ++ R, ?_⟩
    rw [Nat.add_sub_cancel, hsize]
    exact hr.unlink hp
  · next hne =>
    cases htake
    have hlt : nu.toNat < f.size := by
      refine lt_of_le_of_ne hle fun heq => hne (UInt32.toNat_inj.mp ?_)
      rw [hfsize, heq]
    have hmem : prevp ∈ base :: starts (L ++ f :: R) := by
      rw [starts_append, ← List.cons_append]
      exact List.mem_append_left _ (List.mem_of_getLast? hp)
    have hnu : nu < h.size f.start := UInt32.lt_iff_toNat_lt.mpr (by rwa [hfsize])
    refine ⟨Nat.succ_ne_zero _, L ++ ⟨f.start, f.size - nu.toNat⟩ :: R, ?_⟩
    rw [Nat.add_sub_cancel]
    show Rep base { h.cut f.start nu with freep := prevp } _
      (⟨(h.set f.start { h.hdr f.start with size := h.size f.start - nu }).stop f.start, nu.toNat⟩ :: bs)
    rw [stop_cut hnu]
    exact hr.cut hpos hlt hmem

/-! ### The loop of `malloc` -/

theorem regions_free (hret : Malloc.free fuel h p = some h') : h'.regions = h.regions := by
  obtain ⟨q, -, rfl⟩ := Option.map_eq_some_iff.mp hret
  exact regions_link ..

theorem regions_take (h : Heap) (prevp p : Nat) (nu : UInt32) : (h.take prevp p nu).1.regions = h.regions := by
  unfold Heap.take
  split <;> rfl

theorem regions_morecore (hret : Malloc.morecore fuel sbrk h nu = some (h', q)) : h.regions <:+ h'.regions := by
  unfold Malloc.morecore at hret
  dsimp only at hret
  split at hret
  · cases hret
    exact List.suffix_refl _
  · obtain ⟨h₁, hfree, heq⟩ := Option.map_eq_some_iff.mp hret
    cases heq
    rw [regions_free hfree]
    exact List.suffix_cons ..

theorem regions_mallocFrom (hret : mallocFrom sbrk nu fuel h prevp p = some (h', q)) : h.regions <:+ h'.regions := by
  induction fuel generalizing h prevp p with
  | zero => cases hret
  | succ fuel ih =>
    rw [mallocFrom] at hret
    split at hret
    · have htake := regions_take h prevp p nu
      rw [Option.some.inj hret] at htake
      exact htake ▸ List.suffix_refl _
    · split at hret
      · split at hret
        · cases hret
        · next h₁ q₁ hcore =>
          have hsuffix := regions_morecore hcore
          split at hret
          · cases hret
            exact hsuffix
          · exact hsuffix.trans (ih hret)
      · exact ih hret

theorem Rep.pos_of_mem (hr : Rep base h fs bs) (hp : p ∈ base :: starts fs) : 0 < p := by
  obtain ⟨L, R, rfl, hlast⟩ := exists_isLast hp
  exact hr.pos.trans_le (hr.root_le_isLast hlast)

theorem Small.of_suffix (hsmall : Small h') (hsuffix : h.regions <:+ h'.regions) : Small h := by
  obtain ⟨rs, hrs⟩ := hsuffix
  rw [Small, ← hrs, allUnits_append, List.length_append] at hsmall
  rw [Small]
  omega

/-- A result of `malloc`: 0, or the pointer to a block that is not in the free list. -/
theorem Rep.mallocFrom (hr : Rep base h fs bs) (hfresh : Fresh base sbrk) (hnu : unit * max nu.toNat 4096 < 2 ^ 31)
    (hpos : 0 < nu.toNat) (hprevp : prevp ∈ base :: starts fs) (hsmall : Small h')
    (hret : Malloc.mallocFrom sbrk nu fuel h prevp (h.next prevp) = some (h', q)) :
    ∃ fs', Rep base h' fs' (if q = 0 then bs else ⟨q - unit, nu.toNat⟩ :: bs) := by
  induction fuel generalizing h fs prevp with
  | zero => cases hret
  | succ fuel ih =>
    have hp := hr.ring.next_mem hprevp
    rw [Malloc.mallocFrom] at hret
    split at hret
    · next hle =>
      obtain ⟨L, R, rfl, hlast⟩ := exists_isLast hprevp
      have hnext := hr.next_isLast hlast
      have hle := UInt32.le_iff_toNat_le.mp hle
      cases R with
      | nil =>
        have hroot : (h.size (h.next prevp)).toNat = 0 := by
          rw [hnext]
          exact congrArg UInt32.toNat hr.root
        omega
      | cons f R =>
        have hnext : h.next prevp = f.start := hnext
        rw [hnext, hr.sizes f (by simp)] at hle
        rw [hnext] at hret
        obtain ⟨hq, hr'⟩ := hr.take hlast hpos hle (Option.some.inj hret)
        rwa [if_neg hq]
    · split at hret
      · split at hret
        · cases hret
        · next h₁ q₁ hcore =>
          rcases hr.morecore hfresh hnu hcore with ⟨rfl, rfl⟩ | ⟨rfl, r, hregions, hr₁⟩
          · cases hret
            exact ⟨fs, hr⟩
          · split at hret
            · next hzero =>
              cases hret
              obtain ⟨fs₁, hr₁, -⟩ := hr₁ hsmall
              exact absurd hzero (hr₁.pos_of_mem hr₁.freep).ne'
            · obtain ⟨fs₁, hr₁, -⟩ := hr₁ (hsmall.of_suffix (regions_mallocFrom hret))
              exact ih hr₁ hr₁.freep hret
      · exact ih hr hp hret

end LabSO.Malloc

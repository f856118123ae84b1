import LabSO.User.MallocBlocks

/-! What `free` does: it finds the place of a block in the free list, and joins the block with the neighbours that it touches. -/

namespace LabSO.Malloc
open Chase

variable {a b c f g r : Block} {bs cs fs gs L R : List Block} {base p bp x : Nat} {h : Heap}

/-! ### The place of a block -/

/-- The block `b` belongs between `L` and `R`. -/
structure Place (b : Block) (L R : List Block) : Prop where
  left : ∀ f ∈ L, f.stop ≤ b.start
  right : ∀ g ∈ R, b.stop ≤ g.start

theorem between_iff (h : Heap) (bp p : Nat) : h.between bp p = true ↔
    (p < bp ∧ bp < h.next p) ∨ (h.next p ≤ p ∧ (p < bp ∨ bp < h.next p)) := by
  simp [Heap.between]

theorem Block.Ok.root_lt (hb : b.Ok base) : base < b.start := by
  have habove := hb.above
  simp only [unit] at habove
  omega

theorem Rep.root_le_isLast (hr : Rep base h (L ++ R) bs) (hp : IsLast base L p) : base ≤ p := by
  rcases List.eq_nil_or_concat L with rfl | ⟨L, f, rfl⟩
  · exact (isLast_nil.mp hp).ge
  · rw [List.concat_eq_append] at hp hr
    obtain rfl := isLast_concat.mp hp
    exact (hr.ok f (by simp)).root_lt.le

theorem Rep.isLast_lt_place (hr : Rep base h (L ++ R) bs) (hb : b.Ok base) (hplace : Place b L R) (hp : IsLast base L p) :
    p < b.start := by
  rcases List.eq_nil_or_concat L with rfl | ⟨L, f, rfl⟩
  · obtain rfl := isLast_nil.mp hp
    exact hb.root_lt
  · rw [List.concat_eq_append] at hp hr hplace
    obtain rfl := isLast_concat.mp hp
    have hf := (hr.ok f (by simp)).start_lt_stop
    have hstop := hplace.left f (by simp)
    omega

theorem Rep.between_place (hr : Rep base h (L ++ R) bs) (hb : b.Ok base) (hplace : Place b L R) (hp : IsLast base L p) :
    h.between b.start p = true := by
  have hlt := hr.isLast_lt_place hb hplace hp
  rw [between_iff, hr.next_isLast hp]
  cases R with
  | nil => exact Or.inr ⟨hr.root_le_isLast hp, Or.inl hlt⟩
  | cons g R =>
    have hg := hplace.right g List.mem_cons_self
    exact Or.inl ⟨hlt, hb.start_lt_stop.trans_le hg⟩

/-- The loop of `free` stops nowhere else than at the place of the block. -/
theorem Rep.eq_of_between (hr : Rep base h (L ++ R) bs) (hb : b.Ok base) (hplace : Place b L R) (hp : IsLast base L p)
    (hx : x ∈ base :: starts (L ++ R)) (hbetween : h.between b.start x = true) : x = p := by
  obtain ⟨L', R', heq, hx'⟩ := exists_isLast hx
  have hlt := hb.start_lt_stop
  have hroot := hb.root_lt
  rw [between_iff] at hbetween
  rcases List.append_eq_append_iff.mp heq with ⟨as, rfl, rfl⟩ | ⟨as, rfl, rfl⟩
  · rcases List.eq_nil_or_concat as with rfl | ⟨as, f, rfl⟩
    · rw [List.append_nil] at hx'
      exact Option.some.inj (hx'.symm.trans hp)
    · -- a block after the place, and the next one or the root
      rw [List.concat_eq_append] at *
      rw [← List.append_assoc] at hr
      have hnext := hr.next_isLast hx'
      rw [← List.append_assoc] at hx'
      obtain rfl := isLast_concat.mp hx'
      have hf := hplace.right f (by simp)
      exfalso
      rw [hnext] at hbetween
      cases R' with
      | nil =>
        simp only [first, List.head?_nil, Option.map_none, Option.getD_none] at hbetween
        omega
      | cons g R' =>
        have hfg := (List.pairwise_append.mp hr.sorted).2.2 f (by simp) g (by simp)
        have hf' := (hr.ok f (by simp)).start_lt_stop
        simp only [first, List.head?_cons, Option.map_some, Option.getD_some] at hbetween
        omega
  · cases as with
    | nil =>
      rw [List.append_nil] at hp
      exact Option.some.inj (hx'.symm.trans hp)
    | cons f as =>
      -- a node before the place, and the block after it, which is so too
      rw [List.append_assoc] at hr
      have hxf := hr.isLast_lt hx' (g := f) (by simp)
      have hf := hplace.left f (by simp)
      have hf' := (hr.ok f (by simp)).start_lt_stop
      have hnext : h.next x = f.start := hr.next_isLast hx'
      omega

/-- The loop of `free` ends, and it ends at the place of the block. -/
theorem Rep.seek_place (hr : Rep base h (L ++ R) bs) (hb : b.Ok base) (hplace : Place b L R) (hp : IsLast base L p) :
    (∃ fuel, seek h.next (h.between b.start) fuel h.freep = some p) ∧
      ∀ fuel q, seek h.next (h.between b.start) fuel h.freep = some q → q = p := by
  have heq : ∀ fuel q, seek h.next (h.between b.start) fuel h.freep = some q → q = p := by
    intro fuel q hq
    obtain ⟨hbetween, k, rfl, -⟩ := seek_some hq
    exact hr.eq_of_between hb hplace hp (hr.ring.iterate_mem hr.freep k) hbetween
  refine ⟨?_, heq⟩
  have hmem : p ∈ base :: starts (L ++ R) := by
    rw [starts_append, ← List.cons_append]
    exact List.mem_append_left _ (List.mem_of_getLast? hp)
  obtain ⟨k, hk⟩ := hr.ring.reach hr.freep hmem
  have hstop : h.between b.start (h.next^[k] h.freep) = true := by
    rw [hk]
    exact hr.between_place hb hplace hp
  obtain ⟨q, hq⟩ := seek_of_iterate hstop (Nat.lt_succ_self k)
  exact ⟨k + 1, by rw [hq, heq _ q hq]⟩

/-! ### Joining -/

/-- The next node after the block `bp`, whose place is after `p`, and its size, once it is joined with the upper
    neighbour if they touch. -/
def Heap.upperNext (h : Heap) (bp p : Nat) : Nat := if h.stop bp = h.next p then h.next (h.next p) else h.next p

def Heap.upperSize (h : Heap) (bp p : Nat) : UInt32 :=
  if h.stop bp = h.next p then h.size bp + h.size (h.next p) else h.size bp

theorem hdr_link (h : Heap) (hne : p ≠ bp) : (h.link bp p).hdr =
    Function.update (Function.update h.hdr bp ⟨h.upperNext bp p, h.upperSize bp p⟩) p
      (if h.stop p = bp then ⟨h.upperNext bp p, h.size p + h.upperSize bp p⟩ else ⟨bp, h.size p⟩) := by
  have hupper : (if h.stop bp = h.next p then h.set bp { ptr := h.next (h.next p), size := h.size bp + h.size (h.next p) }
      else h.set bp { h.hdr bp with ptr := h.next p }) = h.set bp ⟨h.upperNext bp p, h.upperSize bp p⟩ := by
    unfold Heap.upperNext Heap.upperSize
    split <;> rfl
  have hp : (h.set bp ⟨h.upperNext bp p, h.upperSize bp p⟩).hdr p = h.hdr p := Function.update_of_ne hne ..
  have hbp : (h.set bp ⟨h.upperNext bp p, h.upperSize bp p⟩).hdr bp = ⟨h.upperNext bp p, h.upperSize bp p⟩ :=
    Function.update_self ..
  have hstop : (h.set bp ⟨h.upperNext bp p, h.upperSize bp p⟩).stop p = h.stop p := by
    rw [Heap.stop, Heap.size, hp]
    rfl
  rw [Heap.link, hupper]
  simp only [hstop, Heap.next, Heap.size, hp, hbp]
  by_cases hlower : h.stop p = bp
  · rw [if_pos hlower, if_pos hlower]
    rfl
  · rw [if_neg hlower, if_neg hlower]
    rfl

theorem Rep.stop_eq (hr : Rep base h fs bs) (ha : a ∈ fs ++ bs) : h.stop a.start = a.stop := by
  rw [Heap.stop, hr.sizes a ha]
  rfl

theorem toNat_add {x y : UInt32} (h : x.toNat + y.toNat < 2 ^ 32) : (x + y).toNat = x.toNat + y.toNat := by
  rw [UInt32.toNat_add, Nat.mod_eq_of_lt h]

/-- All units fit in a `uint`. -/
def Small (h : Heap) : Prop := (allUnits h.regions).length < 2 ^ 32

/-- The block once it is joined with the upper neighbour, and the blocks after it. -/
theorem Rep.upper (hr : Rep base h (L ++ R) (b :: bs)) (hsmall : Small h) (hplace : Place b L R) (hp : IsLast base L p) :
    ∃ (b' : Block) (R' : List Block), R' <:+ R ∧ b'.start = b.start ∧ b.size ≤ b'.size ∧ h.upperNext b.start p = first base R' ∧
      (h.upperSize b.start p).toNat = b'.size ∧ b'.units ++ allUnits R' = b.units ++ allUnits R ∧
      ∀ g ∈ R', b'.stop < g.start := by
  have hb : b ∈ L ++ R ++ b :: bs := by simp
  have hbok := hr.ok b hb
  have hlt := hbok.start_lt_stop
  have hroot := hbok.root_lt
  rw [Heap.upperNext, Heap.upperSize, hr.stop_eq hb, hr.next_isLast hp]
  cases R with
  | nil =>
    have hne : ¬b.stop = first base [] := by
      show ¬b.stop = base
      omega
    exact ⟨b, [], List.suffix_refl _, rfl, le_rfl, if_neg hne, by rw [if_neg hne, hr.sizes b hb], rfl, nofun⟩
  | cons r R =>
    have hrmem : r ∈ L ++ r :: R ++ b :: bs := by simp
    have hsorted := (List.pairwise_cons.mp (List.pairwise_append.mp hr.sorted).2.1).1
    have hrlt := (hr.ok r hrmem).start_lt_stop
    have hbr := hplace.right r List.mem_cons_self
    show ∃ (b' : Block) (R' : List Block), _ ∧ _ ∧ _ ∧ (if b.stop = r.start then h.next r.start else r.start) = _ ∧
      (UInt32.toNat (if b.stop = r.start then h.size b.start + h.size r.start else _)) = _ ∧ _
    by_cases hjoin : b.stop = r.start
    · rw [if_pos hjoin, if_pos hjoin]
      have hnext : h.next r.start = first base R := by
        have hr' : Rep base h ((L ++ [r]) ++ R) (b :: bs) := by rwa [List.append_assoc, List.singleton_append]
        exact hr'.next_isLast (isLast_concat.mpr rfl)
      have hunits : Block.units ⟨b.start, b.size + r.size⟩ = b.units ++ r.units := by
        rw [units_split]
        show _ ++ Block.units ⟨b.stop, r.size⟩ = _
        rw [hjoin]
      have hadd : b.size + r.size < 2 ^ 32 := by
        have hlength := hr.units.length_eq
        simp only [allUnits_append, allUnits_cons, List.length_append, length_units] at hlength
        rw [Small] at hsmall
        omega
      refine ⟨⟨b.start, b.size + r.size⟩, R, List.suffix_cons r R, rfl, Nat.le_add_right .., hnext, ?_, ?_, fun g hg => ?_⟩
      · have hsum : (h.size b.start).toNat + (h.size r.start).toNat < 2 ^ 32 := by
          rw [hr.sizes b hb, hr.sizes r hrmem]
          exact hadd
        show (h.size b.start + h.size r.start).toNat = _
        rw [toNat_add hsum, hr.sizes b hb, hr.sizes r hrmem]
      · rw [hunits, allUnits_cons, List.append_assoc]
      · have hg := hsorted g hg
        simp only [Block.stop, unit] at hg hjoin ⊢
        omega
    · rw [if_neg hjoin, if_neg hjoin]
      refine ⟨b, r :: R, List.suffix_refl _, rfl, le_rfl, rfl, hr.sizes b hb, rfl, fun g hg => ?_⟩
      rcases List.mem_cons.mp hg with rfl | hg
      · omega
      · have hg := hsorted g hg
        omega

/-! ### The free list afterwards -/

theorem regions_link (h : Heap) (bp p : Nat) : (h.link bp p).regions = h.regions := by
  unfold Heap.link
  dsimp only
  split <;> split <;> rfl

/-- The headers that `free` does not change. -/
theorem Rep.ne_of_mem (hr : Rep base h (L ++ R) (b :: bs)) (hp : IsLast base L p) :
    (∀ a ∈ L, a.start ≠ b.start) ∧ ∀ a ∈ R ++ bs, a.start ≠ b.start ∧ a.start ≠ p := by
  have hnodup := hr.nodup_starts
  simp only [starts_append, starts_cons] at hnodup
  obtain ⟨hLR, hb, hdisj⟩ := List.nodup_append.mp hnodup
  have hmem : ∀ {a : Block} {cs : List Block}, a ∈ cs → a.start ∈ starts cs := fun ha => List.mem_map_of_mem ha
  have hpL : ∀ a ∈ R ++ bs, p ∈ starts L → a.start ≠ p := by
    intro a ha hpmem heq
    rcases List.mem_append.mp ha with ha | ha
    · exact (List.nodup_append.mp hLR).2.2 p hpmem a.start (hmem ha) heq.symm
    · exact hdisj p (List.mem_append_left _ hpmem) a.start (List.mem_cons_of_mem _ (hmem ha)) heq.symm
  refine ⟨fun a ha => hdisj _ (List.mem_append_left _ (hmem ha)) _ List.mem_cons_self, fun a ha => ⟨?_, ?_⟩⟩
  · rcases List.mem_append.mp ha with ha | ha
    · exact hdisj _ (List.mem_append_right _ (hmem ha)) _ List.mem_cons_self
    · exact fun heq => (List.nodup_cons.mp hb).1 (heq ▸ hmem ha)
  · rcases List.mem_cons.mp (List.mem_of_getLast? hp) with rfl | hpmem
    · have hok : a.Ok p := hr.ok a (by rcases List.mem_append.mp ha with ha | ha <;> simp [ha])
      exact hok.root_lt.ne'
    · exact hpL a ha hpmem

/-- `free` gives the block back to the free list. -/
theorem Rep.link (hr : Rep base h (L ++ R) (b :: bs)) (hsmall : Small h) (hplace : Place b L R) (hp : IsLast base L p) :
    ∃ fs, Rep base (h.link b.start p) fs bs ∧ ∃ f ∈ fs, b.size ≤ f.size := by
  obtain ⟨b', R', hsuffix, hstart, hsize, hnext, hupper, hunits, hafter⟩ := hr.upper hsmall hplace hp
  have hbmem : b ∈ L ++ R ++ b :: bs := by simp
  have hbok := hr.ok b hbmem
  have hpb := (hr.isLast_lt_place hbok hplace hp).ne
  obtain ⟨hLne, hRne⟩ := hr.ne_of_mem hp
  have hhdr := hdr_link h hpb
  have hother : ∀ x, x ≠ p → x ≠ b.start → (h.link b.start p).hdr x = h.hdr x := by
    intro x hxp hxb
    rw [hhdr, Function.update_of_ne hxp, Function.update_of_ne hxb]
  have hhdrb : (h.link b.start p).hdr b.start = ⟨first base R', h.upperSize b.start p⟩ := by
    rw [hhdr, Function.update_of_ne hpb.symm, Function.update_self, hnext]
  have hR'mem : ∀ {a}, a ∈ R' → a ∈ R := fun ha => hsuffix.subset ha
  -- the chain of the blocks after the place is as it was
  have hrest : (starts R' ++ [base]).IsChain fun x y => (h.link b.start p).next x = y := by
    have hold : (starts R' ++ [base]).IsChain fun x y => h.next x = y := by
      obtain ⟨R₁, rfl⟩ := hsuffix
      refine hr.ring.linked.suffix ⟨base :: (starts L ++ starts R₁), ?_⟩
      simp
    refine chain_congr hold fun x hx => ?_
    obtain ⟨a, ha, rfl⟩ := List.mem_map.mp hx
    obtain ⟨hab, hap⟩ := hRne a (List.mem_append_left _ (hR'mem ha))
    rw [Heap.next, hother _ hap hab]
    rfl
  have hring := hr.ring
  rw [starts_append] at hring
  have hinit : ∀ x ∈ base :: starts L, x ≠ p → (h.link b.start p).next x = h.next x := by
    intro x hx hxp
    rw [Heap.next, hother x hxp]
    · rfl
    · rcases List.mem_cons.mp hx with rfl | hx
      · exact hbok.root_lt.ne
      · obtain ⟨a, ha, rfl⟩ := List.mem_map.mp hx
        exact hLne a ha
  have hbs : ∀ a ∈ R' ++ bs, ((h.link b.start p).size a.start).toNat = a.size := by
    intro a ha
    have hmem : a ∈ R ++ bs := (List.mem_append.mp ha).elim (fun h => List.mem_append_left _ (hR'mem h)) (List.mem_append_right _)
    obtain ⟨hab, hap⟩ := hRne a hmem
    rw [Heap.size, hother _ hap hab]
    exact hr.sizes a (by rcases List.mem_append.mp hmem with hmem | hmem <;> simp [hmem])
  have hokR' : ∀ a ∈ R' ++ bs, a.Ok base := by
    intro a ha
    refine hr.ok a ?_
    rcases List.mem_append.mp ha with ha | ha
    · simp [hR'mem ha]
    · simp [ha]
  obtain ⟨hsortL, hsortR, hcross⟩ := List.pairwise_append.mp hr.sorted
  have hsortR' : R'.Pairwise fun f g => f.stop < g.start := hsortR.sublist hsuffix.sublist
  have hb'ok : b'.Ok base := ⟨hbok.pos.trans_le hsize, hstart ▸ hbok.aligned, hstart ▸ hbok.above⟩
  have hregions : (h.link b.start p).regions = h.regions := regions_link h b.start p
  by_cases hlower : h.stop p = b.start
  · rw [if_pos hlower, hnext] at hhdr
    have hhdrp : (h.link b.start p).hdr p = ⟨first base R', h.size p + h.upperSize b.start p⟩ := by
      rw [hhdr, Function.update_self]
    rcases List.eq_nil_or_concat L with rfl | ⟨L₁, l, rfl⟩
    · -- the root has no units
      obtain rfl := isLast_nil.mp hp
      have hroot := hr.root
      rw [Heap.stop, hroot] at hlower
      exact absurd hlower hpb
    rw [List.concat_eq_append] at *
    obtain rfl := isLast_concat.mp hp
    have hlmem : l ∈ L₁ ++ [l] ++ R ++ b :: bs := by simp
    have hlok := hr.ok l hlmem
    have hlsize := hr.sizes l hlmem
    rw [hr.stop_eq hlmem] at hlower
    obtain ⟨hsortL₁, -, hcross₁⟩ := List.pairwise_append.mp hsortL
    have hunitsc : Block.units ⟨l.start, l.size + b'.size⟩ = l.units ++ b'.units := by
      rw [units_split]
      show _ ++ Block.units ⟨l.stop, b'.size⟩ = _
      rw [hlower, ← hstart]
    have hadd : l.size + b'.size < 2 ^ 32 := by
      have hlength := hr.units.length_eq
      have hlength' := congrArg List.length hunits
      simp only [allUnits_append, allUnits_cons, List.length_append, length_units] at hlength hlength'
      rw [Small] at hsmall
      omega
    have hsum : (h.size l.start).toNat + (h.upperSize b.start l.start).toNat < 2 ^ 32 := by
      rw [hlsize, hupper]
      exact hadd
    have hstopc : Block.stop ⟨l.start, l.size + b'.size⟩ = b'.stop := by
      simp only [Block.stop, unit] at hlower ⊢
      omega
    have hsorted : (L₁ ++ ⟨l.start, l.size + b'.size⟩ :: R').Pairwise fun f g => f.stop < g.start := by
      refine List.pairwise_append.mpr ⟨hsortL₁, List.pairwise_cons.mpr ⟨fun g hg => ?_, hsortR'⟩, fun f hf g hg => ?_⟩
      · rw [hstopc]
        exact hafter g hg
      · rcases List.mem_cons.mp hg with rfl | hg
        · exact hcross₁ f hf l (List.mem_singleton_self l)
        · exact hcross f (List.mem_append_left _ hf) g (hR'mem hg)
    have hok : ∀ a ∈ L₁ ++ ⟨l.start, l.size + b'.size⟩ :: R' ++ bs, a.Ok base := by
      intro a ha
      rw [List.append_assoc, List.cons_append] at ha
      rcases List.mem_append.mp ha with ha | ha
      · exact hr.ok a (by simp [ha])
      · rcases List.mem_cons.mp ha with rfl | ha
        · exact ⟨Nat.add_pos_left hlok.pos _, hlok.aligned, hlok.above⟩
        · exact hokR' a ha
    refine ⟨L₁ ++ ⟨l.start, l.size + b'.size⟩ :: R', ⟨hr.pos, ?_, ?_, fun a ha => ?_, hok, hsorted, ?_, ?_, ?_⟩,
      ⟨l.start, l.size + b'.size⟩, by simp, hsize.trans (Nat.le_add_left ..)⟩
    · rw [Heap.size, hother base hlok.root_lt.ne hbok.root_lt.ne]
      exact hr.root
    · have hstarts : starts (L₁ ++ ⟨l.start, l.size + b'.size⟩ :: R') = starts (L₁ ++ [l]) ++ starts R' := by simp
      rw [hstarts]
      refine hring.splice hp ?_ hinit (List.isChain_cons.mpr ⟨fun y hy => ?_, hrest⟩)
      · rw [← hstarts]
        exact nodup_of_sorted hsorted fun f hf => hok f (List.mem_append_left _ hf)
      · rw [head?_first] at hy
        rw [Heap.next, hhdrp]
        exact Option.some.inj hy
    · rw [List.append_assoc, List.cons_append] at ha
      rcases List.mem_append.mp ha with ha | ha
      · have hal := hcross₁ a ha l (List.mem_singleton_self l)
        have hlt := (hr.ok a (by simp [ha])).start_lt_stop
        rw [Heap.size, hother _ (hlt.trans hal).ne (hLne a (by simp [ha]))]
        exact hr.sizes a (by simp [ha])
      · rcases List.mem_cons.mp ha with rfl | ha
        · show ((h.link b.start l.start).size l.start).toNat = _
          rw [Heap.size, hhdrp]
          show (h.size l.start + h.upperSize b.start l.start).toNat = _
          rw [toNat_add hsum, hlsize, hupper]
        · exact hbs a ha
    · show l.start ∈ _
      simp
    · rw [hregions]
      refine List.Perm.trans ?_ hr.units
      simp only [allUnits_append, allUnits_cons, List.append_assoc, hunitsc]
      rw [← List.append_assoc b'.units, hunits, List.append_assoc]
      refine (List.Perm.append_left _ (List.Perm.append_left _ ?_))
      rw [show allUnits ([] : List Block) = [] from rfl, List.nil_append, ← List.append_assoc, ← List.append_assoc]
      exact List.perm_append_comm.append_right _
    · rw [hregions]
      exact hr.nodup
  · rw [if_neg hlower] at hhdr
    have hhdrp : (h.link b.start p).hdr p = ⟨b.start, h.size p⟩ := by rw [hhdr, Function.update_self]
    have hLlt : ∀ f ∈ L, f.stop < b'.start := by
      intro f hf
      rw [hstart]
      rcases List.eq_nil_or_concat L with rfl | ⟨L₁, l, rfl⟩
      · cases hf
      · rw [List.concat_eq_append] at *
        obtain rfl := isLast_concat.mp hp
        have hl := hplace.left l (by simp)
        rw [hr.stop_eq (by simp)] at hlower
        rcases List.mem_append.mp hf with hf | hf
        · have hfl := (List.pairwise_append.mp hsortL).2.2 f hf l (by simp)
          have hlt := (hr.ok l (by simp)).start_lt_stop
          omega
        · obtain rfl := List.mem_singleton.mp hf
          omega
    have hsorted : (L ++ b' :: R').Pairwise fun f g => f.stop < g.start := by
      refine List.pairwise_append.mpr ⟨hsortL, List.pairwise_cons.mpr ⟨hafter, hsortR'⟩, fun f hf g hg => ?_⟩
      rcases List.mem_cons.mp hg with rfl | hg
      · exact hLlt f hf
      · exact hcross f hf g (hR'mem hg)
    have hok : ∀ a ∈ L ++ b' :: R' ++ bs, a.Ok base := by
      intro a ha
      rw [List.append_assoc, List.cons_append] at ha
      rcases List.mem_append.mp ha with ha | ha
      · exact hr.ok a (by simp [ha])
      · rcases List.mem_cons.mp ha with rfl | ha
        · exact hb'ok
        · exact hokR' a ha
    refine ⟨L ++ b' :: R', ⟨hr.pos, ?_, ?_, fun a ha => ?_, hok, hsorted, ?_, ?_, ?_⟩, b', by simp, hsize⟩
    · rcases eq_or_ne base p with rfl | hbp
      · rw [Heap.size, hhdrp]
        exact hr.root
      · rw [Heap.size, hother base hbp hbok.root_lt.ne]
        exact hr.root
    · rw [starts_append]
      refine hring.splice hp ?_ hinit ?_
      · rw [← starts_append]
        exact nodup_of_sorted hsorted fun f hf => hok f (List.mem_append_left _ hf)
      · rw [starts_cons, hstart]
        refine List.isChain_cons_cons.mpr ⟨by rw [Heap.next, hhdrp], List.isChain_cons.mpr ⟨fun y hy => ?_, hrest⟩⟩
        have hy : y ∈ (starts R' ++ [base]).head? := hy
        rw [head?_first] at hy
        rw [Heap.next, hhdrb]
        exact Option.some.inj hy
    · rw [List.append_assoc, List.cons_append] at ha
      rcases List.mem_append.mp ha with ha | ha
      · rcases eq_or_ne a.start p with heq | hne
        · rw [heq, Heap.size, hhdrp]
          show (h.size p).toNat = _
          rw [← heq]
          exact hr.sizes a (by simp [ha])
        · rw [Heap.size, hother _ hne (hLne a ha)]
          exact hr.sizes a (by simp [ha])
      · rcases List.mem_cons.mp ha with rfl | ha
        · rw [hstart, Heap.size, hhdrb]
          exact hupper
        · exact hbs a ha
    · rw [starts_append, ← List.cons_append]
      exact List.mem_append_left _ (List.mem_of_getLast? hp)
    · rw [hregions]
      refine List.Perm.trans ?_ hr.units
      simp only [allUnits_append, allUnits_cons, List.append_assoc]
      rw [← List.append_assoc b'.units, hunits, List.append_assoc]
      refine List.Perm.append_left _ ?_
      rw [← List.append_assoc, ← List.append_assoc]
      exact List.perm_append_comm.append_right _
    · rw [hregions]
      exact hr.nodup

end LabSO.Malloc

import LabSO.Kernel.FsMap

/-! What the functions that map, free, read and write the blocks of an inode do to the invariant. Between a change of the
    inode in memory and the `iupdate` that follows it, the invariant is about the volume with the inode as in memory. -/

namespace LabSO.Kernel
open Program Tokens Ledger

variable {sb : Superblock} {s t u : Fs} {st : Store} {V W : Volume} {I J : Multiset (Fin NINODE)}
  {F : Multiset (Fin NFILE)} {i j : Fin NINODE} {f : Fin NFILE} {a : BlockNo} {bn : Nat}

/-- From `s` to `t` blocks were added to the inode of an entry. -/
structure Grown (sb : Superblock) (s t : Fs) (i : Fin NINODE) : Prop extends AddrsOnly s t i where
  keeps : ∀ m, ((s.cur sb i).dinode m).type ≠ 0 → (s.cur sb i).Keeps (t.cur sb i) m

/-- The blocks of the file system change, and the tables in memory do not. -/
theorem Inv.setStore {store : Store} (h : Inv sb s V I F) (hlog : LogAt sb 1 store) (hok : W.Ok sb)
    (hino : W.dinode = V.dinode) : Inv sb { s with store } W I F := by
  refine ⟨hlog, hok, ?_⟩
  rw [hino]
  exact h.tables.congr rfl rfl

theorem loadEntry_returns {j : Nat} (hne : (st.bufs a).word j ≠ 0) :
    Program.Returns (loadEntry sb a j) st ((st.bufs a).word j) st := by
  refine Program.Returns.bind (show Program.Returns (bread a) st (st.bufs a) st from rfl) ?_
  rw [if_neg hne]
  exact .pure

/-! ### Blocks of the content -/

theorem Mapping.keeps {m : UInt32} (h : Mapping sb s i bn t) (hm : ((s.cur sb i).dinode m).type ≠ 0) :
    (s.cur sb i).Keeps (t.cur sb i) m where
  type := h.maps.type m
  size := by
    by_cases hn : m = (s.itable i).inum
    · rw [hn, h.maps.same]
    · rw [h.maps.other m hn]
  block k hne := h.maps.block m k hm (Or.inl hne)
  data k hne := h.maps.data m k hm hne

theorem Mapping.inv (hs : Inv sb s (s.cur sb i) I F) (hi : 0 < (s.itable i).ref) (hv : (s.itable i).valid = true)
    (h : Mapping sb s i bn t) : Inv sb t (t.cur sb i) I F := by
  refine ⟨h.usable.log, ⟨h.usable.exact, h.usable.marked, fun m hm => ?_⟩, ?_⟩
  · rw [h.maps.type] at hm
    exact (hs.ok.sound m hm).keeps (h.keeps hm)
  · have htables : Tables sb (s.setInode i (t.itable i)) (t.cur sb i).dinode I F := by
      refine hs.tables.update_same hi h.ref h.inum (fun _ => ⟨?_, h.usable.type⟩) (fun n hn => h.maps.other n hn)
        fun _ => ⟨h.valid.trans hv, h.maps.type _⟩
      rw [← h.inum, cur_dinode]
    refine htables.congr (funext fun j => ?_) h.ftable
    by_cases hj : j = i
    · rw [hj, Fs.itable_setInode_self]
    · rw [Fs.itable_setInode_of_ne _ _ hj, h.other j hj]

theorem bmap_spec (hsb : sb.Ordered) (h : Inv sb s (s.cur sb i) I F) (hi : 0 < (s.itable i).ref)
    (hv : (s.itable i).valid = true) (bn : Nat) :
    Wp Tolerated (bmap sb i bn) (fun a t => Inv sb t (t.cur sb i) I F ∧ Grown sb s t i ∧
      a = (t.cur sb i).block (s.itable i).inum bn) s :=
  (bmap_maps hsb (h.usable hi hv) bn).mono fun _ _ ht =>
    ⟨ht.1.inv h hi hv, ⟨ht.1.toAddrsOnly, fun _ hm => ht.1.keeps hm⟩, ht.2⟩

theorem loadAddr_returns {k : Fin (NDIRECT + 1)} (hne : getElem (s.itable i).addrs k (addr_lt k) ≠ 0) :
    Program.Returns (loadAddr sb i k) s (getElem (s.itable i).addrs k (addr_lt k)) s := by
  refine inode_returns.bind ?_
  rw [if_neg hne]
  exact .pure

/-- Where the block exists, `bmap` finds it and changes nothing. -/
theorem bmap_returns {bn : Nat} (hwithin : (s.cur sb i).Within sb (s.itable i).inum)
    (hne : (s.cur sb i).block (s.itable i).inum bn ≠ 0) :
    Program.Returns (bmap sb i bn) s ((s.cur sb i).block (s.itable i).inum bn) s := by
  have hk := Volume.lt_of_block hne
  rw [Volume.block_eq hk] at hne ⊢
  unfold bmap
  split
  · next hdirect =>
    rw [Place.content_of_lt hdirect, held_addr_cur] at hne ⊢
    exact loadAddr_returns hne
  next hdirect =>
  have hj : bn - NDIRECT < NINDIRECT := by
    unfold MAXFILE at hk
    omega
  rw [if_pos hj]
  rw [Place.content_of_ge hdirect hj, Volume.held_entry] at hne ⊢
  have hind : (s.cur sb i).held (.indirect (s.itable i).inum) ≠ 0 := fun h0 => hne (if_pos h0)
  rw [if_neg hind] at hne ⊢
  have hmem := hwithin (.indirect (s.itable i).inum) rfl hind
  have hdata : (s.cur sb i).data ((s.cur sb i).held (.indirect (s.itable i).inum)) =
      s.store.bufs ((s.cur sb i).held (.indirect (s.itable i).inum)) := vol_data hmem
  have hheld : (s.cur sb i).held (.indirect (s.itable i).inum) = (s.itable i).addrs[Fin.last NDIRECT] :=
    held_addr_cur s sb i _
  rw [hdata, hheld] at hne ⊢
  rw [hheld] at hind
  refine (loadAddr_returns hind).bind ?_
  rw [if_neg hind]
  exact onStore_returns (loadEntry_returns hne)

theorem bmap_mapped (h : Inv sb s (s.cur sb i) I F) (hi : 0 < (s.itable i).ref) (hv : (s.itable i).valid = true) {bn : Nat}
    (hne : (s.cur sb i).block (s.itable i).inum bn ≠ 0) :
    Wp Tolerated (bmap sb i bn) (fun a t => a = (s.cur sb i).block (s.itable i).inum bn ∧ t = s) s := by
  have htype : ((s.cur sb i).dinode (s.itable i).inum).type ≠ 0 := by
    rw [cur_dinode]
    exact (h.tables.cached i hi hv).2
  exact .of_returns (bmap_returns (h.ok.exact.within htype) hne) ⟨rfl, rfl⟩

/-! ### Truncation -/

/-- From `s` to `t` the places in `l` of the inode of an entry gave up their blocks. -/
structure Freeing (sb : Superblock) (s : Fs) (i : Fin NINODE) (l : List Place) (t : Fs) : Prop extends
    AddrsOnly s t i where
  log : LogAt sb 1 t.store
  inum : ∀ p ∈ l, p.inum = (s.itable i).inum
  addrs : ∀ k : Fin (NDIRECT + 1), getElem (t.itable i).addrs k (addr_lt k) =
    if .addr (s.itable i).inum k ∈ l then 0 else getElem (s.itable i).addrs k (addr_lt k)
  dinode : (t.vol sb).dinode = (s.vol sb).dinode
  data : (t.vol sb).data = (s.vol sb).data
  exact : Exact sb.dataBlocks (without (s.cur sb i).own l) fun b => (t.vol sb).used b = true
  marked : ∀ b : BlockNo, b.toNat < sb.dataStart → (t.vol sb).used b = true

variable {l : List Place} {p : Place}

theorem Freeing.refl (h : Inv sb s (s.cur sb i) I F) : Freeing sb s i [] s where
  toAddrsOnly := .refl s i
  log := h.log
  inum := by rintro _ ⟨⟩
  addrs k := by rw [if_neg List.not_mem_nil]
  dinode := rfl
  data := rfl
  exact := h.ok.exact
  marked := h.ok.marked

/-- A place that refers to nothing has nothing to give up. -/
theorem Freeing.skip (h : Freeing sb s i l t) (hp : p ∉ l) (hinum : p.inum = (s.itable i).inum)
    (h0 : (s.cur sb i).held p = 0) : Freeing sb s i (p :: l) t where
  toAddrsOnly := h.toAddrsOnly
  log := h.log
  inum := List.forall_mem_cons.mpr ⟨hinum, h.inum⟩
  addrs k := by
    rw [h.addrs k]
    by_cases heq : Place.addr (s.itable i).inum k = p
    · subst heq
      rw [if_neg hp, if_pos List.mem_cons_self, ← h0, held_addr_cur]
    · simp only [List.mem_cons, heq, false_or]
  dinode := h.dinode
  data := h.data
  exact := h.exact.without_cons hp fun c _ => by rw [Volume.own_eq_none.mpr (Or.inr h0)]; simp
  marked := h.marked

/-- The block that is freed was in use. -/
theorem Freeing.bfree_spec (hsb : sb.Ordered) (hs : Inv sb s (s.cur sb i) I F) (h : Freeing sb s i l t) (hp : p ∉ l)
    (htype : ((s.cur sb i).dinode p.inum).type ≠ 0) (hne : (s.cur sb i).held p ≠ 0) :
    Wp Tolerated (bfree sb ((s.cur sb i).held p)) (fun _ store => LogAt sb 1 store ∧
      volume sb store.bufs = (t.vol sb).setUsed ((s.cur sb i).held p) false ∧
      Exact sb.dataBlocks (without (s.cur sb i).own (p :: l)) fun b => (volume sb store.bufs).used b = true) t.store := by
  have hown : (s.cur sb i).own p = some ((s.cur sb i).held p) := Volume.own_of_held htype hne
  have hmem := Volume.mem_of_held hs.ok.exact htype hne
  have hused : (t.vol sb).used ((s.cur sb i).held p) = true :=
    h.exact.used_of_own ((without_of_notMem hp).trans hown)
  refine (Kernel.bfree_spec hsb h.log hmem.2 hused).mono ?_
  rintro _ store ⟨hlog, hvol⟩
  refine ⟨hlog, hvol, h.exact.without_cons hp fun c _ => ?_⟩
  rw [hvol, Volume.used_setUsed, hown]
  by_cases hc : c = (s.cur sb i).held p
  · simp [hc]
  · rw [if_neg hc]
    simp [Ne.symm hc, Fs.vol]

theorem Freeing.marked_setUsed (hs : Inv sb s (s.cur sb i) I F) (h : Freeing sb s i l t)
    (htype : ((s.cur sb i).dinode p.inum).type ≠ 0) (hne : (s.cur sb i).held p ≠ 0) (b : BlockNo)
    (hb : b.toNat < sb.dataStart) : ((t.vol sb).setUsed ((s.cur sb i).held p) false).used b = true := by
  rw [Volume.used_setUsed, if_neg, h.marked b hb]
  rintro rfl
  exact absurd hb (Nat.not_lt.mpr (Volume.mem_of_held hs.ok.exact htype hne).1)

theorem truncAddr_spec (hsb : sb.Ordered) (hs : Inv sb s (s.cur sb i) I F) (htype : (s.itable i).type ≠ 0)
    (h : Freeing sb s i l t) {k : Fin (NDIRECT + 1)} (hk : .addr (s.itable i).inum k ∉ l) :
    Wp Tolerated (truncAddr sb i k) (fun _ u => Freeing sb s i (.addr (s.itable i).inum k :: l) u) t := by
  have haddr : (t.itable i).addrs[k] = (s.cur sb i).held (.addr (s.itable i).inum k) := by
    rw [h.addrs k, if_neg hk, held_addr_cur]
  have htype' : ((s.cur sb i).dinode (s.itable i).inum).type ≠ 0 := by rwa [cur_dinode]
  refine inode_bind (.onlyIf (fun hne => ?_) fun h0 => ?_)
  · rw [haddr] at hne ⊢
    refine onStore_bind (h.bfree_spec hsb hs hk htype' hne) ?_
    rintro _ store ⟨hlog, hvol, hexact⟩
    have hmarked := h.marked_setUsed hs (p := .addr _ k) htype' hne
    rw [← hvol] at hmarked
    refine .liftState ⟨⟨?_, fun j hj => ?_, h.ftable, h.proc⟩, hlog, List.forall_mem_cons.mpr ⟨rfl, h.inum⟩, fun m => ?_, ?_, ?_, hexact,
      hmarked⟩
    · rw [Fs.itable_setInode_self, h.self]
    · rw [Fs.itable_setInode_of_ne _ _ hj]
      exact h.other j hj
    · rw [Fs.itable_setInode_self]
      show ((t.itable i).addrs.set k 0)[m] = _
      have hm := h.addrs m
      rw [Fin.getElem_fin] at hm ⊢
      rw [Vector.getElem_set]
      by_cases hkm : k = m
      · subst hkm
        rw [if_pos rfl, if_pos List.mem_cons_self]
      · rw [if_neg fun heq => hkm (Fin.ext heq), hm]
        simp [Ne.symm hkm]
    · exact (congrArg Volume.dinode hvol).trans h.dinode
    · exact (congrArg Volume.data hvol).trans h.data
  · exact h.skip hk rfl (haddr ▸ not_not.mp h0)

theorem truncEntry_spec (hsb : sb.Ordered) (hs : Inv sb s (s.cur sb i) I F) (htype : (s.itable i).type ≠ 0)
    (h : Freeing sb s i l t) {j : Fin NINDIRECT} (hj : .entry (s.itable i).inum j ∉ l)
    (hne : getElem (s.itable i).addrs NDIRECT NDIRECT_lt ≠ 0) :
    Wp Tolerated (onStore (truncEntry sb (getElem (s.itable i).addrs NDIRECT NDIRECT_lt) j))
      (fun _ u => Freeing sb s i (.entry (s.itable i).inum j :: l) u) t := by
  have htype' : ((s.cur sb i).dinode (s.itable i).inum).type ≠ 0 := by rwa [cur_dinode]
  have hind : (s.cur sb i).held (.indirect (s.itable i).inum) = (s.itable i).addrs[NDIRECT] := held_addr_cur s sb i _
  have hmem : (s.itable i).addrs[NDIRECT] ∈ sb.dataBlocks := by
    rw [← hind]
    exact Volume.mem_of_held (p := .indirect _) hs.ok.exact htype' (hind.trans_ne hne)
  have hword : (t.store.bufs (s.itable i).addrs[NDIRECT]).word j = (s.cur sb i).held (.entry (s.itable i).inum j) := by
    rw [Volume.held_entry, if_neg (hind.trans_ne hne), hind, ← vol_data hmem, h.data]
    rfl
  refine onStore_spec (P := fun _ store => Freeing sb s i (.entry (s.itable i).inum j :: l) { t with store })
    (.liftState_bind (.onlyIf (fun hb => ?_) fun h0 => ?_)) fun _ _ => id
  · rw [hword] at hb ⊢
    refine (h.bfree_spec hsb hs hj htype' hb).mono ?_
    rintro _ store ⟨hlog, hvol, hexact⟩
    have hmarked := h.marked_setUsed hs (p := .entry _ j) htype' hb
    rw [← hvol] at hmarked
    refine ⟨⟨h.self, h.other, h.ftable, h.proc⟩, hlog, List.forall_mem_cons.mpr ⟨rfl, h.inum⟩, fun m => ?_, ?_, ?_, hexact, hmarked⟩
    · rw [h.addrs m]
      simp
    · exact (congrArg Volume.dinode hvol).trans h.dinode
    · exact (congrArg Volume.data hvol).trans h.data
  · exact h.skip hj rfl (hword ▸ not_not.mp h0)

/-- The places of a list of indices, one after the other. -/
theorem Freeing.forEach {κ : Type} {step : κ → FsProg Unit} {g : κ → Place} {xs : List κ} (h : Freeing sb s i l t)
    (hnodup : (xs.map g).Nodup) (hnew : ∀ x ∈ xs, g x ∉ l)
    (hstep : ∀ x l' t', Freeing sb s i l' t' → g x ∉ l' → Wp Tolerated (step x) (fun _ => Freeing sb s i (g x :: l')) t') :
    Wp Tolerated (Program.forEach step xs)
      (fun _ u => ∃ l', Freeing sb s i l' u ∧ ∀ p, p ∈ l' ↔ p ∈ xs.map g ∨ p ∈ l) t := by
  refine (Wp.forEach (l := xs) (I := fun ys u => ∃ l', Freeing sb s i l' u ∧ (ys.map g).Nodup ∧ (∀ y ∈ ys, g y ∉ l') ∧
    ∀ p, p ∈ l' ∨ p ∈ ys.map g ↔ p ∈ xs.map g ∨ p ∈ l)
    ⟨l, h, hnodup, hnew, fun p => or_comm⟩ ?_).mono ?_
  · rintro y ys u ⟨l', hu, hys, hl', hall⟩
    rw [List.map_cons, List.nodup_cons] at hys
    refine (hstep y l' u hu (hl' y List.mem_cons_self)).mono fun _ v hv => ⟨_, hv, hys.2, fun z hz => ?_, fun p => ?_⟩
    · rw [List.mem_cons, not_or]
      refine ⟨fun heq => hys.1 (heq ▸ List.mem_map_of_mem hz), hl' z (List.mem_cons_of_mem _ hz)⟩
    · rw [← hall p, List.map_cons, List.mem_cons, List.mem_cons]
      tauto
  · rintro _ u ⟨l', hu, -, -, hall⟩
    exact ⟨l', hu, fun p => by simpa using hall p⟩

/-- All places of the inode have given up their blocks. -/
def Freed (sb : Superblock) (s : Fs) (i : Fin NINODE) (t : Fs) : Prop :=
  ∃ l, Freeing sb s i l t ∧ ∀ p : Place, p.inum = (s.itable i).inum → without (s.cur sb i).own l p = none

theorem Freed.addrs (h : Freed sb s i t) (htype : (s.itable i).type ≠ 0) : (t.itable i).addrs = Vector.replicate _ 0 := by
  obtain ⟨l, ht, hall⟩ := h
  refine Vector.ext fun k hk => ?_
  rw [Vector.getElem_replicate]
  have hcast := ht.addrs ⟨k, hk⟩
  rw [Fin.getElem_fin] at hcast
  rw [hcast]
  split
  · rfl
  · next hnot =>
    have hnone := (without_of_notMem hnot).symm.trans (hall (.addr (s.itable i).inum ⟨k, hk⟩) rfl)
    have htype' : ((s.cur sb i).dinode (s.itable i).inum).type ≠ 0 := by rwa [cur_dinode]
    rw [← held_addr_cur s sb i]
    exact (Volume.own_eq_none.mp hnone).resolve_left htype'

theorem Freed.inv (hs : Inv sb s (s.cur sb i) I F) (hi : 0 < (s.itable i).ref) (hv : (s.itable i).valid = true)
    (h : Freed sb s i t) :
    let x := { s.itable i with addrs := Vector.replicate _ 0, size := 0 }
    { t.itable i with size := 0 } = x ∧ Inv sb (t.setInode i x) ((t.setInode i x).cur sb i) I F := by
  have htype := (hs.tables.cached i hi hv).2
  have haddrs := h.addrs htype
  obtain ⟨l, ht, hall⟩ := h
  let x : Inode := { s.itable i with addrs := Vector.replicate _ 0, size := 0 }
  let V := s.cur sb i
  have hself : (t.setInode i x).itable i = x := Fs.itable_setInode_self ..
  have hcur : (t.setInode i x).cur sb i = Volume.setDinode { V with used := (t.vol sb).used } x.inum x.toDinode := by
    rw [Fs.cur, hself]
    refine Volume.ext rfl ?_ ht.data
    show Function.update (t.vol sb).dinode x.inum x.toDinode = Function.update (Function.update (s.vol sb).dinode _ _) _ _
    rw [ht.dinode, Function.update_idem]
  have hok : ((t.setInode i x).cur sb i).Ok sb := by
    rw [hcur]
    exact hs.ok.truncate ht.exact ht.inum hall ht.marked ⟨rfl, rfl⟩
  have htables : Tables sb (s.setInode i x) ((t.setInode i x).cur sb i).dinode I F := by
    refine hs.tables.update_same hi rfl rfl (fun _ => ⟨?_, htype⟩) (fun n hn => ?_) fun _ => ⟨hv, ?_⟩
    · rw [hcur, Volume.dinode_setDinode]
    · rw [hcur, Volume.dinode_setDinode_of_ne _ hn]
    · rw [hcur, Volume.dinode_setDinode, cur_dinode]
  have htable : (t.setInode i x).itable = (s.setInode i x).itable := by
    funext j
    by_cases hj : j = i
    · subst hj
      rw [Fs.itable_setInode_self, Fs.itable_setInode_self]
    · rw [Fs.itable_setInode_of_ne _ _ hj, Fs.itable_setInode_of_ne _ _ hj, ht.other j hj]
  refine ⟨?_, ht.log, hok, htables.congr htable ht.ftable⟩
  rw [ht.self, haddrs]

theorem itrunc_spec (hsb : sb.Ordered) (h : Inv sb s (s.cur sb i) I F) (hi : 0 < (s.itable i).ref)
    (hv : (s.itable i).valid = true) :
    Wp Tolerated (itrunc sb i) (fun _ t => Inv sb t (t.vol sb) I F ∧
      t.itable = (s.setInode i { s.itable i with addrs := Vector.replicate _ 0, size := 0 }).itable ∧
      t.ftable = s.ftable ∧ t.proc = s.proc) s := by
  have htype := (h.tables.cached i hi hv).2
  let n := (s.itable i).inum
  have hinj : Function.Injective fun k : Fin NDIRECT => Place.addr n k.castSucc := fun k m heq =>
    Fin.castSucc_injective _ (Place.addr.inj heq).2
  refine .bind ((Freeing.refl h).forEach (g := fun k : Fin NDIRECT => .addr n k.castSucc)
    ((List.nodup_finRange _).map hinj) (fun _ _ => List.not_mem_nil) fun k l t ht hk => truncAddr_spec hsb h htype ht hk) ?_
  rintro _ t ⟨l, ht, hl⟩
  have hlast : Place.indirect n ∉ l := by
    rw [hl]
    simp [Place.indirect, Fin.castSucc_ne_last]
  have hentries : ∀ j, Place.entry n j ∉ l := by
    intro j
    rw [hl]
    simp
  have haddr : (t.itable i).addrs[NDIRECT] = (s.itable i).addrs[NDIRECT] := (ht.addrs (Fin.last NDIRECT)).trans (if_neg hlast)
  have hdirect : ∀ k : Fin (NDIRECT + 1), k ≠ Fin.last NDIRECT → Place.addr n k ∈ l := by
    intro k hk
    obtain ⟨m, rfl⟩ := Fin.exists_castSucc_eq.mpr hk
    exact (hl _).mpr (Or.inl (List.mem_map_of_mem (List.mem_finRange m)))
  refine inode_bind (.bind (P := fun _ u => Freed sb s i u) (.onlyIf (fun hne => ?_) fun h0 => ?_) fun _ u hu => ?_)
  · rw [haddr] at hne ⊢
    refine .bind (ht.forEach (g := fun j : Fin NINDIRECT => .entry n j)
      ((List.nodup_finRange _).map fun j m heq => (Place.entry.inj heq).2) (fun j _ => hentries j)
      fun j l' t' ht' hj => truncEntry_spec hsb h htype ht' hj hne) ?_
    rintro _ u ⟨l', hu, hl'⟩
    have hlast' : Place.indirect n ∉ l' := by
      rw [hl', not_or]
      exact ⟨by simp [Place.indirect], hlast⟩
    refine (truncAddr_spec hsb h htype hu hlast').mono fun _ v hv' => ⟨_, hv', fun p hp => if_pos ?_⟩
    cases p with
    | addr m k =>
      obtain rfl : m = n := hp
      by_cases hk : k = Fin.last NDIRECT
      · rw [hk]
        exact List.mem_cons_self
      · exact List.mem_cons_of_mem _ ((hl' _).mpr (Or.inr (hdirect k hk)))
    | entry m j =>
      obtain rfl : m = n := hp
      exact List.mem_cons_of_mem _ ((hl' _).mpr (Or.inl (List.mem_map_of_mem (List.mem_finRange j))))
  · have hzero : (s.cur sb i).held (.indirect n) = 0 := (held_addr_cur s sb i _).trans (haddr.symm.trans (not_not.mp h0))
    refine ⟨l, ht, fun p hp => ?_⟩
    by_cases hmem : p ∈ l
    · exact if_pos hmem
    rw [without_of_notMem hmem]
    refine Volume.own_eq_none.mpr (Or.inr ?_)
    cases p with
    | addr m k =>
      obtain rfl : m = n := hp
      obtain rfl : k = Fin.last NDIRECT := by
        by_contra hk
        exact hmem (hdirect k hk)
      exact hzero
    | entry m j =>
      obtain rfl : m = n := hp
      exact if_pos hzero
  · obtain ⟨hx, hinv⟩ := hu.inv h hi hv
    obtain ⟨_, hfreeing, -⟩ := hu
    refine modifyInode_bind ?_
    rw [hx]
    have hpos : 0 < (s.itable i).ref := hi
    refine (iupdate_spec hsb hinv (by rwa [Fs.itable_setInode_self])).mono ?_
    rintro _ v ⟨hv', -, hitable, hftable, hproc⟩
    refine ⟨hv', hitable.trans ?_, hftable.trans hfreeing.ftable, hproc.trans hfreeing.proc⟩
    funext j
    by_cases hj : j = i
    · subst hj
      rw [Fs.itable_setInode_self, Fs.itable_setInode_self]
    · rw [Fs.itable_setInode_of_ne _ _ hj, Fs.itable_setInode_of_ne _ _ hj, hfreeing.other j hj]

/-! ### Dropping a reference -/

/-- An entry loses a reference; it stays as it was if others are left. -/
theorem Tables.drop {x : Inode} {ino ino' : UInt32 → Dinode} (h : Tables sb s ino (i ::ₘ I) F)
    (href : x.ref = (s.itable i).ref - 1) (hinum : x.inum = (s.itable i).inum)
    (hcached : 0 < x.ref → x.valid = (s.itable i).valid ∧ x.toDinode = (s.itable i).toDinode ∧ ino' = ino)
    (hother : ∀ n, n ≠ (s.itable i).inum → ino' n = ino n) : Tables sb (s.setInode i x) ino' I F := by
  have hi : 0 < (s.itable i).ref := h.ref_pos_of_mem (Multiset.mem_cons_self i I)
  have hcount : x.ref = (I + s.opens).count i := by
    rw [href, h.refs i, Multiset.cons_add, Multiset.count_cons_self]
    simp
  have hne : ∀ j, j ≠ i → 0 < (s.itable j).ref → (s.itable i).inum ≠ (s.itable j).inum := fun j hj hpos heq =>
    hj (h.distinct i j hi hpos heq).symm
  refine h.update hcount (fun j hj => (Multiset.count_cons_of_ne hj _).symm) (fun _ => hinum ▸ h.inum_lt i hi)
    (fun hpos hv => ?_) (fun _ j hj hpos => hinum ▸ hne j hj hpos) (fun j hj hpos => hother _ (hne j hj hpos).symm) fun hmem => ?_
  · obtain ⟨hvalid, hdinode, rfl⟩ := hcached hpos
    have hcached' := h.cached i hi (hvalid ▸ hv)
    rw [hinum, hdinode]
    exact hcached'
  · have hpos : 0 < x.ref := by
      rw [hcount, Int.natCast_pos, Multiset.count_pos]
      exact Multiset.mem_add.mpr (Or.inr hmem)
    obtain ⟨hvalid, -, rfl⟩ := hcached hpos
    obtain ⟨f, hf⟩ := mem_opens.mp hmem
    exact ⟨hvalid.trans (h.opened f i hf), by rw [hinum]⟩

theorem iput_spec (hsb : sb.Ordered) (h : Inv sb s (s.vol sb) (i ::ₘ I) F) :
    Wp Tolerated (iput sb i) (fun _ t => Inv sb t (t.vol sb) I F ∧ Leaves s t I) s := by
  have hi : 0 < (s.itable i).ref := h.tables.ref_pos_of_mem (Multiset.mem_cons_self i I)
  let Dropped : Fs → Prop := fun t =>
    let u := t.setInode i { t.itable i with ref := (t.itable i).ref - 1 }
    Inv sb u (u.vol sb) I F ∧ Leaves s u I
  refine inode_bind (.bind (P := fun _ t => Dropped t) (.onlyIf (fun hlast => ?_) fun _ => ?_) fun _ t ht => .liftState ht)
  · obtain ⟨hone, hv, -⟩ := hlast
    have hnot : i ∉ I := by
      have hrefs := h.tables.refs i
      rw [hone, Multiset.cons_add, Multiset.count_cons_self] at hrefs
      have hzero : (I + s.opens).count i = 0 := by omega
      exact fun hmem => Multiset.count_eq_zero.mp hzero (Multiset.mem_add.mpr (Or.inl hmem))
    refine .bind acquiresleep_spec ?_
    rintro _ _ rfl
    let s' := s.setInode i { s.itable i with locked := true }
    have hself : s'.itable i = { s.itable i with locked := true } := Fs.itable_setInode_self ..
    have hinv : Inv sb s' (s'.vol sb) (i ::ₘ I) F := ⟨h.log, h.ok, h.tables.setLocked hi true⟩
    have hi' : 0 < (s'.itable i).ref := hinv.tables.ref_pos_of_mem (Multiset.mem_cons_self i I)
    have hv' : (s'.itable i).valid = true := by rw [hself]; exact hv
    have hcur := hinv.cur_eq hi' hv'
    refine .bind (itrunc_spec hsb (by rwa [hcur]) hi' hv') ?_
    rintro _ t ⟨ht, hitable, hftable, hproc⟩
    have hx : t.itable i = { s'.itable i with addrs := Vector.replicate _ 0, size := 0 } := by
      rw [hitable, Fs.itable_setInode_self]
    have hti : 0 < (t.itable i).ref := ht.tables.ref_pos_of_mem (Multiset.mem_cons_self i I)
    refine modifyInode_bind (.bind (iupdate_volume hsb ht.log (by simpa using ht.tables.inum_lt i hti)) ?_)
    rintro _ u ⟨hlog, hvol, huitable, huftable, huproc⟩
    let x : Inode := { t.itable i with type := 0, valid := false, locked := false, ref := (t.itable i).ref - 1 }
    have hui : u.itable i = { t.itable i with type := 0 } := by rw [huitable, Fs.itable_setInode_self]
    have hvt : (t.itable i).valid = true := by rw [hx]; exact hv'
    have hcached := (ht.tables.cached i hti hvt).1
    have hvolt : u.vol sb = (t.vol sb).setDinode (t.itable i).inum { (t.itable i).toDinode with type := 0 } := by
      rw [hvol, Fs.cur, Fs.itable_setInode_self]
      rfl
    have hok : (u.vol sb).Ok sb := by
      rw [hvolt]
      refine ht.ok.setDinode_empty (Or.inr ?_) (Or.inl rfl)
      rw [← hcached, hx]
    have htables : Tables sb (t.setInode i x) (u.vol sb).dinode I F := by
      refine ht.tables.drop rfl rfl (fun hpos => ?_) fun n hn => ?_
      · have hzero : x.ref = 0 := by
          show (t.itable i).ref - 1 = 0
          rw [hx]
          show (s'.itable i).ref - 1 = 0
          rw [hself]
          exact sub_eq_zero.mpr hone
        exact absurd hpos hzero.not_gt
      · rw [hvolt, Volume.dinode_setDinode_of_ne _ hn]
    have hfinal : (u.setInode i x).itable = (t.setInode i x).itable := by
      show Function.update u.itable i x = _
      rw [huitable]
      exact Function.update_idem ..
    refine modifyInode_bind (.liftState ?_)
    suffices h : Inv sb (u.setInode i x) ((u.setInode i x).vol sb) I F ∧ Leaves s (u.setInode i x) I by
      simpa [Dropped, hui] using h
    refine ⟨⟨hlog, hok, htables.congr hfinal huftable⟩, ⟨huftable.trans hftable, huproc.trans hproc, fun j hj => .of_eq ?_⟩⟩
    have hji : j ≠ i := fun heq => hnot (heq ▸ hj)
    rw [Fs.itable_setInode_of_ne _ _ hji, huitable, Fs.itable_setInode_of_ne _ _ hji, hitable,
      Fs.itable_setInode_of_ne _ _ hji, Fs.itable_setInode_of_ne _ _ hji]
  · refine ⟨⟨h.log, h.ok, h.tables.drop rfl rfl (fun _ => ⟨rfl, rfl, rfl⟩) fun _ _ => rfl⟩, ?_⟩
    exact .setInode fun _ _ => .setInode rfl id fun _ => rfl

theorem Inv.of_store (h : Inv sb t (s.vol sb) I F) (hstore : t.store = s.store) : Inv sb t (t.vol sb) I F := by
  have hvol : t.vol sb = s.vol sb := by rw [Fs.vol, hstore, Fs.vol]
  rwa [hvol]

theorem iunlockput_spec (hsb : sb.Ordered) (h : Inv sb s (s.vol sb) (i ::ₘ I) F) :
    Wp Tolerated (iunlockput sb i) (fun _ t => Inv sb t (t.vol sb) I F ∧ Leaves s t I) s := by
  refine .bind (iunlock_spec h (h.tables.ref_pos_of_mem (Multiset.mem_cons_self i I))) ?_
  rintro _ t ⟨ht, hstore, -, hleaves⟩
  refine (iput_spec hsb (ht.of_store hstore)).mono fun _ u hu => ⟨hu.1, .trans (hleaves.mono fun j hj => ?_) hu.2⟩
  exact Multiset.mem_add.mpr (Or.inl (Multiset.mem_cons_of_mem hj))

/-- The fields of an inode that no block depends on. -/
theorem Inv.setFields {x : Inode} (h : Inv sb s (s.vol sb) I F) (hi : 0 < (s.itable i).ref) (hv : (s.itable i).valid = true)
    (hx : x = { s.itable i with major := x.major, minor := x.minor, nlink := x.nlink }) :
    Inv sb (s.setInode i x) ((s.setInode i x).cur sb i) I F := by
  obtain ⟨hcached, htype⟩ := h.tables.cached i hi hv
  have hcur : (s.setInode i x).cur sb i = (s.vol sb).setDinode (s.itable i).inum x.toDinode := by
    rw [Fs.cur, Fs.itable_setInode_self, hx]
    rfl
  refine ⟨h.log, ?_, ?_⟩
  · rw [hcur]
    refine h.ok.setDinode_same (hcached ▸ htype) ?_ ?_ ?_
    all_goals rw [← hcached, hx]
  · rw [hcur]
    refine h.tables.update_same hi (by rw [hx]) (by rw [hx]) (fun _ => ⟨?_, by rw [hx]; exact htype⟩) (fun n hn => ?_) fun _ => ⟨by rw [hx]; exact hv, ?_⟩
    · rw [Volume.dinode_setDinode]
    · rw [Volume.dinode_setDinode_of_ne _ hn]
    · rw [Volume.dinode_setDinode, ← hcached, hx]

theorem setFields_spec {c : Inode → Inode} (hsb : sb.Ordered) (h : Inv sb s (s.vol sb) I F) (hi : 0 < (s.itable i).ref)
    (hv : (s.itable i).valid = true)
    (hc : ∀ x : Inode, c x = { x with major := (c x).major, minor := (c x).minor, nlink := (c x).nlink }) :
    Wp Tolerated (do
      modifyInode i c
      iupdate sb i) (fun _ t => Inv sb t (t.vol sb) I F ∧ ∀ J, Leaves s t J) s := by
  have hx := hc (s.itable i)
  have hi' : 0 < ((s.setInode i (c (s.itable i))).itable i).ref := by
    rw [Fs.itable_setInode_self, hx]
    exact hi
  refine modifyInode_bind ((iupdate_spec hsb (h.setFields hi hv hx) hi').mono ?_)
  rintro _ t ⟨ht, -, hitable, hftable, hproc⟩
  refine ⟨ht, fun J => ⟨hftable, hproc, fun j _ => ?_⟩⟩
  have hkept : Kept s (s.setInode i (c (s.itable i))) j :=
    .setInode (by rw [hx]) (by rw [hx]; exact id) (by rw [hx]; exact fun _ => rfl)
  exact hkept.trans (.of_eq (congrFun hitable j))

theorem setFields_bind {β : Type} {c : Inode → Inode} {k : Unit → FsProg β} {R : β → Fs → Prop} (hsb : sb.Ordered)
    (h : Inv sb s (s.vol sb) I F) (hi : 0 < (s.itable i).ref) (hv : (s.itable i).valid = true)
    (hc : ∀ x : Inode, c x = { x with major := (c x).major, minor := (c x).minor, nlink := (c x).nlink })
    (hk : ∀ t, Inv sb t (t.vol sb) I F → (∀ J, Leaves s t J) → Wp Tolerated (k ()) R t) :
    Wp Tolerated (modifyInode i c >>= fun _ => iupdate sb i >>= k) R s :=
  Wp.bind (m := modifyInode i c >>= fun _ => iupdate sb i) (setFields_spec hsb h hi hv hc) fun _ t ht => hk t ht.1 ht.2

end LabSO.Kernel

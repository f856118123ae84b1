import LabSO.Kernel.PathNames
import LabSO.Kernel.FsDirectory

/-! `namei` and `nameiparent` on a tree of directories: where the names of a path lead, and which references are taken. -/

namespace LabSO.Kernel
open Program Tokens

variable {sb : Superblock} {s t u : Fs} {I J : Multiset (Fin NINODE)} {F : Multiset (Fin NFILE)} {i j k cwd : Fin NINODE}
  {n : UInt32} {name path : List UInt8} {parent : Bool}

/-! ### Trees -/

/-- An inode that is in use and goes on to be: it has links, or an entry of the inode table is for it. -/
def Fs.Stays (s : Fs) (sb : Superblock) (n : UInt32) : Prop :=
  ((s.vol sb).dinode n).type ≠ 0 ∧
    (((s.vol sb).dinode n).nlink ≠ 0 ∨ ∃ j, 0 < (s.itable j).ref ∧ (s.itable j).inum = n)

/-- Between the operations of others, a file system whose directories consist of entries for inodes that stay. -/
structure IsTree (sb : Superblock) (s : Fs) (I : Multiset (Fin NINODE)) (F : Multiset (Fin NFILE)) : Prop where
  inv : Inv sb s (s.vol sb) I F
  unlocked : ∀ j, (s.itable j).locked = false
  whole : ∀ n, ((s.vol sb).dinode n).type = T_DIR →
    ((s.vol sb).dinode n).size.toNat ≤ MAXFILE * BSIZE ∧ sizeofDirent ∣ ((s.vol sb).dinode n).size.toNat
  root : s.Stays sb ROOTINO
  entries : ∀ n, ((s.vol sb).dinode n).type = T_DIR → ∀ de ∈ entries ((s.vol sb).content n), de.inum ≠ 0 →
    s.Stays sb (.ofNat de.inum.toNat)
  inUse : ∀ j, 0 < (s.itable j).ref → ((s.vol sb).dinode (s.itable j).inum).type ≠ 0

theorem Fs.Stays.inum_lt (h : s.Stays sb n) : n.toNat < sb.ninodes.toNat := by
  by_contra hlt
  exact h.1 (congrArg Dinode.type (if_neg hlt : (s.vol sb).dinode n = .zero))

theorem IsTree.stays_inum (h : IsTree sb s I F) (hj : 0 < (s.itable j).ref) : s.Stays sb (s.itable j).inum :=
  ⟨h.inUse j hj, Or.inr ⟨j, hj, rfl⟩⟩

/-- At most one entry of the inode table is without references from outside. -/
def Crowded (s : Fs) (I : Multiset (Fin NINODE)) : Prop := ∀ a b, a ∉ I + s.opens → b ∉ I + s.opens → a = b

/-! ### Steps of the walk -/

/-- On the way from `s`: the references `J` were taken, and nothing else that counts has changed. -/
structure Along (sb : Superblock) (s : Fs) (I : Multiset (Fin NINODE)) (F : Multiset (Fin NFILE))
    (J : Multiset (Fin NINODE)) (t : Fs) : Prop where
  inv : Inv sb t (t.vol sb) (J + I) F
  store : t.store = s.store
  leaves : Leaves s t (I + s.opens)

theorem Along.vol (h : Along sb s I F J t) : t.vol sb = s.vol sb := by rw [Fs.vol, h.store, Fs.vol]

theorem Along.opens (h : Along sb s I F J t) : t.opens = s.opens := opens_congr h.leaves.ftable

theorem Along.ref_pos (h : Along sb s I F J t) (hi : i ∈ J) : 0 < (t.itable i).ref :=
  h.inv.tables.ref_pos_of_mem (Multiset.mem_add.mpr (Or.inl hi))

/-- What is left alone by those who hold more references is left alone by those who hold fewer. -/
theorem Along.step {J' : Multiset (Fin NINODE)} (h : Along sb s I F J t) (hinv : Inv sb u (u.vol sb) (J' + I) F)
    (hstore : u.store = t.store) (hleaves : Leaves t u (I + s.opens)) : Along sb s I F J' u :=
  ⟨hinv, hstore.trans h.store, h.leaves.trans hleaves⟩

theorem Along.mem_left (h : Along sb s I F J t) : ∀ j ∈ I + s.opens, j ∈ J + I + t.opens := by
  intro j hj
  rw [h.opens, Multiset.add_assoc]
  exact Multiset.mem_add.mpr (Or.inr hj)

/-- A reference to an inode is taken; only where nobody holds the few references that are taken on the way there may be no
    entry for it. -/
theorem Along.iget (h : Along sb s I F J t) (hn : n.toNat < sb.ninodes.toNat) (hJ : ∀ a ∈ J, ∀ b ∈ J, a = b) :
    Outcome (iget n) (fun i u => Along sb s I F (i ::ₘ J) u ∧ (u.itable i).inum = n ∧
      (∀ j, (u.itable j).locked = (t.itable j).locked) ∧ ∀ j ∈ J, (u.itable j).inum = (t.itable j).inum)
      (fun e _ => e = .panic "iget: no inodes" ∧ Crowded s I) t := by
  refine (((iget_takes n).and_wp (iget_spec h.inv.tables hn)).mono ?_).weaken ?_
  · rintro i u ⟨htakes, htables, hstore, hinum, hleaves⟩
    have hinv : Inv sb u (u.vol sb) (i ::ₘ (J + I)) F := Inv.of_store ⟨hstore ▸ h.inv.log, h.inv.ok, htables⟩ hstore
    refine ⟨h.step (by rwa [Multiset.cons_add]) hstore (hleaves.mono h.mem_left), hinum, fun j => ?_, fun j hj => ?_⟩
    · by_cases hji : j = i
      · subst hji
        rcases htakes.self with ⟨-, heq⟩ | ⟨-, heq⟩ <;> rw [heq]
      · rw [htakes.other j hji]
    · exact (hleaves.kept j (Multiset.mem_add.mpr (Or.inl (Multiset.mem_add.mpr (Or.inl hj))))).inum
  · rintro e _ ⟨rfl, hall⟩
    refine ⟨rfl, fun a b ha hb => ?_⟩
    -- who is not referred to from outside is referred to on the way
    have hmem : ∀ c, c ∉ I + s.opens → c ∈ J := by
      intro c hc
      have hpos : 0 < (t.itable c).ref := by
        have hne := hall c
        have href := h.inv.tables.refs c
        omega
      have hc' := h.inv.tables.ref_pos.mp hpos
      rw [h.opens, Multiset.add_assoc] at hc'
      exact (Multiset.mem_add.mp hc').resolve_right hc
    exact hJ a (hmem a ha) b (hmem b hb)

theorem Along.ilock (h : Along sb s I F J t) (hi : i ∈ J) (hlocked : (t.itable i).locked = false)
    (htype : ((s.vol sb).dinode (t.itable i).inum).type ≠ 0) : ∃ u, Program.Returns (ilock sb i) t () u ∧
      Along sb s I F J u ∧ (u.itable i).valid = true ∧ (u.itable i).locked = true ∧ (u.itable i).inum = (t.itable i).inum ∧
      ∀ j, j ≠ i → u.itable j = t.itable j := by
  have hpos := h.ref_pos hi
  have hacquire : Program.Returns (acquiresleep i) t () (t.setInode i { t.itable i with locked := true }) := by
    refine inode_returns.bind ?_
    rw [if_neg (by simp [hlocked])]
    rfl
  obtain ⟨u, hret, hlock, hinum, hother⟩ : ∃ u, Program.Returns (Kernel.ilock sb i) t () u ∧ (u.itable i).locked = true ∧
      (u.itable i).inum = (t.itable i).inum ∧ ∀ j, j ≠ i → u.itable j = t.itable j := by
    have hself := Fs.itable_setInode_self t i { t.itable i with locked := true }
    cases hv : (t.itable i).valid with
    | true =>
      refine ⟨_, inode_returns.bind ?_, congrArg Inode.locked hself, by rw [hself],
        fun j hj => Fs.itable_setInode_of_ne _ _ hj⟩
      rw [if_neg (by omega)]
      refine hacquire.bind (inode_returns.bind (.onlyIf_not ?_))
      rw [hself]
      simp [hv]
    | false =>
      have hdinode := vol_dinode (s := t) (h.inv.tables.inum_lt i hpos)
      rw [h.vol] at hdinode
      let x : Inode := { t.itable i with
        toDinode := (t.store.bufs (IBLOCK (t.itable i).inum sb)).dinode ((t.itable i).inum.toNat % IPB)
        locked := true
        valid := true }
      have hx := Fs.itable_setInode_self t i x
      refine ⟨t.setInode i x, inode_returns.bind ?_, congrArg Inode.locked hx, by rw [hx],
        fun j hj => Fs.itable_setInode_of_ne _ _ hj⟩
      rw [if_neg (by omega)]
      refine hacquire.bind (inode_returns.bind (.onlyIf (by rw [hself]; exact hv) (bread_returns.bind ?_)))
      rw [hself]
      have hmodify : Program.Returns (modifyInode i fun ip => { ip with
          toDinode := (t.store.bufs (IBLOCK (t.itable i).inum sb)).dinode (ip.inum.toNat % IPB), valid := true })
          (t.setInode i { t.itable i with locked := true }) () (t.setInode i x) := by
        refine Prod.ext rfl ?_
        show (t.setInode i _).setInode i _ = _
        rw [Fs.setInode_setInode, hself]
      refine hmodify.bind (inode_returns.bind (.onlyIf_not ?_))
      rw [hx]
      show ¬((t.store.bufs (IBLOCK (t.itable i).inum sb)).dinode ((t.itable i).inum.toNat % IPB)).type = 0
      rwa [← hdinode]
  obtain ⟨hinv, hstore, hvalid, hleaves⟩ := (ilock_spec h.inv hpos).post hret
  exact ⟨u, hret, h.step hinv hstore (hleaves.mono h.mem_left), hvalid, hlock, hinum, hother⟩

theorem Along.iunlock (h : Along sb s I F J t) (hi : i ∈ J) (hlocked : (t.itable i).locked = true) :
    ∃ u, Program.Returns (iunlock i) t () u ∧ Along sb s I F J u ∧ (u.itable i).locked = false ∧
      (∀ j, (u.itable j).inum = (t.itable j).inum) ∧ ∀ j, j ≠ i → u.itable j = t.itable j := by
  have hpos := h.ref_pos hi
  have hret : Program.Returns (Kernel.iunlock i) t () (t.setInode i { t.itable i with locked := false }) := by
    refine inode_returns.bind ?_
    rw [if_neg (by simp [hlocked]; omega)]
    rfl
  have hself := Fs.itable_setInode_self t i { t.itable i with locked := false }
  obtain ⟨hinv, hstore, -, hleaves⟩ := (iunlock_spec h.inv hpos).post hret
  refine ⟨_, hret, h.step (hinv.of_store hstore) hstore (hleaves.mono h.mem_left), congrArg Inode.locked hself, fun j => ?_,
    fun j hj => Fs.itable_setInode_of_ne _ _ hj⟩
  by_cases hj : j = i
  · rw [hj, hself]
  · rw [Fs.itable_setInode_of_ne _ _ hj]

/-- A reference to an inode that stays goes back; that frees nothing. -/
theorem Along.iput (hsb : sb.Ordered) (h : Along sb s I F (i ::ₘ J) t) (hstays : s.Stays sb (t.itable i).inum)
    (hs : Tables sb s (s.vol sb).dinode I F) : ∃ u, Program.Returns (iput sb i) t () u ∧ Along sb s I F J u ∧
      (∀ j, (u.itable j).inum = (t.itable j).inum) ∧ ∀ j, (u.itable j).locked = (t.itable j).locked := by
  have hpos := h.ref_pos (Multiset.mem_cons_self i J)
  have hnot : ¬((t.itable i).ref = 1 ∧ (t.itable i).valid = true ∧ (t.itable i).nlink = 0) := by
    rintro ⟨hone, hvalid, hnlink⟩
    have hrefs := h.inv.tables.refs i
    rw [hone, h.opens, Multiset.cons_add, Multiset.cons_add, Multiset.count_cons_self, Multiset.add_assoc] at hrefs
    have hzero : (J + (I + s.opens)).count i = 0 := by omega
    rcases hstays.2 with hne | ⟨j, hj, hinum⟩
    · have hcached := (h.inv.tables.cached i hpos hvalid).1
      rw [h.vol] at hcached
      rw [← hcached] at hne
      exact hne hnlink
    · have hmem := hs.ref_pos.mp hj
      have hposj : 0 < (t.itable j).ref := h.inv.tables.ref_pos.mpr (h.mem_left j hmem)
      obtain rfl := h.inv.tables.distinct j i hposj hpos ((h.leaves.kept j hmem).inum.trans hinum)
      exact Multiset.count_eq_zero.mp hzero (Multiset.mem_add.mpr (Or.inr hmem))
  have hret : Program.Returns (Kernel.iput sb i) t () _ := iput_returns hnot
  have hself := Fs.itable_setInode_self t i { t.itable i with ref := (t.itable i).ref - 1 }
  obtain ⟨hinv, hleaves⟩ := (iput_spec hsb (I := J + I) (by rw [← Multiset.cons_add]; exact h.inv)).post hret
  refine ⟨_, hret, h.step hinv rfl (.setInode fun _ _ => .setInode rfl id fun _ => rfl), fun j => ?_, fun j => ?_⟩
  · by_cases hj : j = i
    · rw [hj, hself]
    · rw [Fs.itable_setInode_of_ne _ _ hj]
  · by_cases hj : j = i
    · rw [hj, hself]
    · rw [Fs.itable_setInode_of_ne _ _ hj]

/-! ### Looking up a name -/

theorem IsTree.isDirectory (h : IsTree sb s I F) (ht : Along sb s I F J t) (hi : i ∈ J) (hv : (t.itable i).valid = true)
    (hdir : (t.itable i).type = T_DIR) : IsDirectory sb t i := by
  have hpos := ht.ref_pos hi
  obtain ⟨hcached, -⟩ := ht.inv.tables.cached i hpos hv
  rw [ht.vol] at hcached
  have hwhole := h.whole (t.itable i).inum (by rw [← hcached]; exact hdir)
  rw [← hcached] at hwhole
  exact ⟨ht.inv.current hpos hv, hpos, hdir, hwhole.1, hwhole.2⟩

/-- What is found in a directory is what the volume has there. -/
theorem IsDirectory.lookup_fst (h : IsDirectory sb t i) (name : List UInt8) :
    (t.lookup sb i name).map Prod.fst = (t.vol sb).lookup (t.itable i).inum name := by
  have hdir : ((t.vol sb).dinode (t.itable i).inum).type = T_DIR := by
    rw [← h.cached]
    exact h.directory
  rw [Fs.lookup, Volume.lookup, if_pos hdir, Option.map_map]
  rfl

theorem IsTree.stays_lookup {m : UInt32} (h : IsTree sb s I F) (hlook : (s.vol sb).lookup n name = some m) :
    s.Stays sb m := by
  unfold Volume.lookup at hlook
  split at hlook
  · next hdir =>
    obtain ⟨x, hfind, rfl⟩ := Option.map_eq_some_iff.mp hlook
    obtain ⟨hget, hkey⟩ := Slots.find_some (i := x.1) (a := x.2) hfind
    exact h.entries n hdir x.2 (List.mem_of_getElem? hget) (Dirent.key_eq_some.mp hkey).1
  · cases hlook

/-- `dirlookup` takes a reference to the inode under the name, if there is one. -/
theorem Along.dirlookup (h : IsTree sb s I F) (ht : Along sb s I F J t) (hi : i ∈ J) (hJ : ∀ a ∈ J, ∀ b ∈ J, a = b)
    (hv : (t.itable i).valid = true) (hdir : (t.itable i).type = T_DIR) :
    Outcome (dirlookup sb i name) (fun r u => match (s.vol sb).lookup (t.itable i).inum name with
        | none => r = none ∧ u = t
        | some m => ∃ k off, r = some (k, off) ∧ Along sb s I F (k ::ₘ J) u ∧ (u.itable k).inum = m ∧
          (∀ j, (u.itable j).locked = (t.itable j).locked) ∧ ∀ j ∈ J, (u.itable j).inum = (t.itable j).inum)
      (fun e _ => e = .panic "iget: no inodes" ∧ Crowded s I) t := by
  have hisdir := h.isDirectory ht hi hv hdir
  have hfinds := hisdir.finds name
  have hfst := hisdir.lookup_fst name
  rw [ht.vol] at hfst
  cases hlook : t.lookup sb i name with
  | none =>
    rw [hlook] at hfst hfinds
    rw [← hfst]
    exact .of_returns hfinds ⟨rfl, rfl⟩
  | some x =>
    rw [hlook] at hfst hfinds
    rw [← hfst]
    have hstays := h.stays_lookup hfst.symm
    refine .congr hfinds ((ht.iget hstays.inum_lt hJ).bind ?_)
    rintro k u ⟨hu, hinum, hlocked, hkept⟩
    exact .pure ⟨k, x.2, rfl, hu, hinum, hlocked, hkept⟩

/-! ### Walking along a path -/

/-- Where a path leads, with the last name if it is the parent that is asked for. -/
def Volume.target (V : Volume) (parent : Bool) (n : UInt32) (names : List (List UInt8)) : Option (UInt32 × List UInt8) :=
  if parent then V.resolveParent n names else (V.resolve n names).map fun m => (m, [])

/-- The walk ends nowhere, or with one reference at its target. -/
inductive Arrives (sb : Superblock) (s : Fs) (I : Multiset (Fin NINODE)) (F : Multiset (Fin NFILE)) :
    Option (UInt32 × List UInt8) → Option (Fin NINODE × List UInt8) → Fs → Prop
  | nowhere {t : Fs} (along : Along sb s I F 0 t) (unlocked : ∀ j, (t.itable j).locked = false) : Arrives sb s I F none none t
  | there {t : Fs} {k : Fin NINODE} {name : List UInt8} (along : Along sb s I F {k} t)
    (unlocked : ∀ j, (t.itable j).locked = false) : Arrives sb s I F (some ((t.itable k).inum, name)) (some (k, name)) t

theorem Along.giveUp (hsb : sb.Ordered) (h : IsTree sb s I F) (ht : Along sb s I F {i} t)
    (hstays : s.Stays sb (t.itable i).inum) (hlocked : (t.itable i).locked = true)
    (hother : ∀ j, j ≠ i → (t.itable j).locked = false) {E : Stop → Fs → Prop} : Outcome (do
      iunlockput sb i
      return none) (Arrives sb s I F none) E t := by
  obtain ⟨u, hunlock, hu, huself, hinum, huother⟩ := ht.iunlock (Multiset.mem_singleton_self i) hlocked
  obtain ⟨v, hput, hv, -, hvlocked⟩ := Along.iput (J := 0) hsb hu (by rwa [hinum]) h.inv.tables
  refine .of_returns (((hunlock.bind hput)).bind .pure) (.nowhere hv fun j => ?_)
  rw [hvlocked]
  by_cases hj : j = i
  · rw [hj, huself]
  · rw [huother j hj, hother j hj]

theorem target_nil (V : Volume) : V.target parent n [] = if parent then none else some (n, []) := rfl

theorem target_cons (V : Volume) (name : List UInt8) (names : List (List UInt8)) :
    V.target parent n (name :: names) =
      if (V.dinode n).type ≠ T_DIR then none
      else if parent = true ∧ names = [] then some (n, name)
      else (V.lookup n name).bind fun m => V.target parent m names := by
  cases parent with
  | false =>
    show (V.resolve n (name :: names)).map _ = _
    rw [Volume.resolve_cons, Option.map_bind]
    by_cases hdir : (V.dinode n).type = T_DIR
    · rw [if_neg (not_not.mpr hdir), if_neg (fun h => nomatch h.1)]
      rfl
    · rw [if_pos hdir, Volume.lookup, if_neg hdir]
      rfl
  | true =>
    show V.resolveParent n (name :: names) = _
    rw [Volume.resolveParent]
    simp only [true_and]
    rfl

theorem namexFrom_walks (hsb : sb.Ordered) (h : IsTree sb s I F) (ht : Along sb s I F {i} t)
    (hunlocked : ∀ j, (t.itable j).locked = false) (hstays : s.Stays sb (t.itable i).inum) :
    Outcome (namexFrom sb parent i path) (Arrives sb s I F ((s.vol sb).target parent (t.itable i).inum (elements path)))
      (fun e _ => e = .panic "iget: no inodes" ∧ Crowded s I) t := by
  induction hlen : path.length using Nat.strong_induction_on generalizing t i path with
  | _ left ih =>
    rw [namexFrom]
    split
    · next hskip =>
      rw [elements_none hskip, target_nil]
      refine .ite (fun hparent => ?_) fun hparent => .pure ?_
      · rw [if_pos hparent]
        obtain ⟨u, hput, hu, -, hlocked⟩ := Along.iput (J := 0) hsb ht hstays h.inv.tables
        exact .of_returns (hput.bind .pure) (.nowhere hu fun j => (hlocked j).trans (hunlocked j))
      · rw [if_neg hparent]
        exact .there ht hunlocked
    next name rest hskip =>
    have hrest : rest.length < left := hlen ▸ skipelem_length_lt hskip
    rw [elements_some hskip, target_cons]
    have hmem := Multiset.mem_singleton_self i
    have hone : ∀ a ∈ ({i} : Multiset (Fin NINODE)), ∀ b ∈ ({i} : Multiset (Fin NINODE)), a = b := by
      intro a ha b hb
      rw [Multiset.mem_singleton.mp ha, Multiset.mem_singleton.mp hb]
    obtain ⟨u, hlock, hu, hv, hself, hinum, hother⟩ := ht.ilock hmem (hunlocked i) hstays.1
    have hunlocked' : ∀ j, j ≠ i → (u.itable j).locked = false := fun j hj => by rw [hother j hj, hunlocked j]
    have hstays' : s.Stays sb (u.itable i).inum := by rwa [hinum]
    have htype : (u.itable i).type = ((s.vol sb).dinode (t.itable i).inum).type := by
      have hcached := (hu.inv.tables.cached i (hu.ref_pos hmem) hv).1
      rw [hu.vol, hinum] at hcached
      rw [← hcached]
    refine .bind_returns hlock (.bind_returns inode_returns ?_)
    rw [htype]
    refine .ite (fun hdir => ?_) fun hdir => .ite (fun hlast => ?_) fun hlast => ?_
    · rw [if_pos hdir]
      exact hu.giveUp hsb h hstays' hself hunlocked'
    · rw [if_neg hdir, if_pos ⟨hlast.1, (elements_rest hskip).mpr hlast.2⟩]
      obtain ⟨v, hunlock, hv', hvself, hvinum, hvother⟩ := hu.iunlock hmem hself
      refine .of_returns (hunlock.bind .pure) ?_
      rw [← hinum, ← hvinum]
      refine .there hv' fun j => ?_
      by_cases hj : j = i
      · rw [hj, hvself]
      · rw [hvother j hj, hunlocked' j hj]
    · rw [if_neg hdir, if_neg fun hl => hlast ⟨hl.1, (elements_rest hskip).mp hl.2⟩]
      refine .bind (hu.dirlookup h hmem hone hv (htype.trans (not_not.mp hdir))) ?_
      rintro r v hr
      rw [hinum] at hr
      cases hlook : (s.vol sb).lookup (t.itable i).inum name with
      | none =>
        rw [hlook] at hr
        obtain ⟨rfl, rfl⟩ := hr
        exact hu.giveUp hsb h hstays' hself hunlocked'
      | some m =>
        rw [hlook] at hr
        obtain ⟨next, off, rfl, hv', hnext, hlocked, hkept⟩ := hr
        have hswap : Along sb s I F (i ::ₘ {next}) v := by
          rw [← Multiset.cons_zero i, Multiset.cons_swap] at hv'
          exact hv'
        have hvinum : (v.itable i).inum = (u.itable i).inum := hkept i hmem
        obtain ⟨w, hunlock, hw, hwself, hwinum, hwother⟩ := hswap.iunlock (Multiset.mem_cons_self _ _) (by rw [hlocked, hself])
        obtain ⟨x, hput, hx, hxinum, hxlocked⟩ := Along.iput hsb hw (by rwa [hwinum, hvinum]) h.inv.tables
        refine .bind_returns (hunlock.bind hput) ?_
        have hm : (x.itable next).inum = m := by rw [hxinum, hwinum, hnext]
        have hstays'' : s.Stays sb (x.itable next).inum := by
          rw [hm]
          exact h.stays_lookup hlook
        have hall : ∀ j, (x.itable j).locked = false := fun j => by
          rw [hxlocked]
          by_cases hj : j = i
          · rw [hj, hwself]
          · rw [hwother j hj, hlocked, hunlocked' j hj]
        have hgo := ih _ hrest hx hall hstays'' rfl
        rw [hm] at hgo
        exact hgo

/-! ### `namei` and `nameiparent` -/

/-- Where the walk begins. -/
def Fs.start (s : Fs) (cwd : Fin NINODE) (path : List UInt8) : UInt32 :=
  if path.head? = some slash then ROOTINO else (s.itable cwd).inum

theorem namex_walks (hsb : sb.Ordered) (h : IsTree sb s I F) (hcwd : cwd ∈ I) (path : List UInt8) :
    Outcome (namex sb cwd path parent)
      (Arrives sb s I F ((s.vol sb).target parent (s.start cwd path) (elements path)))
      (fun e _ => e = .panic "iget: no inodes" ∧ Crowded s I) s := by
  have hbegin : Along sb s I F 0 s := ⟨by rw [Multiset.zero_add]; exact h.inv, rfl, .refl s _⟩
  unfold Fs.start
  refine .ite (fun hroot => ?_) fun hroot => ?_
  · rw [if_pos hroot]
    refine (hbegin.iget h.root.inum_lt fun a ha => absurd ha (Multiset.notMem_zero a)).bind ?_
    rintro i t ⟨ht, hinum, hlocked, -⟩
    rw [← hinum]
    exact namexFrom_walks hsb h ht (fun j => (hlocked j).trans (h.unlocked j)) (hinum ▸ h.root)
  · rw [if_neg hroot]
    have hself := Fs.itable_setInode_self s cwd { s.itable cwd with ref := (s.itable cwd).ref + 1 }
    have hret : Program.Returns (idup cwd) s cwd (s.setInode cwd { s.itable cwd with ref := (s.itable cwd).ref + 1 }) := rfl
    obtain ⟨-, htables, hstore, hleaves⟩ := (idup_spec h.inv.tables hcwd).post hret
    have ht : Along sb s I F {cwd} (s.setInode cwd { s.itable cwd with ref := (s.itable cwd).ref + 1 }) :=
      ⟨Inv.of_store ⟨hstore ▸ h.inv.log, h.inv.ok, htables⟩ hstore, hstore, hleaves⟩
    have hstays := h.stays_inum (h.inv.tables.ref_pos_of_mem hcwd)
    have hinum : ((s.setInode cwd { s.itable cwd with ref := (s.itable cwd).ref + 1 }).itable cwd).inum =
        (s.itable cwd).inum := by rw [hself]
    rw [← hinum] at hstays ⊢
    refine .bind_returns hret (namexFrom_walks hsb h ht (fun j => ?_) hstays)
    by_cases hj : j = cwd
    · rw [hj, hself]
      exact h.unlocked cwd
    · rw [Fs.itable_setInode_of_ne _ _ hj, h.unlocked]

/-- From `s` to `t` one reference was taken to the entry that is found, if one is, and nothing else changed that counts. -/
structure TakesOne (s : Fs) (found : Option (Fin NINODE)) (t : Fs) : Prop where
  refs : ∀ j, (t.itable j).ref = (s.itable j).ref + if found = some j then 1 else 0
  inums : ∀ j, 0 < (s.itable j).ref → (t.itable j).inum = (s.itable j).inum
  unlocked : ∀ j, (t.itable j).locked = false
  store : t.store = s.store
  ftable : t.ftable = s.ftable
  proc : t.proc = s.proc

theorem Along.takesOne {found : Option (Fin NINODE)} (hs : Tables sb s (s.vol sb).dinode I F)
    (h : Along sb s I F J t) (hJ : ∀ j, J.count j = if found = some j then 1 else 0)
    (hunlocked : ∀ j, (t.itable j).locked = false) : TakesOne s found t where
  refs j := by
    rw [h.inv.tables.refs j, hs.refs j, h.opens, Multiset.add_assoc, Multiset.count_add, hJ]
    split <;> push_cast <;> omega
  inums j hj := (h.leaves.kept j (hs.ref_pos.mp hj)).inum
  unlocked := hunlocked
  store := h.store
  ftable := h.leaves.ftable
  proc := h.leaves.proc

theorem Arrives.takesOne {target : Option (UInt32 × List UInt8)} {r : Option (Fin NINODE × List UInt8)}
    (hs : Tables sb s (s.vol sb).dinode I F) (h : Arrives sb s I F target r t) :
    TakesOne s (r.map Prod.fst) t ∧ r.map (fun x => ((t.itable x.1).inum, x.2)) = target := by
  cases h with
  | nowhere along unlocked => exact ⟨along.takesOne hs (fun j => Multiset.count_zero j) unlocked, rfl⟩
  | @there _ k name along unlocked =>
    refine ⟨along.takesOne hs (fun j => ?_) unlocked, rfl⟩
    rw [Multiset.count_singleton]
    refine if_congr ?_ rfl rfl
    rw [Option.map_some, Option.some.injEq, eq_comm]

/-- `dirlookup` in the directory finds the inode `m` under the name, when the directory is locked after `t`. -/
def FindsLocked (sb : Superblock) (t : Fs) (dp : Fin NINODE) (name : List UInt8) (m : Option UInt32) : Prop :=
  ∀ u, IsDirectory sb u dp → u.store = t.store → (u.itable dp).inum = (t.itable dp).inum →
    ∃ found, Finds sb u dp name found ∧ found.map Prod.fst = m

/-- How `namei` and `nameiparent` end for a path. -/
structure Namei (sb : Superblock) (s : Fs) (I : Multiset (Fin NINODE)) (cwd : Fin NINODE) (path : List UInt8) : Prop where
  elements : elements path = (runs path).map (·.take DIRSIZ)
  namei : Outcome (namei sb cwd path)
    (fun r t => TakesOne s r t ∧
      r.map (fun k => (t.itable k).inum) = (s.vol sb).resolve (s.start cwd path) (Kernel.elements path))
    (fun e _ => e = .panic "iget: no inodes" ∧ Crowded s I) s
  /-- The parent is where all names but the last lead, if it is a directory, and the path is then looked up there. -/
  nameiparent : ∀ names last, Kernel.elements path = names ++ [last] → Outcome (nameiparent sb cwd path)
    (fun r t => TakesOne s (r.map Prod.fst) t ∧
      r.map (fun x => ((t.itable x.1).inum, x.2)) = (((s.vol sb).resolve (s.start cwd path) names).bind fun d =>
        if ((s.vol sb).dinode d).type = T_DIR then some (d, last) else none) ∧
      ∀ dp name, r = some (dp, name) →
        FindsLocked sb t dp name ((s.vol sb).resolve (s.start cwd path) (Kernel.elements path)))
    (fun e _ => e = .panic "iget: no inodes" ∧ Crowded s I) s
  /-- A path without names has no parent. -/
  noParent : Kernel.elements path = [] → Outcome (Kernel.nameiparent sb cwd path) (fun r t => r = none ∧ TakesOne s none t)
    (fun e _ => e = .panic "iget: no inodes" ∧ Crowded s I) s

theorem namei_walks (hsb : sb.Ordered) (h : IsTree sb s I F) (hcwd : cwd ∈ I) (path : List UInt8) :
    Namei sb s I cwd path where
  elements := elements_eq path
  namei := by
    refine (namex_walks hsb h hcwd path).bind ?_
    intro r t hr
    obtain ⟨htakes, htarget⟩ := hr.takesOne h.inv.tables
    refine .pure ⟨htakes, ?_⟩
    have hfst := congrArg (Option.map Prod.fst) htarget
    rw [Volume.target, if_neg (by decide), Option.map_map, Option.map_map] at hfst
    rw [Option.map_map]
    simpa [Function.comp_def] using hfst
  nameiparent names last heq := by
    refine (namex_walks hsb h hcwd path).mono ?_
    intro r t hr
    obtain ⟨htakes, htarget⟩ := hr.takesOne h.inv.tables
    rw [Volume.target, if_pos rfl, heq, Volume.resolveParent_append] at htarget
    refine ⟨htakes, htarget, ?_⟩
    rintro dp name rfl u hu hstore hinum
    have hvol : u.vol sb = s.vol sb := by rw [Fs.vol, hstore, htakes.store, Fs.vol]
    obtain ⟨d, hd, hsome⟩ := Option.bind_eq_some_iff.mp htarget.symm
    have hat : d = (t.itable dp).inum ∧ last = name := by
      split at hsome
      · cases hsome
        exact ⟨rfl, rfl⟩
      · cases hsome
    refine ⟨_, hu.finds name, ?_⟩
    rw [hu.lookup_fst, hvol, hinum, heq, Volume.resolve_append, hd, hat.2, ← hat.1]
    rfl
  noParent hnil := by
    refine (namex_walks hsb h hcwd path).mono ?_
    intro r t hr
    obtain ⟨htakes, htarget⟩ := hr.takesOne h.inv.tables
    rw [hnil, target_nil, if_pos rfl, Option.map_eq_none_iff] at htarget
    subst htarget
    exact ⟨rfl, htakes⟩

theorem Volume.getElem?_entries {V : Volume} {l : Nat} (hmapped : ∀ p, p < (V.dinode n).size.toNat → V.block n (p / BSIZE) ≠ 0)
    (hl : (l + 1) * sizeofDirent ≤ (V.dinode n).size.toNat) :
    (Kernel.entries (V.content n))[l]? = some (V.dirent n (l * sizeofDirent)) := by
  have hlen := V.length_content n
  rw [Nat.succ_mul] at hl
  rw [Kernel.getElem?_entries (by
    rw [hlen, Nat.lt_div_iff_mul_lt (by decide)]
    have : 0 < sizeofDirent := by decide
    omega), Volume.dirent]
  exact congrArg (fun bytes => some (Dirent.ofBytes bytes)) ((V.reads_content hmapped).read (l * sizeofDirent) sizeofDirent
    (dirent_fits (Nat.dvd_mul_left ..)) (by omega)).symm

theorem dotDirectory_isTree : IsTree .small dotDirectory {⟨0, by decide⟩} 0 := by
  let V := Volume.single .small T_DIR 16 (Block.zero.write 0 (Dirent.named [0x2e] ROOTINO).toBytes)
  have hvol : dotDirectory.vol .small = V :=
    Volume.vol_opened Superblock.small_ordered (Volume.single_bounded Superblock.small_ordered (by decide)) _
  have hroot : ∀ m, (V.dinode m).type = T_DIR → m = ROOTINO := by
    intro m hm
    by_contra hne
    have hzero : V.dinode m = .zero := if_neg hne
    rw [hzero] at hm
    exact absurd hm (by decide)
  have hsize : (V.dinode ROOTINO).size.toNat = 16 := rfl
  have hstays : dotDirectory.Stays .small ROOTINO := by
    rw [Fs.Stays, hvol]
    exact ⟨by decide, Or.inl (by decide)⟩
  refine ⟨dotDirectory_inv, fun _ => rfl, fun m hm => ?_, hstays, fun m hm de hde _ => ?_, fun j _ => ?_⟩
  · rw [hvol] at hm ⊢
    rw [hroot m hm, hsize]
    decide
  · rw [hvol] at hm hde
    obtain rfl := hroot m hm
    obtain ⟨l, hl⟩ := List.mem_iff_getElem?.mp hde
    obtain ⟨hlt, -⟩ := List.getElem?_eq_some_iff.mp hl
    rw [length_entries, Volume.length_content, hsize] at hlt
    have hzero : l = 0 := Nat.lt_one_iff.mp hlt
    have hmapped : ∀ p, p < (V.dinode ROOTINO).size.toNat → V.block ROOTINO (p / BSIZE) ≠ 0 := by
      intro p hp
      rw [hsize] at hp
      rw [Volume.block_single, Nat.div_eq_of_lt (hp.trans (by decide)), if_pos rfl]
      decide
    rw [hzero, V.getElem?_entries hmapped (by rw [hsize]; decide), Option.some.injEq, Nat.zero_mul,
      Volume.dirent_single Superblock.small_ordered (by decide) (by decide), Block.read_write_dirent, Dirent.ofBytes_toBytes] at hl
    rw [← hl]
    exact hstays
  · rw [hvol]
    exact show T_DIR ≠ 0 by decide

/-- In the root directory, which names itself. -/
theorem namei_walks_dot : Namei .small dotDirectory {⟨0, by decide⟩} ⟨0, by decide⟩ [0x2f, 0x2e] :=
  namei_walks Superblock.small_ordered dotDirectory_isTree (Multiset.mem_singleton_self _) _

end LabSO.Kernel

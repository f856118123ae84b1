import LabSO.Kernel.FsAlloc
import LabSO.Kernel.Inode
import LabSO.Lib.Tokens

/-! The invariant of the file system: the volume agrees with itself, and the tables in memory agree with the volume and
    with the references to their entries.

    References are counted as tokens: `I` has one for each reference to an entry of the inode table that a process or the
    running system call holds, `F` one for each reference to an entry of the file table. -/

namespace LabSO.Kernel
open Program Tokens

variable {sb : Superblock} {s t u : Fs} {ino : UInt32 → Dinode} {I J : Multiset (Fin NINODE)} {F : Multiset (Fin NFILE)}
  {i j : Fin NINODE} {f : Fin NFILE}

/-- The entry of the inode table that an open file refers to. -/
def File.inode? (fp : File) : Option (Fin NINODE) := if fp.type = .none then none else some fp.ip

/-- The references that open files hold. -/
def Fs.opens (s : Fs) : Multiset (Fin NINODE) := gather fun f => (s.ftable f).inode?

/-- The tables in memory agree with the inodes `ino` and with the references. -/
structure Tables (sb : Superblock) (s : Fs) (ino : UInt32 → Dinode) (I : Multiset (Fin NINODE))
    (F : Multiset (Fin NFILE)) : Prop where
  refs : ∀ i, (s.itable i).ref = (I + s.opens).count i
  cached : ∀ i, 0 < (s.itable i).ref → (s.itable i).valid = true →
    (s.itable i).toDinode = ino (s.itable i).inum ∧ (s.itable i).type ≠ 0
  distinct : ∀ i j, 0 < (s.itable i).ref → 0 < (s.itable j).ref → (s.itable i).inum = (s.itable j).inum → i = j
  inum_lt : ∀ i, 0 < (s.itable i).ref → (s.itable i).inum.toNat < sb.ninodes.toNat
  frefs : ∀ f, (s.ftable f).ref = F.count f
  idle : ∀ f, (s.ftable f).ref = 0 → (s.ftable f).type = .none
  opened : ∀ f i, (s.ftable f).inode? = some i → (s.itable i).valid = true
  notDir : ∀ f, (s.ftable f).type = .inode → (s.ftable f).writable = true →
    (ino (s.itable (s.ftable f).ip).inum).type ≠ T_DIR

/-- Within an operation: `V` is the volume, with what is not written to it yet. -/
structure Inv (sb : Superblock) (s : Fs) (V : Volume) (I : Multiset (Fin NINODE)) (F : Multiset (Fin NFILE)) : Prop where
  log : LogAt sb 1 s.store
  ok : V.Ok sb
  tables : Tables sb s V.dinode I F

def Fs.vol (s : Fs) (sb : Superblock) : Volume := volume sb s.store.bufs

/-- The volume with the inode of an entry as it is in memory. -/
def Fs.cur (s : Fs) (sb : Superblock) (i : Fin NINODE) : Volume :=
  (s.vol sb).setDinode (s.itable i).inum (s.itable i).toDinode

/-- An entry still is the copy of the same inode, of the same type. -/
structure Kept (s t : Fs) (i : Fin NINODE) : Prop where
  inum : (t.itable i).inum = (s.itable i).inum
  valid : (s.itable i).valid = true → (t.itable i).valid = true
  type : (s.itable i).valid = true → (t.itable i).type = (s.itable i).type

/-- What code that holds the references `J` can rely on from `s` to `t`. -/
structure Leaves (s t : Fs) (J : Multiset (Fin NINODE)) : Prop where
  ftable : t.ftable = s.ftable
  proc : t.proc = s.proc
  kept : ∀ i ∈ J, Kept s t i

theorem Kept.refl (s : Fs) (i : Fin NINODE) : Kept s s i := ⟨rfl, id, fun _ => rfl⟩

theorem Kept.of_eq (h : t.itable i = s.itable i) : Kept s t i := by
  refine ⟨by rw [h], fun hv => by rwa [h], fun _ => by rw [h]⟩

theorem Kept.trans (h : Kept s t i) (h' : Kept t u i) : Kept s u i where
  inum := h'.inum.trans h.inum
  valid hv := h'.valid (h.valid hv)
  type hv := (h'.type (h.valid hv)).trans (h.type hv)

theorem Leaves.refl (s : Fs) (J : Multiset (Fin NINODE)) : Leaves s s J := ⟨rfl, rfl, fun i _ => .refl s i⟩

theorem Leaves.trans (h : Leaves s t J) (h' : Leaves t u J) : Leaves s u J where
  ftable := h'.ftable.trans h.ftable
  proc := h'.proc.trans h.proc
  kept i hi := (h.kept i hi).trans (h'.kept i hi)

theorem Leaves.mono (h : Leaves s t J) (hJ : ∀ i ∈ I, i ∈ J) : Leaves s t I := ⟨h.ftable, h.proc, fun i hi => h.kept i (hJ i hi)⟩

/-! ### References -/

theorem Tables.ref_pos (h : Tables sb s ino I F) : 0 < (s.itable i).ref ↔ i ∈ I + s.opens := by
  rw [h.refs, Int.natCast_pos, Multiset.count_pos]

theorem Tables.ref_pos_of_mem (h : Tables sb s ino I F) (hi : i ∈ I) : 0 < (s.itable i).ref :=
  h.ref_pos.mpr (Multiset.mem_add.mpr (Or.inl hi))

theorem opens_congr (h : t.ftable = s.ftable) : t.opens = s.opens := by rw [Fs.opens, Fs.opens, h]

theorem mem_opens : i ∈ s.opens ↔ ∃ f, (s.ftable f).inode? = some i := mem_gather

theorem Tables.congr (h : Tables sb s ino I F) (hi : t.itable = s.itable) (hf : t.ftable = s.ftable) :
    Tables sb t ino I F := by
  obtain ⟨refs, cached, distinct, inum_lt, frefs, idle, opened, notDir⟩ := h
  rw [← opens_congr hf] at refs
  rw [← hi] at refs cached distinct inum_lt opened notDir
  rw [← hf] at frefs idle opened notDir
  exact ⟨refs, cached, distinct, inum_lt, frefs, idle, opened, notDir⟩

theorem inode?_of_ne (h : (s.ftable f).type ≠ .none) : (s.ftable f).inode? = some (s.ftable f).ip := if_neg h

theorem Tables.ref_pos_of_opens (h : Tables sb s ino I F) (hi : i ∈ s.opens) : 0 < (s.itable i).ref :=
  h.ref_pos.mpr (Multiset.mem_add.mpr (Or.inr hi))

/-! ### Updates of an entry -/

@[simp] theorem Fs.itable_setInode_self (s : Fs) (i : Fin NINODE) (x : Inode) : (s.setInode i x).itable i = x :=
  Function.update_self ..

theorem Fs.itable_setInode_of_ne (s : Fs) (x : Inode) (h : j ≠ i) : (s.setInode i x).itable j = s.itable j :=
  Function.update_of_ne h ..

@[simp] theorem Fs.opens_setInode (s : Fs) (i : Fin NINODE) (x : Inode) : (s.setInode i x).opens = s.opens := rfl
@[simp] theorem Fs.ftable_setInode (s : Fs) (i : Fin NINODE) (x : Inode) : (s.setInode i x).ftable = s.ftable := rfl
@[simp] theorem Fs.vol_setInode (s : Fs) (i : Fin NINODE) (x : Inode) : (s.setInode i x).vol sb = s.vol sb := rfl

/-- An entry changes, and with it the references to it and the inode that it is a copy of. -/
theorem Tables.update {x : Inode} {ino' : UInt32 → Dinode} {I' : Multiset (Fin NINODE)} (h : Tables sb s ino I F)
    (href : x.ref = (I' + s.opens).count i) (hcount : ∀ j, j ≠ i → I'.count j = I.count j)
    (hinum : 0 < x.ref → x.inum.toNat < sb.ninodes.toNat)
    (hcached : 0 < x.ref → x.valid = true → x.toDinode = ino' x.inum ∧ x.type ≠ 0)
    (hdistinct : 0 < x.ref → ∀ j, j ≠ i → 0 < (s.itable j).ref → x.inum ≠ (s.itable j).inum)
    (hother : ∀ j, j ≠ i → 0 < (s.itable j).ref → ino' (s.itable j).inum = ino (s.itable j).inum)
    (hopen : i ∈ s.opens → x.valid = true ∧ (ino' x.inum).type = (ino (s.itable i).inum).type) :
    Tables sb (s.setInode i x) ino' I' F where
  refs j := by
    rw [Fs.opens_setInode]
    by_cases hj : j = i
    · rw [hj, Fs.itable_setInode_self, href]
    · rw [Fs.itable_setInode_of_ne _ _ hj, h.refs j, Multiset.count_add, Multiset.count_add, hcount j hj]
  cached j hj hv := by
    by_cases hji : j = i
    · subst hji
      rw [Fs.itable_setInode_self] at hj hv ⊢
      exact hcached hj hv
    · rw [Fs.itable_setInode_of_ne _ _ hji] at hj hv ⊢
      rw [hother j hji hj]
      exact h.cached j hj hv
  distinct j k hj hk heq := by
    by_cases hji : j = i <;> by_cases hki : k = i
    · rw [hji, hki]
    · subst hji
      rw [Fs.itable_setInode_self] at hj heq
      rw [Fs.itable_setInode_of_ne _ _ hki] at hk heq
      exact absurd heq (hdistinct hj k hki hk)
    · subst hki
      rw [Fs.itable_setInode_self] at hk heq
      rw [Fs.itable_setInode_of_ne _ _ hji] at hj heq
      exact absurd heq.symm (hdistinct hk j hji hj)
    · rw [Fs.itable_setInode_of_ne _ _ hji] at hj heq
      rw [Fs.itable_setInode_of_ne _ _ hki] at hk heq
      exact h.distinct j k hj hk heq
  inum_lt j hj := by
    by_cases hji : j = i
    · subst hji
      rw [Fs.itable_setInode_self] at hj ⊢
      exact hinum hj
    · rw [Fs.itable_setInode_of_ne _ _ hji] at hj ⊢
      exact h.inum_lt j hj
  frefs := h.frefs
  idle := h.idle
  opened f j hj := by
    by_cases hji : j = i
    · subst hji
      rw [Fs.itable_setInode_self]
      exact (hopen (mem_opens.mpr ⟨f, hj⟩)).1
    · rw [Fs.itable_setInode_of_ne _ _ hji]
      exact h.opened f j hj
  notDir f hf hw := by
    rw [Fs.ftable_setInode] at hf hw ⊢
    have hmem : (s.ftable f).ip ∈ s.opens := mem_opens.mpr ⟨f, inode?_of_ne (by rw [hf]; rintro ⟨⟩)⟩
    have hdir := h.notDir f hf hw
    by_cases hji : (s.ftable f).ip = i
    · rw [hji] at hmem hdir ⊢
      rw [Fs.itable_setInode_self, (hopen hmem).2]
      exact hdir
    · rw [Fs.itable_setInode_of_ne _ _ hji, hother _ hji (h.ref_pos_of_opens hmem)]
      exact hdir

/-- An entry changes while nobody refers to another inode than before. -/
theorem Tables.update_same {x : Inode} {ino' : UInt32 → Dinode} (h : Tables sb s ino I F)
    (hi : 0 < (s.itable i).ref) (href : x.ref = (s.itable i).ref) (hinum : x.inum = (s.itable i).inum)
    (hcached : x.valid = true → x.toDinode = ino' (s.itable i).inum ∧ x.type ≠ 0)
    (hother : ∀ n, n ≠ (s.itable i).inum → ino' n = ino n)
    (hopen : (s.itable i).valid = true → x.valid = true ∧ (ino' (s.itable i).inum).type = (ino (s.itable i).inum).type) :
    Tables sb (s.setInode i x) ino' I F := by
  have hne : ∀ j, j ≠ i → 0 < (s.itable j).ref → (s.itable i).inum ≠ (s.itable j).inum := fun j hj hpos heq =>
    hj (h.distinct i j hi hpos heq).symm
  refine h.update (href.trans (h.refs i)) (fun _ _ => rfl) (fun _ => hinum ▸ h.inum_lt i hi) (fun _ hv => hinum ▸ hcached hv)
    (fun _ j hj hpos => hinum ▸ hne j hj hpos) (fun j hj hpos => hother _ (hne j hj hpos).symm) fun hmem => ?_
  obtain ⟨f, hf⟩ := mem_opens.mp hmem
  rw [hinum]
  exact hopen (h.opened f i hf)

theorem Inv.cur_eq (h : Inv sb s (s.vol sb) I F) (hi : 0 < (s.itable i).ref) (hv : (s.itable i).valid = true) :
    s.cur sb i = s.vol sb := by
  rw [Fs.cur, (h.tables.cached i hi hv).1]
  exact Volume.ext rfl (Function.update_eq_self ..) rfl

end LabSO.Kernel

import LabSO.Mkfs.Build

/-! What `main` puts into the image: how many inodes, and which entries into the root directory. -/

namespace LabSO.Mkfs
open Kernel Program

variable {s t : Image} {n : UInt32} {k : Nat} {c : UInt32 → List UInt8} {f : HostFile} {files : List HostFile}

/-! ### Inode numbers -/

/-- The number of inodes for which the image has a block, be it one of inodes or not. -/
def inodeLimit : Nat := (FSSIZE - sb.inodestart.toNat) * Kernel.IPB

/-- The next inode is `k`. -/
structure Counted (s : Image) (k : Nat) : Prop where
  length : s.length = FSSIZE
  freeinode : s.freeinode.toNat = k
  limit : k ≤ inodeLimit

theorem Counted.frame (h : Counted s k) (hframe : Frame s t) : Counted t k :=
  ⟨hframe.length.trans h.length, hframe.freeinode ▸ h.freeinode, h.limit⟩

theorem Steady.counted {α : Type} {m : Build α} (hm : Steady m) (h : Counted s k) :
    Outcome m (fun _ t => Counted t k) (fun _ _ => True) s :=
  (hm s).mono fun _ _ => h.frame

/-- The counter does not wrap around, since there is no block for an inode that large. -/
theorem ialloc_counted {type : UInt16} (h : Counted s k) :
    Outcome (ialloc type) (fun _ t => Counted t (k + 1)) (fun _ _ => True) s := by
  let s' : Image := { s with freeinode := s.freeinode + 1 }
  have hk := h.limit
  have hle : k ≤ 31488 := hk
  have hblock : (IBLOCK s.freeinode sb).toNat = 32 + k / 16 := by
    rw [← h.freeinode]
    exact toNat_ofNat_add (by show 32 + s.freeinode.toNat / 16 < 2 ^ 31; rw [h.freeinode]; omega)
  have hlimit : (IBLOCK s.freeinode sb).toNat ≤ FSSIZE := by
    rw [hblock]
    show _ ≤ 2000
    omega
  have hwinode : Outcome (winode s.freeinode { Dinode.zero with type := type.toInt16, nlink := 1 })
      (fun _ t => Counted t (k + 1)) (fun _ _ => True) s' := by
    refine .bind (rsect_outcome _ s') ?_
    rintro B _ ⟨rfl, hlt⟩
    refine (wsect_frame hlt).mono fun _ t hframe => ?_
    have hlt' : 32 + k / 16 < 2000 := by
      rw [sector_eq hlimit, hblock] at hlt
      exact hlt.trans_eq h.length
    have hnext : s'.freeinode.toNat = k + 1 := by
      show (s.freeinode + 1).toNat = _
      rw [UInt32.toNat_add, h.freeinode]
      exact Nat.mod_eq_of_lt (by show k + 1 < 2 ^ 32; omega)
    have hcounted : Counted s' (k + 1) := ⟨h.length, hnext, by show k + 1 ≤ 31488; omega⟩
    exact hcounted.frame hframe
  refine .bind_returns (show Program.Returns _ s s.freeinode s' from rfl) ?_
  exact .bind hwinode fun _ t ht => .pure ht

theorem addFile_counted (h : Counted s k) :
    Outcome (addFile ROOTINO f) (fun _ t => Counted t (k + 1)) (fun _ _ => True) s := by
  unfold addFile
  refine .ite (fun _ => .halt trivial) fun _ => ?_
  rcases f.reads with _ | reads
  · exact .halt trivial
  · refine .bind (ialloc_counted h) fun inum t ht => ?_
    refine .bind ((steady_iappend ROOTINO _).counted ht) fun _ u hu => ?_
    exact (Steady.forEach (steady_iappend inum) reads).counted hu

theorem addFiles_counted (h : Counted s k) :
    Outcome (forEach (addFile ROOTINO) files) (fun _ t => Counted t (k + files.length)) (fun _ _ => True) s := by
  induction files generalizing s k with
  | nil => exact .pure h
  | cons f files ih =>
    refine .bind (addFile_counted h) fun _ t ht => ?_
    rw [List.length_cons, Nat.add_comm files.length, ← Nat.add_assoc]
    exact ih ht

theorem finish_freeinode : Outcome (finish n) (fun _ t => t.freeinode = s.freeinode) (fun _ _ => True) s := by
  refine .bind (steady_rinode n s) fun d t ht => .bind (steady_winode n _ t) fun _ u hu => ?_
  refine .bind_returns (show Program.Returns _ u u.freeblock u from rfl) ?_
  unfold balloc
  refine .ite (fun _ => .liftState ?_) fun _ => .halt trivial
  exact hu.freeinode.trans ht.freeinode

/-- Each file has an inode, and so has the root directory, before which there is the inode 0. -/
theorem main_counted : Outcome (main files) (fun _ t => t.freeinode.toNat = files.length + 2) (fun _ _ => True) .empty := by
  have hstart : Counted start 1 := ⟨rfl, rfl, by decide⟩
  refine .bind_returns format_returns (.bind (ialloc_counted hstart) fun root s hs => ?_)
  refine .ite (fun _ => .halt trivial) fun hroot => ?_
  obtain rfl := not_not.mp hroot
  refine .bind ((steady_iappend ROOTINO _).counted hs) fun _ s hs => ?_
  refine .bind ((steady_iappend ROOTINO _).counted hs) fun _ s hs => ?_
  refine .bind (addFiles_counted hs) fun _ s hs => finish_freeinode.mono fun _ t ht => ?_
  rw [ht, hs.freeinode, Nat.add_comm]

/-! ### The root directory -/

/-- The entries for the files, whose inodes begin with `next`. -/
def entriesFrom (next : Nat) : List HostFile → List Dirent
  | [] => []
  | f :: files => .named f.shortname (.ofNat next) :: entriesFrom (next + 1) files

def entries (files : List HostFile) : List Dirent :=
  .named [dot] ROOTINO :: .named [dot, dot] ROOTINO :: entriesFrom 2 files

/-- The bytes of the entries. -/
def direntBytes (l : List Dirent) : List UInt8 := l.flatMap Dirent.toBytes

theorem iappend_built {p : List UInt8} (h : Built s c) (hn : (s.vol.dinode n).type ≠ 0) :
    Outcome (iappend n p) (fun _ t => Built t (Function.update c n (c n ++ p)) ∧ t.freeinode = s.freeinode)
      (fun _ _ => True) s :=
  (iappend_spec h hn rfl).weaken fun _ _ _ => trivial

/-- The bytes of a file are read and appended. -/
theorem reads_spec {reads : List (List UInt8)} (h : Built s c) (hn : (s.vol.dinode n).type ≠ 0) (hroot : n ≠ ROOTINO) :
    Outcome (forEach (iappend n) reads) (fun _ t => ∃ c', Built t c' ∧ c' ROOTINO = c ROOTINO ∧
      t.freeinode = s.freeinode) (fun _ _ => True) s := by
  induction reads generalizing s c with
  | nil => exact .pure ⟨c, h, rfl, rfl⟩
  | cons p reads ih =>
    refine .bind (iappend_built h hn) ?_
    rintro _ t ⟨ht, hsame⟩
    have hn' : (t.vol.dinode n).type ≠ 0 := by
      rw [ht.type, hsame]
      exact (h.type n).mp hn
    refine (ih ht hn').mono ?_
    rintro _ u ⟨c', hu, hroot', hsame'⟩
    exact ⟨c', hu, hroot'.trans (Function.update_of_ne (Ne.symm hroot) ..), hsame'.trans hsame⟩

theorem addFile_spec (h : Built s c) (hroot : 1 < s.freeinode.toNat) (hlt : s.freeinode.toNat < NINODES) :
    Outcome (addFile ROOTINO f) (fun _ t => ∃ c', Built t c' ∧
      c' ROOTINO = c ROOTINO ++ (Dirent.named f.shortname s.freeinode).toBytes ∧
      t.freeinode.toNat = s.freeinode.toNat + 1) (fun _ _ => True) s := by
  unfold addFile
  refine .ite (fun _ => .halt trivial) fun _ => ?_
  rcases f.reads with _ | reads
  · exact .halt trivial
  · obtain ⟨t, hret, ht, hnext⟩ := ialloc_spec T_FILE.toUInt16 h hlt (by decide)
    have hrootne : s.freeinode ≠ ROOTINO := by
      intro heq
      rw [heq] at hroot
      exact absurd hroot (by decide)
    refine .bind_returns hret ?_
    have htype : (t.vol.dinode ROOTINO).type ≠ 0 := by
      rw [ht.type, hnext]
      exact ⟨le_rfl, hroot.trans (Nat.lt_succ_self _)⟩
    refine .bind (iappend_built ht htype) ?_
    rintro _ u ⟨hu, hsame⟩
    have htype' : (u.vol.dinode s.freeinode).type ≠ 0 := by
      rw [hu.type, hsame, hnext]
      exact ⟨hroot.le, Nat.lt_succ_self _⟩
    refine (reads_spec hu htype' hrootne).mono ?_
    rintro _ v ⟨c', hv, hroot', hsame'⟩
    refine ⟨c', hv, ?_, ?_⟩
    · rw [hroot', Function.update_self]
    · rw [hsame', hsame, hnext]

theorem addFiles_spec (h : Built s c) (hroot : 1 < s.freeinode.toNat) (hle : s.freeinode.toNat + files.length ≤ NINODES) :
    Outcome (forEach (addFile ROOTINO) files) (fun _ t => ∃ c', Built t c' ∧
      c' ROOTINO = c ROOTINO ++ direntBytes (entriesFrom s.freeinode.toNat files) ∧
      t.freeinode.toNat = s.freeinode.toNat + files.length) (fun _ _ => True) s := by
  induction files generalizing s c with
  | nil => exact .pure ⟨c, h, (List.append_nil _).symm, rfl⟩
  | cons f files ih =>
    rw [List.length_cons] at hle
    refine .bind (addFile_spec h hroot (by omega)) ?_
    rintro _ t ⟨c', ht, hroot', hnext⟩
    refine (ih ht (by omega) (by omega)).mono ?_
    rintro _ u ⟨c'', hu, hroot'', hlast⟩
    refine ⟨c'', hu, ?_, ?_⟩
    · rw [hroot'', hroot', hnext, entriesFrom, direntBytes, direntBytes, List.flatMap_cons, UInt32.ofNat_toNat,
        List.append_assoc]
    · rw [hlast, hnext, List.length_cons]
      omega

/-! ### The bit map -/

theorem bit_zero (i : Nat) : Block.zero.bit i = false := by
  rw [Block.bit, Block.byte_zero]
  simp

theorem bit_foldl_setBit (hk : k ≤ BPB) (i : Nat) :
    ((List.range k).foldl Block.setBit .zero).bit i = decide (i < k) := by
  induction k with
  | zero => exact bit_zero i
  | succ k ih =>
    rw [List.range_succ, List.foldl_append, List.foldl_cons, List.foldl_nil, Block.bit_setBit hk,
      ih (Nat.le_of_succ_le hk), ← Bool.decide_or, decide_eq_decide]
    omega

/-- The bit map of the image. -/
def Image.bitmap (s : Image) : Block := (List.range s.freeblock.toNat).foldl Block.setBit .zero

theorem toInt_freeblock (h : Room s) : s.freeblock.toInt32.toInt = s.freeblock.toNat := by
  have hlt : 2 * s.freeblock.toBitVec.toNat < 2 ^ 32 := by
    have hle : s.freeblock.toNat ≤ 2000 := h.last
    rw [UInt32.toNat_toBitVec]
    omega
  exact BitVec.toInt_eq_toNat_of_lt hlt

theorem balloc_returns (h : Room s) :
    Program.Returns (balloc s.freeblock.toInt32.toInt) s () (s.set sb.bmapstart s.bitmap) := by
  have hle : s.freeblock.toNat ≤ 2000 := h.last
  have hlt : (s.freeblock.toNat : Int) < BSIZE * 8 := by
    show _ < (8192 : Int)
    omega
  rw [balloc, toInt_freeblock h, if_pos hlt]
  exact wsect_returns h.length (by decide) _

/-- With its bit map the image holds what it did before. -/
theorem volume_bitmap (h : Room s) : volume sb (s.set sb.bmapstart s.bitmap).file = s.vol := by
  have hle : s.freeblock.toNat ≤ 2000 := h.last
  have hother : ∀ b : BlockNo, b ≠ sb.bmapstart → (s.set sb.bmapstart s.bitmap).file b = s.file b := fun b hb =>
    Function.update_of_ne hb ..
  refine Volume.ext (funext fun b => ?_) (funext fun n => ?_) (funext fun b => ?_)
  · show (decide (b.toNat < 2000) && _) = decide (b.toNat < s.freeblock.toNat)
    by_cases hb : b.toNat < 2000
    · have hblock : BBLOCK b sb = sb.bmapstart := by
        have hdiv : b.toNat / BPB = 0 := Nat.div_eq_of_lt (by show _ < 8192; omega)
        rw [BBLOCK, hdiv]
        rfl
      have hself : (s.set sb.bmapstart s.bitmap).file sb.bmapstart = s.bitmap := by simp [Image.set]
      have hmod : b.toNat % BPB = b.toNat := Nat.mod_eq_of_lt (by show _ < 8192; omega)
      rw [hblock, hself, Image.bitmap, bit_foldl_setBit (by show _ ≤ 8192; omega), hmod, decide_eq_true hb, Bool.true_and]
    · rw [decide_eq_false hb, Bool.false_and]
      exact (decide_eq_false (by omega)).symm
  · by_cases hn : n.toNat < sb.ninodes.toNat
    · have hne : IBLOCK n sb ≠ sb.bmapstart := by
        have hlt := (toNat_IBLOCK sb_ordered hn).2
        intro heq
        rw [heq] at hlt
        exact Nat.lt_irrefl _ hlt
      simp only [volume, Image.vol, if_pos hn, hother _ hne]
    · simp only [volume, Image.vol, if_neg hn]
  · by_cases hb : b ∈ sb.dataBlocks
    · have hne : b ≠ sb.bmapstart := by
        rintro rfl
        exact absurd hb.1 (by decide)
      simp only [volume, Image.vol, if_pos hb, hother _ hne]
    · simp only [volume, Image.vol, if_neg hb]

/-- The size of the root directory when it is rounded up. -/
def roundedSize (len : Nat) : Nat := (len / BSIZE + 1) * BSIZE

theorem finish_spec (h : Built s c) (hroot : (s.vol.dinode ROOTINO).type ≠ 0) :
    Outcome (finish ROOTINO) (fun _ t => ∃ size : UInt32, size.toNat = roundedSize (c ROOTINO).length ∧
      volume sb t.file = s.vol.setDinode ROOTINO { s.vol.dinode ROOTINO with size }) (fun _ _ => True) s := by
  have hlt := h.lt hroot
  let size := ((s.vol.dinode ROOTINO).size / .ofNat BSIZE + 1) * .ofNat BSIZE
  let d : Dinode := { s.vol.dinode ROOTINO with size }
  refine .bind_returns (rinode_returns h.room hlt) ?_
  refine .bind_returns (winode_returns h.room hlt d) ?_
  have hroom := h.room.setInode hlt d
  refine .bind_returns (show Program.Returns _ _ (s.setInode ROOTINO d).freeblock (s.setInode ROOTINO d) from rfl) ?_
  refine .of_returns (balloc_returns hroom) ⟨size, ?_, ?_⟩
  · have hlen := h.size ROOTINO hroot
    have hle : (c ROOTINO).length ≤ 268 * 1024 := (h.holds ROOTINO hroot).length_le
    have hdiv : ((s.vol.dinode ROOTINO).size / 1024).toNat = (c ROOTINO).length / 1024 := by
      rw [UInt32.toNat_div, hlen]
      rfl
    have hadd : ((s.vol.dinode ROOTINO).size / 1024 + 1).toNat = (c ROOTINO).length / 1024 + 1 := by
      rw [UInt32.toNat_add, hdiv]
      exact Nat.mod_eq_of_lt (by show (c ROOTINO).length / 1024 + 1 < 2 ^ 32; omega)
    show (((s.vol.dinode ROOTINO).size / 1024 + 1) * 1024).toNat = ((c ROOTINO).length / 1024 + 1) * 1024
    rw [UInt32.toNat_mul, hadd]
    exact Nat.mod_eq_of_lt (by show ((c ROOTINO).length / 1024 + 1) * 1024 < 2 ^ 32; omega)
  · rw [volume_bitmap hroom, vol_setInode hlt]

/-- What `main` leaves if there are inode numbers for all files. -/
theorem main_spec (hle : files.length + 2 ≤ NINODES) :
    Outcome (main files) (fun _ t => ∃ s c, Built s c ∧ c ROOTINO = direntBytes (entries files) ∧
      s.freeinode.toNat = files.length + 2 ∧ ∃ size : UInt32, size.toNat = roundedSize (c ROOTINO).length ∧
      volume sb t.file = s.vol.setDinode ROOTINO { s.vol.dinode ROOTINO with size }) (fun _ _ => True) .empty := by
  have hfirst : start.freeinode.toNat = 1 := rfl
  obtain ⟨s, hret, hs, hnext⟩ := ialloc_spec T_DIR.toUInt16 built_start (by rw [hfirst]; decide) (by decide)
  refine .bind_returns format_returns (.bind_returns hret ?_)
  refine .ite (fun hne => absurd rfl hne) fun _ => ?_
  rw [hfirst] at hnext
  have hroot : ∀ {s' : Image} {c'}, Built s' c' → s'.freeinode.toNat = 2 → (s'.vol.dinode ROOTINO).type ≠ 0 :=
    fun hs' hnext' => (hs'.type ROOTINO).mpr ⟨le_rfl, hnext' ▸ Nat.lt_succ_self 1⟩
  refine .bind (iappend_built hs (hroot hs hnext)) ?_
  rintro _ t ⟨ht, hsame⟩
  rw [← hsame] at hnext
  refine .bind (iappend_built ht (hroot ht hnext)) ?_
  rintro _ u ⟨hu, hsame'⟩
  rw [← hsame'] at hnext
  refine .bind (addFiles_spec hu (by omega) (by omega)) ?_
  rintro _ v ⟨c, hv, hentries, hlast⟩
  have htype : (v.vol.dinode ROOTINO).type ≠ 0 := (hv.type ROOTINO).mpr ⟨le_rfl, by
    rw [hlast, hnext]
    exact Nat.lt_add_right _ (Nat.lt_succ_self 1)⟩
  refine (finish_spec hv htype).mono ?_
  rintro _ w ⟨size, hsize, hvol⟩
  refine ⟨v, c, hv, ?_, by rw [hlast, hnext, Nat.add_comm], size, hsize, hvol⟩
  have hone : start.freeinode = ROOTINO := rfl
  rw [hentries, hnext, hone, Function.update_self, Function.update_self]
  rfl

end LabSO.Mkfs

import LabSO.Mkfs.Main

/-! When the image is well formed for the kernel. -/

namespace LabSO.Mkfs
open Kernel Program

variable {V : Volume} {m n : UInt32} {e j k w : Nat} {bytes : List UInt8} {l : List Dirent} {files : List HostFile}

/-! ### Entries and their bytes -/

/-- A list of pieces of equal length, piece by piece. -/
theorem getD_flatMap {α : Type} {f : α → List UInt8} (hf : ∀ x, (f x).length = w) (l : List α) (e : Nat) (hj : j < w) :
    (l.flatMap f).getD (w * e + j) 0 = ((l[e]?.map f).getD []).getD j 0 := by
  induction l generalizing e with
  | nil => simp
  | cons x l ih =>
    rw [List.flatMap_cons]
    cases e with
    | zero =>
      rw [Nat.mul_zero, Nat.zero_add, List.getD_append _ _ _ _ (by rw [hf]; exact hj)]
      rfl
    | succ e =>
      have hsucc : w * (e + 1) + j = w + (w * e + j) := by ring
      rw [hsucc, List.getD_append_right _ _ _ _ (by rw [hf]; exact Nat.le_add_right ..), hf, Nat.add_sub_cancel_left, ih]
      rfl

/-- The entry in the bytes of a directory, which are followed by zeros. -/
def direntAt (bytes : List UInt8) (off : Nat) : Dirent :=
  .ofBytes ((List.range sizeofDirent).map fun j => bytes.getD (off + j) 0)

theorem direntAt_direntBytes (h : e < l.length) : direntAt (direntBytes l) (sizeofDirent * e) = l[e] := by
  have hbytes : ((List.range sizeofDirent).map fun j => (direntBytes l).getD (sizeofDirent * e + j) 0) = l[e].toBytes := by
    apply List.ext_getElem
    · simp
    · intro j hj hj'
      rw [List.length_map, List.length_range] at hj
      rw [List.getElem_map, List.getElem_range, direntBytes, getD_flatMap Dirent.length_toBytes _ _ hj,
        List.getElem?_eq_getElem h]
      exact List.getD_eq_getElem _ _ hj'
  rw [direntAt, hbytes, Dirent.ofBytes_toBytes]

theorem inum_direntAt (h : l.length ≤ e) : (direntAt (direntBytes l) (sizeofDirent * e)).inum = 0 := by
  have hzero : ∀ j ∈ List.range sizeofDirent, (direntBytes l).getD (sizeofDirent * e + j) 0 = 0 := fun j hj => by
    rw [direntBytes, getD_flatMap Dirent.length_toBytes _ _ (List.mem_range.mp hj), List.getElem?_eq_none h]
    rfl
  rw [direntAt, List.map_congr_left hzero]
  rfl

theorem length_direntBytes (l : List Dirent) : (direntBytes l).length = sizeofDirent * l.length := by
  rw [direntBytes, List.length_flatMap]
  simp [Nat.mul_comm]

/-- An entry lies within a block, and where there is no block there are no bytes. -/
theorem dirent_eq {off : Nat} (h : V.Holds n bytes) (hzero : V.data 0 = .zero) (hdvd : sizeofDirent ∣ off) :
    V.dirent n off = direntAt bytes off := by
  have hdiv := Nat.div_add_mod' off BSIZE
  have hfits : off % BSIZE + sizeofDirent ≤ BSIZE := by
    obtain ⟨e, rfl⟩ := hdvd
    show 16 * e % 1024 + 16 ≤ 1024
    omega
  refine congrArg Dirent.ofBytes (List.map_congr_left fun j hj => ?_)
  rw [List.mem_range] at hj
  have hoff : off / BSIZE * BSIZE + (off % BSIZE + j) = off + j := by omega
  by_cases hne : V.block n (off / BSIZE) = 0
  · have hend : ¬off / BSIZE * BSIZE < bytes.length := fun hlt => (h.mapped _).mpr hlt hne
    rw [hne, hzero, Block.byte_zero, List.getD_eq_default]
    omega
  · rw [h.byte _ hne _ (by omega), hoff]

/-! ### Names -/

theorem strncmp_congr {p p' q q' : List UInt8} {w : Nat} (hp : ∀ i, i < w → p'.getD i 0 = p.getD i 0)
    (hq : ∀ i, i < w → q'.getD i 0 = q.getD i 0) : strncmp p' q' w = strncmp p q w := by
  induction w generalizing p p' q q' with
  | zero => rfl
  | succ w ih =>
    have hhead : ∀ r : List UInt8, r.headD 0 = r.getD 0 0 := fun r => by cases r <;> rfl
    have htail : ∀ (r : List UInt8) i, r.tail.getD i 0 = r.getD (i + 1) 0 := fun r i => by cases r <;> rfl
    have hrest : strncmp p'.tail q'.tail w = strncmp p.tail q.tail w := by
      refine ih (fun i hi => ?_) fun i hi => ?_
      · rw [htail, htail, hp _ (Nat.succ_lt_succ hi)]
      · rw [htail, htail, hq _ (Nat.succ_lt_succ hi)]
    simp only [strncmp, hhead, hp 0 (Nat.succ_pos w), hq 0 (Nat.succ_pos w), hrest]

theorem getD_named (name : List UInt8) (n : UInt32) {i : Nat} (hi : i < DIRSIZ) :
    (Dirent.named name n).name.toList.getD i 0 = name.getD i 0 := by
  simp [Dirent.named, strncpy, List.getD_eq_getElem?_getD, hi]

/-- What is compared of two entries is their names. -/
theorem namecmp_named (name name' : List UInt8) (n m : UInt32) :
    namecmp (Dirent.named name n).name.toList (Dirent.named name' m).name.toList = namecmp name name' :=
  strncmp_congr (fun _ => getD_named name n) fun _ => getD_named name' m

/-- The names in the root directory. -/
def names (files : List HostFile) : List (List UInt8) := [dot] :: [dot, dot] :: files.map HostFile.shortname

/-- The entry has the name, and an inode number below `next`. -/
def Names (next : Nat) (de : Dirent) (name : List UInt8) : Prop :=
  ∃ n : UInt32, de = .named name n ∧ 1 ≤ n.toNat ∧ n.toNat < next

theorem entriesFrom_names {next last : Nat} (hone : 1 ≤ next) (hlast : next + files.length ≤ last) (hle : last ≤ NINODES) :
    List.Forall₂ (Names last) (entriesFrom next files) (files.map HostFile.shortname) := by
  induction files generalizing next with
  | nil => exact .nil
  | cons f files ih =>
    rw [List.length_cons] at hlast
    have hlt : next < 200 := by
      have hmax : last ≤ 200 := hle
      omega
    have htoNat : (UInt32.ofNat next).toNat = next := Nat.mod_eq_of_lt (by omega)
    exact .cons ⟨.ofNat next, rfl, by rw [htoNat]; exact hone, by rw [htoNat]; omega⟩ (ih (by omega) (by omega))

theorem entries_names (hle : files.length + 2 ≤ NINODES) :
    List.Forall₂ (Names (files.length + 2)) (entries files) (names files) := by
  have hroot : ∀ name, Names (files.length + 2) (.named name ROOTINO) name := fun _ =>
    ⟨ROOTINO, rfl, le_rfl, Nat.lt_add_left _ (by decide)⟩
  exact .cons (hroot _) (.cons (hroot _) (entriesFrom_names (by decide) (Nat.add_comm ..).le hle))

/-! ### Well-formed images -/

/-- An entry of the root directory that is in use, at the offset `off`. -/
structure Entry (V : Volume) (off : Nat) (de : Dirent) : Prop where
  aligned : sizeofDirent ∣ off
  inside : off + sizeofDirent ≤ (V.dinode ROOTINO).size.toNat
  eq : V.dirent ROOTINO off = de
  used : de.inum ≠ 0

/-- The image is well formed for the kernel, for which it holds the volume `V`: the inodes are within the superblock's
    number, the blocks within its size, marked used and each for one place, the sizes do not go beyond the blocks, and
    the names in the root directory are distinct and name inodes that are allocated. -/
structure WellFormedVolume (V : Volume) (freeinode : UInt32) : Prop where
  inodes : ∀ n : UInt32, 1 ≤ n.toNat → n.toNat < freeinode.toNat → n.toNat < sb.ninodes.toNat
  blocks : ∀ p b, V.own p = some b → b.toNat < sb.size.toNat ∧ V.used b = true
  reserved : ∀ b : BlockNo, b.toNat < sb.dataStart → V.used b = true
  once : ∀ p q b, V.own p = some b → V.own q = some b → p = q
  noHole : ∀ n, (V.dinode n).type ≠ 0 → ∀ k, k * BSIZE < (V.dinode n).size.toNat → V.block n k ≠ 0
  distinct : ∀ off off' de de', off < off' → Entry V off de → Entry V off' de' →
    namecmp de.name.toList de'.name.toList ≠ 0
  named : ∀ off de, Entry V off de → (V.dinode (.ofNat de.inum.toNat)).type ≠ 0

def WellFormed (m : Image) : Prop := WellFormedVolume (volume sb m.file) m.freeinode

/-- There are inode numbers for all files, the entries of the root directory do not end with a block, and names that are
    compared as the kernel does differ. -/
def Fits (files : List HostFile) : Prop :=
  files.length + 2 ≤ NINODES ∧ ¬BSIZE ∣ sizeofDirent * (files.length + 2) ∧
    (names files).Pairwise fun name name' => namecmp name name' ≠ 0

instance (files : List HostFile) : Decidable (Fits files) := inferInstanceAs (Decidable (_ ∧ _ ∧ _))

variable {s t : Image} {c : UInt32 → List UInt8} {size : UInt32} {off : Nat} {de : Dirent}

/-- The volume when the root directory has its final size. -/
def Image.rounded (s : Image) (size : UInt32) : Volume := s.vol.setDinode ROOTINO { s.vol.dinode ROOTINO with size }

theorem type_rounded (n : UInt32) : ((s.rounded size).dinode n).type = (s.vol.dinode n).type := by
  by_cases hn : n = ROOTINO
  · subst hn
    rw [Image.rounded, Volume.dinode_setDinode]
  · rw [Image.rounded, Volume.dinode_setDinode_of_ne _ hn]

theorem block_rounded (n : UInt32) (k : Nat) : (s.rounded size).block n k = s.vol.block n k := by
  let d : Dinode := { s.vol.dinode ROOTINO with size }
  have haddrs : d.addrs = (s.vol.dinode ROOTINO).addrs := rfl
  rw [Image.rounded]
  exact Volume.block_setDinode haddrs n k

theorem size_rounded : ((s.rounded size).dinode ROOTINO).size = size := by rw [Image.rounded, Volume.dinode_setDinode]

theorem le_roundedSize (len : Nat) : len ≤ roundedSize len := by
  rw [roundedSize, Nat.mul_comm]
  exact (Nat.lt_mul_div_succ len (by decide)).le

/-- The last block of the rounded size exists unless the entries fill theirs. -/
theorem noHole_rounded (h : Built s c) (hroot : (s.vol.dinode ROOTINO).type ≠ 0)
    (hsize : size.toNat = roundedSize (c ROOTINO).length) :
    (∀ n, ((s.rounded size).dinode n).type ≠ 0 → ∀ k, k * BSIZE < ((s.rounded size).dinode n).size.toNat →
      (s.rounded size).block n k ≠ 0) ↔ ¬BSIZE ∣ (c ROOTINO).length := by
  have hmapped := (h.holds ROOTINO hroot).mapped
  have hmod := Nat.div_add_mod' (c ROOTINO).length BSIZE
  constructor
  · intro hall hdvd
    have hlt : (c ROOTINO).length / BSIZE * BSIZE < ((s.rounded size).dinode ROOTINO).size.toNat := by
      rw [size_rounded, hsize, roundedSize, Nat.succ_mul]
      exact Nat.lt_add_of_pos_right (by decide)
    have hne := hall ROOTINO (by rwa [type_rounded]) _ hlt
    rw [block_rounded, hmapped, Nat.div_mul_cancel hdvd] at hne
    exact Nat.lt_irrefl _ hne
  · intro hdvd n hn k hk
    rw [type_rounded] at hn
    rw [block_rounded]
    by_cases hn1 : n = ROOTINO
    · subst hn1
      rw [size_rounded, hsize, roundedSize] at hk
      have hle : k ≤ (c ROOTINO).length / BSIZE := Nat.lt_succ_iff.mp (Nat.lt_of_mul_lt_mul_right hk)
      have hpos : 0 < (c ROOTINO).length % BSIZE := Nat.emod_pos_of_not_dvd hdvd
      refine (hmapped k).mpr ((Nat.mul_le_mul_right _ hle).trans_lt ?_)
      omega
    · rw [Image.rounded, Volume.dinode_setDinode_of_ne _ hn1, h.size n hn] at hk
      exact ((h.holds n hn).mapped k).mpr hk

/-- The entries in use are those that were appended. -/
theorem entry_rounded (h : Built s c) (hroot : (s.vol.dinode ROOTINO).type ≠ 0) (hbytes : c ROOTINO = direntBytes l)
    (hsize : size.toNat = roundedSize (c ROOTINO).length) (hused : ∀ de ∈ l, de.inum ≠ 0) :
    Entry (s.rounded size) off de ↔ ∃ e, ∃ he : e < l.length, off = sizeofDirent * e ∧ de = l[e] := by
  have hholds : (s.rounded size).Holds ROOTINO (direntBytes l) :=
    hbytes ▸ (h.holds ROOTINO hroot).congr (block_rounded ROOTINO) fun _ _ => rfl
  have hzero : (s.rounded size).data 0 = .zero := rfl
  constructor
  · rintro ⟨⟨e, rfl⟩, -, heq, hne⟩
    rw [dirent_eq hholds hzero (Nat.dvd_mul_right ..)] at heq
    by_cases he : e < l.length
    · exact ⟨e, he, rfl, heq.symm.trans (direntAt_direntBytes he)⟩
    · exact absurd (inum_direntAt (Nat.not_lt.mp he)) (heq ▸ hne)
  · rintro ⟨e, he, rfl, rfl⟩
    refine ⟨Nat.dvd_mul_right .., ?_, ?_, hused _ (List.getElem_mem he)⟩
    · rw [size_rounded, hsize]
      refine le_trans ?_ (le_roundedSize _)
      rw [hbytes, length_direntBytes, ← Nat.mul_succ]
      exact Nat.mul_le_mul_left _ he
    · rw [dirent_eq hholds hzero (Nat.dvd_mul_right ..), direntAt_direntBytes he]

theorem Names.inum {next : Nat} {name : List UInt8} (h : Names next de name) (hle : next ≤ NINODES) :
    de.inum ≠ 0 ∧ 1 ≤ de.inum.toNat ∧ de.inum.toNat < next := by
  obtain ⟨n, rfl, hone, hlt⟩ := h
  have hn : n.toNat < 200 := hlt.trans_le hle
  have htoNat : n.toUInt16.toNat = n.toNat := by
    rw [UInt32.toNat_toUInt16]
    exact Nat.mod_eq_of_lt (by omega)
  refine ⟨fun h0 => ?_, ?_, ?_⟩
  · have hzero : n.toUInt16.toNat = 0 := congrArg UInt16.toNat h0
    omega
  · exact hone.trans_eq htoNat.symm
  · exact htoNat.trans_lt hlt

/-- The names that the kernel compares are those that `mkfs` was given. -/
theorem distinct_iff {next : Nat} {names : List (List UInt8)} (hnames : List.Forall₂ (Names next) l names)
    (hentry : ∀ off de, Entry V off de ↔ ∃ e, ∃ he : e < l.length, off = sizeofDirent * e ∧ de = l[e]) :
    (∀ off off' de de', off < off' → Entry V off de → Entry V off' de' → namecmp de.name.toList de'.name.toList ≠ 0) ↔
      names.Pairwise fun name name' => namecmp name name' ≠ 0 := by
  have hlen := hnames.length_eq
  have hcmp : ∀ i j (hi : i < l.length) (hj : j < l.length) (hi' : i < names.length) (hj' : j < names.length),
      namecmp l[i].name.toList l[j].name.toList = namecmp names[i] names[j] := by
    intro i j hi hj hi' hj'
    obtain ⟨n, hn, -⟩ := hnames.get hi hi'
    obtain ⟨m, hm, -⟩ := hnames.get hj hj'
    rw [List.get_eq_getElem] at hn hm
    rw [hn, hm, namecmp_named]
    rfl
  rw [List.pairwise_iff_getElem]
  constructor
  · intro hall i j hi hj hij
    rw [← hcmp i j (hlen ▸ hi) (hlen ▸ hj) hi hj]
    exact hall _ _ _ _ (Nat.mul_lt_mul_of_pos_left hij (by decide)) ((hentry _ _).mpr ⟨i, hlen ▸ hi, rfl, rfl⟩)
      ((hentry _ _).mpr ⟨j, hlen ▸ hj, rfl, rfl⟩)
  · intro hall off off' de de' hlt hde hde'
    obtain ⟨i, hi, rfl, rfl⟩ := (hentry _ _).mp hde
    obtain ⟨j, hj, rfl, rfl⟩ := (hentry _ _).mp hde'
    rw [hcmp i j hi hj (hlen ▸ hi) (hlen ▸ hj)]
    exact hall i j _ _ (Nat.lt_of_mul_lt_mul_left hlt)

theorem wellFormed_rounded {freeinode : UInt32} (h : Built s c) (hroot : c ROOTINO = direntBytes (entries files))
    (hnext : s.freeinode.toNat = files.length + 2) (hsize : size.toNat = roundedSize (c ROOTINO).length)
    (hfree : freeinode.toNat = files.length + 2) :
    WellFormedVolume (s.rounded size) freeinode ↔ Fits files := by
  have hle : files.length + 2 ≤ NINODES := hnext ▸ h.last
  have hnames := entries_names hle
  have htype : (s.vol.dinode ROOTINO).type ≠ 0 := (h.type ROOTINO).mpr ⟨le_rfl, by
    rw [hnext]
    exact Nat.lt_add_left _ (by decide)⟩
  have hlen : (c ROOTINO).length = sizeofDirent * (files.length + 2) := by
    rw [hroot, length_direntBytes, hnames.length_eq]
    simp [names]
  have hinum : ∀ e (he : e < (entries files).length),
      (entries files)[e].inum ≠ 0 ∧ 1 ≤ (entries files)[e].inum.toNat ∧ (entries files)[e].inum.toNat < files.length + 2 :=
    fun e he => (hnames.get he (hnames.length_eq ▸ he)).inum hle
  have hused : ∀ de ∈ entries files, de.inum ≠ 0 := fun de hde => by
    obtain ⟨e, he, rfl⟩ := List.getElem_of_mem hde
    exact (hinum e he).1
  have hentry : ∀ off de, Entry (s.rounded size) off de ↔
      ∃ e, ∃ he : e < (entries files).length, off = sizeofDirent * e ∧ de = (entries files)[e] :=
    fun off de => entry_rounded h htype hroot hsize hused
  have hhole := noHole_rounded h htype hsize
  have hdistinct := distinct_iff hnames hentry
  rw [hlen] at hhole
  constructor
  · exact fun hwf => ⟨hle, hhole.mp hwf.noHole, hdistinct.mp hwf.distinct⟩
  · rintro ⟨-, hdvd, hpairwise⟩
    have hexact : (s.rounded size).BlocksExact sb := h.exact.setDinode htype htype rfl
    refine ⟨fun n _ hn => ?_, fun p b hp => ?_, fun b hb => ?_, fun p q b hp hq => hexact.inj hp hq, hhole.mpr hdvd,
      hdistinct.mpr hpairwise, fun off de hde => ?_⟩
    · rw [hfree] at hn
      exact hn.trans_le hle
    · exact ⟨(hexact.mem hp).2, hexact.used_of_own hp⟩
    · exact decide_eq_true ((show b.toNat < nmeta from hb).trans_le h.room.first)
    · obtain ⟨e, he, -, rfl⟩ := (hentry _ _).mp hde
      obtain ⟨-, hone, hlt⟩ := hinum e he
      have htoNat : (UInt32.ofNat (entries files)[e].inum.toNat).toNat = (entries files)[e].inum.toNat :=
        Nat.mod_eq_of_lt ((UInt16.toNat_lt _).trans (by decide))
      rw [type_rounded, h.type, htoNat, hnext]
      exact ⟨hone, hlt⟩

theorem wellFormed_of_le {m : Image} (hle : files.length + 2 ≤ NINODES) (hret : Program.Returns (main files) Image.empty () m) :
    WellFormed m ↔ Fits files := by
  obtain ⟨s, c, hs, hroot, hnext, size, hsize, hvol⟩ := (main_spec hle).post hret
  rw [WellFormed, hvol]
  exact wellFormed_rounded hs hroot hnext hsize (main_counted.post hret)

/-- An image that is finished is well formed in these cases, and in no others. -/
theorem wellFormed_iff (files : List HostFile) (m : Image) (hret : Program.Returns (main files) Image.empty () m) :
    WellFormed m ↔ Fits files := by
  by_cases hle : files.length + 2 ≤ NINODES
  · exact wellFormed_of_le hle hret
  · refine iff_of_false (fun hwf => ?_) fun hfits => hle hfits.1
    have hlast : (UInt32.ofNat NINODES).toNat < sb.ninodes.toNat := by
      refine hwf.inodes _ (by decide) ?_
      rw [main_counted.post hret]
      exact Nat.not_le.mp hle
    exact Nat.lt_irrefl _ hlast

/-- A program that the build names `user/_ls`, of one byte. -/
def underscored : HostFile := ⟨[0x75, 0x73, 0x65, 0x72, 0x2f, 0x5f, 0x6c, 0x73], some [[7]]⟩

/-- A file `ls`, which is empty. -/
def plain : HostFile := ⟨[0x6c, 0x73], some []⟩

theorem wellFormed_iff_underscored : ∃ m, Program.Returns (main [underscored]) Image.empty () m ∧ WellFormed m := by
  have hret : (main [underscored] Image.empty).1.toBool = true := by
    rw [main, format_returns.bind_eq]
    decide +kernel
  obtain ⟨_, m, hm⟩ := Program.Returns.of_toBool hret
  exact ⟨m, hm, (wellFormed_iff [underscored] m hm).mpr (by decide)⟩

/-- Both files get the name `ls`. -/
theorem not_wellFormed_same_name : ∃ m, Program.Returns (main [underscored, plain]) Image.empty () m ∧ ¬WellFormed m := by
  have hret : (main [underscored, plain] Image.empty).1.toBool = true := by
    rw [main, format_returns.bind_eq]
    decide +kernel
  obtain ⟨_, m, hm⟩ := Program.Returns.of_toBool hret
  refine ⟨m, hm, fun hwf => ?_⟩
  have hfits := (wellFormed_of_le (by decide) hm).mp hwf
  exact absurd hfits (by decide)

end LabSO.Mkfs

import LabSO.Kernel.FsArrayRun
import LabSO.Kernel.Sysfile
import LabSO.Lib.Parts
import LabSO.Lib.Slots

/-! Directories as finite maps from names to inode numbers. A name counts as far as an entry holds it. -/

namespace LabSO.Kernel
open Program

variable {sb : Superblock} {s t u : Fs} {dp i : Fin NINODE} {name name' : List UInt8} {k n off : Nat} {bytes : List UInt8}
  {de : Dirent}

/-! ### Names -/

/-- What an entry holds of a name: its first bytes, up to a 0. -/
def element (name : List UInt8) : List UInt8 := (strncpy name DIRSIZ).takeWhile (· != 0)

theorem strncpy_succ (name : List UInt8) (n : Nat) : strncpy name (n + 1) = name.headD 0 :: strncpy name.tail n := by
  rw [strncpy, strncpy, List.range_succ_eq_map, List.map_cons, List.map_map]
  cases name <;> rfl

/-- Of a string, these are the first `DIRSIZ` bytes. -/
theorem element_eq_take (h : 0 ∉ name) : element name = name.take DIRSIZ := by
  unfold element
  generalize DIRSIZ = n
  induction n generalizing name with
  | zero => rfl
  | succ n ih =>
    rw [strncpy_succ]
    cases name with
    | nil => rfl
    | cons b name =>
      rw [List.mem_cons, not_or] at h
      rw [List.headD_cons, List.tail_cons, List.takeWhile_cons, if_pos (by simpa using Ne.symm h.1), ih h.2,
        List.take_succ_cons]

theorem strncmp_eq_zero {p q : List UInt8} :
    strncmp p q n = 0 ↔ (strncpy p n).takeWhile (· != 0) = (strncpy q n).takeWhile (· != 0) := by
  induction n generalizing p q with
  | zero => exact iff_of_true rfl rfl
  | succ n ih =>
    rw [strncmp, strncpy_succ, strncpy_succ, List.takeWhile_cons, List.takeWhile_cons]
    by_cases heq : p.headD 0 = q.headD 0
    · rw [← heq]
      generalize p.headD 0 = c
      by_cases h0 : c = 0
      · simp [h0]
      · simp [h0, ih]
    · rw [if_neg fun h => heq h.2]
      refine iff_of_false (fun hsub => heq (UInt8.toNat_inj.mp (by omega))) fun hlists => ?_
      split at hlists <;> split at hlists
      · exact heq (List.cons.inj hlists).1
      · cases hlists
      · cases hlists
      · next hp hq =>
        refine heq ?_
        rw [bne_iff_ne, not_not] at hp hq
        rw [hp, hq]

theorem namecmp_eq_zero : namecmp name name' = 0 ↔ element name = element name' := strncmp_eq_zero

/-- Strings are compared on their first `DIRSIZ` bytes. -/
theorem namecmp_eq_zero_iff_take (h : 0 ∉ name) (h' : 0 ∉ name') :
    namecmp name name' = 0 ↔ name.take DIRSIZ = name'.take DIRSIZ := by
  rw [namecmp_eq_zero, element_eq_take h, element_eq_take h']

theorem strncpy_strncpy (name : List UInt8) (n : Nat) : strncpy (strncpy name n) n = strncpy name n := by
  refine List.map_congr_left fun i hi => ?_
  rw [List.mem_range] at hi
  simp [strncpy, List.getD_eq_getElem?_getD, hi]

/-- What an entry maps: its name, if it is not free. -/
def Dirent.key (de : Dirent) : Option (List UInt8) := if de.inum = 0 then none else some (element de.name.toList)

theorem Dirent.key_eq_none : de.key = none ↔ de.inum = 0 := by simp [key]

theorem Dirent.key_eq_some : de.key = some (element name) ↔ de.inum ≠ 0 ∧ namecmp name de.name.toList = 0 := by
  rw [namecmp_eq_zero, key]
  split
  · next h => simp [h]
  · next h => simp [h, eq_comm]

theorem Dirent.toList_named (name : List UInt8) (inum : UInt32) : (Dirent.named name inum).name.toList = strncpy name DIRSIZ := by
  have hlen : (strncpy name DIRSIZ).length = DIRSIZ := by simp [strncpy]
  refine List.ext_getElem (by simp [hlen]) fun i hi hi' => ?_
  simp only [Vector.getElem_toList, named, Vector.getElem_ofFn]
  exact List.getD_eq_getElem _ _ hi'

theorem Dirent.key_named {inum : UInt32} (h : inum.toUInt16 ≠ 0) : (Dirent.named name inum).key = some (element name) := by
  have hinum : ¬(named name inum).inum = 0 := h
  rw [key, if_neg hinum, toList_named, element, strncpy_strncpy, element]

/-! ### Entries -/

/-- The entries of a directory with these bytes. -/
def entries (bytes : List UInt8) : List Dirent :=
  (List.range (bytes.length / sizeofDirent)).map fun k => .ofBytes ((bytes.drop (k * sizeofDirent)).take sizeofDirent)

@[simp] theorem length_entries (bytes : List UInt8) : (entries bytes).length = bytes.length / sizeofDirent := by
  simp [entries]

theorem getElem?_entries (h : k < bytes.length / sizeofDirent) :
    (entries bytes)[k]? = some (.ofBytes ((bytes.drop (k * sizeofDirent)).take sizeofDirent)) := by
  rw [entries, List.getElem?_map, List.getElem?_range h]
  rfl

theorem Dirent.ofBytes_congr {l l' : List UInt8} (h : ∀ j, j < sizeofDirent → l.getD j 0 = l'.getD j 0) :
    Dirent.ofBytes l = .ofBytes l' := by
  rw [ofBytes, ofBytes, h 0 (by decide), h 1 (by decide), Dirent.mk.injEq]
  refine ⟨rfl, Vector.ext fun j hj => ?_⟩
  rw [Vector.getElem_ofFn, Vector.getElem_ofFn]
  exact h (2 + j) (Nat.add_lt_add_left hj 2)

theorem getD_take_drop {j : Nat} (h : j < n) : ((bytes.drop off).take n).getD j 0 = bytes.getD (off + j) 0 := by
  simp [List.getD_eq_getElem?_getD, h]

/-- An entry is written, perhaps after the others. -/
theorem entries_splice (hdvd : sizeofDirent ∣ bytes.length) (hk : k ≤ bytes.length / sizeofDirent) (de : Dirent) :
    entries (splice bytes (k * sizeofDirent) de.toBytes) = Slots.put (entries bytes) k de := by
  obtain ⟨m, hm⟩ := hdvd
  rw [hm, Nat.mul_div_cancel_left _ (by decide)] at hk
  have hsize : sizeofDirent = 16 := rfl
  rw [hsize] at hm ⊢
  have hle : k * 16 ≤ bytes.length := by omega
  have hlen : (splice bytes (k * 16) de.toBytes).length = max (16 * m) (k * 16 + 16) := by
    rw [length_splice hle, de.length_toBytes, hm, hsize]
  refine List.ext_getElem? fun j => ?_
  rw [Slots.getElem?_put (by rw [length_entries, hsize]; omega)]
  by_cases hj : j < max (16 * m) (k * 16 + 16) / 16
  · rw [getElem?_entries (by rw [hlen, hsize]; exact hj)]
    split
    · next heq =>
      subst heq
      rw [← de.ofBytes_toBytes]
      refine congrArg some (Dirent.ofBytes_congr fun i hi => ?_)
      rw [hsize] at hi ⊢
      rw [de.ofBytes_toBytes, getD_take_drop hi, getD_splice hle, de.length_toBytes, hsize, if_pos (by omega),
        Nat.add_sub_cancel_left]
    · next hne =>
      rw [getElem?_entries (by rw [hsize]; omega)]
      refine congrArg some (Dirent.ofBytes_congr fun i hi => ?_)
      rw [hsize] at hi ⊢
      rw [getD_take_drop hi, getD_take_drop hi, getD_splice hle, de.length_toBytes, hsize, if_neg (by omega)]
  · rw [List.getElem?_eq_none (by rw [length_entries, hlen, hsize]; omega), if_neg (by omega),
      List.getElem?_eq_none (by rw [length_entries, hsize]; omega)]

/-! ### Directories -/

/-- The entry is the copy of a directory that is in use, whose content is a whole number of entries. -/
structure IsDirectory (sb : Superblock) (s : Fs) (dp : Fin NINODE) : Prop extends Current sb s dp where
  ref : 0 < (s.itable dp).ref
  directory : (s.itable dp).type = T_DIR
  size_le : (s.itable dp).size.toNat ≤ MAXFILE * BSIZE
  dvd : sizeofDirent ∣ (s.itable dp).size.toNat

/-- The entries of the directory. -/
def Fs.dirents (s : Fs) (sb : Superblock) (dp : Fin NINODE) : List Dirent := entries ((s.vol sb).content (s.itable dp).inum)

/-- A directory in which no two entries have one name. -/
structure IsMap (sb : Superblock) (s : Fs) (dp : Fin NINODE) : Prop extends IsDirectory sb s dp where
  distinct : Slots.Distinct Dirent.key (s.dirents sb dp)

/-- The inode number under a name, and the offset of its entry. -/
def Fs.lookup (s : Fs) (sb : Superblock) (dp : Fin NINODE) (name : List UInt8) : Option (UInt32 × UInt32) :=
  (Slots.find Dirent.key (element name) (s.dirents sb dp)).map fun x => (.ofNat x.2.inum.toNat, .ofNat (x.1 * sizeofDirent))

/-- `dirlookup` takes a reference to the inode with this number and reports this offset, or finds nothing. -/
def Finds (sb : Superblock) (s : Fs) (dp : Fin NINODE) (name : List UInt8) : Option (UInt32 × UInt32) → Prop
  | none => Program.Returns (dirlookup sb dp name) s none s
  | some (inum, off) => dirlookup sb dp name s = (do
      let ip ← iget inum
      return some (ip, off)) s

theorem IsDirectory.length_content (h : IsDirectory sb s dp) :
    ((s.vol sb).content (s.itable dp).inum).length = (s.itable dp).size.toNat := by
  rw [Volume.length_content, h.size_eq]

theorem IsDirectory.length_dirents (h : IsDirectory sb s dp) :
    (s.dirents sb dp).length * sizeofDirent = (s.itable dp).size.toNat := by
  rw [Fs.dirents, length_entries, h.length_content, Nat.div_mul_cancel h.dvd]

/-- The offset of an entry, or of the end. -/
theorem IsDirectory.toNat_off (h : IsDirectory sb s dp) (hk : k ≤ (s.dirents sb dp).length) :
    (UInt32.ofNat (k * sizeofDirent)).toNat = k * sizeofDirent := by
  refine UInt32.toNat_ofNat_of_lt (lt_of_le_of_lt ?_ (UInt32.toNat_lt (s.itable dp).size))
  rw [← h.length_dirents]
  exact Nat.mul_le_mul_right _ hk

/-- Where a scan ends that has found the entry. -/
def scanned (size : Nat) : Option (Nat × Dirent) → Nat × Option Dirent
  | some (k, de) => (k * sizeofDirent, some de)
  | none => (size, none)

theorem IsDirectory.scanDirents_returns (h : IsDirectory sb s dp) (msg : String) (stop : Dirent → Bool)
    (hk : k ≤ (s.dirents sb dp).length) :
    Program.Returns (scanDirents sb dp msg stop (s.itable dp).size.toNat (k * sizeofDirent)) s
      (scanned (s.itable dp).size.toNat (Slots.firstFrom stop k ((s.dirents sb dp).drop k))) s := by
  have hlen := h.length_dirents
  induction hleft : (s.dirents sb dp).length - k generalizing k with
  | zero =>
    have heq : k = (s.dirents sb dp).length := by omega
    rw [scanDirents, if_neg (by rw [heq, hlen]; exact Nat.lt_irrefl _), heq, hlen, List.drop_length]
    exact .pure
  | succ left ih =>
    have hlt : k < (s.dirents sb dp).length := by omega
    have hnext : (k + 1) * sizeofDirent ≤ (s.itable dp).size.toNat := hlen ▸ Nat.mul_le_mul_right _ hlt
    rw [Nat.succ_mul] at hnext
    have hpos : 0 < sizeofDirent := by decide
    have hoff := h.toNat_off hk
    have hsmall : (UInt32.ofNat sizeofDirent).toNat = sizeofDirent := rfl
    have hin : UInt32.ofNat (k * sizeofDirent) ≤ (s.itable dp).size := UInt32.le_iff_toNat_le.mpr (by omega)
    have hsum : (UInt32.ofNat (k * sizeofDirent)).toNat + (UInt32.ofNat sizeofDirent).toNat < 2 ^ 32 := by
      have := h.size_le
      have : MAXFILE * BSIZE < 2 ^ 32 := by decide
      omega
    have hread := h.readi_returns h.size_le hin hsum
    rw [hoff, hsmall] at hread
    have hin' : k < ((s.vol sb).content (s.itable dp).inum).length / sizeofDirent := by rwa [← length_entries]
    have hentry := getElem?_entries hin'
    have hdrop : (s.dirents sb dp).drop k = .ofBytes ((((s.vol sb).content (s.itable dp).inum).drop
        (k * sizeofDirent)).take sizeofDirent) :: (s.dirents sb dp).drop (k + 1) := by
      rw [List.drop_eq_getElem_cons hlt]
      exact congrArg (· :: _) (List.getElem_eq_iff _ |>.mpr hentry)
    rw [scanDirents, if_pos (by omega), hdrop, Slots.firstFrom]
    refine hread.bind ?_
    rw [if_neg (not_not.mpr (by rw [List.length_take, List.length_drop, h.length_content]; omega))]
    split
    · exact .pure
    · rw [← Nat.succ_mul]
      exact ih hlt (by omega)

theorem IsDirectory.scan_all (h : IsDirectory sb s dp) (msg : String) (stop : Dirent → Bool) :
    Program.Returns (scanDirents sb dp msg stop (s.itable dp).size.toNat 0) s
      (scanned (s.itable dp).size.toNat (Slots.firstFrom stop 0 (s.dirents sb dp))) s := by
  simpa using h.scanDirents_returns msg stop (Nat.zero_le _)

theorem IsDirectory.finds (h : IsDirectory sb s dp) (name : List UInt8) : Finds sb s dp name (s.lookup sb dp name) := by
  have hstop : ∀ de : Dirent, (de.inum ≠ 0 && namecmp name de.name.toList = 0 : Bool) =
      decide (de.key = some (element name)) := fun de => by simp [Dirent.key_eq_some]
  have hscan := h.scan_all "dirlookup read" fun de => de.inum ≠ 0 && namecmp name de.name.toList = 0
  rw [Slots.firstFrom_congr hstop] at hscan
  have hrun : dirlookup sb dp name s = _ := inode_returns.bind_eq
  rw [if_neg (not_not.mpr h.directory), hscan.bind_eq] at hrun
  rw [Fs.lookup, Slots.find]
  cases hfind : Slots.firstFrom (fun de => decide (Dirent.key de = some (element name))) 0 (s.dirents sb dp) with
  | none =>
    rw [hfind] at hrun
    exact hrun
  | some x =>
    rw [hfind] at hrun
    exact hrun

/-! ### Writing an entry -/

/-- The directory is one still, and the other inodes have the contents that they had. -/
structure DirectoryStays (sb : Superblock) (s : Fs) (dp : Fin NINODE) (t : Fs) : Prop extends IsDirectory sb t dp where
  same : (t.itable dp).inum = (s.itable dp).inum
  others : ∀ m, m ≠ (s.itable dp).inum → ((s.vol sb).dinode m).type ≠ 0 → (t.vol sb).content m = (s.vol sb).content m

theorem IsDirectory.congr (h : IsDirectory sb s dp) (hstore : t.store = s.store) (hself : t.itable dp = s.itable dp) :
    DirectoryStays sb s dp t ∧ t.dirents sb dp = s.dirents sb dp := by
  obtain ⟨⟨⟨log, exact, marked, type⟩, cached, inum_lt, noHole⟩, ref, directory, size_le, dvd⟩ := h
  have hvol : t.vol sb = s.vol sb := by rw [Fs.vol, hstore, Fs.vol]
  have hcur : t.cur sb dp = s.cur sb dp := by rw [Fs.cur, hvol, hself, Fs.cur]
  rw [← hcur] at exact
  refine ⟨?_, by rw [Fs.dirents, hvol, hself, Fs.dirents]⟩
  refine ⟨?_, by rw [hself], fun m _ _ => by rw [hvol]⟩
  rw [← hself] at type cached inum_lt noHole ref directory size_le dvd
  rw [← hvol] at marked cached noHole
  exact ⟨⟨⟨hstore ▸ log, exact, marked, type⟩, cached, inum_lt, noHole⟩, ref, directory, size_le, dvd⟩

theorem dirent_fits (hk : sizeofDirent ∣ off) : off % BSIZE + sizeofDirent ≤ BSIZE := by
  obtain ⟨m, rfl⟩ := hk
  have hsize : sizeofDirent = 16 := rfl
  have hblock : BSIZE = 1024 := rfl
  rw [hsize, hblock]
  omega

/-- `writei` of an entry writes all of it, or there is no block for it and it changes nothing; there is one for an entry
    that exists. -/
theorem IsDirectory.writei (hsb : sb.Ordered) (h : IsDirectory sb s dp) (de : Dirent) (hk : k ≤ (s.dirents sb dp).length) :
    Wp Tolerated (writei sb dp (.kernel de.toBytes) (.ofNat (k * sizeofDirent)) (.ofNat sizeofDirent)) (fun r t =>
      DirectoryStays sb s dp t ∧ (r = sizeofDirent ∧ t.dirents sb dp = Slots.put (s.dirents sb dp) k de ∨
        r ≠ sizeofDirent ∧ k = (s.dirents sb dp).length ∧ t.dirents sb dp = s.dirents sb dp)) s := by
  have hlen := h.length_dirents
  have hoff := h.toNat_off hk
  have hn : (UInt32.ofNat sizeofDirent).toNat = sizeofDirent := rfl
  have hle : k * sizeofDirent ≤ (s.itable dp).size.toNat := hlen ▸ Nat.mul_le_mul_right _ hk
  have hfits := dirent_fits (Nat.dvd_mul_left sizeofDirent k)
  have hmax := h.size_le
  -- an entry that exists has its block
  have hexists : k < (s.dirents sb dp).length → (s.vol sb).block (s.itable dp).inum (k * sizeofDirent / BSIZE) ≠ 0 ∧
      k * sizeofDirent + sizeofDirent ≤ (s.itable dp).size.toNat := by
    intro hlt
    have hnext : (k + 1) * sizeofDirent ≤ (s.itable dp).size.toNat := hlen ▸ Nat.mul_le_mul_right _ hlt
    rw [Nat.succ_mul] at hnext
    have hpos : 0 < sizeofDirent := by decide
    exact ⟨h.mapped hmax _ (by omega), hnext⟩
  by_cases hrej : Rejects (s.itable dp).size (.ofNat (k * sizeofDirent)) (.ofNat sizeofDirent)
  · refine .of_returns (writei_rejects hrej) ⟨⟨h, rfl, fun _ _ _ => rfl⟩, Or.inr ⟨by decide, ?_, rfl⟩⟩
    by_contra hne
    obtain ⟨-, hnext⟩ := hexists (by omega)
    refine absurd hrej ?_
    have hbound : MAXFILE * BSIZE < 2 ^ 32 := by decide
    have hadd : ¬(UInt32.ofNat (k * sizeofDirent) + UInt32.ofNat sizeofDirent < .ofNat (k * sizeofDirent)) := fun hlt => by
      have := add_lt_iff.mp hlt
      omega
    refine not_or.mpr ⟨fun hgt => ?_, not_or.mpr ⟨hadd, fun hgt => ?_⟩⟩
    · rw [gt_iff_lt, UInt32.lt_iff_toNat_lt] at hgt
      omega
    · rw [toNat_add_of_not_lt hadd] at hgt
      omega
  obtain ⟨-, -, hend⟩ := not_rejects hrej
  have hhas : Source.Has (.kernel de.toBytes) (UInt32.ofNat sizeofDirent).toNat := de.length_toBytes.ge
  refine (writei_stores hsb h.toCurrent hhas hrej).mono ?_
  rintro _ t ⟨l, data, rfl, hw, hloop⟩
  rw [hoff] at hw hloop
  rw [hn] at hloop
  have hinum := hw.inum
  have hover := hw.overwrites
  have hle' : l ≤ data.length := hloop.le_length hhas
  have hothers := fun m (hm : m ≠ (s.itable dp).inum) (htype : ((s.vol sb).dinode m).type ≠ 0) => hover.otherContent hm htype
  have hsize := hw.size
  have htype : (t.itable dp).type = T_DIR := by
    rw [hw.self]
    exact h.directory
  have href : 0 < (t.itable dp).ref := by
    rw [hw.self]
    exact h.ref
  have hcontent : data.length = l → (t.vol sb).content (t.itable dp).inum =
      splice ((s.vol sb).content (s.itable dp).inum) (k * sizeofDirent) data := by
    intro hall
    rw [hinum]
    refine hover.content (by rwa [h.size_eq]) (fun p hp => h.mapped hmax p (by rwa [h.size_eq] at hp)) ?_
    rw [h.size_eq, ← hinum, hw.current.size_eq, hsize, hall]
  have hbytes : k ≤ ((s.vol sb).content (s.itable dp).inum).length / sizeofDirent := by
    rwa [← length_entries]
  cases hloop with
  | all full =>
    have hdata : (Source.kernel de.toBytes).bytes sizeofDirent = de.toBytes := by
      show de.toBytes.take sizeofDirent = _
      rw [← de.length_toBytes, List.take_length]
    rw [hdata] at hcontent
    refine ⟨⟨⟨hw.current, href, htype, ?_, ?_⟩, hinum, hothers⟩, Or.inl ⟨rfl, ?_⟩⟩
    · rw [hsize]
      rw [hoff, hn] at hend
      omega
    · rw [hsize]
      rcases Nat.le_total (s.itable dp).size.toNat (k * sizeofDirent + sizeofDirent) with hge | hge
      · rw [Nat.max_eq_right hge]
        exact Nat.dvd_add (Nat.dvd_mul_left ..) dvd_rfl
      · rw [Nat.max_eq_left hge]
        exact h.dvd
    · rw [Fs.dirents, hcontent de.length_toBytes]
      exact entries_splice (by rw [h.length_content]; exact h.dvd) hbytes de
  | noBlock lt full zero =>
    -- with its first byte the whole entry is stored
    have hzero : l = 0 := by
      by_contra hne
      obtain ⟨hblock, -⟩ := hover.stored (k * sizeofDirent) (Nat.le_refl _) (by omega)
      rw [(div_mod_within (k * sizeofDirent) l (by omega)).1] at zero
      exact hblock zero
    subst hzero
    rw [Source.bytes_zero] at hcontent hover
    have hsame : (t.itable dp).size.toNat = (s.itable dp).size.toNat := by
      rw [hsize]
      omega
    refine ⟨⟨⟨hw.current, href, htype, hsame ▸ hmax, hsame ▸ h.dvd⟩, hinum, hothers⟩, Or.inr ⟨by decide, ?_, ?_⟩⟩
    · by_contra hne
      obtain ⟨hblock, -⟩ := hexists (by omega)
      rw [Nat.add_zero] at zero
      exact hblock ((hover.block _ hblock).symm.trans zero)
    · rw [Fs.dirents, hcontent rfl, splice_nil, Fs.dirents]
  | fault lt full fails => cases fails

/-! ### `dirlink` -/

/-- What `iget` does to the table: one more reference to an entry, or an entry that nobody refers to begins. -/
structure Takes (n : UInt32) (s : Fs) (i : Fin NINODE) (t : Fs) : Prop where
  store : t.store = s.store
  other : ∀ j, j ≠ i → t.itable j = s.itable j
  self : 0 < (s.itable i).ref ∧ t.itable i = { s.itable i with ref := (s.itable i).ref + 1 } ∨
    (s.itable i).ref = 0 ∧ t.itable i = { s.itable i with inum := n, ref := 1, valid := false }

theorem iget_takes (n : UInt32) : Outcome (iget n) (Takes n s)
    (fun e _ => e = .panic "iget: no inodes" ∧ ∀ j, (s.itable j).ref ≠ 0) s := by
  rcases hfind : (List.finRange NINODE).find? fun i => 0 < (s.itable i).ref && (s.itable i).inum == n with _ | i
  · rcases hempty : (List.finRange NINODE).find? fun i => (s.itable i).ref == 0 with _ | i
    · have hhalt : Program.Halts (iget n) s (.panic "iget: no inodes") s := by
        simp only [Program.Halts, iget, hfind, hempty]
      exact .of_halts hhalt ⟨rfl, fun j => by simpa using List.find?_eq_none.mp hempty j (List.mem_finRange j)⟩
    · have hret : Program.Returns (iget n) s i (s.setInode i { s.itable i with inum := n, ref := 1, valid := false }) := by
        simp only [Program.Returns, iget, hfind, hempty]
      have hzero : (s.itable i).ref = 0 := by simpa using List.find?_some hempty
      exact .of_returns hret ⟨rfl, fun j hj => Fs.itable_setInode_of_ne _ _ hj, Or.inr ⟨hzero, Fs.itable_setInode_self ..⟩⟩
  · have hret : Program.Returns (iget n) s i (s.setInode i { s.itable i with ref := (s.itable i).ref + 1 }) := by
      simp only [Program.Returns, iget, hfind]
    have hi : 0 < (s.itable i).ref ∧ (s.itable i).inum = n := by simpa using List.find?_some hfind
    exact .of_returns hret ⟨rfl, fun j hj => Fs.itable_setInode_of_ne _ _ hj, Or.inl ⟨hi.1, Fs.itable_setInode_self ..⟩⟩

/-- A reference that is not the last, or to an inode that was not read, goes back. -/
theorem iput_returns (h : ¬((s.itable i).ref = 1 ∧ (s.itable i).valid = true ∧ (s.itable i).nlink = 0)) :
    Program.Returns (iput sb i) s () (s.setInode i { s.itable i with ref := (s.itable i).ref - 1 }) :=
  inode_returns.bind (Program.Returns.bind (.onlyIf_not h) rfl)

theorem IsDirectory.lookup_put (hdistinct : Slots.Distinct Dirent.key (s.dirents sb dp)) {inum : UInt32}
    (hinum : inum ≠ 0) (hlt : inum.toNat < 2 ^ 16) (hk : k ≤ (s.dirents sb dp).length)
    (hfree : ∀ de, (s.dirents sb dp)[k]? = some de → de.inum = 0) (hnone : s.lookup sb dp name = none)
    (hput : t.dirents sb dp = Slots.put (s.dirents sb dp) k (.named name inum)) :
    Slots.Distinct Dirent.key (t.dirents sb dp) ∧ ∀ name', t.lookup sb dp name' =
      if namecmp name' name = 0 then some (inum, .ofNat (k * sizeofDirent)) else s.lookup sb dp name' := by
  have hnum : inum.toUInt16.toNat = inum.toNat := by rw [UInt32.toNat_toUInt16, Nat.mod_eq_of_lt hlt]
  have hne : inum.toUInt16 ≠ 0 := fun h0 => hinum (UInt32.toNat_inj.mp (by rw [← hnum, h0]; rfl))
  have hkey : (Dirent.named name inum).key = some (element name) := Dirent.key_named hne
  have hnew : Slots.find Dirent.key (element name) (s.dirents sb dp) = none := Option.map_eq_none_iff.mp hnone
  have hback : UInt32.ofNat (Dirent.named name inum).inum.toNat = inum := by
    show UInt32.ofNat inum.toUInt16.toNat = inum
    rw [hnum, UInt32.ofNat_toNat]
  constructor
  · rw [hput]
    refine hdistinct.put hk fun key hde => ?_
    rw [hkey, Option.some.injEq] at hde
    rw [← hde, hnew]
  · intro name'
    rw [Fs.lookup, hput, hdistinct.find_put hk (fun de hde => Dirent.key_eq_none.mpr (hfree de hde)) hkey hnew]
    simp only [← namecmp_eq_zero]
    split
    · rw [Option.map_some, hback]
    · rfl

/-- What `dirlink` returns, and what it leaves. -/
structure Links (sb : Superblock) (s : Fs) (dp : Fin NINODE) (name : List UInt8) (inum : UInt32) (r : Int) (t : Fs) : Prop
    extends DirectoryStays sb s dp t where
  distinct : Slots.Distinct Dirent.key (t.dirents sb dp)
  lookup : r = 0 ∧ s.lookup sb dp name = none ∧ (∃ off, ∀ name', t.lookup sb dp name' =
      if namecmp name' name = 0 then some (inum, off) else s.lookup sb dp name') ∨
    r = -1 ∧ ∀ name', t.lookup sb dp name' = s.lookup sb dp name'

theorem IsMap.dirlink {inum : UInt32} (hsb : sb.Ordered) (h : IsMap sb s dp) (hinum : inum ≠ 0) (hlt : inum.toNat < 2 ^ 16) :
    Wp Tolerated (dirlink sb dp name inum) (Links sb s dp name inum) s := by
  have hfinds := h.finds name
  have hsame : ∀ {u r}, DirectoryStays sb s dp u → u.dirents sb dp = s.dirents sb dp → r = -1 →
      Links sb s dp name inum r u := fun hstays heq hr =>
    ⟨hstays, heq ▸ h.distinct, Or.inr ⟨hr, fun name' => by rw [Fs.lookup, heq, Fs.lookup]⟩⟩
  cases hlook : s.lookup sb dp name with
  | some x =>
    obtain ⟨n, off⟩ := x
    rw [hlook] at hfinds
    have htakes : Wp Tolerated (iget n) (Takes n s) s := .of_outcome (iget_takes n) fun e _ he => by
      rw [he.1]
      simp [Tolerated]
    refine .seq (.congr hfinds (.bind htakes ?_))
    rintro i t ⟨hstore, hother, htaken⟩
    have hnot : ¬((t.itable i).ref = 1 ∧ (t.itable i).valid = true ∧ (t.itable i).nlink = 0) := by
      rcases htaken with ⟨hpos, heq⟩ | ⟨-, heq⟩
      · rw [heq]
        dsimp only
        omega
      · simp [heq]
    refine .pure (.seq (.of_returns (iput_returns hnot) (.pure ?_)))
    have hself : (t.setInode i { t.itable i with ref := (t.itable i).ref - 1 }).itable dp = s.itable dp := by
      by_cases hi : dp = i
      · subst hi
        rcases htaken with ⟨-, heq⟩ | ⟨h0, -⟩
        · rw [Fs.itable_setInode_self, heq]
          simp
        · exact absurd h0 h.ref.ne'
      · rw [Fs.itable_setInode_of_ne _ _ hi, hother dp hi]
    obtain ⟨hstays, hdirents⟩ := h.toIsDirectory.congr (t := t.setInode i _) hstore hself
    exact hsame hstays hdirents rfl
  | none =>
    rw [hlook] at hfinds
    refine .seq (.of_returns hfinds (inode_bind (.seq (.of_returns (h.scan_all "dirlink read" _) ?_))))
    obtain ⟨k, hk, hfree, hscan⟩ : ∃ k, k ≤ (s.dirents sb dp).length ∧
        (∀ de, (s.dirents sb dp)[k]? = some de → de.inum = 0) ∧ (scanned (s.itable dp).size.toNat
          (Slots.firstFrom (fun de => decide (de.inum = 0)) 0 (s.dirents sb dp))).1 = k * sizeofDirent := by
      cases hfirst : Slots.firstFrom (fun de : Dirent => decide (de.inum = 0)) 0 (s.dirents sb dp) with
      | some x =>
        obtain ⟨j, hj, hget, hzero⟩ := Slots.firstFrom_some (i := x.1) (a := x.2) hfirst
        rw [Nat.zero_add] at hj
        rw [← hj] at hget
        refine ⟨x.1, (List.getElem?_eq_some_iff.mp hget).1.le, fun de hde => ?_, rfl⟩
        rw [hget, Option.some.injEq] at hde
        exact hde ▸ of_decide_eq_true hzero
      | none =>
        refine ⟨_, Nat.le_refl _, fun de hde => ?_, h.length_dirents.symm⟩
        rw [List.getElem?_eq_none (Nat.le_refl _)] at hde
        cases hde
    generalize scanned _ _ = x at hscan ⊢
    obtain ⟨off, found⟩ := x
    subst hscan
    refine .bind (h.toIsDirectory.writei hsb (.named name inum) hk) ?_
    rintro r u ⟨hstays, ⟨rfl, hput⟩ | ⟨hne, -, heq⟩⟩
    · obtain ⟨hdistinct, hlookup⟩ := IsDirectory.lookup_put h.distinct hinum hlt hk hfree hlook hput
      exact .pure ⟨hstays, hdistinct, Or.inl ⟨by decide, hlook, _, hlookup⟩⟩
    · exact .pure (hsame hstays heq (if_pos hne))

/-! ### Erasing an entry -/

/-- What is left after the entry of a name is erased. -/
structure Erases (sb : Superblock) (s : Fs) (dp : Fin NINODE) (name : List UInt8) (t : Fs) : Prop
    extends DirectoryStays sb s dp t where
  distinct : Slots.Distinct Dirent.key (t.dirents sb dp)
  lookup : ∀ name', t.lookup sb dp name' = if namecmp name' name = 0 then none else s.lookup sb dp name'

theorem Dirent.key_zero : Dirent.zero.key = none := if_pos rfl

theorem IsMap.erase {inum off : UInt32} (hsb : sb.Ordered) (h : IsMap sb s dp)
    (hfound : s.lookup sb dp name = some (inum, off)) :
    Wp Tolerated (writei sb dp (.kernel Dirent.zero.toBytes) off (.ofNat sizeofDirent)) (fun r t =>
      r = sizeofDirent ∧ Erases sb s dp name t) s := by
  obtain ⟨x, hfind, hx⟩ := Option.map_eq_some_iff.mp hfound
  obtain ⟨k, de⟩ := x
  obtain ⟨hget, hkey⟩ := Slots.find_some hfind
  obtain ⟨hlt, -⟩ := List.getElem?_eq_some_iff.mp hget
  cases hx
  refine (h.toIsDirectory.writei hsb .zero hlt.le).mono ?_
  rintro r t ⟨hstays, ⟨rfl, hput⟩ | ⟨-, hend, -⟩⟩
  · refine ⟨rfl, hstays, ?_, fun name' => ?_⟩
    · rw [hput]
      refine h.distinct.put hlt.le fun key hzero => ?_
      rw [Dirent.key_zero] at hzero
      cases hzero
    · rw [Fs.lookup, hput, h.distinct.find_free hget hkey Dirent.key_zero]
      simp only [← namecmp_eq_zero]
      split <;> rfl
  · exact absurd hend hlt.ne

/-! ### The finite map -/

/-- A directory acts as a finite map: `dirlink` enters a name that is not there, or changes nothing; with its entry erased a
    name goes, and no other. -/
structure ActsAsMap (sb : Superblock) (s : Fs) (dp : Fin NINODE) : Prop where
  finds : ∀ name, Finds sb s dp name (s.lookup sb dp name)
  links : ∀ (name : List UInt8) (inum : UInt32) (r : Int) (t : Fs), inum ≠ 0 → inum.toNat < 2 ^ 16 →
    Program.Returns (dirlink sb dp name inum) s r t →
    Links sb s dp name inum r t ∧ ∀ name', Finds sb t dp name' (t.lookup sb dp name')
  erases : ∀ (name : List UInt8) (inum off : UInt32) (r : Int) (t : Fs), s.lookup sb dp name = some (inum, off) →
    Program.Returns (writei sb dp (.kernel Dirent.zero.toBytes) off (.ofNat sizeofDirent)) s r t →
    r = sizeofDirent ∧ Erases sb s dp name t ∧ ∀ name', Finds sb t dp name' (t.lookup sb dp name')

theorem acts_as_map (hsb : sb.Ordered) (h : IsMap sb s dp) : ActsAsMap sb s dp where
  finds := h.finds
  links name inum r t hinum hlt hcall := by
    have hlinks := (h.dirlink hsb hinum hlt).post hcall
    exact ⟨hlinks, hlinks.toIsDirectory.finds⟩
  erases name inum off r t hfound hcall := by
    obtain ⟨hr, herases⟩ := (h.erase hsb hfound).post hcall
    exact ⟨hr, herases, herases.toIsDirectory.finds⟩

theorem Block.read_write_dirent (b : Block) (de : Dirent) : (b.write 0 de.toBytes).read 0 sizeofDirent = de.toBytes := by
  have hread : (b.write 0 de.toBytes).read 0 de.toBytes.length = de.toBytes := Block.read_write (by
    rw [de.length_toBytes]
    decide)
  rwa [de.length_toBytes] at hread

/-- Within an operation, a root directory that names itself. -/
def dotDirectory : Fs :=
  (Volume.single .small T_DIR 16 (Block.zero.write 0 (Dirent.named [0x2e] ROOTINO).toBytes)).opened .small ROOTINO

theorem dotVolume_ok : (Volume.single .small T_DIR 16 (Block.zero.write 0 (Dirent.named [0x2e] ROOTINO).toBytes)).Ok .small := by
  refine Volume.single_ok Superblock.small_ordered (by decide) (by decide) (by decide) fun _ off hdvd hle => ?_
  have hzero : off = 0 := by
    have hsize : sizeofDirent = 16 := rfl
    have hle : off + sizeofDirent ≤ 16 := hle
    omega
  subst hzero
  rw [Block.read_write_dirent, Dirent.ofBytes_toBytes]
  exact show (1 : Nat) < 16 by decide

theorem dotDirectory_inv : Inv .small dotDirectory (dotDirectory.vol .small) {⟨0, by decide⟩} 0 :=
  Volume.opened_inv Superblock.small_ordered (Volume.single_bounded Superblock.small_ordered (by decide)) dotVolume_ok (by decide)
    (by decide)

theorem dotDirectory_isMap : IsMap .small dotDirectory ⟨0, by decide⟩ := by
  have hdir : IsDirectory .small dotDirectory ⟨0, by decide⟩ :=
    ⟨dotDirectory_inv.current (by decide) rfl, by decide, rfl, by decide, by decide⟩
  refine ⟨hdir, fun i j a b key hi hj _ _ => ?_⟩
  have hlen := hdir.length_dirents
  obtain ⟨hi, -⟩ := List.getElem?_eq_some_iff.mp hi
  obtain ⟨hj, -⟩ := List.getElem?_eq_some_iff.mp hj
  have hsize : (dotDirectory.itable ⟨0, by decide⟩).size.toNat = 16 := rfl
  have hentry : sizeofDirent = 16 := rfl
  rw [hsize, hentry] at hlen
  omega

theorem acts_as_map_dot : ActsAsMap .small dotDirectory ⟨0, by decide⟩ := acts_as_map Superblock.small_ordered dotDirectory_isMap

end LabSO.Kernel

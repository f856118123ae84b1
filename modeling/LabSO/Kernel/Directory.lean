import LabSO.Kernel.Inode

/-! Directories and path names of `fs.c`. A string is the list of its bytes before the terminating 0. -/

namespace LabSO.Kernel
open Program

/-! ### Names -/

def strncmp (p q : List UInt8) : Nat → Int
  | 0 => 0
  | n + 1 =>
    if p.headD 0 ≠ 0 ∧ p.headD 0 = q.headD 0 then strncmp p.tail q.tail n else (p.headD 0).toNat - (q.headD 0).toNat

def namecmp (s t : List UInt8) : Int := strncmp s t DIRSIZ

/-- The `n` bytes that `strncpy` writes: those of `t`, then zeros. -/
def strncpy (t : List UInt8) (n : Nat) : List UInt8 := (List.range n).map fun i => t.getD i 0

def Dirent.named (name : List UInt8) (inum : UInt32) : Dirent where
  inum := inum.toUInt16
  name := Vector.ofFn fun i => (strncpy name DIRSIZ).getD i 0

/-- The byte of `'/'`. -/
def slash : UInt8 := 0x2f

/-- The next element of a path, cut off after `DIRSIZ` bytes, and the path after it. -/
def skipelem (path : List UInt8) : Option (List UInt8 × List UInt8) :=
  let s := path.dropWhile (· == slash)
  if s = [] then none
  else some ((s.takeWhile (· != slash)).take DIRSIZ, (s.dropWhile (· != slash)).dropWhile (· == slash))

theorem skipelem_length_lt {path name rest : List UInt8} (h : skipelem path = some (name, rest)) :
    rest.length < path.length := by
  unfold skipelem at h
  simp only at h
  split at h
  · cases h
  · next hne =>
    obtain ⟨rfl, rfl⟩ := Prod.mk.inj (Option.some.inj h)
    obtain ⟨c, s, hs⟩ := List.exists_cons_of_ne_nil hne
    have hc : (c != slash) = true := by
      have hhead := List.head?_dropWhile_not (· == slash) path
      rw [hs] at hhead
      simpa using hhead
    calc
      (((path.dropWhile (· == slash)).dropWhile (· != slash)).dropWhile (· == slash)).length
        ≤ ((path.dropWhile (· == slash)).dropWhile (· != slash)).length := (List.dropWhile_sublist _).length_le
      _ ≤ s.length := by
        rw [hs, List.dropWhile_cons, if_pos hc]
        exact (List.dropWhile_sublist _).length_le
      _ < (path.dropWhile (· == slash)).length := by simp [hs]
      _ ≤ path.length := (List.dropWhile_sublist _).length_le

variable (sb : Superblock)

/-! ### Directories -/

/-- A loop over the entries of a directory of `size` bytes, from `off` on: the offset at which it ends, and the entry for
    which it is left by `stop`. -/
def scanDirents (dp : Fin NINODE) (msg : String) (stop : Dirent → Bool) (size off : Nat) : FsProg (Nat × Option Dirent) :=
  if off < size then do
    let bytes ← readi sb dp (.ofNat off) (.ofNat sizeofDirent)
    if bytes.length ≠ sizeofDirent then halt (.panic msg)
    else if stop (.ofBytes bytes) then return (off, some (.ofBytes bytes))
    else scanDirents dp msg stop size (off + sizeofDirent)
  else return (off, none)
termination_by size - off
decreasing_by
  have : 0 < sizeofDirent := by decide
  omega

/-- Look for a directory entry in a directory: its inode, and the byte offset of the entry. -/
def dirlookup (dp : Fin NINODE) (name : List UInt8) : FsProg (Option (Fin NINODE × UInt32)) := do
  let ip ← inode dp
  if ip.type ≠ T_DIR then halt (.panic "dirlookup not DIR")
  else do
    let found ← scanDirents sb dp "dirlookup read" (fun de => de.inum ≠ 0 && namecmp name de.name.toList = 0) ip.size.toNat 0
    match found with
    | (_, none) => return none
    | (off, some de) => do
      let ip ← iget (.ofNat de.inum.toNat)
      return some (ip, .ofNat off)

/-- Write a new directory entry into the directory `dp`; 0 on success, -1 on failure (e.g. out of disk blocks). -/
def dirlink (dp : Fin NINODE) (name : List UInt8) (inum : UInt32) : FsProg Int := do
  let found ← dirlookup sb dp name
  match found with
  | some (ip, _) => do
    iput sb ip
    return -1
  | none => do
    let ip ← inode dp
    let (off, _) ← scanDirents sb dp "dirlink read" (fun de => de.inum = 0) ip.size.toNat 0
    let r ← writei sb dp (.kernel (Dirent.named name inum).toBytes) (.ofNat off) (.ofNat sizeofDirent)
    return if r ≠ sizeofDirent then -1 else 0

/-- Is the directory `dp` empty except for "." and ".."? -/
def isdirempty (dp : Fin NINODE) : FsProg Bool := do
  let ip ← inode dp
  let (_, found) ← scanDirents sb dp "isdirempty: readi" (fun de => de.inum ≠ 0) ip.size.toNat (2 * sizeofDirent)
  return found.isNone

/-! ### Paths -/

/-- The loop of `namex` at the inode `ip`, with `path` left. -/
def namexFrom (parent : Bool) (ip : Fin NINODE) (path : List UInt8) : FsProg (Option (Fin NINODE × List UInt8)) :=
  match _h : skipelem path with
  | none =>
    if parent then do
      iput sb ip
      return none
    else return some (ip, [])
  | some (name, path) => do
    ilock sb ip
    let x ← inode ip
    if x.type ≠ T_DIR then do
      iunlockput sb ip
      return none
    else if parent ∧ path = [] then do
      iunlock ip
      return some (ip, name)
    else do
      let next ← dirlookup sb ip name
      match next with
      | none => do
        iunlockput sb ip
        return none
      | some (next, _) => do
        iunlockput sb ip
        namexFrom parent next path
termination_by path.length
decreasing_by exact skipelem_length_lt _h

/-- The inode for a path name, or with `parent` the inode for the parent and the final path element; `cwd` is where the
    process is. -/
def namex (cwd : Fin NINODE) (path : List UInt8) (parent : Bool) : FsProg (Option (Fin NINODE × List UInt8)) := do
  let ip ← if path.head? = some slash then iget ROOTINO else idup cwd
  namexFrom sb parent ip path

def namei (cwd : Fin NINODE) (path : List UInt8) : FsProg (Option (Fin NINODE)) := do
  let found ← namex sb cwd path false
  return found.map Prod.fst

def nameiparent (cwd : Fin NINODE) (path : List UInt8) : FsProg (Option (Fin NINODE × List UInt8)) :=
  namex sb cwd path true

end LabSO.Kernel

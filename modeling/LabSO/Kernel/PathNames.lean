import LabSO.Kernel.DirectoryMap
import Mathlib.Data.List.DropRight

/-! Path names as lists of names, and what they name in a tree of directories. -/

namespace LabSO.Kernel

variable {path name rest w : List UInt8} {names : List (List UInt8)}

/-! ### Names of a path -/

/-- The maximal runs of bytes other than `'/'`. -/
def runs (path : List UInt8) : List (List UInt8) := (path.splitOnP (· == slash)).filter (· ≠ [])

theorem runs_append_slash (p q : List UInt8) : runs (p ++ slash :: q) = runs p ++ runs q := by
  have hslash : (slash == slash) = true := beq_self_eq_true slash
  rw [runs, List.splitOnP_append_cons (p := (· == slash)) p q hslash, List.filter_append, runs, runs]

theorem runs_nil : runs [] = [] := by simp [runs]

theorem runs_slash (q : List UInt8) : runs (slash :: q) = runs q := by
  rw [← List.nil_append (slash :: q), runs_append_slash, runs_nil, List.nil_append]

theorem runs_dropWhile (p : List UInt8) : runs (p.dropWhile (· == slash)) = runs p := by
  induction p with
  | nil => rfl
  | cons c p ih =>
    rw [List.dropWhile_cons]
    split
    · next hc =>
      obtain rfl := eq_of_beq hc
      rw [ih, runs_slash]
    · rfl

/-- Bytes other than `'/'` are one run. -/
theorem runs_word (hne : w ≠ []) (h : ∀ c ∈ w, (c != slash) = true) : runs w = [w] := by
  rw [runs, List.splitOnP_eq_singleton fun c hc => by simpa using h c hc]
  simp [hne]

/-- The first run, and those after it. -/
theorem runs_cons (hne : w ≠ []) (h : ∀ c ∈ w, (c != slash) = true) (hrest : rest.head? = none ∨ rest.head? = some slash) :
    runs (w ++ rest) = w :: runs rest := by
  cases rest with
  | nil => rw [List.append_nil, runs_word hne h, runs_nil]
  | cons c rest =>
    have hc : c = slash := by simpa using hrest
    rw [hc, runs_append_slash, runs_word hne h, runs_slash]
    rfl

/-- The names that `skipelem` finds in a path, one after the other. -/
def elements (path : List UInt8) : List (List UInt8) :=
  match _h : skipelem path with
  | none => []
  | some (name, rest) => name :: elements rest
termination_by path.length
decreasing_by exact skipelem_length_lt _h

theorem elements_none (h : skipelem path = none) : elements path = [] := by
  rw [elements]
  split
  · rfl
  · next heq => rw [h] at heq; cases heq

theorem elements_some (h : skipelem path = some (name, rest)) : elements path = name :: elements rest := by
  rw [elements]
  split
  · next heq => rw [h] at heq; cases heq
  · next heq =>
    rw [h, Option.some.injEq, Prod.mk.injEq] at heq
    rw [heq.1, heq.2]

theorem head?_dropWhile_slash (p : List UInt8) (c : UInt8) (h : (p.dropWhile (· == slash)).head? = some c) :
    (c != slash) = true := by
  have hhead := List.head?_dropWhile_not (· == slash) p
  rw [h] at hhead
  simpa using hhead

/-- `skipelem` finds the first run, and leaves the others. -/
theorem skipelem_some (h : skipelem path = some (name, rest)) :
    ∃ run, name = run.take DIRSIZ ∧ runs path = run :: runs rest ∧ rest.dropWhile (· == slash) = rest := by
  unfold skipelem at h
  simp only at h
  split at h
  · cases h
  next hne =>
  obtain ⟨rfl, rfl⟩ := Prod.mk.inj (Option.some.inj h)
  generalize hs : path.dropWhile (· == slash) = s at hne
  obtain ⟨c, s', rfl⟩ := List.exists_cons_of_ne_nil hne
  have hc := head?_dropWhile_slash path c (by rw [hs]; rfl)
  have hruns := runs_dropWhile path
  rw [hs] at hruns
  refine ⟨(c :: s').takeWhile (· != slash), rfl, ?_, List.dropWhile_idempotent _ _⟩
  rw [runs_dropWhile, ← hruns]
  conv_lhs => rw [← List.takeWhile_append_dropWhile (p := (· != slash)) (l := c :: s')]
  refine runs_cons ?_ (fun d hd => List.mem_takeWhile_imp (p := (· != slash)) hd) ?_
  · simp [hc]
  · have hhead := List.head?_dropWhile_not (· != slash) (c :: s')
    cases hd : ((c :: s').dropWhile (· != slash)).head? with
    | none => exact Or.inl rfl
    | some d =>
      rw [hd] at hhead
      right
      simpa using hhead

theorem skipelem_none (h : skipelem path = none) : runs path = [] := by
  unfold skipelem at h
  simp only at h
  split at h
  · next hnil => rw [← runs_dropWhile, hnil, runs_nil]
  · cases h

/-- `skipelem` finds the runs in order, each cut off after `DIRSIZ` bytes. -/
theorem elements_eq (path : List UInt8) : elements path = (runs path).map (·.take DIRSIZ) := by
  induction hlen : path.length using Nat.strong_induction_on generalizing path with
  | _ n ih =>
    cases h : skipelem path with
    | none => rw [elements_none h, skipelem_none h, List.map_nil]
    | some x =>
      obtain ⟨name, rest⟩ := x
      obtain ⟨run, rfl, hruns, -⟩ := skipelem_some h
      rw [elements_some h, hruns, List.map_cons, ih _ (hlen ▸ skipelem_length_lt h) rest rfl]

/-- Nothing is left of a path after its last element. -/
theorem elements_rest (h : skipelem path = some (name, rest)) : elements rest = [] ↔ rest = [] := by
  obtain ⟨-, -, -, hdrop⟩ := skipelem_some h
  constructor
  · intro hnil
    by_contra hne
    have hsome : skipelem rest ≠ none := by
      unfold skipelem
      simp [hdrop, hne]
    obtain ⟨⟨name', rest'⟩, hx⟩ := Option.ne_none_iff_exists'.mp hsome
    rw [elements_some hx] at hnil
    cases hnil
  · rintro rfl
    exact elements_none rfl

/-! ### The tree of directories -/

namespace Volume
variable {V : Volume} {n m : UInt32} {parent : Bool}

/-- The inode number under a name in an inode that is a directory. -/
def lookup (V : Volume) (n : UInt32) (name : List UInt8) : Option UInt32 :=
  if (V.dinode n).type = T_DIR then
    (Slots.find Dirent.key (element name) (entries (V.content n))).map fun x => .ofNat x.2.inum.toNat
  else none

/-- The inode number where the names lead from the inode `n`. -/
def resolve (V : Volume) (n : UInt32) (names : List (List UInt8)) : Option UInt32 := names.foldlM V.lookup n

/-- The directory where the names but for the last lead, with the last. -/
def resolveParent (V : Volume) (n : UInt32) : List (List UInt8) → Option (UInt32 × List UInt8)
  | [] => none
  | name :: names =>
    if (V.dinode n).type ≠ T_DIR then none
    else if names = [] then some (n, name)
    else (V.lookup n name).bind fun m => V.resolveParent m names

theorem resolve_cons (name : List UInt8) (names : List (List UInt8)) :
    V.resolve n (name :: names) = (V.lookup n name).bind fun m => V.resolve m names := by
  rw [resolve, List.foldlM_cons]
  rfl

theorem resolveParent_append (name : List UInt8) : V.resolveParent n (names ++ [name]) =
    (V.resolve n names).bind fun d => if (V.dinode d).type = T_DIR then some (d, name) else none := by
  induction names generalizing n with
  | nil =>
    show (if _ then _ else _) = _
    simp only [resolve, List.foldlM_nil, if_pos]
    by_cases hdir : (V.dinode n).type = T_DIR
    · simp [hdir]
    · simp [hdir]
  | cons first names ih =>
    rw [List.cons_append, resolveParent, resolve_cons, if_neg (show ¬names ++ [name] = [] by simp)]
    by_cases hdir : (V.dinode n).type = T_DIR
    · rw [if_neg (not_not.mpr hdir)]
      cases V.lookup n first with
      | none => rfl
      | some m => exact ih
    · rw [if_pos hdir, lookup, if_neg hdir]
      rfl

/-- The whole path leads where the last name leads from there. -/
theorem resolve_append (name : List UInt8) : V.resolve n (names ++ [name]) = (V.resolve n names).bind fun d => V.lookup d name := by
  rw [resolve, List.foldlM_append]
  simp [resolve]

end Volume

end LabSO.Kernel

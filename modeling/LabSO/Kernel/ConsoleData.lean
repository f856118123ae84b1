import LabSO.Kernel.Console
import Mathlib

/-! What goes through the console: the buffer holds the input that is typed and not read yet, also when the indices wrap
    around, and reads get the committed input in order. -/

namespace LabSO.Console
open Monitor Transition

variable {n : Nat} {η : Type} {b b' : Data} {x : ReadCall} {got : List UInt8} {c : UInt8} {k k' : Point}

/-! ### Typing -/

def Data.line (b : Data) : Line := typed b.keys

theorem typed_concat (keys : List Key) (key : Key) : typed (keys ++ [key]) = (typed keys).edit key := by
  rw [typed, List.foldl_append]
  rfl

/-- Nothing that was committed is changed or lost by what is typed afterwards. -/
theorem committed_edit (l : Line) (key : Key) : l.committed <+: (l.edit key).committed := by
  cases key with
  | erase => exact List.prefix_refl _
  | kill => exact List.prefix_refl _
  | char c full =>
    rw [Line.edit]
    split
    · exact List.prefix_append _ _
    · exact List.prefix_refl _

/-! ### The buffer -/

/-- The copies to the readers succeed. -/
def Copies (P : Request → Prop) : Prop := ∀ len fault, P (.read len fault) → 0 < len ∧ fault = none

structure Ok (b : Data) : Prop where
  r : b.cons.r = .ofNat b.consumed.length
  w : b.cons.w = .ofNat b.line.committed.length
  e : b.cons.e = .ofNat (b.line.committed.length + b.line.tail.length)
  taken : b.consumed <+: b.line.committed
  fits : b.line.committed.length + b.line.tail.length ≤ b.consumed.length + INPUT_BUF_SIZE
  kept : ∀ j c, b.consumed.length ≤ j → (b.line.committed ++ b.line.tail)[j]? = some c → b.cons.buf (j % INPUT_BUF_SIZE) = c
  /-- What can still be edited is part of one line. -/
  open_tail : ∀ c ∈ b.line.tail, ¬Ends c
  delivered : b.delivered = b.consumed.filter (· ≠ C 'D')

theorem ofNat_eq_iff {i j : Nat} : UInt32.ofNat i = UInt32.ofNat j ↔ i % 2 ^ 32 = j % 2 ^ 32 := by
  rw [← UInt32.toNat_inj, UInt32.toNat_ofNat', UInt32.toNat_ofNat']

theorem toNat_sub_ofNat {i j : Nat} (hle : i ≤ j) (hlt : j < i + 2 ^ 32) : (UInt32.ofNat j - UInt32.ofNat i).toNat = j - i := by
  rw [UInt32.toNat_sub, UInt32.toNat_ofNat', UInt32.toNat_ofNat']
  omega

theorem at_ofNat (s : Cons) (j : Nat) : s.at (.ofNat j) = s.buf (j % INPUT_BUF_SIZE) := by
  rw [Cons.at, UInt32.toNat_ofNat', Nat.mod_mod_of_dvd _ (by decide)]

theorem Ok.consumed_le (h : Ok b) : b.consumed.length ≤ b.line.committed.length := h.taken.length_le

theorem Ok.fits' (h : Ok b) : b.line.committed.length + b.line.tail.length ≤ b.consumed.length + 128 := h.fits

theorem Ok.waiting (h : Ok b) : (b.cons.w - b.cons.r).toNat = b.line.committed.length - b.consumed.length := by
  have hle := h.consumed_le
  have hfits := h.fits'
  rw [h.w, h.r, toNat_sub_ofNat hle (by omega)]

theorem Ok.used (h : Ok b) :
    (b.cons.e - b.cons.r).toNat = b.line.committed.length + b.line.tail.length - b.consumed.length := by
  have hle := h.consumed_le
  have hfits := h.fits'
  rw [h.e, h.r, toNat_sub_ofNat (by omega) (by omega)]

theorem Ok.editable (h : Ok b) : (b.cons.e - b.cons.w).toNat = b.line.tail.length := by
  have hfits := h.fits'
  have hle := h.consumed_le
  rw [h.e, h.w, toNat_sub_ofNat (by omega) (by omega)]
  omega

theorem Ok.empty_iff (h : Ok b) : b.cons.r = b.cons.w ↔ b.consumed.length = b.line.committed.length := by
  have hle := h.consumed_le
  have hfits := h.fits'
  rw [h.r, h.w, ofNat_eq_iff]
  constructor
  · intro heq
    omega
  · exact fun heq => by rw [heq]

theorem Ok.tail_iff (h : Ok b) : b.cons.e ≠ b.cons.w ↔ b.line.tail ≠ [] := by
  have hle := h.consumed_le
  have hfits := h.fits'
  rw [h.e, h.w, ne_eq, ofNat_eq_iff, ne_eq, ← List.length_eq_zero_iff]
  omega

/-- The byte that a reader takes is the next one that was committed. -/
theorem Ok.next (h : Ok b) (hne : b.cons.r ≠ b.cons.w) : b.line.committed[b.consumed.length]? = some (b.cons.at b.cons.r) := by
  have hle := h.consumed_le
  rw [ne_eq, h.empty_iff] at hne
  have hlt : b.consumed.length < b.line.committed.length := by omega
  have hget : (b.line.committed ++ b.line.tail)[b.consumed.length]? = some b.line.committed[b.consumed.length] := by
    rw [List.getElem?_append_left hlt, List.getElem?_eq_getElem hlt]
  rw [List.getElem?_eq_getElem hlt, h.r, at_ofNat, h.kept _ _ (Nat.le_refl _) hget]

/-- The committed bytes in the buffer, from the next to be read on. -/
def Cons.contents (s : Cons) : List UInt8 := (List.range (s.w - s.r).toNat).map fun j => s.at (s.r + .ofNat j)

/-- What was committed is what was taken, and then what the buffer holds for the readers. -/
theorem Ok.contents (h : Ok b) : b.consumed ++ b.cons.contents = b.line.committed := by
  obtain ⟨rest, hrest⟩ := h.taken
  have hlength : b.line.committed.length = b.consumed.length + rest.length := by rw [← hrest, List.length_append]
  suffices hcontents : b.cons.contents = rest by rw [hcontents, hrest]
  have hwait : (b.cons.w - b.cons.r).toNat = rest.length := by
    rw [h.waiting]
    omega
  refine List.ext_getElem (by simp [Cons.contents, hwait]) fun j _ hj => ?_
  simp only [Cons.contents, List.getElem_map, List.getElem_range]
  have hget : (b.line.committed ++ b.line.tail)[b.consumed.length + j]? = some rest[j] := by
    rw [List.getElem?_append_left (by omega), ← hrest, List.getElem?_append_right (Nat.le_add_right _ _),
      Nat.add_sub_cancel_left, List.getElem?_eq_getElem hj]
  rw [h.r, ← UInt32.ofNat_add, at_ofNat, h.kept _ _ (Nat.le_add_right _ _) hget]

theorem ok_fresh : Ok fresh where
  r := rfl
  w := rfl
  e := rfl
  taken := List.nil_prefix
  fits := Nat.zero_le _
  kept j c _ hc := by cases hc
  open_tail := nofun
  delivered := rfl

/-! ### Taking a byte -/

/-- A reader takes the next byte, and gets it unless it is the end of the file. -/
theorem Ok.take (h : Ok b) (hne : b.cons.r ≠ b.cons.w) {delivered : List UInt8}
    (hd : delivered = if b.cons.at b.cons.r = C 'D' then b.delivered else b.delivered ++ [b.cons.at b.cons.r]) :
    Ok { b with
      cons := { b.cons with r := b.cons.r + 1 }
      consumed := b.consumed ++ [b.cons.at b.cons.r]
      delivered } where
  r := by
    show b.cons.r + 1 = .ofNat (b.consumed ++ [_]).length
    rw [h.r, List.length_append, UInt32.ofNat_add]
    rfl
  w := h.w
  e := h.e
  taken := by
    show b.consumed ++ [b.cons.at b.cons.r] <+: b.line.committed
    obtain ⟨rest, hrest⟩ := h.taken
    have hnext := h.next hne
    rw [← hrest, List.getElem?_append_right (Nat.le_refl _), Nat.sub_self] at hnext
    cases rest with
    | nil => cases hnext
    | cons y rest =>
      have hy : y = b.cons.at b.cons.r := Option.some.inj hnext
      exact ⟨rest, by rw [← hy]; simpa using hrest⟩
  fits := by
    have hfits := h.fits
    rw [List.length_append]
    exact Nat.le_trans hfits (by omega)
  kept j c hj hc := by
    have hj' : (b.consumed ++ [b.cons.at b.cons.r]).length ≤ j := hj
    rw [List.length_append] at hj'
    exact h.kept j c (by omega) hc
  open_tail := h.open_tail
  delivered := by
    rw [hd, h.delivered, List.filter_append]
    split
    · next heq => simp [heq]
    · next hneq => simp [hneq]

/-! ### Editing -/

theorem line_concat {key : Key} (hkeys : b'.keys = b.keys ++ [key]) : b'.line = b.line.edit key := by
  rw [Data.line, hkeys, typed_concat]
  rfl

/-- A change of the tail that only drops its end. -/
theorem Ok.shrink (key : Key) (l : List UInt8) (h : Ok b) (hcons : b'.cons = { b.cons with e := .ofNat (b.line.committed.length + l.length) })
    (hkeys : b'.keys = b.keys ++ [key]) (hconsumed : b'.consumed = b.consumed) (hdelivered : b'.delivered = b.delivered)
    (hline : b.line.edit key = { b.line with tail := l }) (hl : l <+: b.line.tail) : Ok b' := by
  have hline' : b'.line = { b.line with tail := l } := (line_concat hkeys).trans hline
  have hle := hl.length_le
  obtain ⟨rest, hrest⟩ := hl
  refine ⟨?_, ?_, ?_, ?_, ?_, fun j c hj hc => ?_, fun c hc => ?_, ?_⟩
  · rw [hcons, hconsumed, ← h.r]
  · rw [hcons, hline', ← h.w]
  · rw [hcons, hline']
  · rw [hconsumed, hline']
    exact h.taken
  · rw [hconsumed, hline']
    exact Nat.le_trans (Nat.add_le_add_left hle _) h.fits
  · rw [hconsumed] at hj
    rw [hline'] at hc
    rw [hcons]
    refine h.kept j c hj ?_
    rw [← hrest, ← List.append_assoc, List.getElem?_append_left (List.getElem?_eq_some_iff.mp hc).1]
    exact hc
  · rw [hline'] at hc
    exact h.open_tail c (hrest ▸ List.mem_append_left rest hc)
  · rw [hdelivered, hconsumed]
    exact h.delivered

/-- `^U` takes back all that is not committed. -/
theorem killLine_eq {m : Nat} {l : List UInt8} (s : Cons) (hw : s.w = .ofNat m) (he : s.e = .ofNat (m + l.length))
    (hfits : l.length < 2 ^ 32) (hkept : ∀ j c, l[j]? = some c → s.at (.ofNat (m + j)) = c) (hopen : newline ∉ l) :
    s.killLine l.length = { s with e := s.w } := by
  induction l using List.reverseRecOn generalizing s with
  | nil =>
    have heq : s.e = s.w := by rw [he, hw, List.length_nil, Nat.add_zero]
    exact congrArg (fun i => ({ s with e := i } : Cons)) heq
  | append_singleton l c ih =>
    rw [List.length_append, List.length_singleton] at he hfits
    have hprev : s.e - 1 = .ofNat (m + l.length) := by
      rw [he, ← Nat.add_assoc, UInt32.ofNat_add, ← UInt32.toNat_inj]
      simp
    have hne : s.e ≠ s.w := by
      rw [he, hw, ne_eq, ofNat_eq_iff]
      omega
    have hlast : s.at (s.e - 1) = c := by
      rw [hprev]
      exact hkept l.length c (by simp)
    have hc : c ≠ newline := fun heq => hopen (by simp [heq])
    rw [List.length_append, List.length_singleton, Cons.killLine, if_pos ⟨hne, hlast ▸ hc⟩]
    refine ih { s with e := s.e - 1 } hw hprev (by omega) (fun j d hd => ?_) fun hin => hopen (List.mem_append_left _ hin)
    refine hkept j d ?_
    rwa [List.getElem?_append_left (List.getElem?_eq_some_iff.mp hd).1]

theorem Ok.kill (h : Ok b) :
    Ok { b with cons := b.cons.killLine (b.cons.e - b.cons.w).toNat, keys := b.keys ++ [.kill] } := by
  have hfits := h.fits'
  have hle := h.consumed_le
  have hkill : b.cons.killLine b.line.tail.length = { b.cons with e := b.cons.w } := by
    refine killLine_eq b.cons h.w h.e (by omega) (fun j c hc => ?_) fun hin => h.open_tail _ hin (Or.inl rfl)
    rw [at_ofNat]
    refine h.kept _ c (by omega) ?_
    rw [List.getElem?_append_right (Nat.le_add_right _ _), Nat.add_sub_cancel_left, hc]
  refine h.shrink .kill [] ?_ rfl rfl rfl rfl List.nil_prefix
  show b.cons.killLine (b.cons.e - b.cons.w).toNat = _
  rw [h.editable, hkill, h.w]
  rfl

theorem Ok.erase (h : Ok b) (hne : b.cons.e ≠ b.cons.w) :
    Ok { b with cons := { b.cons with e := b.cons.e - 1 }, keys := b.keys ++ [.erase] } := by
  have htail := h.tail_iff.mp hne
  have hpos : 0 < b.line.tail.length := List.length_pos_iff.mpr htail
  refine h.shrink .erase b.line.tail.dropLast ?_ rfl rfl rfl rfl (List.dropLast_prefix _)
  have he : b.cons.e - 1 = .ofNat (b.line.committed.length + b.line.tail.dropLast.length) := by
    have hsum : b.line.committed.length + b.line.tail.length = b.line.committed.length + b.line.tail.dropLast.length + 1 := by
      rw [List.length_dropLast]
      omega
    rw [h.e, hsum, UInt32.ofNat_add, ← UInt32.toNat_inj]
    simp
  show { b.cons with e := b.cons.e - 1 } = _
  rw [he]

/-! ### Storing a character -/

theorem Ok.room (h : Ok b) (hroom : b.cons.e - b.cons.r < .ofNat INPUT_BUF_SIZE) :
    b.line.committed.length + b.line.tail.length < b.consumed.length + 128 := by
  have hused := h.used
  have hle := h.consumed_le
  have hlt : (b.cons.e - b.cons.r).toNat < 128 := hroom
  omega

theorem Ok.full_iff (h : Ok b) (hroom : b.cons.e - b.cons.r < .ofNat INPUT_BUF_SIZE) :
    (b.cons.put c).Full ↔ b.line.committed.length + b.line.tail.length + 1 = b.consumed.length + 128 := by
  have hlt := h.room hroom
  have hle := h.consumed_le
  have hput : ((b.cons.put c).e - (b.cons.put c).r).toNat =
      b.line.committed.length + b.line.tail.length + 1 - b.consumed.length := by
    show (b.cons.e + 1 - b.cons.r).toNat = _
    have hnext : b.cons.e + 1 = .ofNat (b.line.committed.length + b.line.tail.length + 1) := by
      rw [h.e, UInt32.ofNat_add _ 1]
      rfl
    rw [hnext, h.r, toNat_sub_ofNat (by omega) (by omega)]
  rw [Cons.Full, ← UInt32.toNat_inj, hput]
  show _ = 128 ↔ _
  omega

theorem Ok.store (h : Ok b) (hroom : b.cons.e - b.cons.r < .ofNat INPUT_BUF_SIZE) : Ok (b.store c) := by
  have hlt := h.room hroom
  have hle := h.consumed_le
  have hline : (b.store c).line = b.line.edit (.char c (decide (b.cons.put c).Full)) := line_concat rfl
  have hbuf : (b.store c).cons.buf = Function.update b.cons.buf (b.cons.e.toNat % INPUT_BUF_SIZE) c := by
    rw [Data.store]
    split <;> rfl
  have hr : (b.store c).cons.r = b.cons.r := by
    rw [Data.store]
    split <;> rfl
  have he : (b.store c).cons.e = .ofNat (b.line.committed.length + b.line.tail.length + 1) := by
    have hnext : (b.store c).cons.e = b.cons.e + 1 := by
      rw [Data.store]
      split <;> rfl
    rw [hnext, h.e, UInt32.ofNat_add _ 1]
    rfl
  have hslot : b.cons.e.toNat % INPUT_BUF_SIZE = (b.line.committed.length + b.line.tail.length) % INPUT_BUF_SIZE := by
    rw [h.e, UInt32.toNat_ofNat']
    exact Nat.mod_mod_of_dvd _ (by decide)
  have hall : (b.store c).line.committed ++ (b.store c).line.tail = b.line.committed ++ b.line.tail ++ [c] := by
    rw [hline, Line.edit]
    split <;> simp
  have hlength : (b.store c).line.committed.length + (b.store c).line.tail.length =
      b.line.committed.length + b.line.tail.length + 1 := by
    rw [← List.length_append, hall, List.length_append, List.length_append, List.length_singleton]
  refine ⟨hr.trans h.r, ?_, ?_, ?_, ?_, fun j d hj hd => ?_, ?_, h.delivered⟩
  · by_cases hcommit : Ends c ∨ (b.cons.put c).Full
    · have hw : (b.store c).cons.w = b.cons.e + 1 := by
        rw [Data.store, if_pos hcommit]
        rfl
      have hcommitted : (b.store c).line.committed.length = b.line.committed.length + b.line.tail.length + 1 := by
        rw [hline, Line.edit, if_pos (by simpa using hcommit)]
        simp [Nat.add_assoc]
      rw [hw, hcommitted, h.e, UInt32.ofNat_add _ 1]
      rfl
    · have hw : (b.store c).cons.w = b.cons.w := by
        rw [Data.store, if_neg hcommit]
        rfl
      have hcommitted : (b.store c).line.committed = b.line.committed := by
        rw [hline, Line.edit, if_neg (by simpa using hcommit)]
      rw [hw, hcommitted, h.w]
  · rw [he, hlength]
  · exact h.taken.trans (hline ▸ committed_edit _ _)
  · rw [hlength]
    exact hlt
  · rw [hall] at hd
    rw [hbuf, hslot]
    rcases Nat.lt_trichotomy j (b.line.committed.length + b.line.tail.length) with hj' | rfl | hj'
    · -- The slot of a byte that is still there is another one.
      have hne : j % INPUT_BUF_SIZE ≠ (b.line.committed.length + b.line.tail.length) % INPUT_BUF_SIZE := by
        have hj'' : b.consumed.length ≤ j := hj
        unfold INPUT_BUF_SIZE
        omega
      rw [Function.update_of_ne hne]
      rw [List.getElem?_append_left (by rw [List.length_append]; exact hj')] at hd
      exact h.kept j d hj hd
    · rw [← List.length_append, List.getElem?_concat_length] at hd
      rw [Function.update_self]
      exact Option.some.inj hd
    · rw [List.getElem?_eq_none (by simp; omega)] at hd
      cases hd
  · rw [hline, Line.edit]
    split
    · exact nofun
    · next hcommit =>
      intro d hd
      rcases List.mem_append.mp hd with hd | hd
      · exact h.open_tail d hd
      · rw [List.mem_singleton.mp hd]
        exact fun hends => hcommit (Or.inl hends)

theorem Ok.intr (h : Ok b) : Ok (intr b c).1 := by
  unfold Console.intr
  split
  · exact h
  split
  · exact h.kill
  split
  · show Ok (if b.cons.e ≠ b.cons.w then _ else b)
    split
    · next hne => exact h.erase hne
    · exact h
  split
  · next hc => exact h.store hc.2
  · exact h

end LabSO.Console

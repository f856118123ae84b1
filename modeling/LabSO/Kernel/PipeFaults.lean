import LabSO.Kernel.Pipe
import LabSO.Kernel.CopyIn

/-! What `piperead` takes out of a pipe and what it delivers, where the destination may be unmapped anywhere. -/

namespace LabSO.Pipes
open Monitor Kernel

variable {n : Nat} {p : Fin n} {b b' : Data n} {k : Point} {e : Option Result} {r : ReadCall}

/-- A process that holds the lock goes on from a point until it releases the lock: at its return, or to sleep. -/
inductive Section (p : Fin n) : Data n → Point → Data n → Option Result → Prop
  | set {b b' b'' : Data n} {k k' : Point} {e : Option Result} (op : op p b k = .set b' k') (rest : Section p b' k' b'' e) :
    Section p b k b'' e
  | wakeup {b b' : Data n} {k k' : Point} {c : Chan} {e : Option Result} (op : op p b k = .wakeup c k')
    (rest : Section p b k' b' e) : Section p b k b' e
  | killed {b b' : Data n} {k yes no : Point} {e : Option Result} (x : Bool) (op : op p b k = .killed yes no)
    (rest : Section p b (if x then yes else no) b' e) : Section p b k b' e
  | sleep {b : Data n} {k k' : Point} {c : Chan} (op : op p b k = .sleep c k') : Section p b k b none
  | release {b : Data n} {k : Point} {result : Result} (op : op p b k = .release result) : Section p b k b (some result)

/-- The first of the bytes from `addr` on that is not mapped. -/
def firstFault (mem : UserMem) (addr : UInt64) (len : Int) : Option Nat :=
  (List.range len.toNat).find? fun i => (mem.byte? (addr + .ofNat i)).isNone

/-- What has gone out of the pipe is what is reported and was delivered; nothing if the process fails or goes to sleep. -/
def Accounts (b b' : Data n) : Option Result → Prop
  | some (.read _ value) =>
    (0 ≤ value → b'.pipe.nread = b.pipe.nread + .ofNat value.toNat) ∧ (value < 0 → b' = b) ∧
      ∃ bytes, b'.removed = b.removed ++ bytes ∧ b'.handed = b.handed ++ bytes
  | _ => b' = b

/-! ### The loop -/

theorem readDone_section {i : Nat} (h : Section p b (.readDone r i) b' e) : b' = b ∧ e = some (.read r i) := by
  cases h with
  | wakeup hop rest =>
    cases hop
    cases rest with
    | release hop =>
      cases hop
      exact ⟨rfl, rfl⟩
    | set hop | wakeup hop | killed _ hop | sleep hop => cases hop
  | set hop | killed _ hop | sleep hop | release hop => cases hop

/-- The bytes that there are in a pipe. -/
def Pipe.used (pi : Pipe) : Nat := (pi.nwrite - pi.nread).toNat

/-- How the loop ends that is at `i`. -/
structure Copied (b : Data n) (r : ReadCall) (i : Nat) (b' : Data n) (e : Option Result) (bytes : List UInt8) : Prop where
  nread : b'.pipe.nread = b.pipe.nread + .ofNat bytes.length
  removed : b'.removed = b.removed ++ bytes
  length : bytes.length ≤ b.pipe.used
  ends : (e = some (.read r ((i + bytes.length : Nat) : Int)) ∧ b'.handed = b.handed ++ bytes ∧
      ∀ k, r.fault = some k → i ≤ k → (k : Int) < r.n → ¬k - i < b.pipe.used) ∨
    ∃ k, r.fault = some k ∧ i ≤ k ∧ (k : Int) < r.n ∧ k - i < b.pipe.used ∧ bytes.length = k - i + 1 ∧
      e = some (.read r k) ∧ b'.handed = b.handed ++ bytes.dropLast

theorem used_remove (hne : ¬b.pipe.Empty) (copied : Bool) : (b.remove copied).pipe.used + 1 = b.pipe.used := by
  have hne : b.pipe.nread ≠ b.pipe.nwrite := hne
  have hread := b.pipe.nread.toNat_lt
  have hwrite := b.pipe.nwrite.toNat_lt
  have hone : (1 : UInt32).toNat = 1 := rfl
  rw [← UInt32.toNat_inj.ne] at hne
  show (b.pipe.nwrite - (b.pipe.nread + 1)).toNat + 1 = (b.pipe.nwrite - b.pipe.nread).toNat
  rw [UInt32.toNat_sub, UInt32.toNat_sub, UInt32.toNat_add, hone]
  omega

theorem used_empty (h : b.pipe.Empty) : b.pipe.used = 0 := by
  have h : b.pipe.nread = b.pipe.nwrite := h
  rw [Pipe.used, h, UInt32.sub_self]
  rfl

theorem copy_section {i : Nat} (h : Section p b (.readCopy r i) b' e) (hfirst : ∀ k, r.fault = some k → i ≤ k) :
    ∃ bytes, Copied b r i b' e bytes := by
  generalize hk : Point.readCopy r i = k at h
  induction h generalizing i with
  | @set b b₁ b₂ k k₁ e hop rest ih =>
    subst hk
    rw [op] at hop
    split at hop
    · next hmore =>
      obtain ⟨hlt, hne⟩ := hmore
      have hused := used_remove hne
      split at hop
      · next hfault =>
        cases hop
        obtain ⟨rfl, rfl⟩ := readDone_section rest
        refine ⟨[b.pipe.first], rfl, rfl, ?_, Or.inr ⟨i, hfault, Nat.le_refl i, hlt, ?_, ?_, rfl, ?_⟩⟩
        · have := hused false
          simp only [List.length_singleton]
          omega
        · have := hused false
          omega
        · simp
        · simp [Data.remove]
      · next hfault =>
        cases hop
        obtain ⟨bytes, hcopied⟩ := ih (i := i + 1) (fun k hk => by
          have := hfirst k hk
          have hki : k ≠ i := fun heq => hfault (heq ▸ hk)
          omega) rfl
        have hused := hused true
        have hhanded : (b.remove true).handed = b.handed ++ [b.pipe.first] := rfl
        refine ⟨b.pipe.first :: bytes, ?_, ?_, ?_, ?_⟩
        · rw [hcopied.nread, List.length_cons, UInt32.ofNat_add, UInt32.add_comm (.ofNat bytes.length), ← UInt32.add_assoc]
          rfl
        · rw [hcopied.removed]
          exact List.append_assoc ..
        · have := hcopied.length
          rw [List.length_cons]
          omega
        · rcases hcopied.ends with ⟨rfl, hb, hnone⟩ | ⟨k, hk, hle, hkn, hkused, hlen, rfl, hb⟩
          · refine Or.inl ⟨?_, ?_, fun k hk hle hkn => ?_⟩
            · rw [List.length_cons, Nat.add_assoc, Nat.add_comm 1]
            · rw [hb, hhanded, List.append_assoc]
              rfl
            · have hki : k ≠ i := fun heq => hfault (heq ▸ hk)
              have := hnone k hk (by omega) hkn
              omega
          · refine Or.inr ⟨k, hk, by omega, hkn, by omega, ?_, rfl, ?_⟩
            · rw [List.length_cons]
              omega
            · have hne : bytes ≠ [] := by
                rintro rfl
                simp at hlen
              rw [hb, hhanded, List.append_assoc, List.dropLast_cons_of_ne_nil hne]
              rfl
    · next hend =>
      cases hop
      obtain ⟨rfl, rfl⟩ := readDone_section rest
      refine ⟨[], ?_, (List.append_nil _).symm, Nat.zero_le _, Or.inl ⟨rfl, (List.append_nil _).symm, fun k hk hle hkn => ?_⟩⟩
      · exact (UInt32.add_zero _).symm
      · rw [not_and_or, not_not] at hend
        rcases hend with hend | hempty
        · omega
        · rw [used_empty hempty]
          omega
  | wakeup hop | killed _ hop | sleep hop | release hop =>
    subst hk
    rw [op] at hop
    split at hop
    · split at hop <;> cases hop
    · cases hop

/-! ### The call -/

theorem firstFault_some {mem : UserMem} {addr : UInt64} {len : Int} {k : Nat} (h : firstFault mem addr len = some k) :
    mem.byte? (addr + .ofNat k) = none := by
  simpa using List.find?_some h

theorem exists_firstFault {mem : UserMem} {addr : UInt64} {len : Int} {k : Nat} (hlt : (k : Int) < len)
    (h : mem.byte? (addr + .ofNat k) = none) : ∃ j, firstFault mem addr len = some j ∧ j ≤ k := by
  cases hfind : firstFault mem addr len with
  | none =>
    have hall := List.find?_eq_none.mp hfind k (List.mem_range.mpr (by omega))
    rw [h] at hall
    exact absurd rfl hall
  | some j =>
    refine ⟨j, rfl, ?_⟩
    have hbefore := (List.find?_range_eq_some.mp hfind).2.2
    by_contra hgt
    have hk := hbefore k (by omega)
    rw [h] at hk
    cases hk

/-- In a section of `piperead`, what goes out of the pipe is what is reported, exactly if every byte of the destination is
    mapped for which there is a byte in the pipe. -/
theorem piperead_iff {mem : UserMem} {addr : UInt64} {len : Int}
    (h : Section p b (.readLoop ⟨len, firstFault mem addr len⟩) b' e) :
    Accounts b b' e ↔ ∀ k : Nat, (k : Int) < len → k < b.pipe.used → mem.byte? (addr + .ofNat k) ≠ none := by
  cases h with
  | set hop rest =>
    cases hop
    split at rest
    · next hempty =>
      -- there is nothing to read, and the process fails or goes to sleep
      have hright : ∀ k : Nat, (k : Int) < len → k < b.pipe.used → mem.byte? (addr + .ofNat k) ≠ none := by
        intro k _ hk
        rw [used_empty hempty.1] at hk
        cases hk
      refine iff_of_true ?_ hright
      cases rest with
      | killed x hop rest =>
        cases hop
        cases x with
        | true =>
          cases rest with
          | release hop =>
            cases hop
            exact ⟨nofun, fun _ => rfl, [], (List.append_nil _).symm, (List.append_nil _).symm⟩
          | set hop | wakeup hop | killed _ hop | sleep hop => cases hop
        | false =>
          cases rest with
          | sleep => rfl
          | set hop | wakeup hop | killed _ hop | release hop => cases hop
      | set hop | wakeup hop | sleep hop | release hop => cases hop
    · obtain ⟨bytes, hcopied⟩ := copy_section rest fun _ _ => Nat.zero_le _
      have hlen := hcopied.length
      rcases hcopied.ends with ⟨rfl, hhanded, hnone⟩ | ⟨k, hk, -, hkn, hkused, hlength, rfl, -⟩
      · refine iff_of_true ⟨fun _ => ?_, fun hneg => ?_, bytes, hcopied.removed, hhanded⟩ fun k hkn hkused hfault => ?_
        · rw [hcopied.nread, Nat.zero_add, Int.toNat_natCast]
        · omega
        · obtain ⟨j, hj, hjk⟩ := exists_firstFault hkn hfault
          exact hnone j hj (Nat.zero_le _) (by show (j : Int) < len; omega) (by omega)
      · refine iff_of_false (fun haccounts => ?_) fun hall => ?_
        · have hnread := haccounts.1 (Int.natCast_nonneg k)
          rw [hcopied.nread, hlength, Int.toNat_natCast] at hnread
          have hbound := (b.pipe.nwrite - b.pipe.nread).toNat_lt
          have hused : b.pipe.used = (b.pipe.nwrite - b.pipe.nread).toNat := rfl
          have heq := congrArg UInt32.toNat hnread
          rw [UInt32.toNat_add, UInt32.toNat_add, UInt32.toNat_ofNat', UInt32.toNat_ofNat'] at heq
          have hread := b.pipe.nread.toNat_lt
          omega
        · exact hall k hkn (by omega) (firstFault_some hk)
  | wakeup hop | killed _ hop | sleep hop | release hop => cases hop

/-- A process without memory. -/
def unmapped : UserMem := ⟨fun _ => none⟩

attribute [local instance] Transition.neZero_one

/-- A pipe with one byte in it. -/
def oneByte : Data 1 := (fresh 0).add 0 7

theorem oneByte_section : Section 0 oneByte (.readLoop ⟨1, firstFault unmapped 0 1⟩) (oneByte.remove false)
    (some (.read ⟨1, firstFault unmapped 0 1⟩ 0)) := by
  have hfault : firstFault unmapped 0 1 = some 0 := by decide
  rw [hfault]
  exact .set rfl (.set rfl (.wakeup rfl (.release rfl)))

theorem piperead_iff_oneByte :
    Accounts oneByte (oneByte.remove false) (some (.read ⟨1, firstFault unmapped 0 1⟩ 0)) ↔
      ∀ k : Nat, (k : Int) < 1 → k < oneByte.pipe.used → unmapped.byte? (0 + .ofNat k) ≠ none :=
  piperead_iff oneByte_section

/-- A byte that cannot be delivered is gone. -/
theorem not_accounts : ∃ b', Section 0 oneByte (.readLoop ⟨1, firstFault unmapped 0 1⟩) b'
    (some (.read ⟨1, firstFault unmapped 0 1⟩ 0)) ∧
    ¬Accounts oneByte b' (some (.read ⟨1, firstFault unmapped 0 1⟩ 0)) := by
  refine ⟨_, oneByte_section, fun h => ?_⟩
  have hnread := h.1 (Int.le_refl 0)
  exact absurd hnread (by decide)

end LabSO.Pipes

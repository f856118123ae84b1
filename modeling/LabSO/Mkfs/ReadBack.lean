import LabSO.Kernel.FsBytes
import LabSO.Mkfs.Build

/-! The kernel reads back what `mkfs` appended: any calls of `ialloc` and `iappend`, and then `ilock`, `bmap` and `readi`
    on the image. -/

namespace LabSO.Mkfs
open Kernel Program

/-- A call that puts something into the image. -/
inductive Op
  | ialloc (type : UInt16)
  | iappend (inum : UInt32) (p : List UInt8)
deriving DecidableEq

def Op.run : Op → Build Unit
  | ialloc type => do
    let _ ← Mkfs.ialloc type
    return ()
  | iappend inum p => Mkfs.iappend inum p

/-- The image with what the calls put into it. -/
def build (ops : List Op) : Build Unit := do
  format
  forEach Op.run ops

/-- How many inodes the calls allocate. -/
def inodes : List Op → Nat
  | [] => 0
  | .ialloc _ :: ops => inodes ops + 1
  | .iappend .. :: ops => inodes ops

/-- The bytes that the calls append to the inode `n`, in order. -/
def appended (n : UInt32) : List Op → List UInt8
  | [] => []
  | .ialloc _ :: ops => appended n ops
  | .iappend inum p :: ops => if inum = n then p ++ appended n ops else appended n ops

/-- Inodes have a type, and those before `next`, and the ones that are allocated, are appended to. -/
def Proper (next : Nat) : List Op → Prop
  | [] => True
  | .ialloc type :: ops => type ≠ 0 ∧ Proper (next + 1) ops
  | .iappend inum _ :: ops => (1 ≤ inum.toNat ∧ inum.toNat < next) ∧ Proper next ops

instance decidableProper : (next : Nat) → (ops : List Op) → Decidable (Proper next ops)
  | _, [] => inferInstanceAs (Decidable True)
  | next, .ialloc type :: ops =>
    have := decidableProper (next + 1) ops
    inferInstanceAs (Decidable (type ≠ 0 ∧ Proper (next + 1) ops))
  | next, .iappend inum _ :: ops =>
    have := decidableProper next ops
    inferInstanceAs (Decidable ((1 ≤ inum.toNat ∧ inum.toNat < next) ∧ Proper next ops))

variable {s t : Image} {n m : UInt32} {c : UInt32 → List UInt8} {ops : List Op}

theorem append_appended (n m : UInt32) (p : List UInt8) (ops : List Op) :
    Function.update c n (c n ++ p) m ++ appended m ops = c m ++ appended m (.iappend n p :: ops) := by
  rw [appended]
  by_cases hm : m = n
  · subst hm
    rw [Function.update_self, if_pos rfl, List.append_assoc]
  · rw [Function.update_of_ne hm, if_neg (Ne.symm hm)]

/-- The calls append what they are to append, or there are not enough blocks. -/
theorem run_spec (h : Built s c) (hproper : Proper s.freeinode.toNat ops)
    (hinodes : s.freeinode.toNat + inodes ops ≤ NINODES)
    (hsize : ∀ n, (c n ++ appended n ops).length ≤ MAXFILE * BSIZE) :
    Outcome (forEach Op.run ops) (fun _ t => Built t (fun n => c n ++ appended n ops) ∧
      t.freeinode.toNat = s.freeinode.toNat + inodes ops) (fun _ t => FSSIZE < t.freeblock.toNat) s := by
  induction ops generalizing s c with
  | nil =>
    refine .pure ⟨?_, rfl⟩
    simpa [appended] using h
  | cons op ops ih =>
    cases op with
    | ialloc type =>
      obtain ⟨htype, hproper⟩ := hproper
      have htype' : type.toInt16 ≠ 0 := fun h0 => htype (congrArg Int16.toUInt16 h0)
      have hlt : s.freeinode.toNat < NINODES := by
        rw [inodes] at hinodes
        omega
      obtain ⟨t, hret, ht, hnext⟩ := ialloc_spec type h hlt htype'
      refine .bind_returns (Program.Returns.bind hret .pure) ?_
      rw [← hnext] at hproper
      rw [inodes, Nat.add_comm (inodes ops), ← Nat.add_assoc, ← hnext] at hinodes ⊢
      exact ih ht hproper hinodes hsize
    | iappend inum p =>
      obtain ⟨hinum, hproper⟩ := hproper
      have htype := (h.type inum).mpr hinum
      have hstep := iappend_spec h htype (p := p) rfl
      have hle := hsize inum
      rw [appended, if_pos rfl, List.length_append, List.length_append] at hle
      refine .bind (hstep.weaken fun e t hover => hover.resolve_right (by omega)) ?_
      rintro _ t ⟨ht, hsame⟩
      rw [← hsame] at hproper
      rw [inodes, ← hsame] at hinodes ⊢
      have hrest := ih ht hproper hinodes fun m => by
        rw [append_appended]
        exact hsize m
      simpa only [append_appended] using hrest

/-! ### Reading -/

theorem Room.readsb (h : Room s) : readsb s.file = sb := by
  rw [Kernel.readsb, h.super]
  decide +kernel

/-- The kernel has just found an entry of its table for an inode, and its buffers have the blocks of the image. -/
structure Fresh (file : Disk) (s : Fs) (i : Fin NINODE) : Prop where
  bufs : s.store.bufs = file
  ref : 0 < (s.itable i).ref
  locked : (s.itable i).locked = false
  valid : (s.itable i).valid = false

/-- The inode `n` of the image reads as `bytes` in the kernel: `ilock` finds it with their number as its size, `bmap` the
    blocks that hold them, and `readi` any part of them; the latter two change nothing. -/
def ReadsAs (file : Disk) (n : UInt32) (bytes : List UInt8) : Prop :=
  ∀ s i, Fresh file s i → (s.itable i).inum = n →
    ∃ t, Program.Returns (ilock sb i) s () t ∧ (t.itable i).size.toNat = bytes.length ∧
      (∀ bn, bn * BSIZE < bytes.length → ∃ a, a ≠ 0 ∧ Program.Returns (bmap sb i bn) t a t ∧
        ∀ j, j < BSIZE → (file a).byte j = bytes.getD (bn * BSIZE + j) 0) ∧
      ∀ off len : UInt32, off.toNat + len.toNat ≤ bytes.length →
        Program.Returns (readi sb i off len) t ((bytes.drop off.toNat).take len.toNat) t

theorem Built.readsAs (h : Built s c) (hn : (s.vol.dinode n).type ≠ 0) : ReadsAs s.file n (c n) := by
  rintro k i hfresh rfl
  let t := k.lockedInode sb i
  let n := (k.itable i).inum
  have hdinode : (k.vol sb).dinode n = s.vol.dinode n := by
    rw [Fs.vol, hfresh.bufs]
    rfl
  have hself : t.itable i = { k.itable i with locked := true, toDinode := s.vol.dinode n, valid := true } := by
    rw [← hdinode]
    exact Fs.itable_setInode_self ..
  have hinum : (t.itable i).inum = n := by rw [hself]
  -- the kernel sees the volume of the image, but for the bit map
  have hcur : t.cur sb i = { s.vol with used := (t.cur sb i).used } := by
    refine Volume.ext rfl ?_ ?_
    · show Function.update (volume sb k.store.bufs).dinode (t.itable i).inum (t.itable i).toDinode = _
      rw [hinum, hself, hfresh.bufs]
      exact Function.update_eq_self ..
    · show (volume sb k.store.bufs).data = _
      rw [hfresh.bufs]
      rfl
  have hwithin : (t.cur sb i).Within sb (t.itable i).inum := by
    rw [hcur, hinum]
    exact h.exact.within hn
  have hholds : (t.cur sb i).Holds (t.itable i).inum (c n) := by
    rw [hcur, hinum]
    exact ⟨(h.holds n hn).mapped, (h.holds n hn).byte⟩
  have hsize : (t.itable i).size.toNat = (c n).length := by
    rw [hself]
    exact h.size n hn
  have hlt : (c n).length < 2 ^ 32 := hsize ▸ (t.itable i).size.toNat_lt
  refine ⟨t, ?_, hsize, fun bn hbn => ?_, fun off len hle => readi_returns hwithin hholds.reads hsize
    (by omega) (hle.trans_lt hlt)⟩
  · have hlt : (k.itable i).inum.toNat < sb.ninodes.toNat := h.lt hn
    exact ilock_returns hfresh.ref hfresh.locked hfresh.valid hlt (by rwa [hdinode])
  · have hne := (hholds.mapped bn).mpr hbn
    refine ⟨_, hne, bmap_returns hwithin hne, fun j hj => ?_⟩
    rw [← hholds.byte bn hne j hj, ← hfresh.bufs]
    exact congrArg (·.byte j) (vol_data (s := t) (hwithin.mem_of_block hne)).symm

/-- However the calls are interleaved, the kernel reads from each inode what was appended to it. -/
theorem reads_back (ops : List Op) (hproper : Proper 1 ops) (hinodes : inodes ops < NINODES)
    (hsize : ∀ n, (appended n ops).length ≤ MAXFILE * BSIZE)
    (hblocks : (build ops Image.empty).2.freeblock.toNat ≤ FSSIZE) :
    ∃ m, Program.Returns (build ops) Image.empty () m ∧ readsb m.file = sb ∧
      ∀ n : UInt32, 1 ≤ n.toNat → n.toNat ≤ inodes ops → ReadsAs m.file n (appended n ops) := by
  have hfirst : start.freeinode.toNat = 1 := rfl
  have hproper' : Proper start.freeinode.toNat ops := hfirst ▸ hproper
  have hinodes' : start.freeinode.toNat + inodes ops ≤ NINODES := by
    rw [hfirst, Nat.add_comm]
    exact hinodes
  have hrun := run_spec built_start hproper' hinodes' hsize
  have hbuild : Outcome (build ops) _ _ Image.empty := .bind_returns format_returns hrun
  obtain ⟨_, m, hret, hm, hnext⟩ := hbuild.returns fun _ => not_lt_of_ge hblocks
  refine ⟨m, hret, hm.room.readsb, fun n hone hn => hm.readsAs ((hm.type n).mpr ⟨hone, ?_⟩)⟩
  rw [hnext, hfirst]
  omega

/-- Two files that are written in turns. -/
def turns : List Op := [.ialloc 1, .iappend 1 [7], .ialloc 2, .iappend 2 [8, 9], .iappend 1 [10]]

theorem reads_back_turns : ∃ m, Program.Returns (build turns) Image.empty () m ∧
    ReadsAs m.file 1 [7, 10] ∧ ReadsAs m.file 2 [8, 9] := by
  have hsize : ∀ n, (appended n turns).length ≤ MAXFILE * BSIZE := fun n => by
    have hle : (appended n turns).length ≤ 4 := by
      simp only [turns, appended]
      split <;> split <;> simp
    exact hle.trans (by decide)
  have hblocks : (build turns Image.empty).2.freeblock.toNat ≤ FSSIZE := by
    rw [build, format_returns.bind_eq]
    decide +kernel
  obtain ⟨m, hret, -, hm⟩ := reads_back turns (by decide) (by decide) hsize hblocks
  exact ⟨m, hret, hm 1 (by decide) (by decide), hm 2 (by decide) (by decide)⟩

end LabSO.Mkfs

import LabSO.Mkfs.Image

/-! Only `ialloc` takes an inode number, and after `format` no function makes the image longer. -/

namespace LabSO.Mkfs
open Kernel Program

variable {α β : Type} {m : Build α} {f : α → Build β} {s t u : Image} {n : UInt32} {b : BlockNo} {p : List UInt8}

/-- From `s` to `t` no inode was taken, and the image has as many blocks. -/
structure Frame (s t : Image) : Prop where
  freeinode : t.freeinode = s.freeinode
  length : t.length = s.length

theorem Frame.refl (s : Image) : Frame s s := ⟨rfl, rfl⟩

theorem Frame.trans (h : Frame s t) (h' : Frame t u) : Frame s u :=
  ⟨h'.freeinode.trans h.freeinode, h'.length.trans h.length⟩

/-- Where the program returns, it has taken no inode. -/
def Steady (m : Build α) : Prop := ∀ s, Outcome m (fun _ => Frame s) (fun _ _ => True) s

theorem Steady.pure {a : α} : Steady (Pure.pure a) := fun s => .pure (.refl s)

theorem Steady.halt {e : Death} : Steady (Program.halt e : Build α) := fun _ => .halt trivial

theorem Steady.bind (hm : Steady m) (hf : ∀ a, Steady (f a)) : Steady (m >>= f) := fun s =>
  (hm s).bind fun a t ht => (hf a t).mono fun _ _ hu => ht.trans hu

theorem Steady.ite {c : Prop} [Decidable c] {m' : Build α} (hm : c → Steady m) (hm' : ¬c → Steady m') :
    Steady (if c then m else m') := fun s => .ite (fun h => hm h s) fun h => hm' h s

theorem Steady.forEach {κ : Type} {f : κ → Build Unit} (hf : ∀ x, Steady (f x)) (l : List κ) : Steady (forEach f l) := by
  induction l with
  | nil => exact .pure
  | cons x xs ih => exact (hf x).bind fun _ => ih

theorem steady_nextBlock : Steady nextBlock := fun _ => .liftState ⟨rfl, rfl⟩

/-- A block that can be read can be written where it is. -/
theorem rsect_outcome (b : BlockNo) (s : Image) :
    Outcome (rsect b) (fun _ t => t = s ∧ (sector b).toNat < s.length) (fun _ _ => True) s := by
  by_cases hlt : (sector b).toNat < s.length
  · exact .of_returns (if_pos hlt) ⟨rfl, hlt⟩
  · exact .of_halts (if_neg hlt) trivial

theorem steady_rsect (b : BlockNo) : Steady (rsect b) := fun s => (rsect_outcome b s).mono fun _ _ ht => ht.1 ▸ .refl s

theorem wsect_frame {B : Block} (h : (sector b).toNat < s.length) :
    Outcome (wsect b B) (fun _ => Frame s) (fun _ _ => True) s :=
  .liftState ⟨rfl, Nat.max_eq_left h⟩

/-- A block is read, and then written. -/
theorem Steady.rewrite {g : Block → Build α} (hg : ∀ B s, (sector b).toNat < s.length →
    Outcome (g B) (fun _ => Frame s) (fun _ _ => True) s) : Steady (rsect b >>= g) := fun s =>
  (rsect_outcome b s).bind fun B _ ht => ht.1 ▸ hg B s ht.2

theorem steady_winode (n : UInt32) (d : Dinode) : Steady (winode n d) := .rewrite fun _ _ => wsect_frame

theorem steady_rinode (n : UInt32) : Steady (rinode n) := (steady_rsect _).bind fun _ => .pure

theorem steady_fillAddr (d : Dinode) (k : Fin (NDIRECT + 1)) : Steady (fillAddr d k) :=
  .ite (fun _ => steady_nextBlock.bind fun _ => .pure) fun _ => .pure

theorem steady_fillEntry (a : BlockNo) (j : Nat) : Steady (fillEntry a j) := by
  refine .rewrite fun B s hlt => ?_
  refine .ite (fun _ => ?_) fun _ => .pure (.refl s)
  refine (steady_nextBlock s).bind fun x t ht => ?_
  refine (wsect_frame (ht.length ▸ hlt)).bind fun _ u hu => .pure (ht.trans hu)

theorem steady_fillBlock (d : Dinode) (fbn : Nat) : Steady (fillBlock d fbn) := by
  unfold fillBlock
  split
  · exact (steady_fillAddr d _).bind fun _ => .pure
  · exact (steady_fillAddr d _).bind fun _ => (steady_fillEntry _ _).bind fun _ => .pure

theorem steady_iappendFrom (p : List UInt8) (off : Nat) (d : Dinode) : Steady (iappendFrom p off d) := by
  induction p, off, d using iappendFrom.induct with
  | case1 off d =>
    rw [iappendFrom, if_pos rfl]
    exact .pure
  | case2 p off d hne fbn hfbn ih =>
    rw [iappendFrom, if_neg hne, if_pos hfbn]
    refine (steady_fillBlock d _).bind ?_
    rintro ⟨x, d'⟩ s
    refine .bind (rsect_outcome x s) ?_
    rintro B _ ⟨rfl, hlt⟩
    exact .bind (wsect_frame hlt) fun _ t ht => (ih d' t).mono fun _ _ hu => ht.trans hu
  | case3 p off d hne fbn hfbn =>
    rw [iappendFrom, if_neg hne, if_neg hfbn]
    exact .halt

theorem steady_iappend (n : UInt32) (p : List UInt8) : Steady (iappend n p) := by
  refine (steady_rinode n).bind fun d => (steady_iappendFrom p _ d).bind ?_
  rintro ⟨off, d'⟩
  exact steady_winode n _

end LabSO.Mkfs

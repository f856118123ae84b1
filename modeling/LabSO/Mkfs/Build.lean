import LabSO.Mkfs.Append
import LabSO.Mkfs.Frame

/-! What `mkfs` builds before it rounds up the root directory: inodes from 1 on, each with the bytes that were appended
    to it. -/

namespace LabSO.Mkfs
open Kernel Program Ledger

variable {s t : Image} {n : UInt32} {d : Dinode} {c : UInt32 → List UInt8} {p : List UInt8}

/-- The inodes from 1 to `freeinode` are allocated, and have the bytes that `c` says. -/
structure Built (s : Image) (c : UInt32 → List UInt8) : Prop where
  room : Room s
  exact : s.vol.BlocksExact sb
  first : 1 ≤ s.freeinode.toNat
  last : s.freeinode.toNat ≤ NINODES
  type : ∀ n, (s.vol.dinode n).type ≠ 0 ↔ 1 ≤ n.toNat ∧ n.toNat < s.freeinode.toNat
  size : ∀ n, (s.vol.dinode n).type ≠ 0 → (s.vol.dinode n).size.toNat = (c n).length
  holds : ∀ n, (s.vol.dinode n).type ≠ 0 → s.vol.Holds n (c n)
  rest : ∀ n, (s.vol.dinode n).type = 0 → c n = []

theorem Built.lt (h : Built s c) (hn : (s.vol.dinode n).type ≠ 0) : n.toNat < NINODES :=
  ((h.type n).mp hn).2.trans_le h.last

/-! ### Inodes of the image -/

/-- The image with an inode overwritten. -/
def Image.setInode (s : Image) (n : UInt32) (d : Dinode) : Image :=
  s.set (IBLOCK n sb) ((s.file (IBLOCK n sb)).setDinode (n.toNat % Kernel.IPB) d)

theorem vol_setInode (hn : n.toNat < NINODES) (d : Dinode) : (s.setInode n d).vol = s.vol.setDinode n d :=
  vol_set_dinode hn d

theorem IBLOCK_lt (hn : n.toNat < NINODES) : 1 < (IBLOCK n sb).toNat ∧ (IBLOCK n sb).toNat < nmeta := by
  obtain ⟨heq, hlt⟩ := toNat_IBLOCK sb_ordered hn
  refine ⟨?_, hlt.trans (by decide)⟩
  rw [heq]
  exact Nat.lt_add_right _ (by decide)

theorem Room.inode_lt (h : Room s) (hn : n.toNat < NINODES) : (IBLOCK n sb).toNat < FSSIZE :=
  (IBLOCK_lt hn).2.trans_le (h.first.trans h.last)

theorem Room.setInode (h : Room s) (hn : n.toNat < NINODES) (d : Dinode) : Room (s.setInode n d) := by
  obtain ⟨hone, hlt⟩ := IBLOCK_lt hn
  refine h.set (hlt.trans_le h.first) (fun heq => ?_) _
  rw [heq] at hone
  exact absurd hone (Nat.lt_irrefl 1)

theorem rinode_returns (h : Room s) (hn : n.toNat < NINODES) : Program.Returns (rinode n) s (s.vol.dinode n) s := by
  have hdinode : s.vol.dinode n = (s.file (IBLOCK n sb)).dinode (n.toNat % Kernel.IPB) := if_pos hn
  rw [hdinode]
  exact (rsect_returns h.length (h.inode_lt hn)).bind .pure

theorem winode_returns (h : Room s) (hn : n.toNat < NINODES) (d : Dinode) :
    Program.Returns (winode n d) s () (s.setInode n d) :=
  (rsect_returns h.length (h.inode_lt hn)).bind (wsect_returns h.length (h.inode_lt hn) _)

/-! ### Appending to one of several files -/

/-- An inode that was appended to is written back. -/
theorem Appending.built {size : UInt32} (h : Built s c) (hn : (s.vol.dinode n).type ≠ 0) (ht : Appending s t n d c p)
    (hframe : Frame s (t.setInode n { d with size })) (hsize : size.toNat = p.length) :
    Built (t.setInode n { d with size }) (Function.update c n p) := by
  have hlt := h.lt hn
  have htype : ((t.cur n d).dinode n).type ≠ 0 := by rwa [dinode_cur, ht.type]
  have hvol : (t.setInode n { d with size }).vol = (t.cur n d).setDinode n { d with size } := by
    rw [vol_setInode hlt, Image.cur]
    simp [Volume.setDinode]
  have haddrs : ({ d with size } : Dinode).addrs = ((t.cur n d).dinode n).addrs := by rw [dinode_cur]
  have hself : (t.setInode n { d with size }).vol.dinode n = { d with size } := by rw [hvol, Volume.dinode_setDinode]
  have hother : ∀ m, m ≠ n → (t.setInode n { d with size }).vol.dinode m = s.vol.dinode m := fun m hm => by
    rw [hvol, Volume.dinode_setDinode_of_ne _ hm, dinode_cur_of_ne hm]
    exact ht.other m hm
  have hsame : ∀ m, ((t.setInode n { d with size }).vol.dinode m).type = (s.vol.dinode m).type := fun m => by
    by_cases hm : m = n
    · rw [hm, hself]
      exact ht.type
    · rw [hother m hm]
  have hholds : ∀ m q, (t.cur n d).Holds m q → (t.setInode n { d with size }).vol.Holds m q := fun m q hq => by
    rw [hvol]
    exact hq.congr (Volume.block_setDinode haddrs m) fun _ _ => rfl
  refine ⟨ht.room.setInode hlt _, ?_, hframe.freeinode ▸ h.first, hframe.freeinode ▸ h.last, fun m => ?_, fun m hm => ?_, fun m hm => ?_,
    fun m hm => ?_⟩
  · rw [hvol]
    exact ht.exact.setDinode htype (by rwa [dinode_cur] at htype) haddrs
  · rw [hsame, hframe.freeinode]
    exact h.type m
  · by_cases hmn : m = n
    · subst hmn
      rw [hself, Function.update_self]
      exact hsize
    · rw [hother m hmn, Function.update_of_ne hmn]
      exact h.size m (hsame m ▸ hm)
  · by_cases hmn : m = n
    · subst hmn
      rw [Function.update_self]
      exact hholds m p ht.self
    · rw [Function.update_of_ne hmn]
      exact hholds m _ (ht.rest m hmn (hsame m ▸ hm))
  · rw [hsame] at hm
    have hmn : m ≠ n := by
      rintro rfl
      exact hn hm
    rw [Function.update_of_ne hmn]
    exact h.rest m hm

theorem iappend_spec {total : Nat} (h : Built s c) (hn : (s.vol.dinode n).type ≠ 0)
    (htotal : total = (c n).length + p.length) :
    Outcome (iappend n p) (fun _ t => Built t (Function.update c n (c n ++ p)) ∧ t.freeinode = s.freeinode)
      (Overrun total) s := by
  suffices hmain : Outcome (iappend n p) (fun _ t => Frame s t → Built t (Function.update c n (c n ++ p)))
      (Overrun total) s from (hmain.and (steady_iappend n p s)).mono fun _ _ ht => ⟨ht.1 ht.2, ht.2.freeinode⟩
  have hlt := h.lt hn
  have hcur : s.cur n (s.vol.dinode n) = s.vol := by
    rw [Image.cur, Volume.setDinode, Function.update_eq_self]
  have happ : Appending s s n (s.vol.dinode n) c (c n) := by
    refine ⟨h.room, ?_, rfl, fun _ _ => rfl, ?_, fun m _ hm => ?_⟩ <;> rw [hcur]
    · exact h.exact
    · exact h.holds n hn
    · exact h.holds m hm
  have hoff := h.size n hn
  refine .bind_returns (rinode_returns h.room hlt) ?_
  refine .bind (iappendFrom_spec hn happ hoff (by rw [htotal, hoff])) ?_
  rintro ⟨off, din⟩ t ⟨rfl, ht⟩
  refine .of_returns (winode_returns ht.room hlt _) fun hframe => ht.built h hn hframe ?_
  have hle : (c n ++ p).length ≤ MAXFILE * BSIZE := ht.self.length_le
  rw [List.length_append, ← htotal] at *
  exact Nat.mod_eq_of_lt (hle.trans_lt (by decide))

/-! ### A new inode -/

theorem ialloc_spec (type : UInt16) (h : Built s c) (hlt : s.freeinode.toNat < NINODES)
    (htype : type.toInt16 ≠ 0) : ∃ t, Program.Returns (ialloc type) s s.freeinode t ∧ Built t c ∧
      t.freeinode.toNat = s.freeinode.toNat + 1 := by
  let n := s.freeinode
  let d : Dinode := { Dinode.zero with type := type.toInt16, nlink := 1 }
  let s' : Image := { s with freeinode := s.freeinode + 1 }
  have hadd : s'.freeinode.toNat = n.toNat + 1 := by
    have hle : n.toNat < 200 := hlt
    show (s.freeinode + 1).toNat = _
    rw [UInt32.toNat_add]
    exact Nat.mod_eq_of_lt (by show n.toNat + 1 < 2 ^ 32; omega)
  have hroom : Room s' := ⟨h.room.length, h.room.first, h.room.last, h.room.fresh, h.room.super⟩
  have hfree : (s.vol.dinode n).type = 0 := by
    by_contra hne
    exact Nat.lt_irrefl _ ((h.type n).mp hne).2
  have hvol : (s'.setInode n d).vol = s.vol.setDinode n d := vol_setInode (s := s') hlt d
  have hself : (s'.setInode n d).vol.dinode n = d := by rw [hvol, Volume.dinode_setDinode]
  have hother : ∀ m, m ≠ n → (s'.setInode n d).vol.dinode m = s.vol.dinode m := fun m hm => by
    rw [hvol, Volume.dinode_setDinode_of_ne _ hm]
  refine ⟨s'.setInode n d, ?_, ⟨hroom.setInode hlt d, ?_, hadd ▸ Nat.le_add_left .., ?_, fun m => ?_, fun m hm => ?_, fun m hm => ?_, fun m hm => ?_⟩, hadd⟩
  · refine Program.Returns.bind (show Program.Returns _ s n s' from rfl) ?_
    exact (winode_returns hroom hlt d).bind .pure
  · rw [hvol]
    exact h.exact.setDinode_empty (Or.inl hfree) (Or.inr rfl)
  · show s'.freeinode.toNat ≤ _
    rw [hadd]
    exact hlt
  · show _ ↔ _ ∧ m.toNat < s'.freeinode.toNat
    rw [hadd]
    by_cases hm : m = n
    · subst hm
      rw [hself]
      exact iff_of_true htype ⟨h.first, Nat.lt_succ_self _⟩
    · have hne : m.toNat ≠ n.toNat := fun heq => hm (UInt32.toNat_inj.mp heq)
      rw [hother m hm, h.type m]
      show _ ∧ _ < n.toNat ↔ _
      omega
  · by_cases hmn : m = n
    · subst hmn
      rw [hself, h.rest _ hfree]
      rfl
    · rw [hother m hmn] at hm ⊢
      exact h.size m hm
  · by_cases hmn : m = n
    · subst hmn
      rw [h.rest _ hfree]
      refine .nil fun k => ?_
      rw [hvol]
      exact Volume.block_of_empty (by rw [Volume.dinode_setDinode]; rfl) k
    · rw [hother m hmn] at hm
      rw [hvol]
      exact (h.holds m hm).congr (Volume.block_congr fun p hp => Volume.held_setDinode_of_ne d (hp ▸ hmn)) fun _ _ => rfl
  · have hmn : m ≠ n := by
      rintro rfl
      rw [hself] at hm
      exact htype hm
    rw [hother m hmn] at hm
    exact h.rest m hm

/-! ### The image before the first inode -/

def start : Image where
  file := Function.update (fun _ => .zero) 1 sbBlock
  length := FSSIZE
  freeinode := 1
  freeblock := .ofNat nmeta

/-- The image after the first blocks are cleared. -/
def cleared (k : Nat) : Image := { Image.empty with length := k, freeblock := .ofNat nmeta }

theorem wsect_cleared {k : Nat} (hk : k < FSSIZE) : Program.Returns (wsect (.ofNat k) .zero) (cleared k) () (cleared (k + 1)) := by
  have hsize : FSSIZE < 2 ^ 32 := by decide
  have htoNat : (UInt32.ofNat k).toNat = k := Nat.mod_eq_of_lt (hk.trans hsize)
  have hsector : sector (.ofNat k) = .ofNat k := sector_eq (htoNat.trans_le hk.le)
  have hmax : max k (k + 1) = k + 1 := Nat.max_eq_right (Nat.le_succ k)
  simp only [Program.Returns, wsect, liftState, cleared, Image.empty, hsector, htoNat, hmax]
  rw [Function.update_eq_self_iff.mpr rfl]

theorem cleared_returns (k n : Nat) (h : k + n ≤ FSSIZE) :
    Program.Returns (forEach (fun i => wsect (.ofNat i) .zero) (List.range' k n)) (cleared k) () (cleared (k + n)) := by
  induction n generalizing k with
  | zero => exact .pure
  | succ n ih =>
    have hrest := ih (k + 1) (by omega)
    rw [show k + 1 + n = k + (n + 1) by omega] at hrest
    exact (wsect_cleared (by omega)).bind hrest

theorem format_returns : Program.Returns format Image.empty () start := by
  have hloop := cleared_returns 0 FSSIZE (Nat.zero_add _).le
  rw [← List.range_eq_range', Nat.zero_add] at hloop
  refine Program.Returns.bind (show Program.Returns _ Image.empty () (cleared 0) from rfl) (hloop.bind ?_)
  exact wsect_returns rfl (by decide) sbBlock

theorem dinode_zero (i : Nat) : Block.zero.dinode i = .zero := by
  have hshort : ∀ j, Block.zero.short j = 0 := fun j => by
    rw [Block.short, Block.zero, Bytes.getLE_replicate]
    rfl
  simp only [Block.dinode, hshort, Block.word_zero, Dinode.zero, Dinode.mk.injEq, true_and]
  ext k hk
  simp

theorem built_start : Built start fun _ => [] := by
  have hfile : ∀ b, b ≠ 1 → start.file b = .zero := fun b hb => by simp [start, hb]
  have hsuper : start.file 1 = sbBlock := by simp [start]
  have hzero : ∀ m, start.vol.dinode m = .zero := fun m => by
    show (if _ then _ else _) = _
    split
    · next hm =>
      obtain ⟨hone, -⟩ := IBLOCK_lt hm
      rw [hfile _ fun heq => ?_, dinode_zero]
      rw [heq] at hone
      exact Nat.lt_irrefl 1 hone
    · rfl
  have htype : ∀ m, (start.vol.dinode m).type = 0 := fun m => by
    rw [hzero]
    rfl
  have hnone : ∀ p, start.vol.own p = none := fun p => Volume.own_eq_none.mpr (Or.inl (htype _))
  refine ⟨⟨rfl, le_rfl, by decide, fun b hb _ => hfile b ?_, hsuper⟩, ⟨?_, ?_, ?_⟩, le_rfl, by decide,
    fun m => ?_, fun m hm => absurd (htype m) hm, fun m hm => absurd (htype m) hm, fun _ _ => rfl⟩
  · rintro rfl
    exact absurd hb (by decide)
  · intro p b hb
    rw [hnone] at hb
    cases hb
  · intro p q b hb
    rw [hnone] at hb
    cases hb
  · intro b hb
    refine iff_of_false ?_ ?_
    · have hge : nmeta ≤ b.toNat := hb.1
      show ¬decide (b.toNat < nmeta) = true
      simpa using hge
    · rintro ⟨p, hp⟩
      rw [hnone] at hp
      cases hp
  · refine iff_of_false (fun hne => hne (htype m)) ?_
    rintro ⟨hone, hlt⟩
    exact absurd (hone.trans_lt hlt) (Nat.lt_irrefl 1)

end LabSO.Mkfs

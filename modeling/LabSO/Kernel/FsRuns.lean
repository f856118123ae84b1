import LabSO.Kernel.DirectoryMap
import LabSO.Kernel.FsProcs
import LabSO.Lib.Parts

/-! Every run of system calls on a well-formed disk, by any processes: between them, each data block is marked used if and
    only if one place refers to it, and `bfree` never finds a block free. -/

namespace LabSO.Kernel
open Program Tokens

variable {sb : Superblock} {s t u : Fs} {store : Store} {disk : Disk} {p : Fin NPROC} {pr : FsProc} {mem : UserMem}

/-! ### One system call -/

theorem handle_spec {c : FsCall} (hsb : sb.Ordered) (h : Steady sb s) (hp : s.proc p = some pr) :
    Wp Tolerated (c.handle sb p pr mem) (fun _ => Steady sb) s := by
  have hcwd := cwd_mem hp
  have hdrop : ∀ {m : FsProg Int}, Wp Tolerated m (fun _ => Steady sb) s → Wp Tolerated (do let _ ← m) (fun _ => Steady sb) s :=
    fun hm => .bind hm fun _ _ ht => .pure ht
  have hsettled : ∀ {m : FsProg Int}, Wp Tolerated m (fun _ => Settled sb s s.cwds s.fds) s →
      Wp Tolerated (do let _ ← m) (fun _ => Steady sb) s := fun hm => hdrop (hm.mono fun _ _ => Settled.steady)
  cases c with
  | open' path omode => exact hdrop (sysOpen_spec hsb h hp)
  | write fd addr n => exact hsettled (sysWrite_spec hsb h)
  | mkdir path => exact hsettled (sysMkdir_spec hsb h hcwd)
  | mknod path major minor => exact hsettled (sysMknod_spec hsb h hcwd)
  | link old new => exact hsettled (sysLink_spec hsb h hcwd)
  | unlink path => exact hsettled (sysUnlink_spec hsb h hcwd)
  | chdir path => exact hdrop (sysChdir_spec hsb h hp)
  | close fd => exact hdrop (sysClose_spec hsb h hp)
  | exit => exact exit_spec hsb h hp
  | dup fd => exact hdrop (sysDup_spec h hp)
  | fork np => exact fork_spec h hp

theorem serve_spec {r : Request} (hsb : sb.Ordered) (h : Steady sb s) :
    Wp Tolerated (r.serve sb) (fun _ => Steady sb) s := by
  rcases hp : s.proc r.p with _ | pr
  · have hret : r.serve sb s = (.ok (), s) := by simp only [Request.serve, hp]
    exact .of_returns hret h
  · have hserve : r.serve sb s = r.call.handle sb r.p pr r.mem s := by simp only [Request.serve, hp]
    exact .congr hserve (handle_spec hsb h hp)

/-! ### Runs -/

/-- The system calls `rs`, one after another. -/
def serveAll (sb : Superblock) (rs : List Request) : FsProg Unit := forEach (Request.serve sb) rs

theorem serveAll_spec (hsb : sb.Ordered) (h : Steady sb s) (rs : List Request) :
    Wp Tolerated (serveAll sb rs) (fun _ => Steady sb) s :=
  Wp.forEach (I := fun _ => Steady sb) h fun _ _ _ ht => serve_spec hsb ht

/-! ### The first process -/

/-- The file system as `userinit` and `fsinit` leave it: the current directory of the first process is the root. -/
def Fs.boot (store : Store) : Fs :=
  let s : Fs := {
    store
    itable := fun i => { Dinode.zero with inum := if i.val = 0 then ROOTINO else 0, ref := if i.val = 0 then 1 else 0, locked := false, valid := false }
    ftable := fun _ => { type := .none, ref := 0, readable := false, writable := false, ip := ⟨0, NINODE_pos⟩, off := 0, major := 0 }
    proc := fun _ => none }
  s.setProc initproc (some { cwd := ⟨0, NINODE_pos⟩, ofile := fun _ => none })

/-- The disk is laid out as its superblock says, its file system agrees with itself, and its log is empty. -/
structure DiskOk (disk : Disk) : Prop where
  magic : (readsb disk).magic = FSMAGIC
  ordered : (readsb disk).Ordered
  empty : (disk (readsb disk).logstart).word 0 = 0
  ok : (volume (readsb disk) disk).Ok (readsb disk)

theorem Superblock.Ordered.toInt_nlog (h : sb.Ordered) : sb.nlog.toInt32.toInt = sb.nlog.toNat := by
  have hlt : sb.nlog.toNat < 2 ^ 31 :=
    calc
      sb.nlog.toNat ≤ sb.inodestart.toNat := (Nat.le_add_left ..).trans h.inodes
      _ ≤ sb.bmapstart.toNat := (Nat.le_add_right ..).trans h.bitmap
      _ ≤ sb.dataStart := (Nat.le_add_right ..).trans h.data
      _ ≤ sb.size.toNat := Nat.sub_le ..
      _ < 2 ^ 31 := h.size
  have hsmall : 2 * sb.nlog.toBitVec.toNat < 2 ^ 32 := by
    rw [UInt32.toNat_toBitVec]
    omega
  exact BitVec.toInt_eq_toNat_of_lt hsmall

/-- `fsinit` finds nothing to install. -/
theorem fsinit_quiet (h : DiskOk disk) : ∃ store, fsinit disk = .ok store ∧ Quiet (readsb disk) store ∧
    volume (readsb disk) store.bufs = volume (readsb disk) disk := by
  let s := Store.boot (readsb disk).logstart (readsb disk).nlog.toInt32.toInt disk
  have hread : s.readHead = .ok { s with log := { s.log with lh := [] } } := readHead_eq (Nat.zero_le _) h.empty fun k hk => absurd hk (Nat.not_lt_zero k)
  have hsize : ¬sizeofLogheader ≥ BSIZE := by decide
  have hmagic : ¬(readsb disk).magic ≠ FSMAGIC := not_not.mpr h.magic
  have hinit : fsinit disk = .ok s.writeHead := by
    simp only [fsinit, initlog, hmagic, hsize, if_false]
    show s.recoverFromLog = _
    rw [Store.recoverFromLog, hread]
    rfl
  refine ⟨s.writeHead, hinit, ⟨⟨rfl, h.ordered.toInt_nlog, rfl, rfl, Nat.zero_le _, ?_, by rintro _ ⟨⟩⟩, rfl⟩, ?_⟩
  · have := h.ordered.nlog
    show ((0 : Nat) : Int) ≤ _
    omega
  · refine volume_congr h.ordered fun b hb => Function.update_of_ne ?_ ..
    rintro rfl
    have hlog : (readsb disk).logstart.toNat + (readsb disk).nlog.toNat ≤ (readsb disk).inodestart.toNat := h.ordered.inodes
    have hnlog := h.ordered.nlog
    have hb' : (readsb disk).inodestart.toNat ≤ (readsb disk).logstart.toNat := hb
    omega

theorem opens_boot (store : Store) : (Fs.boot store).opens = 0 := by
  refine Multiset.eq_zero_of_forall_notMem fun i hi => ?_
  obtain ⟨f, hf⟩ := mem_opens.mp hi
  cases hf

/-- Only the first process holds anything. -/
theorem held_boot {κ : Type} (g : FsProc → Multiset κ) (store : Store) :
    (Fs.boot store).held g = g { cwd := ⟨0, NINODE_pos⟩, ofile := fun _ => none } := by
  let s : Fs := { Fs.boot store with proc := fun _ => none }
  have hzero : s.held g = 0 := Finset.sum_const_zero
  have hset := s.held_setProc (g := g) initproc (some { cwd := ⟨0, NINODE_pos⟩, ofile := fun _ => none })
  rw [hzero, Option.elim_none, add_zero, zero_add] at hset
  exact hset

theorem boot_steady (hsb : sb.Ordered) (hquiet : Quiet sb store) (hok : (volume sb store.bufs).Ok sb) :
    Steady sb (Fs.boot store) := by
  have hcwds : (Fs.boot store).cwds = {⟨0, by decide⟩} := held_boot ..
  have hfds : (Fs.boot store).fds = 0 := by
    refine (held_boot ..).trans (Multiset.eq_zero_of_forall_notMem fun f hf => ?_)
    obtain ⟨fd, hfd⟩ := mem_gather.mp hf
    cases hfd
  have hfirst : ∀ i : Fin NINODE, 0 < ((Fs.boot store).itable i).ref → i = ⟨0, by decide⟩ := by
    intro i hi
    by_contra hne
    have hfree : ((Fs.boot store).itable i).ref = 0 := if_neg fun h0 => hne (Fin.ext h0)
    omega
  rw [Steady, hcwds, hfds]
  refine ⟨hquiet, hok, ⟨fun i => ?_, fun _ _ hv => ?_, fun i j hi hj _ => (hfirst i hi).trans (hfirst j hj).symm, fun i hi => ?_,
    fun _ => rfl, fun _ _ => rfl, fun _ _ h => ?_, fun f h => ?_⟩⟩
  · rw [opens_boot, add_zero, Multiset.count_singleton]
    by_cases h0 : i = ⟨0, by decide⟩
    · rw [if_pos h0, h0]
      rfl
    · rw [if_neg h0]
      exact if_neg fun h => h0 (Fin.ext h)
  · cases hv
  · rw [hfirst i hi]
    exact hsb.root
  · cases h
  · cases h

/-- A block of a file is no block of another file, nor another block of the same. -/
def Volume.Apart (V : Volume) : Prop := ∀ n m k l, (V.dinode n).type ≠ 0 → (V.dinode m).type ≠ 0 → V.block n k ≠ 0 →
  V.block m l = V.block n k → m = n ∧ l = k

theorem blocks_exact (h : DiskOk disk) (rs : List Request) :
    ∃ store, fsinit disk = .ok store ∧
      (∀ t, Program.Returns (serveAll (readsb disk) rs) (Fs.boot store) () t →
        (t.vol (readsb disk)).BlocksExact (readsb disk) ∧ (t.vol (readsb disk)).Apart) ∧
      ∀ t, ¬Halts (serveAll (readsb disk) rs) (Fs.boot store) (.panic "freeing free block") t := by
  obtain ⟨store, hinit, hquiet, hvol⟩ := fsinit_quiet h
  have hrun := serveAll_spec h.ordered (boot_steady h.ordered hquiet (hvol ▸ h.ok)) rs
  refine ⟨store, hinit, fun t ht => ?_, fun t ht => hrun.not_halts ht rfl⟩
  have hexact := (hrun.post ht).ok.exact
  exact ⟨hexact, fun n m k l hn hm hne heq => Volume.block_inj hexact hn hm hne heq⟩

/-! ### A disk that holds a volume -/

/-- The block that `mkfs` writes for the superblock. -/
def Superblock.block (sb : Superblock) : Block :=
  Block.zero.setWords 0 [sb.magic, sb.size, sb.nblocks, sb.ninodes, sb.nlog, sb.logstart, sb.inodestart, sb.bmapstart]

/-- A disk with the volume, the superblock and an empty log. -/
def Volume.onDisk (V : Volume) (sb : Superblock) : Disk :=
  Function.update (Function.update (V.blocks sb) sb.logstart .zero) 1 sb.block

theorem readsb_onDisk {V : Volume} : readsb (V.onDisk sb) = sb := by
  have hone : V.onDisk sb 1 = sb.block := Function.update_self ..
  have hword : ∀ (k : Nat) (hk : k < 8), sb.block.word k =
      [sb.magic, sb.size, sb.nblocks, sb.ninodes, sb.nlog, sb.logstart, sb.inodestart, sb.bmapstart][k] := by
    intro k hk
    have hwords : sb.block.word (0 + k) = _ := Block.word_setWords (show 4 * (0 + 8) ≤ BSIZE by decide) hk
    rwa [Nat.zero_add] at hwords
  simp only [readsb, hone, hword 0 (by decide), hword 1 (by decide), hword 2 (by decide), hword 3 (by decide), hword 4 (by decide),
    hword 5 (by decide), hword 6 (by decide), hword 7 (by decide)]
  rfl

theorem Volume.onDisk_ok {V : Volume} (hsb : sb.Ordered) (hmagic : sb.magic = FSMAGIC) (hV : V.Bounded sb) (hok : V.Ok sb) :
    DiskOk (V.onDisk sb) := by
  have hlog := hsb.log
  have hinodes := hsb.inodes
  have hnlog := hsb.nlog
  have hone : (1 : BlockNo).toNat = 1 := rfl
  have hvol : volume sb (V.onDisk sb) = V := by
    refine (volume_congr hsb fun b hb => ?_).trans (volume_blocks hsb hV)
    rw [onDisk, Function.update_of_ne, Function.update_of_ne]
    · rintro rfl
      omega
    · rintro rfl
      omega
  refine ⟨?_, ?_, ?_, ?_⟩ <;> rw [readsb_onDisk]
  · exact hmagic
  · exact hsb
  · rw [onDisk, Function.update_of_ne, Function.update_self]
    · exact Block.word_zero 0
    · intro heq
      rw [heq] at hlog
      omega
  · rwa [hvol]

/-- The path `a`, at the start of every page. -/
def pathMem : UserMem := ⟨fun _ => some ((Vector.replicate _ 0).set 0 0x61 (by decide))⟩

/-- The first process makes a directory, opens it and forks. -/
def bootCalls : List Request :=
  [⟨initproc, pathMem, .mkdir 0⟩, ⟨initproc, pathMem, .open' 0 O_RDONLY⟩, ⟨initproc, pathMem, .fork (some ⟨1, by decide⟩)⟩]

theorem blocks_exact_bootCalls :
    let disk := (Volume.single .small T_DIR 16 (Block.zero.write 0 (Dirent.named [0x2e] ROOTINO).toBytes)).onDisk .small
    ∃ store, fsinit disk = .ok store ∧
      (∀ t, Program.Returns (serveAll (readsb disk) bootCalls) (Fs.boot store) () t →
        (t.vol (readsb disk)).BlocksExact (readsb disk) ∧ (t.vol (readsb disk)).Apart) ∧
      ∀ t, ¬Halts (serveAll (readsb disk) bootCalls) (Fs.boot store) (.panic "freeing free block") t :=
  blocks_exact (Volume.onDisk_ok Superblock.small_ordered rfl (Volume.single_bounded Superblock.small_ordered (by decide)) dotVolume_ok)
    bootCalls

end LabSO.Kernel

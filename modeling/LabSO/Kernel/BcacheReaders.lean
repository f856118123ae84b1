import LabSO.Kernel.BcacheRun
import LabSO.Kernel.Inode

/-! Whether `bget` finds a buffer: in any run of the cache, and when many processes read files at once. -/

namespace LabSO.Bcache
open Circular Transition
open Kernel (BSIZE NDIRECT NINDIRECT IPB IBLOCK Block Dinode Superblock)

/-! ### Enough buffers -/

section
variable {P α : Type*} [DecidableEq P] {k : Links Node} {zero : α} {disk : UInt64 → α} {ls : List (Action P α × Event α)}

omit [DecidableEq P] in
theorem Refs.refcnt_eq_zero {s : State P α} {b : Fin NBUF} (hr : Refs s) (h : s.refs b = []) : (s.buf b).refcnt = 0 := by
  rw [hr.count, h]
  rfl

theorem Move.not_panicked {s t : State P α} {a : Action P α} {e : Event α} (hs : Sound s)
    (hroom : ∀ blk, a.asks = some blk → (∀ b, (s.buf b).toBlockId ≠ blk) → s.inUse.card < NBUF)
    (hno : s.halted ≠ some (.panic "bget: no buffers")) (h : Move s a e t) :
    t.halted ≠ some (.panic "bget: no buffers") := by
  cases h with
  | @noBuffers p blk hmiss hb =>
    have hlt := hroom blk rfl fun b => lookup_missed hs.listed hmiss
    have hall : s.inUse = Finset.univ :=
      Finset.filter_true_of_mem fun b _ hnil => unused_missed hs.listed hb (hs.refs.refcnt_eq_zero hnil)
    rw [hall, Finset.card_univ, Fintype.card_fin] at hlt
    exact absurd hlt (lt_irrefl _)
  | notHolding hmsg =>
    intro h
    cases h
    exact hmsg rfl
  | spin => nofun
  | @release p b hpc =>
    obtain ⟨k, hk⟩ := release_eq s p b
    rw [hk]
    exact hno
  | _ => exact hno

/-- `bget` panics in no run that asks for a block without a buffer only when fewer than `NBUF` buffers are in use. -/
theorem bget_finds (hroom : AllSteps Step (.init k zero disk) ls fun s l => ∀ blk, l.1.asks = some blk →
    (∀ b, (s.buf b).toBlockId ≠ blk) → s.inUse.card < NBUF) :
    AllStates Step (.init k zero disk) ls fun s => s.halted ≠ some (.panic "bget: no buffers") := by
  have hstep : ∀ (s : State P α) l t, Sound s ∧ s.halted ≠ some (.panic "bget: no buffers") →
      (∀ blk, l.1.asks = some blk → (∀ b, (s.buf b).toBlockId ≠ blk) → s.inUse.card < NBUF) → Step s l t →
      Sound t ∧ t.halted ≠ some (.panic "bget: no buffers") := by
    rintro s l t ⟨hs, hno⟩ hroom hstep
    exact ⟨hs.step hstep, (move_of_step hstep).not_panicked hs hroom hno⟩
  exact (AllSteps.allStates hstep ⟨sound_init, nofun⟩ hroom).mono fun s hs => hs.2

theorem bget_finds_reread : ∃ ls t, Run Step blank ls t ∧
    AllStates Step blank ls fun s => s.halted ≠ some (.panic "bget: no buffers") := by
  have hroom : ∀ x ∈ steps step blank reread, x.1.inUse.card < NBUF := by decide +kernel
  have hall : AllSteps Step blank ((exec step blank reread).get exec_reread).1 fun s _ => s.inUse.card < NBUF :=
    allSteps_exec exec_reread hroom
  exact ⟨_, _, run_exec exec_reread, bget_finds fun ms l s hms hs _ _ _ => hall ms l s hms hs⟩

end

/-! ### Reading files -/

def ROOTDEV : UInt32 := 1

/-- What a system call does with the cache, up to its return value. -/
inductive Use
  | done (r : Int)
  | panic (msg : String)
  | bread (blk : BlockId) (k : Fin NBUF → Block → Use)
  | brelse (b : Fin NBUF) (k : Use)
  /-- `balloc` is called, for a hole in a file. -/
  | balloc

/-- An open file for an inode with a copy of the one on disk, if `valid`. -/
structure OpenFile where
  readable : Bool
  inum : UInt32
  valid : Bool
  ip : Dinode
  off : UInt32

/-- `ilock` of an inode that nobody else has locked. -/
def ilock (sb : Superblock) (f : OpenFile) (k : Dinode → Use) : Use :=
  if f.valid then k f.ip
  else
    .bread ⟨ROOTDEV, IBLOCK f.inum sb⟩ fun b bp =>
      let ip := bp.dinode (f.inum.toNat % IPB)
      .brelse b (if ip.type = 0 then .panic "ilock: no type" else k ip)

/-- Return the disk block address of the block `bn` of an inode. -/
def bmap (ip : Dinode) (bn : Nat) (k : UInt32 → Use) : Use :=
  if h : bn < NDIRECT then if ip.addrs[bn] = 0 then .balloc else k ip.addrs[bn]
  else if bn - NDIRECT < NINDIRECT then
    if ip.addrs[NDIRECT] = 0 then .balloc
    else
      .bread ⟨ROOTDEV, ip.addrs[NDIRECT]⟩ fun b a =>
        if a.word (bn - NDIRECT) = 0 then .balloc else .brelse b (k (a.word (bn - NDIRECT)))
  else .panic "bmap: out of range"

/-- The loop of `readi`; `copies tot` says whether `either_copyout` succeeds after `tot` bytes. -/
def readiFrom (ip : Dinode) (copies : Nat → Bool) (n : Nat) (k : Int → Use) : Nat → Nat → Nat → Use
  | 0, _, tot => k tot
  | fuel + 1, off, tot =>
    if tot < n then
      bmap ip (off / BSIZE) fun addr =>
        .bread ⟨ROOTDEV, addr⟩ fun b _ =>
          let m := min (n - tot) (BSIZE - off % BSIZE)
          .brelse b (if copies tot then readiFrom ip copies n k fuel (off + m) (tot + m) else k (-1))
    else k tot

/-- Read data from inode. A round of the loop reads a byte at least. -/
def readi (ip : Dinode) (copies : Nat → Bool) (off n : UInt32) (k : Int → Use) : Use :=
  if off > ip.size ∨ off + n < off then k 0
  else
    let n := if off + n > ip.size then ip.size - off else n
    readiFrom ip copies n.toNat k n.toNat off.toNat 0

/-- Read from an open file. -/
def fileread (sb : Superblock) (copies : Nat → Bool) (f : OpenFile) (n : UInt32) : Use :=
  if f.readable then ilock sb f fun ip => readi ip copies f.off n .done else .done (-1)

/-- The cache, and what the processes have still to do in their system calls. -/
structure Readers where
  cache : State (Fin Kernel.NPROC) Block
  calls : Fin Kernel.NPROC → Use

/-- The buffer that `bread` is about to return. -/
def Pc.buffer : Pc → Option (Fin NBUF)
  | .locked b _ | .filled b _ => some b
  | .idle | .acquiring _ _ | .reading _ _ _ | .writing _ _ | .releasing _ => none

def Readers.step (s : Readers) (p : Fin Kernel.NPROC) : Option Readers :=
  match s.cache.pc p, s.calls p with
  | .idle, .bread blk _ => do
    let (_, cache) ← Bcache.step s.cache (.call p (.bread blk))
    return { s with cache }
  | .idle, .brelse b k => do
    let (_, cache) ← Bcache.step s.cache (.call p (.brelse b))
    return { cache, calls := Function.update s.calls p k }
  | .idle, _ => none
  | pc, use => do
    let (e, cache) ← Bcache.step s.cache (.next p)
    match e, pc.buffer, use with
    | .returned _ data, some b, .bread _ k => return { cache, calls := Function.update s.calls p (k b data) }
    | _, _, _ => return { s with cache }

/-- What the processes do with the cache in their system calls are steps of the cache. -/
theorem Readers.step_cache {s t : Readers} {p : Fin Kernel.NPROC} (h : s.step p = some t) :
    ∃ l, Step s.cache l t.cache := by
  rw [Readers.step.eq_def] at h
  split at h
  · obtain ⟨⟨e, cache⟩, hstep, heq⟩ := Option.bind_eq_some_iff.mp h
    cases heq
    exact ⟨(_, e), hstep⟩
  · obtain ⟨⟨e, cache⟩, hstep, heq⟩ := Option.bind_eq_some_iff.mp h
    cases heq
    exact ⟨(_, e), hstep⟩
  · cases h
  · obtain ⟨⟨e, cache⟩, hstep, heq⟩ := Option.bind_eq_some_iff.mp h
    refine ⟨(_, e), hstep.trans ?_⟩
    simp only at heq
    split at heq <;> cases heq <;> rfl

/-- Process `p` has a file of one block open. -/
def oneBlock (p : Fin Kernel.NPROC) : OpenFile where
  readable := true
  inum := 2 + .ofNat p
  valid := true
  ip := { Dinode.zero with type := 2, nlink := 1, size := 1024, addrs := Dinode.zero.addrs.set 0 (100 + .ofNat p) }
  off := 0

/-- Every process is about to read the first byte of its file. -/
def Readers.start (sb : Superblock) : Readers where
  cache := .init ⟨id, id⟩ Block.zero fun _ => Block.zero
  calls p := fileread sb (fun _ => true) (oneBlock p) 1

/-- One process after the other asks for its block. -/
def oneEach : List (Fin Kernel.NPROC) := (List.finRange Kernel.NPROC).take (NBUF + 1)

/-- When as many processes as there are buffers have read a block each and not released it yet, the next one panics. -/
theorem readers_panic : ∃ s, Run (fun u p v => Readers.step u p = some v) (.start ⟨0, 0, 0, 0, 0, 0, 0, 0⟩) oneEach s ∧
    oneEach.Nodup ∧ s.cache.halted = some (.panic "bget: no buffers") := by
  have hpanic : (oneEach.foldlM Readers.step (.start ⟨0, 0, 0, 0, 0, 0, 0, 0⟩)).any
      fun s => s.cache.halted = some (.panic "bget: no buffers") := by decide +kernel
  obtain ⟨s, hs, hhalted⟩ := (Option.any_eq_true ..).mp hpanic
  exact ⟨s, run_of_foldlM hs, by decide, of_decide_eq_true hhalted⟩

end LabSO.Bcache

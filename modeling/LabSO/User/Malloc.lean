import LabSO.Lib.Chase
import Mathlib

/-! `umalloc.c`: the memory allocator by Kernighan and Ritchie. A pointer is the number of a byte, and 0 is `NULL`; every loop
    takes a bound on its rounds, and has no result when that is too small. -/

namespace LabSO.Malloc
open Chase

structure Header where
  ptr : Nat
  size : UInt32

/-- `sizeof(Header)`. -/
def unit : Nat := 16

/-- A number of units from `start` on. -/
structure Block where
  start : Nat
  size : Nat
deriving DecidableEq, Repr

def Block.stop (b : Block) : Nat := b.start + unit * b.size

/-- The units of a block, by their addresses. -/
def Block.units (b : Block) : List Nat := List.range' b.start b.size unit

/-- The headers, by their addresses, and `freep`. The code does not look at `regions`: what `sbrk` has returned so far. -/
structure Heap where
  hdr : Nat → Header
  freep : Nat
  regions : List Block

def Heap.next (h : Heap) (p : Nat) : Nat := (h.hdr p).ptr

def Heap.size (h : Heap) (p : Nat) : UInt32 := (h.hdr p).size

def Heap.set (h : Heap) (p : Nat) (x : Header) : Heap := { h with hdr := Function.update h.hdr p x }

/-- `p + p->s.size`. -/
def Heap.stop (h : Heap) (p : Nat) : Nat := p + unit * (h.size p).toNat

/-- Where the loop of `free` stops. -/
def Heap.between (h : Heap) (bp p : Nat) : Bool :=
  (p < bp && bp < h.next p) || (p ≥ h.next p && (p < bp || bp < h.next p))

/-- `free`, once the place `p` is found: join with the upper and the lower neighbour. -/
def Heap.link (h : Heap) (bp p : Nat) : Heap :=
  let h :=
    if h.stop bp = h.next p then h.set bp { ptr := h.next (h.next p), size := h.size bp + h.size (h.next p) }
    else h.set bp { h.hdr bp with ptr := h.next p }
  let h :=
    if h.stop p = bp then h.set p { ptr := h.next bp, size := h.size p + h.size bp }
    else h.set p { h.hdr p with ptr := bp }
  { h with freep := p }

def free (fuel : Nat) (h : Heap) (ap : Nat) : Option Heap :=
  let bp := ap - unit
  (seek h.next (h.between bp) fuel h.freep).map (h.link bp)

/-- What the kernel does at `sbrk(n)`: the start of the new memory, or none for -1. -/
abbrev Sbrk := Heap → Int32 → Option Nat

/-- `morecore`; 0 without memory. -/
def morecore (fuel : Nat) (sbrk : Sbrk) (h : Heap) (nu : UInt32) : Option (Heap × Nat) :=
  let nu := if nu < 4096 then 4096 else nu
  let n := Int32.ofNat (nu.toNat * unit)
  match sbrk h n with
  | none => some (h, 0)
  | some p =>
    let h := { h with regions := ⟨p, n.toInt.toNat / unit⟩ :: h.regions }
    (free fuel (h.set p { h.hdr p with size := nu }) (p + unit)).map fun h => (h, h.freep)

/-- `malloc` has come to a block that is large enough, after `prevp`. -/
def Heap.take (h : Heap) (prevp p : Nat) (nunits : UInt32) : Heap × Nat :=
  if h.size p = nunits then ({ h.set prevp { h.hdr prevp with ptr := h.next p } with freep := prevp }, p + unit)
  else
    let h := h.set p { h.hdr p with size := h.size p - nunits }
    let p := h.stop p
    ({ h.set p { h.hdr p with size := nunits } with freep := prevp }, p + unit)

/-- The loop of `malloc`; 0 without memory. -/
def mallocFrom (sbrk : Sbrk) (nunits : UInt32) : Nat → Heap → Nat → Nat → Option (Heap × Nat)
  | 0, _, _, _ => none
  | fuel + 1, h, prevp, p =>
    if nunits ≤ h.size p then some (h.take prevp p nunits)
    else if p = h.freep then
      match morecore fuel sbrk h nunits with
      | none => none
      | some (h, p) => if p = 0 then some (h, 0) else mallocFrom sbrk nunits fuel h p (h.next p)
    else mallocFrom sbrk nunits fuel h p (h.next p)

/-- The units for a number of bytes, and one for the header. -/
def nunits (nbytes : UInt32) : UInt32 := .ofNat ((nbytes.toNat + unit - 1) / unit + 1)

variable (base : Nat)

/-- `malloc`; `base` is the address of the header of the empty list. -/
def malloc (fuel : Nat) (sbrk : Sbrk) (h : Heap) (nbytes : UInt32) : Option (Heap × Nat) :=
  let h := if h.freep = 0 then { h.set base { ptr := base, size := 0 } with freep := base } else h
  mallocFrom sbrk (nunits nbytes) fuel h h.freep (h.next h.freep)

/-! ### A program -/

/-- A block that `malloc` has returned for a number of bytes. -/
structure Live extends Block where
  bytes : UInt32
deriving DecidableEq, Repr

/-- The pointer to a block. -/
def Live.ptr (b : Live) : Nat := b.start + unit

/-- The units after the header. -/
def Live.payload (b : Live) : List Nat := List.range' b.ptr (b.size - 1) unit

/-- The allocator, and the blocks that were returned and are not freed yet. -/
structure State where
  heap : Heap
  live : List Live

/-- `sbrk` fails, or gives memory above `base` and all it gave before. -/
def Fresh (sbrk : Sbrk) : Prop :=
  ∀ h n a, sbrk h n = some a → a % unit = 0 ∧ base + unit ≤ a ∧ ∀ r ∈ h.regions, r.stop ≤ a

/-- The request is for a positive `int` of bytes. -/
def Fits (nbytes : UInt32) : Prop := unit * max (nunits nbytes).toNat 4096 < 2 ^ 31

inductive Event
  | malloc (nbytes : UInt32) (p : Nat)
  | free (p : Nat)
  | write
deriving DecidableEq, Repr

/-- What a program does; a call returns after any number of rounds of its loops. -/
inductive Step : State → Event → State → Prop
  | malloc {s : State} {fuel p : Nat} {sbrk : Sbrk} {nbytes : UInt32} {h : Heap} (hfresh : Fresh base sbrk) (hfits : Fits nbytes)
      (hret : Malloc.malloc base fuel sbrk s.heap nbytes = some (h, p)) (hp : p ≠ 0) :
      Step s (.malloc nbytes p) ⟨h, ⟨⟨p - unit, (nunits nbytes).toNat⟩, nbytes⟩ :: s.live⟩
  | noMemory {s : State} {fuel : Nat} {sbrk : Sbrk} {nbytes : UInt32} {h : Heap} (hfresh : Fresh base sbrk) (hfits : Fits nbytes)
      (hret : Malloc.malloc base fuel sbrk s.heap nbytes = some (h, 0)) : Step s (.malloc nbytes 0) ⟨h, s.live⟩
  | free {s : State} {fuel : Nat} {b : Live} {h : Heap} (hb : b ∈ s.live) (hret : Malloc.free fuel s.heap b.ptr = some h) :
      Step s (.free b.ptr) ⟨h, s.live.erase b⟩
  /-- The program writes in its blocks, and anywhere else than in the memory of the allocator. -/
  | write {s : State} {hdr : Nat → Header} (hbase : hdr base = s.heap.hdr base)
      (hunits : ∀ r ∈ s.heap.regions, ∀ a ∈ r.units, (∀ b ∈ s.live, a ∉ b.payload) → hdr a = s.heap.hdr a) :
      Step s .write ⟨{ s.heap with hdr }, s.live⟩

/-- Before the first call. -/
def State.init (hdr : Nat → Header) : State := ⟨⟨hdr, 0, []⟩, []⟩

end LabSO.Malloc

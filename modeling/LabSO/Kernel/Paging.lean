import LabSO.Lib.Memory
import LabSO.Lib.Program

/-! Physical memory and page tables (`kalloc.c`, `vm.c`): the allocator with its free list, and the functions that build,
    change, copy and drop the page table of a process. Page tables and the links of the free list are in memory. -/

namespace LabSO.Paging
open Memory Program

/-! ### Addresses and page table entries -/

def PGSIZE : Nat := 4096
def KERNBASE : Nat := 0x80000000
def PHYSTOP : Nat := KERNBASE + 128 * 1024 * 1024
def MAXVA : Nat := 1 <<< (9 + 9 + 9 + 12 - 1)
def TRAMPOLINE : Nat := MAXVA - PGSIZE
def TRAPFRAME : Nat := TRAMPOLINE - PGSIZE

/-- A value as a `uint64` holds it. -/
def wrap64 (x : Nat) : Nat := x % 2 ^ 64

/-- A value as a `uint` holds it. -/
def wrap32 (x : Nat) : Nat := x % 2 ^ 32

/-- A value that goes through an `int` to a `uint64`. -/
def signExtend (x : Nat) : Nat := if wrap32 x < 2 ^ 31 then wrap32 x else wrap32 x + (2 ^ 64 - 2 ^ 32)

def PGROUNDDOWN (a : Nat) : Nat := a / PGSIZE * PGSIZE
def PGROUNDUP (sz : Nat) : Nat := PGROUNDDOWN (wrap64 (sz + PGSIZE - 1))

def PTE_V : Nat := 1 <<< 0
def PTE_R : Nat := 1 <<< 1
def PTE_W : Nat := 1 <<< 2
def PTE_X : Nat := 1 <<< 3
def PTE_U : Nat := 1 <<< 4

def PA2PTE (pa : Nat) : Nat := (pa >>> 12) <<< 10
def PTE2PA (pte : Nat) : Nat := wrap64 ((pte >>> 10) <<< 12)
def PTE_FLAGS (pte : Nat) : Nat := pte &&& 0x3FF

/-- The index of a virtual address into the page table of a level. -/
def PX (level va : Nat) : Nat := (va >>> (12 + 9 * level)) &&& 0x1FF

/-- What the linker fixes: the first address after the kernel, and the address of the trampoline code. -/
structure Image where
  kend : Nat
  trampoline : Nat
  aligned : trampoline % PGSIZE = 0
  above : KERNBASE ≤ trampoline
  below : trampoline + PGSIZE ≤ kend
  fits : kend ≤ PHYSTOP

/-! ### The state, and how the kernel stops -/

inductive Panic
  | kfree | walk | mapSize | remap | unaligned | unmapWalk | notMapped | notLeaf | freewalkLeaf | copyNoPte | copyNotPresent
  | uvmclear | uvmfirst | loadseg | initExiting | filedup | fileclose
  deriving DecidableEq

/-- How a call ends otherwise than by returning: it panics, it sleeps for another process, or it goes on without end. -/
inductive Halt
  | panic (p : Panic)
  | sleep
  | runaway
  deriving DecidableEq

/-- Physical memory, `kmem.freelist`, and for the next calls of `kalloc` whether they fail although there are pages. -/
structure Phys where
  mem : Mem
  freelist : Nat
  failing : List Bool

abbrev Vm (α : Type) : Type := Prog Phys Halt α

/-- Compute from memory. -/
def peek {α : Type} (f : Mem → α) : Vm α := liftState fun s => (f s.mem, s)

/-- Change memory. -/
def poke (f : Mem → Mem) : Vm Unit := liftState fun s => ((), { s with mem := f s.mem })

def loadPte (a : Nat) : Vm Nat := peek fun m => load m a 8
def storePte (a pte : Nat) : Vm Unit := poke fun m => store m a 8 pte

/-! ### `kalloc.c` -/

def kfree (M : Image) (pa : Nat) : Vm Unit :=
  if pa % PGSIZE ≠ 0 ∨ pa < M.kend ∨ PHYSTOP ≤ pa then halt (.panic .kfree)
  else do
    poke fun m => memset m pa 1 PGSIZE
    liftState fun s => ((), { s with mem := store s.mem pa 8 s.freelist, freelist := pa })

def kalloc : Vm Nat := liftState fun s =>
  if s.failing.head? = some true ∨ s.freelist = 0 then (0, { s with failing := s.failing.tail })
  else
    (s.freelist,
      { mem := memset s.mem s.freelist 5 PGSIZE
        freelist := load s.mem s.freelist 8
        failing := s.failing.tail })

/-! ### `vm.c` -/

/-- The loop of `walk` from a level down, in the page-table page of that level. -/
def walkFrom (alloc : Bool) (va : Nat) : Nat → Nat → Vm Nat
  | 0, pagetable => pure (pagetable + 8 * PX 0 va)
  | level + 1, pagetable => do
    let pte ← loadPte (pagetable + 8 * PX (level + 1) va)
    if pte &&& PTE_V ≠ 0 then walkFrom alloc va level (PTE2PA pte)
    else if !alloc then pure 0
    else do
      let child ← kalloc
      if child = 0 then pure 0
      else do
        poke fun m => memset m child 0 PGSIZE
        storePte (pagetable + 8 * PX (level + 1) va) (PA2PTE child ||| PTE_V)
        walkFrom alloc va level child

/-- The address of the entry for a virtual address, or 0. -/
def walk (pagetable va : Nat) (alloc : Bool) : Vm Nat :=
  if MAXVA ≤ va then halt (.panic .walk) else walkFrom alloc va 2 pagetable

def walkaddr (pagetable va : Nat) : Vm Nat :=
  if MAXVA ≤ va then pure 0
  else do
    let pte ← walk pagetable va false
    if pte = 0 then pure 0
    else do
      let pte ← loadPte pte
      if pte &&& PTE_V = 0 then pure 0
      else if pte &&& PTE_U = 0 then pure 0
      else pure (PTE2PA pte)

/-- The loop of `mappages`, for one page and the given number of further ones. -/
def mapFrom (pagetable perm : Nat) : Nat → Nat → Nat → Vm Int
  | more, a, pa => do
    let pte ← walk pagetable a true
    if pte = 0 then pure (-1)
    else do
      let old ← loadPte pte
      if old &&& PTE_V ≠ 0 then halt (.panic .remap)
      else do
        storePte pte (PA2PTE pa ||| perm ||| PTE_V)
        match more with
        | 0 => pure 0
        | more + 1 => mapFrom pagetable perm more (wrap64 (a + PGSIZE)) (wrap64 (pa + PGSIZE))

def mappages (pagetable va size pa perm : Nat) : Vm Int :=
  if size = 0 then halt (.panic .mapSize)
  else
    let last := PGROUNDDOWN (wrap64 (va + size - 1))
    mapFrom pagetable perm (wrap64 (last + 2 ^ 64 - PGROUNDDOWN va) / PGSIZE) (PGROUNDDOWN va) pa

/-- The loop of `uvmunmap` over the given number of pages. -/
def unmapFrom (M : Image) (pagetable : Nat) (doFree : Bool) : Nat → Nat → Vm Unit
  | 0, _ => pure ()
  | n + 1, a => do
    let pte ← walk pagetable a false
    if pte = 0 then halt (.panic .unmapWalk)
    else do
      let word ← loadPte pte
      if word &&& PTE_V = 0 then halt (.panic .notMapped)
      else if PTE_FLAGS word = PTE_V then halt (.panic .notLeaf)
      else do
        onlyIf (doFree = true) (kfree M (PTE2PA word))
        storePte pte 0
        unmapFrom M pagetable doFree n (a + PGSIZE)

def uvmunmap (M : Image) (pagetable va npages : Nat) (doFree : Bool) : Vm Unit :=
  if va % PGSIZE ≠ 0 then halt (.panic .unaligned)
  else unmapFrom M pagetable doFree ((wrap64 (va + npages * PGSIZE) - va) / PGSIZE) va

def uvmcreate : Vm Nat := do
  let pagetable ← kalloc
  if pagetable = 0 then pure 0
  else do
    poke fun m => memset m pagetable 0 PGSIZE
    pure pagetable

/-- `initcode` must be less than a page, and there is memory when the first process is made. -/
def uvmfirst (pagetable : Nat) (src : List UInt8) : Vm Unit :=
  if PGSIZE ≤ src.length then halt (.panic .uvmfirst)
  else do
    let mem ← kalloc
    poke fun m => memset m mem 0 PGSIZE
    let _ ← mappages pagetable 0 PGSIZE mem (PTE_W ||| PTE_R ||| PTE_X ||| PTE_U)
    poke fun m => blit m mem src

def uvmdealloc (M : Image) (pagetable oldsz newsz : Nat) : Vm Nat :=
  if oldsz ≤ newsz then pure oldsz
  else do
    onlyIf (PGROUNDUP newsz < PGROUNDUP oldsz)
      (uvmunmap M pagetable (PGROUNDUP newsz) (signExtend ((PGROUNDUP oldsz - PGROUNDUP newsz) / PGSIZE)) true)
    pure newsz

/-- One round of `uvmalloc`: whether there is memory for a page and its mapping. -/
def allocPage (M : Image) (pagetable a xperm : Nat) : Vm Bool := do
  let mem ← kalloc
  if mem = 0 then pure false
  else do
    poke fun m => memset m mem 0 PGSIZE
    let r ← mappages pagetable a PGSIZE mem (PTE_R ||| PTE_U ||| xperm)
    if r ≠ 0 then do
      kfree M mem
      pure false
    else pure true

/-- The loop of `uvmalloc` over the given number of pages. -/
def allocFrom (M : Image) (pagetable oldsz newsz xperm : Nat) : Nat → Nat → Vm Nat
  | 0, _ => pure newsz
  | n + 1, a => do
    if ← allocPage M pagetable a xperm then allocFrom M pagetable oldsz newsz xperm n (a + PGSIZE)
    else do
      let _ ← uvmdealloc M pagetable a oldsz
      pure 0

def uvmalloc (M : Image) (pagetable oldsz newsz xperm : Nat) : Vm Nat :=
  if newsz < oldsz then pure oldsz
  else
    allocFrom M pagetable (PGROUNDUP oldsz) newsz xperm ((newsz + PGSIZE - 1 - PGROUNDUP oldsz) / PGSIZE) (PGROUNDUP oldsz)

/-- Free the page-table pages of a table that has at most the given number of levels. -/
def freewalk (M : Image) : Nat → Nat → Vm Unit
  | 0, _ => halt .runaway
  | depth + 1, pagetable => do
    forEach (fun i => do
      let pte ← loadPte (pagetable + 8 * i)
      if pte &&& PTE_V ≠ 0 ∧ pte &&& (PTE_R ||| PTE_W ||| PTE_X) = 0 then do
        freewalk M depth (PTE2PA pte)
        storePte (pagetable + 8 * i) 0
      else onlyIf (pte &&& PTE_V ≠ 0) (halt (.panic .freewalkLeaf))) (List.range 512)
    kfree M pagetable

def uvmfree (M : Image) (pagetable sz : Nat) : Vm Unit := do
  onlyIf (0 < sz) (uvmunmap M pagetable 0 (PGROUNDUP sz / PGSIZE) true)
  freewalk M 3 pagetable

/-- The loop of `uvmcopy` over the given number of pages, with what follows `err`. -/
def copyFrom (M : Image) (old new : Nat) : Nat → Nat → Vm Int
  | 0, _ => pure 0
  | n + 1, i => do
    let pte ← walk old i false
    if pte = 0 then halt (.panic .copyNoPte)
    else do
      let word ← loadPte pte
      if word &&& PTE_V = 0 then halt (.panic .copyNotPresent)
      else do
        let mem ← kalloc
        if mem = 0 then do
          uvmunmap M new 0 (i / PGSIZE) true
          pure (-1)
        else do
          poke fun m => memmove m mem (PTE2PA word) PGSIZE
          let r ← mappages new i PGSIZE mem (PTE_FLAGS word)
          if r ≠ 0 then do
            kfree M mem
            uvmunmap M new 0 (i / PGSIZE) true
            pure (-1)
          else copyFrom M old new n (i + PGSIZE)

def uvmcopy (M : Image) (old new sz : Nat) : Vm Int := copyFrom M old new ((sz + PGSIZE - 1) / PGSIZE) 0

def uvmclear (pagetable va : Nat) : Vm Unit := do
  let pte ← walk pagetable va false
  if pte = 0 then halt (.panic .uvmclear)
  else do
    let word ← loadPte pte
    storePte pte (word &&& (2 ^ 64 - 1 - PTE_U))

/-- The loop of `copyout`: each round copies at least one byte. -/
def copyoutLoop (pagetable : Nat) : Nat → Nat → List UInt8 → Vm Int
  | 0, _, _ => pure 0
  | rounds + 1, dstva, src =>
    if src = [] then pure 0
    else do
      let pa0 ← walkaddr pagetable (PGROUNDDOWN dstva)
      if pa0 = 0 then pure (-1)
      else do
        let n := min (PGSIZE - (dstva - PGROUNDDOWN dstva)) src.length
        poke fun m => blit m (pa0 + (dstva - PGROUNDDOWN dstva)) (src.take n)
        copyoutLoop pagetable rounds (wrap64 (PGROUNDDOWN dstva + PGSIZE)) (src.drop n)

/-- Copy the bytes at `src` to a user address. -/
def copyout (pagetable dstva : Nat) (src : List UInt8) : Vm Int := copyoutLoop pagetable src.length dstva src

/-- The `n` bytes from `a` on. -/
def bytesAt (m : Mem) (a n : Nat) : List UInt8 := (List.range n).map fun i => m (a + i)

/-- The loop of `copyin`: each round copies at least one byte. -/
def copyinLoop (pagetable : Nat) : Nat → Nat → Nat → Vm (Option (List UInt8))
  | 0, _, _ => pure (some [])
  | rounds + 1, srcva, len =>
    if len = 0 then pure (some [])
    else do
      let pa0 ← walkaddr pagetable (PGROUNDDOWN srcva)
      if pa0 = 0 then pure none
      else do
        let n := min (PGSIZE - (srcva - PGROUNDDOWN srcva)) len
        let bytes ← peek fun m => bytesAt m (pa0 + (srcva - PGROUNDDOWN srcva)) n
        let rest ← copyinLoop pagetable rounds (wrap64 (PGROUNDDOWN srcva + PGSIZE)) (len - n)
        pure (rest.map (bytes ++ ·))

/-- The bytes at a user address, or none. -/
def copyin (pagetable srcva len : Nat) : Vm (Option (List UInt8)) := copyinLoop pagetable len srcva len

/-- The bytes up to and with the first zero. -/
def upToNull : List UInt8 → List UInt8
  | [] => []
  | c :: rest => if c = 0 then [c] else c :: upToNull rest

/-- The loop of `copyinstr`: the bytes that reach `dst`, and whether a null is among them. -/
def copyinstrLoop (pagetable : Nat) : Nat → Nat → Nat → Vm (List UInt8 × Bool)
  | 0, _, _ => pure ([], false)
  | rounds + 1, srcva, max =>
    if max = 0 then pure ([], false)
    else do
      let pa0 ← walkaddr pagetable (PGROUNDDOWN srcva)
      if pa0 = 0 then pure ([], false)
      else do
        let n := min (PGSIZE - (srcva - PGROUNDDOWN srcva)) max
        let bytes ← peek fun m => bytesAt m (pa0 + (srcva - PGROUNDDOWN srcva)) n
        if 0 ∈ bytes then pure (upToNull bytes, true)
        else do
          let rest ← copyinstrLoop pagetable rounds (wrap64 (PGROUNDDOWN srcva + PGSIZE)) (max - n)
          pure (bytes ++ rest.1, rest.2)

def copyinstr (pagetable srcva max : Nat) : Vm (List UInt8 × Bool) := copyinstrLoop pagetable max srcva max

end LabSO.Paging

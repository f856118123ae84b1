import LabSO.Lib.MonitorRules

/-! `console.c`: the code of `consoleread` and `consoleintr` under `cons.lock`, and what a sequence of typed characters
    means to a reader of lines. -/

namespace LabSO.Console
open Monitor

def INPUT_BUF_SIZE : Nat := 128

/-- `C(x)`: the character that a key makes together with control. -/
def C (x : Char) : UInt8 := .ofNat (x.toNat - '@'.toNat)

def newline : UInt8 := 10

/-! ### Lines -/

/-- A character that takes effect: it erases one character or all of them, or is stored; `full` says that it fills the
    buffer. -/
inductive Key
  | erase
  | kill
  | char (c : UInt8) (full : Bool)
deriving DecidableEq, Repr

/-- What is typed: the committed input, and the tail that can still be edited. -/
structure Line where
  committed : List UInt8
  tail : List UInt8
deriving DecidableEq, Repr

/-- A line, or the end of the file, is complete. -/
def Ends (c : UInt8) : Prop := c = newline ∨ c = C 'D'

instance (c : UInt8) : Decidable (Ends c) := inferInstanceAs (Decidable (_ ∨ _))

/-- Editing changes the tail only; a line that is complete or fills the buffer is committed with it. -/
def Line.edit (l : Line) : Key → Line
  | .erase => { l with tail := l.tail.dropLast }
  | .kill => { l with tail := [] }
  | .char c full =>
    if Ends c ∨ full then { committed := l.committed ++ (l.tail ++ [c]), tail := [] } else { l with tail := l.tail ++ [c] }

def typed (keys : List Key) : Line := keys.foldl Line.edit ⟨[], []⟩

/-! ### The console -/

/-- `cons` without its lock. -/
structure Cons where
  buf : Nat → UInt8
  /-- Read index. -/
  r : UInt32
  /-- Write index. -/
  w : UInt32
  /-- Edit index. -/
  e : UInt32

/-- `cons.buf[i % INPUT_BUF_SIZE]`. -/
def Cons.at (s : Cons) (i : UInt32) : UInt8 := s.buf (i.toNat % INPUT_BUF_SIZE)

/-- The console with what surrounds it: `keys` are the characters that took effect so far, `consumed` the bytes that
    `consoleread` took out of the buffer, and `delivered` those that it copied to a reader. The code does not look at
    these three. -/
structure Data where
  cons : Cons
  keys : List Key
  consumed : List UInt8
  delivered : List UInt8

/-- A call of `consoleread`: `n`, and the first offset at which the copy to the reader fails, if there is one. -/
structure ReadCall where
  n : Int
  fault : Option Nat
deriving DecidableEq, Repr

/-- The places in the two functions, under the lock. A read has `got` some bytes so far. -/
inductive Point
  /-- `while(n > 0)`. -/
  | loop (x : ReadCall) (got : List UInt8)
  /-- `while(cons.r == cons.w)`. -/
  | wait (x : ReadCall) (got : List UInt8)
  | killed (x : ReadCall) (got : List UInt8)
  /-- `release(&cons.lock); return -1;`. -/
  | fail (x : ReadCall) (got : List UInt8)
  | sleep (x : ReadCall) (got : List UInt8)
  /-- `c = cons.buf[cons.r++ % INPUT_BUF_SIZE];` and what is done with `c`. -/
  | take (x : ReadCall) (got : List UInt8)
  | done (x : ReadCall) (got : List UInt8)
  | intr (c : UInt8)
  | intrWake
  | intrDone
deriving DecidableEq, Repr

inductive Result
  | read (x : ReadCall) (got : List UInt8) (value : Int)
  | intr
deriving DecidableEq, Repr

inductive Request
  | read (n : Int) (fault : Option Nat)
  | intr (c : UInt8)
deriving DecidableEq, Repr

/-- `while(cons.e != cons.w && cons.buf[(cons.e-1) % INPUT_BUF_SIZE] != '\\n') cons.e--;`, which ends after at most
    `cons.e - cons.w` rounds. -/
def Cons.killLine : Nat → Cons → Cons
  | 0, s => s
  | rounds + 1, s => if s.e ≠ s.w ∧ s.at (s.e - 1) ≠ newline then killLine rounds { s with e := s.e - 1 } else s

/-- `cons.buf[cons.e++ % INPUT_BUF_SIZE] = c;`. -/
def Cons.put (s : Cons) (c : UInt8) : Cons :=
  { s with buf := Function.update s.buf (s.e.toNat % INPUT_BUF_SIZE) c, e := s.e + 1 }

/-- `cons.e-cons.r == INPUT_BUF_SIZE`. -/
def Cons.Full (s : Cons) : Prop := s.e - s.r = .ofNat INPUT_BUF_SIZE

instance (s : Cons) : Decidable s.Full := inferInstanceAs (Decidable (_ = _))

/-- The character that is stored for a typed one. -/
def stored (c : UInt8) : UInt8 := if c = 13 then newline else c

/-- `cons.buf[cons.e++ % INPUT_BUF_SIZE] = c;`, and `cons.w = cons.e;` if that commits. -/
def Data.store (b : Data) (c : UInt8) : Data :=
  let s := b.cons.put c
  { b with
    cons := if Ends c ∨ s.Full then { s with w := s.e } else s
    keys := b.keys ++ [.char c (decide s.Full)] }

/-- The body of `consoleintr`, and where it goes on. -/
def intr (b : Data) (c : UInt8) : Data × Point :=
  if c = C 'P' then (b, .intrDone)
  else if c = C 'U' then
    ({ b with cons := b.cons.killLine (b.cons.e - b.cons.w).toNat, keys := b.keys ++ [.kill] }, .intrDone)
  else if c = C 'H' ∨ c = 0x7f then
    (if b.cons.e ≠ b.cons.w then { b with cons := { b.cons with e := b.cons.e - 1 }, keys := b.keys ++ [.erase] } else b,
      .intrDone)
  else if c ≠ 0 ∧ b.cons.e - b.cons.r < .ofNat INPUT_BUF_SIZE then
    (b.store (stored c), if Ends (stored c) ∨ (b.cons.put (stored c)).Full then .intrWake else .intrDone)
  else (b, .intrDone)

/-- What `consoleread` does with the next byte, and where it goes on. -/
def take (b : Data) (x : ReadCall) (got : List UInt8) : Data × Point :=
  let c := b.cons.at b.cons.r
  let taken : Data := { b with cons := { b.cons with r := b.cons.r + 1 }, consumed := b.consumed ++ [c] }
  if c = C 'D' then
    -- Save ^D for next time.
    if x.n - got.length < x.n then (b, .done x got) else (taken, .done x got)
  else if x.fault = some got.length then (taken, .done x got)
  else
    ({ taken with delivered := b.delivered ++ [c] }, if c = newline then .done x (got ++ [c]) else .loop x (got ++ [c]))

/-- The one address slept on is `&cons.r`. -/
abbrev Chan : Type := Unit

/-- The next step of a thread at each place. -/
def op (b : Data) : Point → Op Chan Data Point Result
  | .loop x got => .set b (if 0 < x.n - got.length then .wait x got else .done x got)
  | .wait x got => .set b (if b.cons.r = b.cons.w then .killed x got else .take x got)
  | .killed x got => .killed (.fail x got) (.sleep x got)
  | .fail x got => .release (.read x got (-1))
  | .sleep x got => .sleep () (.wait x got)
  | .take x got => .set (take b x got).1 (take b x got).2
  | .done x got => .release (.read x got got.length)
  | .intr c => .set (intr b c).1 (intr b c).2
  | .intrWake => .wakeup () .intrDone
  | .intrDone => .release .intr

variable {n : Nat} {η : Type}

/-- Processes read, and the interrupt handlers, one for each processor, are called with the characters that are typed. -/
def enter (b : Data) : Thread n η → Request → Option (Data × Option Point)
  | .inl _, .read len fault => some (b, some (.loop ⟨len, fault⟩ []))
  | .inr _, .intr c => some (b, some (.intr c))
  | _, _ => none

def code (n : Nat) (η : Type) : Code n η Chan Data Point Result Request Empty where
  op _ k b := op b k
  enter a x b := enter b a x
  env e _ := nomatch e

abbrev ConsState (n : Nat) (η : Type) : Type := State n η Chan Data Point

/-- The console before the first character. -/
def fresh : Data where
  cons := { buf := fun _ => 0, r := 0, w := 0, e := 0 }
  keys := []
  consumed := []
  delivered := []

end LabSO.Console

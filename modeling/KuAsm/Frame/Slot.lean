import KuAsm.Machine.Operand

/-!
# Slots of a frame

A slot is a range of bytes of a frame: `size` bytes reserved at `offset`, counted downwards from the
frame pointer.  Offsets are numbers of 32 bits.  An operation that leaves that range stops with a
`Fault`; nothing wraps around silently.

* `Slot.disp` is the displacement of a slot from the frame pointer.
* `Mem.slot` is the operand that reaches a slot through a register.
-/

namespace KuAsm

/-- Arithmetic that leaves the range of its numbers, a list that is too short, or more room than
there can be. -/
inductive Fault where
  | addOverflow
  | multiplyOverflow
  | negateOverflow
  | outOfBounds (length index : Nat)
  | capacityOverflow
deriving DecidableEq, Repr

/-- The wording of a fault. -/
def Fault.message : Fault → String
  | addOverflow => "attempt to add with overflow"
  | multiplyOverflow => "attempt to multiply with overflow"
  | negateOverflow => "attempt to negate with overflow"
  | outOfBounds n i =>
    "index out of bounds: the len is " ++ toString n ++ " but the index is " ++ toString i
  | capacityOverflow => "capacity overflow"

/-- The number of values of 32 bits. -/
def wordCount : Nat := 4294967296

/-- The number of values of 32 bits that are not negative as signed numbers. -/
def halfCount : Nat := 2147483648

/-- The signed value of a 32-bit pattern given as a natural number. -/
def signedWord (n : Nat) : Int :=
  let w := n % wordCount
  if w < halfCount then w else (w : Int) - wordCount

/-- A range of bytes of a frame. -/
structure Slot where
  /-- Bytes of the frame reserved before this slot. -/
  offset : Nat
  /-- Bytes of the slot. -/
  size : Nat
deriving DecidableEq, Repr, Inhabited

namespace Slot

/-- The first byte behind the slot, counted like the offset. -/
def bound (s : Slot) : Nat := s.offset + s.size

/-- The displacement of the slot from the frame pointer: the bound as a signed number, negated. -/
def disp (s : Slot) : Except Fault Int :=
  if wordCount ≤ s.bound then .error .addOverflow
  else if s.bound = halfCount then .error .negateOverflow
  else .ok (-signedWord s.bound)

end Slot

/-- The slot of the frame that `base` points at. -/
def Mem.slot (base : Reg) (s : Slot) : Except Fault Mem :=
  s.disp.map fun d => ⟨base, none, d, Width.ofSize? s.size⟩

end KuAsm

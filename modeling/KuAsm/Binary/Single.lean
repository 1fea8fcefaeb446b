import KuAsm.Binary.Format

/-!
# 32-bit floating-point numbers

A decimal literal is a `Single`, kept as its bit pattern: the emitted code moves the pattern as it
stands, and equality of literals is equality of patterns.
-/

namespace KuAsm

open Binary

/-- A 32-bit floating-point number, by its bit pattern. -/
structure Single where
  /-- Sign, exponent and significand, from the top bit down. -/
  bits : UInt32
deriving DecidableEq, Repr, Inhabited

namespace Single

/-- Positive zero. -/
def zero : Single := ⟨0⟩

/-- The value of the top bit of a pattern. -/
def signBit : Nat := 2147483648

/-- The value of the leading bit of a significand, which is not stored. -/
def hiddenBit : Nat := 8388608

/-- The sign bit. -/
def negative (x : Single) : Bool := decide (signBit ≤ x.bits.toNat)

/-- The eight bits of the exponent. -/
def biased (x : Single) : Nat := x.bits.toNat / hiddenBit % 256

/-- The 23 stored bits of the significand. -/
def stored (x : Single) : Nat := x.bits.toNat % hiddenBit

/-- Whether the number is neither an infinity nor a NaN. -/
def isFinite (x : Single) : Bool := x.biased != 255

/-- The significand with its hidden bit. -/
def significand (x : Single) : Nat := if x.biased = 0 then x.stored else x.stored + hiddenBit

/-- The exponent of the last bit of the significand. -/
def exponent (x : Single) : Int := if x.biased = 0 then -149 else (x.biased : Int) - 150

/-- Whether the gap to the number below is half the gap to the number above. -/
def isLowerGapHalf (x : Single) : Bool := x.stored == 0 && decide (1 < x.biased)

/-- The bit pattern of a rounded number with a sign. -/
def ofRounded (neg : Bool) (r : Rounded) : Single :=
  let magnitude : Nat := match r with
    | .infinite => 255 * hiddenBit
    | .finite m e => if m < hiddenBit then m else (e + 150).toNat * hiddenBit + (m - hiddenBit)
  ⟨UInt32.ofNat (if neg then signBit + magnitude else magnitude)⟩

/-- The number nearest to an integer. -/
def ofInt (i : Int) : Single := ofRounded (decide (i < 0)) (Format.single.nearest i.natAbs 1)

end Single

end KuAsm

/-!
# Rounding to a binary floating-point format

A format keeps `precision` bits of a number and the exponent of the last of them.  Rounding is
exact: the quotient of two natural numbers is taken to the nearest representable number, and a
number half way between two goes to the one whose last bit is zero.

* `Format.nearest` rounds a quotient.
* `Rounded.mul`, `Rounded.div` are the two operations that reading a decimal numeral needs.
-/

namespace KuAsm.Binary

/-- A binary floating-point format: finite numbers are `m * 2 ^ e` with `m < 2 ^ precision` and
`minExp ≤ e ≤ maxExp`. -/
structure Format where
  /-- Bits of the significand. -/
  precision : Nat
  /-- The exponent of the last place of the smallest numbers. -/
  minExp : Int
  /-- The exponent of the last place of the largest numbers. -/
  maxExp : Int
deriving DecidableEq, Repr

/-- The first number that is too large for a significand. -/
def Format.bound (f : Format) : Nat := Nat.pow 2 f.precision

/-- Four bytes: 24 bits of significand. -/
def Format.single : Format := ⟨24, -149, 104⟩

/-- Eight bytes: 53 bits of significand. -/
def Format.double : Format := ⟨53, -1074, 971⟩

/-- The outcome of rounding a number that is not negative. -/
inductive Rounded where
  /-- The number `significand * 2 ^ exponent`. -/
  | finite (significand : Nat) (exponent : Int)
  /-- The number is too large for the format. -/
  | infinite
deriving DecidableEq, Repr

/-- The quotient rounded to a natural number, a half going to the even neighbour. -/
def roundQuotient (num den : Nat) : Nat :=
  let q := num / den
  let r := num % den
  if den < 2 * r ∨ (2 * r = den ∧ q % 2 = 1) then q + 1 else q

/-- The quotient `num / (den * 2 ^ e)` as a pair of natural numbers. -/
def scaled (num den : Nat) (e : Int) : Nat × Nat :=
  (num * Nat.pow 2 (-e).toNat, den * Nat.pow 2 e.toNat)

/-- The representable number nearest to `num / den`.

The exponent is first guessed from the bit lengths of the two numbers, which leaves a quotient of at
most one bit too many. -/
def Format.nearest (f : Format) (num den : Nat) : Rounded :=
  if num = 0 then .finite 0 f.minExp
  else
    let guess : Int := max f.minExp (num.log2 - den.log2 - f.precision)
    let whole := scaled num den guess
    let e := if whole.1 / whole.2 < f.bound then guess else guess + 1
    let part := scaled num den e
    let m := roundQuotient part.1 part.2
    let top := if m = f.bound then (f.bound / 2, e + 1) else (m, e)
    if f.maxExp < top.2 then .infinite else .finite top.1 top.2

namespace Rounded

/-- Round a number of another format to `f`. -/
def toFormat (f : Format) : Rounded → Rounded
  | finite m e => f.nearest (m * Nat.pow 2 e.toNat) (Nat.pow 2 (-e).toNat)
  | infinite => infinite

/-- The product of two numbers, rounded to `f`. -/
def mul (f : Format) : Rounded → Rounded → Rounded
  | finite m e, finite n d => toFormat f (finite (m * n) (e + d))
  | _, _ => infinite

/-- The quotient of two numbers, rounded to `f`; the divisor is never zero where this is used. -/
def div (f : Format) : Rounded → Rounded → Rounded
  | finite m e, finite n d => f.nearest (m * Nat.pow 2 (e - d).toNat) (n * Nat.pow 2 (d - e).toNat)
  | finite _ _, infinite => finite 0 f.minExp
  | infinite, _ => infinite

/-- Whether the number is zero. -/
def isZero : Rounded → Bool
  | finite 0 _ => true
  | _ => false

end Rounded

end KuAsm.Binary

import KuAsm.Binary.Single

/-!
# The fewest digits that read back

Among the decimal numbers that round to a given `Single`, the printed one has the fewest digits, and
of several with as few digits it is the nearest.  Two of them may be equally near, as `1048576.2`
and `1048576.3` are to `1048576.25`; which of them is taken is for the written form to say.

The numbers that round to `m * 2 ^ e` are those between `(4 * m - below) * 2 ^ (e - 2)` and
`(4 * m + 2) * 2 ^ (e - 2)`, where `below` is `2`, or `1` when the gap to the number below is only
half as wide.  The two ends belong to them exactly when `m` is even.  `shortest` walks through the
grids `10 ^ 39, 10 ^ 38, …` and stops at the first that has a point there; only the two neighbours
of the number on that grid can be such a point.
-/

namespace KuAsm.Single

/-- A decimal number `digits * 10 ^ power`. -/
structure Decimal where
  /-- The digits, read as one number. -/
  digits : Nat
  /-- The power of ten of the last digit. -/
  power : Int
deriving DecidableEq, Repr

/-- Which of two equally near numbers is taken. -/
inductive Tie where
  /-- The larger one. -/
  | up
  /-- The one whose last digit is even. -/
  | even
deriving DecidableEq, Repr

/-- The number taken when `low` and the number after it are equally near. -/
def Tie.pick (tie : Tie) (low : Nat) : Nat :=
  match tie with
  | up => low + 1
  | even => if low % 2 = 0 then low else low + 1

/-- Numbers on both sides of a comparison of `c * 10 ^ power` with `x * 2 ^ exponent`: the former is
to the latter as `c * fst` is to `x * snd`. -/
def commonScale (power exponent : Int) : Nat × Nat :=
  (Nat.pow 10 power.toNat * Nat.pow 2 (-exponent).toNat,
    Nat.pow 2 exponent.toNat * Nat.pow 10 (-power).toNat)

/-- The point of the grid `10 ^ power` that rounds to the number, if there is one; of two, the
nearer. -/
def onGrid? (tie : Tie) (m : Nat) (e : Int) (below : Nat) (power : Int) : Option Nat :=
  let scale := commonScale power (e - 2)
  let inside (c : Nat) : Bool :=
    if m % 2 = 0 then
      decide ((4 * m - below) * scale.2 ≤ c * scale.1 ∧ c * scale.1 ≤ (4 * m + 2) * scale.2)
    else
      decide ((4 * m - below) * scale.2 < c * scale.1 ∧ c * scale.1 < (4 * m + 2) * scale.2)
  let value := 4 * m * scale.2
  let low := value / scale.1
  let high := low + 1
  let lowFits := low != 0 && inside low
  let highFits := inside high
  if lowFits && highFits then
    let down := value - low * scale.1
    let up := high * scale.1 - value
    some (if down < up then low else if up < down then high else tie.pick low)
  else if lowFits then some low
  else if highFits then some high
  else none

/-- The first grid at or below `10 ^ power` with a point that rounds to the number. -/
def firstGrid (tie : Tie) (m : Nat) (e : Int) (below : Nat) : Nat → Int → Decimal
  | 0, power => ⟨0, power⟩
  | n + 1, power =>
    match onGrid? tie m e below power with
    | some c => ⟨c, power⟩
    | none => firstGrid tie m e below n (power - 1)

/-- The shortest decimal number that rounds to the magnitude of `x`, which must be finite and not
zero.  Every such magnitude is itself a point of the grid `10 ^ -149`, so the walk ends. -/
def shortest (tie : Tie) (x : Single) : Decimal :=
  firstGrid tie x.significand x.exponent (if x.isLowerGapHalf then 1 else 2) 190 39

end KuAsm.Single

import KuAsm.Binary.Layout
import KuAsm.Json.Text

/-!
# Numerals of the exchange format

A numeral is kept as it is written, so that the three readings of it stay apart.

* `Numeral.integer?`: a numeral without point and exponent that fits in 64 bits is an integer.
  Minus zero is none.
* `Numeral.double?`: any numeral is a floating-point number of eight bytes, unless it is too large.
  The leading digits that fit in 64 bits are scaled by a power of ten; both are rounded first, then
  their product or quotient.
* `Numeral.single?`: a decimal literal.  An integer is rounded to four bytes directly, anything else
  by way of eight bytes.

`Numeral.ofInt` and `Numeral.ofSingle` are the two ways a program writes numbers.
-/

namespace KuAsm.Json

open Binary

/-- A number as it is written: sign, digits, digits behind the point, and an exponent with the sign
`true` for minus. -/
structure Numeral where
  /-- Whether a minus stands in front. -/
  negative : Bool
  /-- The digits in front of the point. -/
  whole : List Char
  /-- The digits behind the point; none if there is no point. -/
  fraction : List Char
  /-- The exponent: whether it is negative, and its digits. -/
  exponent : Option (Bool × List Char)
deriving DecidableEq, Repr

/-- Whether a character is a decimal digit. -/
def isDigit (c : Char) : Bool := decide ('0' ≤ c ∧ c ≤ '9')

/-- The value of a decimal digit. -/
def digitValue (c : Char) : Nat := c.toNat - '0'.toNat

/-- The number that a row of digits is. -/
def digitsValue (cs : List Char) : Nat := cs.foldl (fun n c => 10 * n + digitValue c) 0

namespace Numeral

/-- The largest natural number that fits in 64 bits. -/
def wordMax : Nat := 18446744073709551615

/-- The greatest magnitude of a negative integer that fits in 64 bits. -/
def negativeMax : Nat := 9223372036854775808

/-- Take digits into a significand as long as it fits in 64 bits: the significand, and the digits
that are left. -/
def gather : Nat → List Char → Nat × List Char
  | n, [] => (n, [])
  | n, c :: cs =>
    if 10 * n + digitValue c ≤ wordMax then gather (10 * n + digitValue c) cs else (n, c :: cs)

/-- The exponent as a number. -/
def power (n : Numeral) : Int :=
  match n.exponent with
  | none => 0
  | some (true, ds) => -(digitsValue ds : Int)
  | some (false, ds) => digitsValue ds

/-- The significand of the leading digits and the power of ten that scales it.  A digit in front of
the point that no longer fits counts as a zero; one behind the point is dropped with all after
it. -/
def scientific (n : Numeral) : Nat × Int :=
  let head := gather 0 n.whole
  let tail := gather head.1 n.fraction
  (tail.1, (head.2.length : Int) - (n.fraction.length - tail.2.length : Nat) + n.power)

/-- The integer that a numeral is.  A negative one is at least `-2 ^ 63` and not zero. -/
def integer? (n : Numeral) : Option Int :=
  let v := digitsValue n.whole
  if n.fraction ≠ [] ∨ n.exponent ≠ none then none
  else if n.negative then
    if 0 < v ∧ v ≤ negativeMax then some (-(v : Int)) else none
  else if v ≤ wordMax then some (v : Int) else none

/-- Ten to the power `k` as a floating-point number of eight bytes. -/
def tenPower (k : Nat) : Rounded := Format.double.nearest (Nat.pow 10 k) 1

/-- Divide by `10 ^ 308` at most `n` times, and stop at zero. -/
def shrink : Nat → Rounded → Rounded
  | 0, r => r
  | n + 1, r => if r.isZero then r else shrink n (r.div .double (tenPower 308))

/-- `significand * 10 ^ power`, unless it is too large.  A power below `10 ^ -308` is divided out in
several steps. -/
def scale? (significand : Nat) (power : Int) : Option Rounded :=
  let base := Format.double.nearest significand 1
  if 0 ≤ power then
    if power ≤ 308 then
      match base.mul .double (tenPower power.toNat) with
      | .infinite => none
      | r => some r
    else if base.isZero then some base
    else none
  else
    let k := (-power).toNat
    let steps := (k - 1) / 308
    some ((shrink steps base).div .double (tenPower (k - 308 * steps)))

/-- The magnitude of the numeral as a floating-point number of eight bytes, unless it is too
large. -/
def double? (n : Numeral) : Option Rounded := scale? n.scientific.1 n.scientific.2

/-- Whether the numeral is neither an integer nor a floating-point number. -/
def isOutOfRange (n : Numeral) : Bool := n.integer?.isNone && n.double?.isNone

/-- The decimal literal that a numeral is. -/
def single? (n : Numeral) : Option Single :=
  match n.integer? with
  | some i => some (Single.ofInt i)
  | none => n.double?.map fun r => Single.ofRounded n.negative (r.toFormat .single)

/-- An integer as it is written. -/
def ofInt (i : Int) : Numeral := ⟨decide (i < 0), Nat.toDigits 10 i.natAbs, [], none⟩

/-- A finite decimal literal as it is written: always with a point or an exponent, and with the
exponent from `10 ^ 13` on and from `10 ^ -7` down.  Of two equally near numbers it is the even
one. -/
def ofSingle (x : Single) : Numeral :=
  let d := x.decimal .even
  if x.significand ≠ 0 ∧ (13 ≤ d.leading ∨ d.leading ≤ -7) then
    ⟨x.negative, d.digitList.take 1, d.digitList.drop 1,
      some (decide (d.leading < 0), Nat.toDigits 10 d.leading.natAbs)⟩
  else
    let parts := d.split
    ⟨x.negative, parts.1, if parts.2 = [] then ['0'] else parts.2, none⟩

/-- The characters of a numeral. -/
def render (n : Numeral) : List Char :=
  (if n.negative then ['-'] else []) ++ n.whole
    ++ (if n.fraction = [] then [] else '.' :: n.fraction)
    ++ match n.exponent with
      | none => []
      | some (neg, ds) => 'e' :: (if neg then '-' else '+') :: ds

end Numeral

/-- The flaw of a numeral that stops where a digit has to stand.  A value that is passed over does
not tell the end of the text from a wrong character. -/
def digitMissing (lenient : Bool) (rest : List Char) : Flaw :=
  if rest = [] ∧ lenient = false then .ended else .malformed

/-- Read the exponent, behind the letter that opens it. -/
def scanExponent (lenient : Bool) (cs : List Char) : Except Flaw ((Bool × List Char) × List Char) :=
  let signed : Bool × List Char := match cs with
    | '+' :: rest => (false, rest)
    | '-' :: rest => (true, rest)
    | _ => (false, cs)
  let digits := signed.2.takeWhile isDigit
  let rest := signed.2.dropWhile isDigit
  if digits = [] then .error (digitMissing lenient rest) else .ok ((signed.1, digits), rest)

/-- Read what may follow the digits in front of the point. -/
def scanTail (lenient neg : Bool) (whole cs : List Char) : Except Flaw (Numeral × List Char) :=
  match cs with
  | '.' :: rest =>
    let fraction := rest.takeWhile isDigit
    let rest := rest.dropWhile isDigit
    if fraction = [] then .error (digitMissing lenient rest)
    else match rest with
      | 'e' :: rest | 'E' :: rest =>
        (scanExponent lenient rest).map fun x => (⟨neg, whole, fraction, some x.1⟩, x.2)
      | _ => .ok (⟨neg, whole, fraction, none⟩, rest)
  | 'e' :: rest | 'E' :: rest =>
    (scanExponent lenient rest).map fun x => (⟨neg, whole, [], some x.1⟩, x.2)
  | _ => .ok (⟨neg, whole, [], none⟩, cs)

/-- Read a numeral as it is written, whatever its size.  Only the numeral zero begins with a
zero. -/
def scanDigits (lenient : Bool) (cs : List Char) : Except Flaw (Numeral × List Char) :=
  let signed : Bool × List Char := match cs with
    | '-' :: rest => (true, rest)
    | _ => (false, cs)
  match signed.2 with
  | [] => .error (digitMissing lenient [])
  | '0' :: rest =>
    match rest with
    | c :: _ => if isDigit c then .error .malformed else scanTail lenient signed.1 ['0'] rest
    | [] => scanTail lenient signed.1 ['0'] rest
  | c :: rest =>
    if isDigit c then
      scanTail lenient signed.1 ((c :: rest).takeWhile isDigit) ((c :: rest).dropWhile isDigit)
    else .error .malformed

/-- Read a numeral.  One that is too large is an error of form, unless it is passed over. -/
def scanNumeral (lenient : Bool) (cs : List Char) : Except Flaw (Numeral × List Char) :=
  match scanDigits lenient cs with
  | .error f => .error f
  | .ok (n, rest) => if !lenient && n.isOutOfRange then .error .malformed else .ok (n, rest)

end KuAsm.Json

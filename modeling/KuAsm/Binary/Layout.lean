import KuAsm.Binary.Shortest

/-!
# Written forms of a `Single`

Three places write decimal literals, each with its own layout of the shortest digits.

* `remark`: comments of the listing.  Always positional, no point in a whole number.
* `outline`: the outline of a program.  A whole number ends in `.0`; very large and very small
  numbers have an exponent.
* the exchange format, in `KuAsm.Json.Numeral`.

The first two take the larger of two equally near numbers, the exchange format the even one.
-/

namespace KuAsm.Single

/-- The digits of a decimal number. -/
def Decimal.digitList (d : Decimal) : List Char := Nat.toDigits 10 d.digits

/-- The power of ten of the first digit. -/
def Decimal.leading (d : Decimal) : Int := d.power + d.digitList.length - 1

/-- The digits in front of the point and those behind it. -/
def Decimal.split (d : Decimal) : List Char × List Char :=
  let ds := d.digitList
  let point := d.power + ds.length
  if point ≤ 0 then (['0'], List.replicate (-point).toNat '0' ++ ds)
  else (ds.take point.toNat ++ List.replicate (point.toNat - ds.length) '0', ds.drop point.toNat)

/-- The decimal number zero, one digit in front of the point. -/
def Decimal.zero : Decimal := ⟨0, 0⟩

/-- The shortest decimal number of a finite `Single`, zero included. -/
def decimal (tie : Tie) (x : Single) : Decimal :=
  if x.significand = 0 then .zero else x.shortest tie

/-- The sign in front of the digits. -/
def signText (x : Single) : String := if x.negative then "-" else ""

/-- Positional digits, with a point only if there are digits behind it. -/
def Decimal.positional (d : Decimal) : String :=
  match d.split with
  | (whole, []) => String.ofList whole
  | (whole, fraction) => String.ofList whole ++ "." ++ String.ofList fraction

/-- The form in comments of the listing. -/
def remark (x : Single) : String :=
  if x.isFinite then x.signText ++ (x.decimal .up).positional
  else if x.stored = 0 then x.signText ++ "inf"
  else "NaN"

/-- The digits with a point behind the first, unless that is the only one. -/
def Decimal.normalized (d : Decimal) : String :=
  match d.digitList with
  | [] => ""
  | [c] => String.ofList [c]
  | c :: cs => String.ofList (c :: '.' :: cs)

/-- The form in outlines: an exponent from `10 ^ 16` on and below `10 ^ -4`. -/
def outline (x : Single) : String :=
  if x.isFinite then
    let d := x.decimal .up
    if x.significand ≠ 0 ∧ (16 ≤ d.leading ∨ d.leading < -4) then
      x.signText ++ d.normalized ++ "e" ++ toString d.leading
    else match d.split with
      | (whole, []) => x.signText ++ String.ofList whole ++ ".0"
      | _ => x.signText ++ d.positional
  else x.remark

end KuAsm.Single

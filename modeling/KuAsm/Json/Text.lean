/-!
# Strings of the exchange format

Programs are exchanged as JSON.  This module reads and writes the quoted strings of that format.

* `scanText` reads what stands between two quotes, one character at a time; `TextState` is what it
  has to remember in the middle of an escape.  A character beyond the first 65536 is written as two
  escapes in a row, a high half and a low half, and neither half may stand alone.
* `quote` writes a string: quotes, backslashes and control characters are escaped, everything else
  stands for itself.

A `lenient` scan belongs to a value that is passed over without being looked at: halves may then
stand alone, since no text is made of them.
-/

namespace KuAsm.Json

/-- Why a text cannot be read. -/
inductive Flaw where
  /-- The text stops in the middle of a value. -/
  | ended
  /-- The text is not JSON. -/
  | malformed
  /-- The text is JSON as far as it was read, but not of the shape asked for. -/
  | mismatched
deriving DecidableEq, Repr

/-- The value of a hexadecimal digit of either case. -/
def hexDigit? (c : Char) : Option Nat :=
  if '0' ≤ c ∧ c ≤ '9' then some (c.toNat - '0'.toNat)
  else if 'a' ≤ c ∧ c ≤ 'f' then some (c.toNat - 'a'.toNat + 10)
  else if 'A' ≤ c ∧ c ≤ 'F' then some (c.toNat - 'A'.toNat + 10)
  else none

/-- The character that a one-letter escape stands for. -/
def escaped? : Char → Option Char
  | '"' => some '"'
  | '\\' => some '\\'
  | '/' => some '/'
  | 'b' => some '\x08'
  | 'f' => some '\x0c'
  | 'n' => some '\n'
  | 'r' => some '\r'
  | 't' => some '\t'
  | _ => none

/-- Whether a 16-bit unit is the high half of a character. -/
def isHighHalf (u : Nat) : Bool := decide (0xD800 ≤ u ∧ u ≤ 0xDBFF)

/-- Whether a 16-bit unit is the low half of a character. -/
def isLowHalf (u : Nat) : Bool := decide (0xDC00 ≤ u ∧ u ≤ 0xDFFF)

/-- The character of a high and a low half. -/
def joinHalves (high low : Nat) : Char :=
  Char.ofNat (0x10000 + (high - 0xD800) * 0x400 + (low - 0xDC00))

/-- Where a scan stands between two quotes. -/
inductive TextState where
  /-- Between two characters. -/
  | plain
  /-- Behind a backslash. -/
  | escape
  /-- Behind `seen` digits of a unit, worth `value` so far; `high` is the high half it completes. -/
  | unit (high : Option Nat) (seen value : Nat)
  /-- Behind a high half: a backslash has to follow. -/
  | highHalf (high : Nat)
  /-- Behind a high half and a backslash: the letter `u` has to follow. -/
  | highEscape (high : Nat)
deriving DecidableEq, Repr

/-- Bytes that a text takes. -/
def byteLength (cs : List Char) : Nat := cs.foldl (fun n c => n + c.utf8Size) 0

/-- Read up to the closing quote: the text, and what stands behind the quote.  `acc` holds the
characters read so far, the last one first.

A unit has four digits.  If fewer than four bytes are left for them the text has ended; otherwise a
character that is no digit is an error of form. -/
def scanText (lenient : Bool) : TextState → List Char → List Char → Except Flaw (String × List Char)
  | _, _, [] => .error .ended
  | .plain, acc, c :: rest =>
    if c = '"' then .ok (String.ofList acc.reverse, rest)
    else if c = '\\' then scanText lenient .escape acc rest
    else if c.toNat < 0x20 then .error .malformed
    else scanText lenient .plain (c :: acc) rest
  | .escape, acc, c :: rest =>
    if c = 'u' then scanText lenient (.unit none 0 0) acc rest
    else match escaped? c with
      | some d => scanText lenient .plain (d :: acc) rest
      | none => .error .malformed
  | .unit high seen value, acc, c :: rest =>
    match hexDigit? c with
    | none => .error (if seen + byteLength (c :: rest) < 4 then .ended else .malformed)
    | some d =>
      let value := 16 * value + d
      if seen < 3 then scanText lenient (.unit high (seen + 1) value) acc rest
      else if lenient then scanText lenient .plain acc rest
      else match high with
        | none =>
          if isLowHalf value then .error .malformed
          else if isHighHalf value then scanText lenient (.highHalf value) acc rest
          else scanText lenient .plain (Char.ofNat value :: acc) rest
        | some h =>
          if isLowHalf value then scanText lenient .plain (joinHalves h value :: acc) rest
          else .error .malformed
  | .highHalf h, acc, c :: rest =>
    if c = '\\' then scanText lenient (.highEscape h) acc rest else .error .malformed
  | .highEscape h, acc, c :: rest =>
    if c = 'u' then scanText lenient (.unit (some h) 0 0) acc rest else .error .malformed

/-- The lower-case hexadecimal digit of a number below sixteen. -/
def hexChar (n : Nat) : Char := if n < 10 then Char.ofNat (48 + n) else Char.ofNat (87 + n)

/-- A character as it stands between quotes. -/
def escape (c : Char) : List Char :=
  if c = '"' then ['\\', '"']
  else if c = '\\' then ['\\', '\\']
  else if c = '\x08' then ['\\', 'b']
  else if c = '\x0c' then ['\\', 'f']
  else if c = '\n' then ['\\', 'n']
  else if c = '\r' then ['\\', 'r']
  else if c = '\t' then ['\\', 't']
  else if c.toNat < 0x20 then ['\\', 'u', '0', '0', hexChar (c.toNat / 16), hexChar (c.toNat % 16)]
  else [c]

/-- A string with its quotes. -/
def quote (s : String) : List Char := '"' :: s.toList.flatMap escape ++ ['"']

end KuAsm.Json

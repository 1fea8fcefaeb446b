import KuAsm.Json.Value

/-!
# Reading values of the exchange format

A reader takes characters and gives what it read together with the characters that are left, or the
first flaw it meets from left to right.  Lists and objects are read item by item (`foldItems`,
`foldMembers`), so that a reader for a particular shape can look at each item as it comes, before
the rest of the text is known to be JSON at all.

* `readValue` reads any value.  `room` is how many lists and objects may still be opened inside one
  another.
* A `lenient` reader passes over a value that nobody looks at: it has no limit on nesting, and it
  does not ask what strings and numerals mean.

`fuel` bounds the number of steps.  A step reads at least one character, so the length of the text
is always enough.
-/

namespace KuAsm.Json

/-- A reader: what it read and the characters that are left, or a flaw. -/
abbrev Scan (α : Type) := List Char → Except Flaw (α × List Char)

/-- Whether a character may stand between the parts of a value. -/
def isBlank (c : Char) : Bool := c == ' ' || c == '\n' || c == '\t' || c == '\r'

/-- The text from the first character that is no blank. -/
def skipBlanks (cs : List Char) : List Char := cs.dropWhile isBlank

/-- Read the given characters. -/
def scanWord : List Char → Scan Unit
  | [], cs => .ok ((), cs)
  | _ :: _, [] => .error .ended
  | e :: es, c :: cs => if c = e then scanWord es cs else .error .malformed

/-- Read the colon between a key and its value. -/
def scanColon (cs : List Char) : Except Flaw (List Char) :=
  match skipBlanks cs with
  | ':' :: rest => .ok rest
  | [] => .error .ended
  | _ => .error .malformed

/-- The text of the next item of a list, or nothing if the list closes here.  A comma stands in
front of every item but the first. -/
def nextItem (first : Bool) (cs : List Char) : Except Flaw (Option (List Char)) :=
  match skipBlanks cs with
  | [] => .error .ended
  | ']' :: _ => .ok none
  | c :: rest =>
    if first then .ok (some (c :: rest))
    else if c = ',' then
      match skipBlanks rest with
      | [] => .error .ended
      | ']' :: _ => .error .malformed
      | next => .ok (some next)
    else .error .malformed

/-- Read the bracket that closes a list in which no further item may stand. -/
def closeItems (cs : List Char) : Except Flaw (List Char) :=
  match skipBlanks cs with
  | ']' :: rest => .ok rest
  | [] => .error .ended
  | _ => .error .malformed

/-- Read the items of a list up to its closing bracket, handing each to `item`. -/
def foldItems {σ : Type} (item : σ → Scan σ) : Nat → Bool → σ → Scan σ
  | 0, _, _, _ => .error .ended
  | fuel + 1, first, s, cs => do
    match ← nextItem first cs with
    | none => let rest ← closeItems cs; .ok (s, rest)
    | some next => let (s, rest) ← item s next; foldItems item fuel false s rest

/-- The next key of an object and the text behind it, or nothing if the object closes here.  A comma
stands in front of every key but the first. -/
def nextKey (lenient first : Bool) (cs : List Char) : Except Flaw (Option (String × List Char)) :=
  match skipBlanks cs with
  | [] => .error .ended
  | '\x7d' :: _ => .ok none
  | c :: rest =>
    let key := if first then c :: rest else skipBlanks rest
    if !first && c != ',' then .error .malformed
    else match key with
      | '"' :: rest => (scanText lenient .plain [] rest).map some
      | [] => .error .ended
      | _ => .error .malformed

/-- Read the brace that closes an object. -/
def closeMembers (cs : List Char) : Except Flaw (List Char) :=
  match skipBlanks cs with
  | '\x7d' :: rest => .ok rest
  | [] => .error .ended
  | _ => .error .malformed

/-- Read the members of an object up to its closing brace, handing each key to `member`, which goes
on at the colon. -/
def foldMembers {σ : Type} (lenient : Bool) (member : σ → String → Scan σ) : Nat → Bool → σ → Scan σ
  | 0, _, _, _ => .error .ended
  | fuel + 1, first, s, cs => do
    match ← nextKey lenient first cs with
    | none => let rest ← closeMembers cs; .ok (s, rest)
    | some (key, next) =>
      let (s, rest) ← member s key next; foldMembers lenient member fuel false s rest

/-- Read a value that is neither a list nor an object. -/
def readScalar (lenient : Bool) : Scan Value
  | '"' :: rest => (scanText lenient .plain [] rest).map fun x => (.text x.1, x.2)
  | 'n' :: rest => (scanWord ['u', 'l', 'l'] rest).map fun x => (.null, x.2)
  | 't' :: rest => (scanWord ['r', 'u', 'e'] rest).map fun x => (.bool true, x.2)
  | 'f' :: rest => (scanWord ['a', 'l', 's', 'e'] rest).map fun x => (.bool false, x.2)
  | c :: rest =>
    if c = '-' ∨ isDigit c then (scanNumeral lenient (c :: rest)).map fun x => (.number x.1, x.2)
    else .error .malformed
  | [] => .error .ended

/-- Read a value. -/
def readValue (lenient : Bool) : Nat → Nat → Scan Value
  | 0, _, _ => .error .ended
  | fuel + 1, room, cs =>
    match skipBlanks cs with
    | '[' :: rest =>
      if !lenient && room == 0 then .error .malformed
      else
        (foldItems (fun acc cs => (readValue lenient fuel (room - 1) cs).map
          fun x => (x.1 :: acc, x.2)) fuel true [] rest).map fun x => (.list x.1.reverse, x.2)
    | '\x7b' :: rest =>
      if !lenient && room == 0 then .error .malformed
      else
        (foldMembers lenient (fun acc key cs => do
          let cs ← scanColon cs
          (readValue lenient fuel (room - 1) cs).map fun x => ((key, x.1) :: acc, x.2))
          fuel true [] rest).map fun x => (.record x.1.reverse, x.2)
    | cs => readScalar lenient cs

/-- Pass over a value. -/
def skipValue (fuel : Nat) (cs : List Char) : Except Flaw (List Char) :=
  (readValue true fuel 0 cs).map (·.2)

/-- The end of a text: nothing but blanks may be left. -/
def finish (cs : List Char) : Except Flaw Unit :=
  if skipBlanks cs = [] then .ok () else .error .malformed

/-- The value that a whole text is, nested as deep as it may be. -/
def parse (s : String) : Except Flaw Value := do
  let cs := s.toList
  let (v, rest) ← readValue false (cs.length + 1) cs.length cs
  finish rest
  return v

end KuAsm.Json

import KuAsm.Json.Reader
import KuAsm.Source.Encoding

/-!
# Reading a program from text

A text is read from left to right, and the first flaw counts.  The outer layers of a program are
judged as they come: a second `body`, an element of the body that is no object, or a line number
that is no number is found before the rest of the text is looked at.  The members of a node, its
place apart, are first read as plain values and judged when the node closes.

* `Program.read` reads a whole text.  Lists and objects may nest 127 deep, except inside members
  that are passed over.
-/

namespace KuAsm

open Json

/-- The flaw of a value that is not of the kind asked for.  A value that is neither a list nor an
object is read first, and a flaw in it counts before its kind does. -/
def wrongKind (cs : List Char) : Flaw :=
  match cs with
  | '[' :: _ | '\x7b' :: _ => .mismatched
  | _ => match readScalar false cs with
    | .error f => f
    | .ok _ => .mismatched

/-- Read a natural number of 32 bits. -/
def scanWord32 (cs : List Char) : Except Flaw (UInt32 × List Char) :=
  match skipBlanks cs with
  | [] => .error .ended
  | c :: rest =>
    if c = '-' ∨ isDigit c then do
      let (n, rest) ← scanNumeral false (c :: rest)
      match natBelow? UInt32.size (.number n) with
      | some k => .ok (UInt32.ofNat k, rest)
      | none => .error .mismatched
    else .error (wrongKind (c :: rest))

/-- Read one member of a place. -/
def locationMember (fuel : Nat) (s : Option UInt32 × Option UInt32) (key : String)
    (cs : List Char) : Except Flaw ((Option UInt32 × Option UInt32) × List Char) :=
  match key, s with
  | "line", (none, col) => do
    let (n, rest) ← scanWord32 (← scanColon cs)
    .ok ((some n, col), rest)
  | "col", (line, none) => do
    let (n, rest) ← scanWord32 (← scanColon cs)
    .ok ((line, some n), rest)
  | "line", _ | "col", _ => .error .mismatched
  | _, _ => do
    let rest ← skipValue fuel (← scanColon cs)
    .ok (s, rest)

/-- Read a place: an object, or its line and column in a list. -/
def scanLocation (fuel : Nat) (cs : List Char) : Except Flaw (Location × List Char) :=
  match skipBlanks cs with
  | [] => .error .ended
  | '\x7b' :: rest => do
    match ← foldMembers false (locationMember fuel) fuel true (none, none) rest with
    | ((some line, some col), rest) => .ok (⟨line, col⟩, rest)
    | _ => .error .mismatched
  | '[' :: rest => do
    match ← nextItem true rest with
    | none => .error .mismatched
    | some cs =>
      let (line, cs) ← scanWord32 cs
      match ← nextItem false cs with
      | none => .error .mismatched
      | some cs =>
        let (col, cs) ← scanWord32 cs
        let rest ← closeItems cs
        .ok (⟨line, col⟩, rest)
  | cs => .error (wrongKind cs)

/-- How many lists and objects may stand inside one another. -/
def nestingLimit : Nat := 127

/-- Read one member of a node of the body: its place at once, anything else as a plain value.  Such
a value stands inside the program, its body and the node. -/
def nodeMember (fuel : Nat) (s : Option Location × List (String × Value)) (key : String)
    (cs : List Char) : Except Flaw ((Option Location × List (String × Value)) × List Char) :=
  if key = "location" then
    if s.1.isSome then .error .mismatched
    else do
      let (l, rest) ← scanLocation fuel (← scanColon cs)
      .ok ((some l, s.2), rest)
  else do
    let (v, rest) ← readValue false fuel (nestingLimit - 3) (← scanColon cs)
    .ok ((s.1, (key, v) :: s.2), rest)

/-- The node of the members that were read, the last one first. -/
def nodeOfMembers? (s : Option Location × List (String × Value)) : Option Node := do
  let form ← formOf? (Node.ofJsonWithin? (Value.membersDepth s.2)) s.2.reverse
  some (.mk form (s.1.getD .internal))

/-- Read a node of the body. -/
def scanNode (fuel : Nat) (cs : List Char) : Except Flaw (Node × List Char) :=
  match skipBlanks cs with
  | [] => .error .ended
  | '\x7b' :: rest => do
    let (s, rest) ← foldMembers false (nodeMember fuel) fuel true (none, []) rest
    match nodeOfMembers? s with
    | some n => .ok (n, rest)
    | none => .error .mismatched
  | cs => .error (wrongKind cs)

/-- Read the body of a program. -/
def scanBody (fuel : Nat) (cs : List Char) : Except Flaw (List Node × List Char) :=
  match skipBlanks cs with
  | [] => .error .ended
  | '[' :: rest => do
    let (ns, rest) ← foldItems (fun acc cs => (scanNode fuel cs).map fun x => (x.1 :: acc, x.2))
      fuel true [] rest
    .ok (ns.reverse, rest)
  | cs => .error (wrongKind cs)

/-- Read one member of a program. -/
def programMember (fuel : Nat) (s : Option (List Node)) (key : String) (cs : List Char) :
    Except Flaw (Option (List Node) × List Char) :=
  if key = "body" then
    if s.isSome then .error .mismatched
    else do
      let (ns, rest) ← scanBody fuel (← scanColon cs)
      .ok (some ns, rest)
  else do
    let rest ← skipValue fuel (← scanColon cs)
    .ok (s, rest)

/-- Read a program: an object with a body, or a list that holds just the body. -/
def scanProgram (fuel : Nat) (cs : List Char) : Except Flaw (Program × List Char) :=
  match skipBlanks cs with
  | [] => .error .ended
  | '\x7b' :: rest => do
    match ← foldMembers false (programMember fuel) fuel true none rest with
    | (some ns, rest) => .ok (⟨ns⟩, rest)
    | (none, _) => .error .mismatched
  | '[' :: rest => do
    match ← nextItem true rest with
    | none => .error .mismatched
    | some cs =>
      let (ns, cs) ← scanBody fuel cs
      let rest ← closeItems cs
      .ok (⟨ns⟩, rest)
  | cs => .error (wrongKind cs)

/-- The program that a whole text is. -/
def Program.read (s : String) : Except Flaw Program := do
  let cs := s.toList
  let (p, rest) ← scanProgram (cs.length + 1) cs
  finish rest
  return p

/-- The text of a program. -/
def Program.write (p : Program) : String := p.toJson.compact

end KuAsm

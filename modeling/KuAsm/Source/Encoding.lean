import KuAsm.Json.Value
import KuAsm.Source.Node

/-!
# Programs in the exchange format

A node is an object: its kind under `type`, its own members, and the place it was written at under
`location`.  Writing gives every member, in a fixed order.  Reading takes the members in any order,
passes over those it does not know, and refuses a known one that stands there twice.

* `Node.toJson`, `Program.toJson`: writing.
* `Node.ofJson?`, `Program.ofJson?`: reading.
-/

namespace KuAsm

open Json (Value)

/-! ## Writing -/

namespace Location

/-- The object of a place. -/
def toJson (l : Location) : Value :=
  .record [("line", .nat l.line.toNat), ("col", .nat l.col.toNat)]

end Location

/-- The object of a parameter. -/
def Param.toJson (p : Param) : Value := .record [("name", .text p.name), ("ty", .text p.ty.name)]

/-- A decimal literal; an infinity has no numeral and is written as `null`. -/
def Single.toJson (x : Single) : Value := if x.isFinite then .number (.ofSingle x) else .null

/-- The tags of the forms under `type`, in the order in which a number may stand for them. -/
def Form.tags : List String :=
  ["number", "decimal", "char", "str", "bool", "var", "binary", "signed", "step", "call",
    "function", "declare", "assign", "memory_assign", "address_of", "cast", "if", "while", "for",
    "break", "continue", "return", "include"]

mutual

/-- The object of a node. -/
def Node.toJson : Node → Value
  | .mk f l => .record (f.members ++ [("location", l.toJson)])

/-- The members of a form, its tag first. -/
def Form.members : Form → List (String × Value)
  | .number v => [("type", .text "number"), ("value", .int v.toInt)]
  | .decimal v => [("type", .text "decimal"), ("value", v.toJson)]
  | .char v => [("type", .text "char"), ("value", .nat v.toNat)]
  | .str v => [("type", .text "str"), ("value", .text v)]
  | .bool v => [("type", .text "bool"), ("value", .bool v)]
  | .var n => [("type", .text "var"), ("name", .text n)]
  | .binary op l r =>
    [("type", .text "binary"), ("op", .text op.symbol), ("left", l.toJson), ("right", r.toJson)]
  | .signed s v => [("type", .text "signed"), ("sign", .text s.symbol), ("value", v.toJson)]
  | .step n op f =>
    [("type", .text "step"), ("name", .text n), ("op", .text op.keyword),
      ("fixity", .text f.keyword)]
  | .call n args =>
    [("type", .text "call"), ("name", .text n), ("args", .list (Node.toJsonList args))]
  | .function n ps r body =>
    [("type", .text "function"), ("name", .text n), ("params", .list (ps.map Param.toJson)),
      ("ret", .text r.name), ("body", .list (Node.toJsonList body))]
  | .declare n ty v =>
    [("type", .text "declare"), ("name", .text n), ("ty", .text ty.name),
      ("value", Node.toJsonOption v)]
  | .assign n v => [("type", .text "assign"), ("name", .text n), ("value", v.toJson)]
  | .store a v => [("type", .text "memory_assign"), ("address", a.toJson), ("value", v.toJson)]
  | .addressOf n => [("type", .text "address_of"), ("name", .text n)]
  | .cast v ty m =>
    [("type", .text "cast"), ("value", v.toJson), ("ty", .text ty.name), ("mode", .text m.keyword)]
  | .conditional c body o =>
    [("type", .text "if"), ("condition", c.toJson), ("then", .list (Node.toJsonList body)),
      ("otherwise", o.toJson)]
  | .whileLoop c body =>
    [("type", .text "while"), ("condition", c.toJson), ("body", .list (Node.toJsonList body))]
  | .forLoop i c s body =>
    [("type", .text "for"), ("init", i.toJson), ("condition", c.toJson), ("step", s.toJson),
      ("body", .list (Node.toJsonList body))]
  | .breakLoop => [("type", .text "break")]
  | .continueLoop => [("type", .text "continue")]
  | .ret v => [("type", .text "return"), ("value", Node.toJsonOption v)]
  | .included p body =>
    [("type", .text "include"), ("path", .text p), ("program", .list (Node.toJsonList body))]

/-- The value of what follows a conditional. -/
def Otherwise.toJson : Otherwise → Value
  | .absent => .null
  | .chained n => .record [("if", n.toJson)]
  | .block body => .record [("block", .list (Node.toJsonList body))]

/-- The values of a list of nodes. -/
def Node.toJsonList : List Node → List Value
  | [] => []
  | n :: ns => n.toJson :: Node.toJsonList ns

/-- The value of an optional node. -/
def Node.toJsonOption : Option Node → Value
  | none => .null
  | some n => n.toJson

end

/-- The object of a program. -/
def Program.toJson (p : Program) : Value := .record [("body", .list (Node.toJsonList p.body))]

/-! ## Reading -/

/-- The member of an object under a key, if it stands there once; no answer at all if it stands
there more than once. -/
def unique? (key : String) (ms : List (String × Value)) : Option (Option Value) :=
  match ms.filter (·.1 == key) with
  | [] => some none
  | [m] => some (some m.2)
  | _ => none

/-- A member that has to be there. -/
def required? (key : String) (ms : List (String × Value)) : Option Value := (unique? key ms).join

/-- A member that may be missing or `null`. -/
def optional? (key : String) (ms : List (String × Value)) : Option (Option Value) :=
  match unique? key ms with
  | some (some .null) => some none
  | x => x

/-- The word that one of a closed set of words is written as: a string, or an object with that one
key and nothing under it. -/
def wordOf? : Value → Option String
  | .text s => some s
  | .record [(s, .null)] => some s
  | .record [(s, .record [])] => some s
  | _ => none

/-- A natural number below a bound. -/
def natBelow? (bound : Nat) (v : Value) : Option Nat :=
  match v.integer? with
  | some (.ofNat n) => if n < bound then some n else none
  | _ => none

/-- A signed number of 32 bits. -/
def int32? (v : Value) : Option Int32 :=
  match v.integer? with
  | some i => if -2147483648 ≤ i ∧ i < 2147483648 then some (Int32.ofInt i) else none
  | none => none

/-- A decimal literal. -/
def Single.ofJson? : Value → Option Single
  | .number n => n.single?
  | _ => none

/-- A place: an object, or its line and column in a list. -/
def Location.ofJson? : Value → Option Location
  | .record ms => do
    let line ← natBelow? UInt32.size (← required? "line" ms)
    let col ← natBelow? UInt32.size (← required? "col" ms)
    some ⟨UInt32.ofNat line, UInt32.ofNat col⟩
  | .list [a, b] => do
    let line ← natBelow? UInt32.size a
    let col ← natBelow? UInt32.size b
    some ⟨UInt32.ofNat line, UInt32.ofNat col⟩
  | _ => none

/-- A parameter: an object, or its name and type in a list. -/
def Param.ofJson? : Value → Option Param
  | .record ms => do
    let name ← (← required? "name" ms).text?
    let ty ← ScalarType.ofName? (← wordOf? (← required? "ty" ms))
    some ⟨name, ty⟩
  | .list [a, b] => do
    let name ← a.text?
    let ty ← ScalarType.ofName? (← wordOf? b)
    some ⟨name, ty⟩
  | _ => none

/-- The tag of a form: its word, or its number in the list of tags. -/
def tagOf? : Value → Option String
  | .text s => some s
  | .number n => match n.integer? with
    | some (.ofNat i) => Form.tags[i]?
    | _ => none
  | _ => none

section Reading

variable (node : Value → Option Node)

/-- A list of nodes, each read by `node`. -/
def nodesOf? (v : Value) : Option (List Node) :=
  match v with
  | .list vs => vs.mapM node
  | _ => none

/-- What follows a conditional: `null`, or an object with one member. -/
def otherwiseOf? : Value → Option Otherwise
  | .null => some .absent
  | .record [("if", v)] => (node v).map .chained
  | .record [("block", v)] => (nodesOf? node v).map .block
  | _ => none

/-- A node that may be missing. -/
def nodeOption? (key : String) (ms : List (String × Value)) : Option (Option Node) := do
  match ← optional? key ms with
  | none => some none
  | some v => (node v).map some

/-- A form from the members of an object, the place apart.  Nodes inside are read by `node`. -/
def formOf? (ms : List (String × Value)) : Option Form := do
  let text (key : String) : Option String := do (← required? key ms).text?
  let word (key : String) : Option String := do wordOf? (← required? key ms)
  let child (key : String) : Option Node := do node (← required? key ms)
  let children (key : String) : Option (List Node) := do nodesOf? node (← required? key ms)
  match ← tagOf? (← required? "type" ms) with
  | "number" => (int32? (← required? "value" ms)).map .number
  | "decimal" => (Single.ofJson? (← required? "value" ms)).map .decimal
  | "char" => (natBelow? 256 (← required? "value" ms)).map fun n => .char (UInt8.ofNat n)
  | "str" => (← required? "value" ms).text?.map .str
  | "bool" => (← required? "value" ms).bool?.map .bool
  | "var" => (text "name").map .var
  | "binary" =>
    some (.binary (← BinaryOp.ofKeyword? (← word "op")) (← child "left") (← child "right"))
  | "signed" => some (.signed (← Sign.ofKeyword? (← word "sign")) (← child "value"))
  | "step" =>
    some (.step (← text "name") (← StepOp.ofKeyword? (← word "op"))
      (← Fixity.ofKeyword? (← word "fixity")))
  | "call" => some (.call (← text "name") (← children "args"))
  | "function" =>
    let params ← match ← required? "params" ms with
      | .list vs => vs.mapM Param.ofJson?
      | _ => none
    some (.function (← text "name") params (← ScalarType.ofName? (← word "ret"))
      (← children "body"))
  | "declare" =>
    some (.declare (← text "name") (← ScalarType.ofName? (← word "ty"))
      (← nodeOption? node "value" ms))
  | "assign" => some (.assign (← text "name") (← child "value"))
  | "memory_assign" => some (.store (← child "address") (← child "value"))
  | "address_of" => (text "name").map .addressOf
  | "cast" =>
    some (.cast (← child "value") (← ScalarType.ofName? (← word "ty"))
      (← CastMode.ofKeyword? (← word "mode")))
  | "if" =>
    let otherwise ← match ← optional? "otherwise" ms with
      | none => some Otherwise.absent
      | some v => otherwiseOf? node v
    some (.conditional (← child "condition") (← children "then") otherwise)
  | "while" => some (.whileLoop (← child "condition") (← children "body"))
  | "for" =>
    some (.forLoop (← child "init") (← child "condition") (← child "step") (← children "body"))
  | "break" => some .breakLoop
  | "continue" => some .continueLoop
  | "return" => (nodeOption? node "value" ms).map .ret
  | "include" => some (.included (← text "path") (← children "program"))
  | _ => none

end Reading

/-- A node, from a value that nests at most as deep as the first argument says. -/
def Node.ofJsonWithin? : Nat → Value → Option Node
  | 0, _ => none
  | n + 1, .record ms => do
    let location ← match ← unique? "location" ms with
      | none => some Location.internal
      | some v => Location.ofJson? v
    let form ← formOf? (Node.ofJsonWithin? n) (ms.filter (·.1 != "location"))
    some (.mk form location)
  | _ + 1, _ => none

/-- The node that a value is. -/
def Node.ofJson? (v : Value) : Option Node := Node.ofJsonWithin? v.depth v

/-- The program that a value is: an object with a body, or a list that holds just the body. -/
def Program.ofJson? : Value → Option Program
  | .record ms => do
    let body ← nodesOf? Node.ofJson? (← required? "body" ms)
    some ⟨body⟩
  | .list [v] => do
    let body ← nodesOf? Node.ofJson? v
    some ⟨body⟩
  | _ => none

end KuAsm

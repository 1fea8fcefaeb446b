import KuAsm.Binary.Layout
import KuAsm.Source.Node
import KuAsm.Text.Outline

/-!
# The outline of a program

An outline shows every node of a program with its kind, its parts and the place it was written at.

* `Program.outline` gives the outline of a program.
-/

namespace KuAsm

open Outline

/-- The outline of a place. -/
def Location.outline (l : Location) : Outline :=
  .record "Location" [("line", .word (toString l.line.toNat)),
    ("col", .word (toString l.col.toNat))]

/-- The outline of a parameter. -/
def Param.outline (p : Param) : Outline :=
  .record "Param" [("name", quoted p.name), ("ty", .word p.ty.title)]

mutual

/-- The outline of a node. -/
def Node.outline : Node → Outline
  | .mk f l => .record "Node" [("kind", f.outline), ("location", l.outline)]

/-- The outline of a form. -/
def Form.outline : Form → Outline
  | .number v => .record "Number" [("value", .word (toString v.toInt))]
  | .decimal v => .record "Decimal" [("value", .word v.outline)]
  | .char v => .record "Char" [("value", .word (toString v.toNat))]
  | .str v => .record "Str" [("value", quoted v)]
  | .bool v => .record "Bool" [("value", .word (if v then "true" else "false"))]
  | .var n => .record "Var" [("name", quoted n)]
  | .binary op l r =>
    .record "Binary" [("op", .word op.title), ("left", l.outline), ("right", r.outline)]
  | .signed s v => .record "Signed" [("sign", .word s.title), ("value", v.outline)]
  | .step n op f =>
    .record "Step" [("name", quoted n), ("op", .word op.title), ("fixity", .word f.title)]
  | .call n args => .record "Call" [("name", quoted n), ("args", .items (Node.outlines args))]
  | .function n ps r body =>
    .record "Function" [("name", quoted n), ("params", .items (ps.map Param.outline)),
      ("ret", .word r.title), ("body", .items (Node.outlines body))]
  | .declare n ty v =>
    .record "Declare" [("name", quoted n), ("ty", .word ty.title), ("value", Node.outlineOption v)]
  | .assign n v => .record "Assign" [("name", quoted n), ("value", v.outline)]
  | .store a v => .record "MemoryAssign" [("address", a.outline), ("value", v.outline)]
  | .addressOf n => .record "AddressOf" [("name", quoted n)]
  | .cast v ty m =>
    .record "Cast" [("value", v.outline), ("ty", .word ty.title), ("mode", .word m.title)]
  | .conditional c body o =>
    .record "If" [("condition", c.outline), ("then", .items (Node.outlines body)),
      ("otherwise", o.outline)]
  | .whileLoop c body =>
    .record "While" [("condition", c.outline), ("body", .items (Node.outlines body))]
  | .forLoop i c s body =>
    .record "For" [("init", i.outline), ("condition", c.outline), ("step", s.outline),
      ("body", .items (Node.outlines body))]
  | .breakLoop => .word "Break"
  | .continueLoop => .word "Continue"
  | .ret v => .record "Return" [("value", Node.outlineOption v)]
  | .included p body =>
    .record "Include" [("path", quoted p), ("program", .items (Node.outlines body))]

/-- The outline of what follows a conditional. -/
def Otherwise.outline : Otherwise → Outline
  | .absent => .word "None"
  | .chained n => .wrapped "Some" (.wrapped "If" n.outline)
  | .block body => .wrapped "Some" (.wrapped "Block" (.items (Node.outlines body)))

/-- The outlines of a list of nodes. -/
def Node.outlines : List Node → List Outline
  | [] => []
  | n :: ns => n.outline :: Node.outlines ns

/-- The outline of an optional node. -/
def Node.outlineOption : Option Node → Outline
  | none => .word "None"
  | some n => .wrapped "Some" n.outline

end

/-- The outline of a program. -/
def Program.outline (p : Program) : Outline :=
  .record "Program" [("body", .items (Node.outlines p.body))]

end KuAsm

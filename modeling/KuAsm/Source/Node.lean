import KuAsm.Binary.Single
import KuAsm.Source.Location
import KuAsm.Source.Operator

/-!
# Programs

A program is a list of nodes.  One type serves for expressions and statements: which of them may
stand where is for the compiler to check, not for the tree.

* `Node` is a `Form` with the place it was written at.
* `Form` lists what a node can be.
* `Otherwise` is what follows the block of a conditional.
-/

namespace KuAsm

/-- A parameter of a function. -/
structure Param where
  /-- The name it has in the body. -/
  name : String
  /-- The type of the argument. -/
  ty : ScalarType
deriving DecidableEq, Repr, Inhabited

mutual

/-- A node of a program. -/
inductive Node where
  | mk (form : Form) (location : Location)

/-- What a node is. -/
inductive Form where
  /-- A number literal. -/
  | number (value : Int32)
  /-- A decimal literal. -/
  | decimal (value : Single)
  /-- A character literal, one byte. -/
  | char (value : UInt8)
  /-- A string literal. -/
  | str (value : String)
  /-- A truth value. -/
  | bool (value : Bool)
  /-- The value of a variable. -/
  | var (name : String)
  /-- Two operands and an operator. -/
  | binary (op : BinaryOp) (left right : Node)
  /-- A sign and its operand. -/
  | signed (sign : Sign) (value : Node)
  /-- A variable changed by one. -/
  | step (name : String) (op : StepOp) (fixity : Fixity)
  /-- A call. -/
  | call (name : String) (args : List Node)
  /-- The declaration of a function. -/
  | function (name : String) (params : List Param) (ret : ScalarType) (body : List Node)
  /-- The declaration of a variable; without a value it starts at the zero of its type. -/
  | declare (name : String) (ty : ScalarType) (value : Option Node)
  /-- An assignment to a variable. -/
  | assign (name : String) (value : Node)
  /-- A value stored at an address. -/
  | store (address value : Node)
  /-- The address of a variable. -/
  | addressOf (name : String)
  /-- A value taken for one of another type. -/
  | cast (value : Node) (ty : ScalarType) (mode : CastMode)
  /-- A conditional. -/
  | conditional (condition : Node) (body : List Node) (otherwise : Otherwise)
  /-- A loop that runs as long as its condition holds. -/
  | whileLoop (condition : Node) (body : List Node)
  /-- A loop with a statement in front of it and one after every round. -/
  | forLoop (start condition step : Node) (body : List Node)
  /-- Leave the enclosing loop. -/
  | breakLoop
  /-- Go on with the next round of the enclosing loop. -/
  | continueLoop
  /-- Leave the enclosing function; without a value the zero of its type is returned. -/
  | ret (value : Option Node)
  /-- The statements of another file. -/
  | included (path : String) (program : List Node)

/-- What follows the block of a conditional. -/
inductive Otherwise where
  /-- Nothing. -/
  | absent
  /-- A further conditional.  That the node is one is for the compiler to check. -/
  | chained (node : Node)
  /-- A block. -/
  | block (body : List Node)

end

instance : Inhabited Node := ⟨.mk .breakLoop .internal⟩

namespace Node

/-- What the node is. -/
def form : Node → Form
  | mk f _ => f

/-- Where the node was written. -/
def location : Node → Location
  | mk _ l => l

/-- The same node at another place. -/
def placedAt (n : Node) (l : Location) : Node := mk n.form l

/-- A node that was not written anywhere. -/
def unplaced (f : Form) : Node := mk f .internal

end Node

/-- The name of a form in diagnostics. -/
def Form.name : Form → String
  | number _ => "number"
  | decimal _ => "decimal"
  | char _ => "char"
  | str _ => "string"
  | bool _ => "bool"
  | var _ => "var"
  | binary .. => "binary"
  | signed .. => "signed"
  | step .. => "step"
  | call .. => "call"
  | function .. => "function"
  | declare .. => "declare"
  | assign .. => "assign"
  | store .. => "memory_assign"
  | addressOf _ => "address_of"
  | cast .. => "cast"
  | conditional .. => "if"
  | whileLoop .. => "while"
  | forLoop .. => "for"
  | breakLoop => "break"
  | continueLoop => "continue"
  | ret _ => "return"
  | included .. => "include"

/-- A program: its top-level statements. -/
structure Program where
  /-- The statements, in order. -/
  body : List Node
deriving Inhabited

end KuAsm

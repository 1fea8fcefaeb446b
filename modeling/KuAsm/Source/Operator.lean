import KuAsm.Source.ScalarType

/-!
# Operators

The closed vocabularies that nodes are built from: binary operators, signs, step operators, and the
two switches that say where a step operator stands and how a cast reads its operand.  Each has its
spelling in the exchange format (`keyword`) and the inverse reading (`ofKeyword?`).
-/

namespace KuAsm

/-- A binary operator. -/
inductive BinaryOp where
  | add | sub | mul | div | rem
  | and | or
  | lt | gt | le | ge
  | eq | ne
deriving DecidableEq, Repr, Inhabited

namespace BinaryOp

/-- All binary operators. -/
def all : List BinaryOp := [add, sub, mul, div, rem, and, or, lt, gt, le, ge, eq, ne]

/-- The operator as it is written in a program, in a diagnostic and in the exchange format. -/
def symbol : BinaryOp → String
  | add => "+" | sub => "-" | mul => "*" | div => "/" | rem => "%"
  | and => "&&" | or => "||"
  | lt => "<" | gt => ">" | le => "<=" | ge => ">="
  | eq => "==" | ne => "!="

/-- The operator a spelling stands for. -/
def ofKeyword? (s : String) : Option BinaryOp := all.find? (·.symbol == s)

/-- The English name of the operator, as outlines show it. -/
def title : BinaryOp → String
  | add => "Add" | sub => "Sub" | mul => "Mul" | div => "Div" | rem => "Rem"
  | and => "And" | or => "Or"
  | lt => "Lt" | gt => "Gt" | le => "Le" | ge => "Ge"
  | eq => "Eq" | ne => "Ne"

/-- `+ - * / %`. -/
def isArithmetic : BinaryOp → Bool
  | add | sub | mul | div | rem => true
  | _ => false

/-- `&& ||`. -/
def isLogical : BinaryOp → Bool
  | and | or => true
  | _ => false

/-- `== !=`. -/
def isEquality : BinaryOp → Bool
  | eq | ne => true
  | _ => false

/-- Operators whose result is a truth value whatever their operands are. -/
def isComparison : BinaryOp → Bool
  | lt | gt | le | ge | eq | ne => true
  | _ => false

/-- Whether two operands of type `ty` may be combined without a call.  String `+` is not in this
table: it is a call of the library function that joins strings. -/
def accepts (op : BinaryOp) (ty : ScalarType) : Bool :=
  if op.isArithmetic then ty.isArithmetic
  else if op.isLogical then ty == .boolean
  else if op.isEquality then ty.isEquatable
  else ty.isOrdered

/-- The type of the result for operands of type `ty`. -/
def resultType (op : BinaryOp) (ty : ScalarType) : ScalarType :=
  if op.isComparison then .boolean else ty

/-- A spelling is read back as its operator. -/
theorem ofKeyword?_symbol (op : BinaryOp) : ofKeyword? op.symbol = some op := by cases op <;> rfl

end BinaryOp

/-- A sign in front of a value. -/
inductive Sign where
  | plus | minus
deriving DecidableEq, Repr, Inhabited

namespace Sign

/-- The sign as it is written. -/
def symbol : Sign → String
  | plus => "+"
  | minus => "-"

/-- The sign a spelling stands for. -/
def ofKeyword? (s : String) : Option Sign := [plus, minus].find? (·.symbol == s)

/-- The English name of the sign, as outlines show it. -/
def title : Sign → String
  | plus => "Plus"
  | minus => "Minus"

/-- A spelling is read back as its sign. -/
theorem ofKeyword?_symbol (s : Sign) : ofKeyword? s.symbol = some s := by cases s <;> rfl

end Sign

/-- An operator that changes a variable by one. -/
inductive StepOp where
  | increment | decrement
deriving DecidableEq, Repr, Inhabited

namespace StepOp

/-- The operator as it is written in a program and in a diagnostic. -/
def symbol : StepOp → String
  | increment => "++"
  | decrement => "--"

/-- The spelling in the exchange format. -/
def keyword : StepOp → String
  | increment => "increment"
  | decrement => "decrement"

/-- The operator a spelling stands for. -/
def ofKeyword? (s : String) : Option StepOp := [increment, decrement].find? (·.keyword == s)

/-- The English name of the operator, as outlines show it. -/
def title : StepOp → String
  | increment => "Increment"
  | decrement => "Decrement"

/-- A spelling is read back as its operator. -/
theorem ofKeyword?_keyword (op : StepOp) : ofKeyword? op.keyword = some op := by cases op <;> rfl

end StepOp

/-- Where a step operator stands, which decides whether the value before or after the change is the
value of the expression. -/
inductive Fixity where
  /-- In front of the variable: the new value counts. -/
  | leading
  /-- Behind the variable: the old value counts. -/
  | trailing
deriving DecidableEq, Repr, Inhabited

namespace Fixity

/-- The spelling in the exchange format. -/
def keyword : Fixity → String
  | leading => "prefix"
  | trailing => "postfix"

/-- The fixity a spelling stands for. -/
def ofKeyword? (s : String) : Option Fixity := [leading, trailing].find? (·.keyword == s)

/-- The English name of the fixity, as outlines show it. -/
def title : Fixity → String
  | leading => "Prefix"
  | trailing => "Postfix"

/-- A spelling is read back as its fixity. -/
theorem ofKeyword?_keyword (f : Fixity) : ofKeyword? f.keyword = some f := by cases f <;> rfl

end Fixity

/-- How a cast reads its operand. -/
inductive CastMode where
  /-- The operand is an address, and the value stored there is meant. -/
  | deref
  /-- The operand's own bits are meant. -/
  | immediate
deriving DecidableEq, Repr, Inhabited

namespace CastMode

/-- The spelling in the exchange format. -/
def keyword : CastMode → String
  | deref => "deref"
  | immediate => "immediate"

/-- The mode a spelling stands for. -/
def ofKeyword? (s : String) : Option CastMode := [deref, immediate].find? (·.keyword == s)

/-- The English name of the mode, as outlines show it. -/
def title : CastMode → String
  | deref => "Deref"
  | immediate => "Immediate"

/-- A spelling is read back as its mode. -/
theorem ofKeyword?_keyword (m : CastMode) : ofKeyword? m.keyword = some m := by cases m <;> rfl

end CastMode

end KuAsm

import KuAsm.Frame.Slot
import KuAsm.Source.Location
import KuAsm.Source.Operator

/-!
# What can be wrong with a program

A program is rejected with the first `Diagnostic` met.  A diagnostic is a cause with the place it
was found at; `Diagnostic.message` is its only wording.
-/

namespace KuAsm

/-- What a name or a statement refers to. -/
inductive SymbolKind where
  | variable
  | function
  | enclosingLoop
  | enclosingFunction
deriving DecidableEq, Repr

/-- The words of a diagnostic. -/
def SymbolKind.text : SymbolKind → String
  | .variable => "variable"
  | function => "function"
  | enclosingLoop => "enclosing loop"
  | enclosingFunction => "enclosing function"

/-- Why a program is rejected. -/
inductive Cause where
  /-- A name, or what a statement needs around it, is not there. -/
  | unresolvedSymbol (kind : SymbolKind) (name : String)
  /-- A name is declared twice in one scope. -/
  | duplicateDeclaration (kind : SymbolKind) (name : String)
  /-- A call has fewer arguments than the function has parameters. -/
  | arityMismatch (name : String) (expected found : Nat)
  /-- A value has another type than the one asked for. -/
  | invalidValueType (expected found : ScalarType)
  /-- The operands of an operator have different types. -/
  | binaryTypeMismatch (op : BinaryOp) (left right : ScalarType)
  /-- An operator does not apply to a type. -/
  | unsupportedOperation (op : String) (ty : ScalarType)
  /-- A condition is no truth value. -/
  | conditionNotBoolean (found : ScalarType)
  /-- A value is stored at something that is no address. -/
  | invalidMemoryTarget (found : ScalarType)
  /-- A node stands where its kind may not stand. -/
  | misplacedNode (kind context : String)
deriving DecidableEq, Repr

/-- A cause and the place it was found at. -/
structure Diagnostic where
  /-- What is wrong. -/
  cause : Cause
  /-- Where it is. -/
  location : Location
deriving DecidableEq, Repr

/-- The wording of a cause. -/
def Cause.text : Cause → String
  | unresolvedSymbol kind name => "unresolved " ++ kind.text ++ " `" ++ name ++ "`"
  | duplicateDeclaration kind name =>
    kind.text ++ " `" ++ name ++ "` is already declared in this scope"
  | arityMismatch name expected found =>
    "function `" ++ name ++ "` expects " ++ toString expected ++ " argument(s), got " ++
      toString found
  | invalidValueType expected found =>
    "expected a value of type `" ++ expected.name ++ "`, found `" ++ found.name ++ "`"
  | binaryTypeMismatch op left right =>
    "operands of `" ++ op.symbol ++ "` have different types (`" ++ left.name ++ "` and `"
      ++ right.name ++ "`)"
  | unsupportedOperation op ty =>
    "operator `" ++ op ++ "` is not supported for type `" ++ ty.name ++ "`"
  | conditionNotBoolean found => "condition must be `bol`, found `" ++ found.name ++ "`"
  | invalidMemoryTarget found =>
    "memory target must be a `num` address, found `" ++ found.name ++ "`"
  | misplacedNode kind context => "`" ++ kind ++ "` node is not valid in " ++ context ++ " position"

/-- The wording of a diagnostic: the place, and what is wrong there. -/
def Diagnostic.message (d : Diagnostic) : String := d.location.text ++ ": " ++ d.cause.text

/-- Why a compilation stops: the program is wrong, or a number outgrew its range. -/
inductive Failure where
  | rejected (d : Diagnostic)
  | fault (f : Fault)
deriving DecidableEq, Repr

end KuAsm

/-!
# Positions in the program text

Every node of a program carries the line and column it was written at.  Nodes that the compiler
makes up itself have no such position; they sit at line `0`.
-/

namespace KuAsm

/-- A line and a column, both counted from one.  Line `0` means "not written anywhere". -/
structure Location where
  /-- The line, or `0` for a node without a position. -/
  line : UInt32
  /-- The column. -/
  col : UInt32
deriving DecidableEq, Repr, Inhabited

namespace Location

/-- The position of everything the compiler makes up itself. -/
def internal : Location := ⟨0, 0⟩

/-- Whether the position is that of a made-up node; the column does not matter. -/
def isInternal (l : Location) : Bool := l.line == 0

/-- The position as it opens a diagnostic: `line:col`, or `<internal>`. -/
def text (l : Location) : String :=
  if l.isInternal then "<internal>"
  else toString l.line.toNat ++ ":" ++ toString l.col.toNat

end Location

end KuAsm

/-!
# The five scalar types

A value of the language is a number, a decimal, a boolean, a character or a string.  The first four
fit in a frame slot; a string is a pointer whose bytes may live on the heap, which is what
`ScalarType.isHeap` singles out.
-/

namespace KuAsm

/-- The type of a value. -/
inductive ScalarType where
  /-- A signed 32-bit number, `num`. -/
  | integer
  /-- A 32-bit floating-point number, `dec`. -/
  | decimal
  /-- A truth value, `bol`. -/
  | boolean
  /-- One byte, `chr`. -/
  | character
  /-- A pointer to bytes that end in a zero, `str`. -/
  | string
deriving DecidableEq, Repr, Inhabited

namespace ScalarType

/-- All types. -/
def all : List ScalarType := [integer, decimal, boolean, character, string]

/-- The keyword of the type in the language. -/
def name : ScalarType → String
  | integer => "num"
  | decimal => "dec"
  | boolean => "bol"
  | character => "chr"
  | string => "str"

/-- The type a keyword stands for. -/
def ofName? (s : String) : Option ScalarType := all.find? (·.name == s)

/-- The English name of the type, as outlines of a program show it. -/
def title : ScalarType → String
  | integer => "Integer"
  | decimal => "Decimal"
  | boolean => "Boolean"
  | character => "Character"
  | string => "String"

/-- Bytes a value of the type takes in a frame. -/
def size : ScalarType → Nat
  | integer | decimal | string => 4
  | boolean | character => 1

/-- Whether values may own bytes on the heap. -/
def isHeap (t : ScalarType) : Bool := t == string

/-- Whether `+ - * / %` and the signs apply. -/
def isArithmetic : ScalarType → Bool
  | integer | decimal => true
  | _ => false

/-- Whether `< > <= >=` apply. -/
def isOrdered : ScalarType → Bool
  | integer | decimal | character => true
  | _ => false

/-- Whether `==` and `!=` apply. -/
def isEquatable (t : ScalarType) : Bool := t.isOrdered || t == boolean

/-- A keyword is read back as its type. -/
theorem ofName?_name (t : ScalarType) : ofName? t.name = some t := by cases t <;> rfl

end ScalarType

end KuAsm

import KuAsm.Json.Numeral

/-!
# Values of the exchange format

A value is kept as it is written: numerals keep their digits, and an object keeps all its members in
order, repeated keys included.  That a key is repeated is for the reader of the value to judge.
-/

namespace KuAsm.Json

/-- A JSON value. -/
inductive Value where
  | null
  | bool (b : Bool)
  | number (n : Numeral)
  | text (s : String)
  | list (items : List Value)
  | record (members : List (String × Value))
deriving Repr, Inhabited

namespace Value

mutual

/-- The characters of a value, without any blank. -/
def render : Value → List Char
  | null => ['n', 'u', 'l', 'l']
  | bool true => ['t', 'r', 'u', 'e']
  | bool false => ['f', 'a', 'l', 's', 'e']
  | number n => n.render
  | text s => quote s
  | list items => '[' :: renderItems items ++ [']']
  | record members => '\x7b' :: renderMembers members ++ ['\x7d']

/-- The items of a list, a comma between two of them. -/
def renderItems : List Value → List Char
  | [] => []
  | [v] => v.render
  | v :: vs => v.render ++ ',' :: renderItems vs

/-- The members of an object, a comma between two of them. -/
def renderMembers : List (String × Value) → List Char
  | [] => []
  | [(k, v)] => quote k ++ ':' :: v.render
  | (k, v) :: ms => quote k ++ ':' :: (v.render ++ ',' :: renderMembers ms)

end

/-- The text of a value. -/
def compact (v : Value) : String := String.ofList v.render

mutual

/-- How deep lists and objects stand inside one another. -/
def depth : Value → Nat
  | null | bool _ | number _ | text _ => 0
  | list items => itemsDepth items + 1
  | record members => membersDepth members + 1

/-- The greatest depth among the items of a list. -/
def itemsDepth : List Value → Nat
  | [] => 0
  | v :: vs => max v.depth (itemsDepth vs)

/-- The greatest depth among the members of an object. -/
def membersDepth : List (String × Value) → Nat
  | [] => 0
  | (_, v) :: ms => max v.depth (membersDepth ms)

end

/-- An integer as a value. -/
def int (i : Int) : Value := number (.ofInt i)

/-- A natural number as a value. -/
def nat (n : Nat) : Value := int n

/-- The integer that a value is. -/
def integer? : Value → Option Int
  | number n => n.integer?
  | _ => none

/-- The string that a value is. -/
def text? : Value → Option String
  | text s => some s
  | _ => none

/-- The truth value that a value is. -/
def bool? : Value → Option Bool
  | bool b => some b
  | _ => none

/-- The items of a list. -/
def items? : Value → Option (List Value)
  | list vs => some vs
  | _ => none

/-- The last member of an object under a key. -/
def get? (v : Value) (key : String) : Option Value :=
  match v with
  | record ms => (ms.reverse.find? (·.1 == key)).map (·.2)
  | _ => none

end Value

end KuAsm.Json

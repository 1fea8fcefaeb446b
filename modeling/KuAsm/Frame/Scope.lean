import KuAsm.Diagnostic
import KuAsm.Frame.FreeSet
import KuAsm.Source.Node

/-!
# Scopes

A scope is a block of the program together with the frame it has when it runs.  It holds the
variables and functions declared in it, how many bytes of the frame are reserved, and the heap
values it has to release.  The scope of a function body and the scope of a loop also say where their
exits are.

* `Scope.reserve` takes bytes of the frame; bytes are never given back.
* `Scope.declareVariable`, `Scope.declareFunction` add a name, which must be new in this scope.
* `Scope.owners` lists the variables that own a heap value, in the order of their slots.
-/

namespace KuAsm

/-- A variable of a scope. -/
structure Variable where
  /-- Its name. -/
  name : String
  /-- The type of its value. -/
  ty : ScalarType
  /-- The slot of its value. -/
  slot : Slot
  /-- For a string, the slot that holds the size of the heap value it owns; zero if it owns none. -/
  sizeCell : Option Slot
  /-- The id under which the scope releases its value. -/
  reclaim : Option ReclaimId
deriving DecidableEq, Repr, Inhabited

/-- What the value of a variable carries. -/
def Variable.lent (v : Variable) : Ownership :=
  match v.reclaim with
  | some id => .borrowed id
  | none => .plain

/-- What a call has to know about a function. -/
structure Signature where
  /-- Its name. -/
  name : String
  /-- The type of its result. -/
  ret : ScalarType
  /-- Its parameters. -/
  params : List Param
  /-- Where it starts. -/
  entry : Label
  /-- Where it returns. -/
  returnLabel : Label
deriving DecidableEq, Repr, Inhabited

/-- The exit of a function body. -/
structure FunctionExit where
  /-- The type of the result. -/
  ret : ScalarType
  /-- The place that every return goes to. -/
  returnLabel : Label
  /-- The slot of the result. -/
  result : Slot
  /-- The slot of the size of a result on the heap. -/
  resultSize : Slot
deriving DecidableEq, Repr, Inhabited

/-- The exits of a loop body. -/
structure LoopExit where
  /-- Where a round starts. -/
  top : Label
  /-- Where a round ends. -/
  next : Label
  /-- What follows the loop. -/
  exit : Label
deriving DecidableEq, Repr, Inhabited

/-- The number of a scope, in the order in which scopes were opened. -/
abbrev ScopeId := Nat

/-- A scope. -/
structure Scope where
  /-- The scope around it. -/
  parent : Option ScopeId
  /-- Its variables, in the order of their declaration. -/
  vars : List Variable
  /-- Its functions, in the order of their declaration. -/
  functions : List Signature
  /-- Bytes of the frame that are reserved. -/
  used : Nat
  /-- Heap values to release that no variable owns. -/
  freeSet : FreeSet
  /-- The exit of the function whose body this is. -/
  function : Option FunctionExit
  /-- The exits of the loop whose body this is. -/
  loop : Option LoopExit
  /-- The symbol of the size of the frame. -/
  frameSize : Label
deriving DecidableEq, Repr, Inhabited

namespace Scope

/-- A scope in which nothing is declared yet. -/
def fresh (parent : Option ScopeId) (frameSize : Label) : Scope :=
  ⟨parent, [], [], 0, .empty, none, none, frameSize⟩

/-- Reserve bytes of the frame. -/
def reserve (s : Scope) (size : Nat) : Except Fault (Slot × Scope) :=
  if wordCount ≤ s.used + size then .error .addOverflow
  else .ok (⟨s.used, size⟩, { s with used := s.used + size })

/-- The size of the frame: the reserved bytes, rounded up to whole words. -/
def frameBytes (s : Scope) : Except Fault Nat :=
  let words := (s.used + 3) / 4
  if wordCount ≤ words * 4 then .error .multiplyOverflow else .ok (words * 4)

/-- The variable of a name, in this scope alone. -/
def getVariable? (s : Scope) (name : String) : Option Variable := s.vars.find? (·.name == name)

/-- The function of a name, in this scope alone. -/
def getFunction? (s : Scope) (name : String) : Option Signature :=
  s.functions.find? (·.name == name)

/-- Declare a variable.  A string gets a second slot for the size of the heap value it may own. -/
def declareVariable (s : Scope) (name : String) (ty : ScalarType) (l : Location) :
    Except Failure (Variable × Scope) :=
  if (s.getVariable? name).isSome then
    .error (.rejected ⟨.duplicateDeclaration .variable name, l⟩)
  else
    match s.reserve ty.size with
    | .error f => .error (.fault f)
    | .ok (slot, s) =>
      if ty.isHeap then
        match s.reserve 4 with
        | .error f => .error (.fault f)
        | .ok (cell, s) =>
          let v : Variable := ⟨name, ty, slot, some cell, none⟩
          .ok (v, { s with vars := s.vars ++ [v] })
      else
        let v : Variable := ⟨name, ty, slot, none, none⟩
        .ok (v, { s with vars := s.vars ++ [v] })

/-- Declare a function. -/
def declareFunction (s : Scope) (f : Signature) (l : Location) : Except Failure Scope :=
  if (s.getFunction? f.name).isSome then
    .error (.rejected ⟨.duplicateDeclaration .function f.name, l⟩)
  else .ok { s with functions := s.functions ++ [f] }

/-- Make a variable the owner of an id. -/
def bind (s : Scope) (name : String) (id : ReclaimId) : Scope :=
  { s with
    vars := s.vars.map fun v => if v.name == name then { v with reclaim := some id } else v }

/-- The variables that own a heap value, in the order of their slots. -/
def owners (s : Scope) : List Variable :=
  (s.vars.filter (·.reclaim.isSome)).mergeSort fun v w => v.slot.offset ≤ w.slot.offset

/-- Whether a variable of the scope owns an id. -/
def owns (s : Scope) (id : ReclaimId) : Bool := s.vars.any (·.reclaim == some id)

end Scope

end KuAsm

import KuAsm.Frame.ScopeTree
import KuAsm.Listing

/-!
# The state of a compilation

Compiling goes through the program once.  What it builds up on the way is a `State`: the session,
the listing, the tree of scopes, the scope and the section it is working in.  A step of it is a
`Lower` action, which changes the state and may stop with a `Failure`; the state reached by then is
kept, since a session goes on counting from there.

The actions of this module are the ones everything else is made of: making labels and ids, reserving
slots of the current scope, looking up names, and adding lines to the listing.
-/

namespace KuAsm

/-- The state of a compilation. -/
structure State where
  /-- What is shared with other compilations. -/
  session : Session
  /-- The output so far. -/
  listing : Listing
  /-- All scopes opened so far. -/
  tree : ScopeTree
  /-- The scope that is being compiled. -/
  current : ScopeId
  /-- The scope of the main program, in which the library is declared. -/
  root : ScopeId
  /-- The section that statements are added to. -/
  target : Section
  /-- Whether the listing has comments. -/
  comments : Bool
deriving DecidableEq, Repr, Inhabited

/-- A step of a compilation. -/
abbrev Lower := EStateM Failure State

/-- The value of an expression: its type, what it carries, and the code that leaves it in `eax`, and
for a string the size of the heap value it owns in `edx`. -/
structure Lowered where
  /-- The type of the value. -/
  ty : ScalarType
  /-- What the value carries. -/
  ownership : Ownership
  /-- The code that computes it. -/
  code : Code
deriving DecidableEq, Repr

/-- A value that carries nothing. -/
def Lowered.plain (ty : ScalarType) (code : Code) : Lowered := ⟨ty, .plain, code⟩

namespace Lower

/-- Reject the program. -/
def reject {α : Type} (cause : Cause) (l : Location) : Lower α := throw (.rejected ⟨cause, l⟩)

/-- Use a number that may be out of range. -/
def checked {α : Type} (x : Except Fault α) : Lower α :=
  match x with
  | .ok a => pure a
  | .error f => throw (.fault f)

/-- Use a declaration that may be refused. -/
def accepted {α : Type} (x : Except Failure α) : Lower α :=
  match x with
  | .ok a => pure a
  | .error f => throw f

/-- Change the session. -/
def withSession {α : Type} (f : Session → α × Session) : Lower α :=
  modifyGet fun s => let (a, session) := f s.session; (a, { s with session })

/-- Make a label. -/
def mintLabel (hint : String) : Lower Label := withSession (·.mintLabel hint)

/-- Make an id for a heap value. -/
def mintReclaim : Lower ReclaimId := withSession (·.mintReclaim)

/-- Tell something. -/
def tell (n : Notice) : Lower Unit := withSession fun s => ((), s.tell n)

/-- A comment, unless the listing has none. -/
def remark (text : String) : Lower Code := do
  return if (← get).comments then [.comment text] else []

/-- Add lines to the section that is being written. -/
def emit (code : Code) : Lower Unit :=
  modify fun s => { s with listing := s.listing.append s.target code }

/-- The label of a string literal. -/
def place (text : String) : Lower Label :=
  modifyGet fun s =>
    let (label, listing, session) := s.listing.place s.session text
    (label, { s with listing, session })

/-- The scope that is being compiled. -/
def scope : Lower Scope := do
  let s ← get
  return s.tree.scope s.current

/-- Put another scope in the place of the one that is being compiled. -/
def setScope (scope : Scope) : Lower Unit :=
  modify fun s => { s with tree := s.tree.set s.current scope }

/-- Reserve bytes of the current frame. -/
def reserve (size : Nat) : Lower Slot := do
  let (slot, scope) ← checked ((← scope).reserve size)
  setScope scope
  return slot

/-- Declare a variable in the current scope. -/
def declareVariable (name : String) (ty : ScalarType) (l : Location) : Lower Variable := do
  let (v, scope) ← accepted ((← scope).declareVariable name ty l)
  setScope scope
  return v

/-- Make a variable of the current scope the owner of an id. -/
def own (name : String) (id : ReclaimId) : Lower Unit := do
  setScope ((← scope).bind name id)

/-- The operand of a slot of the current frame. -/
def frameSlot (s : Slot) : Lower Mem := checked (Mem.slot .ebp s)

/-- Open a scope inside the current one. -/
def pushScope (frameSize : Label) : Lower ScopeId := do
  let s ← get
  let id := s.tree.size
  set { s with tree := s.tree.push (some s.current) frameSize, session := s.session.recordScope }
  return id

/-- The nearest variable of a name. -/
def resolveVariable (name : String) (l : Location) : Lower (Resolved × Variable) := do
  let s ← get
  match s.tree.lookupVariable s.current name with
  | some x => return x
  | none => reject (.unresolvedSymbol .variable name) l

/-- The nearest function of a name. -/
def resolveFunction (name : String) (l : Location) : Lower (Resolved × Signature) := do
  let s ← get
  match s.tree.lookupFunction s.current name with
  | some x => return x
  | none => reject (.unresolvedSymbol .function name) l

/-- A function of the library, if it is set up.  The names of the library are taken in the outermost
scope, so nothing else can be found there under them. -/
def libraryFunction? (name : String) : Lower (Option Signature) := do
  let s ← get
  return (s.tree.scope s.root).getFunction? name

/-- Steps from the current scope to the outermost one. -/
def depthToRoot : Lower Nat := do
  let s ← get
  return s.tree.depthToRoot s.current

/-- A value that has to be of a type. -/
def expect (ty : ScalarType) (l : Location) (value : Lower Lowered) : Lower Lowered := do
  let v ← value
  if v.ty = ty then return v else reject (.invalidValueType ty v.ty) l

end Lower

end KuAsm

import KuAsm.Frame.Scope

/-!
# The tree of scopes

All scopes that were ever opened, in that order; each but the first kind knows the scope around it.
A name means what the nearest enclosing scope says it means, and the number of steps to that scope
is the number of frames that the running program has to go up.

* `ScopeTree.path` lists a scope and the scopes around it, innermost first.  All lookups search it.
* `ScopeTree.lookupLoop` does not look beyond the body of a function.
-/

namespace KuAsm

/-- All scopes, in the order in which they were opened. -/
structure ScopeTree where
  /-- The scopes; a `ScopeId` is a position in this list. -/
  scopes : List Scope
deriving DecidableEq, Repr, Inhabited

/-- A scope that was found, and the number of steps to it. -/
structure Resolved where
  /-- The scope. -/
  scope : ScopeId
  /-- Steps outwards from where the search began. -/
  depth : Nat
deriving DecidableEq, Repr, Inhabited

namespace ScopeTree

/-- The tree without scopes. -/
def empty : ScopeTree := ⟨[]⟩

/-- The number of scopes. -/
def size (t : ScopeTree) : Nat := t.scopes.length

/-- The scope of a number. -/
def scope (t : ScopeTree) (id : ScopeId) : Scope := t.scopes.getD id default

/-- Open a scope inside another one. -/
def push (t : ScopeTree) (parent : Option ScopeId) (frameSize : Label) : ScopeTree :=
  ⟨t.scopes ++ [Scope.fresh parent frameSize]⟩

/-- Put another scope in the place of one. -/
def set (t : ScopeTree) (id : ScopeId) (s : Scope) : ScopeTree := ⟨t.scopes.set id s⟩

/-- The first scopes of the path outwards, at most `n` of them. -/
def pathWithin (t : ScopeTree) : Nat → ScopeId → List ScopeId
  | 0, _ => []
  | n + 1, id => id :: match (t.scope id).parent with
    | some p => t.pathWithin n p
    | none => []

/-- A scope and the scopes around it, innermost first.  A scope lies inside an older one, so no path
is longer than the tree. -/
def path (t : ScopeTree) (id : ScopeId) : List ScopeId := t.pathWithin t.size id

/-- The first scope of the path that `p` accepts. -/
def find (t : ScopeTree) (start : ScopeId) (p : Scope → Bool) : Option Resolved :=
  let path := t.path start
  match path.findIdx? fun id => p (t.scope id) with
  | some depth => (path[depth]?).map fun id => ⟨id, depth⟩
  | none => none

/-- The nearest variable of a name. -/
def lookupVariable (t : ScopeTree) (start : ScopeId) (name : String) :
    Option (Resolved × Variable) := do
  let r ← t.find start fun s => (s.getVariable? name).isSome
  let v ← (t.scope r.scope).getVariable? name
  some (r, v)

/-- The nearest function of a name. -/
def lookupFunction (t : ScopeTree) (start : ScopeId) (name : String) :
    Option (Resolved × Signature) := do
  let r ← t.find start fun s => (s.getFunction? name).isSome
  let f ← (t.scope r.scope).getFunction? name
  some (r, f)

/-- The nearest function body. -/
def lookupFunctionExit (t : ScopeTree) (start : ScopeId) : Option (Resolved × FunctionExit) := do
  let r ← t.find start fun s => s.function.isSome
  let m ← (t.scope r.scope).function
  some (r, m)

/-- The nearest loop body inside the same function. -/
def lookupLoop (t : ScopeTree) (start : ScopeId) : Option (Resolved × LoopExit) := do
  let r ← t.find start fun s => s.loop.isSome || s.function.isSome
  let m ← (t.scope r.scope).loop
  some (r, m)

/-- Steps from a scope to the outermost one around it. -/
def depthToRoot (t : ScopeTree) (start : ScopeId) : Nat :=
  match t.find start fun s => s.parent.isNone with
  | some r => r.depth
  | none => 0

/-- A scope and `depth` scopes around it, as far as there are so many. -/
def chain (t : ScopeTree) (start : ScopeId) (depth : Nat) : List ScopeId :=
  (t.path start).take (depth + 1)

/-- The chain for any depth at all.  Room for its scopes, one more than `depth`, is set aside first:
their number is less than 2^64, and the room for them, eight bytes each, less than 2^63. -/
def checkedChain (t : ScopeTree) (start : ScopeId) (depth : Nat) : Except Fault (List ScopeId) :=
  if 18446744073709551616 ≤ depth + 1 then .error .addOverflow
  else if 9223372036854775808 ≤ 8 * (depth + 1) then .error .capacityOverflow
  else .ok (t.chain start depth)

end ScopeTree

end KuAsm

import KuAsm.Lowering.Binding

/-!
# Blocks, loops and exits

Every branch of a conditional and every round of a loop runs in a frame of its own.  The condition
of a conditional belongs to the scope around it, the condition of a loop to the frame of the round.

The parts of a construct come as actions, so what is said here holds of any body.  An action for a
statement list tells whether its last statement jumps away, in which case nothing is emitted to
leave the frame normally.

Exits leave frames one at a time from the innermost outwards; each is swept while the frame pointer
still points at it.  Leaving a loop also leaves the frame of the round, going on to the next round
stays in it, and a return stays in the frame of the function, which the shared end of the function
closes.

A string must reach the caller as a heap value of its own.  A new value is one already.  The value
of a variable of the function is kept from being released, and is copied if the variable turns out
to own nothing.  Anything else is copied.
-/

namespace KuAsm.Lower

open Asm Reg

/-! ## Frames of blocks -/

/-- Open a block inside the current scope and enter its frame. -/
def openBlock : Lower ScopeId := do
  let frameSize ← mintLabel "frame"
  let id ← pushScope frameSize
  emit (Convention.blockPrologue frameSize)
  modify fun s => { s with current := id }
  return id

/-- Sweep a scope and leave its frame. -/
def exitFrame (id : ScopeId) (keep : List ReclaimId) : Lower Unit := do
  sweep id keep
  emit Convention.blockEpilogue

/-- Define the size of the frame of a scope, now that nothing more is reserved in it. -/
def defineFrameSize (id : ScopeId) : Lower Unit := do
  let s ← get
  let bytes ← checked (s.tree.scope id).frameBytes
  emit [.constant (s.tree.scope id).frameSize bytes]

/-- Go back from a block to the scope around it.  If the end of the block can be reached, its frame
is left here. -/
def closeBlock (reachable : Bool) : Lower Unit := do
  let id := (← get).current
  if reachable then exitFrame id []
  defineFrameSize id
  modify fun s => { s with current := (s.tree.scope id).parent.getD s.root }

/-- A body in a frame of its own. -/
def block (body : Lower Bool) : Lower Unit := do
  let _ ← openBlock
  let jumped ← body
  closeBlock (!jumped)

/-! ## Conditionals and loops -/

/-- Jump to `target` unless a condition holds.  `l` is the place of the condition. -/
def branchUnless (target : Label) (l : Location) (condition : Lower Lowered) : Lower Unit := do
  let c ← condition
  if c.ty ≠ .boolean then reject (.conditionNotBoolean c.ty) l
  else emit (c.code ++ [test al al, jcc .z target])

/-- A body that runs if a condition holds; otherwise control goes on at `target`. -/
def guarded (target : Label) (l : Location) (condition : Lower Lowered) (body : Lower Bool) :
    Lower Unit := do
  branchUnless target l condition
  block body

/-- The frame of a round of a loop. -/
structure LoopFrame where
  /-- The scope of the round. -/
  scope : ScopeId
  /-- The exits of the loop. -/
  exits : LoopExit
  /-- Where the frame of the last round is left. -/
  done : Label
deriving DecidableEq, Repr

/-- Start a round of a loop and enter its frame. -/
def openLoop : Lower LoopFrame := do
  let top ← mintLabel "while_top"
  let next ← mintLabel "while_continue"
  let exit ← mintLabel "while_exit"
  let done ← mintLabel "while_done"
  emit [.label top]
  let id ← openBlock
  setScope { (← scope) with loop := some ⟨top, next, exit⟩ }
  return ⟨id, ⟨top, next, exit⟩, done⟩

/-- Leave the frame of a round and go on with the next one, or leave the loop. -/
def closeLoop (f : LoopFrame) : Lower Unit := do
  exitFrame f.scope []
  emit [jmp f.exits.top]
  emit [.label f.done]
  closeBlock true
  emit [.label f.exits.exit]

/-- A loop: `body` and then `post` run in a new frame as long as the condition holds. -/
def loop (l : Location) (condition : Lower Lowered) (body post : Lower Bool) : Lower Unit := do
  let f ← openLoop
  branchUnless f.done l condition
  let _ ← body
  emit [.label f.exits.next]
  let _ ← post
  closeLoop f

/-! ## Exits -/

/-- Leave so many frames, starting with the current one. -/
def unwind (frames : Nat) (keep : List ReclaimId) : Lower Unit := do
  let s ← get
  ((s.tree.path s.current).take frames).forM fun id => exitFrame id keep

/-- The loop around a statement. -/
def enclosingLoop (statement : String) (l : Location) : Lower (Resolved × LoopExit) := do
  let s ← get
  match s.tree.lookupLoop s.current with
  | some x => return x
  | none => reject (.unresolvedSymbol .enclosingLoop statement) l

/-- Leave the loop around a statement. -/
def leaveLoop (l : Location) : Lower Unit := do
  let (r, m) ← enclosingLoop "break" l
  unwind (r.depth + 1) []
  emit [jmp m.exit]

/-- Go on with the next round of the loop around a statement. -/
def nextRound (l : Location) : Lower Unit := do
  let (r, m) ← enclosingLoop "continue" l
  unwind r.depth []
  emit [jmp m.next]

/-- When a string is copied before it is returned. -/
inductive Copying where
  | never
  /-- If the variable it comes from owns nothing at that moment. -/
  | ifBorrowed
  | always
deriving DecidableEq, Repr

/-- How a string is returned through the scopes of `chain`: when it is copied, and which id must not
be released on the way. -/
def returnPlan (t : ScopeTree) (chain : List ScopeId) : Ownership → Copying × List ReclaimId
  | .fresh id => (.never, [id])
  | .borrowed id =>
    if chain.any fun s => (t.scope s).owns id then (.ifBorrowed, [id]) else (.always, [])
  | .plain => (.always, [])

/-- The code of a string with a copy of it made where that is called for. -/
def ownedResult (v : Lowered) (copying : Copying) : Lower Code := do
  if copying = .never then return v.code
  else match ← libraryFunction? "dup" with
    | none => return v.code
    | some f =>
      let skip ← mintLabel "owned"
      let check := if copying = .ifBorrowed then [test edx edx, jcc .nz skip] else []
      let slot ← reserve Convention.argBytes
      let m ← frameSlot slot
      let note ← remark "copy returned string"
      let call ← checked (Convention.call [slot] (← depthToRoot) f.entry)
      withSession fun s => ((), s.recordCall f.name)
      return v.code ++ check ++ [mov m eax] ++ note ++ call ++ [.label skip]

/-- The code that puts a value where the end of the function finds it, `depth` frames outwards. -/
def resultCode (depth : Nat) (m : FunctionExit) : Lower Code := do
  let (chase, base) := Convention.chase depth
  let result ← checked (Mem.slot base m.result)
  if m.ret.isHeap then
    let size ← checked (Mem.slot base m.resultSize)
    return chase ++ [mov result eax, mov size edx]
  else
    return chase ++ [mov result eax]

/-- Return from the function around a statement with what `value` computes for its type. -/
def leaveFunction (l : Location) (value : ScalarType → Lower Lowered) : Lower Unit := do
  let s ← get
  match s.tree.lookupFunctionExit s.current with
  | none => reject (.unresolvedSymbol .enclosingFunction "ret") l
  | some (r, m) =>
    let v ← value m.ret
    let s ← get
    let plan :=
      if m.ret.isHeap then returnPlan s.tree (s.tree.chain s.current r.depth) v.ownership
      else (.never, [])
    let code ← ownedResult v plan.1
    let result ← resultCode r.depth m
    emit (code ++ result)
    unwind r.depth plan.2
    sweep r.scope plan.2
    emit [jmp m.returnLabel]

end KuAsm.Lower

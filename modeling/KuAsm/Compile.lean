import KuAsm.Lowering.Walk

/-!
# Compiling a program

A compilation starts in a session, sets up the library in the outermost scope, goes through the
program and puts the listing together.

* `compileIn` compiles in a session that other compilations may have used, and gives the session
  back whether it succeeds or not.
* `compile` compiles in a new session.
-/

namespace KuAsm

open Asm Reg Lower

/-- What may be chosen for a compilation. -/
structure Options where
  /-- Whether the listing has comments. -/
  comments : Bool := true
  /-- The symbol at which the process starts. -/
  entry : String := "_start"
deriving DecidableEq, Repr, Inhabited

/-- The result of a compilation. -/
structure Assembly where
  /-- The whole unit. -/
  code : Code
  /-- What the session has counted by then. -/
  stats : Stats
deriving DecidableEq, Repr, Inhabited

/-- The text of the unit. -/
def Assembly.text (a : Assembly) : String := a.code.text

/-- The state in which a compilation starts: the outermost scope is open. -/
def State.start (session : Session) (comments : Bool) : State :=
  let (frameSize, session) := session.mintLabel "frame"
  { session := session.recordScope
    listing := .empty
    tree := ScopeTree.empty.push none frameSize
    current := 0
    root := 0
    target := .program
    comments }

/-- Enter the frame of the main program. -/
def openProgram : Lower Unit := do
  let root := (← get).root
  let note ← remark "program scope"
  emit (note ++ Convention.blockPrologue ((← get).tree.scope root).frameSize)

/-- Leave the frame of the main program, if the end of its statements can be reached, and end the
process. -/
def closeProgram (jumped : Bool) : Lower Unit := do
  let root := (← get).root
  unless jumped do
    exitFrame root []
  emit [mov eax (.imm Convention.sysExit), xor ebx ebx, kernel]
  defineFrameSize root
  tell (.programLowered (← get).tree.size)

/-- Compile the statements of the main program between its prologue and the end of the process. -/
def lowerProgram (program : Program) : Lower Unit := do
  openProgram
  let jumped ← Node.executeAll false program.body
  closeProgram jumped

/-- Compile a whole unit: the library, and then the main program. -/
def lowerUnit (program : Program) : Lower Unit := do
  registerLibrary
  lowerProgram program

/-- Compile a program in a session: the result, and the session afterwards. -/
def compileIn (session : Session) (options : Options) (program : Program) :
    Except Failure Assembly × Session :=
  match (lowerUnit program).run (State.start session options.comments) with
  | .ok _ s => (.ok ⟨s.listing.assemble options.entry, s.session.stats⟩, s.session)
  | .error e s => (.error e, s.session)

/-- Compile a program in a new session. -/
def compile (options : Options) (program : Program) : Except Failure Assembly :=
  (compileIn .empty options program).1

end KuAsm

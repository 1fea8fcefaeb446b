import KuAsm.Lowering.Flow
import KuAsm.Primitive

/-!
# Functions

A function is written to the section of functions: a jump over it, its entry, the prologue, a slot
for each parameter with the argument copied into it, the body, and the shared end that every return
jumps to.  The name is declared before the body is compiled, so the body may call the function
itself.

A string parameter has an id of its own and a size of zero: the function never releases what the
caller passed, but it does release what it assigns to the parameter.
-/

namespace KuAsm.Lower

open Asm Reg

/-- Give a string parameter an id of its own. -/
def adopt (p : Param) : Lower Unit :=
  if p.ty.isHeap then do own p.name (← mintReclaim) else return

/-- Declare a parameter and copy argument number `index` into its slot. -/
def bindParam (l : Location) (index : Nat) (p : Param) : Lower Code := do
  let x ← declareVariable p.name p.ty l
  let disp ← checked (Convention.paramDisp index)
  let m ← frameSlot x.slot
  adopt p
  return [mov eax (Mem.dword ebp disp), store m eax]

/-- Declare the parameters from number `index` on and copy the arguments into their slots. -/
def bindParams (l : Location) : Nat → List Param → Lower Code
  | _, [] => return []
  | index, p :: rest => do
    let code ← bindParam l index p
    let more ← bindParams l (index + 1) rest
    return code ++ more

/-- The frame of a function that is being written. -/
structure FunctionFrame where
  /-- The exit of the function. -/
  exit : FunctionExit
  /-- The scope of its body. -/
  scope : ScopeId
  /-- What follows the text of the function. -/
  skip : Label
  /-- The scope that declares the function. -/
  outer : ScopeId
  /-- The section that the declaring scope is written to. -/
  target : Section
deriving DecidableEq, Repr

/-- Declare a function in the current scope: what a call has to know about it, and the label of what
follows its text. -/
def announce (name : String) (params : List Param) (ret : ScalarType) (l : Location) :
    Lower (Signature × Label) := do
  let entry ← mintLabel name
  let returnLabel ← mintLabel ("ret_" ++ name)
  let f : Signature := ⟨name, ret, params, entry, returnLabel⟩
  setScope (← accepted ((← scope).declareFunction f l))
  let skip ← mintLabel ("skip_" ++ name)
  return (f, skip)

/-- Open the scope of a function body, which is written to the section of functions. -/
def openBody (f : Signature) : Lower FunctionExit := do
  let frameSize ← mintLabel "frame"
  let id ← pushScope frameSize
  modify fun s => { s with current := id, target := .functions }
  let result ← reserve 4
  let resultSize ← reserve 4
  let exit : FunctionExit := ⟨f.ret, f.returnLabel, result, resultSize⟩
  setScope { (← scope) with function := some exit }
  return exit

/-- Declare a function in the current scope and write its text up to the body. -/
def openFunction (name : String) (params : List Param) (ret : ScalarType) (l : Location) :
    Lower FunctionFrame := do
  let (f, skip) ← announce name params ret l
  let before ← get
  let exit ← openBody f
  let note ← remark ("fn " ++ name)
  let copies ← bindParams l 0 params
  let s ← get
  emit (note ++ [jmp skip, .label f.entry]
    ++ Convention.functionPrologue (s.tree.scope s.current).frameSize ++ copies)
  return ⟨exit, s.current, skip, before.current, before.target⟩

/-- The code that takes the result from where returns have put it. -/
def fetchResult (m : FunctionExit) : Lower Code := do
  let result ← frameSlot m.result
  if m.ret.isHeap then
    let size ← frameSlot m.resultSize
    return [mov eax result, mov edx size]
  else
    return [mov eax result]

/-- Write the end of a function, which every return goes to, and go back to the scope that declares
it. -/
def closeFunction (name : String) (f : FunctionFrame) : Lower Unit := do
  let code ← fetchResult f.exit
  emit ([.label f.exit.returnLabel] ++ code ++ Convention.functionEpilogue)
  defineFrameSize f.scope
  emit [.label f.skip]
  modify fun s => { s with current := f.outer, target := f.target }
  withSession fun s => ((), s.recordFunction name)

/-- Declare a function in the current scope and write it.  `body` compiles its statements, given the
exit of the function. -/
def defineFunction (name : String) (params : List Param) (ret : ScalarType) (l : Location)
    (body : FunctionExit → Lower Unit) : Lower Unit := do
  let f ← openFunction name params ret l
  body f.exit
  closeFunction name f

/-- The statements of a function, and a return of the zero of its type behind them unless they jump
away. -/
def functionBody (l : Location) (statements : Lower Bool) (_ : FunctionExit) : Lower Unit := do
  let jumped ← statements
  unless jumped do
    leaveFunction l fun ty => literal ty.zero

/-- The operands of the parameters of the function that is being compiled. -/
def paramOperands (params : List Param) : Lower (List Mem) := do
  let s ← scope
  (params.filterMap fun p => s.getVariable? p.name).mapM fun x => frameSlot x.slot

/-- The instructions of a function of the library. -/
def primitiveBody (p : Primitive) (exit : FunctionExit) : Lower Unit := do
  let args ← paramOperands p.params
  let s ← get
  let (code, session, listing) ← checked ((p.body args).run (s.session, s.listing))
  set { s with session, listing }
  let result ← resultCode 0 exit
  emit (code ++ result)

/-- Set up the library in the current scope. -/
def registerLibrary : Lower Unit := do
  Primitive.all.forM fun p => defineFunction p.name p.params p.ret .internal (primitiveBody p)
  tell (.libraryRegistered Primitive.all.length)

end KuAsm.Lower

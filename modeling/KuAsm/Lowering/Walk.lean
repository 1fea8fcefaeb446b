import KuAsm.Lowering.Function

/-!
# Going through a program

The recursion over the tree.  What a construct does is said in the modules before; here each node is
taken apart, and its parts are handed on as actions.

* `Node.evaluate` compiles an expression.
* `Node.execute` compiles a statement and tells whether it jumps away.
* `Node.executeAll` compiles a statement list; what counts is whether its last statement jumps away.
-/

namespace KuAsm

open Asm Lower

mutual

/-- Compile an expression. -/
def Node.evaluate : Node → Lower Lowered
  | .mk (.number v) _ => literal (.number v)
  | .mk (.decimal v) _ => literal (.decimal v)
  | .mk (.char v) _ => literal (.char v)
  | .mk (.bool v) _ => literal (.bool v)
  | .mk (.str v) _ => literal (.str v)
  | .mk (.var name) l => readVariable name l
  | .mk (.binary op left right) l => do
    let a ← left.evaluate
    let b ← right.evaluate
    combine op a b l
  | .mk (.signed sign value) l => do applySign sign (← value.evaluate) l
  | .mk (.step name op fixity) l => stepVariable name op fixity l
  | .mk (.call name args) l => do
    let (r, f) ← resolveCall name args.length l
    let values ← Node.evaluateArgs name f.params args
    invoke f r.depth values
  | .mk (.addressOf name) l => addressOf name l
  | .mk (.cast value ty mode) l => do applyCast (← value.evaluate) ty mode l
  | .mk form l => reject (.misplacedNode form.name "expression") l

/-- Compile the arguments of a call of `name`; those beyond the parameters may be of any type. -/
def Node.evaluateArgs (name : String) : List Param → List Node → Lower (List Lowered)
  | _, [] => return []
  | p :: params, arg :: args => do
    let v ← expect p.ty arg.location arg.evaluate
    let vs ← Node.evaluateArgs name params args
    return v :: vs
  | [], arg :: args => do
    tell (.extraArgument arg.location name)
    let v ← arg.evaluate
    let vs ← Node.evaluateArgs name [] args
    return v :: vs

end

/-- An optional expression that has to be of a type; without one it is the zero of that type. -/
def Node.evaluateOr (value : Option Node) (ty : ScalarType) : Lower Lowered :=
  match value with
  | some v => expect ty v.location v.evaluate
  | none => literal ty.zero

/-- The label behind the block of a conditional: the exit of the whole, unless something follows. -/
def Otherwise.label (exit : Label) : Otherwise → Lower Label
  | .absent => return exit
  | _ => mintLabel "if_else"

mutual

/-- Compile a statement. -/
def Node.execute : Node → Lower Bool
  | .mk (.function name params ret body) l => do
    defineFunction name params ret l (functionBody l (Node.executeAll false body))
    return false
  | .mk (.declare name ty value) l => do
    declare name ty l (Node.evaluateOr value ty)
    return false
  | .mk (.assign name value) l => do
    assign name l fun ty => expect ty value.location value.evaluate
    return false
  | .mk (.store address value) l => do
    storeAt address.evaluate value.evaluate l
    return false
  | .mk (.conditional condition body otherwise) _ => do
    let exit ← mintLabel "if_exit"
    let next ← otherwise.label exit
    guarded next condition.location condition.evaluate (Node.executeAll false body)
    otherwise.execute exit next
    return false
  | .mk (.whileLoop condition body) _ => do
    loop condition.location condition.evaluate (Node.executeAll false body) (return false)
    return false
  | .mk (.forLoop start condition step body) _ => do
    block do
      let _ ← start.execute
      loop condition.location condition.evaluate (Node.executeAll false body) step.execute
      return false
    return false
  | .mk (.included path program) _ => do
    if ← withSession (·.markIncluded path) then
      emit (← remark ("include " ++ path))
      let _ ← Node.executeAll false program
    else
      tell (.alreadyIncluded path)
    return false
  | .mk .breakLoop l => do
    leaveLoop l
    return true
  | .mk .continueLoop l => do
    nextRound l
    return true
  | .mk (.ret value) l => do
    leaveFunction l (Node.evaluateOr value)
    return true
  | .mk (.call name args) l => do
    emit (← Node.evaluate (.mk (.call name args) l)).code
    return false
  | .mk (.step name op fixity) l => do
    emit (← stepVariable name op fixity l).code
    return false
  | .mk form l => reject (.misplacedNode form.name "statement") l

/-- Compile a statement list.  `jumped` tells whether the statement before it jumps away. -/
def Node.executeAll (jumped : Bool) : List Node → Lower Bool
  | [] => return jumped
  | n :: ns => do
    let jumped ← n.execute
    Node.executeAll jumped ns

/-- Compile what follows the block of a conditional.  `exit` is the end of the whole conditional,
and `next` the place where control goes on if no condition so far holds. -/
def Otherwise.execute (exit next : Label) : Otherwise → Lower Unit
  | .absent => emit [.label exit]
  | .block body => do
    emit [jmp exit, .label next]
    block (Node.executeAll false body)
    emit [.label exit]
  | .chained (.mk (.conditional condition body otherwise) _) => do
    emit [jmp exit, .label next]
    let next ← otherwise.label exit
    guarded next condition.location condition.evaluate (Node.executeAll false body)
    otherwise.execute exit next
  | .chained (.mk form l) => do
    emit [jmp exit, .label next]
    reject (.misplacedNode form.name "else-if") l

end

end KuAsm

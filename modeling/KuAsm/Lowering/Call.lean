import KuAsm.Lowering.Heap

/-!
# Calls

The value of each argument is put into a slot of the caller's frame before the next argument is
computed.  Once all are there they are pushed, and the function is called.  Arguments beyond the
parameters are computed and dropped.
-/

namespace KuAsm.Lower

open Asm Reg

/-- The code of the arguments: each is computed in turn, and the first `count` go to slots. -/
def stageArguments : Nat → List Lowered → Lower (Code × List Slot)
  | _, [] => return ([], [])
  | 0, a :: rest => do
    let (code, slots) ← stageArguments 0 rest
    return (a.code ++ code, slots)
  | count + 1, a :: rest => do
    let slot ← reserve Convention.argBytes
    let m ← frameSlot slot
    let (code, slots) ← stageArguments count rest
    return (a.code ++ [mov m eax] ++ code, slot :: slots)

/-- Call a function that is declared `depth` scopes outwards.  A string that comes back is a new
heap value of the current scope. -/
def invoke (f : Signature) (depth : Nat) (args : List Lowered) : Lower Lowered := do
  let (staging, slots) ← stageArguments f.params.length args
  let note ← remark ("call " ++ f.name)
  let call ← checked (Convention.call slots depth f.entry)
  withSession fun s => ((), s.recordCall f.name)
  let code := staging ++ note ++ call
  if f.ret.isHeap then
    let (registered, id) ← registerFresh
    return ⟨f.ret, .fresh id, code ++ registered⟩
  else
    return .plain f.ret code

/-- The function of a call, which must be given at least as many arguments as it has parameters. -/
def resolveCall (name : String) (count : Nat) (l : Location) : Lower (Resolved × Signature) := do
  let (r, f) ← resolveFunction name l
  if count < f.params.length then reject (.arityMismatch name f.params.length count) l
  else return (r, f)

end KuAsm.Lower

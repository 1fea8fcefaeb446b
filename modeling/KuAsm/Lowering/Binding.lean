import KuAsm.Lowering.Expression

/-!
# Declarations, assignments and stores

The value of a declaration is computed before the name is declared, so it still sees an outer
variable of the same name.  A string variable keeps one id for as long as it lives; what it owns
under that id changes with every assignment, and the old value is released before the new one is
stored.
-/

namespace KuAsm.Lower

open Asm Reg

/-- Declare a variable of the current scope with the value that `value` computes. -/
def declare (name : String) (ty : ScalarType) (l : Location) (value : Lower Lowered) :
    Lower Unit := do
  let v ← value
  let x ← declareVariable name ty l
  let note ← remark (":" ++ name ++ "/" ++ ty.name)
  let m ← frameSlot x.slot
  match x.sizeCell with
  | none => emit (note ++ v.code ++ [store m eax])
  | some cell =>
    let (taken, id?) ← takeOwnership v.ownership name l
    let id ← id?.getDM mintReclaim
    let c ← frameSlot cell
    own name id
    emit (note ++ v.code ++ [store m eax] ++ taken ++ [store c edx])

/-- Release what a variable owns, described by slots of the frame that `base` points at. -/
def releaseOld (base : Reg) (x : Variable) (cell : Slot) : Lower Code :=
  match x.reclaim with
  | some id => release base id ⟨x.slot, cell⟩
  | none => return []

/-- Put another string in the place of the one that a variable holds, `depth` frames outwards. -/
def replaceString (x : Variable) (cell : Slot) (depth : Nat) (v : Lowered) (l : Location) :
    Lower Unit := do
  let (chase, base) := Convention.chase depth
  let (taken, _) ← takeOwnership v.ownership x.name l
  let old ← releaseOld base x cell
  let m ← checked (Mem.slot base x.slot)
  let c ← checked (Mem.slot base cell)
  emit (v.code ++ taken ++ [push eax, push edx] ++ chase ++ old
    ++ [pop edx, pop eax, store m eax, store c edx])

/-- Assign to a variable what `value` computes for its type.  Assigning a string variable to itself
does nothing. -/
def assign (name : String) (l : Location) (value : ScalarType → Lower Lowered) : Lower Unit := do
  let (r, x) ← resolveVariable name l
  let v ← value x.ty
  match x.sizeCell with
  | none =>
    let (chase, base) := Convention.chase r.depth
    let m ← checked (Mem.slot base x.slot)
    emit (v.code ++ chase ++ [store m eax])
  | some cell =>
    if x.reclaim.map Ownership.borrowed = some v.ownership then
      emit (← remark ("`" ++ name ++ "` assigned to itself"))
    else
      replaceString x cell r.depth v l

/-- Store the value that `value` computes at the address that `address` computes. -/
def storeAt (address value : Lower Lowered) (l : Location) : Lower Unit := do
  let a ← address
  if a.ty ≠ .integer then reject (.invalidMemoryTarget a.ty) l
  else
    let v ← value
    emit (a.code ++ [push eax] ++ v.code ++ [pop ecx, store (Mem.sized ecx 0 (.ofType v.ty)) eax])

end KuAsm.Lower

import KuAsm.Convention
import KuAsm.Lowering.Basic

/-!
# Releasing heap values

A call that yields a string yields a new heap value.  It gets an id and two slots of the current
frame, for its address and its size, and enters the free set of the current scope.  A variable that
it is bound to takes it out of the free set; from then on the variable's own two slots describe it.

A frame is swept wherever it is left.  The sweep is made anew each time from the free set and the
variables of the scope, and releases each value unless its size is zero at that moment.  The size is
zero for literals and for values that another variable owns.
-/

namespace KuAsm

/-- Add what a variable owns to the values to release. -/
def Variable.stage (v : Variable) (pending : FreeSet) : FreeSet :=
  match v.reclaim, v.sizeCell with
  | some id, some size => pending.insert id ⟨v.slot, size⟩
  | _, _ => pending

/-- The values that a scope has to release: its free set and what its variables own. -/
def Scope.pendingFrees (s : Scope) : FreeSet :=
  s.owners.foldl (fun pending v => v.stage pending) s.freeSet

namespace Lower

open Asm Reg

/-- Take note of the new heap value in `eax` and `edx`. -/
def registerFresh : Lower (Code × ReclaimId) := do
  let id ← mintReclaim
  let address ← reserve 4
  let size ← reserve 4
  let s ← scope
  setScope { s with freeSet := s.freeSet.insert id ⟨address, size⟩ }
  let addressMem ← frameSlot address
  let sizeMem ← frameSlot size
  let note ← remark ("owns " ++ id.text)
  return ([store addressMem eax, store sizeMem edx] ++ note, id)

/-- Settle what a variable takes over from the value in `eax` and `edx`: the id of a new value,
which leaves the free set, or nothing but the pointer, with a size of zero. -/
def takeOwnership (o : Ownership) (name : String) (l : Location) :
    Lower (Code × Option ReclaimId) := do
  match o with
  | .fresh id =>
    let s ← scope
    setScope { s with freeSet := s.freeSet.erase id }
    tell (.ownershipTaken l name id)
    return ([], some id)
  | .borrowed id =>
    tell (.valueAliased l name id)
    return ([xor edx edx], none)
  | .plain => return ([xor edx edx], none)

/-- Release a value described by slots of the frame that `base` points at, unless its size is
zero. -/
def release (base : Reg) (id : ReclaimId) (e : Staged) : Lower Code := do
  let skip ← mintLabel "freed"
  let note ← remark ("free " ++ id.text)
  let size ← checked (Mem.slot base e.size)
  let address ← checked (Mem.slot base e.address)
  withSession fun s => ((), s.recordFree)
  return note ++ [mov ecx size, test ecx ecx, jcc .z skip, mov ebx address,
    mov eax (.imm Convention.sysUnmap), kernel, .label skip]

/-- Release all values of a list but those that are kept. -/
def releaseAll (keep : List ReclaimId) : List (ReclaimId × Staged) → Lower Code
  | [] => return []
  | (id, e) :: rest => do
    let code ← if keep.contains id then remark ("keep " ++ id.text) else release ebp id e
    let more ← releaseAll keep rest
    return code ++ more

/-- Release what a scope has to release, except what is kept.  The frame pointer must point at the
frame of the scope. -/
def sweep (id : ScopeId) (keep : List ReclaimId) : Lower Unit := do
  let s ← get
  let code ← releaseAll keep (s.tree.scope id).pendingFrees.entries
  emit code

end Lower

end KuAsm

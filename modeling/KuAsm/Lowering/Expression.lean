import KuAsm.Binary.Layout
import KuAsm.Lowering.Call

/-!
# Expressions

How the value of an expression is computed, given the values of its parts.  The code of an
expression leaves its value in `eax`, and for a string the size of the heap value in `edx`.

The left operand of an operator waits on the stack while the right one is computed.  Numbers,
characters and truth values meet in `eax` and `ecx`.  Decimals meet on the floating-point stack,
each rounded to four digits behind the point.  Strings are joined by a call of the library.
-/

namespace KuAsm

open Asm Reg

/-- A constant that is written in a program. -/
inductive Literal where
  | number (value : Int32)
  | decimal (value : Single)
  | char (value : UInt8)
  | bool (value : Bool)
  | str (value : String)
deriving DecidableEq, Repr

/-- The constant that a variable of a type starts with. -/
def ScalarType.zero : ScalarType → Literal
  | integer => .number 0
  | decimal => .decimal .zero
  | boolean => .bool false
  | character => .char 0
  | string => .str ""

/-- The scale of the rounding of decimals: ten thousand. -/
def decimalScale : UInt32 := 0x461c4000

/-- The decimal minus one. -/
def minusOne : UInt32 := 0xbf800000

/-- The condition that holds after two numbers are compared, if they stand in the relation. -/
def BinaryOp.signedCond : BinaryOp → Cond
  | lt => .l
  | gt => .g
  | le => .le
  | ge => .ge
  | ne => .ne
  | _ => .e

/-- The condition that holds after two decimals are compared, if they stand in the relation.
Comparing decimals sets the flags as comparing unsigned numbers does. -/
def BinaryOp.unsignedCond : BinaryOp → Cond
  | lt => .b
  | gt => .a
  | le => .be
  | ge => .ae
  | ne => .ne
  | _ => .e

/-- Combine `eax` and `ecx`. -/
def integerCode (op : BinaryOp) : Code :=
  match op with
  | .add => [add eax ecx]
  | .sub => [sub eax ecx]
  | .mul => [.instr (.arith .imul eax ecx)]
  | .div => [bare .cdq, .instr (.unary .idiv ecx)]
  | .rem => [bare .cdq, .instr (.unary .idiv ecx), mov eax edx]
  | .and => [.instr (.arith .and eax ecx)]
  | .or => [.instr (.arith .or eax ecx)]
  | _ => [cmp eax ecx, setcc op.signedCond eax, movzx eax al]

/-- Push a decimal on the floating-point stack, rounded to four digits behind the point. -/
def loadRounded (src : Mem) : Code :=
  [floatMem .fld src, push (.bits decimalScale), floatMem .fmul (Mem.dword esp 0), bare .frndint,
    floatMem .fdiv (Mem.dword esp 0), add esp 4]

/-- The floating-point instruction of an operator. -/
def BinaryOp.floatPair? : BinaryOp → Option FloatPair
  | add => some .faddp
  | sub => some .fsubp
  | mul => some .fmulp
  | div => some .fdivp
  | _ => none

/-- Negate the value in `eax`. -/
def negateCode : ScalarType → Code
  | .decimal =>
    [push eax, floatMem .fld (Mem.dword esp 0), push (.bits minusOne),
      floatMem .fmul (Mem.dword esp 0), add esp 4, floatMem .fstp (Mem.dword esp 0), pop eax]
  | _ => [.instr (.unary .neg eax)]

/-- The instruction of a step operator. -/
def StepOp.unary : StepOp → Unary
  | increment => .inc
  | decrement => .dec

namespace Lower

/-- A constant. -/
def literal : Literal → Lower Lowered
  | .number v => return .plain .integer [mov eax (.imm v.toInt)]
  | .decimal v => do
    let note ← remark ("dec " ++ v.remark)
    return .plain .decimal ([mov eax (.bits v.bits)] ++ note)
  | .char v => return .plain .character [mov eax (.imm v.toNat)]
  | .bool v => return .plain .boolean [mov eax (if v then 1 else 0)]
  | .str v => do
    let label ← place v
    return .plain .string [mov eax label, xor edx edx]

/-- Load the size of what a variable owns, if it may own anything. -/
def loadSize (base : Reg) (v : Variable) : Lower Code :=
  match v.sizeCell with
  | some cell => do
    let c ← checked (Mem.slot base cell)
    return [load edx c]
  | none => return []

/-- The value of a variable, and for a string the size of what it owns. -/
def readVariable (name : String) (l : Location) : Lower Lowered := do
  let (r, v) ← resolveVariable name l
  let (code, base) := Convention.chase r.depth
  let m ← checked (Mem.slot base v.slot)
  let size ← loadSize base v
  return ⟨v.ty, v.lent, code ++ [load eax m] ++ size⟩

/-- The address of a variable. -/
def addressOf (name : String) (l : Location) : Lower Lowered := do
  let (r, v) ← resolveVariable name l
  let (code, base) := Convention.chase r.depth
  let m ← checked (Mem.slot base v.slot)
  return .plain .integer (code ++ [lea eax m])

/-- Combine the decimals at the top of the stack and in `eax`. -/
def decimalCode (op : BinaryOp) : Lower Code := do
  let left := Mem.dword esp 4
  let right := Mem.dword esp 0
  let finish := [floatMem .fstp left, add esp 4, pop eax]
  if op = .rem then
    -- the dividend has to be on top
    let again ← mintLabel "fprem"
    return [push eax] ++ loadRounded right ++ loadRounded left
      ++ [.label again, bare .fprem, .instr .floatStatus, bare .sahf, jcc .p again,
      .instr .floatKeep] ++ finish
  else
    let operands := [push eax] ++ loadRounded left ++ loadRounded right
    match op.floatPair? with
    | some pair => return operands ++ [.instr (.floatPair pair)] ++ finish
    | none =>
      -- the right operand is on top; exchange them to compare the left one with it
      return operands ++ [.instr .floatSwap, .instr .floatCompare, .instr .floatDrop,
        setcc op.unsignedCond eax, movzx eax al, add esp 8]

/-- Two strings joined, by a call of the library. -/
def concat (left right : Lowered) (l : Location) : Lower Lowered := do
  match ← libraryFunction? "append" with
  | some f => invoke f (← depthToRoot) [left, right]
  | none => reject (.unresolvedSymbol .function "append") l

/-- Two values combined by an operator. -/
def combine (op : BinaryOp) (left right : Lowered) (l : Location) : Lower Lowered := do
  if left.ty ≠ right.ty then reject (.binaryTypeMismatch op left.ty right.ty) l
  else if left.ty = .string ∧ op = .add then concat left right l
  else if !op.accepts left.ty then reject (.unsupportedOperation op.symbol left.ty) l
  else
    let operands := left.code ++ [push eax] ++ right.code
    if left.ty = .decimal then
      let code ← decimalCode op
      return .plain (op.resultType left.ty) (operands ++ code)
    else
      return .plain (op.resultType left.ty) (operands ++ [mov ecx eax, pop eax] ++ integerCode op)

/-- A value with a sign. -/
def applySign (s : Sign) (v : Lowered) (l : Location) : Lower Lowered := do
  if !v.ty.isArithmetic then reject (.unsupportedOperation s.symbol v.ty) l
  else match s with
    | .plus => return .plain v.ty v.code
    | .minus => return .plain v.ty (v.code ++ negateCode v.ty)

/-- A variable changed by one. -/
def stepVariable (name : String) (op : StepOp) (fixity : Fixity) (l : Location) :
    Lower Lowered := do
  let (r, v) ← resolveVariable name l
  if v.ty ≠ .integer ∧ v.ty ≠ .character then reject (.unsupportedOperation op.symbol v.ty) l
  else
    let (code, base) := Convention.chase r.depth
    let m ← checked (Mem.slot base v.slot)
    let change : Line := .instr (.unary op.unary m)
    match fixity with
    | .leading => return .plain v.ty (code ++ [change, load eax m])
    | .trailing => return .plain v.ty (code ++ [load eax m, change])

/-- A value taken for one of another type.  The result is never the owner of a heap value. -/
def applyCast (v : Lowered) (ty : ScalarType) (mode : CastMode) (l : Location) : Lower Lowered := do
  let size := if ty.isHeap then [xor edx edx] else []
  match mode with
  | .deref =>
    if v.ty ≠ .integer ∧ v.ty ≠ .string then reject (.invalidValueType .integer v.ty) l
    else return .plain ty (v.code ++ [load eax (Mem.sized eax 0 (.ofType ty))] ++ size)
  | .immediate =>
    let narrow := if ty.size = 1 ∧ v.ty.size ≠ 1 then [movzx eax al] else []
    return .plain ty (v.code ++ narrow ++ size)

end Lower

end KuAsm

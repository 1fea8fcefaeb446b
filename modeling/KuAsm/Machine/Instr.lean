import KuAsm.Machine.Operand

/-!
# Instructions and lines

A listing is a list of `Line`s: instructions, label definitions, comments, constants, and bytes of
data.  Everything the compiler emits is such data; `Line.text` is the only place where it becomes
assembler text.

The functions of the namespace `Asm` build single lines and read like the assembler they stand for.
-/

namespace KuAsm

/-- Instructions with a destination and a source. -/
inductive Arith where
  | add | sub | and | or | xor | imul | cmp | test
deriving DecidableEq, Repr

/-- The mnemonic. -/
def Arith.text : Arith → String
  | add => "add" | sub => "sub" | and => "and" | or => "or" | xor => "xor" | imul => "imul"
  | cmp => "cmp" | test => "test"

/-- Instructions with one operand. -/
inductive Unary where
  | inc | dec | neg | idiv
deriving DecidableEq, Repr

/-- The mnemonic. -/
def Unary.text : Unary → String
  | inc => "inc" | dec => "dec" | neg => "neg" | idiv => "idiv"

/-- Instructions without an operand. -/
inductive Bare where
  /-- Extend the sign of `eax` into `edx`. -/
  | cdq
  /-- Leave the innermost frame. -/
  | leave
  /-- Return to the caller. -/
  | ret
  /-- Let string instructions count upwards. -/
  | cld
  /-- Copy `ecx` bytes from `esi` to `edi`. -/
  | copyBytes
  /-- Fill `ecx` words at `edi` with `eax`. -/
  | fillWords
  /-- Copy `ah` to the flags. -/
  | sahf
  /-- Round the top of the floating-point stack to an integer. -/
  | frndint
  /-- Take the remainder of the two topmost floating-point numbers, in part. -/
  | fprem
deriving DecidableEq, Repr

/-- The mnemonic. -/
def Bare.text : Bare → String
  | cdq => "cdq" | leave => "leave" | ret => "ret" | cld => "cld"
  | copyBytes => "rep movsb" | fillWords => "rep stosd"
  | sahf => "sahf" | frndint => "frndint" | fprem => "fprem"

/-- Floating-point operations that replace the two topmost numbers by one. -/
inductive FloatPair where
  | faddp | fsubp | fmulp | fdivp
deriving DecidableEq, Repr

/-- The mnemonic. -/
def FloatPair.text : FloatPair → String
  | faddp => "faddp" | fsubp => "fsubp" | fmulp => "fmulp" | fdivp => "fdivp"

/-- Floating-point instructions that touch memory. -/
inductive FloatMem where
  /-- Push a number. -/
  | fld
  /-- Pop a number. -/
  | fstp
  /-- Multiply the top by a number. -/
  | fmul
  /-- Divide the top by a number. -/
  | fdiv
deriving DecidableEq, Repr

/-- The mnemonic. -/
def FloatMem.text : FloatMem → String
  | fld => "fld" | fstp => "fstp" | fmul => "fmul" | fdiv => "fdiv"

/-- An instruction. -/
inductive Instr where
  | mov (dst src : Operand)
  /-- Load a byte and clear the rest of the register. -/
  | movzx (dst : Reg) (src : Operand)
  /-- Load an address. -/
  | lea (dst : Reg) (src : Mem)
  | push (src : Operand)
  | pop (dst : Reg)
  | arith (op : Arith) (dst src : Operand)
  | unary (op : Unary) (dst : Operand)
  | bare (op : Bare)
  | jmp (target : Label)
  /-- Jump if a condition holds. -/
  | jcc (cond : Cond) (target : Label)
  /-- Set a byte to whether a condition holds. -/
  | setcc (cond : Cond) (dst : Reg)
  | call (target : Label)
  /-- Call the operating system. -/
  | kernel
  | floatMem (op : FloatMem) (m : Mem)
  | floatPair (op : FloatPair)
  /-- Pop the top of the floating-point stack. -/
  | floatDrop
  /-- Pop the top of the floating-point stack into the number below it. -/
  | floatKeep
  /-- Exchange the two topmost floating-point numbers. -/
  | floatSwap
  /-- Compare the two topmost floating-point numbers and pop one. -/
  | floatCompare
  /-- Copy the floating-point status to `ax`. -/
  | floatStatus
deriving DecidableEq, Repr

/-- An instruction without operands as it is written. -/
def op0 (mnemonic : String) : String := "    " ++ mnemonic

/-- An instruction with one operand as it is written. -/
def op1 (mnemonic a : String) : String := "    " ++ mnemonic ++ " " ++ a

/-- An instruction with two operands as it is written. -/
def op2 (mnemonic a b : String) : String := "    " ++ mnemonic ++ " " ++ a ++ ", " ++ b

/-- The line of an instruction. -/
def Instr.text : Instr → String
  | mov d s => op2 "mov" d.text s.text
  | movzx d s => op2 "movzx" d.text s.text
  | lea d s => op2 "lea" d.text s.text
  | push s => op1 "push" s.text
  | pop d => op1 "pop" d.text
  | arith op d s => op2 op.text d.text s.text
  | unary op d => op1 op.text d.text
  | bare op => op0 op.text
  | jmp l => op1 "jmp" l.text
  | jcc c l => op1 ("j" ++ c.suffix) l.text
  | setcc c d => op1 ("set" ++ c.suffix) d.lowByte.text
  | call l => op1 "call" l.text
  | kernel => op1 "int" "0x80"
  | floatMem op m => op1 op.text m.text
  | floatPair op => op2 op.text "st1" "st0"
  | floatDrop => op1 "fstp" "st0"
  | floatKeep => op1 "fstp" "st1"
  | floatSwap => op1 "fxch" "st1"
  | floatCompare => op2 "fcomip" "st0" "st1"
  | floatStatus => op1 "fnstsw" "ax"

/-- A line of a listing. -/
inductive Line where
  | instr (i : Instr)
  /-- The definition of a label at this place. -/
  | label (l : Label)
  /-- A comment; its text is not looked at. -/
  | comment (text : String)
  /-- The definition of a label as a number. -/
  | constant (l : Label) (value : Nat)
  /-- The definition of a label at the given bytes, which a zero byte follows. -/
  | bytes (l : Label) (data : List UInt8)
  /-- A line that stands as it is. -/
  | verbatim (text : String)
deriving DecidableEq, Repr

/-- A piece of a listing. -/
abbrev Code := List Line

/-- The text of a line, without the line break. -/
def Line.text : Line → String
  | instr i => i.text
  | label l => l.text ++ ":"
  | comment t => "    ; " ++ t
  | constant l n => l.text ++ " equ " ++ toString n
  | bytes l data =>
    l.text ++ ": db " ++ String.join (data.map fun b => toString b.toNat ++ ", ") ++ "0"
  | verbatim t => t

/-- The text of a piece of a listing: every line and a line break behind it. -/
def Code.text (code : Code) : String := String.join (code.map fun l => l.text ++ "\n")

namespace Asm

/-- Copy a value. -/
def mov (dst src : Operand) : Line := .instr (.mov dst src)

/-- Copy a byte and clear the rest of the register. -/
def movzx (dst : Reg) (src : Operand) : Line := .instr (.movzx dst src)

/-- Load a value from memory, clearing the rest of the register for a byte. -/
def load (dst : Reg) (src : Mem) : Line :=
  match src.width with
  | some .byte => movzx dst src
  | _ => mov dst src

/-- Store a register, or its low byte, to memory. -/
def store (dst : Mem) (src : Reg) : Line :=
  match dst.width with
  | some .byte => mov dst src.lowByte
  | _ => mov dst src

/-- Load the address of a memory operand. -/
def lea (dst : Reg) (src : Mem) : Line := .instr (.lea dst src.address)

/-- Push a value. -/
def push (src : Operand) : Line := .instr (.push src)

/-- Pop a value. -/
def pop (dst : Reg) : Line := .instr (.pop dst)

/-- Add. -/
def add (dst src : Operand) : Line := .instr (.arith .add dst src)

/-- Subtract. -/
def sub (dst src : Operand) : Line := .instr (.arith .sub dst src)

/-- Compare two values. -/
def cmp (a b : Operand) : Line := .instr (.arith .cmp a b)

/-- Compare the common bits of two values with zero. -/
def test (a b : Operand) : Line := .instr (.arith .test a b)

/-- Exclusive or. -/
def xor (dst src : Operand) : Line := .instr (.arith .xor dst src)

/-- Add one. -/
def inc (dst : Operand) : Line := .instr (.unary .inc dst)

/-- Jump. -/
def jmp (target : Label) : Line := .instr (.jmp target)

/-- Jump if a condition holds. -/
def jcc (c : Cond) (target : Label) : Line := .instr (.jcc c target)

/-- Set the low byte of a register to whether a condition holds. -/
def setcc (c : Cond) (dst : Reg) : Line := .instr (.setcc c dst)

/-- Call a function. -/
def call (target : Label) : Line := .instr (.call target)

/-- Call the operating system. -/
def kernel : Line := .instr .kernel

/-- An instruction without operands. -/
def bare (op : Bare) : Line := .instr (.bare op)

/-- A floating-point instruction on memory. -/
def floatMem (op : FloatMem) (m : Mem) : Line := .instr (.floatMem op m)

end Asm

end KuAsm

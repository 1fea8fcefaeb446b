import KuAsm.Machine.Label
import KuAsm.Source.ScalarType

/-!
# Registers and operands

The part of the 32-bit instruction set that the compiler uses: its registers, operand widths, memory
operands and condition codes, each with its text.
-/

namespace KuAsm

/-- A register.  The last four are the low bytes of the first four. -/
inductive Reg where
  | eax | ebx | ecx | edx | esi | edi | ebp | esp
  | al | bl | cl | dl
deriving DecidableEq, Repr, Inhabited

namespace Reg

/-- All registers. -/
def all : List Reg := [eax, ebx, ecx, edx, esi, edi, ebp, esp, al, bl, cl, dl]

/-- The name of a register. -/
def text : Reg → String
  | eax => "eax" | ebx => "ebx" | ecx => "ecx" | edx => "edx"
  | esi => "esi" | edi => "edi" | ebp => "ebp" | esp => "esp"
  | al => "al" | bl => "bl" | cl => "cl" | dl => "dl"

/-- The low byte of a register; a register without one stays as it is. -/
def lowByte : Reg → Reg
  | eax | al => al
  | ebx | bl => bl
  | ecx | cl => cl
  | edx | dl => dl
  | r => r

end Reg

/-- The width of a memory access. -/
inductive Width where
  | byte | dword
deriving DecidableEq, Repr, Inhabited

namespace Width

/-- The width of a value of a type. -/
def ofType (ty : ScalarType) : Width := if ty.size = 1 then byte else dword

/-- The width of a value of so many bytes, if there is one. -/
def ofSize? : Nat → Option Width
  | 1 => some byte
  | 4 => some dword
  | _ => none

/-- The keyword of a width. -/
def text : Width → String
  | byte => "byte"
  | dword => "dword"

end Width

/-- A memory operand: the address `base + index + disp`, and the width of the access unless only the
address is meant. -/
structure Mem where
  /-- The register the address starts from. -/
  base : Reg
  /-- A register added to it. -/
  index : Option Reg
  /-- A constant added to it. -/
  disp : Int
  /-- The width of the access. -/
  width : Option Width
deriving DecidableEq, Repr, Inhabited

namespace Mem

/-- A value of width `w` at `base + disp`. -/
def sized (base : Reg) (disp : Int) (w : Width) : Mem := ⟨base, none, disp, some w⟩

/-- Four bytes at `base + disp`. -/
def dword (base : Reg) (disp : Int) : Mem := .sized base disp .dword

/-- The byte at `base + index`. -/
def byteIndexed (base index : Reg) : Mem := ⟨base, some index, 0, some .byte⟩

/-- The same address without a width. -/
def address (m : Mem) : Mem := { m with width := none }

/-- The operand as it is written. -/
def text (m : Mem) : String :=
  (match m.width with
    | some w => w.text ++ " "
    | none => "")
  ++ "[" ++ m.base.text
  ++ (match m.index with
    | some r => "+" ++ r.text
    | none => "")
  ++ (if m.disp = 0 then "" else if 0 < m.disp then "+" ++ toString m.disp else toString m.disp)
  ++ "]"

end Mem

/-- A condition of a jump or of a byte set from flags. -/
inductive Cond where
  | e | ne | l | g | le | ge | a | b | ae | be | z | nz | p
deriving DecidableEq, Repr, Inhabited

namespace Cond

/-- All conditions. -/
def all : List Cond := [e, ne, l, g, le, ge, a, b, ae, be, z, nz, p]

/-- The end of the mnemonic. -/
def suffix : Cond → String
  | e => "e" | ne => "ne" | l => "l" | g => "g" | le => "le" | ge => "ge"
  | a => "a" | b => "b" | ae => "ae" | be => "be" | z => "z" | nz => "nz" | p => "p"

end Cond

/-- Eight hexadecimal digits of a 32-bit pattern, as the assembler reads them. -/
def hexText (bits : UInt32) : String :=
  let ds := Nat.toDigits 16 bits.toNat
  "0x" ++ String.ofList (List.replicate (8 - ds.length) '0' ++ ds)

/-- An operand of an instruction. -/
inductive Operand where
  | reg (r : Reg)
  /-- A number. -/
  | imm (n : Int)
  /-- A number written as a bit pattern. -/
  | bits (w : UInt32)
  | mem (m : Mem)
  /-- The address of a label. -/
  | label (l : Label)
  /-- The number of words in a frame, given the symbol of its size in bytes. -/
  | words (frameSize : Label)
deriving DecidableEq, Repr, Inhabited

namespace Operand

instance : Coe Reg Operand := ⟨reg⟩
instance : Coe Mem Operand := ⟨mem⟩
instance : Coe Label Operand := ⟨label⟩
instance (n : Nat) : OfNat Operand n := ⟨imm n⟩

/-- The operand as it is written. -/
def text : Operand → String
  | reg r => r.text
  | imm n => toString n
  | bits w => hexText w
  | mem m => m.text
  | label l => l.text
  | words l => l.text ++ " / 4"

end Operand

end KuAsm

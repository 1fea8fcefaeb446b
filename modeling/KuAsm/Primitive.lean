import KuAsm.Convention
import KuAsm.Listing
import KuAsm.Source.Node

/-!
# The library

Seven functions are there for every program.  A program calls them like its own functions, and they
are set up like its own functions; only their bodies are written as instructions.

A body finds its arguments in slots, leaves its result in `eax` and the size of a result on the heap
in `edx`, and uses the stack for anything else.  A string on the heap ends in a zero byte, which its
size includes.
-/

namespace KuAsm

open Asm Reg Convention

/-- A function of the library. -/
inductive Primitive where
  /-- The length of a string. -/
  | len
  /-- Two strings joined. -/
  | append
  /-- A part of a string. -/
  | slice
  /-- A call of the operating system. -/
  | syscall
  /-- A character from the standard input. -/
  | key
  /-- A string and a line break to the standard output. -/
  | out
  /-- A copy of a string. -/
  | dup
deriving DecidableEq, Repr, Inhabited

namespace Primitive

/-- All functions of the library, in the order in which they are set up. -/
def all : List Primitive := [len, append, slice, syscall, key, out, dup]

/-- The name of a function. -/
def name : Primitive → String
  | len => "len" | append => "append" | slice => "slice" | syscall => "syscall"
  | key => "key" | out => "out" | dup => "dup"

/-- The parameters of a function. -/
def params : Primitive → List Param
  | len | out | dup => [⟨"s", .string⟩]
  | append => [⟨"a", .string⟩, ⟨"b", .string⟩]
  | slice => [⟨"s", .string⟩, ⟨"from", .integer⟩, ⟨"to", .integer⟩]
  | syscall => [⟨"a", .integer⟩, ⟨"b", .integer⟩, ⟨"c", .integer⟩, ⟨"d", .integer⟩]
  | key => []

/-- The type of the result of a function. -/
def ret : Primitive → ScalarType
  | len | syscall | out => .integer
  | append | slice | dup => .string
  | key => .character

/-- The row of a function in a table of the library. -/
def describe (p : Primitive) : String :=
  "Builtin \x7b name: " ++ Text.quoted p.name ++ ", params: ["
    ++ ", ".intercalate (p.params.map fun q => "(" ++ Text.quoted q.name ++ ", " ++ q.ty.title ++
    ")") ++ "], ret: " ++ p.ret.title ++ " \x7d"

/-- What a body may change: labels come from the session, literals go to the listing. -/
abbrev Body := StateT (Session × Listing) (Except Fault)

/-- The operand of an argument. -/
def argument (args : List Mem) (index : Nat) : Body Mem :=
  match args[index]? with
  | some m => pure m
  | none => throw (.outOfBounds args.length index)

/-- A new label. -/
def label (hint : String) : Body Label :=
  modifyGet fun (s, l) => let (label, s) := s.mintLabel hint; (label, s, l)

/-- The label of a literal. -/
def literal (text : String) : Body Label :=
  modifyGet fun (s, l) => let (label, l, s) := l.place s text; (label, s, l)

/-- Count the bytes of a string in `eax`. -/
def measure (src : Mem) : Body Code := do
  let top ← label "strlen"
  let done ← label "strlen_done"
  return [mov edi src, xor eax eax, .label top, cmp (Mem.byteIndexed edi eax) 0, jcc .e done,
    inc eax, jmp top, .label done]

/-- Ask for `ecx` bytes of memory; their address comes in `eax`. -/
def map : Code :=
  [push ebp, mov eax (.imm sysMap), xor ebx ebx, mov edx (.imm protReadWrite),
    mov esi (.imm mapPrivateAnonymous), mov edi (.imm (-1)), xor ebp ebp, kernel, pop ebp]

/-- Copy `ecx` bytes from `esi` to `edi`. -/
def copy : Code := [bare .cld, bare .copyBytes]

/-- Write the zero byte that ends a string. -/
def terminate : Code := [mov (Mem.sized edi 0 .byte) 0]

/-- The body of a function, given the operands of its arguments. -/
def body (p : Primitive) (args : List Mem) : Body Code :=
  match p with
  | len => do
    let s ← argument args 0
    measure s
  | append => do
    let a ← argument args 0
    let b ← argument args 1
    let first ← measure a
    let second ← measure b
    -- from the top of the stack: the size, the length of `b`, the length of `a`
    return first ++ [push eax] ++ second
      ++ [push eax, mov ecx (Mem.dword esp 0), add ecx (Mem.dword esp 4), inc ecx, push ecx] ++ map
      ++ [mov edi eax, mov esi a, mov ecx (Mem.dword esp 8)] ++ copy
      ++ [mov esi b, mov ecx (Mem.dword esp 4)] ++ copy ++ terminate
      ++ [pop edx, add esp 8]
  | slice => do
    let s ← argument args 0
    let start ← argument args 1
    let stop ← argument args 2
    let counted ← label "slice_counted"
    -- from the top of the stack: the size, the length
    return [mov ecx stop, sub ecx start, test ecx ecx, jcc .ge counted, xor ecx ecx, .label counted,
        push ecx, inc ecx, push ecx] ++ map
      ++ [mov edi eax, mov esi s, add esi start, mov ecx (Mem.dword esp 4)] ++ copy ++ terminate
      ++ [pop edx, add esp 4]
  | syscall => do
    let a ← argument args 0
    let b ← argument args 1
    let c ← argument args 2
    let d ← argument args 3
    return [mov eax a, mov ebx b, mov ecx c, mov edx d, kernel]
  | key =>
    return [push 0, mov eax (.imm sysRead), xor ebx ebx, mov ecx esp, mov edx 1, kernel, pop eax]
  | out => do
    let s ← argument args 0
    let newline ← literal "\n"
    let length ← measure s
    return length ++ [push eax, mov edx eax, mov ecx s, mov ebx 1, mov eax (.imm sysWrite), kernel,
      mov edx 1, mov ecx newline, mov ebx 1, mov eax (.imm sysWrite), kernel, pop eax, inc eax]
  | dup => do
    let s ← argument args 0
    let length ← measure s
    return length ++ [mov ecx eax, inc ecx, push ecx] ++ map
      ++ [mov edi eax, mov esi s, mov ecx (Mem.dword esp 0)] ++ copy ++ [pop edx]

end Primitive

end KuAsm

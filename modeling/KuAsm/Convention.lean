import KuAsm.Frame.Slot
import KuAsm.Machine.Instr

/-!
# Frames and calls

Every scope runs in a frame of its own.  The word at the frame pointer holds the frame pointer of
the scope around it, so following these words leads outwards through the program text, whoever
called whom.

A block stores the frame pointer it finds.  A function is given the frame of the scope that declares
it, its *static link*, by the caller, and keeps the caller's frame pointer one word above.  Behind
the prologue of a function its frame looks like this.

```text
ebp + 16 + 4 * i   argument i
ebp + 12           static link, as the caller pushed it
ebp + 8            return address
ebp + 4            frame pointer of the caller
ebp                static link again; the slots lie below
```

Arguments are pushed last to first, then the static link; the caller takes them off again.  A result
comes back in `eax`, the size of a result on the heap in `edx`.  Every prologue clears its frame, so
a size that was never written reads as zero.
-/

namespace KuAsm.Convention

open Asm Reg

/-- Bytes of an argument. -/
def argBytes : Nat := 4

/-- The displacement of the first argument from the frame pointer of the function. -/
def paramBase : Int := 16

/-- The number of the system call that ends the process. -/
def sysExit : Nat := 1

/-- The number of the system call that reads. -/
def sysRead : Nat := 3

/-- The number of the system call that writes. -/
def sysWrite : Nat := 4

/-- The number of the system call that gives memory back. -/
def sysUnmap : Nat := 91

/-- The number of the system call that asks for memory. -/
def sysMap : Nat := 192

/-- Memory to read and to write. -/
def protReadWrite : Nat := 0x3

/-- Memory of this process alone, with no file behind it. -/
def mapPrivateAnonymous : Nat := 0x22

/-- The displacement of an argument from the frame pointer of the function, in signed arithmetic of
32 bits. -/
def paramDisp (index : Nat) : Except Fault Int :=
  let scaled := signedWord index * argBytes
  if scaled < -halfCount ∨ halfCount ≤ scaled then .error .multiplyOverflow
  else if halfCount ≤ scaled + paramBase then .error .addOverflow
  else .ok (scaled + paramBase)

/-- Bytes that a caller takes off the stack after a call, in arithmetic of 32 bits. -/
def cleanupBytes (args : Nat) : Except Fault Nat :=
  let pushed := args % wordCount + 1
  if wordCount ≤ pushed then .error .addOverflow
  else if wordCount ≤ pushed * argBytes then .error .multiplyOverflow
  else .ok (pushed * argBytes)

/-- Clear the slots of a new frame. -/
def clearFrame (frameSize : Label) : Code :=
  [mov edi esp, mov ecx (.words frameSize), xor eax eax, bare .fillWords]

/-- Open the frame of a block. -/
def blockPrologue (frameSize : Label) : Code :=
  [push ebp, mov ebp esp, sub esp frameSize] ++ clearFrame frameSize

/-- Close the innermost frame of a block. -/
def blockEpilogue : Code := [bare .leave]

/-- Open the frame of a function, with the static link as its outer frame. -/
def functionPrologue (frameSize : Label) : Code :=
  [push ebp, push (Mem.dword esp 8), mov ebp esp, sub esp frameSize] ++ clearFrame frameSize

/-- Close the frame of a function and return. -/
def functionEpilogue : Code := [lea esp (Mem.dword ebp 4), pop ebp, bare .ret]

/-- Go to the frame `depth` steps outwards: the code, and the register that then points there.  The
innermost frame needs no code. -/
def chase (depth : Nat) : Code × Reg :=
  if depth = 0 then ([], ebp)
  else (mov esi ebp :: List.replicate depth (mov esi (Mem.dword esi 0)), esi)

/-- Push the arguments that stand in slots of the current frame, the last one first. -/
def pushArguments (slots : List Slot) : Except Fault Code :=
  slots.reverse.mapM fun s => (Mem.slot ebp ⟨s.offset, argBytes⟩).map fun m => push m

/-- Call the function at `entry`, which is declared `depth` frames outwards, with arguments that
stand in slots of the current frame. -/
def call (slots : List Slot) (depth : Nat) (entry : Label) : Except Fault Code := do
  let pushes ← pushArguments slots
  let (link, base) := chase depth
  let bytes ← cleanupBytes slots.length
  return pushes ++ link ++ [push base, Asm.call entry, add esp (.imm bytes)]

end KuAsm.Convention

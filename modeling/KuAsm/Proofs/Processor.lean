import KuAsm.Machine.Instr
import Mathlib.Algebra.Ring.Int.Defs
import Mathlib.Algebra.Ring.Nat

/-!
# The processor

What instructions do, but for jumps, calls and floating-point numbers.  A machine is the registers,
the flags and a memory of bytes with addresses of 32 bits.  An instruction that the processor
refuses has no machine behind it: a division whose quotient does not fit, or operands of different
widths.  The same holds of an instruction that depends on flags which the one before leaves
undefined.

Symbols are numbers that the assembler has settled; `symbol` gives them.

## Main definitions

* `Machine.load`, `Machine.store`: memory, a byte or four bytes at a time, the low byte first.
* `Machine.exec`: the machine behind an instruction.
* `Code.run`: the machine behind a piece of code that is gone through from its start to its end.

## Main statements

* `Machine.load_store`: what was stored is loaded again, and `Machine.load_congr`: a load looks at
  its bytes alone.
* `Flags.of_compare`: what two numbers are to each other, by the flags behind their comparison.
* `Machine.divide_cdq`: a number divided by another, rounding towards zero.
-/

namespace KuAsm

open Reg

variable {m : Machine}

/-- Bits of an access. -/
abbrev Width.bits : Width → Nat
  | byte => 8
  | dword => 32

/-- Bytes of an access. -/
def Width.bytes : Width → Nat
  | byte => 1
  | dword => 4

/-- The register of 32 bits that a register is, or is the low byte of. -/
def Reg.whole : Reg → Reg
  | al => eax
  | bl => ebx
  | cl => ecx
  | dl => edx
  | r => r

/-- The width of a register. -/
def Reg.width : Reg → Width
  | al | bl | cl | dl => .byte
  | _ => .dword

/-- The width of an operand, if it has one of its own. -/
def Operand.width? : Operand → Option Width
  | reg r => some r.width
  | mem a => a.width
  | _ => none

/-! ### Flags -/

/-- What is known of the last result. -/
structure Flags where
  /-- Whether it left the range of unsigned numbers. -/
  carry : Bool
  /-- Whether it is zero. -/
  zero : Bool
  /-- Whether it is negative. -/
  sign : Bool
  /-- Whether it left the range of signed numbers. -/
  overflow : Bool
deriving DecidableEq, Repr

/-- The flags of a result. -/
def Flags.of {n : Nat} (z : BitVec n) (carry overflow : Bool) : Flags :=
  ⟨carry, z == 0, z.msb, overflow⟩

/-- Whether a condition holds.  The parity of a result is not kept. -/
def Cond.holds (f : Flags) : Cond → Option Bool
  | e | z => some f.zero
  | ne | nz => some !f.zero
  | l => some (f.sign != f.overflow)
  | ge => some (f.sign == f.overflow)
  | le => some (f.zero || f.sign != f.overflow)
  | g => some (!f.zero && f.sign == f.overflow)
  | b => some f.carry
  | ae => some !f.carry
  | be => some (f.carry || f.zero)
  | a => some (!f.carry && !f.zero)
  | p => none

namespace Arith

variable {n : Nat}

/-- The result of an instruction. -/
def result (x y : BitVec n) : Arith → BitVec n
  | add => x + y
  | sub | cmp => x - y
  | and | test => x &&& y
  | or => x ||| y
  | xor => x ^^^ y
  | imul => x * y

/-- The flags behind an instruction; not all of them are defined after a multiplication. -/
def flags (x y : BitVec n) : Arith → Option Flags
  | add => some (.of (x + y) (x.uaddOverflow y) (x.saddOverflow y))
  | sub | cmp => some (.of (x - y) (x.usubOverflow y) (x.ssubOverflow y))
  | and | test => some (.of (x &&& y) false false)
  | or => some (.of (x ||| y) false false)
  | xor => some (.of (x ^^^ y) false false)
  | imul => none

/-- Whether the result is kept. -/
def keeps : Arith → Bool
  | cmp | test => false
  | _ => true

end Arith

/-! ### Machines -/

/-- The state of the processor and the memory. -/
structure Machine where
  /-- The registers of 32 bits.  Those of one byte are part of them. -/
  regs : Reg → BitVec 32
  /-- The flags, if they are defined. -/
  flags : Option Flags
  /-- Whether string instructions count downwards. -/
  down : Bool
  /-- The memory. -/
  mem : BitVec 32 → BitVec 8

namespace Machine

variable (m : Machine)

/-- A value in memory. -/
def load (a : BitVec 32) : (w : Width) → BitVec w.bits
  | .byte => m.mem a
  | .dword => m.mem (a + 3) ++ m.mem (a + 2) ++ m.mem (a + 1) ++ m.mem a

/-- Put a value into memory. -/
def store (a : BitVec 32) (w : Width) (x : BitVec w.bits) : Machine :=
  { m with
    mem := fun b =>
      if (b - a).toNat < w.bytes then x.extractLsb' (8 * (b - a).toNat) 8 else m.mem b }

/-- The value of a register, or of its low byte. -/
def get (r : Reg) : (w : Width) → BitVec w.bits
  | .byte => (m.regs r.whole).setWidth 8
  | .dword => m.regs r

/-- Put a value into a register of 32 bits. -/
def setReg (r : Reg) (x : BitVec 32) : Machine :=
  { m with regs := fun s => if s = r then x else m.regs s }

/-- Put a value into a register, or into its low byte. -/
def put (r : Reg) : (w : Width) → BitVec w.bits → Machine
  | .byte, x => m.setReg r.whole ((m.regs r.whole).extractLsb' 8 24 ++ x)
  | .dword, x => m.setReg r x

/-- The address of an operand. -/
def address (a : Mem) : BitVec 32 :=
  m.regs a.base + (a.index.map m.regs).getD 0 + .ofInt 32 a.disp

/-- Push a value. -/
def push (x : BitVec 32) : Machine :=
  (m.setReg esp (m.regs esp - 4)).store (m.regs esp - 4) .dword x

/-- Pop a value into a register. -/
def pop (r : Reg) : Machine :=
  (m.setReg esp (m.regs esp + 4)).setReg r (m.load (m.regs esp) .dword)

/-- Divide the number in `edx` and `eax`.  The quotient is rounded towards zero and has to fit. -/
def divide (y : BitVec 32) : Option Machine :=
  let x := (m.regs edx ++ m.regs eax).toInt
  let q := x.tdiv y.toInt
  if y = 0 ∨ q < -2 ^ 31 ∨ 2 ^ 31 ≤ q then none
  else
    some { (m.setReg eax (.ofInt 32 q)).setReg edx (.ofInt 32 (x.tmod y.toInt)) with flags := none }

/-- The way from one item of a string instruction to the next. -/
def stride (w : Width) : BitVec 32 := if m.down then -.ofNat 32 w.bytes else .ofNat 32 w.bytes

/-- One round of copying bytes. -/
def copyByte : Machine :=
  (((m.store (m.regs edi) .byte (m.mem (m.regs esi))).setReg esi
    (m.regs esi + m.stride .byte)).setReg edi (m.regs edi + m.stride .byte)).setReg ecx
    (m.regs ecx - 1)

/-- One round of filling words. -/
def fillWord : Machine :=
  ((m.store (m.regs edi) .dword (m.regs eax)).setReg edi (m.regs edi + m.stride .dword)).setReg ecx
    (m.regs ecx - 1)

/-! ### Instructions -/

variable (symbol : Label → BitVec 32)

/-- The value of an operand that is read with a width. -/
def read (w : Width) : Operand → Option (BitVec w.bits)
  | .reg r => if r.width = w then some (m.get r w) else none
  | .imm n => some (.ofInt w.bits n)
  | .bits x => some (x.toBitVec.setWidth w.bits)
  | .mem a => if a.width = some w then some (m.load (m.address a) w) else none
  | .label l => some ((symbol l).setWidth w.bits)
  | .words l => some ((symbol l / 4).setWidth w.bits)

/-- The machine behind writing to an operand. -/
def write (w : Width) (x : BitVec w.bits) : Operand → Option Machine
  | .reg r => if r.width = w then some (m.put r w x) else none
  | .mem a => if a.width = some w then some (m.store (m.address a) w x) else none
  | _ => none

/-- The machine behind a change of an operand. -/
def alter (d : Operand) (f : ∀ w : Width, BitVec w.bits → BitVec w.bits × Option Flags) :
    Option Machine := do
  let w ← d.width?
  let x ← m.read symbol w d
  Machine.write { m with flags := (f w x).2 } w (f w x).1 d

/-- The machine behind an instruction that goes on with the next one. -/
def exec : Instr → Option Machine
  | .mov d s => do
    let w ← d.width?
    m.write w (← m.read symbol w s) d
  | .movzx r s => do m.write .dword ((← m.read symbol .byte s).setWidth 32) r
  | .lea r a => m.write .dword (m.address a) r
  | .push s => do return m.push (← m.read symbol .dword s)
  | .pop r => some (m.pop r)
  | .arith op d s => do
    let w ← d.width?
    let x ← m.read symbol w d
    let y ← m.read symbol w s
    let m := { m with flags := op.flags x y }
    if op.keeps then m.write w (op.result x y) d else return m
  | .unary .idiv s => do m.divide (← m.read symbol .dword s)
  -- the carry stays as it is
  | .unary .inc d =>
    m.alter symbol d fun _ x => (x + 1, m.flags.map fun f => .of (x + 1) f.carry (x.saddOverflow 1))
  | .unary .dec d =>
    m.alter symbol d fun _ x => (x - 1, m.flags.map fun f => .of (x - 1) f.carry (x.ssubOverflow 1))
  | .unary .neg d => m.alter symbol d fun _ x => (-x, some (.of (-x) (x != 0) x.negOverflow))
  | .setcc c r => do
    let holds ← c.holds (← m.flags)
    m.write .byte (if holds then 1 else 0) r.lowByte
  | .bare .cdq => some (m.setReg edx (if (m.regs eax).msb then -1 else 0))
  | .bare .leave => some ((m.setReg esp (m.regs ebp)).pop ebp)
  | .bare .cld => some { m with down := false }
  | .bare .copyBytes => some (Nat.repeat copyByte (m.regs ecx).toNat m)
  | .bare .fillWords => some (Nat.repeat fillWord (m.regs ecx).toNat m)
  | _ => none

end Machine

/-- The machine behind a line.  Only instructions and comments are gone through. -/
def Line.exec (symbol : Label → BitVec 32) (m : Machine) : Line → Option Machine
  | instr i => m.exec symbol i
  | comment _ => some m
  | _ => none

/-- The machine behind a piece of code. -/
def Code.run (symbol : Label → BitVec 32) (code : Code) (m : Machine) : Option Machine :=
  code.foldlM (Line.exec symbol) m

namespace Code

variable {symbol : Label → BitVec 32}

@[simp] theorem run_nil (m : Machine) : Code.run symbol [] m = some m := rfl

@[simp] theorem run_cons (x : Line) (code : Code) (m : Machine) :
    Code.run symbol (x :: code) m = (x.exec symbol m).bind (Code.run symbol code) := rfl

theorem run_append (a b : Code) (m : Machine) :
    Code.run symbol (a ++ b) m = (Code.run symbol a m).bind (Code.run symbol b) := by
  unfold Code.run
  rw [List.foldlM_append]
  rfl

/-- Running on from where a first piece ends. -/
theorem run_append_of_run {a b : Code} {m' : Machine} (h : Code.run symbol a m = some m') :
    Code.run symbol (a ++ b) m = Code.run symbol b m' := by
  rw [run_append, h, Option.bind_some]

end Code

/-! ### Memory -/

namespace Machine

variable (m : Machine) (a : BitVec 32) (w : Width) (x : BitVec w.bits)

@[simp] theorem regs_store : (m.store a w x).regs = m.regs := rfl

@[simp] theorem regs_setReg (r s : Reg) (x : BitVec 32) :
    (m.setReg r x).regs s = if s = r then x else m.regs s := rfl

@[simp] theorem mem_setReg (r : Reg) (x : BitVec 32) : (m.setReg r x).mem = m.mem := rfl

@[simp] theorem load_setReg (r : Reg) (x : BitVec 32) : (m.setReg r x).load a w = m.load a w := by
  cases w <;> rfl

@[simp] theorem load_flags (f : Option Flags) : { m with flags := f }.load a w = m.load a w := by
  cases w <;> rfl

/-- A byte that is not part of what is stored. -/
theorem mem_store_of_le {b : BitVec 32} (h : w.bytes ≤ (b - a).toNat) :
    (m.store a w x).mem b = m.mem b :=
  if_neg (Nat.not_lt_of_le h)

/-- A word is its four bytes. -/
theorem append_bytes (x : BitVec 32) :
    x.extractLsb' 24 8 ++ x.extractLsb' 16 8 ++ x.extractLsb' 8 8 ++ x.extractLsb' 0 8 = x := by
  apply BitVec.eq_of_getLsbD_eq
  intro i hi
  simp only [BitVec.getLsbD_append, BitVec.getLsbD_extractLsb']
  grind

/-- What was stored is loaded again. -/
theorem load_store : (m.store a w x).load a w = x := by
  have hbyte : ∀ k : BitVec 32, k.toNat < w.bytes →
      (m.store a w x).mem (a + k) = x.extractLsb' (8 * k.toNat) 8 := by
    intro k hk
    have hsub : a + k - a = k := by rw [BitVec.add_comm, BitVec.add_sub_cancel]
    show (if (a + k - a).toNat < w.bytes then x.extractLsb' (8 * (a + k - a).toNat) 8 else
      m.mem (a + k)) = _
    rw [hsub, if_pos hk]
  cases w with
  | byte =>
    have h₀ := hbyte 0#32 (by decide)
    rw [BitVec.add_zero] at h₀
    exact h₀.trans BitVec.extractLsb'_eq_self
  | dword =>
    have h₀ := hbyte 0#32 (by decide)
    rw [BitVec.add_zero] at h₀
    show (m.store a .dword x).mem (a + 3) ++ (m.store a .dword x).mem (a + 2) ++
      (m.store a .dword x).mem (a + 1) ++ (m.store a .dword x).mem a = x
    rw [h₀, hbyte 1 (by decide), hbyte 2 (by decide), hbyte 3 (by decide)]
    exact append_bytes x

/-- A load looks at its bytes alone. -/
theorem load_congr {m m' : Machine} {a : BitVec 32} {w : Width}
    (h : ∀ b : BitVec 32, (b - a).toNat < w.bytes → m'.mem b = m.mem b) :
    m'.load a w = m.load a w := by
  have hbyte : ∀ k : BitVec 32, k.toNat < w.bytes → m'.mem (a + k) = m.mem (a + k) := by
    intro k hk
    apply h
    rwa [BitVec.add_comm, BitVec.add_sub_cancel]
  cases w with
  | byte =>
    have h₀ := hbyte 0#32 (by decide)
    rwa [BitVec.add_zero] at h₀
  | dword =>
    have h₀ := hbyte 0#32 (by decide)
    rw [BitVec.add_zero] at h₀
    show m'.mem (a + 3) ++ m'.mem (a + 2) ++ m'.mem (a + 1) ++ m'.mem a =
      m.mem (a + 3) ++ m.mem (a + 2) ++ m.mem (a + 1) ++ m.mem a
    rw [h₀, hbyte 1 (by decide), hbyte 2 (by decide), hbyte 3 (by decide)]

end Machine

/-! ### Comparisons -/

/-- The sign of a difference is right unless the difference leaves the range. -/
theorem msb_sub_bne_ssubOverflow (x y : BitVec 32) :
    ((x - y).msb != x.ssubOverflow y) = decide (x.toInt < y.toInt) := by
  have hx := x.toInt_lt
  have hx' := x.le_toInt
  have hy := y.toInt_lt
  have hy' := y.le_toInt
  rw [BitVec.msb_eq_toInt, BitVec.toInt_sub]
  unfold BitVec.ssubOverflow Int.bmod
  grind

/-- What two numbers are to each other, by the flags behind their comparison. -/
theorem Flags.of_compare (x y : BitVec 32) (carry : Bool) :
    (Flags.of (x - y) carry (x.ssubOverflow y)).zero = decide (x.toInt = y.toInt) ∧
      ((Flags.of (x - y) carry (x.ssubOverflow y)).sign !=
        (Flags.of (x - y) carry (x.ssubOverflow y)).overflow) = decide (x.toInt < y.toInt) := by
  refine ⟨?_, msb_sub_bne_ssubOverflow x y⟩
  show (x - y == 0) = decide (x.toInt = y.toInt)
  rw [Bool.eq_iff_iff, beq_iff_eq, decide_eq_true_iff, BitVec.toInt_inj]
  bv_omega

/-! ### Division -/

/-- Extending a number by its sign keeps it. -/
theorem toInt_append_sign (x : BitVec 32) :
    ((if x.msb then -1 else 0 : BitVec 32) ++ x).toInt = x.toInt := by
  rw [BitVec.toInt_append, BitVec.toInt_eq_msb_cond]
  cases x.msb
  · simp
  · simp
    omega

/-- The only quotient that does not fit. -/
theorem tdiv_fits {a b : Int} (ha : -2 ^ 31 ≤ a) (ha' : a < 2 ^ 31) (hb : b ≠ 0)
    (h : ¬ (a = -2 ^ 31 ∧ b = -1)) : -2 ^ 31 ≤ a.tdiv b ∧ a.tdiv b < 2 ^ 31 := by
  have hle := Int.natAbs_tdiv_le_natAbs a b
  refine ⟨by omega, Int.lt_of_not_ge fun hge => ?_⟩
  have hmin : a = -2 ^ 31 := by omega
  have habs : (a.tdiv b).natAbs = a.natAbs / b.natAbs := Int.natAbs_tdiv a b
  have hone : ¬ 1 < b.natAbs := by
    intro hlt
    have hless := Nat.div_lt_self (n := a.natAbs) (by omega) hlt
    omega
  obtain rfl | rfl : b = 1 ∨ b = -1 := by omega
  · rw [Int.tdiv_one] at hge
    omega
  · exact h ⟨hmin, rfl⟩

namespace Machine

/-- A number divided by another, which rounds towards zero. -/
theorem divide_cdq {y : BitVec 32} (hedx : m.regs edx = if (m.regs eax).msb then -1 else 0)
    (hy : y ≠ 0) (h : ¬ (m.regs eax = BitVec.intMin 32 ∧ y = -1)) :
    m.divide y = some { (m.setReg eax ((m.regs eax).sdiv y)).setReg edx ((m.regs eax).srem y) with
      flags := none } := by
  have hx : (m.regs edx ++ m.regs eax).toInt = (m.regs eax).toInt := by
    rw [hedx]
    exact toInt_append_sign _
  have hne : y.toInt ≠ 0 := fun hzero => hy (BitVec.toInt_inj.1 hzero)
  have hfits := tdiv_fits (m.regs eax).le_toInt (m.regs eax).toInt_lt hne fun ⟨hmin, hone⟩ =>
    h ⟨BitVec.toInt_inj.1 hmin, BitVec.toInt_inj.1 hone⟩
  have hok : ¬ (y = 0 ∨ (m.regs eax).toInt.tdiv y.toInt < -2 ^ 31 ∨
      2 ^ 31 ≤ (m.regs eax).toInt.tdiv y.toInt) := by
    rintro (hzero | hlow | hhigh)
    · exact hy hzero
    · omega
    · omega
  unfold Machine.divide
  dsimp only
  rw [hx, if_neg hok, ← BitVec.toInt_srem, BitVec.ofInt_toInt]
  have hquot : BitVec.ofInt 32 ((m.regs eax).toInt.tdiv y.toInt) = (m.regs eax).sdiv y := by
    rw [← BitVec.toInt_inj, BitVec.toInt_ofInt, BitVec.toInt_sdiv]
  rw [hquot]

end Machine

end KuAsm

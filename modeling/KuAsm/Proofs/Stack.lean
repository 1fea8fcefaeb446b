import KuAsm.Proofs.Control

/-!
# Words on the stack

Code that keeps values on the stack for a while writes below the stack pointer it started with, and
finds the values again by their distance from the stack pointer.  This module keeps track of such
words, and of what else in memory may have changed since.

## Main definitions

* `Span`: so many bytes from an address on.
* `Machine.Stands`: the machine has put so many words on the stack, and changed nothing else but
  some bytes.

## Main statements

* `Machine.Stands.push`, `Machine.Stands.pop`, `Machine.Stands.drop`: words are put on the stack and
  taken off again.
* `Machine.Stands.store`: other bytes are written.
-/

namespace KuAsm

open Reg

/-- The byte at `x` is one of the `n` bytes from `a` on. -/
def Span (a : BitVec 32) (n : Nat) (x : BitVec 32) : Prop := (x - a).toNat < n

instance (a : BitVec 32) (n : Nat) (x : BitVec 32) : Decidable (Span a n x) :=
  inferInstanceAs (Decidable (_ < _))

namespace Machine

/-- Bytes that are not written are as before. -/
theorem mem_store_of_not_span (m : Machine) {a x : BitVec 32} {w : Width} (v : BitVec w.bits)
    (h : ¬ Span a w.bytes x) : (m.store a w v).mem x = m.mem x :=
  m.mem_store_of_le a w v (Nat.le_of_not_lt h)

/-- A value is as before if none of its bytes is written. -/
theorem load_store_of_apart (m : Machine) {a b : BitVec 32} {w w' : Width} (v : BitVec w.bits)
    (h : ∀ x, Span b w'.bytes x → ¬ Span a w.bytes x) : (m.store a w v).load b w' = m.load b w' :=
  load_congr fun x hx => m.mem_store_of_not_span v (h x hx)

theorem mem_store_byte (m : Machine) (a x : BitVec 32) (v : BitVec 8) :
    (m.store a .byte v).mem x = if x = a then v else m.mem x := by
  by_cases hx : x = a
  · subst hx
    rw [if_pos rfl]
    exact m.load_store x .byte v
  · rw [if_neg hx]
    refine mem_store_of_not_span (w := .byte) m v fun hspan => hx ?_
    have hlt : (x - a).toNat < 1 := hspan
    bv_omega

@[simp] theorem regs_push_esp (m : Machine) (v : BitVec 32) :
    (m.push v).regs esp = m.regs esp - 4 := rfl

theorem regs_push (m : Machine) (v : BitVec 32) {r : Reg} (h : r ≠ esp) :
    (m.push v).regs r = m.regs r := if_neg h

/-- Taking bytes off the stack. -/
theorem exec_add_esp (symbol : Label → BitVec 32) (m : Machine) (n : Nat) :
    ∃ m', (Asm.add esp (.imm n)).exec symbol m = some m' ∧ m'.regs esp = m.regs esp + .ofNat 32 n ∧
      (∀ r, r ≠ esp → m'.regs r = m.regs r) ∧ m'.mem = m.mem := by
  refine ⟨Machine.setReg { m with flags := Arith.add.flags (m.regs esp) (.ofInt 32 n) } esp
    (m.regs esp + .ofInt 32 n), rfl, ?_, fun r hr => if_neg hr, rfl⟩
  rw [← BitVec.ofInt_natCast]
  rfl

/-- Counting up. -/
theorem exec_inc_ecx (symbol : Label → BitVec 32) (m : Machine) :
    ∃ m', (Asm.inc ecx).exec symbol m = some m' ∧ m'.regs ecx = m.regs ecx + 1 ∧
      (∀ r, r ≠ ecx → m'.regs r = m.regs r) ∧ m'.mem = m.mem :=
  ⟨_, rfl, rfl, fun _ hr => if_neg hr, rfl⟩

/-- The machine `m` has put the words `ws` on the stack of `m₀`, where there is room for `n` of
them.  Otherwise only bytes of `B` may have changed in memory. -/
structure Stands (m₀ : Machine) (n : Nat) (B : BitVec 32 → Prop) (ws : List (BitVec 32))
    (m : Machine) : Prop where
  esp : m.regs esp = m₀.regs esp - .ofNat 32 (4 * ws.length)
  words : ∀ k w, ws[k]? = some w → m.load (m.regs Reg.esp + .ofNat 32 (4 * k)) .dword = w
  mem : ∀ x, ¬ Span (m₀.regs Reg.esp - .ofNat 32 (4 * n)) (4 * n) x → ¬ B x → m.mem x = m₀.mem x

namespace Stands

variable {m₀ m m' : Machine} {n : Nat} {B : BitVec 32 → Prop} {ws : List (BitVec 32)}
  {w : BitVec 32}

theorem nil (m : Machine) (n : Nat) (B : BitVec 32 → Prop) : m.Stands n B [] m := by
  refine ⟨?_, nofun, fun _ _ _ => rfl⟩
  show _ = _ - 0#32
  rw [BitVec.sub_zero]

/-- Registers other than the stack pointer do not matter. -/
theorem congr (h : m₀.Stands n B ws m) (hesp : m'.regs Reg.esp = m.regs Reg.esp)
    (hmem : m'.mem = m.mem) : m₀.Stands n B ws m' := by
  refine ⟨hesp.trans h.esp, fun k w hw => ?_, fun x hx hB =>
    (congrFun hmem x).trans (h.mem x hx hB)⟩
  rw [hesp, ← h.words k w hw]
  exact load_congr fun x _ => congrFun hmem x

theorem mono {C : BitVec 32 → Prop} (h : m₀.Stands n B ws m) (hBC : ∀ x, B x → C x) :
    m₀.Stands n C ws m :=
  ⟨h.esp, h.words, fun x hx hC => h.mem x hx fun hB => hC (hBC x hB)⟩

theorem push (h : m₀.Stands n B ws m) (hroom : ws.length < n) (hn : 4 * n ≤ 2 ^ 32)
    (v : BitVec 32) : m₀.Stands n B (v :: ws) (m.push v) := by
  have hesp := h.esp
  refine ⟨?_, fun k w hw => ?_, fun x hx hB => ?_⟩
  · rw [regs_push_esp, h.esp, List.length_cons]
    bv_omega
  · cases k with
    | zero =>
      cases hw
      rw [regs_push_esp, Nat.mul_zero, BitVec.add_zero]
      exact load_store _ _ _ _
    | succ k =>
      have hk : k < ws.length := Nat.lt_of_succ_lt_succ (List.getElem?_eq_some_iff.1 hw).1
      have haddress :
          m.regs Reg.esp - 4 + .ofNat 32 (4 * (k + 1)) = m.regs Reg.esp + .ofNat 32 (4 * k) := by
        bv_omega
      rw [regs_push_esp, haddress, ← h.words k w hw]
      refine (load_store_of_apart _ _ fun x hx hx' => ?_).trans (load_setReg _ _ _ _ _)
      unfold Span Width.bytes at hx hx'
      bv_omega
  · refine (mem_store_of_not_span _ _ fun hspan => hx ?_).trans (h.mem x hx hB)
    unfold Span Width.bytes at *
    bv_omega

/-- The word on top is taken off the stack. -/
theorem pop (h : m₀.Stands n B (w :: ws) m) {r : Reg} (hr : r ≠ Reg.esp) :
    (m.pop r).regs r = w ∧ m₀.Stands n B ws (m.pop r) := by
  have htop : m.load (m.regs Reg.esp) .dword = w := by
    rw [← h.words 0 w rfl, Nat.mul_zero, BitVec.add_zero]
  have hesp : (m.pop r).regs Reg.esp = m.regs Reg.esp + 4 := by
    unfold Machine.pop
    rw [regs_setReg, if_neg (Ne.symm hr), regs_setReg, if_pos rfl]
  refine ⟨(if_pos rfl).trans htop, ?_, fun k v hv => ?_, h.mem⟩
  · rw [hesp, h.esp, List.length_cons]
    bv_omega
  · have haddress :
        m.regs Reg.esp + 4 + .ofNat 32 (4 * k) = m.regs Reg.esp + .ofNat 32 (4 * (k + 1)) := by
      bv_omega
    rw [hesp, haddress, ← h.words (k + 1) v hv]
    exact load_congr fun _ _ => rfl

/-- Words are taken off the stack together. -/
theorem drop (h : m₀.Stands n B ws m) {k : Nat} (hk : k ≤ ws.length)
    (hesp : m'.regs Reg.esp = m.regs Reg.esp + .ofNat 32 (4 * k)) (hmem : m'.mem = m.mem) :
    m₀.Stands n B (ws.drop k) m' := by
  refine ⟨?_, fun j v hv => ?_, fun x hx hB => (congrFun hmem x).trans (h.mem x hx hB)⟩
  · rw [hesp, h.esp, List.length_drop]
    bv_omega
  · rw [List.getElem?_drop] at hv
    have haddress :
        m'.regs Reg.esp + .ofNat 32 (4 * j) = m.regs Reg.esp + .ofNat 32 (4 * (k + j)) := by
      rw [hesp]
      bv_omega
    rw [haddress, ← h.words _ v hv]
    exact load_congr fun x _ => congrFun hmem x

/-- The words on the stack are not touched by changes elsewhere. -/
theorem write (h : m₀.Stands n B ws m) (hroom : ws.length ≤ n)
    (hB : ∀ x, B x → ¬ Span (m₀.regs Reg.esp - .ofNat 32 (4 * n)) (4 * n) x)
    (hesp : m'.regs Reg.esp = m.regs Reg.esp)
    (hmem : ∀ x, ¬ B x → m'.mem x = m.mem x) : m₀.Stands n B ws m' := by
  refine ⟨hesp.trans h.esp, fun k w hw => ?_, fun x hx hx' => (hmem x hx').trans (h.mem x hx hx')⟩
  rw [hesp, ← h.words k w hw]
  refine load_congr fun x hx => hmem x fun hx' => hB x hx' ?_
  have hk : k < ws.length := (List.getElem?_eq_some_iff.1 hw).1
  have hsp := h.esp
  unfold Span
  unfold Width.bytes at hx
  bv_omega

end Stands

end Machine

end KuAsm

import Mathlib.Data.List.Nodup
import Mathlib.Logic.Relation
import KuAsm.Proofs.Processor
import KuAsm.Proofs.Symbol

/-!
# Going through a unit

The processor goes from line to line of a unit.  Jumps and calls lead to labels, a return leads to
the address on top of the stack, and everything else to the next line.  What the operating system
does, and where lines and symbols are in memory, is given by a `World`.

A piece of code that only jumps inside itself is gone through in the same way wherever it stands, so
what it does can be said without its place.  Such pieces are put together like straight code.

## Main definitions

* `Code.step`, `Code.Runs`: one line of a unit, and any number of lines.
* `Code.Has`: a piece of code stands at a line of a unit.
* `Code.Executes`: a piece of code is gone through from its start to its end, wherever it stands.

## Main statements

* `Code.Runs.straight`, `Code.Executes.straight`: code without jumps.
* `Code.Executes.append`: one piece behind another.
* `Code.Executes.runs`: a piece with different labels as a unit of its own.
-/

namespace KuAsm

open Reg

variable {c : Code} {x : Line}

/-- What surrounds a unit while it runs. -/
structure World where
  /-- The numbers of symbols. -/
  symbol : Label → BitVec 32
  /-- Where the line behind a call is in memory. -/
  address : Nat → BitVec 32
  /-- The line to which a return to an address leads. -/
  line : BitVec 32 → Option Nat
  /-- The operating system. -/
  kernel : Machine → Option Machine

namespace Code

/-- The line that a label leads to. -/
def target (code : Code) (l : Label) : Option Nat := code.findIdx? (· == .label l)

variable (W : World)

/-- One line of a unit: the line to go on with, and the machine then. -/
def step (code : Code) (i : Nat) (m : Machine) : Option (Nat × Machine) :=
  match code[i]? with
  | none => none
  | some (.label _) => some (i + 1, m)
  | some (.instr (.jmp l)) => (code.target l).map (·, m)
  | some (.instr (.jcc c l)) =>
    (m.flags.bind c.holds).bind fun holds => if holds then (code.target l).map (·, m) else
      some (i + 1, m)
  | some (.instr (.call l)) => (code.target l).map (·, m.push (W.address (i + 1)))
  | some (.instr (.bare .ret)) =>
    (W.line (m.load (m.regs esp) .dword)).map (·, m.setReg esp (m.regs esp + 4))
  | some (.instr .kernel) => (W.kernel m).map (i + 1, ·)
  | some x => (x.exec W.symbol m).map (i + 1, ·)

/-- The machine gets from one line of a unit to another.  There is one way at most, since
`Code.step` is a function. -/
def Runs (code : Code) : Nat × Machine → Nat × Machine → Prop :=
  Relation.ReflTransGen fun p q => code.step W p.1 p.2 = some q

/-- A piece of code stands at a line of a unit. -/
def Has (code : Code) (i : Nat) (piece : Code) : Prop :=
  ∀ k x, piece[k]? = some x → code[i + k]? = some x

/-- A piece of code is gone through from its start to its end, wherever it stands in a unit in which
its labels are its own, and `P` holds of the machine then. -/
def Executes (piece : Code) (m : Machine) (P : Machine → Prop) : Prop :=
  ∀ (code : Code) (i : Nat), code.Has i piece →
    (∀ k l, piece[k]? = some (.label l) → code.target l = some (i + k)) →
    ∃ m', code.Runs W (i, m) (i + piece.length, m') ∧ P m'

variable {W} {code : Code} {i : Nat} {m m' : Machine}

/-! ### Pieces of a unit -/

theorem Has.left {d : Code} (h : code.Has i (c ++ d)) : code.Has i c :=
  fun k x hx => h k x ((List.getElem?_append_left (List.getElem?_eq_some_iff.1 hx).1).trans hx)

theorem Has.right {d : Code} (h : code.Has i (c ++ d)) : code.Has (i + c.length) d := by
  intro k x hx
  rw [Nat.add_assoc]
  refine h _ x ?_
  rw [List.getElem?_append_right (by omega), Nat.add_sub_cancel_left, hx]

theorem Has.head (h : code.Has i (x :: c)) : code[i]? = some x := h 0 x rfl

theorem Has.tail (h : code.Has i (x :: c)) : code.Has (i + 1) c := Has.right (c := [x]) h

theorem has_self (code : Code) : code.Has 0 code := fun k x hx => by rwa [Nat.zero_add]

/-- If the labels of a unit are different, each leads to its own line. -/
theorem target_of_nodup (h : code.defines.Nodup) {k : Nat} {l : Label}
    (hk : code[k]? = some (.label l)) : code.target l = some k := by
  obtain ⟨hlt, hl⟩ := List.getElem?_eq_some_iff.1 hk
  refine List.findIdx?_eq_some_iff_getElem.2 ⟨hlt, by rw [hl, beq_self_eq_true], fun j hj => ?_⟩
  rw [beq_iff_eq]
  intro hjl
  have hpair := (List.nodup_flatMap.1 h).2
  have happart := List.pairwise_iff_getElem.1 hpair j k (Nat.lt_trans hj hlt) hlt hj
  rw [Function.onFun_apply, hjl, hl] at happart
  exact happart (List.mem_singleton_self l) (List.mem_singleton_self l)

/-! ### Straight code -/

theorem Runs.single {p q : Nat × Machine} (h : code.step W p.1 p.2 = some q) : code.Runs W p q :=
  Relation.ReflTransGen.single h

/-- A line that the processor goes through on its own. -/
theorem step_of_exec (h : code[i]? = some x) (hx : x.exec W.symbol m = some m') :
    code.step W i m = some (i + 1, m') := by
  have hexec : (x.exec W.symbol m).map (i + 1, ·) = some (i + 1, m') := by rw [hx, Option.map_some]
  unfold step
  rw [h]
  -- the lines with a rule of their own are not gone through by `Line.exec`
  cases x with
  | instr y =>
    cases y with
    | jmp | jcc | call | kernel => cases hx
    | bare op =>
      cases op with
      | ret => cases hx
      | _ => exact hexec
    | _ => exact hexec
  | label => cases hx
  | _ => exact hexec

/-- Straight code is gone through line by line. -/
theorem Runs.straight (h : code.Has i c) (hrun : c.run W.symbol m = some m') :
    code.Runs W (i, m) (i + c.length, m') := by
  induction c generalizing i m with
  | nil =>
    cases hrun
    exact .refl
  | cons x c ih =>
    obtain ⟨m₁, hx, hrest⟩ := Option.bind_eq_some_iff.1 ((run_cons x c m).symm.trans hrun)
    have hlater := ih h.tail hrest
    rw [List.length_cons, Nat.add_comm c.length, ← Nat.add_assoc]
    exact .head (step_of_exec h.head hx) hlater

namespace Executes

variable {c d : Code} {P Q : Machine → Prop}

theorem straight (h : c.run W.symbol m = some m') (hP : P m') : c.Executes W m P :=
  fun _ _ hc _ => ⟨m', .straight hc h, hP⟩

theorem weaken (h : c.Executes W m P) (hPQ : ∀ m', P m' → Q m') : c.Executes W m Q := by
  intro code i hc hlabels
  obtain ⟨m', hruns, hP⟩ := h code i hc hlabels
  exact ⟨m', hruns, hPQ m' hP⟩

/-- A call of the operating system. -/
theorem kernel (h : W.kernel m = some m') (hP : P m') : Code.Executes W [Asm.kernel] m P := by
  intro code i hc _
  refine ⟨m', .single ?_, hP⟩
  unfold step
  rw [hc.head]
  exact congrArg (Option.map (i + 1, ·)) h

/-- One piece behind another. -/
theorem append (hc : c.Executes W m P) (hd : ∀ m', P m' → d.Executes W m' Q) :
    (c ++ d).Executes W m Q := by
  intro code i h hlabels
  obtain ⟨m₁, hfirst, hP⟩ := hc code i h.left fun k l hl =>
    hlabels k l ((List.getElem?_append_left (List.getElem?_eq_some_iff.1 hl).1).trans hl)
  obtain ⟨m₂, hsecond, hQ⟩ := hd m₁ hP code (i + c.length) h.right fun k l hl => by
    rw [Nat.add_assoc]
    refine hlabels _ l ?_
    rw [List.getElem?_append_right (by omega), Nat.add_sub_cancel_left, hl]
  rw [List.length_append, ← Nat.add_assoc]
  exact ⟨m₂, Relation.ReflTransGen.trans hfirst hsecond, hQ⟩

/-- A piece of code whose labels are different is a unit of its own. -/
theorem runs (h : c.Executes W m P) (hc : c.defines.Nodup) :
    ∃ m', c.Runs W (0, m) (c.length, m') ∧ P m' := by
  have hruns := h c 0 c.has_self fun k l hl =>
    (target_of_nodup hc hl).trans (congrArg some (Nat.zero_add k).symm)
  rwa [Nat.zero_add] at hruns

end Executes

end Code

end KuAsm

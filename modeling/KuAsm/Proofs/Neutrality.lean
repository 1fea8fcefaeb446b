import KuAsm.Proofs.Onward
import KuAsm.Proofs.Tally
import Mathlib.Algebra.Ring.Int.Defs

/-!
# Expressions leave both stacks as they find them

The left operand of an operator waits on the stack, arguments are pushed for a call, and decimals
meet on the floating-point stack.  Whatever an expression puts on one of the stacks, its code takes
off again: a scan of the code counts what each line pushes and pops, and comes to nothing at the
end.

The code may go back to a label, so a scan from the first line to the last is not all that can
happen.  For each label there is one pair of depths at which control gets there, by a jump or from
the line in front of it.

## Main definitions

* `Line.stackEffect`, `Line.floatEffect`: what a line pushes on the stack and on the floating-point
  stack.
* `Code.Walk`: how control goes through a piece of code.
* `Code.Level`: the depths stay within bounds, and are the expected ones at labels.

## Main statements

* `Node.evaluate_leads`: the code of an expression leads from nothing to nothing.
* `expression_code_neutral`: both depths along every walk through the code of an expression.
-/

namespace KuAsm

open Asm Reg Lower

variable {c : Code}

/-! ### Scanning code -/

/-- The bytes that a line puts on the stack.  A call takes off what it puts there. -/
def Line.stackEffect : Line → Int
  | .instr (.push _) => 4
  | .instr (.pop _) => -4
  | .instr (.arith .add (.reg esp) (.imm n)) => -n
  | _ => 0

/-- The numbers that a line puts on the floating-point stack. -/
def Line.floatEffect : Line → Int
  | .instr (.floatMem .fld _) => 1
  | .instr (.floatMem .fstp _) | .instr (.floatPair _) | .instr .floatDrop | .instr .floatKeep
  | .instr .floatCompare => -1
  | _ => 0

/-- The label that a line may jump to. -/
def Line.jump? : Line → Option Label
  | .instr (.jmp l) | .instr (.jcc _ l) => some l
  | _ => none

/-- The label whose depths a line has to agree with: the one that it jumps to, or that it
defines. -/
def Line.spot? : Line → Option Label
  | .label l => some l
  | line => line.jump?

/-- The bytes that a piece of code puts on the stack. -/
def Code.stack (code : Code) : Int := (code.map Line.stackEffect).sum

/-- The numbers that a piece of code puts on the floating-point stack. -/
def Code.floats (code : Code) : Int := (code.map Line.floatEffect).sum

/-- Control gets from the beginning of the code to its `i`-th line, with so much on both stacks.
Behind a line comes the next one, unless the line always jumps, or the label that it jumps to. -/
inductive Code.Walk (code : Code) : Nat → Int → Int → Prop
  | start : Walk code 0 0 0
  | next {i a f line} : Walk code i a f → code[i]? = some line → (∀ l, line ≠ jmp l) →
    Walk code (i + 1) (a + line.stackEffect) (f + line.floatEffect)
  | jump {i j a f line l} : Walk code i a f → code[i]? = some line → line.jump? = some l →
    code[j]? = some (.label l) → Walk code j a f

namespace Code

variable {c c' : Code} {line : Line} {h h' : Label → Int × Int} {a f : Int}

@[simp] theorem stack_nil : stack [] = 0 := rfl

@[simp] theorem stack_cons : stack (line :: c) = line.stackEffect + stack c := by simp [stack]

@[simp] theorem stack_append : stack (c ++ c') = stack c + stack c' := by simp [stack]

@[simp] theorem floats_nil : floats [] = 0 := rfl

@[simp] theorem floats_cons : floats (line :: c) = line.floatEffect + floats c := by simp [floats]

@[simp] theorem floats_append : floats (c ++ c') = floats c + floats c' := by simp [floats]

/-- Scanning the code with so much on both stacks keeps within bounds: neither is ever below its
beginning, there are no more than two numbers on the floating-point stack, and none when a function
is called.  At labels and where control may jump to them the depths are those expected at the
label. -/
def Level (h : Label → Int × Int) : Int → Int → Code → Prop
  | a, f, [] => 0 ≤ a ∧ 0 ≤ f ∧ f ≤ 2
  | a, f, line :: c =>
    (0 ≤ a ∧ 0 ≤ f ∧ f ≤ 2) ∧ (line.isCall = true → f = 0) ∧
      (∀ l, line.spot? = some l → h l = (a, f)) ∧
      Level h (a + line.stackEffect) (f + line.floatEffect) c

namespace Level

theorem bounds : ∀ {c : Code} {a f : Int}, Level h a f c → 0 ≤ a ∧ 0 ≤ f ∧ f ≤ 2
  | [], _, _, hc => hc
  | _ :: _, _, _, hc => hc.1

theorem append (hc : Level h a f c) (hc' : Level h (a + stack c) (f + floats c) c') :
    Level h a f (c ++ c') := by
  induction c generalizing a f with
  | nil => simpa using hc'
  | cons line c ih =>
    obtain ⟨hbounds, hcall, hspot, hrest⟩ := hc
    refine ⟨hbounds, hcall, hspot, ih hrest ?_⟩
    simpa [Int.add_assoc] using hc'

/-- The depths expected at other labels do not matter. -/
theorem congr (hc : Level h a f c) (hh : ∀ line ∈ c, ∀ l, line.spot? = some l → h' l = h l) :
    Level h' a f c := by
  induction c generalizing a f with
  | nil => exact hc
  | cons line c ih =>
    obtain ⟨hline, hrest⟩ := List.forall_mem_cons.1 hh
    exact ⟨hc.1, hc.2.1, fun l hl => (hline l hl).trans (hc.2.2.1 l hl), ih hc.2.2.2 hrest⟩

/-- The stack may be higher from the beginning. -/
theorem raise (hc : Level h a f c) {n : Int} (hn : 0 ≤ n) :
    Level (fun l => (n + (h l).1, (h l).2)) (n + a) f c := by
  induction c generalizing a f with
  | nil => exact ⟨Int.add_nonneg hn hc.1, hc.2⟩
  | cons line c ih =>
    obtain ⟨⟨ha, hf⟩, hcall, hspot, hrest⟩ := hc
    refine ⟨⟨Int.add_nonneg hn ha, hf⟩, hcall, fun l hl => by simp [hspot l hl], ?_⟩
    rw [Int.add_assoc]
    exact ih hrest

/-- Up to a line the code keeps within bounds, and at the line the depths are as they have to be. -/
theorem take {code : Code} (hc : Level h a f code) (i : Nat) :
    (0 ≤ a + stack (code.take i) ∧ 0 ≤ f + floats (code.take i) ∧ f + floats (code.take i) ≤ 2) ∧
      ∀ line, code[i]? = some line → (line.isCall = true → f + floats (code.take i) = 0) ∧
        ∀ l, line.spot? = some l → h l = (a + stack (code.take i), f + floats (code.take i)) := by
  induction i generalizing code a f with
  | zero =>
    refine ⟨by simpa using hc.bounds, fun line hline => ?_⟩
    cases code with
    | nil => cases hline
    | cons first code =>
      cases hline
      simpa using ⟨hc.2.1, hc.2.2.1⟩
  | succ i ih =>
    cases code with
    | nil => exact ⟨by simpa using hc.bounds, fun _ hline => nomatch hline⟩
    | cons first code =>
      have hrest := ih hc.2.2.2
      simp only [List.take_succ_cons, stack_cons, floats_cons, ← Int.add_assoc,
        List.getElem?_cons_succ]
      exact hrest

/-- Along every walk the depths are those of the scan. -/
theorem walk (hc : Level h 0 0 c) {i : Nat} (hwalk : c.Walk i a f) :
    a = stack (c.take i) ∧ f = floats (c.take i) := by
  induction hwalk with
  | start => exact ⟨rfl, rfl⟩
  | @next i a f line _ hline _ ih =>
    obtain ⟨rfl, rfl⟩ := ih
    rw [List.take_add_one, hline, stack_append, floats_append]
    simp
  | @jump i j a f line l _ hline hjump hlabel ih =>
    obtain ⟨rfl, rfl⟩ := ih
    -- the jump and the label both agree with what is expected at the label
    have hspot : line.spot? = some l := by
      cases line with
      | label _ => cases hjump
      | _ => exact hjump
    have hfrom := ((hc.take i).2 line hline).2 l hspot
    have hto := ((hc.take j).2 (.label l) hlabel).2 l rfl
    simpa using hfrom.symm.trans hto

end Level

end Code

/-! ### Pieces of code -/

/-- A line that leaves the depths alone, whatever they are. -/
def Line.isInert (line : Line) : Bool :=
  line.stackEffect == 0 && line.floatEffect == 0 && !line.isCall && line.spot?.isNone

/-- The code leads from one depth of the stack to another, with nothing on the floating-point stack
before and behind it.  Its labels are numbered from `lo` on, and below `hi`. -/
structure Code.Leads (lo hi : Nat) (a : Int) (code : Code) (b : Int) : Prop where
  level : ∃ h, code.Level h a 0
  stack : a + code.stack = b
  floats : code.floats = 0
  numbered : ∀ line ∈ code, ∀ l, line.spot? = some l → lo ≤ l.number ∧ l.number < hi
  le : lo ≤ hi

namespace Code.Leads

variable {lo mid hi : Nat} {a b e : Int} {c c' : Code}

theorem append (hc : c.Leads lo mid a b) (hc' : c'.Leads mid hi b e) :
    (c ++ c').Leads lo hi a e := by
  obtain ⟨⟨h, hlevel⟩, hstack, hfloats, hnum, hle⟩ := hc
  obtain ⟨⟨h', hlevel'⟩, hstack', hfloats', hnum', hle'⟩ := hc'
  refine ⟨⟨fun l => if l.number < mid then h l else h' l, ?_⟩, ?_, ?_, ?_, Nat.le_trans hle hle'⟩
  · refine (hlevel.congr fun line hline l hl => if_pos (hnum line hline l hl).2).append ?_
    rw [hstack, hfloats]
    exact hlevel'.congr fun line hline l hl => if_neg (Nat.not_lt.2 (hnum' line hline l hl).1)
  · rw [stack_append, ← Int.add_assoc, hstack, hstack']
  · rw [floats_append, hfloats, hfloats']
    rfl
  · refine List.forall_mem_append.2 ⟨fun line hline l hl => ?_, fun line hline l hl => ?_⟩
    · exact ⟨(hnum line hline l hl).1, Nat.lt_of_lt_of_le (hnum line hline l hl).2 hle'⟩
    · exact ⟨Nat.le_trans hle (hnum' line hline l hl).1, (hnum' line hline l hl).2⟩

/-- The code may stand where more is on the stack. -/
theorem raise (hc : c.Leads lo hi a b) {n : Int} (hn : 0 ≤ n) : c.Leads lo hi (n + a) (n + b) := by
  obtain ⟨⟨h, hlevel⟩, hstack, hfloats, hnum, hle⟩ := hc
  exact ⟨⟨_, hlevel.raise hn⟩, by rw [← hstack, Int.add_assoc], hfloats, hnum, hle⟩

/-- More labels may have been made. -/
theorem later (hc : c.Leads lo mid a b) (hle : mid ≤ hi) : c.Leads lo hi a b where
  level := hc.level
  stack := hc.stack
  floats := hc.floats
  numbered line hline l hl :=
    ⟨(hc.numbered line hline l hl).1, Nat.lt_of_lt_of_le (hc.numbered line hline l hl).2 hle⟩
  le := Nat.le_trans hc.le hle

/-- Code without labels, whose depths can be computed. -/
theorem unlabelled (hlevel : c.Level (fun _ => (0, 0)) a 0) (hstack : a + c.stack = b)
    (hfloats : c.floats = 0) (hspots : ∀ line ∈ c, line.spot? = none) : c.Leads lo lo a b where
  level := ⟨_, hlevel⟩
  stack := hstack
  floats := hfloats
  numbered line hline l hl := by
    rw [hspots line hline] at hl
    cases hl
  le := Nat.le_refl _

theorem steady (hc : c.all Line.isInert = true) (ha : 0 ≤ a) : c.Leads lo lo a a := by
  induction c with
  | nil => exact .unlabelled ⟨ha, by decide, by decide⟩ (by simp) floats_nil (by simp)
  | cons line c ih =>
    obtain ⟨hline, hrest⟩ := Bool.and_eq_true_iff.1 hc
    simp only [Line.isInert, Bool.and_eq_true, beq_iff_eq, Bool.not_eq_true',
      Option.isNone_iff_eq_none] at hline
    obtain ⟨⟨⟨hstack, hfloats⟩, hcall⟩, hspot⟩ := hline
    have hfirst : Code.Leads lo lo a [line] a := by
      refine .unlabelled ?_ (by simp [hstack]) (by simp [hfloats]) (by simpa using hspot)
      simp [Level, hstack, hfloats, hcall, hspot, ha]
    exact hfirst.append (ih hrest)

end Code.Leads

/-! ### Lines that expressions are made of -/

attribute [local simp] Asm.mov Asm.movzx Asm.push Asm.pop Asm.add Asm.jcc Asm.setcc Asm.call
  Asm.bare Asm.floatMem Line.stackEffect Line.floatEffect Line.isCall Line.jump? Line.spot?

theorem Asm.isInert_load (r : Reg) (m : Mem) : [load r m].all Line.isInert = true := by
  unfold load
  split <;> rfl

theorem Asm.isInert_store (m : Mem) (r : Reg) : [store m r].all Line.isInert = true := by
  unfold store
  split <;> rfl

theorem Code.inert_append {a b : Code} (ha : a.all Line.isInert = true)
    (hb : b.all Line.isInert = true) : (a ++ b).all Line.isInert = true := by
  rw [List.all_append, ha, hb, Bool.and_self]

theorem Code.IsNote.isInert {note : Code} (h : Code.IsNote note) :
    note.all Line.isInert = true := by
  rcases h with rfl | ⟨text, rfl⟩ <;> rfl

namespace Convention

theorem isInert_chase (depth : Nat) : (chase depth).1.all Line.isInert = true := by
  unfold chase
  split
  · rfl
  · rw [List.all_cons, List.all_replicate]
    simp [Line.isInert]

/-- Each argument takes four bytes. -/
theorem leads_pushArguments {lo : Nat} {a : Int} (ha : 0 ≤ a) : ∀ {slots : List Slot} {c : Code},
    pushArguments slots = .ok c → c.Leads lo lo a (a + 4 * slots.length)
  | [], c, h => by
    cases h
    simpa using Code.Leads.steady (c := []) rfl ha
  | x :: rest, c, h => by
    obtain ⟨pushes, m, hpushes, -, rfl⟩ := pushArguments_cons_eq_ok.1 h
    refine (leads_pushArguments ha hpushes).append (.unlabelled ?_ ?_ rfl ?_)
    · simp [Code.Level]
      omega
    · simp
      omega
    · simp

/-- A call takes off the stack what was pushed for it. -/
theorem leads_call {lo : Nat} {slots : List Slot} {depth : Nat} {entry : Label}
    (h : call slots depth entry = .ok c)
    (hslots : slots.length < wordCount) : c.Leads lo lo 0 0 := by
  obtain ⟨pushes, bytes, hpushes, hbytes, rfl⟩ := call_eq_ok h
  obtain rfl : bytes = 4 * (slots.length + 1) := by
    unfold cleanupBytes argBytes at hbytes
    rw [Nat.mod_eq_of_lt hslots] at hbytes
    dsimp only at hbytes
    split at hbytes
    · cases hbytes
    · split at hbytes
      · cases hbytes
      · cases hbytes
        omega
  refine ((leads_pushArguments (Int.le_refl 0) hpushes).append
    (.steady (isInert_chase depth) (by omega))).append (.unlabelled ?_ ?_ rfl ?_)
  · simp [Code.Level]
    omega
  · simp
    omega
  · simp

end Convention

namespace Lower

variable {s t : State}

/-- Decimals are taken off the stack and combined on the floating-point stack. -/
theorem decimalCode_leads {op : BinaryOp} (h : decimalCode op s = .ok c t) :
    c.Leads s.session.nextLabel t.session.nextLabel 4 0 := by
  unfold decimalCode at h
  split at h
  · obtain ⟨again, u, hmint, h⟩ := bind_eq_ok.1 h
    obtain ⟨rfl, rfl⟩ := mintLabel_eq_ok.1 hmint
    obtain ⟨rfl, rfl⟩ := pure_eq_ok.1 h
    -- both operands are on the floating-point stack while the remainder is taken
    refine ⟨⟨fun _ => (8, 2), ?_⟩, ?_, ?_, ?_, Nat.le_succ _⟩
    · simp [Code.Level, loadRounded]
    · simp [loadRounded]
    · simp [loadRounded]
    · simp [loadRounded, Label.fresh, Session.mintLabel]
  · cases hpair : op.floatPair? with
    | some pair =>
      rw [hpair] at h
      obtain ⟨rfl, rfl⟩ := pure_eq_ok.1 h
      exact .unlabelled (by simp [Code.Level, loadRounded]) (by simp [loadRounded])
        (by simp [loadRounded]) (by simp [loadRounded])
    | none =>
      rw [hpair] at h
      obtain ⟨rfl, rfl⟩ := pure_eq_ok.1 h
      exact .unlabelled (by simp [Code.Level, loadRounded]) (by simp [loadRounded])
        (by simp [loadRounded]) (by simp [loadRounded])

theorem negateCode_leads (ty : ScalarType) (lo : Nat) : (negateCode ty).Leads lo lo 0 0 := by
  cases ty with
  | decimal =>
    exact .unlabelled (by simp [Code.Level, negateCode]) (by simp [negateCode])
      (by simp [negateCode]) (by simp [negateCode])
  | _ => exact .steady rfl (Int.le_refl 0)

/-- The code of each value leads from nothing to nothing, and has labels behind those of the values
before it. -/
inductive AllLead : Nat → List Lowered → Nat → Prop
  | nil {lo hi} : lo ≤ hi → AllLead lo [] hi
  | cons {lo mid hi v vs} : v.code.Leads lo mid 0 0 → AllLead mid vs hi → AllLead lo (v :: vs) hi

/-- The arguments lead from nothing to nothing, and there are no more of them than a frame has room
for. -/
theorem stageArguments_leads {vs : List Lowered} {lo hi : Nat} (hvs : AllLead lo vs hi)
    {count : Nat} {slots : List Slot} (hs : s.Formed)
    (h : stageArguments count vs s = .ok (c, slots) t) :
    c.Leads lo hi 0 0 ∧ (slots = [] ∨ s.here.used + 4 * slots.length < wordCount) := by
  induction hvs generalizing count s c slots with
  | nil hle =>
    unfold stageArguments at h
    obtain ⟨hpair, -⟩ := pure_eq_ok.1 h
    cases hpair
    exact ⟨(Code.Leads.steady (c := []) rfl (Int.le_refl 0)).later hle, .inl rfl⟩
  | cons hv _ ih =>
    cases count with
    | zero =>
      unfold stageArguments at h
      obtain ⟨⟨c, slots⟩, u, hx, h⟩ := bind_eq_ok.1 h
      obtain ⟨hpair, rfl⟩ := pure_eq_ok.1 h
      cases hpair
      obtain ⟨hc, hslots⟩ := ih hs hx
      exact ⟨hv.append hc, hslots⟩
    | succ count =>
      unfold stageArguments at h
      obtain ⟨slot, u, hslot, h₁⟩ := bind_eq_ok.1 h
      obtain ⟨m, u₁, hm, h₂⟩ := bind_eq_ok.1 h₁
      obtain ⟨-, rfl⟩ := frameSlot_eq_ok.1 hm
      obtain ⟨⟨c, slots⟩, u₂, hx, h₃⟩ := bind_eq_ok.1 h₂
      obtain ⟨hpair, rfl⟩ := pure_eq_ok.1 h₃
      cases hpair
      obtain ⟨hc, hslots⟩ := ih ((IsQuiet.reserve _ _ _ _ hs hslot).formed hs) hx
      refine ⟨(hv.append (.steady (c := [mov m eax]) rfl (Int.le_refl 0))).append hc, .inr ?_⟩
      -- each slot was reserved, so all of them together fit into a frame
      obtain ⟨hlt, -, rfl⟩ := reserve_eq_ok.1 hslot
      rw [State.here_withScope hs] at hslots
      unfold Convention.argBytes at hlt hslots
      dsimp only at hslots
      rcases hslots with rfl | hslots
      · exact hlt
      · simp only [List.length_cons] at hslots ⊢
        omega

/-- If the action ends well, the code of its result leaves the depths alone. -/
def GivesInert {α : Type} (x : Lower α) (code : α → Code) : Prop :=
  ∀ s a t, x s = .ok a t → (code a).all Line.isInert = true

namespace GivesInert

variable {α β : Type} {x y : Lower α} {f : α → Lower β} {code : α → Code} {code' : β → Code}

theorem pure {a : α} (h : (code a).all Line.isInert = true) : GivesInert (pure a) code := by
  intro s b t hb
  obtain ⟨rfl, -⟩ := pure_eq_ok.1 hb
  exact h

theorem bind (hx : GivesInert x code)
    (hf : ∀ a, (code a).all Line.isInert = true → GivesInert (f a) code') :
    GivesInert (x >>= f) code' := by
  intro s b t h
  obtain ⟨a, u, hxa, hfa⟩ := bind_eq_ok.1 h
  exact hf a (hx s a u hxa) u b t hfa

/-- What the action gives does not matter. -/
theorem skip (hf : ∀ a, GivesInert (f a) code') : GivesInert (x >>= f) code' := by
  intro s b t h
  obtain ⟨a, u, -, hfa⟩ := bind_eq_ok.1 h
  exact hf a u b t hfa

theorem reject (c : Cause) (l : Location) : GivesInert (Lower.reject c l) code :=
  fun _ _ _ h => (reject_eq_ok.1 h).elim

theorem ite {c : Prop} [Decidable c] (hx : GivesInert x code) (hy : GivesInert y code) :
    GivesInert (if c then x else y) code := by
  split
  · exact hx
  · exact hy

theorem remark (text : String) : GivesInert (Lower.remark text) id :=
  fun _ _ _ h => (isNote_of_remark h).1.isInert

theorem registerFresh : GivesInert Lower.registerFresh (·.1) :=
  .skip fun _ => .skip fun _ => .skip fun _ => .skip fun _ => .skip fun _ => .skip fun m =>
      .skip fun n =>
    .bind (.remark _) fun _ hnote =>
      .pure (Code.inert_append (Code.inert_append (isInert_store m eax) (isInert_store n edx))
        hnote)

theorem literal (v : Literal) : GivesInert (Lower.literal v) Lowered.code := by
  cases v with
  | decimal v => exact .bind (.remark _) fun _ hnote => .pure hnote
  | str v => exact .skip fun _ => .pure rfl
  | _ => exact .pure rfl

theorem readVariable (name : String) (l : Location) :
    GivesInert (Lower.readVariable name l) Lowered.code := by
  have hsize (base : Reg) (x : Variable) : GivesInert (Lower.loadSize base x) id := by
    unfold Lower.loadSize
    cases x.sizeCell with
    | none => exact .pure rfl
    | some cell => exact .skip fun c => .pure (isInert_load edx c)
  exact .skip fun _ => .skip fun m => .bind (hsize _ _) fun _ hsize =>
    .pure (Code.inert_append (Code.inert_append (Convention.isInert_chase _) (isInert_load eax m))
      hsize)

theorem addressOf (name : String) (l : Location) :
    GivesInert (Lower.addressOf name l) Lowered.code :=
  .skip fun _ => .skip fun _ => .pure (Code.inert_append (Convention.isInert_chase _) rfl)

theorem stepVariable (name : String) (op : StepOp) (fixity : Fixity) (l : Location) :
    GivesInert (Lower.stepVariable name op fixity l) Lowered.code := by
  refine .skip fun ⟨r, x⟩ => .ite (.reject _ _) (.skip fun m => ?_)
  have hchange : [Line.instr (.unary op.unary m)].all Line.isInert = true := rfl
  cases fixity with
  | leading =>
    exact .pure (Code.inert_append (Convention.isInert_chase _)
      (Code.inert_append hchange (isInert_load eax m)))
  | trailing =>
    exact .pure (Code.inert_append (Convention.isInert_chase _)
      (Code.inert_append (isInert_load eax m) hchange))

end GivesInert

theorem invoke_leads {f : Signature} {depth : Nat} {vs : List Lowered} {lo : Nat}
    (hvs : AllLead lo vs s.session.nextLabel)
    {v : Lowered} (hs : s.Formed) (h : invoke f depth vs s = .ok v t) :
    v.code.Leads lo t.session.nextLabel 0 0 := by
  have hlabels := (IsQuiet.law.invoke f depth vs s v t hs h).labels
  obtain ⟨staging, slots, u, note, call, hstaging, hnote, hcall, hcases⟩ := invoke_eq_ok h
  obtain ⟨hstaged, hslots⟩ := stageArguments_leads hvs hs hstaging
  have hlength : slots.length < wordCount := by
    rcases hslots with rfl | hslots
    · exact Nat.two_pow_pos 32
    · omega
  have hcode : (staging ++ note ++ call).Leads lo s.session.nextLabel 0 0 :=
    (hstaged.append (.steady hnote.isInert (Int.le_refl 0))).append
      (Convention.leads_call hcall hlength)
  refine Code.Leads.later ?_ hlabels
  rcases hcases with ⟨-, -, rfl⟩ | ⟨-, registered, id, hfresh, rfl⟩
  · exact hcode
  · exact hcode.append (.steady (GivesInert.registerFresh _ _ _ hfresh) (Int.le_refl 0))

/-! ### Expressions -/

/-- Two values are combined: the left one waits on the stack for the right one. -/
theorem combine_leads {op : BinaryOp} {left right v : Lowered} {l : Location} {lo mid : Nat}
    (hs : s.Formed) (hleft : left.code.Leads lo mid 0 0)
    (hright : right.code.Leads mid s.session.nextLabel 0 0)
    (h : combine op left right l s = .ok v t) : v.code.Leads lo t.session.nextLabel 0 0 := by
  have hpush : Code.Leads mid mid 0 [push eax] 4 :=
    .unlabelled (by simp [Code.Level]) (by simp) (by simp) (by simp)
  have hoperands : (left.code ++ [push eax] ++ right.code).Leads lo s.session.nextLabel 0 4 :=
    (hleft.append hpush).append (hright.raise (by decide : (0 : Int) ≤ 4))
  rcases combine_eq_ok h with ⟨-, f, -, hcall⟩ | ⟨-, -, code, ⟨-, hcode⟩ | ⟨-, rfl, rfl⟩, rfl⟩
  · -- strings are joined by a call, and nothing waits on the stack
    exact invoke_leads (.cons hleft (.cons hright (.nil (Nat.le_refl _)))) hs hcall
  · exact hoperands.append (decimalCode_leads hcode)
  · -- the left operand is taken off again before the two meet in registers
    have hpop : Code.Leads t.session.nextLabel t.session.nextLabel 4 [mov ecx eax, pop eax] 0 :=
      .unlabelled (by simp [Code.Level]) (by simp) (by simp) (by simp)
    exact hoperands.append (hpop.append (.steady (by cases op <;> rfl) (Int.le_refl 0)))

theorem applySign_leads {sign : Sign} {v w : Lowered} {l : Location} {lo hi : Nat}
    (hv : v.code.Leads lo hi 0 0)
    (h : applySign sign v l s = .ok w t) : w.code.Leads lo hi 0 0 := by
  obtain ⟨-, -, code, rfl | rfl, rfl⟩ := applySign_eq_ok h
  · exact hv.append (.steady rfl (Int.le_refl 0))
  · exact hv.append (negateCode_leads v.ty hi)

theorem applyCast_leads {v w : Lowered} {ty : ScalarType} {mode : CastMode} {l : Location}
    {lo hi : Nat} (hv : v.code.Leads lo hi 0 0) (h : applyCast v ty mode l s = .ok w t) :
    w.code.Leads lo hi 0 0 := by
  have hsize : (if ty.isHeap then [xor edx edx] else []).all Line.isInert = true := by split <;> rfl
  obtain ⟨-, code, hcode, rfl⟩ := applyCast_eq_ok h
  have hinert : code.all Line.isInert = true := by
    rcases hcode with rfl | rfl | rfl
    · rfl
    · rfl
    · exact isInert_load _ _
  exact (hv.append (.steady hinert (Int.le_refl 0))).append (.steady hsize (Int.le_refl 0))

end Lower

/-- An expression, and the arguments of a call, lead from nothing to nothing. -/
theorem Node.evaluate_leadsCases :
    ExpressionCases
      (fun n => ∀ s v t, s.Formed → n.evaluate s = .ok v t →
        v.code.Leads s.session.nextLabel t.session.nextLabel 0 0)
      (fun ns => ∀ name params s vs t, s.Formed → Node.evaluateArgs name params ns s = .ok vs t →
        AllLead s.session.nextLabel vs t.session.nextLabel) where
  constant {form x l} hx s v t hs h := by
    have hlabels := (Node.evaluate_quiet _ _ _ _ hs h).labels
    rw [Node.evaluate_literal hx] at h
    exact (Code.Leads.steady (GivesInert.literal _ _ _ _ h) (Int.le_refl 0)).later hlabels
  var s v t hs h :=
    (Code.Leads.steady (GivesInert.readVariable _ _ _ _ _ h) (Int.le_refl 0)).later
      (Node.evaluate_quiet _ _ _ _ hs h).labels
  binary hleft hright s v t hs h := by
    unfold Node.evaluate at h
    obtain ⟨a, u, ha, h₁⟩ := bind_eq_ok.1 h
    obtain ⟨b, w, hb, h₂⟩ := bind_eq_ok.1 h₁
    have hu := (Node.evaluate_quiet _ _ _ _ hs ha).formed hs
    exact combine_leads ((Node.evaluate_quiet _ _ _ _ hu hb).formed hu) (hleft s a u hs ha)
      (hright u b w hu hb) h₂
  signed hvalue s v t hs h := by
    unfold Node.evaluate at h
    obtain ⟨a, u, ha, h₁⟩ := bind_eq_ok.1 h
    have hu := (Node.evaluate_quiet _ _ _ _ hs ha).formed hs
    exact (applySign_leads (hvalue s a u hs ha) h₁).later
      (IsQuiet.law.applySign _ _ _ _ _ _ hu h₁).labels
  step s v t hs h :=
    (Code.Leads.steady (GivesInert.stepVariable _ _ _ _ _ _ _ h) (Int.le_refl 0)).later
      (Node.evaluate_quiet _ _ _ _ hs h).labels
  call hargs s v t hs h := by
    unfold Node.evaluate at h
    obtain ⟨⟨r, f⟩, u, hresolve, h₁⟩ := bind_eq_ok.1 h
    obtain ⟨vs, w, hvs, h₂⟩ := bind_eq_ok.1 h₁
    obtain ⟨x, u', hfound, hcount⟩ := bind_eq_ok.1 hresolve
    obtain ⟨-, rfl⟩ := resolveFunction_eq_ok.1 hfound
    dsimp only at hcount
    split at hcount
    · exact (reject_eq_ok.1 hcount).elim
    · obtain ⟨-, rfl⟩ := pure_eq_ok.1 hcount
      have hw := (IsQuiet.law.evaluateArgs _ _ _ _ _ _ hs hvs).formed hs
      exact invoke_leads (hargs _ _ _ _ _ hs hvs) hw h₂
  addressOf s v t hs h :=
    (Code.Leads.steady (GivesInert.addressOf _ _ _ _ _ h) (Int.le_refl 0)).later
      (Node.evaluate_quiet _ _ _ _ hs h).labels
  cast hvalue s v t hs h := by
    unfold Node.evaluate at h
    obtain ⟨a, u, ha, h₁⟩ := bind_eq_ok.1 h
    have hu := (Node.evaluate_quiet _ _ _ _ hs ha).formed hs
    exact (applyCast_leads (hvalue s a u hs ha) h₁).later
      (IsQuiet.law.applyCast _ _ _ _ _ _ _ hu h₁).labels
  misplaced hform s v t hs h := by
    rw [Node.evaluate_misplaced hform] at h
    exact (reject_eq_ok.1 h).elim
  nil name params s vs t hs h := by
    unfold Node.evaluateArgs at h
    obtain ⟨rfl, rfl⟩ := pure_eq_ok.1 h
    exact .nil (Nat.le_refl _)
  cons hn hns name params s vs t hs h := by
    cases params with
    | nil =>
      unfold Node.evaluateArgs at h
      obtain ⟨_, u, htell, h₁⟩ := bind_eq_ok.1 h
      obtain ⟨v, u₁, hv, h₂⟩ := bind_eq_ok.1 h₁
      obtain ⟨vs, u₂, hvs, h₃⟩ := bind_eq_ok.1 h₂
      obtain ⟨rfl, rfl⟩ := pure_eq_ok.1 h₃
      have hu := (IsQuiet.tell _ _ _ _ hs htell).formed hs
      have hfirst := hn u v u₁ hu hv
      have hlabels : u.session.nextLabel = s.session.nextLabel := by rw [tell_eq_ok.1 htell]; rfl
      rw [hlabels] at hfirst
      exact .cons hfirst (hns _ _ _ _ _ ((Node.evaluate_quiet _ _ _ _ hu hv).formed hu) hvs)
    | cons p params =>
      unfold Node.evaluateArgs at h
      obtain ⟨v, u, hv, h₁⟩ := bind_eq_ok.1 h
      obtain ⟨vs, u₁, hvs, h₂⟩ := bind_eq_ok.1 h₁
      obtain ⟨rfl, rfl⟩ := pure_eq_ok.1 h₂
      obtain ⟨hv, -⟩ := expect_eq_ok.1 hv
      exact .cons (hn s v u hs hv)
        (hns _ _ _ _ _ ((Node.evaluate_quiet _ _ _ _ hs hv).formed hs) hvs)

/-- The code of an expression leads from nothing to nothing. -/
theorem Node.evaluate_leads {e : Node} {s t : State} {v : Lowered} (hs : s.Formed)
    (h : e.evaluate s = .ok v t) : v.code.Leads s.session.nextLabel t.session.nextLabel 0 0 :=
  Node.evaluate_leadsCases.node e s v t hs h

/-- The code of an expression leaves both stacks as it finds them.  Scanned from its first line to
any other it has never taken more off the stack than it has put there, and never has more than two
numbers on the floating-point stack; it calls functions with none there, and in the end has nothing
on either.  Control may also go back to a label of the code: whichever way it takes to a line, the
depths are those of the scan. -/
theorem expression_code_neutral {p : Program} {session : Session} {comments : Bool} {ev : Event}
    {s t : State} (hev : ev ∈ p.trace session comments) (hs : ev.state? = some s) {e : Node}
    {v : Lowered} (h : e.evaluate s = .ok v t) :
    Code.stack v.code = 0 ∧ Code.floats v.code = 0 ∧
      (∀ i, 0 ≤ Code.stack (v.code.take i) ∧ 0 ≤ Code.floats (v.code.take i) ∧
        Code.floats (v.code.take i) ≤ 2) ∧
      (∀ i l, v.code[i]? = some (Asm.call l) → Code.floats (v.code.take i) = 0) ∧
      ∀ i a f, Code.Walk v.code i a f →
        a = Code.stack (v.code.take i) ∧ f = Code.floats (v.code.take i) := by
  have hleads := Node.evaluate_leads (Program.spaced_of_mem_trace hev hs).formed h
  obtain ⟨depths, hlevel⟩ := hleads.level
  refine ⟨by simpa using hleads.stack, hleads.floats, fun i => ?_, fun i l hcall => ?_, fun i a f =>
    hlevel.walk⟩
  · simpa using (hlevel.take i).1
  · simpa using ((hlevel.take i).2 _ hcall).1 rfl

/-- A function of a decimal and a string, and a decimal variable. -/
def weighing : Program :=
  ⟨[.unplaced (.function "f" [⟨"x", .decimal⟩, ⟨"s", .string⟩] .decimal []),
    .unplaced (.declare "d" .decimal none)]⟩

/-- The remainder by the result of a call, whose arguments are a remainder and two strings put
together. -/
def remaindered : Node :=
  let d := Node.unplaced (.var "d")
  .unplaced (.binary .rem d (.unplaced (.call "f" [.unplaced (.binary .rem d d),
    .unplaced (.binary .add (.unplaced (.str "a")) (.unplaced (.str "b")))])))

/-- The inner remainder is taken with three words on the stack and two numbers on the other one,
however often control goes back to the label. -/
theorem expression_code_neutral_remaindered :
    ∃ ev s v t l, ev ∈ weighing.trace .empty false ∧ ev.state? = some s ∧
    remaindered.evaluate s = .ok v t ∧ v.code[18]? = some (.label l) ∧
    (∀ a f, Code.Walk v.code 18 a f → a = 12 ∧ f = 2) ∧ Code.stack v.code = 0 ∧
    Code.floats v.code = 0 := by
  have hfound : ((weighing.trace .empty false).any fun ev => ev.state?.any fun s =>
      match remaindered.evaluate s with
      | .ok v _ =>
        v.code[18]? = some (.label (.fresh 46 "fprem")) ∧ Code.stack (v.code.take 18) = 12 ∧
        Code.floats (v.code.take 18) = 2
      | .error _ _ => false) = true := by
    decide +kernel
  obtain ⟨ev, s, hev, hs, hany⟩ := Event.exists_of_any hfound
  split at hany
  · rename_i v t hv
    obtain ⟨hlabel, hstack, hfloats⟩ := of_decide_eq_true hany
    obtain ⟨hstack', hfloats', -, -, hwalk⟩ := expression_code_neutral hev hs hv
    have hlevel := hwalk 18
    rw [hstack, hfloats] at hlevel
    exact ⟨ev, s, v, t, _, hev, hs, hv, hlabel, hlevel, hstack', hfloats'⟩
  · cases hany

end KuAsm

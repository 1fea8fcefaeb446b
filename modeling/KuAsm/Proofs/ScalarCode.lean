import KuAsm.Proofs.Frames

/-!
# The code of scalar expressions

Running the code of a scalar expression gives what the expression means.  The induction is on the
expression, for any machine whose frames are in place: while the right operand runs, the value of
the left one lies on the stack, where nothing reaches it, since variables are not below the stack
pointer.

## Main definitions

* `Node.waiting`: the most values that wait on the stack at a time.
* `Machine.Yields`: the machine behind the code of an expression.

## Main statements

* `run_integerCode`: the code of an operator combines two values as the operator does.
* `Node.run_evaluate`: the code of an expression yields its meaning.
* `scalar_expressions_keep_meaning`: this for all expressions at all places of a compilation.
-/

namespace KuAsm

open Asm Reg Lower

variable {op : BinaryOp} {symbol : Label → BitVec 32} {m : Machine} {y z : Scalar} {name : String}

/-- The most values that wait on the stack at a time while an expression is evaluated. -/
def Node.waiting : Node → Nat
  | .mk (.binary _ left right) _ => max left.waiting (right.waiting + 1)
  | .mk (.signed _ value) _ | .mk (.cast value _ _) _ => value.waiting
  | _ => 0

/-- The machine `m'` is reached from `m` by the code of an expression with the value `x`, at a place
in the scope `i`.  The value is in `eax`, and the frame and the stack are as before.  The variables
have the values `σ`, and in memory from the stack pointer on, only those of the given names may
differ. -/
structure Machine.Yields (t : ScopeTree) (i : ScopeId) (names : List String) (m m' : Machine)
    (x : Scalar) (σ : Store) : Prop where
  value : m'.regs eax = x.word
  frame : m'.regs ebp = m.regs ebp
  stack : m'.regs esp = m.regs esp
  store : m'.values t i = σ
  memory : ∀ a : BitVec 32, (m.regs esp).toNat ≤ a.toNat → (∀ name ∈ names, ¬ m.Covers t i name a) →
    m'.mem a = m.mem a

/-! ### Registers -/

/-- The machine `m'` differs from `m` in other things than memory, the frame and the stack. -/
structure Machine.Steady (m m' : Machine) : Prop where
  mem : m'.mem = m.mem
  ebp : m'.regs ebp = m.regs ebp
  esp : m'.regs esp = m.regs esp

namespace Machine

variable {m m' m'' : Machine} {t : ScopeTree} {i : ScopeId} {symbol : Label → BitVec 32}

theorem Steady.refl (m : Machine) : m.Steady m := ⟨rfl, rfl, rfl⟩

theorem Steady.trans (h : m.Steady m') (k : m'.Steady m'') : m.Steady m'' :=
  ⟨k.mem.trans h.mem, k.ebp.trans h.ebp, k.esp.trans h.esp⟩

theorem Steady.setReg (m : Machine) {r : Reg} (x : BitVec 32) (hebp : Reg.ebp ≠ r)
    (hesp : Reg.esp ≠ r) : m.Steady (m.setReg r x) :=
  ⟨rfl, if_neg hebp, if_neg hesp⟩

theorem Steady.setEax (m : Machine) (x : BitVec 32) : m.Steady (m.setReg eax x) :=
  .setReg m x nofun nofun

theorem Steady.load (h : m.Steady m') (a : BitVec 32) (w : Width) : m'.load a w = m.load a w :=
  load_congr fun b _ => congrFun h.mem b

theorem Steady.frame (h : m.Steady m') (k : Nat) : m'.frame k = m.frame k :=
  frame_congr h.ebp (fun _ _ b _ => congrFun h.mem b) k (Nat.le_refl k)

theorem Steady.values (h : m.Steady m') : m'.values t i = m.values t i := by
  unfold Machine.values Machine.layer Machine.scalar?
  simp only [h.frame, h.load]

/-- Another value in the end, computed from registers alone. -/
theorem Yields.steady {names : List String} {x : Scalar} {σ : Store} (h : Yields t i names m m' x σ)
    (k : m'.Steady m'') (hvalue : m''.regs eax = y.word) : Yields t i names m m'' y σ where
  value := hvalue
  frame := k.ebp.trans h.frame
  stack := k.esp.trans h.stack
  store := k.values.trans h.store
  memory a ha hnames := (congrFun k.mem a).trans (h.memory a ha hnames)

/-- Code that touches registers alone. -/
theorem Yields.of_steady {x : Scalar} (h : m.Steady m') (hvalue : m'.regs eax = x.word)
    (names : List String) : Yields t i names m m' x (m.values t i) where
  value := hvalue
  frame := h.ebp
  stack := h.esp
  store := h.values
  memory a _ _ := congrFun h.mem a

/-! ### Slots -/

/-- The operand of a slot leads to the slot. -/
theorem address_slot (m : Machine) {base : Reg} {x : Slot} {a : Mem} (h : Mem.slot base x = .ok a) :
    m.address a = m.regs base - .ofNat 32 x.bound ∧ a.width = Width.ofSize? x.size := by
  have haddresses : a.Addresses x false := .of_slot h rfl
  have hbase : a.base = base := by
    unfold Mem.slot at h
    cases hd : x.disp with
    | error e =>
      rw [hd] at h
      cases h
    | ok d =>
      rw [hd] at h
      cases h
      rfl
  have hdisp : BitVec.ofInt 32 a.disp = -BitVec.ofNat 32 x.bound := by
    have hzero : BitVec.ofInt 32 a.disp + BitVec.ofNat 32 x.bound = 0#32 := by
      rw [← BitVec.ofInt_natCast, ← BitVec.ofInt_add]
      apply BitVec.eq_of_toNat_eq
      rw [BitVec.toNat_ofInt, BitVec.toNat_ofNat]
      have hmod := haddresses.disp
      unfold wordCount at hmod
      omega
    bv_omega
  refine ⟨?_, haddresses.width⟩
  unfold Machine.address
  rw [hbase, haddresses.index, hdisp, BitVec.sub_eq_add_neg]
  show m.regs base + 0#32 + _ = _
  rw [BitVec.add_zero]

/-- A value is loaded as it stands in memory. -/
theorem exec_load (m : Machine) {a : Mem} {w : Width} (hw : a.width = some w) :
    (Asm.load eax a).exec symbol m =
      some (m.setReg eax ((m.load (m.address a) w).setWidth 32)) := by
  obtain ⟨base, index, disp, width⟩ := a
  obtain rfl : width = some w := hw
  cases w with
  | byte => rfl
  | dword =>
    exact congrArg (fun x => some (m.setReg eax x)) (BitVec.setWidth_eq _).symm

/-- Following links leads to the frame so many links outwards. -/
theorem run_chase (symbol : Label → BitVec 32) (m : Machine) (d : Nat) :
    ∃ m', Code.run symbol (Convention.chase d).1 m = some m' ∧ m.Steady m' ∧
      m'.regs (Convention.chase d).2 = m.frame d := by
  cases d with
  | zero => exact ⟨m, rfl, .refl m, rfl⟩
  | succ d =>
    -- the links are followed one by one, from where the frame pointer leads
    have hlinks : ∀ (n k : Nat) (m' : Machine), m.Steady m' → m'.regs esi = m.frame k →
        ∃ m'', Code.run symbol (List.replicate n (mov esi (Mem.dword esi 0))) m' = some m'' ∧
          m.Steady m'' ∧ m''.regs esi = m.frame (k + n) := by
      intro n
      induction n with
      | zero => exact fun k m' hm' hesi => ⟨m', rfl, hm', hesi⟩
      | succ n ih =>
        intro k m' hm' hesi
        have haddress : m'.address (Mem.dword esi 0) = m.frame k := by
          show m'.regs esi + 0#32 + 0#32 = _
          rw [BitVec.add_zero, BitVec.add_zero, hesi]
        have hstep : (mov esi (Mem.dword esi 0)).exec symbol m' =
            some (m'.setReg esi (m.frame (k + 1))) := by
          show some (m'.setReg esi (m'.load (m'.address (Mem.dword esi 0)) .dword)) = _
          rw [haddress, hm'.load]
          rfl
        obtain ⟨m'', hrun, hm'', hesi''⟩ := ih (k + 1) (m'.setReg esi (m.frame (k + 1)))
          (hm'.trans (.setReg _ _ nofun nofun)) rfl
        refine ⟨m'', ?_, hm'', ?_⟩
        · rw [List.replicate_succ, Code.run_cons, hstep]
          exact hrun
        · rw [hesi'']
          congr 1
          omega
    obtain ⟨m', hrun, hm', hesi⟩ :=
      hlinks (d + 1) 0 (m.setReg esi (m.regs ebp)) (.setReg _ _ nofun nofun) rfl
    rw [Nat.zero_add] at hesi
    exact ⟨m', hrun, hm', hesi⟩

end Machine

/-! ### Operators -/

theorem toInt_setWidth_byte (b : UInt8) : (b.toBitVec.setWidth 32).toInt = b.toNat := by
  have hlt : b.toBitVec.toNat < 256 := b.toBitVec.isLt
  have hnat : (b.toBitVec.setWidth 32).toNat = b.toBitVec.toNat := by
    rw [BitVec.toNat_setWidth]
    omega
  rw [BitVec.toInt_eq_toNat_of_lt (by omega), hnat]
  rfl

/-- After a comparison, the condition of a relation holds if the numbers stand in it. -/
theorem holds_signedCond (hop : op.isComparison = true) (x y : BitVec 32) (carry : Bool) :
    op.signedCond.holds (.of (x - y) carry (x.ssubOverflow y)) =
      some (op.relates x.toInt y.toInt) := by
  obtain ⟨hzero, hless⟩ := Flags.of_compare x y carry
  have hge :
      ((Flags.of (x - y) carry (x.ssubOverflow y)).sign ==
        (Flags.of (x - y) carry (x.ssubOverflow y)).overflow) = decide (y.toInt ≤ x.toInt) := by
    have hnot : ∀ a b : Bool, (a == b) = !(a != b) := by decide
    rw [hnot, hless, ← decide_not]
    exact decide_eq_decide.2 (by omega)
  cases op with
  | lt => exact congrArg some hless
  | ge => exact congrArg some hge
  | eq => exact congrArg some hzero
  | ne =>
    show some (!_) = some (decide _)
    rw [hzero]
    simp
  | le =>
    refine congrArg some (Bool.eq_iff_iff.2 ?_)
    show _ ↔ decide (x.toInt ≤ y.toInt) = true
    rw [hzero, hless]
    simp only [Bool.or_eq_true, decide_eq_true_eq]
    omega
  | gt =>
    refine congrArg some (Bool.eq_iff_iff.2 ?_)
    show _ ↔ decide (y.toInt < x.toInt) = true
    rw [hzero, hge]
    simp only [Bool.and_eq_true, Bool.not_eq_true', decide_eq_true_eq, decide_eq_false_iff_not]
    omega
  | _ => cases hop

/-- Comparing `eax` and `ecx` leaves the truth value of the relation. -/
theorem run_compare (hop : op.isComparison = true) (m : Machine) :
    ∃ m', Code.run symbol [cmp eax ecx, setcc op.signedCond eax, movzx eax al] m = some m' ∧
      m.Steady m' ∧ m'.regs eax =
        (Scalar.ofBool (op.relates (m.regs eax).toInt (m.regs ecx).toInt)).word := by
  let f : Flags := .of (m.regs eax - m.regs ecx) ((m.regs eax).usubOverflow (m.regs ecx))
    ((m.regs eax).ssubOverflow (m.regs ecx))
  let b : BitVec 8 := if op.relates (m.regs eax).toInt (m.regs ecx).toInt then 1 else 0
  let m₁ : Machine := { m with flags := some f }
  have hcmp : (cmp eax ecx).exec symbol m = some m₁ := rfl
  have hset : (setcc op.signedCond eax).exec symbol m₁ = some (m₁.put al .byte b) := by
    show (op.signedCond.holds f).bind _ = _
    rw [holds_signedCond hop]
    rfl
  refine ⟨(m₁.put al .byte b).setReg eax (b.setWidth 32), ?_, ⟨rfl, rfl, rfl⟩, ?_⟩
  · have hzero : (movzx eax al).exec symbol (m₁.put al .byte b) =
        some ((m₁.put al .byte b).setReg eax (b.setWidth 32)) := by
      show some (Machine.setReg _ eax (BitVec.setWidth 32 (BitVec.setWidth 8 (_ ++ b)))) = _
      rw [BitVec.setWidth_append, dif_pos (Nat.le_refl 8), BitVec.setWidth_eq]
    rw [Code.run_cons, hcmp, Option.bind_some, Code.run_cons, hset, Option.bind_some,
      Code.run_cons, hzero]
    rfl
  · show b.setWidth 32 = (UInt8.toBitVec (if op.relates (m.regs eax).toInt (m.regs ecx).toInt then
      1 else 0)).setWidth 32
    unfold b
    split <;> rfl

/-- The registers that a division leaves the quotient and the remainder in. -/
theorem run_divide {a b : Int32} (heax : m.regs eax = a.toBitVec) (hecx : m.regs ecx = b.toBitVec)
    (hb : b ≠ 0) (h : ¬ (a = Int32.minValue ∧ b = -1)) :
    ∃ m', Code.run symbol [bare .cdq, .instr (.unary .idiv ecx)] m = some m' ∧ m.Steady m' ∧
      m'.regs eax = (a / b).toBitVec ∧ m'.regs edx = (a % b).toBitVec := by
  let m₁ := m.setReg edx (if (m.regs eax).msb then -1 else 0)
  let m₂ : Machine :=
    { (m₁.setReg eax ((m.regs eax).sdiv b.toBitVec)).setReg edx
        ((m.regs eax).srem b.toBitVec) with flags := none }
  have hdivide : m₁.divide b.toBitVec = some m₂ := by
    refine Machine.divide_cdq rfl (fun hzero => hb (Int32.toBitVec_inj.1 hzero))
      fun ⟨hmin, hone⟩ => ?_
    exact h ⟨Int32.toBitVec_inj.1 (heax.symm.trans hmin), Int32.toBitVec_inj.1 hone⟩
  refine ⟨m₂, ?_, ⟨rfl, rfl, rfl⟩, ?_, ?_⟩
  · show (m₁.divide (m.regs ecx)).bind (Code.run symbol []) = some m₂
    rw [hecx, hdivide]
    rfl
  · show (m.regs eax).sdiv b.toBitVec = _
    rw [heax]
    exact Int32.toBitVec_div.symm
  · show (m.regs eax).srem b.toBitVec = _
    rw [heax]
    exact Int32.toBitVec_mod.symm

/-- A division that has a result. -/
theorem BinaryOp.divide_eq_ok {f : Int32 → Int32 → Int32} {a b : Int32} (h : divide f a b = .ok z) :
    b ≠ 0 ∧ ¬ (a = Int32.minValue ∧ b = -1) ∧ z = .num (f a b) := by
  unfold divide at h
  split at h
  · cases h
  · rename_i hb
    split at h
    · cases h
    · rename_i hover
      exact ⟨hb, hover, (Except.ok.inj h).symm⟩

/-- The code of an operator on two registers. -/
theorem run_arith (op : Arith) (hop : op.keeps = true) (m : Machine) :
    ∃ m', Code.run symbol [.instr (.arith op eax ecx)] m = some m' ∧ m.Steady m' ∧
      m'.regs eax = op.result (m.regs eax) (m.regs ecx) := by
  refine ⟨Machine.setReg { m with flags := op.flags (m.regs eax) (m.regs ecx) } eax
    (op.result (m.regs eax) (m.regs ecx)), ?_, ⟨rfl, rfl, rfl⟩, rfl⟩
  cases op <;> first | rfl | cases hop

/-- The code of an operator combines the values in `eax` and `ecx` as the operator does. -/
theorem run_integerCode (symbol : Label → BitVec 32) {x : Scalar} (h : op.apply x y = .ok z)
    (heax : m.regs eax = x.word) (hecx : m.regs ecx = y.word) :
    ∃ m', Code.run symbol (integerCode op) m = some m' ∧ m.Steady m' ∧ m'.regs eax = z.word := by
  have hcompare : op.isComparison = true →
      integerCode op = [cmp eax ecx, setcc op.signedCond eax, movzx eax al] →
      z = .ofBool (op.relates x.word.toInt y.word.toInt) →
      ∃ m', Code.run symbol (integerCode op) m = some m' ∧ m.Steady m' ∧ m'.regs eax = z.word := by
    intro hop hcode hz
    obtain ⟨m', hrun, hm', heax'⟩ := run_compare hop m
    rw [heax, hecx] at heax'
    exact ⟨m', hcode ▸ hrun, hm', hz ▸ heax'⟩
  have harith : ∀ o : Arith, o.keeps = true → integerCode op = [.instr (.arith o eax ecx)] →
      z.word = o.result x.word y.word →
      ∃ m', Code.run symbol (integerCode op) m = some m' ∧ m.Steady m' ∧ m'.regs eax = z.word := by
    intro o ho hcode hz
    obtain ⟨m', hrun, hm', heax'⟩ := run_arith o ho m
    rw [heax, hecx] at heax'
    exact ⟨m', hcode ▸ hrun, hm', heax'.trans hz.symm⟩
  -- letters and truth values are compared as the numbers that their bytes are
  cases x with
  | num a =>
    cases y with
    | num b =>
      cases op with
      | add => exact harith .add rfl rfl (congrArg Scalar.word (Except.ok.inj h).symm)
      | sub => exact harith .sub rfl rfl (congrArg Scalar.word (Except.ok.inj h).symm)
      | mul => exact harith .imul rfl rfl (congrArg Scalar.word (Except.ok.inj h).symm)
      | div =>
        obtain ⟨hb, hover, rfl⟩ := BinaryOp.divide_eq_ok h
        obtain ⟨m', hrun, hm', heax', -⟩ := run_divide heax hecx hb hover
        exact ⟨m', hrun, hm', heax'⟩
      | rem =>
        obtain ⟨hb, hover, rfl⟩ := BinaryOp.divide_eq_ok h
        obtain ⟨m', hrun, hm', -, hedx'⟩ := run_divide heax hecx hb hover
        refine ⟨m'.setReg eax (m'.regs edx), ?_, hm'.trans (.setEax _ _), hedx'⟩
        show Code.run symbol ([bare .cdq, .instr (.unary .idiv ecx)] ++ [mov eax edx]) m = _
        rw [Code.run_append_of_run hrun]
        rfl
      | and => cases h
      | or => cases h
      | _ => exact hcompare rfl rfl (Except.ok.inj h).symm
    | _ => cases h
  | chr a =>
    cases y with
    | chr b =>
      have hrelates : op.relates a.toNat b.toNat = op.relates (Scalar.chr a).word.toInt
          (Scalar.chr b).word.toInt := by
        rw [← toInt_setWidth_byte a, ← toInt_setWidth_byte b]
        rfl
      cases op <;> first
        | exact hcompare rfl rfl ((Except.ok.inj h).symm.trans (congrArg _ hrelates))
        | cases h
    | _ => cases h
  | bol a =>
    cases y with
    | bol b =>
      have hrelates : op.relates a.toNat b.toNat = op.relates (Scalar.bol a).word.toInt
          (Scalar.bol b).word.toInt := by
        rw [← toInt_setWidth_byte a, ← toInt_setWidth_byte b]
        rfl
      cases op with
      | and =>
        refine harith .and rfl rfl ?_
        rw [← Except.ok.inj h]
        exact BitVec.setWidth_and
      | or =>
        refine harith .or rfl rfl ?_
        rw [← Except.ok.inj h]
        exact BitVec.setWidth_or
      | eq => exact hcompare rfl rfl ((Except.ok.inj h).symm.trans (congrArg _ hrelates))
      | ne => exact hcompare rfl rfl ((Except.ok.inj h).symm.trans (congrArg _ hrelates))
      | _ => cases h
    | _ => cases h

/-! ### Variables -/

/-- A byte with zeros in front of it has its low byte left. -/
theorem setWidth_byte (x : BitVec 8) : (x.setWidth 32).setWidth 8 = x := by
  rw [BitVec.setWidth_setWidth_of_le _ (by decide), BitVec.setWidth_eq]

/-- The bits of a value that stands in memory. -/
theorem Scalar.word_of_ofWord? {τ : ScalarType} {x : BitVec (Width.ofType τ).bits}
    (h : ofWord? (x.setWidth 32) τ = some y) : y.word = x.setWidth 32 := by
  cases τ with
  | integer =>
    cases h
    rfl
  | character =>
    cases h
    exact congrArg (BitVec.setWidth 32) (setWidth_byte x)
  | boolean =>
    cases h
    exact congrArg (BitVec.setWidth 32) (setWidth_byte x)
  | decimal => cases h
  | string => cases h

/-- A byte is all there is of a character or a truth value. -/
theorem Scalar.word_of_size {x : Scalar} (h : x.ty.size = 1) :
    (x.word.setWidth 8).setWidth 32 = x.word := by
  cases x with
  | num => cases h
  | chr b => exact congrArg (BitVec.setWidth 32) (setWidth_byte b.toBitVec)
  | bol b => exact congrArg (BitVec.setWidth 32) (setWidth_byte b.toBitVec)

/-- The bits of a value that is taken for one of another type. -/
theorem Scalar.word_of_cast {x : BitVec 32} {ty : ScalarType} (h : ofWord? x ty = some y) :
    y.word = if ty.size = 1 then (x.setWidth 8).setWidth 32 else x := by
  cases ty with
  | integer => cases h; rfl
  | character => cases h; rfl
  | boolean => cases h; rfl
  | decimal => cases h
  | string => cases h

/-- What a step operator makes of a value in memory. -/
def StepOp.result {w : Width} (x : BitVec w.bits) : StepOp → BitVec w.bits
  | increment => x + 1
  | decrement => x - 1

/-- A value in memory is changed as the step operator says. -/
theorem Scalar.ofWord?_result {τ : ScalarType} {x : BitVec (Width.ofType τ).bits} {op : StepOp}
    (h : ofWord? (x.setWidth 32) τ = some y) (hz : y.step op = .ok z) :
    ofWord? ((op.result x).setWidth 32) τ = some z := by
  cases τ with
  | integer =>
    cases h
    cases hz
    have hset : ∀ b : BitVec 32, b.setWidth 32 = b := BitVec.setWidth_eq
    cases op with
    | increment =>
      exact congrArg (fun b => some (Scalar.num (.ofBitVec b)))
        ((hset _).trans (congrArg (· + 1#32) (hset x).symm))
    | decrement =>
      exact congrArg (fun b => some (Scalar.num (.ofBitVec b)))
        ((hset _).trans (congrArg (· - 1#32) (hset x).symm))
  | character =>
    cases h
    cases hz
    have hset := setWidth_byte
    cases op with
    | increment =>
      exact congrArg (fun b => some (Scalar.chr (.ofBitVec b)))
        ((hset _).trans (congrArg (· + 1#8) (hset x).symm))
    | decrement =>
      exact congrArg (fun b => some (Scalar.chr (.ofBitVec b)))
        ((hset _).trans (congrArg (· - 1#8) (hset x).symm))
  | boolean =>
    cases h
    cases hz
  | decimal => cases h
  | string => cases h

namespace Machine

variable {m m' : Machine} {s : State} {symbol : Label → BitVec 32}

/-- The operand of a variable, from a register that leads to its frame. -/
theorem exists_slot (hs : s.Spaced) {r : Resolved} {v : Variable}
    (hlook : s.tree.lookupVariable s.current name = some (r, v)) (base : Reg) :
    ∃ a, Mem.slot base v.slot = .ok a ∧ a.width = some (.ofType v.ty) ∧
      ∀ m : Machine, m.address a = v.address (m.regs base) := by
  obtain ⟨hr, hv⟩ := ScopeTree.lookupVariable_eq_some hlook
  have hplaced := (hs.of_path hr).placed v (List.mem_of_find?_eq_some hv)
  obtain ⟨d, hd⟩ := hplaced.disp
  have hslot : Mem.slot base v.slot = .ok ⟨base, none, d, Width.ofSize? v.slot.size⟩ := by
    unfold Mem.slot
    rw [hd]
    rfl
  refine ⟨_, hslot, ?_, fun m => (m.address_slot hslot).1⟩
  show Width.ofSize? v.slot.size = _
  rw [hplaced.size]
  cases v.ty <;> rfl

/-- A value in memory is changed by one. -/
theorem exec_step (m : Machine) (op : StepOp) {a : Mem} {w : Width} (hw : a.width = some w) :
    ∃ flags, Line.exec symbol m (.instr (.unary op.unary a)) =
      some (store { m with flags := flags } (m.address a) w
        (op.result (m.load (m.address a) w))) := by
  obtain ⟨base, index, disp, width⟩ := a
  obtain rfl : width = some w := hw
  cases op with
  | increment => cases w <;> exact ⟨_, rfl⟩
  | decrement => cases w <;> exact ⟨_, rfl⟩

theorem mem_store_congr (h : m'.mem = m.mem) (a : BitVec 32) (w : Width) (x : BitVec w.bits) :
    (m'.store a w x).mem = (m.store a w x).mem := by
  unfold Machine.store
  rw [h]

/-- Code that changes a variable. -/
theorem Yields.of_store (hs : s.Spaced) (hm : m.Framed s.tree s.current) {r : Resolved}
    {v : Variable} (hlook : s.tree.lookupVariable s.current name = some (r, v))
    {x : BitVec (Width.ofType v.ty).bits}
    (hy : Scalar.ofWord? (x.setWidth 32) v.ty = some y) (hebp : m'.regs ebp = m.regs ebp)
    (hesp : m'.regs esp = m.regs esp)
    (hmem : m'.mem = (m.store (v.address (m.frame r.depth)) (.ofType v.ty) x).mem)
    (hvalue : m'.regs eax = z.word) :
    Yields s.tree s.current [name] m m' z ((m.values s.tree s.current).write name y) where
  value := hvalue
  frame := hebp
  stack := hesp
  store := hm.values_store hs hlook hy hebp hmem
  memory a _ ha := by
    obtain ⟨hr, hv⟩ := ScopeTree.lookupVariable_eq_some hlook
    rw [hmem]
    refine mem_store_of_le _ _ _ _ ?_
    rw [Width.bytes_ofType, ← ((hs.of_path hr).placed v (List.mem_of_find?_eq_some hv)).size]
    exact Nat.le_of_not_lt fun hcovers => ha name (List.mem_singleton_self _) ⟨r, v, hlook, hcovers⟩

end Machine

/-- An action of the compiler that gives code for the value `x`, and leaves the state of the
compiler as it is. -/
def Lower.Computes (action : Lower Lowered) (symbol : Label → BitVec 32) (s : State)
    (names : List String) (m : Machine) (x : Scalar) (σ : Store) : Prop :=
  ∃ v, action s = .ok v s ∧ v.ty = x.ty ∧
    ∃ m', Code.run symbol v.code m = some m' ∧ Machine.Yields s.tree s.current names m m' x σ

namespace Lower

variable {symbol : Label → BitVec 32} {s : State} {m : Machine} {names : List String}
  {x y z : Scalar} {σ : Store}

/-- A variable is read where it lies. -/
theorem readVariable_computes (hs : s.Spaced) (hx : (m.values s.tree s.current).read name = .ok x)
    (l : Location) :
    (readVariable name l).Computes symbol s [] m x (m.values s.tree s.current) := by
  obtain ⟨r, v, hlook, hscalar⟩ := Machine.read_values_eq_ok.1 hx
  obtain ⟨hr, hv⟩ := ScopeTree.lookupVariable_eq_some hlook
  obtain ⟨a, hslot, hwidth, haddress⟩ := Machine.exists_slot hs hlook (Convention.chase r.depth).2
  have hty : x.ty = v.ty := Scalar.ty_ofWord? hscalar
  have hcell : v.sizeCell = none := by
    rw [← Option.not_isSome_iff_eq_none,
      ((hs.of_path hr).placed v (List.mem_of_find?_eq_some hv)).cell, ← hty]
    cases x <;> exact Bool.false_ne_true
  have hsize : loadSize (Convention.chase r.depth).2 v s = .ok [] s := by
    unfold loadSize
    rw [hcell]
    rfl
  obtain ⟨m₁, hrun, hm₁, hbase⟩ := Machine.run_chase symbol m r.depth
  refine ⟨⟨v.ty, v.lent, (Convention.chase r.depth).1 ++ [load eax a] ++ []⟩, ?_, hty.symm,
    m₁.setReg eax ((m₁.load (m₁.address a) (.ofType v.ty)).setWidth 32), ?_, ?_⟩
  · exact bind_eq_ok.2 ⟨_, _, resolveVariable_eq_ok.2 ⟨hlook, rfl⟩,
      bind_eq_ok.2 ⟨_, _, checked_eq_ok.2 ⟨hslot, rfl⟩, bind_eq_ok.2 ⟨_, _, hsize, rfl⟩⟩⟩
  · rw [List.append_nil, Code.run_append_of_run hrun, Code.run_cons, Machine.exec_load m₁ hwidth]
    rfl
  · refine .of_steady (hm₁.trans (.setEax _ _)) ?_ _
    show (m₁.load (m₁.address a) (.ofType v.ty)).setWidth 32 = x.word
    rw [haddress, hbase, hm₁.load]
    exact (Scalar.word_of_ofWord? hscalar).symm

/-- A variable is changed where it lies. -/
theorem stepVariable_computes (hs : s.Spaced) (hm : m.Framed s.tree s.current)
    (hx : (m.values s.tree s.current).read name = .ok x) {op : StepOp} (hy : x.step op = .ok y)
    (fixity : Fixity) (l : Location) :
    (stepVariable name op fixity l).Computes symbol s [name] m
      (match fixity with | .leading => y | .trailing => x)
      ((m.values s.tree s.current).write name y) := by
  obtain ⟨r, v, hlook, hscalar⟩ := Machine.read_values_eq_ok.1 hx
  obtain ⟨a, hslot, hwidth, haddress⟩ := Machine.exists_slot hs hlook (Convention.chase r.depth).2
  have hty : x.ty = v.ty := Scalar.ty_ofWord? hscalar
  have hscalar' := Scalar.ofWord?_result hscalar hy
  have hallowed : ¬ (v.ty ≠ .integer ∧ v.ty ≠ .character) := by
    rw [← hty]
    cases x with
    | num => exact fun h => h.1 rfl
    | chr => exact fun h => h.2 rfl
    | bol => cases hy
  obtain ⟨m₁, hrun, hm₁, hbase⟩ := Machine.run_chase symbol m r.depth
  -- the base register is not the one that the value goes to
  have hne : (Convention.chase r.depth).2 ≠ eax := by
    unfold Convention.chase
    split <;> nofun
  have hload : ∀ m' : Machine, m'.regs (Convention.chase r.depth).2 = m.frame r.depth →
      (load eax a).exec symbol m' =
        some (m'.setReg eax ((m'.load (v.address (m.frame r.depth)) (.ofType v.ty)).setWidth
          32)) := by
    intro m' hbase'
    rw [Machine.exec_load m' hwidth, haddress, hbase']
  have hchange :
      ∀ m' : Machine, m.Steady m' → m'.regs (Convention.chase r.depth).2 = m.frame r.depth →
      ∃ m'', Line.exec symbol m' (.instr (.unary op.unary a)) = some m'' ∧ m''.regs = m'.regs ∧
        m''.mem = (m.store (v.address (m.frame r.depth)) (.ofType v.ty)
          (op.result (m.load (v.address (m.frame r.depth)) (.ofType v.ty)))).mem := by
    intro m' hm' hbase'
    obtain ⟨flags, hexec⟩ := m'.exec_step op hwidth
    refine ⟨_, hexec, rfl, ?_⟩
    rw [haddress, hbase', hm'.load]
    exact Machine.mem_store_congr hm'.mem _ _ _
  have haction : ∀ code, (fixity = .leading → code = [.instr (.unary op.unary a), load eax a]) →
      (fixity = .trailing → code = [load eax a, .instr (.unary op.unary a)]) →
      stepVariable name op fixity l s =
        .ok (.plain v.ty ((Convention.chase r.depth).1 ++ code)) s := by
    intro code hleading htrailing
    refine bind_eq_ok.2 ⟨_, _, resolveVariable_eq_ok.2 ⟨hlook, rfl⟩, ?_⟩
    dsimp only
    rw [if_neg hallowed]
    refine bind_eq_ok.2 ⟨_, _, checked_eq_ok.2 ⟨hslot, rfl⟩, ?_⟩
    cases fixity with
    | leading => rw [hleading rfl]; rfl
    | trailing => rw [htrailing rfl]; rfl
  cases fixity with
  | leading =>
    obtain ⟨m₂, hexec, hregs, hmem⟩ := hchange m₁ hm₁ hbase
    refine ⟨_, haction _ (fun _ => rfl) nofun, (Scalar.ty_ofWord? hscalar').symm,
      m₂.setReg eax ((m₂.load (v.address (m.frame r.depth)) (.ofType v.ty)).setWidth 32), ?_, ?_⟩
    · refine (Code.run_append_of_run hrun).trans ?_
      rw [Code.run_cons, hexec, Option.bind_some, Code.run_cons,
        hload m₂ ((congrFun hregs _).trans hbase)]
      rfl
    · refine .of_store hs hm hlook hscalar' ((congrFun hregs ebp).trans hm₁.ebp)
        ((congrFun hregs esp).trans hm₁.esp) hmem ?_
      show (m₂.load (v.address (m.frame r.depth)) (.ofType v.ty)).setWidth 32 = y.word
      rw [Machine.load_congr fun b _ => congrFun hmem b, Machine.load_store]
      exact (Scalar.word_of_ofWord? hscalar').symm
  | trailing =>
    let m₂ := m₁.setReg eax ((m₁.load (v.address (m.frame r.depth)) (.ofType v.ty)).setWidth 32)
    obtain ⟨m₃, hexec, hregs, hmem⟩ :=
      hchange m₂ (hm₁.trans (.setEax _ _)) ((if_neg hne).trans hbase)
    refine ⟨_, haction _ nofun (fun _ => rfl), hty.symm, m₃, ?_, ?_⟩
    · refine (Code.run_append_of_run hrun).trans ?_
      rw [Code.run_cons, hload m₁ hbase, Option.bind_some, Code.run_cons, hexec]
      rfl
    · refine .of_store hs hm hlook hscalar' ((congrFun hregs ebp).trans hm₁.ebp)
        ((congrFun hregs esp).trans hm₁.esp) hmem ?_
      rw [hregs]
      show (m₁.load (v.address (m.frame r.depth)) (.ofType v.ty)).setWidth 32 = x.word
      rw [hm₁.load]
      exact (Scalar.word_of_ofWord? hscalar).symm

/-- A constant is loaded as it is. -/
theorem literal_computes {v : Literal} {code : Code}
    (haction : literal v s = .ok (.plain x.ty code) s)
    (hrun : Code.run symbol code m = some (m.setReg eax x.word)) :
    (literal v).Computes symbol s names m x (m.values s.tree s.current) :=
  ⟨_, haction, rfl, _, hrun, .of_steady (.setEax m _) rfl _⟩

/-- A sign is applied in `eax`. -/
theorem applySign_computes {v : Lowered} {sign : Sign} {m₁ : Machine} (hv : v.ty = x.ty)
    (hy : x.signed sign = .ok y)
    (hrun : Code.run symbol v.code m = some m₁)
    (hm₁ : Machine.Yields s.tree s.current names m m₁ x σ) (l : Location) :
    (applySign sign v l).Computes symbol s names m y σ := by
  obtain ⟨n, rfl⟩ : ∃ n, x = .num n := by
    cases x with
    | num n => exact ⟨n, rfl⟩
    | chr => cases hy
    | bol => cases hy
  have hint : v.ty = .integer := hv
  unfold applySign Lower.Computes
  rw [hint]
  cases sign with
  | plus =>
    cases hy
    exact ⟨_, rfl, rfl, m₁, hrun, hm₁⟩
  | minus =>
    cases hy
    refine ⟨_, rfl, rfl, Machine.setReg
      { m₁ with flags := some (.of (-m₁.regs eax) (m₁.regs eax != 0)
        (m₁.regs eax).negOverflow) } eax (-m₁.regs eax), ?_, hm₁.steady ⟨rfl, rfl, rfl⟩ ?_⟩
    · exact Code.run_append_of_run hrun
    · show -m₁.regs eax = _
      rw [hm₁.value]
      exact (Int32.toBitVec_neg n).symm

/-- A cast keeps the bits that its type has room for. -/
theorem applyCast_computes {v : Lowered} {ty : ScalarType} {m₁ : Machine} (hv : v.ty = x.ty)
    (hy : x.cast ty = .ok y)
    (hrun : Code.run symbol v.code m = some m₁)
    (hm₁ : Machine.Yields s.tree s.current names m m₁ x σ) (l : Location) :
    (applyCast v ty .immediate l).Computes symbol s names m y σ := by
  obtain ⟨z, hz, rfl⟩ : ∃ z, Scalar.ofWord? x.word ty = some z ∧ z = y := by
    unfold Scalar.cast at hy
    cases hz : Scalar.ofWord? x.word ty with
    | none =>
      rw [hz] at hy
      cases hy
    | some z =>
      rw [hz] at hy
      exact ⟨z, rfl, Except.ok.inj hy⟩
  have hheap : ty.isHeap = false := by cases ty <;> first | rfl | cases hz
  refine ⟨_, rfl, (Scalar.ty_ofWord? hz).symm, ?_⟩
  show ∃ m', Code.run symbol (v.code ++ (if ty.size = 1 ∧ v.ty.size ≠ 1 then [movzx eax al] else [])
    ++ (if ty.isHeap then [xor edx edx] else [])) m = some m' ∧ _
  rw [hheap, if_neg Bool.false_ne_true, List.append_nil, hv, Code.run_append_of_run hrun]
  have hword := Scalar.word_of_cast hz
  by_cases hnarrow : ty.size = 1 ∧ x.ty.size ≠ 1
  · rw [if_pos hnarrow]
    rw [if_pos hnarrow.1] at hword
    refine ⟨m₁.setReg eax (((m₁.regs eax).setWidth 8).setWidth 32), rfl,
      hm₁.steady (.setEax _ _) ?_⟩
    rw [hword, ← hm₁.value]
    rfl
  · -- a byte is not narrowed again, and a number has room for every bit
    rw [if_neg hnarrow]
    refine ⟨m₁, rfl, hm₁.steady (.refl _) (hm₁.value.trans ?_)⟩
    by_cases hsize : ty.size = 1
    · rw [if_pos hsize] at hword
      rw [hword, Scalar.word_of_size (Decidable.not_not.1 fun h => hnarrow ⟨hsize, h⟩)]
    · rw [hword, if_neg hsize]

end Lower

/-! ### Values that wait on the stack -/

namespace Machine

variable {m m₁ m₃ : Machine} {s : State} {symbol : Label → BitVec 32} {names names' : List String}
  {x y : Scalar} {σ τ : Store}

theorem Yields.framed (hs : s.Spaced) (hm : m.Framed s.tree s.current)
    (h : Yields s.tree s.current names m m₁ x σ) : m₁.Framed s.tree s.current :=
  hm.keeps hs names h.frame (Nat.le_of_eq (congrArg BitVec.toNat h.stack)) h.memory

/-- The bytes of a variable are the same as long as frames stay where they are. -/
theorem covers_iff_of_frame {t : ScopeTree} {i : ScopeId}
    (h : ∀ k ≤ (t.path i).length, m₁.frame k = m.frame k)
    (name : String) (a : BitVec 32) : m₁.Covers t i name a ↔ m.Covers t i name a := by
  have hframe :
      ∀ r v, t.lookupVariable i name = some (r, v) → m₁.frame r.depth = m.frame r.depth := by
    intro r v hlook
    exact h _
      (Nat.le_of_lt (List.getElem?_eq_some_iff.1 (ScopeTree.lookupVariable_eq_some hlook).1).1)
  constructor
  · rintro ⟨r, v, hlook, hcovers⟩
    exact ⟨r, v, hlook, hframe r v hlook ▸ hcovers⟩
  · rintro ⟨r, v, hlook, hcovers⟩
    exact ⟨r, v, hlook, (hframe r v hlook).symm ▸ hcovers⟩

theorem Framed.le_of_covers_name (hs : s.Spaced) (hm : m.Framed s.tree s.current) {a : BitVec 32}
    (h : m.Covers s.tree s.current name a) : (m.regs esp).toNat ≤ a.toNat := by
  obtain ⟨r, v, hlook, hcovers⟩ := h
  obtain ⟨hr, hv⟩ := ScopeTree.lookupVariable_eq_some hlook
  exact hm.le_of_covers hs hr (List.mem_of_find?_eq_some hv) hcovers

section Push

variable (hroom : 4 ≤ (m.regs esp).toNat) (w : BitVec 32)
include hroom

theorem toNat_esp_push : ((m.push w).regs esp).toNat + 4 = (m.regs esp).toNat := by
  show (m.regs esp - 4#32).toNat + 4 = _
  rw [BitVec.toNat_sub, BitVec.toNat_ofNat]
  have hlt := (m.regs esp).isLt
  omega

/-- A value is pushed below everything else. -/
theorem mem_push {a : BitVec 32} (ha : (m.regs esp).toNat ≤ a.toNat) :
    (m.push w).mem a = m.mem a := by
  refine mem_store_of_le _ _ .dword _ ?_
  show 4 ≤ (a - (m.regs esp - 4#32)).toNat
  have hlt := a.isLt
  rw [BitVec.toNat_sub, BitVec.toNat_sub, BitVec.toNat_ofNat]
  omega

theorem frame_push (hs : s.Spaced) (hm : m.Framed s.tree s.current) :
    ∀ k ≤ (s.tree.path s.current).length, (m.push w).frame k = m.frame k :=
  hm.frame_eq hs [] rfl fun _ ha _ => mem_push hroom w ha

theorem Framed.push (hs : s.Spaced) (hm : m.Framed s.tree s.current) :
    (m.push w).Framed s.tree s.current := by
  have hesp := toNat_esp_push hroom w
  exact hm.keeps hs [] rfl (by omega) fun _ ha _ => mem_push hroom w ha

theorem values_push (hs : s.Spaced) (hm : m.Framed s.tree s.current) :
    (m.push w).values s.tree s.current = m.values s.tree s.current :=
  hm.values_eq hs rfl fun _ ha => mem_push hroom w ha

end Push

variable (symbol) in
/-- The left value waits on the stack while the right one is computed; then both meet in `eax` and
`ecx`. -/
theorem Yields.meet (hs : s.Spaced) (hm : m.Framed s.tree s.current)
    (hroom : 4 ≤ (m.regs esp).toNat) (hleft : Yields s.tree s.current names m m₁ x σ)
    (hright : Yields s.tree s.current names' (m₁.push (m₁.regs eax)) m₃ y τ) :
    ∃ m₄, Code.run symbol [mov ecx eax, Asm.pop eax] m₃ = some m₄ ∧
      Yields s.tree s.current (names ++ names') m m₄ x τ ∧ m₄.regs ecx = y.word := by
  have hm₁ := hleft.framed hs hm
  have hroom₁ : 4 ≤ (m₁.regs esp).toNat := hleft.stack ▸ hroom
  have hesp := toNat_esp_push hroom₁ (m₁.regs eax)
  have hpush := frame_push hroom₁ (m₁.regs eax) hs hm₁
  have hframe : ∀ k ≤ (s.tree.path s.current).length, (m₁.push (m₁.regs eax)).frame k = m.frame k :=
    fun k hk =>
    (hpush k hk).trans (hm.frame_eq hs names hleft.frame hleft.memory k hk)
  have hesp₃ : m₃.regs esp = m₁.regs esp - 4 := hright.stack
  -- nothing that the right operand may change reaches the waiting value
  have hwaiting : m₃.load (m₃.regs esp) .dword = m₁.regs eax := by
    rw [hesp₃, ← load_store (m₁.setReg esp (m₁.regs esp - 4)) (m₁.regs esp - 4) .dword
      (m₁.regs eax)]
    refine load_congr fun b hb => ?_
    have hb : (b - (m₁.regs esp - 4#32)).toNat < 4 := hb
    have hlt := b.isLt
    rw [BitVec.toNat_sub, BitVec.toNat_sub, BitVec.toNat_ofNat] at hb
    refine hright.memory b ?_ fun name _ hcovers => ?_
    · omega
    · have hle := hm₁.le_of_covers_name hs ((covers_iff_of_frame hpush name b).1 hcovers)
      omega
  let m₄ := (m₃.setReg ecx (m₃.regs eax)).pop eax
  have hesp₄ : m₄.regs esp = m.regs esp := by
    show m₃.regs esp + 4 = _
    rw [hesp₃, hleft.stack, BitVec.sub_add_cancel]
  have hebp₄ : m₄.regs ebp = m₃.regs ebp := rfl
  refine ⟨m₄, rfl, ⟨?_, ?_, hesp₄, ?_, fun a ha hnames => ?_⟩, hright.value⟩
  · show m₃.load (m₃.regs esp) .dword = x.word
    rw [hwaiting, hleft.value]
  · exact hebp₄.trans (hright.frame.trans hleft.frame)
  · have hvalues : m₄.values s.tree s.current = m₃.values s.tree s.current :=
      ((hm₁.push hroom₁ _ hs).keeps hs names' hright.frame
        (Nat.le_of_eq (congrArg BitVec.toNat hright.stack))
        hright.memory).values_eq hs rfl fun _ _ => rfl
    exact hvalues.trans hright.store
  · have hle : (m₁.regs esp).toNat ≤ a.toNat := hleft.stack ▸ ha
    calc m₄.mem a = m₃.mem a := rfl
      _ = (m₁.push (m₁.regs eax)).mem a := by
        refine hright.memory a (by omega) fun name hname hcovers => ?_
        exact hnames name (List.mem_append_right _ hname)
          ((covers_iff_of_frame hframe name a).1 hcovers)
      _ = m₁.mem a := mem_push hroom₁ _ hle
      _ = m.mem a := hleft.memory a ha fun name hname => hnames name (List.mem_append_left _ hname)

end Machine

/-- Two values that an operator combines are of one type, which it accepts. -/
theorem BinaryOp.accepts_of_apply {x : Scalar} (h : op.apply x y = .ok z) :
    y.ty = x.ty ∧ op.accepts x.ty = true ∧ z.ty = op.resultType x.ty := by
  cases x with
  | num a =>
    cases y with
    | num b =>
      cases op with
      | div =>
        obtain ⟨-, -, rfl⟩ := divide_eq_ok h
        exact ⟨rfl, rfl, rfl⟩
      | rem =>
        obtain ⟨-, -, rfl⟩ := divide_eq_ok h
        exact ⟨rfl, rfl, rfl⟩
      | and => cases h
      | or => cases h
      | _ =>
        cases h
        exact ⟨rfl, rfl, rfl⟩
    | _ => cases h
  | chr a =>
    cases y with
    | chr b =>
      cases op <;> cases h <;> exact ⟨rfl, rfl, rfl⟩
    | _ => cases h
  | bol a =>
    cases y with
    | bol b =>
      cases op <;> cases h <;> exact ⟨rfl, rfl, rfl⟩
    | _ => cases h

open Stop in
theorem Node.evaluate_computesCases (symbol : Label → BitVec 32) :
    ExpressionCases
      (fun e => ∀ s m x σ, s.Spaced → m.Framed s.tree s.current →
        4 * e.waiting ≤ (m.regs esp).toNat →
        e.meaning (m.values s.tree s.current) = .ok (x, σ) →
        e.evaluate.Computes symbol s e.stepped m x σ) (fun _ => True) where
  constant := by
    intro form v l hv s m x σ _ _ _ h
    rw [Node.evaluate_literal hv]
    cases form with
    | number n =>
      cases hv
      cases h
      refine literal_computes rfl (congrArg (fun w => some (m.setReg eax w)) ?_)
      exact BitVec.ofInt_toInt
    | char b =>
      cases hv
      cases h
      refine literal_computes rfl (congrArg (fun w => some (m.setReg eax w)) ?_)
      exact (BitVec.ofInt_natCast 32 b.toNat).trans (BitVec.ofNat_toNat 32 b.toBitVec)
    | bool b =>
      cases hv
      cases h
      cases b <;> exact literal_computes rfl rfl
    | decimal => cases h
    | str => cases h
    | _ => cases hv
  var := by
    intro name l s m x σ hs _ _ h
    unfold Node.meaning at h
    obtain ⟨y, hy, h⟩ := bind_eq_ok.1 h
    cases h
    unfold Node.evaluate
    exact readVariable_computes hs hy l
  binary := by
    intro op left right l hleft hright s m z σ hs hm hroom h
    unfold Node.waiting at hroom
    unfold Node.meaning at h
    obtain ⟨⟨x, σ₁⟩, hx, h⟩ := bind_eq_ok.1 h
    obtain ⟨⟨y, σ₂⟩, hy, h⟩ := bind_eq_ok.1 h
    obtain ⟨w, hw, h⟩ := bind_eq_ok.1 h
    cases h
    obtain ⟨a, ha, haty, m₁, hrun₁, hm₁⟩ := hleft s m x σ₁ hs hm (by omega) hx
    have hframed := hm₁.framed hs hm
    have hroom₁ : 4 ≤ (m₁.regs esp).toNat := by
      rw [hm₁.stack]
      omega
    have hesp := Machine.toNat_esp_push hroom₁ (m₁.regs eax)
    have hesp₁ := congrArg BitVec.toNat hm₁.stack
    obtain ⟨b, hb, hbty, m₃, hrun₃, hm₃⟩ :=
      hright s (m₁.push (m₁.regs eax)) y σ hs (hframed.push hroom₁ _ hs)
      (by omega) (by rw [Machine.values_push hroom₁ _ hs hframed, hm₁.store]; exact hy)
    obtain ⟨m₄, hrun₄, hm₄, hecx⟩ := hm₁.meet symbol hs hm (by omega) hm₃
    obtain ⟨m₅, hrun₅, hm₅, heax⟩ := run_integerCode symbol hw hm₄.value hecx
    obtain ⟨hyx, haccepts, hz⟩ := BinaryOp.accepts_of_apply hw
    refine ⟨.plain (op.resultType x.ty) (a.code ++ [push eax] ++ b.code ++ [mov ecx eax, pop eax] ++
      integerCode op), ?_, hz.symm, m₅, ?_, hm₄.steady hm₅ heax⟩
    · unfold Node.evaluate
      refine Lower.bind_eq_ok.2 ⟨a, s, ha, Lower.bind_eq_ok.2 ⟨b, s, hb, ?_⟩⟩
      unfold Lower.combine
      rw [haty, hbty, hyx, if_neg (not_not_intro rfl), if_neg fun hstr => ?_, haccepts,
        if_neg (by decide), if_neg Scalar.ty_ne_decimal]
      · rfl
      · cases x <;> cases hstr.1
    · show Code.run symbol (a.code ++ [push eax] ++ b.code ++ [mov ecx eax, pop eax] ++
        integerCode op) m = some m₅
      have hrun₂ : Code.run symbol [push eax] m₁ = some (m₁.push (m₁.regs eax)) := rfl
      rw [List.append_assoc, List.append_assoc, List.append_assoc, Code.run_append_of_run hrun₁,
        Code.run_append_of_run hrun₂, Code.run_append_of_run hrun₃,
        Code.run_append_of_run hrun₄, hrun₅]
  signed := by
    intro sign value l hvalue s m y σ hs hm hroom h
    unfold Node.meaning at h
    obtain ⟨⟨x, σ₁⟩, hx, h⟩ := bind_eq_ok.1 h
    obtain ⟨w, hw, h⟩ := bind_eq_ok.1 h
    cases h
    obtain ⟨v, hv, hty, m₁, hrun, hm₁⟩ := hvalue s m x σ hs hm hroom hx
    obtain ⟨u, hu, huty, m₂, hrun₂, hm₂⟩ := applySign_computes hty hw hrun hm₁ l
    refine ⟨u, ?_, huty, m₂, hrun₂, hm₂⟩
    unfold Node.evaluate
    exact Lower.bind_eq_ok.2 ⟨v, s, hv, hu⟩
  step := by
    intro name op fixity l s m z σ hs hm _ h
    unfold Node.meaning at h
    obtain ⟨x, hx, h⟩ := bind_eq_ok.1 h
    obtain ⟨y, hy, h⟩ := bind_eq_ok.1 h
    cases h
    unfold Node.evaluate
    exact stepVariable_computes hs hm hx hy fixity l
  call := by
    intro name args l _ s m x σ _ _ _ h
    cases h
  addressOf := by
    intro name l s m x σ _ _ _ h
    cases h
  cast := by
    intro value ty mode l hvalue s m y σ hs hm hroom h
    cases mode with
    | deref => cases h
    | immediate =>
      unfold Node.meaning at h
      obtain ⟨⟨x, σ₁⟩, hx, h⟩ := bind_eq_ok.1 h
      obtain ⟨w, hw, h⟩ := bind_eq_ok.1 h
      cases h
      obtain ⟨v, hv, hty, m₁, hrun, hm₁⟩ := hvalue s m x σ hs hm hroom hx
      obtain ⟨u, hu, huty, m₂, hrun₂, hm₂⟩ := applyCast_computes hty hw hrun hm₁ l
      refine ⟨u, ?_, huty, m₂, hrun₂, hm₂⟩
      unfold Node.evaluate
      exact Lower.bind_eq_ok.2 ⟨v, s, hv, hu⟩
  misplaced := by
    intro form l hform s m x σ _ _ _ h
    rw [Node.meaning_misplaced hform] at h
    cases h
  nil := trivial
  cons _ _ := trivial

/-- Running the code of an expression yields its meaning. -/
theorem Node.evaluate_computes {e : Node} {s : State} (hs : s.Spaced) (symbol : Label → BitVec 32)
    (hm : m.Framed s.tree s.current) (hroom : 4 * e.waiting ≤ (m.regs esp).toNat) {x : Scalar}
    {σ : Store} (h : e.meaning (m.values s.tree s.current) = .ok (x, σ)) :
    e.evaluate.Computes symbol s e.stepped m x σ :=
  (Node.evaluate_computesCases symbol).node e s m x σ hs hm hroom h

/-! ### Expressions at a place of a compilation -/

/-- The variables in memory have the types that the rules give them. -/
theorem Machine.types_values (m : Machine) (s : State) :
    (m.values s.tree s.current).types = s.context.scalars := by
  have hscalar :
      ∀ (f : BitVec 32) (v : Variable), (m.scalar? f v).map Scalar.ty = v.ty.scalar? := by
    intro f v
    unfold Machine.scalar?
    cases v.ty <;> rfl
  unfold Store.types Machine.values Context.scalars State.context ScopeTree.around
  refine List.ext_getElem? fun k => ?_
  simp only [List.getElem?_map, List.getElem?_mapIdx, Option.map_map]
  refine congrArg (Option.map · _) (funext fun j => ?_)
  show ((m.layer (m.frame k) (s.tree.scope j)).map fun y => (y.1, y.2.map Scalar.ty)) =
    ((s.tree.scope j).vars.map fun v => (v.name, v.ty)).map fun y => (y.1, y.2.scalar?)
  unfold Machine.layer
  rw [List.map_map, List.map_map]
  refine List.map_congr_left fun v _ => ?_
  show (v.name, (m.scalar? (m.frame k) v).map Scalar.ty) = (v.name, v.ty.scalar?)
  rw [hscalar]

/-- Scalar expressions keep their meaning.  At every place of a compilation, a well-typed expression
of numbers, characters and truth values is compiled, and its code runs to its end on every machine
whose frames are in place, unless a division has no result.  Then the value is in `eax`; the frame
and the stack are as before; and the variables have the values that the expression leaves them with,
all other memory from the stack pointer on being untouched.  The stack has to have room for the
values that wait there. -/
theorem scalar_expressions_keep_meaning {p : Program} {session : Session} {comments : Bool}
    {ev : Event} {s : State}
    (hev : ev ∈ p.trace session comments) (hs : ev.state? = some s) {e : Node} {τ : ScalarType}
    (hτ : HasType s.context e τ) (he : e.IsScalar s.context) (symbol : Label → BitVec 32)
    {m : Machine} (hm : m.Framed s.tree s.current) (hroom : 4 * e.waiting ≤ (m.regs esp).toNat)
    (hzero : e.meaning (m.values s.tree s.current) ≠ .error .divisionByZero)
    (hover : e.meaning (m.values s.tree s.current) ≠ .error .quotientOverflow) :
    ∃ x σ v m', e.meaning (m.values s.tree s.current) = .ok (x, σ) ∧ x.ty = τ ∧
      e.evaluate s = .ok v s ∧ v.ty = τ ∧
      Code.run symbol v.code m = some m' ∧ Machine.Yields s.tree s.current e.stepped m m' x σ := by
  have hspaced := Program.spaced_of_mem_trace hev hs
  rcases Node.meaning_of_hasType hτ he (m.types_values s) with ⟨x, σ, hx, hty, -⟩ | hnone | hnone
  · obtain ⟨v, hv, hvty, m', hrun, hm'⟩ := Node.evaluate_computes hspaced symbol hm hroom hx
    exact ⟨x, σ, v, m', hx, hty, hv, hvty.trans hty, hrun, hm'⟩
  · exact absurd hnone hzero
  · exact absurd hnone hover

/-- A number and a letter at the top, a truth value in a loop, and a block in it. -/
def nested : Program :=
  ⟨[.unplaced (.declare "n" .integer none), .unplaced (.declare "c" .character none),
    .unplaced (.whileLoop (.unplaced (.bool true))
      [.unplaced (.declare "b" .boolean none),
        .unplaced (.conditional (.unplaced (.bool true)) [] .absent)])]⟩

/-- `((num) c++ - -n) / 3 < --n && b`. -/
def weighed : Node :=
  .unplaced (.binary .and
    (.unplaced (.binary .lt
      (.unplaced (.binary .div
        (.unplaced (.binary .sub
          (.unplaced (.cast (.unplaced (.step "c" .increment .trailing)) .integer .immediate))
          (.unplaced (.signed .minus (.unplaced (.var "n"))))))
        (.unplaced (.number 3))))
      (.unplaced (.step "n" .decrement .leading))))
    (.unplaced (.var "b")))

/-- A machine with a frame at 4000, the next one outwards at 5000, and the last one at 6000.  In the
last one are the number 250 and the letter 255, in the one before it a truth value that is neither 0
nor 1. -/
def threeFrames : Machine where
  regs r := match r with
    | .ebp => 4000
    | .esp => 3000
    | _ => 0
  flags := none
  down := false
  mem a := match a.toNat with
    | 4000 => 0x88
    | 4001 => 0x13
    | 5000 => 0x70
    | 5001 => 0x17
    | 5996 => 250
    | 5995 => 255
    | 4999 => 3
    | _ => 0

/-- The frames of the machine belong to scopes that have few bytes reserved. -/
theorem threeFrames_framed {t : ScopeTree} {i : ScopeId}
    (h : (t.path i).map (fun j => (t.scope j).used) = [0, 1, 5]) : threeFrames.Framed t i := by
  have hused :
      ∀ k j : Nat, (t.path i)[k]? = some j → k < 3 ∧ (t.scope j).used = [0, 1, 5].getD k 0 := by
    intro k j hj
    have hk : [0, 1, 5][k]? = some (t.scope j).used := by
      rw [← h, List.getElem?_map, hj]
      rfl
    refine ⟨(List.getElem?_eq_some_iff.1 hk).1, ?_⟩
    rw [List.getD_eq_getElem?_getD, hk]
    rfl
  have hframe : ∀ k < 3, (threeFrames.frame k).toNat = [4000, 5000, 6000].getD k 0 := by decide
  refine ⟨fun k j hj => ?_, fun k k' j j' hne hj hj' => ?_⟩
  · obtain ⟨hk, hj⟩ := hused k j hj
    rw [hj, hframe k hk]
    have hall : ∀ k < 3, 3000 + [0, 1, 5].getD k 0 ≤ [4000, 5000, 6000].getD k 0 ∧
        [4000, 5000, 6000].getD k 0 + 4 ≤ 2 ^ 32 := by decide
    exact hall k hk
  · obtain ⟨hk, hj⟩ := hused k j hj
    obtain ⟨hk', hj'⟩ := hused k' j' hj'
    rw [hj, hj', hframe k hk, hframe k' hk']
    have hall : ∀ k < 3, ∀ k' < 3, k ≠ k' →
        [4000, 5000, 6000].getD k 0 + 4 + [0, 1, 5].getD k' 0 ≤ [4000, 5000, 6000].getD k' 0 ∨
          [4000, 5000, 6000].getD k' 0 + 4 + [0, 1, 5].getD k 0 ≤ [4000, 5000, 6000].getD k 0 := by
      decide
    exact hall k hk k' hk' hne

/-- In the innermost block, the letter wraps around, and the truth values are combined bit by
bit. -/
theorem scalar_expressions_keep_meaning_nested :
    ∃ ev s v m', ev ∈ nested.trace .empty false ∧ ev.state? = some s ∧
    weighed.evaluate s = .ok v s ∧ Code.run (fun _ => 0) v.code threeFrames = some m' ∧
    Machine.Yields s.tree s.current ["c", "n"] threeFrames m' (.bol 1)
      [[], [("b", some (.bol 3))], [("n", some (.num 249)), ("c", some (.chr 0))]] := by
  have hfound : ((nested.trace .empty false).any fun ev => ev.state?.any fun s =>
      (s.tree.path s.current).map (fun j => (s.tree.scope j).used) = [0, 1, 5] ∧
      s.context.varType? "n" = some .integer ∧ s.context.varType? "c" = some .character ∧
      s.context.varType? "b" = some .boolean ∧ threeFrames.values s.tree s.current =
        [[], [("b", some (.bol 3))], [("n", some (.num 250)), ("c", some (.chr 255))]]) = true := by
    decide +kernel
  obtain ⟨ev, s, hev, hs, hany⟩ := Event.exists_of_any hfound
  obtain ⟨hused, hn, hc, hb, hvalues⟩ := of_decide_eq_true hany
  have hmeaning : weighed.meaning (threeFrames.values s.tree s.current) =
      .ok (.bol 1, [[], [("b", some (.bol 3))],
        [("n", some (.num 249)), ("c", some (.chr 0))]]) := by
    rw [hvalues]
    decide
  have htype : HasType s.context weighed .boolean :=
    .binary (.binary
      (.binary (.binary (.immediate (.step hc (by decide))) (.signed (.var hn) (by decide))
        (.arithmetic (by decide) (by decide))) .number (.arithmetic (by decide) (by decide)))
      (.step hn (by decide)) (.ordering (by decide) (by decide))) (.var hb) (.logical (by decide))
  have hscalar : weighed.IsScalar s.context := by
    refine ⟨⟨⟨⟨⟨by decide, trivial⟩, fun τ hτ => ?_⟩, trivial⟩, trivial⟩, fun τ hτ => ?_⟩
    · cases hn.symm.trans hτ
      decide
    · cases hb.symm.trans hτ
      decide
  obtain ⟨x, σ, v, m', hx, -, hv, -, hrun, hm'⟩ :=
    scalar_expressions_keep_meaning hev hs htype hscalar (fun _ => 0)
    (threeFrames_framed hused) (by decide) (by rw [hmeaning]; nofun) (by rw [hmeaning]; nofun)
  cases hmeaning.symm.trans hx
  exact ⟨ev, s, v, m', hev, hs, hv, hrun, hm'⟩

end KuAsm

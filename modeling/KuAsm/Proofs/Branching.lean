import KuAsm.Proofs.Pool
import KuAsm.Proofs.ScalarCode

/-!
# Logical operators and branches

A conditional tests the low byte of its condition, and its branch is taken unless that byte is zero.
The operators `&&` and `||` combine the bytes of their operands bit by bit.  So `||` is what two
branches would be, and `&&` is it as long as two bytes that are not zero have a bit in common, which
holds for 0 and 1.

A truth value is another byte only if something is taken for one by a cast.

## Main definitions

* `Node.Branches`: what a conditional on an expression does on a machine.
* `Node.IsUncast`: nothing in an expression is taken for a truth value.

## Main statements

* `Node.exists_branches`: a conditional is taken unless its condition means zero.
* `Node.isPlain_of_meaning`: without casts, truth values stay 0 or 1.
* `logical_operators_branch`: what conditionals on `a || b` and `a && b` do, compared with those on
  `a` and `b`.
-/

namespace KuAsm

open Asm Reg Lower

variable {m : Machine} {e : Node} {x : Scalar} {σ : Store}

/-! ### Conditionals on a machine -/

/-- A conditional on an expression, at a place of a compilation and on a machine `m`.  The code in
front of the jump leads to the machine `m'`, where the jump over the body is made unless the branch
is taken. -/
def Node.Branches (e : Node) (symbol : Label → BitVec 32) (s : State) (m m' : Machine)
    (taken : Bool) : Prop :=
  ∀ target l, ∃ code, branchUnless target l e.evaluate s =
    .ok () (s.wrote (code ++ [jcc .z target])) ∧
    Code.run symbol code m = some m' ∧ m'.flags.bind (Cond.holds · .z) = some !taken

/-- What a conditional does is determined. -/
theorem Node.Branches.unique {symbol : Label → BitVec 32} {s : State} {m₁ m₂ : Machine}
    {taken taken' : Bool} (h : e.Branches symbol s m m₁ taken)
    (h' : e.Branches symbol s m m₂ taken') : taken = taken' := by
  obtain ⟨code, hok, hrun, hflags⟩ := h default .internal
  obtain ⟨code', hok', hrun', hflags'⟩ := h' default .internal
  have hsame : s.wrote (code ++ [jcc .z default]) = s.wrote (code' ++ [jcc .z default]) := by
    rw [hok] at hok'
    injection hok'
  have hlines := congrArg (fun t : State => t.listing.lines s.target) hsame
  obtain rfl : code = code' := by
    simpa [State.wrote, Listing.lines_append] using hlines
  cases hrun.symm.trans hrun'
  simpa using hflags.symm.trans hflags'

/-- Testing the low byte of a truth value changes the flags and nothing else. -/
theorem Machine.exec_test {x : UInt8} (hx : m.regs eax = (Scalar.bol x).word)
    (symbol : Label → BitVec 32) : ∃ m', Code.run symbol [test al al] m = some m' ∧ m.Steady m' ∧
      m'.regs = m.regs ∧ m'.flags.bind (Cond.holds · .z) = some !(x != 0) := by
  let f := Flags.of ((m.regs eax).setWidth 8 &&& (m.regs eax).setWidth 8) false false
  refine ⟨{ m with flags := some f }, rfl, ⟨rfl, rfl, rfl⟩, rfl, congrArg some ?_⟩
  show ((m.regs eax).setWidth 8 &&& (m.regs eax).setWidth 8 == 0) = _
  have hlow : (m.regs eax).setWidth 8 = x.toBitVec := by
    rw [hx]
    show (x.toBitVec.setWidth 32).setWidth 8 = x.toBitVec
    exact BitVec.setWidth_setWidth_of_le _ (by decide)
  rw [hlow, BitVec.and_self, bne, Bool.not_not]
  exact Bool.eq_iff_iff.2 (by simp [← UInt8.toBitVec_inj])

/-- A conditional on an expression is taken unless the expression means zero. -/
theorem Node.exists_branches {s : State} (hs : s.Spaced) (symbol : Label → BitVec 32)
    (hm : m.Framed s.tree s.current) (hroom : 4 * e.waiting ≤ (m.regs esp).toNat) {x : UInt8}
    (h : e.meaning (m.values s.tree s.current) = .ok (.bol x, σ)) :
    ∃ m', e.Branches symbol s m m' (x != 0) ∧ Machine.Yields s.tree s.current e.stepped m m'
    (.bol x) σ := by
  obtain ⟨v, hv, hty, m₁, hrun, hm₁⟩ := Node.evaluate_computes hs symbol hm hroom h
  obtain ⟨m₂, hrun₂, hsteady, hregs, hflags⟩ := Machine.exec_test hm₁.value symbol
  refine ⟨m₂, fun target l => ⟨v.code ++ [test al al], ?_, ?_, hflags⟩,
    hm₁.steady hsteady (hregs ▸ hm₁.value)⟩
  · unfold branchUnless
    refine Lower.bind_eq_ok.2 ⟨v, s, hv, ?_⟩
    have hbool : v.ty = .boolean := hty
    rw [if_neg (not_not_intro hbool), List.append_assoc]
    rfl
  · rw [Code.run_append_of_run hrun, hrun₂]

/-! ### Truth values that are 0 or 1 -/

/-- A truth value is 0 or 1. -/
def Scalar.IsPlain : Scalar → Prop
  | bol v => v = 0 ∨ v = 1
  | _ => True

/-- All truth values of some variables are 0 or 1. -/
def Store.IsPlain (σ : Store) : Prop := ∀ layer ∈ σ, ∀ y ∈ layer, ∀ x, y.2 = some x → x.IsPlain

/-- Nothing in an expression is taken for a truth value. -/
def Node.IsUncast : Node → Prop
  | .mk (.binary _ left right) _ => left.IsUncast ∧ right.IsUncast
  | .mk (.signed _ value) _ => value.IsUncast
  | .mk (.cast value ty _) _ => ty ≠ .boolean ∧ value.IsUncast
  | _ => True

theorem Scalar.isPlain_ofBool (b : Bool) : (Scalar.ofBool b).IsPlain := by
  cases b
  · exact .inl rfl
  · exact .inr rfl

/-- Values of other types are plain. -/
theorem Scalar.isPlain_of_ty (h : x.ty ≠ .boolean) : x.IsPlain := by
  cases x with
  | bol v => exact absurd rfl h
  | _ => trivial

theorem Store.IsPlain.read (hσ : σ.IsPlain) {name : String} (hx : σ.read name = .ok x) :
    x.IsPlain := by
  obtain ⟨layer, hlayer, hat⟩ := Store.getElem?_of_read hx
  exact hσ layer (List.mem_of_getElem? hlayer) _ (List.mem_of_getElem? hat) x rfl

theorem Store.IsPlain.write (hσ : σ.IsPlain) (name : String) (hx : x.IsPlain) :
    (σ.write name x).IsPlain := by
  intro layer hlayer y hy z hz
  obtain ⟨k, hk⟩ := List.getElem?_of_mem hlayer
  unfold Store.write at hk
  rw [List.getElem?_modify] at hk
  obtain ⟨old, hold, rfl⟩ := Option.map_eq_some_iff.1 hk
  have hplain := hσ old (List.mem_of_getElem? hold)
  split at hy
  · obtain ⟨d, hd⟩ := List.getElem?_of_mem hy
    rw [List.getElem?_modify] at hd
    obtain ⟨y', hy', rfl⟩ := Option.map_eq_some_iff.1 hd
    split at hz
    · cases hz
      exact hx
    · exact hplain y' (List.mem_of_getElem? hy') z hz
  · exact hplain y hy z hz

/-- Operators keep truth values plain. -/
theorem BinaryOp.isPlain_apply {op : BinaryOp} {y z : Scalar} (hx : x.IsPlain) (hy : y.IsPlain)
    (h : op.apply x y = .ok z) : z.IsPlain := by
  obtain ⟨-, -, hty⟩ := BinaryOp.accepts_of_apply h
  cases x with
  | num a =>
    cases y with
    | num b =>
      cases op <;>
        first | (cases h; exact Scalar.isPlain_ofBool _) | exact Scalar.isPlain_of_ty (hty ▸ nofun)
    | _ => cases h
  | chr a =>
    cases y with
    | chr b => cases op <;> cases h <;> exact Scalar.isPlain_ofBool _
    | _ => cases h
  | bol a =>
    cases y with
    | bol b =>
      cases op with
      | and =>
        cases h
        rcases hx with rfl | rfl <;> rcases hy with rfl | rfl <;>
          first | exact .inl rfl | exact .inr rfl
      | or =>
        cases h
        rcases hx with rfl | rfl <;> rcases hy with rfl | rfl <;>
          first | exact .inl rfl | exact .inr rfl
      | _ =>
        cases h <;> exact Scalar.isPlain_ofBool _
    | _ => cases h

open Stop in
theorem Node.isPlainCases :
    ExpressionCases
      (fun e => e.IsUncast → ∀ σ x σ', σ.IsPlain → e.meaning σ = .ok (x, σ') → x.IsPlain ∧
        σ'.IsPlain) (fun _ => True) where
  constant := by
    intro form v l hv _ σ x σ' hσ h
    cases form with
    | number n =>
      cases h
      exact ⟨trivial, hσ⟩
    | char b =>
      cases h
      exact ⟨trivial, hσ⟩
    | bool b =>
      cases h
      exact ⟨Scalar.isPlain_ofBool b, hσ⟩
    | decimal => cases h
    | str => cases h
    | _ => cases hv
  var := by
    intro name l _ σ x σ' hσ h
    unfold Node.meaning at h
    obtain ⟨y, hy, h⟩ := bind_eq_ok.1 h
    cases h
    exact ⟨hσ.read hy, hσ⟩
  binary := by
    intro op left right l hleft hright hcast σ z σ' hσ h
    unfold Node.meaning at h
    obtain ⟨⟨x, σ₁⟩, hx, h⟩ := bind_eq_ok.1 h
    obtain ⟨⟨y, σ₂⟩, hy, h⟩ := bind_eq_ok.1 h
    obtain ⟨w, hw, h⟩ := bind_eq_ok.1 h
    cases h
    obtain ⟨hplain, hσ₁⟩ := hleft hcast.1 σ x σ₁ hσ hx
    obtain ⟨hplain', hσ₂⟩ := hright hcast.2 σ₁ y σ' hσ₁ hy
    exact ⟨BinaryOp.isPlain_apply hplain hplain' hw, hσ₂⟩
  signed := by
    intro sign value l hvalue hcast σ y σ' hσ h
    unfold Node.meaning at h
    obtain ⟨⟨x, σ₁⟩, hx, h⟩ := bind_eq_ok.1 h
    obtain ⟨w, hw, h⟩ := bind_eq_ok.1 h
    cases h
    cases x with
    | num n =>
      cases hw
      exact ⟨trivial, (hvalue hcast σ _ σ' hσ hx).2⟩
    | _ => cases hw
  step := by
    intro name op fixity l _ σ z σ' hσ h
    unfold Node.meaning at h
    obtain ⟨x, hx, h⟩ := bind_eq_ok.1 h
    obtain ⟨y, hy, h⟩ := bind_eq_ok.1 h
    cases h
    have hplain : y.IsPlain := by
      cases x with
      | bol v => cases hy
      | _ =>
        cases hy
        trivial
    refine ⟨?_, hσ.write name hplain⟩
    cases fixity with
    | leading => exact hplain
    | trailing => exact hσ.read hx
  call := by
    intro name args l _ _ σ x σ' _ h
    cases h
  addressOf := by
    intro name l _ σ x σ' _ h
    cases h
  cast := by
    intro value ty mode l hvalue hcast σ y σ' hσ h
    cases mode with
    | deref => cases h
    | immediate =>
      unfold Node.meaning at h
      obtain ⟨⟨x, σ₁⟩, hx, h⟩ := bind_eq_ok.1 h
      obtain ⟨w, hw, h⟩ := bind_eq_ok.1 h
      cases h
      refine ⟨Scalar.isPlain_of_ty ?_, (hvalue hcast.2 σ x σ' hσ hx).2⟩
      unfold Scalar.cast at hw
      cases hbits : Scalar.ofWord? x.word ty with
      | none =>
        rw [hbits] at hw
        cases hw
      | some y =>
        rw [hbits] at hw
        cases hw
        rw [Scalar.ty_ofWord? hbits]
        exact hcast.1
  misplaced := by
    intro form l hform _ σ x σ' _ h
    rw [Node.meaning_misplaced hform] at h
    cases h
  nil := trivial
  cons _ _ := trivial

/-- Where no truth value is other than 0 or 1, an expression that takes nothing for one does not
bring one about. -/
theorem Node.isPlain_of_meaning (he : e.IsUncast) {σ' : Store} (hσ : σ.IsPlain)
    (h : e.meaning σ = .ok (x, σ')) : x.IsPlain ∧ σ'.IsPlain :=
  Node.isPlainCases.node e he σ x σ' hσ h

/-- Of two bytes that are 0 or 1, the bits in common are none only if one byte is zero. -/
theorem Scalar.IsPlain.and_bne_zero {x y : UInt8} (hx : (Scalar.bol x).IsPlain)
    (hy : (Scalar.bol y).IsPlain) : (x &&& y != 0) = (x != 0 && y != 0) := by
  rcases hx with rfl | rfl <;> rcases hy with rfl | rfl <;> decide

/-- The bits of two bytes are all zero if both bytes are zero. -/
theorem or_bne_zero (x y : UInt8) : (x ||| y != 0) = (x != 0 || y != 0) := by
  rw [Bool.eq_iff_iff]
  simp only [bne_iff_ne, Bool.or_eq_true, ne_eq, UInt8.or_eq_zero_iff, not_and_or]

/-! ### Conditionals on logical operators -/

/-- The evaluation of an expression runs into a division that has no result. -/
def Node.Traps (e : Node) (σ : Store) : Prop :=
  e.meaning σ = .error .divisionByZero ∨ e.meaning σ = .error .quotientOverflow

/-- A truth value that is not trapped is there. -/
theorem Node.exists_meaning {Γ : Context} (hτ : HasType Γ e .boolean) (he : e.IsScalar Γ)
    (hσ : σ.types = Γ.scalars)
    (htrap : ¬ e.Traps σ) : ∃ x σ', e.meaning σ = .ok (.bol x, σ') ∧ σ'.types = Γ.scalars := by
  rcases Node.meaning_of_hasType hτ he hσ with ⟨x, σ', hx, hty, hσ'⟩ | hnone | hnone
  · obtain ⟨v, rfl⟩ := Scalar.exists_bol hty
    exact ⟨v, σ', hx, hσ'⟩
  · exact absurd (.inl hnone) htrap
  · exact absurd (.inr hnone) htrap

/-- Conditionals on logical operators, compared with one on `a` and, behind it, one on `b`.  At
every place of a compilation and on every machine whose frames are in place, unless a division
traps, a conditional on `a || b` is taken if one of the two would be.  One on `a && b` is taken if
the two truth values have a bit in common.  If nothing is taken for a truth value by a cast and the
variables around are 0 or 1, this means that both conditionals would be taken. -/
theorem logical_operators_branch {p : Program} {session : Session} {comments : Bool} {ev : Event}
    {s : State} (hev : ev ∈ p.trace session comments) (hs : ev.state? = some s) {a b : Node}
    (ha : HasType s.context a .boolean) (hb : HasType s.context b .boolean)
    (hascalar : a.IsScalar s.context) (hbscalar : b.IsScalar s.context)
    (symbol : Label → BitVec 32) {m : Machine} (hm : m.Framed s.tree s.current)
    (hroom : 4 * max a.waiting (b.waiting + 1) ≤ (m.regs esp).toNat)
    (hatrap : ¬ a.Traps (m.values s.tree s.current))
    (hbtrap : ∀ x σ, a.meaning (m.values s.tree s.current) = .ok (x, σ) → ¬ b.Traps σ)
    (l : Location) :
    ∃ x y σ σ' m₁ m₂, a.meaning (m.values s.tree s.current) = .ok (.bol x, σ) ∧
      b.meaning σ = .ok (.bol y, σ') ∧
      a.Branches symbol s m m₁ (x != 0) ∧ b.Branches symbol s m₁ m₂ (y != 0) ∧
      (∃ m', (Node.mk (.binary .or a b) l).Branches symbol s m m' (x != 0 || y != 0)) ∧
      (∃ m', (Node.mk (.binary .and a b) l).Branches symbol s m m' (x &&& y != 0)) ∧
      (a.IsUncast → b.IsUncast → (m.values s.tree s.current).IsPlain →
        (x &&& y != 0) = (x != 0 && y != 0)) := by
  have hspaced := Program.spaced_of_mem_trace hev hs
  obtain ⟨x, σ, hx, hσ⟩ := Node.exists_meaning ha hascalar (m.types_values s) hatrap
  obtain ⟨y, σ', hy, -⟩ := Node.exists_meaning hb hbscalar hσ (hbtrap _ σ hx)
  obtain ⟨m₁, hbranch₁, hm₁⟩ := Node.exists_branches hspaced symbol hm (by omega) hx
  obtain ⟨m₂, hbranch₂, -⟩ := Node.exists_branches hspaced symbol (hm₁.framed hspaced hm) (e := b)
    (by rw [hm₁.stack]; omega) (hm₁.store.symm ▸ hy)
  -- both operands are evaluated, the second where the first one leaves the variables
  have hboth : ∀ op z, BinaryOp.apply op (.bol x) (.bol y) = .ok z →
      (Node.mk (.binary op a b) l).meaning (m.values s.tree s.current) = .ok (z, σ') := by
    intro op z hz
    unfold Node.meaning
    rw [hx]
    show (b.meaning σ >>= _) = _
    rw [hy]
    show (op.apply (.bol x) (.bol y) >>= _) = _
    rw [hz]
    rfl
  obtain ⟨m₃, hor, -⟩ := Node.exists_branches hspaced symbol hm (e := .mk (.binary .or a b) l) hroom
    (hboth .or _ rfl)
  obtain ⟨m₄, hand, -⟩ := Node.exists_branches hspaced symbol hm (e := .mk (.binary .and a b) l)
    hroom (hboth .and _ rfl)
  refine ⟨x, y, σ, σ', m₁, m₂, hx, hy, hbranch₁, hbranch₂, ⟨m₃, or_bne_zero x y ▸ hor⟩,
    ⟨m₄, hand⟩, ?_⟩
  intro hacast hbcast hplain
  obtain ⟨hx', hσ'⟩ := Node.isPlain_of_meaning hacast hplain hx
  exact hx'.and_bne_zero (Node.isPlain_of_meaning hbcast hσ' hy).1

/-- A number taken for a truth value. -/
def asTruth (n : Int32) : Node := .unplaced (.cast (.unplaced (.number n)) .boolean .immediate)

/-- With casts, two conditionals may both be taken and the one on `&&` not: the truth values 1 and 2
have no bit in common. -/
theorem conditional_on_and_fails_disjoint :
    ∃ ev s m₁ m₂, ev ∈ nested.trace .empty false ∧ ev.state? = some s ∧
    HasType s.context (asTruth 1) .boolean ∧ HasType s.context (asTruth 2) .boolean ∧
    threeFrames.Framed s.tree s.current ∧ (asTruth 1).Branches (fun _ => 0) s threeFrames m₁ true ∧
    (asTruth 2).Branches (fun _ => 0) s m₁ m₂ true ∧
    ¬ ∃ m', (Node.unplaced (.binary .and (asTruth 1) (asTruth 2))).Branches (fun _ => 0) s
      threeFrames m' true := by
  have hfound : ((nested.trace .empty false).any fun ev => ev.state?.any fun s =>
      (s.tree.path s.current).map (fun j => (s.tree.scope j).used) = [0, 1, 5]) = true := by
    decide +kernel
  obtain ⟨ev, s, hev, hs, hany⟩ := Event.exists_of_any hfound
  have hspaced := Program.spaced_of_mem_trace hev hs
  have hm := threeFrames_framed (of_decide_eq_true hany)
  obtain ⟨m₁, hone, hm₁⟩ :=
    Node.exists_branches hspaced (fun _ => 0) hm (e := asTruth 1) (by decide) rfl
  obtain ⟨m₂, htwo, -⟩ := Node.exists_branches hspaced (fun _ => 0) (hm₁.framed hspaced hm)
    (e := asTruth 2) (Nat.zero_le _) rfl
  obtain ⟨m₃, hand, -⟩ := Node.exists_branches hspaced (fun _ => 0) hm
    (e := .unplaced (.binary .and (asTruth 1) (asTruth 2))) (by decide) rfl
  exact ⟨ev, s, m₁, m₂, hev, hs, .immediate .number, .immediate .number, hm, hone, htwo,
    fun ⟨m', h⟩ => nomatch hand.unique h⟩

/-- The number at the top is less than before, `--n < 250`. -/
def lessened : Node :=
  .unplaced (.binary .lt (.unplaced (.step "n" .decrement .leading)) (.unplaced (.number 250)))

/-- In the innermost block, the truth value 3 is as good as 1. -/
theorem logical_operators_branch_nested :
    ∃ ev s m₁ m₂ m₃ m₄, ev ∈ nested.trace .empty false ∧ ev.state? = some s ∧
    lessened.Branches (fun _ => 0) s threeFrames m₁ true ∧
    (Node.unplaced (.var "b")).Branches (fun _ => 0) s m₁ m₂ true ∧
    (Node.unplaced (.binary .or lessened (.unplaced (.var "b")))).Branches (fun _ => 0) s
      threeFrames m₃ true ∧
    (Node.unplaced (.binary .and lessened (.unplaced (.var "b")))).Branches (fun _ => 0) s
      threeFrames m₄ true := by
  have hfound : ((nested.trace .empty false).any fun ev => ev.state?.any fun s =>
      (s.tree.path s.current).map (fun j => (s.tree.scope j).used) = [0, 1, 5] ∧
      s.context.varType? "n" = some .integer ∧ s.context.varType? "b" = some .boolean ∧
      threeFrames.values s.tree s.current =
        [[], [("b", some (.bol 3))], [("n", some (.num 250)), ("c", some (.chr 255))]]) = true := by
    decide +kernel
  obtain ⟨ev, s, hev, hs, hany⟩ := Event.exists_of_any hfound
  obtain ⟨hused, hn, hb, hvalues⟩ := of_decide_eq_true hany
  have hless : lessened.meaning (threeFrames.values s.tree s.current) =
      .ok (.bol 1, [[], [("b", some (.bol 3))],
        [("n", some (.num 249)), ("c", some (.chr 255))]]) := by
    rw [hvalues]
    decide
  have hscalar : (Node.unplaced (.var "b")).IsScalar s.context := by
    intro τ hτ
    cases hb.symm.trans hτ
    decide
  have htype : HasType s.context lessened .boolean :=
    .binary (.step hn (by decide)) .number (.ordering (by decide) (by decide))
  have htrap : ¬ lessened.Traps (threeFrames.values s.tree s.current) := by
    unfold Node.Traps
    rw [hless]
    nofun
  have htrap' : ∀ x σ, lessened.meaning (threeFrames.values s.tree s.current) = .ok (x, σ) →
      ¬ (Node.unplaced (.var "b")).Traps σ := by
    intro x σ hx
    cases hless.symm.trans hx
    nofun
  obtain ⟨x, y, σ, σ', m₁, m₂, hx, hy, ha, hb, ⟨m₃, hor⟩, ⟨m₄, hand⟩, -⟩ :=
    logical_operators_branch hev hs htype
    (.var hb) ⟨trivial, trivial⟩ hscalar (fun _ => 0) (threeFrames_framed hused) (by decide) htrap
    htrap' .internal
  cases hless.symm.trans hx
  cases hy
  exact ⟨ev, s, m₁, m₂, m₃, m₄, hev, hs, ha, hb, hor, hand⟩

end KuAsm

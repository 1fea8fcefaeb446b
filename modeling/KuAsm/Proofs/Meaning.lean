import KuAsm.Proofs.Induction
import KuAsm.Proofs.Judgement

/-!
# The meaning of scalar expressions

What an expression of numbers, characters and truth values means, without anything of how it is
compiled.  Operands are evaluated from left to right, both of them always.  Numbers have 32 bits and
wrap around, and their division rounds towards zero.  Characters and truth values are bytes; a truth
value may be any byte, since a cast takes the bits of its operand as they are.

Variables are found in the innermost layer that has their name.  A step operator changes one, so the
meaning of an expression is a value and the variables behind it.

## Main definitions

* `Scalar`: a value, and `Store`: the values of the variables around a place.
* `Node.meaning`: the value of an expression, and the variables behind it.
* `Node.IsScalar`: the expressions in question.

## Main statements

* `Node.meaning_of_hasType`: an expression of a type has a value of that type, unless a division has
  none.
-/

namespace KuAsm

variable {x : Scalar} {τ : ScalarType} {α β : Type}

/-! ### Values -/

/-- A number, a character or a truth value. -/
inductive Scalar where
  | num (v : Int32)
  | chr (v : UInt8)
  | bol (v : UInt8)
deriving DecidableEq, Repr

/-- Why an expression has no value. -/
inductive Stop where
  /-- A number was divided by zero. -/
  | divisionByZero
  /-- The least number was divided by minus one. -/
  | quotientOverflow
  /-- The expression makes no sense. -/
  | meaningless
deriving DecidableEq, Repr

namespace Scalar

/-- The type of a value. -/
def ty : Scalar → ScalarType
  | num _ => .integer
  | chr _ => .character
  | bol _ => .boolean

/-- The bits of a value, with zeros in front of a byte. -/
def word : Scalar → BitVec 32
  | num v => v.toBitVec
  | chr v | bol v => v.toBitVec.setWidth 32

/-- The value of a type that the low bits of a word are. -/
def ofWord? (x : BitVec 32) : ScalarType → Option Scalar
  | .integer => some (.num (.ofBitVec x))
  | .character => some (.chr (.ofBitVec (x.setWidth 8)))
  | .boolean => some (.bol (.ofBitVec (x.setWidth 8)))
  | _ => none

/-- A truth value. -/
def ofBool (b : Bool) : Scalar := .bol (if b then 1 else 0)

/-- The value before or after another one of its type. -/
def step (op : StepOp) : Scalar → Except Stop Scalar
  | num v => .ok (.num (match op with | .increment => v + 1 | .decrement => v - 1))
  | chr v => .ok (.chr (match op with | .increment => v + 1 | .decrement => v - 1))
  | bol _ => .error .meaningless

/-- A number with a sign. -/
def signed (sign : Sign) : Scalar → Except Stop Scalar
  | num v => .ok (.num (match sign with | .plus => v | .minus => -v))
  | _ => .error .meaningless

/-- A value taken for one of another type. -/
def cast (ty : ScalarType) (x : Scalar) : Except Stop Scalar :=
  (ofWord? x.word ty).elim (.error .meaningless) .ok

end Scalar

namespace BinaryOp

/-- Whether two numbers stand in a relation. -/
def relates (x y : Int) : BinaryOp → Bool
  | lt => x < y
  | gt => y < x
  | le => x ≤ y
  | ge => y ≤ x
  | ne => x ≠ y
  | _ => x = y

/-- The quotient or the remainder of two numbers, if there is a quotient. -/
def divide (f : Int32 → Int32 → Int32) (a b : Int32) : Except Stop Scalar :=
  if b = 0 then .error .divisionByZero
  else if a = Int32.minValue ∧ b = -1 then .error .quotientOverflow
  else .ok (.num (f a b))

/-- Two values combined. -/
def apply (op : BinaryOp) : Scalar → Scalar → Except Stop Scalar
  | .num a, .num b => match op with
    | add => .ok (.num (a + b))
    | sub => .ok (.num (a - b))
    | mul => .ok (.num (a * b))
    | div => divide (· / ·) a b
    | rem => divide (· % ·) a b
    | and | or => .error .meaningless
    | _ => .ok (.ofBool (op.relates a.toInt b.toInt))
  | .chr a, .chr b =>
    if op.isComparison then .ok (.ofBool (op.relates a.toNat b.toNat)) else .error .meaningless
  | .bol a, .bol b => match op with
    | and => .ok (.bol (a &&& b))
    | or => .ok (.bol (a ||| b))
    | eq | ne => .ok (.ofBool (op.relates a.toNat b.toNat))
    | _ => .error .meaningless
  | _, _ => .error .meaningless

end BinaryOp

/-! ### Variables -/

/-- The values of the variables around a place, innermost layer first.  Of other variables than
scalar ones, only the names are kept. -/
abbrev Store := List (List (String × Option Scalar))

namespace Store

/-- The value of a variable. -/
def read (σ : Store) (name : String) : Except Stop Scalar :=
  match σ.findSome? (·.lookup name) with
  | some (some x) => .ok x
  | _ => .error .meaningless

/-- Give a variable another value. -/
def write (σ : Store) (name : String) (x : Scalar) : Store :=
  σ.modify (σ.findIdx fun layer => (layer.lookup name).isSome) fun layer =>
    layer.modify (layer.findIdx (name == ·.1)) fun _ => (name, some x)

end Store

/-! ### Expressions -/

/-- The value of a scalar expression, and the variables behind it. -/
def Node.meaning : Node → Store → Except Stop (Scalar × Store)
  | .mk (.number v) _, σ => .ok (.num v, σ)
  | .mk (.char v) _, σ => .ok (.chr v, σ)
  | .mk (.bool v) _, σ => .ok (.ofBool v, σ)
  | .mk (.var name) _, σ => do
    let x ← σ.read name
    return (x, σ)
  | .mk (.binary op left right) _, σ => do
    let (x, σ) ← left.meaning σ
    let (y, σ) ← right.meaning σ
    let z ← op.apply x y
    return (z, σ)
  | .mk (.signed sign value) _, σ => do
    let (x, σ) ← value.meaning σ
    let y ← x.signed sign
    return (y, σ)
  | .mk (.step name op fixity) _, σ => do
    let x ← σ.read name
    let y ← x.step op
    return (match fixity with | .leading => y | .trailing => x, σ.write name y)
  | .mk (.cast value ty .immediate) _, σ => do
    let (x, σ) ← value.meaning σ
    let y ← x.cast ty
    return (y, σ)
  | _, _ => .error .meaningless

/-- What is no expression has no value. -/
theorem Node.meaning_misplaced {form : Form} (h : form.isExpression = false) (l : Location)
    (σ : Store) : (Node.mk form l).meaning σ = .error .meaningless := by
  cases form <;> first | rfl | cases h

/-- Two evaluations, one behind the other. -/
theorem Stop.bind_eq_ok {r : Except Stop α} {f : α → Except Stop β} {b : β} :
    (r >>= f) = .ok b ↔ ∃ a, r = .ok a ∧ f a = .ok b := by
  cases r with
  | error e => simp [bind, Except.bind]
  | ok a => simp [bind, Except.bind]

/-- The types of scalar values. -/
def ScalarType.IsScalar (τ : ScalarType) : Prop := τ ∈ [.integer, .character, .boolean]

instance (τ : ScalarType) : Decidable τ.IsScalar :=
  inferInstanceAs (Decidable (τ ∈ [ScalarType.integer, .character, .boolean]))

/-- Expressions of numbers, characters and truth values: literals, variables, operators, signs,
steps, and casts that take the bits of their operand. -/
def Node.IsScalar (Γ : Context) : Node → Prop
  | .mk (.number _) _ | .mk (.char _) _ | .mk (.bool _) _ | .mk (.step ..) _ => True
  | .mk (.var name) _ => ∀ τ, Γ.varType? name = some τ → τ.IsScalar
  | .mk (.binary _ left right) _ => left.IsScalar Γ ∧ right.IsScalar Γ
  | .mk (.signed _ value) _ => value.IsScalar Γ
  | .mk (.cast value ty .immediate) _ => ty.IsScalar ∧ value.IsScalar Γ
  | _ => False

/-- The variables that an expression steps. -/
def Node.stepped : Node → List String
  | .mk (.binary _ left right) _ => left.stepped ++ right.stepped
  | .mk (.signed _ value) _ | .mk (.cast value _ _) _ => value.stepped
  | .mk (.step name _ _) _ => [name]
  | _ => []

/-! ### Types -/

/-- A type, if it is one of scalar values. -/
def ScalarType.scalar? : ScalarType → Option ScalarType
  | integer => some integer
  | character => some character
  | boolean => some boolean
  | _ => none

theorem ScalarType.IsScalar.scalar?_eq (h : τ.IsScalar) : τ.scalar? = some τ := by
  unfold ScalarType.IsScalar at h
  cases τ <;> first | rfl | simp at h

/-- The scalar variables of some layers, with their types. -/
def Context.scalars (Γ : Context) : List (List (String × Option ScalarType)) :=
  Γ.map fun b => b.vars.map fun y => (y.1, y.2.scalar?)

namespace Store

/-- The types of the values. -/
def types (σ : Store) : List (List (String × Option ScalarType)) :=
  σ.map fun layer => layer.map fun y => (y.1, y.2.map Scalar.ty)

theorem lookup_map_snd (f : α → β) (name : String) (l : List (String × α)) :
    (l.map fun y => (y.1, f y.2)).lookup name = (l.lookup name).map f := by
  induction l with
  | nil => rfl
  | cons y l ih =>
    rw [List.map_cons, List.lookup_cons, List.lookup_cons, ih]
    cases name == y.1 <;> rfl

variable {σ : Store} {Γ : Context} {name : String}

/-- A scalar variable has a value of its type. -/
theorem exists_read (hσ : σ.types = Γ.scalars) (hτ : Γ.varType? name = some τ) (hs : τ.IsScalar) :
    ∃ x, σ.read name = .ok x ∧ x.ty = τ := by
  have hleft : σ.types.findSome? (·.lookup name) = (σ.findSome? (·.lookup name)).map
      (Option.map Scalar.ty) := by
    unfold Store.types
    rw [List.findSome?_map, List.map_findSome?]
    congr 1
    funext layer
    exact lookup_map_snd _ _ _
  have hright : Γ.scalars.findSome? (·.lookup name) = (Γ.varType? name).map ScalarType.scalar? := by
    unfold Context.scalars Context.varType?
    rw [List.findSome?_map, List.map_findSome?]
    congr 1
    funext b
    exact lookup_map_snd _ _ _
  rw [hσ, hright, hτ, Option.map_some, hs.scalar?_eq] at hleft
  unfold Store.read
  cases hfound : σ.findSome? (·.lookup name) with
  | none =>
    rw [hfound] at hleft
    cases hleft
  | some x? =>
    rw [hfound, Option.map_some, Option.some.injEq] at hleft
    obtain ⟨x, rfl, hx⟩ := Option.map_eq_some_iff.1 hleft.symm
    exact ⟨x, rfl, hx⟩

/-- What is found first is found at the first place where there is something to be found. -/
theorem findSome?_eq_bind_findIdx (f : α → Option β) (l : List α) :
    l.findSome? f = (l[l.findIdx fun a => (f a).isSome]?).bind f := by
  induction l with
  | nil => rfl
  | cons a l ih =>
    rw [List.findSome?_cons, List.findIdx_cons]
    cases ha : f a with
    | none => simpa using ih
    | some b => simp [ha]

theorem lookup_eq_map_findIdx (name : String) (l : List (String × α)) :
    l.lookup name = (l[l.findIdx (name == ·.1)]?).map (·.2) := by
  induction l with
  | nil => rfl
  | cons y l ih =>
    rw [List.lookup_cons, List.findIdx_cons]
    cases name == y.1 with
    | true => rfl
    | false => simpa using ih

/-- A change of one item that is not seen. -/
theorem map_modify_of_eq {g : α → β} {f : α → α} {l : List α} {d : Nat}
    (h : ∀ a, l[d]? = some a → g (f a) = g a) : (l.modify d f).map g = l.map g := by
  refine List.ext_getElem? fun k => ?_
  rw [List.getElem?_map, List.getElem?_map, List.getElem?_modify]
  cases hk : l[k]? with
  | none => rfl
  | some a =>
    by_cases hd : d = k
    · subst hd
      simp [h a hk]
    · simp [hd]

/-- Where a variable is found. -/
theorem getElem?_of_read (hx : σ.read name = .ok x) :
    ∃ layer, σ[σ.findIdx fun layer => (layer.lookup name).isSome]? = some layer ∧
      layer[layer.findIdx (name == ·.1)]? = some (name, some x) := by
  have hfound : σ.findSome? (·.lookup name) = some (some x) := by
    unfold Store.read at hx
    split at hx
    · rename_i heq
      rw [heq, Except.ok.inj hx]
    · cases hx
  rw [findSome?_eq_bind_findIdx] at hfound
  obtain ⟨layer, hlayer, hlookup⟩ := Option.bind_eq_some_iff.1 hfound
  refine ⟨layer, hlayer, ?_⟩
  rw [lookup_eq_map_findIdx] at hlookup
  obtain ⟨y, hy, hyx⟩ := Option.map_eq_some_iff.1 hlookup
  have hname : name = y.1 := by
    obtain ⟨hlt, heq⟩ := List.getElem?_eq_some_iff.1 hy
    have hfind := List.findIdx_getElem (p := fun y : String × Option Scalar => name == y.1)
      (w := hlt)
    rw [heq] at hfind
    exact beq_iff_eq.1 hfind
  rw [hy, hname, ← hyx]

/-- A variable that gets a value of its type keeps its type. -/
theorem types_write {y : Scalar} (hx : σ.read name = .ok x) (hy : y.ty = x.ty) :
    (σ.write name y).types = σ.types := by
  obtain ⟨layer, hlayer, hat⟩ := getElem?_of_read hx
  refine map_modify_of_eq fun layer' hlayer' => ?_
  obtain rfl : layer = layer' := Option.some.inj (hlayer.symm.trans hlayer')
  refine map_modify_of_eq fun z hz => ?_
  obtain rfl : (name, some x) = z := Option.some.inj (hat.symm.trans hz)
  rw [Option.map_some, Option.map_some, hy]

end Store

/-! ### Values of well-typed expressions -/

namespace Scalar

variable {x : Scalar}

theorem exists_num (h : x.ty = .integer) : ∃ v, x = .num v := by
  cases x with
  | num v => exact ⟨v, rfl⟩
  | chr v => cases h
  | bol v => cases h

theorem exists_chr (h : x.ty = .character) : ∃ v, x = .chr v := by
  cases x with
  | num v => cases h
  | chr v => exact ⟨v, rfl⟩
  | bol v => cases h

theorem exists_bol (h : x.ty = .boolean) : ∃ v, x = .bol v := by
  cases x with
  | num v => cases h
  | chr v => cases h
  | bol v => exact ⟨v, rfl⟩

theorem ty_ne_decimal : x.ty ≠ .decimal := by cases x <;> nofun

theorem ty_ofWord? {w : BitVec 32} (h : ofWord? w τ = some x) : x.ty = τ := by
  cases τ <;> cases h <;> rfl

end Scalar

/-- A division has a number as its result, or none. -/
theorem BinaryOp.divide_cases (f : Int32 → Int32 → Int32) (a b : Int32) :
    (∃ z, divide f a b = .ok z ∧ z.ty = .integer) ∨ divide f a b = .error .divisionByZero ∨
      divide f a b = .error .quotientOverflow := by
  unfold divide
  split
  · exact .inr (.inl rfl)
  · split
    · exact .inr (.inr rfl)
    · exact .inl ⟨_, rfl, rfl⟩

/-- Two values of a type that an operator takes give one of its type, unless a division has no
result. -/
theorem BinaryOp.apply_of_operates {op : BinaryOp} {ρ : ScalarType} (h : Operates op τ ρ)
    {y : Scalar} (hx : x.ty = τ)
    (hy : y.ty = τ) :
      (∃ z, op.apply x y = .ok z ∧ z.ty = ρ) ∨ op.apply x y = .error .divisionByZero ∨
      op.apply x y = .error .quotientOverflow := by
  cases h with
  | arithmetic hop hτ =>
    have hint : τ = .integer := by
      rcases List.mem_cons.1 hτ with h | h
      · exact h
      · exact absurd (hx.trans (List.mem_singleton.1 h)) Scalar.ty_ne_decimal
    subst hint
    obtain ⟨a, rfl⟩ := Scalar.exists_num hx
    obtain ⟨b, rfl⟩ := Scalar.exists_num hy
    simp only [List.mem_cons, List.not_mem_nil, or_false] at hop
    rcases hop with rfl | rfl | rfl | rfl | rfl
    · exact .inl ⟨_, rfl, rfl⟩
    · exact .inl ⟨_, rfl, rfl⟩
    · exact .inl ⟨_, rfl, rfl⟩
    · exact divide_cases _ a b
    · exact divide_cases _ a b
  | joining => cases x <;> cases hx
  | logical hop =>
    obtain ⟨a, rfl⟩ := Scalar.exists_bol hx
    obtain ⟨b, rfl⟩ := Scalar.exists_bol hy
    simp only [List.mem_cons, List.not_mem_nil, or_false] at hop
    rcases hop with rfl | rfl <;> exact .inl ⟨_, rfl, rfl⟩
  | ordering hop hτ =>
    left
    simp only [List.mem_cons, List.not_mem_nil, or_false] at hop hτ
    rcases hτ with rfl | rfl | rfl
    · obtain ⟨a, rfl⟩ := Scalar.exists_num hx
      obtain ⟨b, rfl⟩ := Scalar.exists_num hy
      rcases hop with rfl | rfl | rfl | rfl <;> exact ⟨_, rfl, rfl⟩
    · exact absurd hx Scalar.ty_ne_decimal
    · obtain ⟨a, rfl⟩ := Scalar.exists_chr hx
      obtain ⟨b, rfl⟩ := Scalar.exists_chr hy
      rcases hop with rfl | rfl | rfl | rfl <;> exact ⟨_, rfl, rfl⟩
  | equality hop hτ =>
    left
    simp only [List.mem_cons, List.not_mem_nil, or_false] at hop hτ
    rcases hτ with rfl | rfl | rfl | rfl
    · obtain ⟨a, rfl⟩ := Scalar.exists_num hx
      obtain ⟨b, rfl⟩ := Scalar.exists_num hy
      rcases hop with rfl | rfl <;> exact ⟨_, rfl, rfl⟩
    · exact absurd hx Scalar.ty_ne_decimal
    · obtain ⟨a, rfl⟩ := Scalar.exists_chr hx
      obtain ⟨b, rfl⟩ := Scalar.exists_chr hy
      rcases hop with rfl | rfl <;> exact ⟨_, rfl, rfl⟩
    · obtain ⟨a, rfl⟩ := Scalar.exists_bol hx
      obtain ⟨b, rfl⟩ := Scalar.exists_bol hy
      rcases hop with rfl | rfl <;> exact ⟨_, rfl, rfl⟩

/-- A value of the type among variables of their types, or a division without a result. -/
def Sensible (Γ : Context) (τ : ScalarType) (r : Except Stop (Scalar × Store)) : Prop :=
  (∃ x σ, r = .ok (x, σ) ∧ x.ty = τ ∧ σ.types = Γ.scalars) ∨
    r = .error .divisionByZero ∨ r = .error .quotientOverflow

namespace Sensible

variable {Γ : Context} {τ ρ : ScalarType}

theorem ok {x : Scalar} {σ : Store} (hx : x.ty = τ) (hσ : σ.types = Γ.scalars) :
    Sensible Γ τ (.ok (x, σ)) :=
  .inl ⟨x, σ, rfl, hx, hσ⟩

theorem bind {r : Except Stop (Scalar × Store)} {f : Scalar × Store → Except Stop (Scalar × Store)}
    (h : Sensible Γ τ r) (hf : ∀ x σ, x.ty = τ → σ.types = Γ.scalars → Sensible Γ ρ (f (x, σ))) :
    Sensible Γ ρ (r >>= f) := by
  rcases h with ⟨x, σ, rfl, hx, hσ⟩ | rfl | rfl
  · exact hf x σ hx hσ
  · exact .inr (.inl rfl)
  · exact .inr (.inr rfl)

end Sensible

theorem Node.meaning_of_hasTypeCases (Γ : Context) :
    ExpressionCases
      (fun e => ∀ σ τ, HasType Γ e τ → e.IsScalar Γ → σ.types = Γ.scalars →
        Sensible Γ τ (e.meaning σ)) (fun _ => True) where
  constant := by
    intro form v l hv σ τ hτ he hσ
    cases hτ with
    | number => exact .ok rfl hσ
    | char => exact .ok rfl hσ
    | bool => exact .ok rfl hσ
    | decimal => exact he.elim
    | str => exact he.elim
    | _ => cases hv
  var := by
    intro name l σ τ hτ he hσ
    cases hτ with
    | var hτ =>
      obtain ⟨x, hx, hty⟩ := Store.exists_read hσ hτ (he τ hτ)
      unfold Node.meaning
      rw [hx]
      exact .ok hty hσ
  binary := by
    intro op left right l hleft hright σ ρ hρ he hσ
    cases hρ with
    | binary hl hr hop =>
      unfold Node.meaning
      refine (hleft σ _ hl he.1 hσ).bind fun x σ₁ hx hσ₁ => ?_
      refine (hright σ₁ _ hr he.2 hσ₁).bind fun y σ₂ hy hσ₂ => ?_
      dsimp only
      rcases BinaryOp.apply_of_operates hop hx hy with ⟨z, hz, hty⟩ | hz | hz
      · rw [hz]
        exact .ok hty hσ₂
      · rw [hz]
        exact .inr (.inl rfl)
      · rw [hz]
        exact .inr (.inr rfl)
  signed := by
    intro sign value l hvalue σ τ hτ he hσ
    cases hτ with
    | signed hv hτ =>
      unfold Node.meaning
      refine (hvalue σ _ hv he hσ).bind fun x σ₁ hx hσ₁ => ?_
      rcases List.mem_cons.1 hτ with rfl | hτ
      · obtain ⟨v, rfl⟩ := Scalar.exists_num hx
        exact .ok rfl hσ₁
      · exact absurd (hx.trans (List.mem_singleton.1 hτ)) Scalar.ty_ne_decimal
  step := by
    intro name op fixity l σ τ hτ he hσ
    cases hτ with
    | step hτ hmem =>
      have hscalar : τ.IsScalar := by
        rcases List.mem_cons.1 hmem with rfl | hmem
        · decide
        · rw [List.mem_singleton.1 hmem]
          decide
      obtain ⟨x, hx, hty⟩ := Store.exists_read hσ hτ hscalar
      obtain ⟨y, hy, hyx⟩ : ∃ y, x.step op = .ok y ∧ y.ty = x.ty := by
        cases x with
        | num v => exact ⟨_, rfl, rfl⟩
        | chr v => exact ⟨_, rfl, rfl⟩
        | bol v =>
          rw [← hty] at hmem
          cases hmem with
          | tail _ h => cases List.mem_singleton.1 h
      unfold Node.meaning
      rw [hx]
      show Sensible Γ τ (x.step op >>= fun y => _)
      rw [hy]
      refine .ok ?_ ((Store.types_write hx hyx).trans hσ)
      cases fixity with
      | leading => exact hyx.trans hty
      | trailing => exact hty
  call := fun _ _ _ _ he => he.elim
  addressOf := fun _ _ _ he => he.elim
  cast := by
    intro value ty mode l hvalue σ τ hτ he hσ
    cases hτ with
    | deref => exact he.elim
    | immediate hv =>
      unfold Node.meaning
      refine (hvalue σ _ hv he.2 hσ).bind fun x σ₁ hx hσ₁ => ?_
      obtain ⟨y, hy⟩ : ∃ y, Scalar.ofWord? x.word ty = some y := by
        have hty := he.1
        unfold ScalarType.IsScalar at hty
        cases ty <;> first | exact ⟨_, rfl⟩ | simp at hty
      show Sensible Γ ty (x.cast ty >>= fun y => _)
      unfold Scalar.cast
      rw [hy]
      exact .ok (Scalar.ty_ofWord? hy) hσ₁
  misplaced := by
    intro form l hform σ τ hτ
    cases hτ <;> cases hform
  nil := trivial
  cons _ _ := trivial

/-- An expression of a type has a value of that type, unless a division has none. -/
theorem Node.meaning_of_hasType {Γ : Context} {e : Node} {σ : Store} (h : HasType Γ e τ)
    (he : e.IsScalar Γ) (hσ : σ.types = Γ.scalars) : Sensible Γ τ (e.meaning σ) :=
  (Node.meaning_of_hasTypeCases Γ).node e σ τ h he hσ

end KuAsm

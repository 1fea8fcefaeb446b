import KuAsm.Compile

/-!
# Symbols

A label becomes a symbol of the assembler text.  Its number can be read off the symbol again,
whatever the hint is, so labels with different numbers are different symbols.

* `IsLabelText` describes the symbols that labels have.
* `Line.symbol?` is the symbol that a line of a unit defines, and `Code.symbols` lists them all.
* `Code.defines` and `Code.refers` list the labels that a piece of a listing defines and refers to.

## Main statements

* `Label.number_eq_of_text_eq`: the symbol tells the number.
* `Label.isLabelText`: a label is a valid symbol, whatever hint it was made from.
-/

namespace KuAsm

/-! ### The text of a label -/

/-- An `L`, some digits, and perhaps an underscore with symbol characters behind it. -/
def IsLabelText (text : String) : Prop :=
  ∃ digits rest, text.toList = 'L' :: (digits ++ rest) ∧ digits ≠ [] ∧
    (∀ c ∈ digits, c.isDigit = true) ∧
    (rest = [] ∨ ∃ hint, rest = '_' :: hint ∧ ∀ c ∈ hint, isSymbolChar c = true)

/-- A label text starts with an `L`. -/
theorem IsLabelText.head {text : String} (h : IsLabelText text) : text.toList.head? = some 'L' := by
  obtain ⟨digits, rest, htext, -⟩ := h
  rw [htext]
  rfl

namespace Label

/-- The part of a symbol behind the number. -/
def suffix (l : Label) : List Char := if l.hint = "" then [] else '_' :: l.hint.toList

theorem toList_text (l : Label) :
    l.text.toList = 'L' :: (Nat.toDigits 10 l.number ++ l.suffix) := by
  have hdigits : (toString l.number).toList = Nat.toDigits 10 l.number := by
    show (Nat.repr l.number).toList = _
    rw [Nat.repr_eq_ofList_toDigits, String.toList_ofList]
  unfold text suffix
  split
  · rw [String.toList_append, hdigits, List.append_nil]
    rfl
  · simp only [String.toList_append, hdigits, List.append_assoc]
    rfl

/-- The digits of a symbol end where its suffix begins. -/
theorem takeWhile_text (l : Label) :
    (l.text.toList.drop 1).takeWhile Char.isDigit = Nat.toDigits 10 l.number := by
  have hdigits : ∀ c ∈ Nat.toDigits 10 l.number, c.isDigit = true := fun c hc =>
    Nat.isDigit_of_mem_toDigits (by decide) (by decide) hc
  rw [toList_text, List.drop_one, List.tail_cons, List.takeWhile_append_of_pos hdigits]
  have hsuffix : l.suffix.takeWhile Char.isDigit = [] := by
    unfold suffix
    split
    · rfl
    · exact List.takeWhile_cons_of_neg (by decide)
  rw [hsuffix, List.append_nil]

/-- The symbol of a label tells its number. -/
theorem number_eq_of_text_eq {l k : Label} (h : l.text = k.text) : l.number = k.number := by
  have hdigits : Nat.toDigits 10 l.number = Nat.toDigits 10 k.number := by
    rw [← takeWhile_text, ← takeWhile_text, h]
  rw [← Nat.ofDigitChars_toDigits (b := 10) (n := l.number) (by decide) (by decide), hdigits,
    Nat.ofDigitChars_toDigits (by decide) (by decide)]

/-- A label is a valid symbol. -/
theorem isLabelText (l : Label) : IsLabelText l.text := by
  refine ⟨_, _, toList_text _, Nat.toDigits_ne_nil, ?_, ?_⟩
  · intro c hc
    exact Nat.isDigit_of_mem_toDigits (by decide) (by decide) hc
  · unfold suffix
    split
    · exact .inl rfl
    · exact .inr ⟨_, rfl, l.symbolic⟩

end Label

/-! ### Definitions and references -/

/-- The labels that a line defines: at its place, as a number, or at its bytes. -/
def Line.defines : Line → List Label
  | label l | constant l _ | bytes l _ => [l]
  | instr _ | comment _ | verbatim _ => []

/-- The labels that stand in an operand. -/
def Operand.labels : Operand → List Label
  | label l | words l => [l]
  | reg _ | imm _ | bits _ | mem _ => []

/-- The labels that an instruction refers to: the target of a jump or a call, the symbol of a frame
size, the symbol of a literal. -/
def Instr.labels : Instr → List Label
  | mov d s | arith _ d s => d.labels ++ s.labels
  | movzx _ s | push s => s.labels
  | unary _ d => d.labels
  | jmp l | jcc _ l | call l => [l]
  | _ => []

/-- The labels that a line refers to. -/
def Line.refers : Line → List Label
  | instr i => i.labels
  | _ => []

/-- The labels that a piece of a listing defines. -/
def Code.defines (code : Code) : List Label := code.flatMap Line.defines

/-- The labels that a piece of a listing refers to. -/
def Code.refers (code : Code) : List Label := code.flatMap Line.refers

@[simp] theorem Code.defines_nil : Code.defines [] = [] := rfl

@[simp] theorem Code.refers_nil : Code.refers [] = [] := rfl

@[simp] theorem Code.defines_cons (line : Line) (code : Code) :
    Code.defines (line :: code) = line.defines ++ Code.defines code := rfl

@[simp] theorem Code.refers_cons (line : Line) (code : Code) :
    Code.refers (line :: code) = line.refers ++ Code.refers code := rfl

@[simp] theorem Code.defines_append (a b : Code) :
    Code.defines (a ++ b) = Code.defines a ++ Code.defines b :=
  List.flatMap_append

@[simp] theorem Code.refers_append (a b : Code) :
    Code.refers (a ++ b) = Code.refers a ++ Code.refers b :=
  List.flatMap_append

/-! ### The symbols of a unit -/

/-- The symbol that a line defines, as the assembler reads it: a line of text that ends in a colon
defines what stands before the colon. -/
def Line.symbol? : Line → Option String
  | label l | constant l _ | bytes l _ => some l.text
  | verbatim t =>
    if t.toList.getLast? = some ':' then some (String.ofList t.toList.dropLast) else none
  | instr _ | comment _ => none

/-- The symbols that a piece of a listing defines, one for each definition. -/
def Code.symbols (code : Code) : List String := code.filterMap Line.symbol?

end KuAsm

import KuAsm.Proofs.Symbol

/-!
# The strings that a program asks for

A program asks for a string wherever it has a string literal, and for the empty string wherever a
string has to be made up: for a variable that is declared without a value, for a return without a
value, and for the return at the end of a function that has none.  What is asked for can be read off
the program; the only thing that matters besides is which files were included before, since a file
that is included again is skipped.

The bytes of a string stand on a line of data.  `readData?` reads such a line as the assembler does.

## Main definitions

* `Node.texts`: the strings that an expression asks for.
* `Node.draft`, `Program.demands`: the strings that a statement and a program ask for, in the order
  of asking, each with the section that it is loaded in.
* `Code.loads`: the labels that a piece of a listing loads into registers.

## Main statements

* `readData?_bytes`: a line of data reads as its label and its bytes with a zero behind them.
-/

namespace KuAsm

/-! ### Expressions -/

/-- The strings of a constant. -/
def Literal.texts : Literal → List String
  | .str v => [v]
  | _ => []

mutual

/-- The strings that an expression asks for, in the order in which it is evaluated. -/
def Node.texts : Node → List String
  | .mk (.str v) _ => [v]
  | .mk (.binary _ left right) _ => left.texts ++ right.texts
  | .mk (.signed _ value) _ => value.texts
  | .mk (.call _ args) _ => Node.textsAll args
  | .mk (.cast value _ _) _ => value.texts
  | _ => []

/-- The strings that a list of expressions asks for. -/
def Node.textsAll : List Node → List String
  | [] => []
  | n :: ns => n.texts ++ Node.textsAll ns

end

/-- The strings that an optional expression asks for; without one, those of the zero of its type. -/
def Node.textsOr (value : Option Node) (ty : ScalarType) : List String :=
  match value with
  | some v => v.texts
  | none => ty.zero.texts

/-! ### Statements -/

/-- Strings that are asked for, each with the section that it is loaded in. -/
abbrev Demands := List (Section × String)

/-- The strings that are loaded in a section. -/
def Demands.within (ds : Demands) (x : Section) : List String := (ds.filter (·.1 = x)).map (·.2)

/-- What is asked for, given the files that were included before, and the files that are included
afterwards. -/
abbrev Draft := List String → Demands × List String

namespace Draft

/-- Nothing is asked for. -/
def nothing : Draft := fun included => ([], included)

/-- Some strings are loaded in a section. -/
def load (place : Section) (texts : List String) : Draft :=
  fun included => (texts.map (place, ·), included)

/-- One thing after another. -/
def andThen (d e : Draft) : Draft := fun included =>
  ((d included).1 ++ (e (d included).2).1, (e (d included).2).2)

/-- A file that is skipped if it was included before. -/
def file (path : String) (d : Draft) : Draft := fun included =>
  if included.contains path then ([], included) else d (path :: included)

end Draft

/-- Whether a statement jumps away. -/
def Node.jumps : Node → Bool
  | .mk .breakLoop _ | .mk .continueLoop _ | .mk (.ret _) _ => true
  | _ => false

/-- Whether the last statement of a list jumps away. -/
def Node.jumpsAll (ns : List Node) : Bool := ns.getLast?.any Node.jumps

mutual

/-- The strings that a statement asks for.  `result` is the type that the function around it
returns, and `place` the section that it is written to. -/
def Node.draft (result : Option ScalarType) (place : Section) : Node → Draft
  | .mk (.function _ _ ret body) _ =>
    (Node.draftAll (some ret) .functions body).andThen
      (if Node.jumpsAll body then .nothing else .load .functions ret.zero.texts)
  | .mk (.declare _ ty value) _ => .load place (Node.textsOr value ty)
  | .mk (.assign _ value) _ => .load place value.texts
  | .mk (.store address value) _ => .load place (address.texts ++ value.texts)
  | .mk (.conditional condition body otherwise) _ =>
    (Draft.load place condition.texts).andThen
      ((Node.draftAll result place body).andThen (otherwise.draft result place))
  | .mk (.whileLoop condition body) _ =>
    (Draft.load place condition.texts).andThen (Node.draftAll result place body)
  | .mk (.forLoop start condition step body) _ =>
    (start.draft result place).andThen ((Draft.load place condition.texts).andThen
      ((Node.draftAll result place body).andThen (step.draft result place)))
  | .mk (.included path program) _ => .file path (Node.draftAll result place program)
  | .mk (.ret value) _ =>
    match result with
    | some ty => .load place (Node.textsOr value ty)
    | none => .nothing
  | .mk (.call _ args) _ => .load place (Node.textsAll args)
  | _ => .nothing

/-- The strings that a statement list asks for. -/
def Node.draftAll (result : Option ScalarType) (place : Section) : List Node → Draft
  | [] => .nothing
  | n :: ns => (n.draft result place).andThen (Node.draftAll result place ns)

/-- The strings that whatever follows the block of a conditional asks for. -/
def Otherwise.draft (result : Option ScalarType) (place : Section) : Otherwise → Draft
  | .absent => .nothing
  | .chained n => n.draft result place
  | .block body => Node.draftAll result place body

end

/-- The strings that a program asks for, if some files were included before: the line break that the
library writes, and then those of its statements. -/
def Program.demands (p : Program) (included : List String) : Demands :=
  (.functions, "\n") :: (Node.draftAll none .program p.body included).1

/-! ### Loads -/

/-- The label that a line loads into a register. -/
def Line.load? : Line → Option Label
  | instr (.mov _ (.label l)) => some l
  | _ => none

/-- The labels that a piece of a listing loads into registers. -/
def Code.loads (code : Code) : List Label := code.filterMap Line.load?

@[simp] theorem Code.loads_nil : Code.loads [] = [] := rfl

@[simp] theorem Code.loads_append (a b : Code) :
    Code.loads (a ++ b) = Code.loads a ++ Code.loads b :=
  List.filterMap_append

/-- Code that refers to no label loads none. -/
theorem Code.loads_eq_nil {code : Code} (h : Code.refers code = []) : Code.loads code = [] := by
  refine List.filterMap_eq_nil_iff.2 fun line hline => ?_
  cases hl : line.load? with
  | none => rfl
  | some l =>
    have hrefers : l ∈ line.refers := by
      unfold Line.load? at hl
      split at hl
      · cases hl
        exact List.mem_append_right _ (List.mem_singleton_self _)
      · cases hl
    exact absurd hrefers (List.flatMap_eq_nil_iff.1 h line hline ▸ List.not_mem_nil)

/-! ### Lines of data -/

/-- A byte that is written as a decimal number, perhaps with blanks before it. -/
def readByte? (cs : List Char) : Option UInt8 :=
  let digits := cs.dropWhile (· = ' ')
  let value := Nat.ofDigitChars 10 digits 0
  if digits ≠ [] ∧ digits.all Char.isDigit ∧ value < 256 then some (.ofNat value) else none

/-- A line of data as the assembler reads it: a symbol, a colon, the directive, and bytes with
commas between them. -/
def readData? (text : String) : Option (String × List UInt8) :=
  let symbol := text.toList.takeWhile (· ≠ ':')
  match text.toList.dropWhile (· ≠ ':') with
  | ':' :: ' ' :: 'd' :: 'b' :: ' ' :: list =>
    ((list.splitOn ',').mapM readByte?).map (String.ofList symbol, ·)
  | _ => none

/-- The digits of a byte read as the byte. -/
theorem readByte?_toDigits {blanks : List Char} (hblanks : ∀ c ∈ blanks, c = ' ') (b : UInt8) :
    readByte? (blanks ++ Nat.toDigits 10 b.toNat) = some b := by
  have hdigits : ∀ c ∈ Nat.toDigits 10 b.toNat, c.isDigit = true := fun c hc =>
    Nat.isDigit_of_mem_toDigits (by decide) (by decide) hc
  have hdrop :
      (blanks ++ Nat.toDigits 10 b.toNat).dropWhile (· = ' ') = Nat.toDigits 10 b.toNat := by
    rw [List.dropWhile_append_of_pos fun c hc => decide_eq_true (hblanks c hc)]
    cases hcs : Nat.toDigits 10 b.toNat with
    | nil => rfl
    | cons c cs =>
      have hc : c.isDigit = true := hdigits c (hcs ▸ List.mem_cons_self)
      refine List.dropWhile_cons_of_neg fun h => ?_
      obtain rfl := of_decide_eq_true h
      exact absurd hc (by decide)
  have hvalue : Nat.ofDigitChars 10 (Nat.toDigits 10 b.toNat) 0 = b.toNat :=
    Nat.ofDigitChars_toDigits (by decide) (by decide)
  simp only [readByte?, hdrop, hvalue]
  rw [if_pos ⟨Nat.toDigits_ne_nil, List.all_eq_true.2 hdigits, b.toNat_lt⟩]
  exact congrArg some UInt8.ofNat_toNat

/-- The bytes of a line, as they are written. -/
def writtenBytes (data : List UInt8) : List Char :=
  data.flatMap (fun b => Nat.toDigits 10 b.toNat ++ [',', ' ']) ++ ['0']

theorem comma_notMem_byte {blanks : List Char} (hblanks : ∀ c ∈ blanks, c = ' ') (b : UInt8) :
    ',' ∉ blanks ++ Nat.toDigits 10 b.toNat := by
  intro hmem
  rcases List.mem_append.1 hmem with hmem | hmem
  · exact absurd (hblanks _ hmem) (by decide)
  · exact absurd (Nat.isDigit_of_mem_toDigits (by decide) (by decide) hmem) (by decide)

/-- Written bytes read as these bytes and a zero, also if blanks stand before them. -/
theorem readBytes_written (data : List UInt8) {blanks : List Char}
    (hblanks : ∀ c ∈ blanks, c = ' ') :
    ((blanks ++ writtenBytes data).splitOn ',').mapM readByte? = some (data ++ [0]) := by
  induction data generalizing blanks with
  | nil =>
    have hzero : readByte? (blanks ++ ['0']) = some 0 := readByte?_toDigits hblanks 0
    have hcomma : ',' ∉ blanks ++ ['0'] := comma_notMem_byte hblanks 0
    show ((blanks ++ ['0']).splitOn ',').mapM readByte? = some [0]
    rw [List.splitOn_eq_singleton hcomma, List.mapM_cons, hzero]
    rfl
  | cons b data ih =>
    have hparts : blanks ++ writtenBytes (b :: data) =
        (blanks ++ Nat.toDigits 10 b.toNat) ++ ',' :: ([' '] ++ writtenBytes data) := by
      simp only [writtenBytes, List.flatMap_cons, List.append_assoc, List.cons_append,
        List.nil_append]
    rw [hparts, List.splitOn_append_cons_self_of_not_mem (comma_notMem_byte hblanks b),
      List.mapM_cons, readByte?_toDigits hblanks b, ih fun c hc => List.mem_singleton.1 hc]
    rfl

/-- A label has no colon. -/
theorem Label.colon_notMem_text (l : Label) : ':' ∉ l.text.toList := by
  rw [Label.toList_text]
  intro hmem
  rcases List.mem_cons.1 hmem with hmem | hmem
  · exact absurd hmem (by decide)
  rcases List.mem_append.1 hmem with hmem | hmem
  · exact absurd (Nat.isDigit_of_mem_toDigits (by decide) (by decide) hmem) (by decide)
  · unfold Label.suffix at hmem
    split at hmem
    · cases hmem
    · rcases List.mem_cons.1 hmem with hmem | hmem
      · exact absurd hmem (by decide)
      · exact absurd (l.symbolic _ hmem) (by decide)

theorem Line.toList_text_bytes (l : Label) (data : List UInt8) :
    (Line.bytes l data).text.toList = l.text.toList ++
      (':' :: ' ' :: 'd' :: 'b' :: ' ' :: writtenBytes data) := by
  have hdigits :
      ∀ b : UInt8, (toString b.toNat ++ ", ").toList = Nat.toDigits 10 b.toNat ++ [',', ' '] := by
    intro b
    rw [String.toList_append]
    show (Nat.repr b.toNat).toList ++ _ = _
    rw [Nat.repr_eq_ofList_toDigits, String.toList_ofList]
    rfl
  show (l.text ++ ": db " ++ String.join (data.map fun b => toString b.toNat ++ ", ") ++
    "0").toList = _
  simp only [String.toList_append, String.toList_join, List.flatMap_map, hdigits, List.append_assoc]
  rfl

/-- A line of data reads as its label and its bytes, with a zero behind them. -/
theorem readData?_bytes (l : Label) (data : List UInt8) :
    readData? (Line.bytes l data).text = some (l.text, data ++ [0]) := by
  have hcolon : ∀ c ∈ l.text.toList, decide (c ≠ ':') = true := fun c hc =>
    decide_eq_true fun heq => l.colon_notMem_text (heq ▸ hc)
  have hbytes := @readBytes_written data [] nofun
  rw [List.nil_append] at hbytes
  have hrest : (':' :: ' ' :: 'd' :: 'b' :: ' ' :: writtenBytes data).dropWhile (· ≠ ':') =
    ':' :: ' ' :: 'd' :: 'b' :: ' ' :: writtenBytes data := rfl
  have hfront : (':' :: ' ' :: 'd' :: 'b' :: ' ' :: writtenBytes data).takeWhile (· ≠ ':') = [] :=
    rfl
  simp only [readData?, Line.toList_text_bytes, List.takeWhile_append_of_pos hcolon,
    List.dropWhile_append_of_pos hcolon, hrest, hfront, hbytes, List.append_nil,
    String.ofList_toList]
  rfl

end KuAsm

/-!
# Labels

A label is a number that no other label of a session has, and a hint that makes the listing easier
to read.  The number alone tells two labels apart.

* `sanitize` turns any text into letters, digits and underscores.
* `Label.text` is the symbol in the listing.
-/

namespace KuAsm

/-- Whether a character may stand in a symbol. -/
def isSymbolChar (c : Char) : Bool := c.isAlphanum || c == '_'

/-- The text with an underscore for every character that may not stand in a symbol. -/
def sanitize (s : String) : String :=
  String.ofList (s.toList.map fun c => if isSymbolChar c then c else '_')

theorem isSymbolChar_of_mem_sanitize {s : String} {c : Char} (hc : c ∈ (sanitize s).toList) :
    isSymbolChar c = true := by
  rw [sanitize, String.toList_ofList] at hc
  obtain ⟨d, -, rfl⟩ := List.mem_map.1 hc
  split
  · assumption
  · decide

/-- A symbol of the listing. -/
structure Label where
  /-- The number of the label in its session. -/
  number : Nat
  /-- What the label is for; may be empty. -/
  hint : String
  /-- The hint may stand in a symbol. -/
  symbolic : ∀ c ∈ hint.toList, isSymbolChar c = true
deriving DecidableEq, Repr

namespace Label

/-- The label with a number and any text as its hint. -/
def fresh (number : Nat) (hint : String) : Label :=
  ⟨number, sanitize hint, fun _ => isSymbolChar_of_mem_sanitize⟩

instance : Inhabited Label := ⟨fresh 0 ""⟩

/-- The symbol: `L`, the number, and the hint if there is one. -/
def text (l : Label) : String :=
  if l.hint = "" then "L" ++ toString l.number else "L" ++ toString l.number ++ "_" ++ l.hint

end Label

end KuAsm

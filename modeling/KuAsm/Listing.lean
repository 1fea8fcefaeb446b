import KuAsm.Machine.Instr
import KuAsm.Session

/-!
# Listings

The output of a compilation grows in three sections at once: the data, the functions and the main
program.  Lines are only ever added at the end.  String literals are pooled: the same text is placed
once.

* `Listing.place` gives the label of a literal, and adds its bytes when it is new.
* `Listing.assemble` puts the sections together.
-/

namespace KuAsm

/-- A section of the output. -/
inductive Section where
  | data | functions | program
deriving DecidableEq, Repr, Inhabited

/-- The output so far. -/
structure Listing where
  /-- The literals. -/
  data : Code
  /-- The bodies of all functions. -/
  functions : Code
  /-- The statements of the main program. -/
  program : Code
  /-- The labels of the literals, in the order of their first use. -/
  literals : List (String × Label)
deriving DecidableEq, Repr, Inhabited

namespace Listing

/-- No output. -/
def empty : Listing := ⟨[], [], [], []⟩

/-- The lines of a section. -/
def lines (l : Listing) : Section → Code
  | .data => l.data
  | .functions => l.functions
  | .program => l.program

/-- Add lines at the end of a section. -/
def append (l : Listing) (s : Section) (code : Code) : Listing :=
  match s with
  | .data => { l with data := l.data ++ code }
  | .functions => { l with functions := l.functions ++ code }
  | .program => { l with program := l.program ++ code }

/-- The label of a literal that was placed before. -/
def literal? (l : Listing) (text : String) : Option Label :=
  (l.literals.find? (·.1 == text)).map (·.2)

/-- The label of a literal; its bytes are added to the data when it is new. -/
def place (l : Listing) (s : Session) (text : String) : Label × Listing × Session :=
  match l.literal? text with
  | some label => (label, l, s)
  | none =>
    let (label, s) := s.mintLabel "str"
    (label,
      { l with
        data := l.data ++ [.bytes label text.toUTF8.toList]
        literals := l.literals ++ [(text, label)] },
      s.tell (.literalPlaced text label))

/-- The whole unit: data, functions, and the main program behind the entry symbol. -/
def assemble (l : Listing) (entry : String) : Code :=
  [.verbatim "bits 32", .verbatim "", .verbatim "section .data"] ++ l.data
    ++ [.verbatim "", .verbatim "section .text", .verbatim ("global " ++ entry), .verbatim ""]
    ++ l.functions
    ++ [.verbatim "", .verbatim (entry ++ ":")]
    ++ l.program
    ++ [.verbatim ""]

end Listing

end KuAsm

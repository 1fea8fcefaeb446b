import KuAsm.Text.Quoted

/-!
# Outlines

An outline shows a tree of named parts over several lines.  Every part stands on a line of its own,
four blanks further in than what it belongs to, and has a comma behind it.

* `Outline.text` writes an outline.
-/

namespace KuAsm

/-- A tree of parts. -/
inductive Outline where
  /-- Something that is shown on one line. -/
  | word (text : String)
  /-- A title and named parts between braces. -/
  | record (title : String) (members : List (String × Outline))
  /-- A title and one part between parentheses. -/
  | wrapped (title : String) (inner : Outline)
  /-- Parts between brackets. -/
  | items (parts : List Outline)
deriving Repr, Inhabited

namespace Outline

/-- A line break and the blanks in front of the next line. -/
def newline (indent : Nat) : String := "\n" ++ String.ofList (List.replicate indent ' ')

mutual

/-- The text of an outline whose first line is `indent` blanks in. -/
def textAt (indent : Nat) : Outline → String
  | word s => s
  | record title members =>
    title ++ " \x7b" ++ membersAt (indent + 4) members ++ newline indent ++ "\x7d"
  | wrapped title inner =>
    title ++ "(" ++ newline (indent + 4) ++ textAt (indent + 4) inner ++ "," ++
      newline indent ++ ")"
  | items [] => "[]"
  | items parts => "[" ++ partsAt (indent + 4) parts ++ newline indent ++ "]"

/-- The lines of named parts. -/
def membersAt (indent : Nat) : List (String × Outline) → String
  | [] => ""
  | (name, o) :: rest =>
    newline indent ++ name ++ ": " ++ textAt indent o ++ "," ++ membersAt indent rest

/-- The lines of parts without names. -/
def partsAt (indent : Nat) : List Outline → String
  | [] => ""
  | o :: rest => newline indent ++ textAt indent o ++ "," ++ partsAt indent rest

end

/-- The text of an outline. -/
def text (o : Outline) : String := o.textAt 0

/-- A string between quotes. -/
def quoted (s : String) : Outline := word (Text.quoted s)

end Outline

end KuAsm

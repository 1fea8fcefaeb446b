/-!
# Lines and places of a text

* `Text.lines` cuts a text into lines.
* `Text.contains` tells whether a text stands somewhere inside another one.
-/

namespace KuAsm.Text

/-- The line without the carriage return that may stand before a line break. -/
def chomp (line : List Char) : List Char :=
  match line.getLast? with
  | some '\r' => line.dropLast
  | _ => line

/-- The lines of a text.  `line` holds what was read of the current line, the last character
first. -/
def linesFrom (line : List Char) : List Char → List (List Char)
  | [] => if line = [] then [] else [line.reverse]
  | '\n' :: cs => chomp line.reverse :: linesFrom [] cs
  | c :: cs => linesFrom (c :: line) cs

/-- The lines of a text, without their line breaks.  A line break ends a line, so there is no empty
line behind the last one. -/
def lines (s : String) : List String := (linesFrom [] s.toList).map String.ofList

/-- Whether the first list stands somewhere inside the second. -/
def isInside (needle : List Char) : List Char → Bool
  | [] => needle.isEmpty
  | c :: cs => needle.isPrefixOf (c :: cs) || isInside needle cs

/-- Whether a text stands somewhere inside another one. -/
def contains (s needle : String) : Bool := isInside needle.toList s.toList

end KuAsm.Text

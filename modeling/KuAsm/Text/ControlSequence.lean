/-!
# Text without control sequences

A text can hold commands to a terminal.  The escape character opens a sequence of characters that is
obeyed and not shown; how the sequence goes on, and where it ends, depends on the characters behind
it.  A stream that no terminal reads gets neither these sequences nor the other control characters,
except those that leave a blank.

* `SequencePart.next` is the part of a sequence that follows a character.
* `withoutControls` is what remains of a text.
-/

namespace KuAsm.Text

/-- Where a text stands with respect to control sequences. -/
inductive SequencePart where
  /-- In no sequence. -/
  | outside
  /-- Behind the escape character. -/
  | opening
  /-- Behind characters that select what the last character of a short sequence means. -/
  | selection
  /-- In the parameters of a control function. -/
  | parameters
  /-- Behind the opening of a command to the device. -/
  | deviceOpening
  /-- In the parameters of a command to the device. -/
  | deviceParameters
  /-- Behind characters that select what a command to the device means. -/
  | deviceSelection
  /-- In a string that the byte 9C ends. -/
  | string
  /-- In a command to the operating system, which the bell character ends. -/
  | command
deriving DecidableEq, Repr, Inhabited

/-- Whether a character lies in a range, the ends included. -/
def isBetween (first last c : Char) : Bool := decide (first ≤ c) && decide (c ≤ last)

/-- Control characters that leave a blank: tab, line feed, form feed and carriage return. -/
def isBlankControl (c : Char) : Bool := c = '\t' || c = '\n' || c = '\x0c' || c = '\r'

/-- Whether a character is shown when it stands in no sequence. -/
def isText (c : Char) : Bool := decide (' ' ≤ c) && c ≠ '\x7f' || isBlankControl c

/-- Whether the bytes of a character hold the one that ends a string. -/
def endsString (c : Char) : Bool := (String.utf8EncodeChar c).contains 0x9c

namespace SequencePart

/-- The part behind a character that is not shown.  Two characters cancel a sequence, and the escape
character opens another one, wherever they stand. -/
def next (p : SequencePart) (c : Char) : SequencePart :=
  if c = '\x18' || c = '\x1a' then outside
  else if c = '\x1b' then opening
  else match p with
    | outside => outside
    | opening =>
      if isBetween ' ' '/' c then selection
      else if c = '[' then parameters
      else if c = ']' then command
      else if c = 'P' then deviceOpening
      else if c = 'X' || c = '^' || c = '_' then string
      else if isBetween '0' '~' c then outside
      else opening
    | selection => if isBetween '0' '~' c then outside else selection
    | parameters => if isBetween '@' '~' c then outside else parameters
    | deviceOpening =>
      if isBetween ' ' '/' c then deviceSelection
      else if isBetween '0' '?' c then deviceParameters
      else if isBetween '@' '~' c then string
      else deviceOpening
    | deviceParameters =>
      if isBetween ' ' '/' c then deviceSelection
      else if isBetween '<' '~' c then string
      else deviceParameters
    | deviceSelection => if isBetween '0' '~' c then string else deviceSelection
    | string => if endsString c then outside else string
    | command => if c = '\x07' then outside else command

/-- Whether a control character is obeyed at once, and not taken for a part of the sequence. -/
def obeysControls : SequencePart → Bool
  | outside | opening | selection | parameters => true
  | deviceOpening | deviceParameters | deviceSelection | string | command => false

/-- Whether a character is shown.  `flowing` tells whether the one before it was. -/
def shows (p : SequencePart) (flowing : Bool) (c : Char) : Bool :=
  isText c && (flowing || p = outside) || isBlankControl c && p.obeysControls

/-- The part behind a character that is shown: characters beyond the first 128 end a sequence, and
the others leave it as it is. -/
def afterShown (p : SequencePart) (c : Char) : SequencePart := if c ≤ '\x7f' then p else outside

/-- The characters of a text that are shown.  A blank is shown inside a sequence too.  What follows
it is text up to the next control character, and there the sequence goes on. -/
def shown (p : SequencePart) (flowing : Bool) : List Char → List Char
  | [] => []
  | c :: cs =>
    if p.shows flowing c then c :: (p.afterShown c).shown true cs else (p.next c).shown false cs

end SequencePart

/-- What remains of a text without control sequences and control characters. -/
def withoutControls (s : String) : String :=
  String.ofList (SequencePart.outside.shown false s.toList)

end KuAsm.Text

import KuAsm.Text.Visible

/-!
# Quoted text in notices and outlines

A string is shown between quotes so that its characters can be told apart: the usual escapes for the
zero character, tab, line breaks, backslash and quote, and the number of any other character that
would not be visible.
-/

namespace KuAsm.Text

/-- The number of a character in lower-case hexadecimal digits between braces. -/
def numbered (c : Char) : List Char :=
  ['\\', 'u', '\x7b'] ++ Nat.toDigits 16 c.toNat ++ ['\x7d']

/-- A character as it stands between quotes. -/
def shown (c : Char) : List Char :=
  if c = '\x00' then ['\\', '0']
  else if c = '\t' then ['\\', 't']
  else if c = '\r' then ['\\', 'r']
  else if c = '\n' then ['\\', 'n']
  else if c = '\\' then ['\\', '\\']
  else if c = '"' then ['\\', '"']
  else if isVisible c then [c]
  else numbered c

/-- A string between quotes. -/
def quoted (s : String) : String := String.ofList ('"' :: s.toList.flatMap shown ++ ['"'])

end KuAsm.Text

import ParserMachine.Text.Hidden

/-!
# Quoted text

A text between double quotes, in which the quote, the backslash and every character that would
not show as itself is written as an escape. The single quote stands for itself.
-/

namespace ParserMachine.Text

/-- How one character is written between double quotes: NUL, tab, carriage return and line feed
have short escapes, other hidden characters are written by their code point in hexadecimal. -/
def escape (c : Char) : List Char :=
  if c = '\x00' then ['\\', '0']
  else if c = '\t' then ['\\', 't']
  else if c = '\r' then ['\\', 'r']
  else if c = '\n' then ['\\', 'n']
  else if c = '\\' then ['\\', '\\']
  else if c = '"' then ['\\', '"']
  else if isHidden c then ['\\', 'u', '\x7b'] ++ Nat.toDigits 16 c.toNat ++ ['\x7d']
  else [c]

/-- A text between double quotes. -/
def quoted (cs : List Char) : String :=
  String.ofList ('"' :: cs.flatMap escape ++ ['"'])

end ParserMachine.Text

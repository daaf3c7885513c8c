import ParserMachine.Grammar.Combinators
import ParserMachine.Text.Alphabetic
import ParserMachine.Text.Blank

/-!
# Parsers of characters
-/

namespace ParserMachine.Build.Characters

/-- Exactly these characters. -/
def string (s : String) : Build Char NodeId := literal s.toList

/-- Any character. -/
def anyChar : Build Char NodeId := satisfyLabeled "any character" fun _ => true

/-- Any of these characters. -/
def oneOf (s : String) : Build Char NodeId :=
  satisfyLabeled ("one of " ++ Text.quoted s.toList) fun c => s.toList.contains c

/-- Any character but these. -/
def noneOf (s : String) : Build Char NodeId :=
  satisfyLabeled ("none of " ++ Text.quoted s.toList) fun c => !s.toList.contains c

/-- A decimal digit of ASCII. -/
def digit : Build Char NodeId := satisfyLabeled "digit" Char.isDigit

/-- An alphabetic character. -/
def letter : Build Char NodeId := satisfyLabeled "letter" Text.isAlphabetic

/-- A blank character. -/
def space : Build Char NodeId := satisfyLabeled "whitespace" Text.isBlank

/-- Any number of blank characters, discarded. -/
def spaces : Build Char NodeId := do skipMany (← space)

end ParserMachine.Build.Characters

import ParserMachine.Error.Item

/-!
# What would have been accepted

The set of items of which any would have let the parser go on.
-/

namespace ParserMachine

/-- The items of which any would have been accepted. -/
abbrev ExpectedSet (τ : Type) [Token τ] := SortedSet (ErrorItem τ)

namespace ExpectedSet

variable {τ : Type} [Token τ]

/-- A named thing was expected. -/
def label (name : String) : ExpectedSet τ := SortedSet.single (.label name)

/-- Exactly this run of tokens was expected. -/
def tokens (ts : List τ) : ExpectedSet τ := SortedSet.single (.tokens ts)

/-- Lists alternatives in words: `a`, `a or b`, `a, b, or c`. -/
def disjunction : List String → String
  | [] => ""
  | [a] => a
  | [a, b] => a ++ " or " ++ b
  | a :: rest => String.intercalate ", " (a :: rest.dropLast) ++ ", or " ++ rest.getLastD ""

/-- The names of the items in words. Items with the same name are listed once, and the names stand
in the order of texts. -/
def render (e : ExpectedSet τ) : String :=
  disjunction (SortedSet.ofList (e.toList.map ErrorItem.render)).toList

end ExpectedSet

end ParserMachine

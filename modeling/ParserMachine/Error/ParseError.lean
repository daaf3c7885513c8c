import ParserMachine.Error.Expected
import ParserMachine.Error.Failure

/-!
# Parse errors

An error lies at an offset and is either trivial (something was found where something else was
expected) or fancy (raised on purpose). A run that tries several ways meets several errors;
`ParseError.merge` makes one of two by the longest match: the error further into the input wins,
and at one offset the reports are joined.
-/

namespace ParserMachine

/-- An error at an offset of the input. -/
inductive ParseError (τ : Type) [Token τ] where
  /-- Something was found where something else was expected. -/
  | trivial (offset : Nat) (unexpected : Option (ErrorItem τ)) (expected : ExpectedSet τ)
  /-- Raised on purpose. -/
  | fancy (offset : Nat) (details : List Detail)
deriving DecidableEq

/-- The error that a deliberate failure raises at an offset. -/
def Failure.raise {τ : Type} [Token τ] (offset : Nat) : Failure → ParseError τ
  | .message texts => .fancy offset (texts.map .message)
  | .unexpected name => .trivial offset (some (.label name)) .empty
  | .custom e => .fancy offset [.custom e]

namespace ParseError

variable {τ : Type} [Token τ]

/-- An error that says nothing but where it is. -/
def unknown (offset : Nat) : ParseError τ := .trivial offset none .empty

/-- Where the error lies. -/
def offset : ParseError τ → Nat
  | trivial o _ _ | fancy o _ => o

/-- The same error at another offset. -/
def atOffset (o : Nat) : ParseError τ → ParseError τ
  | trivial _ u e => trivial o u e
  | fancy _ ds => fancy o ds

/-- What was found, of a trivial error. -/
def unexpected? : ParseError τ → Option (ErrorItem τ)
  | trivial _ u _ => u
  | fancy _ _ => none

/-- What would have been accepted, of a trivial error. -/
def expected? : ParseError τ → Option (ExpectedSet τ)
  | trivial _ _ e => some e
  | fancy _ _ => none

/-- Whether the error was not raised on purpose. -/
def isTrivial : ParseError τ → Bool
  | trivial _ _ _ => true
  | fancy _ _ => false

/-- Replaces what a trivial error expected; a fancy one stays as it is. -/
def withExpected (expected : ExpectedSet τ) : ParseError τ → ParseError τ
  | trivial o u _ => trivial o u expected
  | fancy o ds => fancy o ds

/-- Of two reports of what was found the one that says more; one that says nothing gives way. -/
def mergeUnexpected : Option (ErrorItem τ) → Option (ErrorItem τ) → Option (ErrorItem τ)
  | some a, some b => some (a.moreSpecific b)
  | some a, none => some a
  | none, b => b

/-- Joins two errors of one offset. A fancy error beats a trivial one, two fancy errors join their
details, and two trivial ones join what they expected and keep the report that says more. -/
def mergeSameOffset : ParseError τ → ParseError τ → ParseError τ
  | fancy o ds, fancy _ ds' => fancy o (SortedSet.ofList (ds ++ ds')).toList
  | fancy o ds, trivial _ _ _ => fancy o ds
  | trivial _ _ _, fancy o ds => fancy o ds
  | trivial o u e, trivial _ u' e' => trivial o (mergeUnexpected u u') (e.union e')

/-- One error of two: the one further into the input, or both joined. -/
def merge (a b : ParseError τ) : ParseError τ :=
  match compare a.offset b.offset with
  | .gt => a
  | .lt => b
  | .eq => mergeSameOffset a b

/-- Merging where either error may be absent. -/
def mergeOpt : Option (ParseError τ) → Option (ParseError τ) → Option (ParseError τ)
  | some a, some b => some (a.merge b)
  | some a, none => some a
  | none, b => b

/-- The error in words. -/
def render : ParseError τ → String
  | trivial o u e =>
    let found := match u with
      | some item => " unexpected " ++ item.render ++ (if e.isEmpty then "" else ",")
      | none => ""
    let wanted := if e.isEmpty then "" else " expected " ++ ExpectedSet.render e
    let nothing := if u.isNone && e.isEmpty then " unknown parse error" else ""
    "at offset " ++ toString o ++ ":" ++ found ++ wanted ++ nothing
  | fancy o ds =>
    "at offset " ++ toString o ++ ": " ++ String.intercalate "; " (ds.map Detail.render)

/-! ### Amending errors -/

/-- The largest offset there is: offsets have 64 bits. -/
def maxOffset : Nat := UInt64.size - 1

/-- Moves an error by a distance, stopping at the first and at the largest offset. -/
def shift (d : Int) (e : ParseError τ) : ParseError τ :=
  e.atOffset (min maxOffset (e.offset + d).toNat)

/-- A message in the error's place. -/
def toMessage (text : String) (e : ParseError τ) : ParseError τ :=
  .fancy e.offset [.message text]

/-- The error with all user errors in it made anew at a time. -/
def renew (time : Nat) : ParseError τ → ParseError τ
  | trivial o u e => trivial o u e
  | fancy o ds => fancy o (ds.map (Detail.renew time))

end ParseError

end ParserMachine

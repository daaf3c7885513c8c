import ParserMachine.Value

/-!
# Parser expressions

A parser is an expression: a leaf that looks at the input or not at all, a unary form around one
parser, or a binary form that joins two. The three kinds of form are types of their own, so that
what treats all forms alike (children, traversals, graphs of shared expressions) needs no case for
each. `Expr` is the tree; graphs with sharing and forward references are in
`ParserMachine.Grammar.Graph`.

An alternative commits to its first parser as soon as that has consumed input; `attempt` gives the
input back when its parser fails.
-/

namespace ParserMachine

/-- What happens to an error that escapes a guarded parser. -/
inductive GuardMode (τ : Type) [Token τ] where
  /-- It becomes a value, and the input is given back. -/
  | capture
  /-- It is amended and goes on. -/
  | amend (f : ParseError τ → ParseError τ)
  /-- It is merged with another one and goes on. The user errors of the other one are made anew
  each time. -/
  | merge (other : ParseError τ)

/-- Which result of a sequence is kept. -/
inductive SeqKind (τ : Type) [Token τ] where
  /-- Both, combined. -/
  | both (f : Value τ → Value τ → Value τ)
  /-- The first one. -/
  | left
  /-- The second one. -/
  | right

/-- Parsers without parts. -/
inductive Leaf (τ : Type) [Token τ] where
  /-- Succeeds with a value and consumes nothing. -/
  | pure (v : Value τ)
  /-- Fails on purpose. -/
  | fail (f : Failure)
  /-- Fails and says nothing. -/
  | empty
  /-- One token that passes a test. -/
  | satisfy (test : τ → Bool) (expected : ExpectedSet τ)
  /-- Exactly this token. -/
  | single (t : τ) (expected : ExpectedSet τ)
  /-- Exactly these tokens; the result is `v`. -/
  | literal (ts : List τ) (v : Value τ) (expected : ExpectedSet τ)
  /-- The end of the input. -/
  | eof
  /-- A subroutine, by its label. -/
  | call (label : Nat) (recursive : Bool)

/-- Forms around one parser. -/
inductive Unary (τ : Type) [Token τ] where
  /-- Applies a function to the result. -/
  | map (f : Value τ → Value τ)
  /-- Gives the input back when the parser succeeds and when it fails. -/
  | lookAhead
  /-- Succeeds, with nothing consumed, where the parser fails. -/
  | notFollowedBy
  /-- Gives the input back when the parser fails. -/
  | attempt
  /-- As many times as it succeeds. -/
  | many
  /-- The consumed tokens in place of the result. -/
  | chunk
  /-- The consumed tokens beside the result. -/
  | matchChunk
  /-- Names the parser in messages; without a name, keeps it out of them. -/
  | label (name : Option String)
  /-- Guards the parser against its own errors. -/
  | guard (mode : GuardMode τ)

/-- Forms that join two parsers. -/
inductive Binary (τ : Type) [Token τ] where
  /-- One after the other. -/
  | seq (kind : SeqKind τ)
  /-- The second if the first fails without having consumed input. -/
  | alt
  /-- The first yields a verdict: a left one runs the second parser and combines the results by
  `f`, a right one is the result. -/
  | branch (f : Value τ → Value τ → Value τ)

/-- A parser as a tree. -/
inductive Expr (τ : Type) [Token τ] where
  /-- A parser without parts. -/
  | leaf (l : Leaf τ)
  /-- A form around a parser. -/
  | unary (u : Unary τ) (p : Expr τ)
  /-- A form that joins two parsers. -/
  | binary (b : Binary τ) (p q : Expr τ)

variable {τ : Type} [Token τ]

/-- The name of a leaf. -/
def Leaf.name : Leaf τ → String
  | pure _ => "pure"
  | fail _ => "fail"
  | empty => "empty"
  | satisfy _ _ => "satisfy"
  | single _ _ => "token"
  | literal _ _ _ => "literal"
  | eof => "eof"
  | call _ _ => "call"

/-- The name of a unary form. -/
def Unary.name : Unary τ → String
  | map _ => "map"
  | lookAhead => "look_ahead"
  | notFollowedBy => "not_followed_by"
  | attempt => "attempt"
  | many => "many"
  | chunk => "chunk"
  | matchChunk => "with_chunk"
  | label _ => "label"
  | guard _ => "catch"

/-- The name of a binary form. -/
def Binary.name : Binary τ → String
  | seq _ => "sequence"
  | alt => "alternative"
  | branch _ => "branch"

namespace Expr

/-- The name of the outermost form. -/
def name : Expr τ → String
  | leaf l => l.name
  | unary u _ => u.name
  | binary b _ _ => b.name

/-! The commonest expressions by name. -/

@[match_pattern] abbrev pure (v : Value τ) : Expr τ := leaf (.pure v)
@[match_pattern] abbrev fail (f : Failure) : Expr τ := leaf (.fail f)
@[match_pattern] abbrev empty : Expr τ := leaf .empty
@[match_pattern] abbrev map (f : Value τ → Value τ) (p : Expr τ) : Expr τ := unary (.map f) p
@[match_pattern] abbrev lookAhead (p : Expr τ) : Expr τ := unary .lookAhead p
@[match_pattern] abbrev notFollowedBy (p : Expr τ) : Expr τ := unary .notFollowedBy p
@[match_pattern] abbrev attempt (p : Expr τ) : Expr τ := unary .attempt p
@[match_pattern] abbrev many (p : Expr τ) : Expr τ := unary .many p
@[match_pattern] abbrev label (name : Option String) (p : Expr τ) : Expr τ :=
  unary (.label name) p
@[match_pattern] abbrev seq (kind : SeqKind τ) (p q : Expr τ) : Expr τ := binary (.seq kind) p q
@[match_pattern] abbrev alt (p q : Expr τ) : Expr τ := binary .alt p q

end Expr

/-- A parser that is called by its label. -/
structure Subroutine (τ : Type) [Token τ] where
  /-- What the subroutine runs. -/
  body : Expr τ
  /-- Whether a call inside the subroutine may reach it again. -/
  recursive : Bool

/-- A parser together with the subroutines it calls; the label of a subroutine is its position. -/
structure Bound (τ : Type) [Token τ] where
  /-- Where the run begins. -/
  main : Expr τ
  /-- The subroutines by label. -/
  subroutines : List (Subroutine τ)

end ParserMachine

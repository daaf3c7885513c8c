import ParserMachine.Expr

/-!
# The first token of a parser

The lead of a parser, where it is known, is a set of tokens of which one must come first for the
parser to succeed. Where none of them comes first the parser fails without consuming input, and what
it then reports as expected is known too. An alternation can choose by the lead.

The analysis runs over the expression (`Expr.leadWith`), given what to do at a call; calls are
followed to a bounded depth and never into a subroutine that is being followed already
(`Expr.leadFrom`).
-/

namespace ParserMachine

/-- What is known of the first token of a parser. -/
structure Lead (τ : Type) [Token τ] where
  /-- The tokens of which one must come first, each once, in the order of the expression. -/
  tokens : List τ
  /-- What is reported as expected when none of them comes first. -/
  expected : ExpectedSet τ

variable {τ : Type} [Token τ]

/-- The lead of an alternative: either lead. -/
def Lead.or (a b : Lead τ) : Lead τ :=
  ⟨a.tokens ++ b.tokens.filter (· ∉ a.tokens), a.expected.union b.expected⟩

/-- Under a label only the label is expected, and nothing under a hidden one. -/
def Lead.label (name : Option String) (l : Lead τ) : Lead τ :=
  ⟨l.tokens, (name.map ExpectedSet.label).getD .empty⟩

namespace Expr

/-- Whether the expression succeeds with a constant. -/
def isPure : Expr τ → Bool
  | pure _ => true
  | _ => false

/-- The lead of an expression, given that of every call. Parsers that may succeed without looking
at a token, or that look at it by a test of their own, have none. -/
def leadWith (ofCall : Nat → Option (Lead τ)) : Expr τ → Option (Lead τ)
  | leaf (.single t e) | leaf (.literal (t :: _) _ e) => some ⟨[t], e⟩
  | leaf (.call l _) => ofCall l
  | leaf _ => none
  | unary (.map _) p | unary .attempt p | unary .chunk p | unary .matchChunk p =>
    leadWith ofCall p
  | unary (.label name) p => (leadWith ofCall p).map (Lead.label name)
  | unary .lookAhead _ | unary .notFollowedBy _ | unary .many _ | unary (.guard _) _ => none
  | binary (.seq _) p q => if p.isPure then leadWith ofCall q else leadWith ofCall p
  | binary (.branch _) p _ => leadWith ofCall p
  | binary .alt p q => do return (← leadWith ofCall p).or (← leadWith ofCall q)

/-- The lead of an expression in which calls are followed at most `depth` deep, and not into the
subroutines of `path`. -/
def leadFrom (subroutines : Array (Subroutine τ)) :
    Nat → List Nat → Expr τ → Option (Lead τ)
  | 0, _, p => p.leadWith fun _ => none
  | depth + 1, path, p =>
    p.leadWith fun l =>
      if l ∈ path then none
      else do
        let s ← subroutines[l]?
        leadFrom subroutines depth (l :: path) s.body

/-- How deep calls are followed. -/
def maxCallDepth : Nat := 16

/-- The lead of an expression. -/
def lead (subroutines : Array (Subroutine τ)) (p : Expr τ) : Option (Lead τ) :=
  p.leadFrom subroutines maxCallDepth []

end Expr

end ParserMachine

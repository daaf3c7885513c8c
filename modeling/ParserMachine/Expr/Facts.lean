import ParserMachine.Expr

/-!
# What is known of a parser beforehand

A cautious summary of how a parser may behave on any input: whether it can fail, whether it may
consume input when it succeeds, and whether a failure always leaves the input where it was.
-/

namespace ParserMachine

/-- How a parser may behave. -/
structure Facts where
  /-- Whether it may fail. -/
  canFail : Bool
  /-- Whether it may consume input when it succeeds. -/
  mayConsume : Bool
  /-- Whether it never consumes input when it fails. -/
  atomic : Bool
deriving DecidableEq

namespace Facts

/-- Nothing is known. -/
def unknown : Facts := ⟨true, true, false⟩

/-- Succeeds and consumes nothing. -/
def idle : Facts := ⟨false, false, true⟩

/-- Consumes nothing, but may fail. -/
def check : Facts := ⟨true, false, true⟩

/-- Consumes one token or fails. -/
def oneToken : Facts := ⟨true, true, true⟩

/-- One after the other. A failure has consumed nothing if neither parser's own has, and if the
second cannot fail once the first has consumed input. -/
def seq (a b : Facts) : Facts :=
  ⟨a.canFail || b.canFail, a.mayConsume || b.mayConsume,
    a.atomic && !(a.mayConsume && b.canFail) && b.atomic⟩

/-- The second if the first fails where it began. -/
def alt (a b : Facts) : Facts :=
  ⟨a.canFail && (b.canFail || !a.atomic), a.mayConsume || b.mayConsume, a.atomic && b.atomic⟩

/-- Whether it succeeds without consuming anything, on every input. -/
def isIdle (f : Facts) : Bool := !f.canFail && !f.mayConsume

end Facts

variable {τ : Type} [Token τ]

/-- What is known of a leaf. -/
def Leaf.facts : Leaf τ → Facts
  | pure _ => .idle
  | empty | fail _ | eof => .check
  | single _ _ | satisfy _ _ => .oneToken
  | literal [] _ _ => .idle
  | literal [_] _ _ => .oneToken
  | literal _ _ _ => .unknown
  | call _ _ => .unknown

/-- What is known of a unary form, from what is known of its parser. -/
def Unary.facts (f : Facts) : Unary τ → Facts
  | map _ | chunk | matchChunk | label _ => f
  | lookAhead => ⟨f.canFail, false, true⟩
  | notFollowedBy => .check
  | attempt => ⟨f.canFail, f.mayConsume, true⟩
  | many => ⟨!f.atomic, f.mayConsume, f.atomic⟩
  | guard _ => .unknown

/-- What is known of a binary form, from what is known of its parsers. -/
def Binary.facts (f g : Facts) : Binary τ → Facts
  | seq _ | branch _ => .seq f g
  | alt => .alt f g

/-- What is known of a parser. -/
def Expr.facts : Expr τ → Facts
  | leaf l => l.facts
  | unary u p => u.facts p.facts
  | binary b p q => b.facts p.facts q.facts

end ParserMachine

import ParserMachine.Grammar.Graph

/-!
# When two nodes are the same parser

Functions, tests, constants and references have no equality but their identity, so two nodes that
hold one are the same only if they are one node. All other nodes are the same if they agree part by
part. `Grammar.keepsParts` says when a node over other parts is the same as before.
-/

namespace ParserMachine

variable {τ : Type} [Token τ]

/-- Whether two different leaves are the same parser. -/
def Leaf.same : Leaf τ → Leaf τ → Bool
  | fail f, fail g => f = g
  | empty, empty | eof, eof => true
  | single t e, single u e' => t = u && e = e'
  | call l r, call l' r' => l = l' && r = r'
  | _, _ => false

/-- Whether two different unary forms are the same. -/
def Unary.same : Unary τ → Unary τ → Bool
  | lookAhead, lookAhead | notFollowedBy, notFollowedBy | attempt, attempt | many, many
  | chunk, chunk | matchChunk, matchChunk | guard .capture, guard .capture => true
  | label a, label b => a = b
  | _, _ => false

/-- Whether two different binary forms are the same. -/
def Binary.same : Binary τ → Binary τ → Bool
  | seq .left, seq .left | seq .right, seq .right | alt, alt => true
  | _, _ => false

namespace Grammar

/-- Whether two nodes are the same parser, looking at most `depth` parts deep. -/
def sameFor (g : Grammar τ) : Nat → NodeId → NodeId → Bool
  | 0, p, q => p = q
  | depth + 1, p, q =>
    p = q ||
      match g.node p, g.node q with
      | .leaf l, .leaf m => l.same m
      | .unary u p', .unary v q' => u.same v && sameFor g depth p' q'
      | .binary b p₁ p₂, .binary c q₁ q₂ =>
        b.same c && sameFor g depth p₁ q₁ && sameFor g depth p₂ q₂
      | .lazy c, .lazy d => c = d
      | _, _ => false

/-- Whether two nodes are the same parser. Parts come before wholes, so no path is longer than the
number of nodes. -/
def same (g : Grammar τ) (p q : NodeId) : Bool := g.sameFor g.nodes.size p q

/-- Whether a node over the parts of `q` is the same parser as `p`, which has the same form. -/
def keepsParts (g : Grammar τ) (p q : NodeId) : Bool :=
  (g.children p).length = (g.children q).length &&
    ((g.children p).zip (g.children q)).all fun (a, b) => g.same a b

end Grammar

namespace Build

/-- The form of a node over other parts; those that are not given are parsers that fail and say
nothing. -/
def rebuild (p : NodeId) (kids : List NodeId) : Build τ NodeId := do
  let filler ← node (.leaf .empty)
  node (((← get).node p).withChildren filler kids)

end Build

end ParserMachine

import ParserMachine.Compile
import ParserMachine.Proofs.Binding.Correct
import ParserMachine.Proofs.Linking.Placement
import ParserMachine.Proofs.Simplification.Off

/-!
# Programs without optimizations

A program that was compiled without optimizations comes to the outcome of the evaluation of the grammar's
graph (`Grammar.parse_of_evaluates`).
-/

namespace ParserMachine

variable {τ : Type} [Token τ]

/-- The parse of a program without optimizations comes to what the main expression replies. -/
theorem Bound.parse_of_evalAt {b : Bound τ} {p : Program τ}
    (hcompile : b.compile .unoptimized = .ok p) {input : List τ} {depth : Nat} {reply : Reply τ}
    (hreply : b.evalAt .unoptimized input depth = some reply) :
    ∃ n o, p.parse n input = some o ∧ (reply.outcome input).Agrees o := by
  unfold compile at hcompile
  obtain ⟨b', hoptimize, hcompile⟩ := bind_eq_ok_iff.1 hcompile
  obtain ⟨a, hgenerate, hlink⟩ := bind_eq_ok_iff.1 hcompile
  obtain rfl := optimize_of_off rfl hoptimize
  have hgenerates := generates_of_generate hgenerate
  exact (hgenerates.parses hreply).parse hgenerates.sound hlink

/-- A parse without optimizations comes to exactly what the evaluation of the root replies: the value
or the error, and what is left of the input. -/
theorem Grammar.parse_of_evaluates {g : Grammar τ} {root : NodeId} {p : Program τ}
    (hcompile : g.compile .unoptimized root = .ok p) {input : List τ} {reply : Reply τ}
    (heval : g.Evaluates input.toArray root .first reply) (hverdict : reply ≠ .stuck) :
    ∃ n, ∀ steps, n ≤ steps → p.parse steps input = some (reply.outcome input) := by
  unfold compile at hcompile
  obtain ⟨b, hbind, hcompile⟩ := bind_eq_ok_iff.1 hcompile
  obtain ⟨depth, hreply⟩ := heval.bind (o := .unoptimized) rfl hbind
  obtain ⟨n, o, hparse, hagrees⟩ := Bound.parse_of_evalAt hcompile hreply
  refine ⟨n, fun steps hsteps => ?_⟩
  rw [Program.parse_mono hparse hsteps]
  cases reply with
  | done v r => exact congrArg some (Eq.symm hagrees)
  | failed e r => exact congrArg some (Eq.symm hagrees)
  | stuck => exact absurd rfl hverdict

/-- An `x` in any number of parentheses. -/
def Grammar.parenthesized : Grammar Char where
  nodes := #[.lazy 0, .leaf (.single '(' (ExpectedSet.tokens ['('])), .binary (.seq .right) 1 0,
    .leaf (.single ')' (ExpectedSet.tokens [')'])), .binary (.seq .left) 2 3,
    .leaf (.single 'x' (ExpectedSet.tokens ['x'])), .binary .alt 4 5]
  cells := #[.defined 6]

theorem Grammar.parse_of_evaluates_parenthesized :
    ∃ p n, parenthesized.compile .unoptimized 6 = .ok p ∧
      ∀ steps, n ≤ steps → p.parse steps ['(', 'x', ')', '!'] = some (.done (.tok 'x') ['!']) := by
  have hok : (parenthesized.compile .unoptimized 6).isOk = true := by decide +kernel
  cases hcompile : parenthesized.compile .unoptimized 6 with
  | error e =>
    rw [hcompile] at hok
    cases hok
  | ok p =>
    have heval : parenthesized.Evaluates #['(', 'x', ')', '!'] 6 .first
        (.done (.tok 'x') ⟨3, some (.trivial 1 (some (.tokens ['x'])) (ExpectedSet.tokens ['('])), 0⟩) :=
      ⟨8, by cbv⟩
    obtain ⟨n, hparse⟩ := Grammar.parse_of_evaluates hcompile heval (by rintro ⟨⟩)
    exact ⟨p, n, rfl, hparse⟩

end ParserMachine

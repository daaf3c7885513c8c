import ParserMachine.Proofs.Compiling.Realizing
import ParserMachine.Proofs.Recognition.Progress

/-!
# What leads say of programs

The lead of an expression is what a search for it comes to, and it is exact: elsewhere than in front of its
tokens the expression fails in place and reports what the lead expects, and so does the program of it
(`Expr.lead_exact`).
-/

namespace ParserMachine

variable {τ : Type} [Token τ]

open ParseError

/-- The outcome of a parse that fails at the first token. -/
theorem Reply.Expects.outcome_eq {input : List τ} {expected : ExpectedSet τ} {reply : Reply τ}
    (h : reply.Expects input.toArray .first expected) :
    reply.outcome input = .failed (Reading.first.errorHere input.toArray expected) input := by
  obtain ⟨last, s, rfl, hplace, hreport⟩ := h.exists_failed
  have hreport : mergeOpt s.hints (some _) = some (Reading.first.errorHere input.toArray expected) :=
    hreport.trans (none_mergeOpt _)
  have hplace : s.offset = 0 := hplace
  unfold outcome
  dsimp only
  rw [hplace, List.drop_zero]
  cases hhints : s.hints with
  | none =>
    rw [hhints] at hreport
    exact congrArg (Outcome.failed · input) (Option.some.inj hreport)
  | some e =>
    rw [hhints] at hreport
    exact congrArg (Outcome.failed · input) (Option.some.inj hreport)

/-- The program of an expression with a lead rejects input that does not begin with one of its tokens. -/
theorem Bound.Closed.exists_refuting {b : Bound τ} (h : b.Closed) (o : Options) {lead : Lead τ}
    (hlead : b.main.lead b.subroutines.toArray = some lead) :
    ∃ program, b.assemble o = .ok program ∧
      ∀ input : List τ, (∀ t, input.head? = some t → t ∉ lead.tokens) → ∃ n, ∀ steps, n ≤ steps →
        program.parse steps input =
          some (.failed (Reading.first.errorHere input.toArray lead.expected) input) := by
  obtain ⟨a, program, hgenerate, hlink, hgenerates, hsound, hrefines⟩ := h.exists_link o
  refine ⟨program, bind_eq_ok_iff.2 ⟨a, hgenerate, hlink⟩, fun input hinput => ?_⟩
  have hfirst (t : τ) (ht : Reading.first.current? input.toArray = some t) : t ∉ lead.tokens := by
    apply hinput t
    rw [List.head?_eq_getElem?, ← List.getElem?_toArray]
    exact ht
  have hrefutes : lead.Refutes input.toArray
      (b.main.evalAt ⟨o, b.subroutines.toArray⟩ input.toArray (Expr.maxCallDepth + 1)) :=
    Expr.lead_refutes hlead input.toArray (Nat.lt_succ_self _)
  obtain ⟨reply, hreply, hexpects⟩ := hrefutes .first hfirst
  obtain ⟨n, outcome, hparse, hagrees⟩ := (hrefines.parses (hgenerates.parses hreply)).parse hsound hlink
  rw [hexpects.outcome_eq] at hagrees
  refine ⟨n, fun steps hsteps => ?_⟩
  rw [Program.parse_mono hparse hsteps]
  exact congrArg some (Eq.symm hagrees)

/-- For every expression the search for its lead ends and comes to the lead. If there is one, then wherever the
current token is none of its tokens, or there is no token, the expression fails with the cursor in place, and the
hints from inside, merged with its error, are the error that what the lead expects was expected there. Wherever
the expression succeeds, it has consumed a token. This holds for all subroutines, at every depth that is enough
to follow calls for the lead, and whether tables choose among alternatives or not. The program of the expression
reports so at the first token. -/
theorem Expr.lead_exact (o : Options) (subroutines : List (Subroutine τ)) (p : Expr τ) :
    (∀ result, Lead.Search subroutines.toArray [⟨p, false, []⟩] ⟨[], .empty⟩ result ↔
      result = p.lead subroutines.toArray) ∧
    ∀ lead, p.lead subroutines.toArray = some lead →
      (∀ (input : Array τ) (r : Reading τ), (∀ t, r.current? input = some t → t ∉ lead.tokens) →
        ∀ depth, maxCallDepth < depth → ∃ e s inside,
          p.evalAt ⟨o, subroutines.toArray⟩ input depth r = some (.failed e s) ∧ s.offset = r.offset ∧
            s.hints = mergeOpt r.hints inside ∧
            mergeOpt inside (some e) = some (.trivial r.offset (some (r.here input)) lead.expected)) ∧
      (∀ (input : Array τ) (r : Reading τ) (depth : Nat) (v : Value τ) (s : Reading τ),
        p.evalAt ⟨o, subroutines.toArray⟩ input depth r = some (.done v s) → r.offset < s.offset) ∧
      (Bound.Closed ⟨p, subroutines⟩ → ∃ program, Bound.assemble o ⟨p, subroutines⟩ = .ok program ∧
        ∀ input : List τ, (∀ t, input.head? = some t → t ∉ lead.tokens) → ∃ n, ∀ steps, n ≤ steps →
          program.parse steps input =
            some (.failed (.trivial 0 (some (Reading.first.here input.toArray)) lead.expected) input)) := by
  refine ⟨search_iff subroutines.toArray p, fun lead hlead => ⟨?_, ?_, ?_⟩⟩
  · intro input r hr depth hdepth
    have hrefutes : lead.Refutes input (p.evalAt ⟨o, subroutines.toArray⟩ input depth) :=
      lead_refutes hlead input hdepth
    obtain ⟨_, hreply, last, s, inside, rfl, hplace, hhints, hreport⟩ := hrefutes r hr
    exact ⟨_, s, inside, hreply, hplace, hhints, hreport⟩
  · intro input r depth v s hdone
    have hadvances : (p.evalAt ⟨o, subroutines.toArray⟩ input depth).Advances 1 :=
      lead_advances hlead input depth
    exact hadvances r v s hdone
  · intro hclosed
    exact hclosed.exists_refuting o hlead

/-- A name under a label, or one in parentheses. -/
def Bound.bracketed : Bound Char where
  main := .leaf (.call 0 true)
  subroutines := [⟨.label (some "term") (.alt
    (.seq .right (.leaf (.single '(' (ExpectedSet.tokens ['('])))
      (.seq .left (.leaf (.call 0 true)) (.leaf (.single ')' (ExpectedSet.tokens [')'])))))
    (.leaf (.literal ['n', 'i', 'l'] .unit (ExpectedSet.tokens ['n', 'i', 'l'])))), true⟩]

theorem Expr.lead_exact_bracketed :
    Bound.bracketed.main.lead Bound.bracketed.subroutines.toArray =
      some ⟨['(', 'n'], ExpectedSet.label "term"⟩ ∧
    (∃ e s inside,
      Bound.bracketed.main.evalAt ⟨{}, Bound.bracketed.subroutines.toArray⟩ #['(', ')'] 17 ⟨1, none, 0⟩ =
        some (.failed e s) ∧ s.offset = 1 ∧
      mergeOpt inside (some e) = some (.trivial 1 (some (.tokens [')'])) (ExpectedSet.label "term"))) ∧
    (∃ v s, Bound.bracketed.main.evalAt ⟨{}, Bound.bracketed.subroutines.toArray⟩
      #['(', 'n', 'i', 'l', ')'] 17 .first = some (.done v s) ∧ 0 < s.offset) ∧
    ∃ program n, Bound.bracketed.assemble {} = .ok program ∧ ∀ steps, n ≤ steps →
      program.parse steps [] = some (.failed (.trivial 0 (some .endOfInput) (ExpectedSet.label "term")) []) := by
  have hlead : Bound.bracketed.main.lead Bound.bracketed.subroutines.toArray =
      some ⟨['(', 'n'], ExpectedSet.label "term"⟩ := rfl
  have hclosed : Bound.bracketed.Closed := by
    constructor <;> simp [Bound.bracketed, CallsBelow, Leaf.CallsBelow]
  obtain ⟨-, hexact⟩ := lead_exact {} Bound.bracketed.subroutines Bound.bracketed.main
  obtain ⟨hrefutes, hadvances, hprogram⟩ := hexact _ hlead
  refine ⟨hlead, ?_, ?_, ?_⟩
  · have hmiss (t : Char) (ht : Reading.current? #['(', ')'] ⟨1, none, 0⟩ = some t) : t ∉ ['(', 'n'] := by
      cases ht
      decide
    obtain ⟨e, s, inside, hreply, hplace, -, hreport⟩ := hrefutes #['(', ')'] ⟨1, none, 0⟩ hmiss 17 (by decide)
    exact ⟨e, s, inside, hreply, hplace, hreport⟩
  · obtain ⟨v, s, hdone⟩ : ∃ v s, Bound.bracketed.main.evalAt ⟨{}, Bound.bracketed.subroutines.toArray⟩
        #['(', 'n', 'i', 'l', ')'] 17 .first = some (.done v s) := ⟨_, _, rfl⟩
    exact ⟨v, s, hdone, hadvances _ _ 17 v s hdone⟩
  · obtain ⟨program, hassemble, hparse⟩ := hprogram hclosed
    obtain ⟨n, hn⟩ := hparse [] (by simp)
    exact ⟨program, n, hassemble, hn⟩

end ParserMachine

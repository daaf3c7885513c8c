import ParserMachine.Proofs.Compiling.Calls

/-!
# Forms that do not occur

A grammar without certain unary forms has trees without them (`Grammar.Without.bind`), and so has what
simplification makes of these, if no rule brings such a form in (`Bound.Without.simplifies`).
-/

namespace ParserMachine

variable {τ : Type} [Token τ] {bad : Unary τ → Prop}

/-- No unary form of a kind occurs. -/
def Expr.Without (bad : Unary τ → Prop) : Expr τ → Prop
  | leaf _ => True
  | unary u p => ¬ bad u ∧ p.Without bad
  | binary _ p q => p.Without bad ∧ q.Without bad

/-- No rule of simplification brings in a form of the kind. -/
structure Unary.Foreign (bad : Unary τ → Prop) : Prop where
  /-- Many rules make maps. -/
  map : ∀ f, ¬ bad (.map f)
  /-- Look-aheads that are joined are attempted. -/
  attempt : ¬ bad .attempt
  /-- A look-ahead may replace negations. -/
  lookAhead : bad .lookAhead → bad .notFollowedBy

namespace Expr

variable {p q : Expr τ}

theorem Rule.without (hbad : Unary.Foreign bad) (h : Rule p q) (hp : p.Without bad) : q.Without bad := by
  cases h with
  | mapPure | lookAheadPure | manyEmpty | chunkPure => trivial
  | mapMap => exact ⟨hbad.map _, hp.2.2⟩
  | deniedTwice => exact ⟨hbad.map _, fun h => hp.1 (hbad.lookAhead h), hp.2.2⟩
  | lookAheadTwice => exact hp.2
  | labelTwice => exact ⟨hp.1, hp.2.2⟩
  | mapFailing | attemptAtomic => exact hp.2
  | seqFailing | dropSecond | emptySecond | settled => exact hp.1
  | mapSecond => exact ⟨hbad.map _, hp.1⟩
  | mapFirst => exact ⟨hbad.map _, hp.2⟩
  | seqIdle | dropFirst | emptyFirst => exact hp.2
  | nestLeft | nestRight | nestAlt => exact ⟨hp.1.1, hp.1.2, hp.2⟩
  | unnestAlt => exact ⟨⟨hp.1, hp.2.1⟩, hp.2.2⟩
  | joinLookAheads => exact ⟨hp.1.1, ⟨hbad.attempt, hp.1.2⟩, hp.2.2⟩
  | joinDenied => exact ⟨hp.1.1, ⟨fun h => hp.1.1 (hbad.lookAhead h), hp.1.2⟩, hp.2.2⟩

theorem Simplifies.without (hbad : Unary.Foreign bad) (h : Simplifies p q) (hp : p.Without bad) :
    q.Without bad := by
  induction h with
  | refl p => exact hp
  | rule h => exact h.without hbad hp
  | trans _ _ ih ih' => exact ih' (ih hp)
  | unary u _ ih => exact ⟨hp.1, ih hp.2⟩
  | binary b _ _ ihp ihq => exact ⟨ihp hp.1, ihq hp.2⟩

end Expr

/-! ### Alternatives

A relation of parsers that forms and tables keep relates what an expression does in two settings. -/

section Choices

variable {x y : Setting τ} {Rel : Run τ → Run τ → Prop} {R : Choice τ → Choice τ → Prop}
  (hchoices : ∀ as bs, List.Forall₂ R as bs →
    Rel (.ofChoices x.target x.input as) (.ofChoices y.target y.input bs))
  (hone : ∀ (p : Expr τ) (a b : Run τ), p.Without bad → p.run x = a → Rel a b →
    R ⟨p.lead x.target.subroutines, a⟩ ⟨p.lead y.target.subroutines, b⟩)
  (hleaf : ∀ l : Leaf τ, Rel (l.run x.input x.ofCall) (l.run y.input y.ofCall))
  (hunary : ∀ (u : Unary τ) (p : Expr τ) (a : Run τ), ¬ bad u → p.Without bad → Rel (p.run x) a →
    Rel (u.run x.input x.rounds (p.run x)) (u.run y.input y.rounds a))
  (hbinary : ∀ (b : Binary τ) (p q : Expr τ) (a c : Run τ), p.Without bad → q.Without bad →
    Rel (p.run x) a → Rel (q.run x) c → Rel (b.run (p.run x) (q.run x)) (b.run a c))
include hchoices hone hleaf hunary hbinary

theorem Expr.choices_rel {p : Expr τ} (hp : p.Without bad) {rest rest' : List (Choice τ)}
    (h : List.Forall₂ R rest rest') : List.Forall₂ R (p.choices x rest) (p.choices y rest') := by
  induction p generalizing rest rest' with
  | leaf l => exact .cons (hone _ _ _ hp (run_leaf x l) (hleaf l)) h
  | unary u p ih =>
    exact .cons (hone _ _ _ hp (run_unary x u p) (hunary u p _ hp.1 hp.2 (hchoices _ _ (ih hp.2 .nil)))) h
  | binary b p q ihp ihq =>
    have hparts := hbinary b p q _ _ hp.1 hp.2 (hchoices _ _ (ihp hp.1 .nil)) (hchoices _ _ (ihq hp.2 .nil))
    cases b with
    | alt => exact ihp hp.1 (ihq hp.2 h)
    | seq kind => exact .cons (hone _ _ _ hp (run_seq x kind p q) hparts) h
    | branch f => exact .cons (hone _ _ _ hp (run_branch x f p q) hparts) h

theorem Expr.run_rel {p : Expr τ} (hp : p.Without bad) : Rel (p.run x) (p.run y) :=
  hchoices _ _ (choices_rel hchoices hone hleaf hunary hbinary hp .nil)

end Choices

/-- No unary form of a kind occurs in any of the trees. -/
structure Bound.Without (bad : Unary τ → Prop) (b : Bound τ) : Prop where
  /-- Not in the main expression. -/
  main : b.main.Without bad
  /-- Not in a subroutine. -/
  bodies : ∀ s ∈ b.subroutines, s.body.Without bad

theorem Bound.Without.simplifies (hbad : Unary.Foreign bad) {b b' : Bound τ} (h : b.Without bad)
    (hb : b.Simplifies b') : b'.Without bad := by
  refine ⟨hb.main.without hbad h.main, fun s' hs' => ?_⟩
  obtain ⟨s, hs, hsimplifies⟩ := exists_of_mem_forall₂ hb.subroutines hs'
  exact hsimplifies.body.without hbad (h.bodies s hs)

/-- No node is a unary form of a kind. -/
def Grammar.Without (bad : Unary τ → Prop) (g : Grammar τ) : Prop :=
  ∀ p u k, g.node p = .unary u k → ¬ bad u

theorem Grammar.without_of_forall {g : Grammar τ} (h : ∀ n ∈ g.nodes, ∀ u k, n = .unary u k → ¬ bad u) :
    g.Without bad := Grammar.forall_node h nofun

theorem Grammar.Without.bind {g : Grammar τ} (h : g.Without bad) {root : NodeId} {b : Bound τ}
    (hbind : g.bind root = .ok b) : b.Without bad := by
  have hinductive : g.Inductive (fun l r _ => ∃ s, b.subroutines[l]? = some s ∧ s.recursive = r)
      fun _ e => e.Without bad :=
    ⟨fun _ => trivial, fun _ _ _ => trivial, fun _ _ _ _ => trivial,
      fun p u k _ _ hnode _ he => ⟨h p u k hnode, he⟩, fun _ _ _ _ _ _ _ _ _ _ _ he he' => ⟨he, he'⟩⟩
  obtain ⟨hmain, hbodies⟩ := Grammar.bind_forall hbind hinductive
  exact ⟨hmain, hbodies⟩

end ParserMachine

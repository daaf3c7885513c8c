import ParserMachine.Expr.Facts

/-!
# Expressions with notes

Whoever rebuilds an expression asks again and again what is known of its parts. `Expr.With f` are
the expressions of which `f` is known, built from their parts with what is known of these; so the
facts are at hand at every node, and they are the right ones by construction (`facts_expr`).
-/

namespace ParserMachine

/-- The expressions of which `f` is known. -/
inductive Expr.With (τ : Type) [Token τ] : Facts → Type where
  /-- A parser without parts. -/
  | leaf (l : Leaf τ) : With τ l.facts
  /-- A form around a parser. -/
  | unary {f : Facts} (u : Unary τ) (p : With τ f) : With τ (u.facts f)
  /-- A form that joins two parsers. -/
  | binary {f g : Facts} (b : Binary τ) (p : With τ f) (q : With τ g) : With τ (b.facts f g)

/-- An expression with what is known of it. -/
structure Expr.Noted (τ : Type) [Token τ] where
  /-- What is known. -/
  facts : Facts
  /-- The expression. -/
  tree : Expr.With τ facts

namespace Expr

variable {τ : Type} [Token τ]

/-- The expression without notes. -/
def With.expr {f : Facts} : With τ f → Expr τ
  | leaf l => .leaf l
  | unary u p => .unary u p.expr
  | binary b p q => .binary b p.expr q.expr

theorem With.facts_expr {f : Facts} (p : With τ f) : p.expr.facts = f := by
  induction p with
  | leaf l => rfl
  | unary u p ih => rw [expr, Expr.facts, ih]
  | binary b p q ihp ihq => rw [expr, Expr.facts, ihp, ihq]

namespace Noted

/-- The expression without notes. -/
def expr (p : Noted τ) : Expr τ := p.tree.expr

/-- The notes are right. -/
theorem facts_expr (p : Noted τ) : p.expr.facts = p.facts := p.tree.facts_expr

/-- A parser without parts. -/
def leaf (l : Leaf τ) : Noted τ := ⟨_, .leaf l⟩

/-- A form around a parser. -/
def unary (u : Unary τ) (p : Noted τ) : Noted τ := ⟨_, .unary u p.tree⟩

/-- A form that joins two parsers. -/
def binary (b : Binary τ) (p q : Noted τ) : Noted τ := ⟨_, .binary b p.tree q.tree⟩

@[simp] theorem expr_leaf (l : Leaf τ) : (leaf l).expr = .leaf l := rfl

@[simp] theorem expr_unary (u : Unary τ) (p : Noted τ) : (unary u p).expr = .unary u p.expr := rfl

@[simp] theorem expr_binary (b : Binary τ) (p q : Noted τ) :
    (binary b p q).expr = .binary b p.expr q.expr := rfl

end Noted

end Expr

end ParserMachine

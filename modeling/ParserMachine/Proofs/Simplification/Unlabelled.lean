import ParserMachine.Proofs.Simplification.Descent

/-!
# Labels around an expression

The only rule for a label joins it with a label inside, so that a pass leaves the labels around an expression to
themselves (`Expr.simplifyPass_of_unlabelled`). Trees that differ in the labels around the main expression are
simplified to trees that do, or refused for the same reason, though one of them may need more passes
(`Bound.Relabelled.optimizeFor`).
-/

namespace ParserMachine

variable {τ : Type} [Token τ] {simplifying chained : Bool} {name : Option String}

namespace Expr

/-- The expression without the labels around it. -/
def unlabelled : Expr τ → Expr τ
  | unary (.label _) p => p.unlabelled
  | p => p

variable {p q : Expr τ} {r s : Noted τ} {n : Nat}

/-- Rules at a label take labels inside it away. -/
theorem Noted.exists_settle_label (simplifying chained : Bool) (name : Option String) (r : Noted τ) (steps fired : Nat) :
    ∃ s n, settle simplifying chained steps (unary (.label name) r) fired = .ok (unary (.label name) s, n) ∧
      s.expr.unlabelled = r.expr.unlabelled := by
  induction steps generalizing r fired with
  | zero => exact ⟨r, fired, rfl, rfl⟩
  | succ steps ih =>
    have hstop (h : (if simplifying then simplifyUnary? (.label name) r else none) = none) :
        settle simplifying chained (steps + 1) (unary (.label name) r) fired = .ok (unary (.label name) r, fired) := by
      unfold settle
      change (Except.ok () >>= fun _ => _) = _
      have h' : (if simplifying then simplify? chained (unary (.label name) r) else none) = none := h
      rw [h']
      rfl
    cases simplifying with
    | false => exact ⟨r, fired, hstop rfl, rfl⟩
    | true =>
      obtain ⟨f, t⟩ := r
      cases t with
      | leaf l => exact ⟨_, fired, hstop rfl, rfl⟩
      | binary b t t' => exact ⟨_, fired, hstop rfl, rfl⟩
      | unary u t =>
        cases u with
        | label inner => exact ih ⟨_, t⟩ (fired + 1)
        | _ => exact ⟨_, fired, hstop rfl, rfl⟩

theorem exists_simplifyPass_label (h : p.simplifyPass simplifying false = .ok (r, n)) (name : Option String)
    (chained : Bool) : ∃ s m, (label name p).simplifyPass simplifying chained = .ok (.unary (.label name) s, m) ∧
      s.expr.unlabelled = r.expr.unlabelled := by
  obtain ⟨s, m, hsettle, hsame⟩ := Noted.exists_settle_label simplifying chained name r Noted.maxLocalSteps n
  exact ⟨s, m, bind_eq_ok_iff.2 ⟨(r, n), h, hsettle⟩, hsame⟩

theorem of_simplifyPass_label (h : (label name p).simplifyPass simplifying chained = .ok (r, n)) :
    ∃ q s m, p.simplifyPass simplifying false = .ok (q, m) ∧ r = .unary (.label name) s ∧
      s.expr.unlabelled = q.expr.unlabelled := by
  obtain ⟨⟨q, m⟩, hp, hsettle⟩ := bind_eq_ok_iff.1 h
  obtain ⟨s, k, hsettle', hsame⟩ := Noted.exists_settle_label simplifying chained name q Noted.maxLocalSteps m
  cases hsettle.symm.trans hsettle'
  exact ⟨q, s, m, hp, rfl, hsame⟩

/-- A pass does the same under the labels around an expression as without them. -/
theorem simplifyPass_unlabelled (h : p.simplifyPass simplifying false = .ok (r, n)) :
    ∃ s m, p.unlabelled.simplifyPass simplifying false = .ok (s, m) ∧ s.expr.unlabelled = r.expr.unlabelled := by
  induction p generalizing r n with
  | leaf l => exact ⟨r, n, h, rfl⟩
  | binary b p q => exact ⟨r, n, h, rfl⟩
  | unary u p ih =>
    cases u with
    | label name =>
      obtain ⟨q, s, m, hp, rfl, hsame⟩ := of_simplifyPass_label h
      obtain ⟨s', m', hs', hsame'⟩ := ih hp
      exact ⟨s', m', hs', hsame'.trans hsame.symm⟩
    | _ => exact ⟨r, n, h, rfl⟩

theorem simplifyPass_of_unlabelled (h : p.unlabelled.simplifyPass simplifying false = .ok (r, n)) :
    ∃ s m, p.simplifyPass simplifying false = .ok (s, m) ∧ s.expr.unlabelled = r.expr.unlabelled := by
  induction p generalizing r n with
  | leaf l => exact ⟨r, n, h, rfl⟩
  | binary b p q => exact ⟨r, n, h, rfl⟩
  | unary u p ih =>
    cases u with
    | label name =>
      obtain ⟨q, m, hq, hsame⟩ := ih h
      obtain ⟨s, k, hs, hsame'⟩ := exists_simplifyPass_label hq name false
      exact ⟨_, k, hs, hsame'.trans hsame⟩
    | _ => exact ⟨r, n, h, rfl⟩

end Expr

namespace Bound

/-- The trees differ in the labels around the main expression only. -/
structure Relabelled (b c : Bound τ) : Prop where
  /-- Without these labels the main expressions are the same. -/
  main : b.main.unlabelled = c.main.unlabelled
  /-- The subroutines are the same. -/
  subroutines : b.subroutines = c.subroutines

variable {b b' c : Bound τ} {passes fired : Nat}

theorem Relabelled.symm (h : b.Relabelled c) : c.Relabelled b := ⟨h.main.symm, h.subroutines.symm⟩

theorem Relabelled.simplifyPass (h : b.Relabelled c) (hb : b.simplifyPass simplifying = .ok (b', fired)) :
    ∃ c' fired', c.simplifyPass simplifying = .ok (c', fired') ∧ b'.Relabelled c' := by
  obtain ⟨⟨r, n⟩, hmain, hb⟩ := bind_eq_ok_iff.1 hb
  obtain ⟨⟨ss, m⟩, hsubroutines, hb⟩ := bind_eq_ok_iff.1 hb
  cases hb
  obtain ⟨s, k, hs, hsame⟩ := Expr.simplifyPass_unlabelled hmain
  rw [h.main] at hs
  obtain ⟨t, l, ht, hsame'⟩ := Expr.simplifyPass_of_unlabelled hs
  exact ⟨⟨t.expr, ss⟩, l + m, bind_eq_ok_iff.2 ⟨(t, l), ht, bind_eq_ok_iff.2 ⟨(ss, m), h.subroutines ▸ hsubroutines, rfl⟩⟩,
    hsame.symm.trans hsame'.symm, rfl⟩

/-- Passes over trees that differ from settled ones in these labels change nothing else. -/
theorem Relabelled.optimizeFor_of_settled (h : b.Relabelled c) (hb : b.Settled simplifying) (passes : Nat) :
    ∃ c', c.optimizeFor simplifying passes = .ok c' ∧ b.Relabelled c' := by
  induction passes generalizing c with
  | zero => exact ⟨c, rfl, h⟩
  | succ passes ih =>
    obtain ⟨c', fired, hc', hsame⟩ := h.simplifyPass hb
    by_cases hfired : fired = 0
    · exact ⟨c', bind_eq_ok_iff.2 ⟨(c', fired), hc', if_pos hfired⟩, hsame⟩
    · obtain ⟨c'', hc'', hsame'⟩ := ih hsame
      exact ⟨c'', bind_eq_ok_iff.2 ⟨(c', fired), hc', (if_neg hfired).trans hc''⟩, hsame'⟩

theorem settled_of_simplifyPass (h : b.simplifyPass simplifying = .ok (b', fired)) (hfired : fired = 0) :
    b' = b ∧ b.Settled simplifying := by
  subst hfired
  obtain rfl := (lowers_of_simplifyPass h).eq_of_none rfl
  exact ⟨rfl, h⟩

/-- Trees that differ in the labels around the main expression are simplified to trees that do. -/
theorem Relabelled.optimizeFor (h : b.Relabelled c) (hb : b.optimizeFor simplifying passes = .ok b') :
    ∃ c', c.optimizeFor simplifying passes = .ok c' ∧ b'.Relabelled c' := by
  induction passes generalizing b c with
  | zero =>
    cases hb
    exact ⟨c, rfl, h⟩
  | succ passes ih =>
    obtain ⟨⟨b₁, fired⟩, hpass, hrest⟩ := bind_eq_ok_iff.1 hb
    obtain ⟨c₁, fired', hpass', hsame⟩ := h.simplifyPass hpass
    dsimp only at hrest
    by_cases hfired : fired = 0
    · -- the first trees are settled, and the second ones may still need passes
      obtain ⟨rfl, hsettled⟩ := settled_of_simplifyPass hpass hfired
      rw [if_pos hfired] at hrest
      cases hrest
      exact h.optimizeFor_of_settled hsettled (passes + 1)
    · rw [if_neg hfired] at hrest
      by_cases hfired' : fired' = 0
      · obtain ⟨rfl, hsettled⟩ := settled_of_simplifyPass hpass' hfired'
        obtain ⟨b₂, hb₂, hsame'⟩ := hsame.symm.optimizeFor_of_settled hsettled passes
        cases hrest.symm.trans hb₂
        exact ⟨_, bind_eq_ok_iff.2 ⟨(_, fired'), hpass', if_pos hfired'⟩, hsame'.symm⟩
      · obtain ⟨c', hc', hsame'⟩ := ih hsame hrest
        exact ⟨c', bind_eq_ok_iff.2 ⟨(c₁, fired'), hpass', (if_neg hfired').trans hc'⟩, hsame'⟩

end Bound

end ParserMachine

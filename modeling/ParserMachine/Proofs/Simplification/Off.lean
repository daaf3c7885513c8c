import ParserMachine.Expr.Simplify
import ParserMachine.Proofs.Generation.Emission

/-!
# Without simplification

Where no rule is applied, expressions stay as they are; only repetitions that would never end are
refused (`Bound.optimize_of_off`).
-/

namespace ParserMachine

variable {τ : Type} [Token τ]

theorem Expr.Noted.settle_off {chained : Bool} {steps fired n : Nat} {p q : Noted τ}
    (h : settle false chained steps p fired = .ok (q, n)) : q = p ∧ n = fired := by
  cases steps with
  | zero =>
    cases h
    exact ⟨rfl, rfl⟩
  | succ steps =>
    rw [settle] at h
    obtain ⟨-, -, h⟩ := bind_eq_ok_iff.1 h
    cases h
    exact ⟨rfl, rfl⟩

theorem Expr.simplifyPass_off {chained : Bool} {p : Expr τ} {q : Noted τ} {n : Nat}
    (h : p.simplifyPass false chained = .ok (q, n)) : q.expr = p ∧ n = 0 := by
  induction p generalizing chained q n with
  | leaf l =>
    cases h
    exact ⟨rfl, rfl⟩
  | unary u p ih =>
    rw [simplifyPass] at h
    obtain ⟨⟨p', fired⟩, hp, h⟩ := bind_eq_ok_iff.1 h
    obtain ⟨rfl, rfl⟩ := Noted.settle_off h
    obtain ⟨rfl, rfl⟩ := ih hp
    exact ⟨rfl, rfl⟩
  | binary b p q ihp ihq =>
    rw [simplifyPass] at h
    obtain ⟨⟨q', firedRight⟩, hq, h⟩ := bind_eq_ok_iff.1 h
    obtain ⟨⟨p', firedLeft⟩, hp, h⟩ := bind_eq_ok_iff.1 h
    obtain ⟨rfl, rfl⟩ := Noted.settle_off h
    obtain ⟨rfl, rfl⟩ := ihp hp
    obtain ⟨rfl, rfl⟩ := ihq hq
    exact ⟨rfl, rfl⟩

namespace Bound

theorem simplifySubroutines_off {ss ss' : List (Subroutine τ)} {n : Nat}
    (h : simplifySubroutines false ss = .ok (ss', n)) : ss' = ss ∧ n = 0 := by
  induction ss generalizing ss' n with
  | nil =>
    cases h
    exact ⟨rfl, rfl⟩
  | cons s ss ih =>
    rw [simplifySubroutines] at h
    obtain ⟨⟨body, fired⟩, hbody, h⟩ := bind_eq_ok_iff.1 h
    obtain ⟨⟨rest, firedRest⟩, hrest, h⟩ := bind_eq_ok_iff.1 h
    cases h
    obtain ⟨hexpr, rfl⟩ := Expr.simplifyPass_off hbody
    obtain ⟨rfl, rfl⟩ := ih hrest
    rw [hexpr]
    exact ⟨rfl, rfl⟩

theorem simplifyPass_off {b b' : Bound τ} {n : Nat} (h : b.simplifyPass false = .ok (b', n)) :
    b' = b ∧ n = 0 := by
  unfold simplifyPass at h
  obtain ⟨⟨main, fired⟩, hmain, h⟩ := bind_eq_ok_iff.1 h
  obtain ⟨⟨subroutines, firedRest⟩, hsubroutines, h⟩ := bind_eq_ok_iff.1 h
  cases h
  obtain ⟨hexpr, rfl⟩ := Expr.simplifyPass_off hmain
  obtain ⟨rfl, rfl⟩ := simplifySubroutines_off hsubroutines
  rw [hexpr]
  exact ⟨rfl, rfl⟩

/-- Trees that are not refused stay as they are. -/
theorem optimize_of_off {o : Options} (hoff : o.optimize = false) {b b' : Bound τ}
    (h : b.optimize o = .ok b') : b' = b := by
  unfold optimize at h
  rw [hoff] at h
  cases hpasses : o.passes with
  | zero =>
    rw [hpasses] at h
    cases h
    rfl
  | succ passes =>
    rw [hpasses, optimizeFor] at h
    obtain ⟨⟨b'', fired⟩, hpass, h⟩ := bind_eq_ok_iff.1 h
    obtain ⟨rfl, rfl⟩ := simplifyPass_off hpass
    cases h
    rfl

end Bound

end ParserMachine

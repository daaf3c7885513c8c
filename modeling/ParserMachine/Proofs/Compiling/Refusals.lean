import ParserMachine.Proofs.Binding.References
import ParserMachine.Proofs.Compiling.BackEnd
import ParserMachine.Proofs.Simplification.Refusals

/-!
# What is not compiled

A reference that was never defined or leads round is found under all options. A repetition may be refused
because simplification has found out that its parser succeeds without consuming input, and then other options
may compile it (`Grammar.settledChoice_refused`); but no options compile what those refuse that simplify less
(`Grammar.CallFree.refusals_grow`).
-/

namespace ParserMachine

variable {τ : Type} [Token τ] {g : Grammar τ} {o o' : Options} {root : NodeId} {e : CompileError}

/-- Trees that are refused without simplification, or with fewer passes of it, are refused. -/
theorem Bound.exists_refusal_of_refusal {b : Bound τ}
    (hmore : o.optimize = true → o'.optimize = true ∧ o.passes ≤ o'.passes)
    (h : b.optimize o = .error e) : ∃ e', b.optimize o' = .error e' ∧ e'.kind = e.kind := by
  cases hsimplifying : o.optimize with
  | true =>
    obtain ⟨hsimplifying', hpasses⟩ := hmore hsimplifying
    refine ⟨e, ?_, rfl⟩
    unfold optimize at h ⊢
    rw [hsimplifying] at h
    rw [hsimplifying']
    exact optimizeFor_eq_error_mono hpasses h
  | false =>
    obtain ⟨q, q', hq, hbecomes, hidle, rfl⟩ := refuses_of_optimize h
    rw [hbecomes.off hsimplifying] at hidle
    obtain ⟨e', he'⟩ := exists_refusal hq hidle o'
    obtain ⟨_, _, -, -, -, rfl⟩ := refuses_of_optimize he'
    exact ⟨_, he', rfl⟩

/-- What is not compiled without simplification, or with fewer passes of it, is not compiled with more, and for
a reason of the same kind. -/
theorem Grammar.CallFree.refusals_grow (hcalls : g.CallFree)
    (hmore : o.optimize = true → o'.optimize = true ∧ o.passes ≤ o'.passes)
    (h : g.compile o root = .error e) : ∃ e', g.compile o' root = .error e' ∧ e'.kind = e.kind := by
  rcases hcalls.compile_eq_error_iff.1 h with hbind | ⟨b, hbind, hoptimize⟩
  · exact ⟨e, hcalls.compile_eq_error_iff.2 (.inl hbind), rfl⟩
  · obtain ⟨e', he', hkind⟩ := Bound.exists_refusal_of_refusal hmore hoptimize
    exact ⟨e', hcalls.compile_eq_error_iff.2 (.inr ⟨b, hbind, he'⟩), hkind⟩

/-- References that lead nowhere are found under all options. -/
theorem Grammar.CallFree.compile_eq_error_of_bind (hcalls : g.CallFree) (hkind : e.kind ≠ "NonConsumingRepeat")
    (h : g.compile o root = .error e) (o' : Options) : g.compile o' root = .error e := by
  rcases hcalls.compile_eq_error_iff.1 h with hbind | ⟨b, -, hoptimize⟩
  · exact hcalls.compile_eq_error_iff.2 (.inl hbind)
  · obtain ⟨_, _, -, -, -, rfl⟩ := Bound.refuses_of_optimize hoptimize
    exact absurd rfl hkind

/-- Options that agree in simplification and its passes refuse the same. -/
theorem Grammar.CallFree.compile_eq_error_congr (hcalls : g.CallFree) (hoptimize : o.optimize = o'.optimize)
    (hpasses : o.maxPasses = o'.maxPasses) : g.compile o root = .error e ↔ g.compile o' root = .error e := by
  rw [hcalls.compile_eq_error_iff, hcalls.compile_eq_error_iff]
  simp only [Bound.optimize_congr hoptimize hpasses]

/-- A repetition of nothing or a letter. -/
def Grammar.settledChoice : Grammar Char where
  nodes := #[.leaf (.pure .unit), .leaf (.single 'a' (ExpectedSet.tokens ['a'])), .binary .alt 0 1,
    .unary .many 2]

/-- No options but those of simplification. -/
def Options.simplifyOnly : Options := { Options.unoptimized with optimize := true }

theorem Grammar.callFree_settledChoice : settledChoice.CallFree :=
  callFree_of_forall (by simp [settledChoice])

/-- Simplification leaves out the letter, which is never tried, and what is left succeeds without consuming
input. -/
theorem Grammar.compile_settledChoice :
    settledChoice.compile .simplifyOnly 3 = .error (.nonConsumingRepeat "pure") := by
  have hrefused : (match settledChoice.compile .simplifyOnly 3 with
      | .error e => decide (e = .nonConsumingRepeat "pure")
      | .ok _ => false) = true := by decide +kernel
  cases hcompile : settledChoice.compile .simplifyOnly 3 with
  | error e =>
    rw [hcompile] at hrefused
    rw [of_decide_eq_true hrefused]
  | ok p =>
    rw [hcompile] at hrefused
    cases hrefused

/-- The repetition is compiled without simplification and refused with it. -/
theorem Grammar.settledChoice_refused :
    settledChoice.CallFree ∧ 1 ≤ Options.unoptimized.maxPasses ∧ 1 ≤ Options.simplifyOnly.maxPasses ∧
      (∃ p, settledChoice.compile .unoptimized 3 = .ok p) ∧
      settledChoice.compile .simplifyOnly 3 = .error (.nonConsumingRepeat "pure") := by
  refine ⟨callFree_settledChoice, by decide, by decide, ?_, compile_settledChoice⟩
  have hok : (settledChoice.compile .unoptimized 3).isOk = true := by decide +kernel
  cases hcompile : settledChoice.compile .unoptimized 3 with
  | error e =>
    rw [hcompile] at hok
    cases hok
  | ok p => exact ⟨p, rfl⟩

end ParserMachine

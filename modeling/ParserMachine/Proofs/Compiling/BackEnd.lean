import ParserMachine.Proofs.Compiling.Realizing

/-!
# The back end

Fused repetitions, joined instructions and inlining are unobservable (`Grammar.backEnd_unobservable`):
programs that differ only in these come to the same outcomes, because either comes to what the trees reply,
and the meaning of trees depends on no option but that of tables (`Bound.evalAt_congr`).
-/

namespace ParserMachine

variable {τ : Type} [Token τ]

namespace Expr

section Congr

variable {x y : Setting τ} (htables : x.target.options.dispatchTables = y.target.options.dispatchTables)
include htables

theorem ofChoices_congr (hinput : x.input = y.input) (alts : List (Choice τ)) :
    Run.ofChoices x.target x.input alts = Run.ofChoices y.target y.input alts := by
  unfold Run.ofChoices
  rw [htables, hinput]

variable (hsubroutines : x.target.subroutines = y.target.subroutines) (hinput : x.input = y.input)
  (hcall : x.ofCall = y.ofCall) (hrounds : x.rounds = y.rounds)
include hsubroutines hinput hcall hrounds

/-- What alternatives do depends on the options only in whether tables are used. -/
theorem choices_congr (p : Expr τ) (rest : List (Choice τ)) : p.choices x rest = p.choices y rest := by
  have hof := ofChoices_congr htables hinput
  induction p generalizing rest with
  | leaf l =>
    unfold choices
    rw [hsubroutines, hinput, hcall]
  | unary u p ih =>
    unfold choices
    rw [hsubroutines, hof, ih, hinput, hrounds]
  | binary b p q ihp ihq =>
    cases b with
    | alt =>
      unfold choices
      rw [ihq, ihp]
    | seq | branch =>
      unfold choices
      rw [hsubroutines, hof, hof, ihp, ihq]

theorem run_congr (p : Expr τ) : p.run x = p.run y := by
  unfold run
  rw [ofChoices_congr htables hinput, choices_congr htables hsubroutines hinput hcall hrounds]

end Congr

theorem evalAt_congr {tgt tgt' : Target τ}
    (htables : tgt.options.dispatchTables = tgt'.options.dispatchTables)
    (hsubroutines : tgt.subroutines = tgt'.subroutines) (input : Array τ) (depth : Nat) (p : Expr τ) :
    p.evalAt tgt input depth = p.evalAt tgt' input depth := by
  induction depth generalizing p with
  | zero => rfl
  | succ depth ih =>
    have hcall : callsAt tgt input depth = callsAt tgt' input depth := by
      funext l
      unfold callsAt
      rw [hsubroutines]
      cases tgt'.subroutines[l]? with
      | none => rfl
      | some s => exact ih s.body
    exact run_congr (x := settingAt tgt input depth) (y := settingAt tgt' input depth) htables
      hsubroutines rfl hcall rfl p

end Expr

namespace Bound

variable {b : Bound τ} {o o' : Options} {p p' : Program τ}

theorem evalAt_congr (htables : o.dispatchTables = o'.dispatchTables) (b : Bound τ)
    (input : List τ) (depth : Nat) : b.evalAt o input depth = b.evalAt o' input depth :=
  congrFun (@Expr.evalAt_congr _ _ ⟨o, _⟩ ⟨o', _⟩ htables rfl _ _ _) _

/-- Simplification depends on no option of the back end. -/
theorem optimize_congr (hoptimize : o.optimize = o'.optimize) (hpasses : o.maxPasses = o'.maxPasses)
    (b : Bound τ) : b.optimize o = b.optimize o' := by
  unfold optimize Options.passes
  rw [hoptimize, hpasses]

end Bound

/-- Options that differ only in fused repetitions, joined instructions and inlining: either both
compilations fail with the same error, or both succeed, and then the programs come to the same outcomes in
full on every input. -/
theorem Grammar.backEnd_unobservable {g : Grammar τ} (htyped : g.TypeCorrect) (hcalls : g.CallFree)
    {o o' : Options} (hoptimize : o.optimize = o'.optimize)
    (htables : o.dispatchTables = o'.dispatchTables) (hpasses : o.maxPasses = o'.maxPasses)
    (root : NodeId) :
    (∃ e, g.compile o root = .error e ∧ g.compile o' root = .error e) ∨
      ∃ p p', g.compile o root = .ok p ∧ g.compile o' root = .ok p' ∧
        ∀ input r, (∃ n, p.parse n input = some r) ↔ ∃ n, p'.parse n input = some r := by
  unfold Grammar.compile
  cases hbind : g.bind root with
  | error e => exact .inl ⟨e, rfl, rfl⟩
  | ok b =>
    show (∃ e, b.optimize o >>= Bound.assemble o = .error e ∧
      b.optimize o' >>= Bound.assemble o' = .error e) ∨ ∃ p p', b.optimize o >>= Bound.assemble o = .ok p ∧
      b.optimize o' >>= Bound.assemble o' = .ok p' ∧ _
    rw [← Bound.optimize_congr hoptimize hpasses]
    cases hsimplified : b.optimize o with
    | error e => exact .inl ⟨e, rfl, rfl⟩
    | ok b' =>
      obtain ⟨S, hS⟩ := htyped.bind hcalls hbind
      have hsimplifies := Bound.simplifies_of_optimize hsimplified
      have hclosed := hsimplifies.closed (hcalls.closed hbind)
      obtain ⟨p, hp, hrealizes⟩ := (hS.simplifies hsimplifies).exists_assemble hclosed o
      obtain ⟨p', hp', hrealizes'⟩ := (hS.simplifies hsimplifies).exists_assemble hclosed o'
      refine .inr ⟨p, p', hp, hp', fun input r => ?_⟩
      rw [hrealizes.parse_iff, hrealizes'.parse_iff]
      simp only [Bound.evalAt_congr htables]

/-- A run of one letter up to the end of the input, its error captured. -/
def Grammar.capturedRun : Grammar Char where
  nodes := #[.leaf (.single 'a' (ExpectedSet.tokens ['a'])), .unary .many 0, .leaf .eof,
    .binary (.seq .left) 1 2, .unary (.guard .capture) 3]

/-- The default options without a transformation of the back end. -/
def Options.plainCode : Options :=
  { fuseRepetition := false, fuseInstructions := false, inlineThreshold := 0 }

theorem Grammar.backEnd_unobservable_capturedRun :
    ∃ p p', capturedRun.compile {} 4 = .ok p ∧ capturedRun.compile .plainCode 4 = .ok p' ∧
      ∀ input r, (∃ n, p.parse n input = some r) ↔ ∃ n, p'.parse n input = some r := by
  have htyped : capturedRun.TypeCorrect := typeCorrect_of_forall (by simp [capturedRun])
  have hcalls : capturedRun.CallFree := callFree_of_forall (by simp [capturedRun])
  have hok : (capturedRun.compile {} 4).isOk = true := by decide +kernel
  have hsame := @backEnd_unobservable _ _ _ htyped hcalls {} .plainCode rfl rfl rfl 4
  refine hsame.resolve_left ?_
  rintro ⟨e, he, -⟩
  rw [he] at hok
  cases hok

end ParserMachine

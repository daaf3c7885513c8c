import ParserMachine.Proofs.Compiling.Recognition
import ParserMachine.Proofs.Reports.Tables

/-!
# What tables and rules do to reports

If no form of a type-correct grammar inspects its part, programs with tables come to the same outcomes as
programs without, errors included (`Grammar.tables_keep_outcome`). Behind a look-ahead a table may leave
expectations out (`Grammar.overlapping_reports`), and what a captured error tells may depend on a table
(`Grammar.capturedChoice_captures`). A rule may add expectations (`Grammar.twiceDenied_reports`).
-/

namespace ParserMachine

variable {τ : Type} [Token τ]

/-! ### Where reports are kept -/

/-- Replies that report the same come to one outcome. -/
theorem Reply.SameFrom.outcome_eq {i : Nat} {a b : Reply τ} (h : a.SameFrom i b) (input : List τ) :
    a.outcome input = b.outcome input := by
  cases a with
  | done v r =>
    obtain ⟨r', rfl, hr⟩ := h.eq_done
    exact congrArg (fun i => Outcome.done v (input.drop i)) hr.1
  | failed e r =>
    obtain ⟨e', r', rfl, hoffset, hreport, -⟩ := h.eq_failed
    exact congrArg₂ (fun e i => Outcome.failed e (input.drop i)) hreport hoffset
  | stuck =>
    obtain rfl := h.eq_stuck
    rfl

/-- Where a parse without tables ends, parses with tables come to the same outcome, whatever else the options
say of the code. -/
theorem Grammar.tables_keep_outcome {g : Grammar τ} (htyped : g.TypeCorrect) (hcalls : g.CallFree)
    (hfree : g.Without Unary.Inspects) {root : NodeId} {o o' : Options} {p p' : Program τ}
    (ho : o.dispatchTables = false) (hoptimize : o'.optimize = o.optimize) (hpasses : o'.maxPasses = o.maxPasses)
    (hp : g.compile o root = .ok p) (hp' : g.compile o' root = .ok p') {input : List τ} {n : Nat}
    {r : Outcome τ} (hr : p.parse n input = some r) : ∃ n', p'.parse n' input = some r := by
  obtain ⟨b, t, S, hbind, ht, hsimplifies, -, -, hrealizes⟩ := htyped.realizes hcalls hp
  obtain ⟨b', t', S', hbind', ht', -, -, -, hrealizes'⟩ := htyped.realizes hcalls hp'
  obtain rfl : b = b' := Except.ok.inj (hbind.symm.trans hbind')
  -- both programs have the same trees
  have hsame : b.optimize o' = b.optimize o := by
    unfold Bound.optimize Options.passes
    rw [hoptimize, hpasses]
  obtain rfl : t = t' := Except.ok.inj (ht.symm.trans (hsame.symm.trans ht'))
  have htrees := (hfree.bind hbind).simplifies Unary.foreign_inspects hsimplifies
  obtain ⟨depth, reply, hreply, rfl⟩ := hrealizes.parse_iff.1 ⟨n, hr⟩
  obtain ⟨reply', hreply', hreports⟩ :=
    htrees.evalAt_retells ho o' input.toArray depth htrees.main _ _ (.refl _) reply hreply
  exact hrealizes'.parse_iff.2 ⟨depth, reply', hreply', (hreports.outcome_eq input).symm⟩

theorem Grammar.tables_keep_outcome_words :
    ∃ p p' n r, words.compile .unoptimized 5 = .ok p ∧ words.compile { optimize := false } 5 = .ok p' ∧
      p.parse n ['?'] = some r ∧ ∃ n', p'.parse n' ['?'] = some r := by
  have htyped : words.TypeCorrect := typeCorrect_of_forall (by simp [words])
  have hcalls : words.CallFree := callFree_of_forall (by simp [words])
  have hfree : words.Without Unary.Inspects := without_of_forall (by simp [words, Unary.Inspects])
  have hends : ((words.compile .unoptimized 5).toOption.bind fun p => p.parse 100 ['?']).isSome = true := by
    decide +kernel
  have hok : (words.compile { optimize := false } 5).toOption.isSome = true := by decide +kernel
  obtain ⟨r, hends⟩ := Option.isSome_iff_exists.1 hends
  obtain ⟨p, hp, hr⟩ := Option.bind_eq_some_iff.1 hends
  obtain ⟨p', hp'⟩ := Option.isSome_iff_exists.1 hok
  exact ⟨p, p', 100, r, eq_ok_of_toOption hp, eq_ok_of_toOption hp', hr,
    tables_keep_outcome htyped hcalls hfree rfl (by rfl) (by rfl) (eq_ok_of_toOption hp)
      (eq_ok_of_toOption hp') hr⟩

/-! ### Where they are not -/

/-- The error that a parse reports. -/
def Outcome.error? : Outcome τ → Option (ParseError τ)
  | .failed e _ => some e
  | _ => none

theorem Outcome.eq_failed_of_error? {r : Outcome τ} {e : ParseError τ} (h : r.error? = some e) :
    ∃ rest, r = .failed e rest := by
  cases r with
  | failed e' rest =>
    obtain rfl : e' = e := Option.some.inj h
    exact ⟨rest, rfl⟩
  | _ => cases h

/-- The error that a parse captured as its value. -/
def Outcome.captured? : Outcome τ → Option (ParseError τ)
  | .done (.err e) _ => some e
  | _ => none

/-- The parse of the grammar with the options comes to an outcome that shows `a`. -/
def Grammar.Shows {α : Type} (g : Grammar τ) (root : NodeId) (input : List τ)
    (view : Outcome τ → Option α) (o : Options) (a : α) : Prop :=
  ∃ p n r, g.compile o root = .ok p ∧ p.parse n input = some r ∧ view r = some a

theorem Grammar.shows_of_eval {α : Type} {g : Grammar τ} {root : NodeId} {input : List τ}
    {view : Outcome τ → Option α} {o : Options} {a : α} (n : Nat)
    (h : ((g.compile o root).toOption.bind fun p => (p.parse n input).bind view) = some a) :
    g.Shows root input view o a := by
  obtain ⟨p, hp, h⟩ := Option.bind_eq_some_iff.1 h
  obtain ⟨r, hr, hview⟩ := Option.bind_eq_some_iff.1 h
  exact ⟨p, n, r, eq_ok_of_toOption hp, hr, hview⟩

/-- A choice behind a look-ahead, of which the second alternative begins as the first one does. A table
leaves it out, and with it what it expects before the third. -/
def Grammar.overlapping : Grammar Char where
  nodes := #[.leaf (.single 'a' (ExpectedSet.tokens ['a'])), .leaf (.single 'a' (ExpectedSet.tokens ['a'])),
    .leaf (.single 'y' (ExpectedSet.tokens ['y'])), .binary .alt 1 2, .unary .attempt 3,
    .leaf (.single 'z' (ExpectedSet.tokens ['z'])), .binary .alt 0 4, .binary .alt 6 5, .unary .lookAhead 7,
    .leaf .empty, .binary (.seq .right) 8 9]

theorem Grammar.overlapping_reports : overlapping.TypeCorrect ∧ overlapping.CallFree ∧
    overlapping.CaptureFree ∧ ∃ e e', e ≠ e' ∧
      overlapping.Shows 10 ['z'] Outcome.error? .unoptimized e ∧
      overlapping.Shows 10 ['z'] Outcome.error? { Options.unoptimized with dispatchTables := true } e' :=
  ⟨typeCorrect_of_forall (by simp [overlapping]), callFree_of_forall (by simp [overlapping]),
    captureFree_of_forall (by simp [overlapping]),
    .trivial 0 (some (.tokens ['z'])) (SortedSet.ofList [.tokens ['a'], .tokens ['y']]),
    .trivial 0 (some (.tokens ['z'])) (ExpectedSet.tokens ['a']), by decide +kernel,
    shows_of_eval 100 (by decide +kernel), shows_of_eval 100 (by decide +kernel)⟩

/-- A look-ahead that is written as a double negation. The rule that undoes it keeps what a look-ahead
expects, and negations do not. -/
def Grammar.twiceDenied : Grammar Char where
  nodes := #[.leaf (.single 'a' (ExpectedSet.tokens ['a'])), .unary .notFollowedBy 0, .unary .notFollowedBy 1]

theorem Grammar.twiceDenied_reports : twiceDenied.TypeCorrect ∧ twiceDenied.CallFree ∧
    twiceDenied.CaptureFree ∧ ∃ e e', e ≠ e' ∧
      twiceDenied.Shows 2 ['b'] Outcome.error? .unoptimized e ∧
      twiceDenied.Shows 2 ['b'] Outcome.error? { Options.unoptimized with optimize := true } e' :=
  ⟨typeCorrect_of_forall (by simp [twiceDenied]), callFree_of_forall (by simp [twiceDenied]),
    captureFree_of_forall (by simp [twiceDenied]),
    .trivial 0 (some (.tokens ['b'])) .empty,
    .trivial 0 (some (.tokens ['b'])) (ExpectedSet.tokens ['a']), by decide +kernel,
    shows_of_eval 100 (by decide +kernel), shows_of_eval 100 (by decide +kernel)⟩

/-- A choice whose error is captured. Tried in order, all but the last alternative leave what they expect
among the hints, and a table has all of it in the error. -/
def Grammar.capturedChoice : Grammar Char where
  nodes := #[.leaf (.single 'c' (ExpectedSet.tokens ['c'])), .leaf (.single 'a' (ExpectedSet.tokens ['a'])),
    .binary .alt 0 1, .unary (.guard .capture) 2]

theorem Grammar.capturedChoice_captures : capturedChoice.TypeCorrect ∧ capturedChoice.CallFree ∧
    ∃ e e', e ≠ e' ∧
      capturedChoice.Shows 3 [] Outcome.captured? .unoptimized e ∧
      capturedChoice.Shows 3 [] Outcome.captured? { Options.unoptimized with dispatchTables := true } e' :=
  ⟨typeCorrect_of_forall (by simp [capturedChoice]), callFree_of_forall (by simp [capturedChoice]),
    .trivial 0 (some .endOfInput) (ExpectedSet.tokens ['a']),
    .trivial 0 (some .endOfInput) (SortedSet.ofList [.tokens ['a'], .tokens ['c']]), by decide +kernel,
    shows_of_eval 100 (by decide +kernel), shows_of_eval 100 (by decide +kernel)⟩

end ParserMachine

import ParserMachine.Proofs.Compiling.Refusals
import ParserMachine.Proofs.Simplification.Ways

/-!
# Repetitions that are refused

What is known of a parser is right without tables. So a repetition is refused only if its parser, wherever its
evaluation ends, has succeeded without consuming input (`Grammar.refusal_sound`). Such an evaluation need not
end: a parser that calls itself at the same place is known not to fail where a failure of it would be made a
success (`Grammar.endless_refused`).
-/

namespace ParserMachine

variable {τ : Type} [Token τ]

namespace Expr

variable {S : Nat → Value τ → Prop} {p q q' : Expr τ}

/-- The parser of a repetition is typed as the whole is. -/
theorem RepeatedIn.typed (hq : q.RepeatedIn p) (hp : p.Typed S) : q.Typed S := by
  induction p with
  | leaf l => exact hq.elim
  | unary u p ih =>
    rcases hq with ⟨-, rfl⟩ | hq
    · exact hp
    · exact ih hq hp
  | binary b p p' ihp ihp' =>
    rcases hq with hq | hq
    · exact ihp hq hp.1
    · exact ihp' hq hp.2.1

/-- What is known of an expression is right at all depths, whatever the subroutines. -/
theorem facts_describe_evalAt {tgt : Target τ} (htables : tgt.options.dispatchTables = false)
    (input : Array τ) (depth : Nat) (p : Expr τ) : p.facts.Describes (p.evalAt tgt input depth) := by
  cases depth with
  | zero => exact Facts.describes_never _
  | succ depth => exact facts_describe (x := settingAt tgt input depth) htables p

/-- What simplification finds out of an expression was right before, at all depths. -/
theorem Simplifies.facts_describe_evalAt (h : q.Simplifies q') {tgt : Target τ}
    (htables : tgt.options.dispatchTables = false) (input : Array τ) (depth : Nat) :
    q'.facts.Describes (q.evalAt tgt input depth) := by
  cases depth with
  | zero => exact Facts.describes_never _
  | succ depth => exact h.facts_allow.describes (run_takes (x := settingAt tgt input depth) htables q)

end Expr

/-- A repetition of these trees that is refused: its parser `q` has become one of this name, and wherever its
evaluation ends, it has succeeded without consuming input. -/
def Bound.RefusedAt (b : Bound τ) (name : String) (q : Expr τ) : Prop :=
  b.Repeats q ∧ (∃ q', q.Simplifies q' ∧ q'.name = name) ∧
    ∀ input depth r reply, q.evalAt ⟨.unoptimized, b.subroutines.toArray⟩ input depth r = some reply →
      ∃ v r', reply = .done v r' ∧ r'.offset = r.offset

theorem Bound.Typed.exists_refusedAt {S : Nat → Value τ → Prop} {b : Bound τ} (h : b.Typed S) {o : Options}
    {name : String} (hrefused : b.optimize o = .error (.nonConsumingRepeat name)) :
    ∃ q, b.RefusedAt name q := by
  obtain ⟨q, q', hq, hbecomes, hidle, hname⟩ := refuses_of_optimize hrefused
  cases hname
  refine ⟨q, hq, ⟨q', hbecomes.simplifies, rfl⟩, ?_⟩
  intro input depth r reply hreply
  obtain ⟨hcan, hmay⟩ : q'.facts.canFail = false ∧ q'.facts.mayConsume = false := by
    simpa [Facts.isIdle] using hidle
  have hdescribes : q'.facts.Describes (q.evalAt ⟨.unoptimized, b.subroutines.toArray⟩ input depth) :=
    hbecomes.simplifies.facts_describe_evalAt rfl input depth
  have htyped : q.Typed S := by
    rcases hq with hmain | ⟨s, hs, hbody⟩
    · exact hmain.typed h.main
    · obtain ⟨l, hl⟩ := List.getElem?_of_mem hs
      exact hbody.typed (h.bodies l s hl).1
  cases reply with
  | done v r' => exact ⟨v, r', rfl, hdescribes.mayConsume hmay r v r' hreply⟩
  | failed e r' => exact absurd hreply (hdescribes.canFail hcan r e r')
  | stuck => exact absurd hreply (h.ne_stuck htyped .unoptimized input depth r)

/-- What is known of an expression is right, whatever the subroutines: what cannot fail never does, what consumes
nothing leaves the cursor in place, and what is atomic fails in place. And typed trees, or a type-correct
grammar, are refused only for a repetition whose parser, wherever its evaluation ends, has succeeded without
consuming input. -/
theorem Grammar.refusal_sound :
    (∀ (subroutines : Array (Subroutine τ)) (p : Expr τ) (input : Array τ) (depth : Nat),
      p.facts.Describes (p.evalAt ⟨.unoptimized, subroutines⟩ input depth)) ∧
    (∀ (S : Nat → Value τ → Prop) (b : Bound τ), b.Typed S → ∀ (o : Options) (name : String),
      b.optimize o = .error (.nonConsumingRepeat name) → ∃ q, b.RefusedAt name q) ∧
    ∀ (g : Grammar τ), g.TypeCorrect → g.CallFree → ∀ (o : Options) (root : NodeId) (name : String),
      g.compile o root = .error (.nonConsumingRepeat name) →
        ∃ b q, g.bind root = .ok b ∧ b.RefusedAt name q := by
  refine ⟨?_, ?_, ?_⟩
  · intro subroutines p input depth
    exact p.facts_describe_evalAt rfl input depth
  · intro S b htyped o name hoptimize
    exact htyped.exists_refusedAt hoptimize
  · intro g htyped hcalls o root name hcompile
    rcases hcalls.compile_eq_error_iff.1 hcompile with hbind | ⟨b, hbind, hoptimize⟩
    · rcases bind_error hbind with h | h <;> cases h
    · obtain ⟨S, hS⟩ := htyped.bind hcalls hbind
      obtain ⟨q, hq⟩ := hS.exists_refusedAt hoptimize
      exact ⟨b, q, hbind, hq⟩

theorem Grammar.refusal_sound_settledChoice :
    ∃ b q S, settledChoice.bind 3 = .ok b ∧ b.Typed S ∧ b.RefusedAt "pure" q := by
  have htyped : settledChoice.TypeCorrect := typeCorrect_of_forall (by simp [settledChoice])
  obtain ⟨-, hbound, hgrammar⟩ := @refusal_sound Char _
  obtain ⟨b, q, hbind, -⟩ :=
    hgrammar settledChoice htyped callFree_settledChoice .simplifyOnly 3 "pure" compile_settledChoice
  obtain ⟨S, hS⟩ := htyped.bind callFree_settledChoice hbind
  have hoptimize : b.optimize .simplifyOnly = .error (.nonConsumingRepeat "pure") := by
    rcases callFree_settledChoice.compile_eq_error_iff.1 compile_settledChoice with h | ⟨b', hbind', h⟩
    · rw [hbind] at h
      cases h
    · rw [hbind] at hbind'
      cases hbind'
      exact h
  obtain ⟨q', hq'⟩ := hbound S b hS .simplifyOnly "pure" hoptimize
  exact ⟨b, q', S, hbind, hS, hq'⟩

/-! ### Evaluations that do not end -/

/-- A repetition of what does not begin with letters after itself, or nothing. -/
def Grammar.endless : Grammar Char where
  nodes := #[.lazy 0, .leaf (.single 'a' (ExpectedSet.tokens ['a'])), .binary (.seq .left) 0 1,
    .unary .notFollowedBy 2, .leaf (.pure .unit), .binary .alt 3 4, .unary .many 5]
  cells := #[.defined 2]

/-- The parser that is repeated. -/
def Expr.endlessPart : Expr Char := .alt (.notFollowedBy (.leaf (.call 0 true))) (.pure .unit)

/-- The trees of the repetition. -/
def Bound.endless : Bound Char where
  main := .many .endlessPart
  subroutines :=
    [⟨.seq .left (.leaf (.call 0 true)) (.leaf (.single 'a' (ExpectedSet.tokens ['a']))), true⟩]

/-- The subroutine calls itself before it does anything else. -/
theorem Bound.callsAt_endless (input : Array Char) (depth : Nat) (r : Reading Char) :
    Expr.callsAt ⟨.unoptimized, endless.subroutines.toArray⟩ input depth 0 r = none := by
  induction depth with
  | zero => rfl
  | succ depth ih => exact Run.handle_of_none ih

/-- The repeated parser never replies, at no place of no input; still the repetition is refused, with
simplification and without. -/
theorem Grammar.endless_refused :
    endless.TypeCorrect ∧ endless.CallFree ∧
      endless.compile {} 6 = .error (.nonConsumingRepeat "alternative") ∧
      endless.compile .unoptimized 6 = .error (.nonConsumingRepeat "alternative") ∧
      endless.bind 6 = .ok .endless ∧ Bound.endless.main = .many .endlessPart ∧
      Expr.endlessPart.name = "alternative" ∧
      ∀ input depth r,
        Expr.endlessPart.evalAt ⟨.unoptimized, Bound.endless.subroutines.toArray⟩ input depth r = none := by
  have hwalk : endless.postorder 6 = .ok
      ⟨#[none, some [], some [2, 1], some [2], some [], some [3, 4], some [5]], #[1, 2, 3, 4, 5, 6]⟩ := by
    with_unfolding_all rfl
  have hbind : endless.bind 6 = .ok .endless :=
    bind_eq_ok_iff.2 ⟨6, by with_unfolding_all rfl, bind_eq_ok_iff.2 ⟨_, hwalk, by with_unfolding_all rfl⟩⟩
  have hcompile (o : Options) (hrefused : Bound.endless.optimize o = .error (.nonConsumingRepeat "alternative")) :
      endless.compile o 6 = .error (.nonConsumingRepeat "alternative") :=
    bind_eq_error_iff.2 (.inr ⟨.endless, hbind, bind_eq_error_iff.2 (.inl hrefused)⟩)
  refine ⟨typeCorrect_of_forall (by simp [endless]), callFree_of_forall (by simp [endless]),
    hcompile {} rfl, hcompile .unoptimized rfl, hbind, rfl, rfl, ?_⟩
  intro input depth r
  cases depth with
  | zero => rfl
  | succ depth =>
    have hdenied := Bound.callsAt_endless input depth r.bare
    have hfirst : (Expr.notFollowedBy (.leaf (.call 0 true))).evalAt
        ⟨.unoptimized, Bound.endless.subroutines.toArray⟩ input (depth + 1) r = none := by
      rw [Expr.evalAt_unary, Expr.evalAt_leaf]
      exact Run.handle_of_none hdenied
    unfold Expr.endlessPart
    rw [Expr.evalAt_binary_of_noTables rfl]
    exact Run.handle_of_none hfirst

end ParserMachine

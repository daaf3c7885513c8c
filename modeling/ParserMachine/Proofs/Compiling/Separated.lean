import ParserMachine.Proofs.Compiling.Catching
import ParserMachine.Proofs.Compiling.Recognition
import ParserMachine.Proofs.Recognition.Separated

/-!
# Programs of separated lists

Whatever the options, the program of a separated list does what the loop of separators and items says
(`Grammar.TypeCorrect.separated_lists_follow_loop`), wherever this comes to an end; and without optimizations the
program comes to an end there only.
-/

namespace ParserMachine

variable {τ : Type} [Token τ]

/-- The outcome shows the result: a success with its value or a failure, and the input that is left at its cursor. -/
def Result.Shows (input : List τ) : Result τ → Outcome τ → Prop
  | done v c, .done w rest => w = v ∧ rest = input.drop c
  | failed c, .failed _ rest => rest = input.drop c
  | _, _ => False

theorem Reply.shows_of_alike {reply : Reply τ} {x : Result τ} {input : List τ} {r : Outcome τ}
    (hx : reply.result? = some x) (h : (reply.outcome input).Alike r) : x.Shows input r := by
  cases reply with
  | done v s =>
    cases hx
    cases r with
    | done w rest => exact ⟨h.1.symm, h.2.symm⟩
    | failed | faulted => exact h
  | failed e s =>
    cases hx
    cases r with
    | failed e' rest => exact h.symm
    | done | faulted => exact h
  | stuck => cases hx

theorem Reply.exists_shows {reply : Reply τ} (h : reply ≠ .stuck) (input : List τ) :
    ∃ x, reply.result? = some x ∧ x.Shows input (reply.outcome input) := by
  cases reply with
  | done v r => exact ⟨_, rfl, rfl, rfl⟩
  | failed e r => exact ⟨_, rfl, rfl⟩
  | stuck => exact absurd rfl h

namespace Program

/-- Wherever results are due on an input, the program comes to an outcome, and only to one that shows them. -/
def Fulfills (P : Program τ) (due : List τ → Result τ → Prop) : Prop :=
  ∀ input x, due input x →
    (∃ m r, P.parse m input = some r) ∧ ∀ m r, P.parse m input = some r → x.Shows input r

/-- Wherever the program comes to an outcome, it shows a result that is due. -/
def KeepsTo (P : Program τ) (due : List τ → Result τ → Prop) : Prop :=
  ∀ input m r, P.parse m input = some r → ∃ x, due input x ∧ x.Shows input r

end Program

namespace Grammar

variable {g : Grammar τ} {p s n : NodeId} {o : Options} {P : Program τ}

/-- Programs follow the evaluation of the root. -/
theorem TypeCorrect.fulfills_yields (htyped : g.TypeCorrect) (hcalls : g.CallFree) (hfree : g.CaptureFree)
    (hP : g.compile o n = .ok P) : P.Fulfills fun input x => g.Yields input.toArray n 0 x := by
  rintro input x ⟨reply, heval, hx⟩
  obtain ⟨b, -, -, hbind, -⟩ := htyped.realizes hcalls hP
  obtain ⟨depth, hreply⟩ := heval.bind (o := .unoptimized) rfl hbind
  obtain ⟨m, r, hr, halike⟩ := exists_parse_of_evalAt htyped hcalls hfree hbind hreply hP
  refine ⟨⟨m, r, hr⟩, fun m' r' hr' => ?_⟩
  obtain rfl := Program.parse_unique hr hr'
  exact Reply.shows_of_alike hx halike

/-- Without optimizations, programs come to an outcome only where the evaluation of the root comes to a result. -/
theorem TypeCorrect.keepsTo_yields (htyped : g.TypeCorrect) (hcalls : g.CallFree)
    (hP : g.compile .unoptimized n = .ok P) : P.KeepsTo fun input x => g.Yields input.toArray n 0 x := by
  intro input m r hr
  obtain ⟨b, b', S, hbind, hoptimize, -, hS, -, hrealizes⟩ := htyped.realizes hcalls hP
  obtain rfl := Bound.optimize_of_off rfl hoptimize
  obtain ⟨depth, reply, hreply, rfl⟩ := hrealizes.parse_iff.1 ⟨m, hr⟩
  have hstuck : reply ≠ .stuck := fun h => hS.evalAt_ne_stuck .unoptimized input depth (h ▸ hreply)
  obtain ⟨x, hx, hshows⟩ := Reply.exists_shows hstuck input
  exact ⟨x, ⟨reply, (hcalls.evalAt_bind_iff rfl hbind).1 ⟨depth, hreply⟩, hx⟩, hshows⟩

/-- Separated lists follow their iteration. What `sepBy` and `sepBy1` build does, whatever the options, exactly what
the loop of separators and items says wherever that ends; and without optimizations it ends nowhere else. -/
theorem TypeCorrect.separated_lists_follow_loop (htyped : g.TypeCorrect) (hcalls : g.CallFree) (hfree : g.CaptureFree)
    (hP : g.compile o n = .ok P) :
    (∀ g₀ : Grammar τ, ((Build.sepBy p s).run g₀).2.IsSepBy p s ((Build.sepBy p s).run g₀).1 ∧
      ((Build.sepBy1 p s).run g₀).2.IsSepBy1 p s ((Build.sepBy1 p s).run g₀).1) ∧
    (g.IsSepBy p s n → (P.Fulfills fun input x => g.SepBy input.toArray p s 0 x) ∧
      (o = .unoptimized → P.KeepsTo fun input x => g.SepBy input.toArray p s 0 x)) ∧
    (g.IsSepBy1 p s n → (P.Fulfills fun input x => g.SepBy1 input.toArray p s 0 x) ∧
      (o = .unoptimized → P.KeepsTo fun input x => g.SepBy1 input.toArray p s 0 x)) := by
  have hfulfills := htyped.fulfills_yields hcalls hfree hP
  have hkeeps (ho : o = .unoptimized) : P.KeepsTo fun input x => g.Yields input.toArray n 0 x := by
    subst ho
    exact htyped.keepsTo_yields hcalls hP
  refine ⟨fun g₀ => ⟨Build.isSepBy_sepBy p s g₀, Build.isSepBy1_sepBy1 p s g₀⟩, fun hn => ?_, fun hn => ?_⟩
  · have hloop (input : Array τ) (x : Result τ) : g.Yields input n 0 x ↔ g.SepBy input p s 0 x :=
      hn.yields_iff hfree.without
    simp only [hloop] at hfulfills hkeeps
    exact ⟨hfulfills, hkeeps⟩
  · have hloop (input : Array τ) (x : Result τ) : g.Yields input n 0 x ↔ g.SepBy1 input p s 0 x :=
      hn.yields_iff hfree.without
    simp only [hloop] at hfulfills hkeeps
    exact ⟨hfulfills, hkeeps⟩

/-- Letters with commas between, or none. -/
def commas : Grammar Char :=
  ((Build.sepBy 0 1).run
    { nodes := #[.leaf (.single 'a' (ExpectedSet.tokens ['a'])), .leaf (.single ',' (ExpectedSet.tokens [',']))] }).2

theorem nodes_commas : commas.nodes = #[.leaf (.single 'a' (ExpectedSet.tokens ['a'])),
    .leaf (.single ',' (ExpectedSet.tokens [','])), .binary (.seq .right) 1 0, .unary .many 2, .unary (.map id) 3,
    .binary (.seq (.both Value.prepend)) 0 4, .leaf (.pure (.list #[])), .binary .alt 5 6] := rfl

/-- Two letters are read up to what is no comma. A comma without a letter behind it is not given back. -/
theorem separated_lists_follow_loop_commas :
    ∃ P, commas.compile {} 7 = .ok P ∧
      (∃ m r, P.parse m ['a', ',', 'a', ';'] = some r ∧
        (Result.done (.list #[.tok 'a', .tok 'a']) 3).Shows ['a', ',', 'a', ';'] r) ∧
      ∃ m r, P.parse m ['a', ',', ';'] = some r ∧ (Result.failed 2).Shows ['a', ',', ';'] r := by
  have htyped : commas.TypeCorrect := typeCorrect_of_forall (by rw [nodes_commas]; simp)
  have hcalls : commas.CallFree := callFree_of_forall (by rw [nodes_commas]; simp)
  have hfree : commas.CaptureFree := captureFree_of_forall (by rw [nodes_commas]; simp)
  have hok : (commas.compile {} 7).toOption.isSome = true := by decide +kernel
  obtain ⟨P, hP⟩ := Option.isSome_iff_exists.1 hok
  obtain ⟨hbuilt, hsepBy, -⟩ := htyped.separated_lists_follow_loop (p := 0) (s := 1) hcalls hfree (eq_ok_of_toOption hP)
  obtain ⟨hfulfills, -⟩ := hsepBy (hbuilt _).1
  have hread : commas.SepBy ['a', ',', 'a', ';'].toArray 0 1 0 (.done (.list #[.tok 'a', .tok 'a']) 3) := by
    have hfirst : commas.Yields ['a', ',', 'a', ';'].toArray 0 0 (.done (.tok 'a') 1) := ⟨_, ⟨1, rfl⟩, rfl⟩
    have hcomma : commas.Yields ['a', ',', 'a', ';'].toArray 1 1 (.done (.tok ',') 2) := ⟨_, ⟨1, rfl⟩, rfl⟩
    have hsecond : commas.Yields ['a', ',', 'a', ';'].toArray 0 2 (.done (.tok 'a') 3) := ⟨_, ⟨1, rfl⟩, rfl⟩
    have hend : commas.Yields ['a', ',', 'a', ';'].toArray 1 3 (.failed 3) := ⟨_, ⟨1, rfl⟩, rfl⟩
    exact .begins hfirst (.next hcomma hsecond (by decide) (.noSeparator hend))
  have hbroken : commas.SepBy ['a', ',', ';'].toArray 0 1 0 (.failed 2) := by
    have hfirst : commas.Yields ['a', ',', ';'].toArray 0 0 (.done (.tok 'a') 1) := ⟨_, ⟨1, rfl⟩, rfl⟩
    have hcomma : commas.Yields ['a', ',', ';'].toArray 1 1 (.done (.tok ',') 2) := ⟨_, ⟨1, rfl⟩, rfl⟩
    have hnone : commas.Yields ['a', ',', ';'].toArray 0 2 (.failed 2) := ⟨_, ⟨1, rfl⟩, rfl⟩
    exact .begins hfirst (.brokenItem hcomma hnone (by decide))
  obtain ⟨⟨m, r, hr⟩, hshows⟩ := hfulfills _ _ hread
  obtain ⟨⟨m', r', hr'⟩, hshows'⟩ := hfulfills _ _ hbroken
  exact ⟨P, eq_ok_of_toOption hP, ⟨m, r, hr, hshows m r hr⟩, m', r', hr', hshows' m' r' hr'⟩

end Grammar

end ParserMachine

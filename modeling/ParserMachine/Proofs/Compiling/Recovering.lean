import ParserMachine.Proofs.Compiling.Catching
import ParserMachine.Proofs.Compiling.Flows
import ParserMachine.Proofs.Compiling.Reports
import ParserMachine.Proofs.Machine.Restoring

/-!
# No trace of failures

A failure that is caught, or that was asked for, leaves no trace: what goes on after it comes to the outcomes to which
it comes alone, and the machine is as it was before but for the value that tells of the failure
(`Grammar.TypeCorrect.failures_leave_no_trace`). Outcomes tell at which time of a run a user's error was made anew, so
that where both parsers do so, the second one counts on from where the first one stopped.
-/

namespace ParserMachine

variable {τ : Type} [Token τ] {g : Grammar τ} {p q n : NodeId}

/-- Wherever a failure is ended in a parse with a program of a grammar, the next step has everything as it was at the
checkpoint. -/
theorem Grammar.restores_of_compile {o : Options} {root : NodeId} {R : Program τ} (hR : g.compile o root = .ok R)
    {l : Nat} {f : ParseError τ → List (Value τ)} {e : ParseError τ} {s t : State τ} (h : R.Settles l f e s t) :
    t.pc = l ∧ ∃ t', R.step? t = some t' ∧ t'.status = .running ∧ t'.pc = l + 1 ∧ s.Restores t' (f e) := by
  have hall : g.Without fun _ => False := fun _ _ _ _ => id
  obtain ⟨into, hflows⟩ := hall.exists_flows ⟨fun _ => id, id, id⟩ hR
  exact hflows.restores h

namespace Grammar

/-- A failure leaves no trace where the grammar goes on after it. A capture or a denial followed by another parser, and
the combinator that handles an error, build a node that goes on so, and it compiles if both parsers do. On each input
on which the first one fails it comes to exactly the outcomes of the second one, with the values changed by some error
of the first one. The second one counts renewals on from where the first one stopped, which makes no difference if one
of them makes no errors anew. In any program and any state that a parse goes through, a captured or denied parser that
fails comes to its end with the cursor, the hints and the stacks as they were where it began, but for the value that is
pushed, and with no error in flight. -/
theorem TypeCorrect.failures_leave_no_trace (h : g.TypeCorrect) (hcalls : g.CallFree)
    {k : ParseError τ → Value τ → Value τ} (hgoes : g.GoesOn p q n k) {P Q : Program τ}
    (hP : g.compile .unoptimized p = .ok P) (hQ : g.compile .unoptimized q = .ok Q) :
    (Build.GoesOn (τ := τ) (do Build.andThen (← Build.capture p) q) p q (fun _ v => v) ∧
      Build.GoesOn (τ := τ) (do Build.andThen (← Build.notFollowedBy p) q) p q (fun _ v => v) ∧
      ∀ f, Build.GoesOn (τ := τ) (Build.handle p q f) p q fun e v => f (.err e) v) ∧
    (∃ C, g.compile .unoptimized n = .ok C ∧
      ∀ input m e rest, P.parse m input = some (.failed e rest) →
        ∃ e' r', g.Evaluates input.toArray p .first (.failed e' r') ∧
          (∀ a, (∃ m, C.parse m input = some a) ↔ ∃ b, g.ComesTo q r'.renewals input b ∧ b.mapValue (k e') = a) ∧
          (¬ g.Renews p ∨ ¬ g.Renews q →
            ∀ a, (∃ m, C.parse m input = some a) ↔
              ∃ b, (∃ m, Q.parse m input = some b) ∧ b.mapValue (k e') = a)) ∧
    ∀ (g : Grammar τ) (o : Options) (root : NodeId) (R : Program τ), g.compile o root = .ok R →
      ∀ (l : Nat) (f : ParseError τ → List (Value τ)) (e : ParseError τ) (s t : State τ), R.Settles l f e s t →
        t.pc = l ∧ ∃ t', R.step? t = some t' ∧ t'.status = .running ∧ t'.pc = l + 1 ∧ s.Restores t' (f e) := by
  refine ⟨⟨Build.goesOn_capture_andThen p q, Build.goesOn_notFollowedBy_andThen p q, Build.goesOn_handle p q⟩, ?_,
    fun _ _ _ _ hR _ _ _ _ _ => restores_of_compile hR⟩
  obtain ⟨b, c, hnode, hc⟩ := hgoes.exists_encloses
  obtain ⟨C, hC⟩ := exists_compile_joined hnode hc hcalls rfl hP hQ
  refine ⟨C, hC, fun input m e rest hfails => ?_⟩
  obtain ⟨e', r', hp⟩ := ((h.parse_iff hcalls hP).1 ⟨m, hfails⟩).exists_failed
  have hgoesOn (a : Outcome τ) : (∃ m, C.parse m input = some a) ↔
      ∃ b, g.ComesTo q r'.renewals input b ∧ b.mapValue (k e') = a :=
    (h.parse_iff hcalls hC).trans (hgoes.comesTo_iff hp)
  refine ⟨e', r', hp, hgoesOn, fun hrenews a => (hgoesOn a).trans ?_⟩
  have halone (b : Outcome τ) : g.ComesTo q r'.renewals input b ↔ ∃ m, Q.parse m input = some b := by
    refine Iff.trans ?_ (h.parse_iff hcalls hQ).symm
    rcases hrenews with hp' | hq
    · have hzero : r'.renewals = 0 := hp.renewals_eq hp'
      rw [hzero]
    · exact comesTo_iff_of_not_renews hq
  exact exists_congr fun b => and_congr_left fun _ => halone b

/-- Where no form makes errors anew, no node reaches one. -/
theorem not_renews_of_forall (h : ∀ n ∈ g.nodes, ∀ other k, n ≠ .unary (.guard (.merge other)) k) :
    ¬ g.Renews p := fun ⟨q, other, k, _, hq⟩ => forall_node h nofun q other k hq

end Grammar

/-- Where the handler stands that the instruction installs, and whether a snapshot is made. -/
def Instr.checkpoint? {ι : Type} : Instr τ ι → Option (ι × Bool)
  | checkpoint l snapshot => some (l, snapshot)
  | _ => none

theorem Instr.eq_of_checkpoint? {ι : Type} {i : Instr τ ι} {l : ι} {snapshot : Bool}
    (h : i.checkpoint? = some (l, snapshot)) : i = checkpoint l snapshot := by
  cases i with
  | checkpoint => cases h; rfl
  | _ => cases h

/-- Two tokens one after the other, and one of them alone. -/
def Grammar.twoOrOne : Grammar Char where
  nodes := #[.leaf (.single 'a' (ExpectedSet.tokens ['a'])), .leaf (.single 'b' (ExpectedSet.tokens ['b'])),
    .binary (.seq .left) 0 1, .leaf (.single 'a' (ExpectedSet.tokens ['a']))]

/-- The two tokens, or what the one of them gives together with the reason why they are not there. -/
def Grammar.excused : Grammar Char := ((Build.handle 2 3 Value.pair).run twoOrOne).2

theorem Grammar.nodes_excused : excused.nodes = twoOrOne.nodes ++ #[.unary (.guard .capture) 2, .unary (.map id) 4,
    .unary (.map Build.sortCaptured) 5, .unary (.map Value.toVerdict) 6, .binary (.branch Value.pair) 7 3] := rfl

theorem Grammar.typeCorrect_excused : excused.TypeCorrect := by
  have hbranch : ∀ n ∈ excused.nodes, ∀ f k l, n = .binary (.branch f) k l → k = 7 := by
    rw [nodes_excused]
    simp [twoOrOne]
  refine typeCorrect_of_verdicts fun p f k l hnode => ?_
  obtain rfl := forall_node hbranch nofun p f k l hnode
  exact ⟨6, rfl⟩

/-- The two tokens fail at the second one. What goes on with the one begins where they began, and the machine comes to
the end of the captured parser with the error pushed and all else as at the start. -/
theorem Grammar.failures_leave_no_trace_excused :
    ∃ P Q C n b e, excused.compile .unoptimized 2 = .ok P ∧ excused.compile .unoptimized 3 = .ok Q ∧
      excused.compile .unoptimized 8 = .ok C ∧ Q.parse n ['a', 'c'] = some b ∧
      (∃ m, C.parse m ['a', 'c'] = some (b.mapValue (.pair (.err e)))) ∧
      ∃ s t t' f e, C.Settles 5 f e s t ∧ C.step? t = some t' ∧ t'.pc = 6 ∧ s.Restores t' (f e) := by
  have hcalls : excused.CallFree := callFree_of_forall (by rw [nodes_excused]; simp [twoOrOne])
  have hrenews : ¬ excused.Renews 3 := not_renews_of_forall (by rw [nodes_excused]; simp [twoOrOne])
  have hgoes : excused.GoesOn 2 3 8 fun e v => .pair (.err e) v := Build.goesOn_handle 2 3 Value.pair twoOrOne
  have hfails : ((excused.compile .unoptimized 2).toOption.bind fun P => (P.parse 100 ['a', 'c']).bind
      Outcome.error?).isSome = true := by decide +kernel
  have halone : ((excused.compile .unoptimized 3).toOption.bind fun Q => Q.parse 100 ['a', 'c']).isSome = true := by
    decide +kernel
  obtain ⟨e, hfails⟩ := Option.isSome_iff_exists.1 hfails
  obtain ⟨P, hP, hfails⟩ := Option.bind_eq_some_iff.1 hfails
  obtain ⟨a, ha, herror⟩ := Option.bind_eq_some_iff.1 hfails
  obtain ⟨rest, rfl⟩ := Outcome.eq_failed_of_error? herror
  obtain ⟨b, halone⟩ := Option.isSome_iff_exists.1 halone
  obtain ⟨Q, hQ, hb⟩ := Option.bind_eq_some_iff.1 halone
  obtain ⟨-, ⟨C, hC, hgoesOn⟩, hrestores⟩ := typeCorrect_excused.failures_leave_no_trace hcalls hgoes
    (eq_ok_of_toOption hP) (eq_ok_of_toOption hQ)
  obtain ⟨e', -, -, -, hsame⟩ := hgoesOn _ _ _ _ ha
  refine ⟨P, Q, C, 100, b, e', eq_ok_of_toOption hP, eq_ok_of_toOption hQ, hC, hb,
    (hsame (.inr hrenews) _).2 ⟨b, ⟨100, hb⟩, rfl⟩, ?_⟩
  -- the first instruction installs the handler, the next one reads a token, and the one after it fails
  have hrun : ((excused.compile .unoptimized 8).toOption.bind fun C =>
      (C.step? ((Program.wholeStart ['a', 'c']).checkpoint 5 true)).bind fun u => (C.step? u).map fun t =>
        decide (C.code[0]?.bind Instr.checkpoint? = some (5, true)) && (C.code[5]?.bind Instr.caught?).isSome &&
        decide (u.handlers = ((Program.wholeStart ['a', 'c']).checkpoint 5 true).handlers) &&
        decide (t.status = .running) && decide (t.handlers = []) && t.error.isSome) = some true := by decide +kernel
  obtain ⟨C', hC', hrun⟩ := Option.bind_eq_some_iff.1 hrun
  obtain rfl := Except.ok.inj (hC.symm.trans (eq_ok_of_toOption hC'))
  obtain ⟨u, hu, hrun⟩ := Option.bind_eq_some_iff.1 hrun
  obtain ⟨t, ht, hrun⟩ := Option.map_eq_some_iff.1 hrun
  simp only [Bool.and_eq_true, decide_eq_true_eq, Option.isSome_iff_exists] at hrun
  obtain ⟨⟨⟨⟨⟨hcheckpoint, f, hcaught⟩, hkept⟩, hrunning⟩, hremoved⟩, e, he⟩ := hrun
  obtain ⟨i, hi, hcheckpoint⟩ := Option.bind_eq_some_iff.1 hcheckpoint
  obtain rfl := Instr.eq_of_checkpoint? hcheckpoint
  have hbody : C.RunsUnder ((Program.wholeStart ['a', 'c']).checkpoint 5 true).handlers
      ((Program.wholeStart ['a', 'c']).checkpoint 5 true) u := .step .refl hu (hkept ▸ List.suffix_rfl)
  have hsettles : C.Settles 5 f e (Program.wholeStart ['a', 'c']) t :=
    ⟨.whole _, rfl, Option.bind_eq_some_iff.1 hcaught, ⟨true, u, hi, hbody, ht⟩, hrunning, hremoved, he⟩
  obtain ⟨-, t', ht', -, hpc, hrestored⟩ := hrestores _ _ _ _ hC _ _ _ _ _ hsettles
  exact ⟨_, t, t', f, e, hsettles, ht', hpc, hrestored⟩

end ParserMachine

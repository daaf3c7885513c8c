import ParserMachine.Proofs.Compiling.BackEnd
import ParserMachine.Proofs.Recognition.Tables
import ParserMachine.Proofs.Simplification.Off

/-!
# What options keep

Whatever the options, programs of a type-correct grammar that captures no error recognise the same
(`Grammar.options_keep_recognition`). Their reports may differ.
-/

namespace ParserMachine

variable {τ : Type} [Token τ]

/-! ### What is recognised -/

/-- The outcomes tell the same but for the error: both a success with one value or both a failure, and
with the same input left. -/
def Outcome.Alike : Outcome τ → Outcome τ → Prop
  | done v rest, done v' rest' => v = v' ∧ rest = rest'
  | failed _ rest, failed _ rest' => rest = rest'
  | _, _ => False

theorem Outcome.Alike.trans_left {a b c : Outcome τ} (h : a.Alike b) (h' : a.Alike c) : b.Alike c := by
  cases a <;> cases b <;> cases c <;> simp_all [Alike]

/-- Like replies come to alike outcomes. -/
theorem Reply.Like.outcome {a b : Reply τ} (h : a.Like b) (ha : a ≠ .stuck) (input : List τ) :
    (a.outcome input).Alike (b.outcome input) := by
  cases a with
  | done v r =>
    obtain ⟨r', rfl, hr⟩ := h.eq_done
    exact ⟨rfl, congrArg input.drop hr⟩
  | failed e r =>
    obtain ⟨e', r', rfl, hr⟩ := h.eq_failed
    exact congrArg input.drop hr
  | stuck => exact absurd rfl ha

/-- A grammar in which no error is captured. -/
def Grammar.CaptureFree (g : Grammar τ) : Prop := ∀ p k, g.node p ≠ .unary (.guard .capture) k

theorem Grammar.captureFree_of_forall {g : Grammar τ}
    (h : ∀ n ∈ g.nodes, ∀ k, n ≠ .unary (.guard .capture) k) : g.CaptureFree := Grammar.forall_node h nofun

theorem Grammar.CaptureFree.without {g : Grammar τ} (h : g.CaptureFree) : g.Without Unary.Captures := by
  intro p u k hnode hu
  cases u with
  | guard mode =>
    cases mode with
    | capture => exact h p k hnode
    | amend | merge => exact hu
  | _ => exact hu

/-- Where the trees come to a reply, every program of the grammar comes to an outcome like it. -/
theorem Grammar.exists_parse_of_evalAt {g : Grammar τ} (htyped : g.TypeCorrect) (hcalls : g.CallFree)
    (hfree : g.CaptureFree) {root : NodeId} {b : Bound τ} (hbind : g.bind root = .ok b) {input : List τ}
    {depth : Nat} {reply : Reply τ} (hreply : b.evalAt .unoptimized input depth = some reply) {o : Options}
    {p : Program τ} (hcompile : g.compile o root = .ok p) :
    ∃ n r, p.parse n input = some r ∧ (reply.outcome input).Alike r := by
  obtain ⟨b₁, b', S, hbind', -, hsimplifies, hS, -, hrealizes⟩ := htyped.realizes hcalls hcompile
  rw [hbind] at hbind'
  cases hbind'
  have hcapture := hfree.without.bind hbind
  have hsimplified := hsimplifies.covers (o := .unoptimized) rfl hcapture hS input.toArray depth
  have htables := (hcapture.simplifies Unary.foreign_captures hsimplifies).evalAt_covers (o := .unoptimized) rfl o input.toArray
    depth (hcapture.simplifies Unary.foreign_captures hsimplifies).main
  obtain ⟨reply', hreply', hlike⟩ := (hsimplified.trans htables) _ _ rfl reply hreply
  obtain ⟨n, hn⟩ := hrealizes.parse_iff.2 ⟨depth, reply', hreply', rfl⟩
  refine ⟨n, _, hn, hlike.outcome (fun hstuck => ?_) input⟩
  subst hstuck
  exact hS.evalAt_ne_stuck .unoptimized input depth hreply

/-- Where the parse without optimizations ends, so do the parses with any two other sets of options, and
these agree on success or failure, on the value and on what is left of the input. -/
theorem Grammar.options_keep_recognition {g : Grammar τ} (htyped : g.TypeCorrect) (hcalls : g.CallFree)
    (hfree : g.CaptureFree) {root : NodeId} {o o' : Options} {p₀ p p' : Program τ}
    (hplain : g.compile .unoptimized root = .ok p₀) (hp : g.compile o root = .ok p)
    (hp' : g.compile o' root = .ok p') {input : List τ} {n₀ : Nat} {r₀ : Outcome τ}
    (hends : p₀.parse n₀ input = some r₀) :
    (∃ n r, p.parse n input = some r) ∧ (∃ n' r', p'.parse n' input = some r') ∧
      ∀ n n' r r', p.parse n input = some r → p'.parse n' input = some r' → r.Alike r' := by
  obtain ⟨b, b₀, S, hbind, hoff, -, -, -, hrealizes⟩ := htyped.realizes hcalls hplain
  obtain rfl := Bound.optimize_of_off rfl hoff
  obtain ⟨depth, reply, hreply, -⟩ := hrealizes.parse_iff.1 ⟨n₀, hends⟩
  obtain ⟨m, s, hs, halike⟩ := exists_parse_of_evalAt htyped hcalls hfree hbind hreply hp
  obtain ⟨m', s', hs', halike'⟩ := exists_parse_of_evalAt htyped hcalls hfree hbind hreply hp'
  refine ⟨⟨m, s, hs⟩, ⟨m', s', hs'⟩, fun n n' r r' hr hr' => ?_⟩
  obtain rfl := Program.parse_unique hs hr
  obtain rfl := Program.parse_unique hs' hr'
  exact halike.trans_left halike'

/-- Any number of words, `let` before `l`, each read with a label that the rules and the tables take apart. -/
def Grammar.words : Grammar Char where
  nodes := #[.leaf (.literal ['l', 'e', 't'] .unit (ExpectedSet.tokens ['l', 'e', 't'])),
    .unary .attempt 0, .leaf (.single 'l' (ExpectedSet.tokens ['l'])), .binary .alt 1 2,
    .leaf (.single 'x' (ExpectedSet.tokens ['x'])), .binary .alt 3 4, .unary (.label (some "word")) 5,
    .unary .attempt 6, .unary .many 7]

theorem Grammar.options_keep_recognition_words :
    ∃ p₀ p p' n₀ r₀, words.compile .unoptimized 8 = .ok p₀ ∧ words.compile {} 8 = .ok p ∧
      words.compile .plainCode 8 = .ok p' ∧ p₀.parse n₀ ['l', 'e', 't', 'x', 'l', '!'] = some r₀ ∧
      ∀ n n' r r', p.parse n ['l', 'e', 't', 'x', 'l', '!'] = some r →
        p'.parse n' ['l', 'e', 't', 'x', 'l', '!'] = some r' → r.Alike r' := by
  have htyped : words.TypeCorrect := typeCorrect_of_forall (by simp [words])
  have hcalls : words.CallFree := callFree_of_forall (by simp [words])
  have hfree : words.CaptureFree := captureFree_of_forall (by simp [words])
  have hends : ((words.compile .unoptimized 8).toOption.bind fun p =>
      p.parse 200 ['l', 'e', 't', 'x', 'l', '!']).isSome = true := by decide +kernel
  have hok : (words.compile {} 8).toOption.isSome = true := by decide +kernel
  have hok' : (words.compile .plainCode 8).toOption.isSome = true := by decide +kernel
  obtain ⟨r₀, hends⟩ := Option.isSome_iff_exists.1 hends
  obtain ⟨p₀, hplain, hends⟩ := Option.bind_eq_some_iff.1 hends
  obtain ⟨p, hp⟩ := Option.isSome_iff_exists.1 hok
  obtain ⟨p', hp'⟩ := Option.isSome_iff_exists.1 hok'
  obtain ⟨-, -, halike⟩ := options_keep_recognition htyped hcalls hfree (eq_ok_of_toOption hplain)
    (eq_ok_of_toOption hp) (eq_ok_of_toOption hp') hends
  exact ⟨p₀, p, p', 200, r₀, eq_ok_of_toOption hplain, eq_ok_of_toOption hp, eq_ok_of_toOption hp', hends,
    halike⟩

end ParserMachine

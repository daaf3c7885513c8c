import ParserMachine.Proofs.Compiling.Calls
import ParserMachine.Proofs.Typing.Grammars

/-!
# What programs of typed grammars do

The program of a type-correct grammar comes to exactly what its simplified trees reply, and its run does not
end where they never reply (`Program.Realizes`).
-/

namespace ParserMachine

variable {τ : Type} [Token τ]

namespace Program

/-- A run on a whole input begins in this state. -/
def wholeStart (input : List τ) : State τ := { input := input.toArray, more := false }

/-- The program does what the trees do. -/
structure Realizes (p : Program τ) (o : Options) (b : Bound τ) : Prop where
  /-- A run comes to the outcome of the reply, and at its end only the result is left on the stacks. -/
  ends : ∀ input depth reply, b.evalAt o input depth = some reply →
    ∃ n T, p.run n (wholeStart input) = some T ∧ T.outcome = reply.outcome input ∧
      (T.status = .running → T.Clean ∧ T.calls = .empty)
  /-- A run does not end where there is no reply. -/
  loops : ∀ input, (∀ depth, b.evalAt o input depth = none) →
    ∀ n, p.run n (wholeStart input) = none

variable {p : Program τ} {o : Options} {b : Bound τ} {input : List τ}

/-- A run that ends comes to what a reply says. -/
theorem Realizes.exists_reply (h : p.Realizes o b) {n : Nat} {T : State τ}
    (hT : p.run n (wholeStart input) = some T) :
    ∃ depth reply, b.evalAt o input depth = some reply ∧ T.outcome = reply.outcome input ∧
      (T.status = .running → T.Clean ∧ T.calls = .empty) := by
  by_cases hreply : ∃ depth reply, b.evalAt o input depth = some reply
  · obtain ⟨depth, reply, hreply⟩ := hreply
    obtain ⟨m, T', hT', houtcome, hclean⟩ := h.ends input depth reply hreply
    obtain rfl := run_unique hT' hT
    exact ⟨depth, reply, hreply, houtcome, hclean⟩
  · have hnone (depth : Nat) : b.evalAt o input depth = none := by
      cases hd : b.evalAt o input depth with
      | none => rfl
      | some reply => exact absurd ⟨depth, reply, hd⟩ hreply
    rw [h.loops input hnone n] at hT
    cases hT

/-- A parse comes to exactly the outcomes of replies. -/
theorem Realizes.parse_iff (h : p.Realizes o b) {r : Outcome τ} :
    (∃ n, p.parse n input = some r) ↔
      ∃ depth reply, b.evalAt o input depth = some reply ∧ reply.outcome input = r := by
  constructor
  · rintro ⟨n, hn⟩
    obtain ⟨T, hT, rfl⟩ := Option.map_eq_some_iff.1 hn
    obtain ⟨depth, reply, hreply, houtcome, -⟩ := h.exists_reply hT
    exact ⟨depth, reply, hreply, houtcome.symm⟩
  · rintro ⟨depth, reply, hreply, rfl⟩
    obtain ⟨n, T, hT, houtcome, -⟩ := h.ends input depth reply hreply
    exact ⟨n, Option.map_eq_some_iff.2 ⟨T, hT, houtcome⟩⟩

end Program

namespace Bound

variable {S : Nat → Value τ → Prop} {b : Bound τ}

/-- The code of trees is linked after the improvements. -/
def assemble (o : Options) (b : Bound τ) : Except CompileError (Program τ) := do
  ((← b.generate o).improve o).link

theorem compile_eq (o : Options) (b : Bound τ) : b.compile o = b.optimize o >>= assemble o := rfl

/-- Typed trees have a program. -/
theorem Typed.exists_assemble (h : b.Typed S) (hclosed : b.Closed) (o : Options) :
    ∃ p, b.assemble o = .ok p ∧ p.Realizes o b := by
  obtain ⟨a, p, hgenerate, hlink, hgenerates, hsound, hrefines⟩ := hclosed.exists_link o
  refine ⟨p, bind_eq_ok_iff.2 ⟨a, hgenerate, hlink⟩, fun input depth reply hreply => ?_,
    fun input hnone => (hrefines.loops (hgenerates.loops hnone)).run hsound hlink⟩
  obtain ⟨n, T, hT, hagrees, hclean⟩ :=
    (hrefines.parses (hgenerates.parses hreply)).run hsound hlink
  refine ⟨n, T, hT, ?_, hclean⟩
  cases reply with
  | done v r => exact Eq.symm hagrees
  | failed e r => exact Eq.symm hagrees
  | stuck => exact absurd hreply (h.evalAt_ne_stuck o input depth)

end Bound

/-- The program of a type-correct grammar does what the simplified trees do. -/
theorem Grammar.TypeCorrect.realizes {g : Grammar τ} (h : g.TypeCorrect) (hcalls : g.CallFree)
    {o : Options} {root : NodeId} {p : Program τ} (hcompile : g.compile o root = .ok p) :
    ∃ b b' S, g.bind root = .ok b ∧ b.optimize o = .ok b' ∧ b.Simplifies b' ∧ b.Typed S ∧
      b'.Typed S ∧ p.Realizes o b' := by
  unfold Grammar.compile at hcompile
  obtain ⟨b, hbind, hcompile⟩ := bind_eq_ok_iff.1 hcompile
  obtain ⟨b', hoptimize, hassemble⟩ := bind_eq_ok_iff.1 (b.compile_eq o ▸ hcompile)
  obtain ⟨S, htyped⟩ := h.bind hcalls hbind
  have hsimplifies := Bound.simplifies_of_optimize hoptimize
  have htyped' := htyped.simplifies hsimplifies
  obtain ⟨p', hp', hrealizes⟩ :=
    htyped'.exists_assemble (hsimplifies.closed (hcalls.closed hbind)) o
  rw [hassemble] at hp'
  cases hp'
  exact ⟨b, b', S, hbind, hoptimize, hsimplifies, htyped, htyped', hrealizes⟩

end ParserMachine

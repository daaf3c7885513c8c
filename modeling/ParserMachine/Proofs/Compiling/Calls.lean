import ParserMachine.Compile
import ParserMachine.Proofs.Binding.Induction
import ParserMachine.Proofs.Generation.Success
import ParserMachine.Proofs.Inlining.Rounds
import ParserMachine.Proofs.Linking.Reaching
import ParserMachine.Proofs.Simplification.Rules

/-!
# Compilation that cannot fail

Binding makes the calls in trees of a grammar that has none itself, and they go to subroutines that exist
(`Grammar.CallFree.closed`). No rule of simplification makes a call that was not there
(`Bound.Simplifies.closed`), and so code generation and all that comes after it succeed
(`Bound.Closed.exists_link`).
-/

namespace ParserMachine

variable {τ : Type} [Token τ]

namespace Expr

variable {n : Nat} {p q : Expr τ}

theorem Rule.callsBelow (h : Rule p q) (hp : p.CallsBelow n) : q.CallsBelow n := by
  cases h with
  | mapPure | lookAheadPure | manyEmpty | chunkPure => trivial
  | mapMap | mapFailing | lookAheadTwice | deniedTwice | attemptAtomic | labelTwice => exact hp
  | seqFailing | dropSecond | mapSecond | emptySecond | settled => exact hp.1
  | seqIdle | dropFirst | mapFirst | emptyFirst => exact hp.2
  | nestLeft | nestRight | nestAlt => exact ⟨hp.1.1, hp.1.2, hp.2⟩
  | unnestAlt => exact ⟨⟨hp.1, hp.2.1⟩, hp.2.2⟩
  | joinLookAheads | joinDenied => exact ⟨hp.1, hp.2⟩

theorem Simplifies.callsBelow (h : Simplifies p q) (hp : p.CallsBelow n) : q.CallsBelow n := by
  induction h with
  | refl p => exact hp
  | rule h => exact h.callsBelow hp
  | trans _ _ ih ih' => exact ih' (ih hp)
  | unary u _ ih => exact ih hp
  | binary b _ _ ihp ihq => exact ⟨ihp hp.1, ihq hp.2⟩

end Expr

theorem Bound.Simplifies.closed {b b' : Bound τ} (h : b.Simplifies b') (hb : b.Closed) :
    b'.Closed := by
  have hlength : b.subroutines.length = b'.subroutines.length := h.subroutines.length_eq
  refine ⟨hlength ▸ h.main.callsBelow hb.main, fun s' hs' => ?_⟩
  obtain ⟨s, hs, hsimplifies⟩ := exists_of_mem_forall₂ h.subroutines hs'
  exact hlength ▸ hsimplifies.body.callsBelow (hb.bodies s hs)

/-- A grammar whose only calls are those that binding makes. -/
def Grammar.CallFree (g : Grammar τ) : Prop := ∀ p l r, g.node p ≠ .leaf (.call l r)

/-- What holds of all nodes that a grammar has, and of the parser that fails and says nothing, holds of
every node. -/
theorem Grammar.forall_node {g : Grammar τ} {P : Node τ → Prop} (h : ∀ n ∈ g.nodes, P n)
    (hempty : P (.leaf .empty)) (p : NodeId) : P (g.node p) := by
  unfold Grammar.node
  rw [Array.getD_eq_getD_getElem?]
  cases hp : g.nodes[p]? with
  | none => exact hempty
  | some n => exact h n (Array.mem_of_getElem? hp)

theorem Grammar.callFree_of_forall {g : Grammar τ} (h : ∀ n ∈ g.nodes, ∀ l r, n ≠ .leaf (.call l r)) :
    g.CallFree := Grammar.forall_node h nofun

/-- Trees without calls of their own call what the calls that stand for nodes call. -/
theorem Grammar.CallFree.inductive_callsBelow {g : Grammar τ} (h : g.CallFree) (n : Nat) :
    g.Inductive (fun l _ _ => l < n) fun _ e => e.CallsBelow n := by
  refine ⟨fun _ => trivial, fun p l hl => ?_, fun _ _ _ hl => hl, fun _ _ _ _ _ _ _ he => he,
    fun _ _ _ _ _ _ _ _ _ _ _ he he' => ⟨he, he'⟩⟩
  cases l with
  | call l r => exact absurd hl (h p l r)
  | _ => trivial

/-- All calls that binding makes go to subroutines that exist. -/
theorem Grammar.CallFree.closed {g : Grammar τ} (h : g.CallFree) {root : NodeId} {b : Bound τ}
    (hbind : g.bind root = .ok b) : b.Closed := by
  obtain ⟨hmain, hbodies⟩ := Grammar.bind_forall hbind <|
    (h.inductive_callsBelow b.subroutines.length).anti fun _ _ _ ⟨_, hs, _⟩ => (List.getElem?_eq_some_iff.1 hs).1
  exact ⟨hmain, hbodies⟩

namespace Bound

variable {b : Bound τ}

/-- What a program of trees does is what the code does that was generated for them. -/
theorem Closed.exists_link (h : b.Closed) (o : Options) :
    ∃ a p, b.generate o = .ok a ∧ (a.improve o).link = .ok p ∧ b.Generates o a ∧
      (a.improve o).Sound ∧ a.Refines (a.improve o) := by
  obtain ⟨a, hgenerate⟩ := h.exists_generateIn false o
  have hgenerates := generates_of_generate hgenerate
  obtain ⟨hsound, hrefines⟩ := Assembly.improves_improve o a hgenerates.sound
  obtain ⟨p, hlink⟩ := hsound.exists_link
  exact ⟨a, p, hgenerate, hlink, hgenerates, hsound, hrefines⟩

end Bound

/-- Only binding and simplification fail. -/
theorem Grammar.CallFree.compile_eq_error_iff {g : Grammar τ} (h : g.CallFree) {o : Options} {root : NodeId}
    {e : CompileError} :
    g.compile o root = .error e ↔
      g.bind root = .error e ∨ ∃ b, g.bind root = .ok b ∧ b.optimize o = .error e := by
  constructor
  · intro hcompile
    rcases bind_eq_error_iff.1 hcompile with hbind | ⟨b, hbind, hcompile⟩
    · exact .inl hbind
    · refine .inr ⟨b, hbind, ?_⟩
      rcases bind_eq_error_iff.1 hcompile with hoptimize | ⟨b', hoptimize, hassemble⟩
      · exact hoptimize
      · have hclosed := (Bound.simplifies_of_optimize hoptimize).closed (h.closed hbind)
        obtain ⟨a, p, hgenerate, hlink, -⟩ := hclosed.exists_link o
        have hok : (b'.generate o >>= fun a => (a.improve o).link) = .ok p :=
          bind_eq_ok_iff.2 ⟨a, hgenerate, hlink⟩
        rw [hok] at hassemble
        cases hassemble
  · rintro (hbind | ⟨b, hbind, hoptimize⟩)
    · exact bind_eq_error_iff.2 (.inl hbind)
    · exact bind_eq_error_iff.2 (.inr ⟨b, hbind, bind_eq_error_iff.2 (.inl hoptimize)⟩)

end ParserMachine

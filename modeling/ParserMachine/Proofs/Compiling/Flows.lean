import ParserMachine.Proofs.Compiling.Realizing
import ParserMachine.Proofs.Linking.Flows

/-!
# Flows of compiled grammars

Every program that a grammar is compiled to has flows, and they tell which forms the grammar goes without
(`Grammar.Without.exists_flows`).
-/

namespace ParserMachine

variable {τ : Type} [Token τ] {bad : Unary τ → Prop}

/-- Programs of trees have flows. -/
theorem Bound.Without.exists_flows {b : Bound τ} {o : Options} {p : Program τ} (h : b.Without bad)
    (hassemble : b.assemble o = .ok p) : ∃ into, p.FlowsBy bad into := by
  obtain ⟨a, hgenerate, hlink⟩ := bind_eq_ok_iff.1 hassemble
  have hgenerates := Bound.generates_of_generate hgenerate
  have hsound := hgenerates.sound
  exact ((hgenerates.carries h).improve hsound o).exists_flows (Assembly.improves_improve o a hsound).1 hlink

/-- A program of a grammar has flows, and no instruction stems from a form that the grammar goes without. -/
theorem Grammar.Without.exists_flows {g : Grammar τ} (h : g.Without bad) (hbad : Unary.Foreign bad) {o : Options}
    {root : NodeId} {p : Program τ} (hcompile : g.compile o root = .ok p) : ∃ into, p.FlowsBy bad into := by
  obtain ⟨b, hbind, hcompile⟩ := bind_eq_ok_iff.1 hcompile
  obtain ⟨b', hoptimize, hassemble⟩ := bind_eq_ok_iff.1 (b.compile_eq o ▸ hcompile)
  exact ((h.bind hbind).simplifies hbad (Bound.simplifies_of_optimize hoptimize)).exists_flows hassemble

end ParserMachine

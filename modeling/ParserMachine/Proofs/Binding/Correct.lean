import ParserMachine.Proofs.Binding.Trees
import ParserMachine.Proofs.Generation.Whole
import ParserMachine.Proofs.Meaning.Graph

/-!
# Trees do what the graph does

What stands for a node in the trees comes to every reply of the evaluation of the node
(`Trees.Built.extends`), and so the main expression does what the root does
(`Grammar.Evaluates.bind`). References cost the graph depth, but not the trees; calls cost the trees
depth, but not the graph.
-/

namespace ParserMachine

variable {τ : Type} [Token τ] {g : Grammar τ} {input : Array τ} {w : Walk} {p q : NodeId}
  {t : Trees τ}

namespace Grammar

/-- Behind references there is a node that is none, and it does what they do. -/
theorem followFor_ok (input : Array τ) {steps : Nat} (h : (g.followFor steps p).2 = .ok q) :
    (∀ c, g.node q ≠ .lazy c) ∧
      ∀ depth, (g.evalAt input depth q).Extends (g.evalAt input depth p) := by
  induction steps generalizing p with
  | zero =>
    unfold followFor at h
    split at h
    · cases h
    · rename_i hp
      cases h
      exact ⟨hp, fun depth => .refl _⟩
  | succ steps ih =>
    unfold followFor at h
    split at h
    · rename_i c hc
      cases htarget : (g.cell c).target? with
      | none =>
        rw [htarget] at h
        cases h
      | some p' =>
        rw [htarget] at h
        obtain ⟨hq, hextends⟩ := ih h
        refine ⟨hq, fun depth => ?_⟩
        cases depth with
        | zero => exact .refl _
        | succ depth =>
          have hlazy : g.evalAt input (depth + 1) p = g.evalAt input depth p' := by
            rw [evalAt, hc]
            dsimp only
            rw [htarget]
          rw [hlazy]
          exact (hextends depth).trans (evalAt_mono (Nat.le_succ depth) q)
    · rename_i hp
      cases h
      exact ⟨hp, fun depth => .refl _⟩

end Grammar

section Trees

variable {tgt : Target τ} (htables : tgt.options.dispatchTables = false) {n m : Nat}
include htables

/-- The tree of a node does what the node does, if what stands for its parts does what they do. -/
theorem Grammar.treeOf_extends (hw : g.Visits [] w) (hp : p ∈ w.left.toList)
    (hlazy : ∀ c, g.node p ≠ .lazy c) (hnm : n ≤ m) {useOf : NodeId → Expr τ}
    (hkids : ∀ k, (∀ c, g.node k ≠ .lazy c) → w.entered k = true →
      ((useOf k).evalAt tgt input (m + 1)).Extends (g.evalAt input n k)) :
    ((g.treeOf p ((w.kidsOf p).map useOf)).evalAt tgt input (m + 1)).Extends
      (g.evalAt input (n + 1) p) := by
  obtain ⟨ks, hks⟩ := (hw.entered p).1 (List.mem_append_right _ hp)
  have hresolve := hw.kids p ks hks
  have hclosed := hw.closed p hp
  rw [Walk.kidsOf_of_getElem? hks] at hclosed ⊢
  have hkid {k k' : NodeId} (hk : g.resolve k = .ok k') (hmem : k' ∈ ks) :
      ((useOf k').evalAt tgt input (m + 1)).Extends (g.evalAt input n k) := by
    obtain ⟨hk', hextends⟩ := followFor_ok input hk
    exact (hextends n).trans (hkids k' hk' (hclosed k' hmem))
  have hrounds : n + input.size + 1 ≤ m + input.size + 1 := by omega
  have hparts := forall₂_of_mapM_eq_ok hresolve
  unfold children at hparts
  unfold treeOf Grammar.evalAt
  cases hnode : g.node p with
  | lazy c => exact absurd hnode (hlazy c)
  | leaf l =>
    dsimp only
    rw [Expr.evalAt_leaf]
    exact Leaf.run_mono (fun _ => Run.extends_never _) l
  | unary u k =>
    rw [hnode] at hparts
    cases hparts with
    | cons hk hnil =>
      cases hnil
      show ((Expr.unary u (useOf _)).evalAt tgt input (m + 1)).Extends _
      rw [Expr.evalAt_unary]
      exact Unary.run_mono (hkid hk (List.mem_cons_self ..)) hrounds u
  | binary b k l =>
    rw [hnode] at hparts
    cases hparts with
    | cons hk hparts =>
      cases hparts with
      | cons hl hnil =>
        cases hnil
        show ((Expr.binary b (useOf _) (useOf _)).evalAt tgt input (m + 1)).Extends _
        rw [Expr.evalAt_binary_of_noTables htables]
        exact Binary.run_mono (hkid hk (List.mem_cons_self ..))
          (hkid hl (List.mem_cons_of_mem _ (List.mem_cons_self ..))) b

/-- What stands for a node does what the node does. -/
theorem Trees.Built.extends (h : Trees.Built g w w.left.toList t) (hw : g.Visits [] w)
    (hcalls : tgt.subroutines = t.subroutines.reverse.toArray) (hnm : n ≤ m)
    (hlazy : ∀ c, g.node p ≠ .lazy c) (hp : w.entered p = true) :
    ((t.useOf p).evalAt tgt input (m + 1)).Extends (g.evalAt input n p) := by
  induction n generalizing m p with
  | zero => exact Run.extends_never _
  | succ n ih =>
    obtain ⟨m, rfl⟩ := Nat.exists_eq_succ_of_ne_zero (Nat.ne_zero_of_lt hnm)
    have hnm' := Nat.le_of_succ_le_succ hnm
    rcases Walk.entered_iff.1 hp with hsize | hks
    · -- a node that does not exist fails
      have hnode := Grammar.node_of_size_le (hw.size ▸ hsize)
      rw [Trees.useOf_of_size_le (by rwa [h.size]), Grammar.evalAt, hnode]
      show ((Expr.leaf .empty).evalAt tgt input (m + 1 + 1)).Extends _
      rw [Expr.evalAt_leaf]
      exact Run.Extends.refl _
    · have hleft := (hw.entered p).2 hks
      cases hshared : g.isShared w w.uses p with
      | false =>
        rw [h.tree p hleft hshared]
        exact Grammar.treeOf_extends htables hw hleft hlazy (Nat.le_succ_of_le hnm')
          fun k => ih (Nat.le_succ_of_le hnm')
      | true =>
        obtain ⟨l, huse, hl⟩ := h.exists_call hw hleft hshared
        have hsub := h.getElem?_subroutines hl
        rw [huse, Expr.evalAt_leaf]
        show (Expr.callsAt tgt input (m + 1) l).Extends _
        rw [Expr.callsAt_of_getElem? (by rw [hcalls, List.getElem?_toArray]; exact hsub)]
        exact Grammar.treeOf_extends htables hw hleft hlazy hnm' fun k => ih hnm'

end Trees

/-- The main expression comes to every reply of the evaluation of the root. -/
theorem Grammar.Evaluates.bind {o : Options} (htables : o.dispatchTables = false) {root : NodeId}
    {b : Bound τ} (hbind : g.bind root = .ok b) {input : List τ} {reply : Reply τ}
    (h : g.Evaluates input.toArray root .first reply) :
    ∃ depth, b.evalAt o input depth = some reply := by
  obtain ⟨root', w, hroot, -, hvisits, hentered, rfl⟩ := exists_of_bind hbind
  obtain ⟨hlazy, hextends⟩ := followFor_ok input.toArray hroot
  obtain ⟨depth, hreply⟩ := h
  let tgt : Target τ := ⟨o, (g.trees w).subroutines.reverse.toArray⟩
  have htables' : tgt.options.dispatchTables = false := htables
  refine ⟨depth + 1, ?_⟩
  exact (Trees.built_trees hvisits).extends htables' hvisits rfl (Nat.le_refl depth) hlazy hentered
    _ _ (hextends depth _ _ hreply)

end ParserMachine

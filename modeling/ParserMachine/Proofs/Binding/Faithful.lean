import ParserMachine.Proofs.Binding.Calling

/-!
# The graph does what the trees do

What a tree of a node replies, the evaluation of the node comes to (`Trees.Built.exists_extends`): trees are finite,
and follow calls to a depth, so that the graph needs to be followed to some depth only. With what holds the other way
round, the main expression and the root reply the same (`Grammar.CallFree.evalAt_bind_iff`).
-/

namespace ParserMachine

variable {τ : Type} [Token τ] {g : Grammar τ} {input : Array τ} {w : Walk} {p q : NodeId} {t : Trees τ} {n m : Nat}

namespace Grammar

/-- What holds of a node if it holds of those of its parts that stand for themselves holds of every node: such parts
were left before. -/
theorem Visits.induct_unshared (hw : g.Visits [] w) {P : NodeId → Prop}
    (hstep : ∀ p ∈ w.left.toList,
      (∀ k ∈ w.kidsOf p, k ∈ w.left.toList → g.isShared w w.uses k = false → P k) → P p) :
    ∀ p ∈ w.left.toList, P p := by
  have hall (pre : List NodeId) : ∀ post, w.left.toList = pre ++ post → ∀ p ∈ pre, P p := by
    induction pre using List.reverseRecOn with
    | nil => nofun
    | append_singleton pre p ih =>
      intro post hleft q hq
      rw [List.append_assoc] at hleft
      have hpre := ih _ hleft
      rcases List.mem_append.1 hq with hq | hq
      · exact hpre q hq
      · cases List.mem_singleton.1 hq
        have hp : p ∈ w.left.toList := by
          rw [hleft]
          exact List.mem_append_right _ (List.mem_cons_self ..)
        refine hstep p hp fun k hk hkleft hshared => ?_
        by_contra hknot
        obtain ⟨pre', post', hsplit, hpmem⟩ := exists_append_of_not_mem hleft hkleft fun hmem => hknot (hpre k hmem)
        rw [isShared_of_edge hw.nodup (fun q hq => hw.size ▸ hw.lt hq) hsplit hpmem hk] at hshared
        cases hshared
  exact hall _ [] (List.append_nil _).symm

/-- No node that was left is a reference, if the root is none. -/
theorem Visits.not_lazy_of_below (hw : g.Visits [] w) (hp : ∀ c, g.node p ≠ .lazy c) (h : w.Below p q) :
    ∀ c, g.node q ≠ .lazy c := by
  cases h with
  | refl => exact hp
  | tail _ hk =>
    have hresolve := forall₂_of_mapM_eq_ok (hw.kids _ _ (Walk.getElem?_of_mem_kidsOf hk))
    obtain ⟨k', -, hkk'⟩ := exists_of_mem_forall₂ hresolve hk
    obtain ⟨n, hn⟩ := resolve_eq_ok_iff.1 hkk'
    exact hn.not_lazy

/-- A reference does what the parser does that it leads to, so many references deeper. -/
theorem LeadsIn.evalAt_eq (h : g.LeadsIn n p q) (depth : Nat) :
    g.evalAt input (depth + n) p = g.evalAt input depth q := by
  induction h with
  | here _ => rfl
  | @next n p q r c hlazy htarget _ ih =>
    rw [← ih, ← Nat.add_assoc, evalAt, hlazy]
    dsimp only
    rw [htarget]

end Grammar

section Trees

variable {tgt : Target τ} (htables : tgt.options.dispatchTables = false)
include htables

/-- A node does what its tree does, if its parts do what stands for them. -/
theorem Grammar.exists_extends_treeOf (hw : g.Visits [] w) (hp : p ∈ w.left.toList)
    (hlazy : ∀ c, g.node p ≠ .lazy c) (hcall : ∀ l r, g.node p ≠ .leaf (.call l r)) {useOf : NodeId → Expr τ}
    (hkids : ∀ k ∈ w.kidsOf p, ∃ n, (g.evalAt input n k).Extends ((useOf k).evalAt tgt input (m + 1))) :
    ∃ n, (g.evalAt input n p).Extends ((g.treeOf p ((w.kidsOf p).map useOf)).evalAt tgt input (m + 1)) := by
  obtain ⟨ks, hks⟩ := (hw.entered p).1 (List.mem_append_right _ hp)
  have hparts := forall₂_of_mapM_eq_ok (hw.kids p ks hks)
  rw [Walk.kidsOf_of_getElem? hks] at hkids ⊢
  have hpart {k k' : NodeId} (hk : g.resolve k = .ok k') (hmem : k' ∈ ks) :
      ∃ n, ∀ n', n ≤ n' → (g.evalAt input n' k).Extends ((useOf k').evalAt tgt input (m + 1)) := by
    obtain ⟨d, hd⟩ := resolve_eq_ok_iff.1 hk
    obtain ⟨n, hn⟩ := hkids k' hmem
    exact ⟨n + d, fun n' hn' => (hd.evalAt_eq n ▸ hn).trans (evalAt_mono hn' k)⟩
  unfold children at hparts
  cases hnode : g.node p with
  | lazy c => exact absurd hnode (hlazy c)
  | leaf l =>
    refine ⟨1, ?_⟩
    unfold treeOf evalAt
    simp only [hnode]
    rw [Expr.evalAt_leaf]
    cases l with
    | call l r => exact absurd hnode (hcall l r)
    | _ => exact .refl _
  | unary u k =>
    rw [hnode] at hparts
    cases hparts with
    | cons hk hnil =>
      cases hnil
      obtain ⟨n, hn⟩ := hpart hk (List.mem_cons_self ..)
      refine ⟨max n m + 1, ?_⟩
      unfold treeOf evalAt
      simp only [hnode, List.map_cons, List.map_nil]
      rw [Expr.evalAt_unary]
      exact Unary.run_mono (hn _ (Nat.le_max_left n m))
        (Nat.add_le_add_right (Nat.add_le_add_right (Nat.le_max_right n m) _) _) u
  | binary b k l =>
    rw [hnode] at hparts
    cases hparts with
    | cons hk hparts =>
      cases hparts with
      | cons hl hnil =>
        cases hnil
        obtain ⟨n, hn⟩ := hpart hk (List.mem_cons_self ..)
        obtain ⟨n', hn'⟩ := hpart hl (List.mem_cons_of_mem _ (List.mem_cons_self ..))
        refine ⟨max n n' + 1, ?_⟩
        unfold treeOf evalAt
        simp only [hnode, List.map_cons, List.map_nil]
        rw [Expr.evalAt_binary_of_noTables htables]
        exact Binary.run_mono (hn _ (Nat.le_max_left n n')) (hn' _ (Nat.le_max_right n n')) b

omit htables in
/-- A node does what stands for it: its tree, or a call of the subroutine that has this tree. -/
theorem Trees.Built.exists_extends_useOf (h : Trees.Built g w w.left.toList t) (hw : g.Visits [] w)
    (hcalls : tgt.subroutines = t.subroutines.reverse.toArray) (hp : w.entered p = true)
    (hbody : p ∈ w.left.toList →
      ∃ n, (g.evalAt input n p).Extends ((g.treeOf p ((w.kidsOf p).map t.useOf)).evalAt tgt input m))
    (htree : p ∈ w.left.toList → g.isShared w w.uses p = false →
      ∃ n, (g.evalAt input n p).Extends ((g.treeOf p ((w.kidsOf p).map t.useOf)).evalAt tgt input (m + 1))) :
    ∃ n, (g.evalAt input n p).Extends ((t.useOf p).evalAt tgt input (m + 1)) := by
  rcases Walk.entered_iff.1 hp with hsize | hks
  · -- a node that does not exist fails
    have hnode := Grammar.node_of_size_le (hw.size ▸ hsize)
    refine ⟨1, ?_⟩
    rw [Trees.useOf_of_size_le (by rwa [h.size]), Grammar.evalAt, hnode]
    show Run.Extends _ ((Expr.leaf .empty).evalAt tgt input (m + 1))
    rw [Expr.evalAt_leaf]
    exact .refl _
  · have hleft := (hw.entered p).2 hks
    cases hshared : g.isShared w w.uses p with
    | false =>
      rw [h.tree p hleft hshared]
      exact htree hleft hshared
    | true =>
      obtain ⟨l, huse, hl⟩ := h.exists_call hw hleft hshared
      rw [huse, Expr.evalAt_leaf]
      show ∃ n, (g.evalAt input n p).Extends (Expr.callsAt tgt input m l)
      rw [Expr.callsAt_of_getElem? (by rw [hcalls, List.getElem?_toArray]; exact h.getElem?_subroutines hl)]
      exact hbody hleft

/-- A node does what its tree does, if no node calls subroutines and none of those that were left is a reference. -/
theorem Trees.Built.exists_extends (h : Trees.Built g w w.left.toList t) (hw : g.Visits [] w)
    (hcalls : tgt.subroutines = t.subroutines.reverse.toArray) (hfree : g.CallFree)
    (hlazy : ∀ p ∈ w.left.toList, ∀ c, g.node p ≠ .lazy c) (m : Nat) :
    ∀ p ∈ w.left.toList,
      ∃ n, (g.evalAt input n p).Extends ((g.treeOf p ((w.kidsOf p).map t.useOf)).evalAt tgt input m) := by
  induction m with
  | zero => exact fun p _ => ⟨0, Run.extends_never _⟩
  | succ m ih =>
    refine hw.induct_unshared fun p hp hunshared => ?_
    exact Grammar.exists_extends_treeOf htables hw hp (hlazy p hp) (hfree p) fun k hk =>
      h.exists_extends_useOf hw hcalls (hw.closed p hp k hk) (ih k) (hunshared k hk)

end Trees

/-- The main expression replies what the root does. -/
theorem Grammar.CallFree.evalAt_bind_iff (hfree : g.CallFree) {o : Options} (htables : o.dispatchTables = false)
    {root : NodeId} {b : Bound τ} (hbind : g.bind root = .ok b) {input : List τ} {reply : Reply τ} :
    (∃ depth, b.evalAt o input depth = some reply) ↔ g.Evaluates input.toArray root .first reply := by
  refine ⟨fun ⟨depth, hreply⟩ => ?_, fun h => h.bind htables hbind⟩
  obtain ⟨root', w, t, ⟨d, hleads⟩, hbinds⟩ := exists_binds hbind
  have htables' : (⟨o, b.subroutines.toArray⟩ : Target τ).options.dispatchTables = false := htables
  have hcalls : (⟨o, b.subroutines.toArray⟩ : Target τ).subroutines = t.subroutines.reverse.toArray :=
    congrArg List.toArray hbinds.subroutines
  have hlazy : ∀ p ∈ w.left.toList, ∀ c, g.node p ≠ .lazy c := fun p hp =>
    hbinds.visits.not_lazy_of_below hleads.not_lazy (hbinds.below p hp)
  obtain ⟨m, rfl⟩ : ∃ m, depth = m + 1 := by
    cases depth with
    | zero => cases hreply
    | succ m => exact ⟨m, rfl⟩
  have htree (m : Nat) (p : NodeId) (hp : p ∈ w.left.toList) : ∃ n, (g.evalAt input.toArray n p).Extends
      ((g.treeOf p ((w.kidsOf p).map t.useOf)).evalAt ⟨o, b.subroutines.toArray⟩ input.toArray m) :=
    hbinds.built.exists_extends htables' hbinds.visits hcalls hfree hlazy m p hp
  obtain ⟨n, hn⟩ := hbinds.built.exists_extends_useOf hbinds.visits hcalls hbinds.entered (htree m root')
    fun hroot _ => htree (m + 1) root' hroot
  refine ⟨n + d, ?_⟩
  rw [hleads.evalAt_eq n]
  unfold Bound.evalAt at hreply
  rw [hbinds.main] at hreply
  exact hn _ _ hreply

end ParserMachine

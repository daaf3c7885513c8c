import ParserMachine.Proofs.Binding.Induction
import ParserMachine.Proofs.Binding.References

/-!
# Unfoldings

A graph unfolds to a tree that need not be finite, and so do trees that call subroutines; both are compared
when they are cut off at a depth (`Shape`). References and calls cost no depth. What stands for a node
unfolds as the node does (`Trees.Built.unfolds`), at every depth.
-/

namespace ParserMachine

variable {τ : Type} [Token τ]

/-- A tree of forms that is cut off at some depth. -/
inductive Shape (τ : Type) [Token τ] where
  /-- Here it is cut off. -/
  | cut
  /-- A parser without parts. -/
  | leaf (l : Leaf τ)
  /-- A form around a parser. -/
  | unary (u : Unary τ) (s : Shape τ)
  /-- A form that joins two parsers. -/
  | binary (b : Binary τ) (s t : Shape τ)

/-- What a node of a graph unfolds to at a depth: references are replaced by their targets. -/
inductive Grammar.Unfolds (g : Grammar τ) : Nat → NodeId → Shape τ → Prop where
  | cut (p : NodeId) : Unfolds g 0 p .cut
  | target {d : Nat} {p q : NodeId} {c : CellId} {s : Shape τ} (hlazy : g.node p = .lazy c)
    (htarget : (g.cell c).target? = some q) (h : Unfolds g (d + 1) q s) : Unfolds g (d + 1) p s
  | leaf {d : Nat} {p : NodeId} {l : Leaf τ} (hnode : g.node p = .leaf l) : Unfolds g (d + 1) p (.leaf l)
  | unary {d : Nat} {p k : NodeId} {u : Unary τ} {s : Shape τ} (hnode : g.node p = .unary u k)
    (h : Unfolds g d k s) : Unfolds g (d + 1) p (.unary u s)
  | binary {d : Nat} {p k l : NodeId} {b : Binary τ} {s t : Shape τ} (hnode : g.node p = .binary b k l)
    (hk : Unfolds g d k s) (hl : Unfolds g d l t) : Unfolds g (d + 1) p (.binary b s t)

/-- What an expression unfolds to at a depth: calls are replaced by the subroutines that they name. -/
inductive Bound.Unfolds (b : Bound τ) : Nat → Expr τ → Shape τ → Prop where
  | cut (e : Expr τ) : Unfolds b 0 e .cut
  | call {d l : Nat} {r : Bool} {sub : Subroutine τ} {s : Shape τ} (hsub : b.subroutines[l]? = some sub)
    (h : Unfolds b (d + 1) sub.body s) : Unfolds b (d + 1) (.leaf (.call l r)) s
  | leaf {d : Nat} {l : Leaf τ} (hl : ∀ i r, l ≠ .call i r) : Unfolds b (d + 1) (.leaf l) (.leaf l)
  | unary {d : Nat} {u : Unary τ} {e : Expr τ} {s : Shape τ} (h : Unfolds b d e s) :
    Unfolds b (d + 1) (.unary u e) (.unary u s)
  | binary {d : Nat} {f : Binary τ} {e e' : Expr τ} {s t : Shape τ} (h : Unfolds b d e s)
    (h' : Unfolds b d e' t) : Unfolds b (d + 1) (.binary f e e') (.binary f s t)

/-! ### There is one unfolding -/

variable {g : Grammar τ} {b : Bound τ} {p q : NodeId} {d : Nat} {s s' : Shape τ}

namespace Grammar

theorem Unfolds.unique (h : g.Unfolds d p s) (h' : g.Unfolds d p s') : s = s' := by
  induction h generalizing s' with
  | cut p =>
    cases h'
    rfl
  | target hlazy htarget _ ih =>
    cases h' with
    | target hlazy' htarget' h' =>
      obtain rfl := Node.lazy.inj (hlazy.symm.trans hlazy')
      obtain rfl := Option.some.inj (htarget.symm.trans htarget')
      exact ih h'
    | leaf hnode => cases hlazy.symm.trans hnode
    | unary hnode _ => cases hlazy.symm.trans hnode
    | binary hnode _ _ => cases hlazy.symm.trans hnode
  | leaf hnode =>
    cases h' with
    | leaf hnode' =>
      cases hnode.symm.trans hnode'
      rfl
    | target hnode' _ _ => cases hnode.symm.trans hnode'
    | unary hnode' _ => cases hnode.symm.trans hnode'
    | binary hnode' _ _ => cases hnode.symm.trans hnode'
  | unary hnode _ ih =>
    cases h' with
    | unary hnode' h' =>
      cases hnode.symm.trans hnode'
      rw [ih h']
    | target hnode' _ _ => cases hnode.symm.trans hnode'
    | leaf hnode' => cases hnode.symm.trans hnode'
    | binary hnode' _ _ => cases hnode.symm.trans hnode'
  | binary hnode _ _ ihk ihl =>
    cases h' with
    | binary hnode' hk' hl' =>
      cases hnode.symm.trans hnode'
      rw [ihk hk', ihl hl']
    | target hnode' _ _ => cases hnode.symm.trans hnode'
    | leaf hnode' => cases hnode.symm.trans hnode'
    | unary hnode' _ => cases hnode.symm.trans hnode'

/-- What references lead to unfolds as they do. -/
theorem LeadsTo.unfolds_iff (h : g.LeadsTo p q) : g.Unfolds d p s ↔ g.Unfolds d q s := by
  cases d with
  | zero =>
    constructor <;> intro h <;> cases h <;> exact .cut _
  | succ d =>
    obtain ⟨n, h⟩ := h
    induction h with
    | here h => exact Iff.rfl
    | next hlazy htarget _ ih =>
      refine Iff.trans ⟨fun hp => ?_, fun hq => .target hlazy htarget hq⟩ ih
      cases hp with
      | target hlazy' htarget' hq =>
        obtain rfl := Node.lazy.inj (hlazy.symm.trans hlazy')
        obtain rfl := Option.some.inj (htarget.symm.trans htarget')
        exact hq
      | leaf hnode => cases hlazy.symm.trans hnode
      | unary hnode _ => cases hlazy.symm.trans hnode
      | binary hnode _ _ => cases hlazy.symm.trans hnode

/-- A node unfolds at every depth if every reference that it reaches leads to a parser. -/
theorem Resolvable.exists_unfolds (h : g.Resolvable p) (d : Nat) : ∃ s, g.Unfolds d p s := by
  induction d generalizing p with
  | zero => exact ⟨.cut, .cut p⟩
  | succ d ih =>
    obtain ⟨q, hq⟩ := h.exists_resolve
    have hleads := resolve_eq_ok_iff.1 hq
    have hpart (k : NodeId) (hk : k ∈ g.children q) : ∃ s, g.Unfolds d k s :=
      ih (h.of_reaches (hleads.reaches.part hk))
    suffices hs : ∃ s, g.Unfolds (d + 1) q s by
      obtain ⟨s, hs⟩ := hs
      exact ⟨s, hleads.unfolds_iff.2 hs⟩
    unfold children at hpart
    cases hnode : g.node q with
    | lazy c =>
      obtain ⟨n, hleads⟩ := hleads
      exact absurd hnode (hleads.not_lazy c)
    | leaf l => exact ⟨.leaf l, .leaf hnode⟩
    | unary u k =>
      rw [hnode] at hpart
      obtain ⟨s, hs⟩ := hpart k (List.mem_cons_self ..)
      exact ⟨.unary u s, .unary hnode hs⟩
    | binary b k l =>
      rw [hnode] at hpart
      obtain ⟨s, hs⟩ := hpart k (List.mem_cons_self ..)
      obtain ⟨t, ht⟩ := hpart l (List.mem_cons_of_mem _ (List.mem_cons_self ..))
      exact ⟨.binary b s t, .binary hnode hs ht⟩

end Grammar

theorem Bound.Unfolds.unique {e : Expr τ} (h : b.Unfolds d e s) (h' : b.Unfolds d e s') : s = s' := by
  induction h generalizing s' with
  | cut e =>
    cases h'
    rfl
  | call hsub _ ih =>
    cases h' with
    | call hsub' h' =>
      obtain rfl := Option.some.inj (hsub.symm.trans hsub')
      exact ih h'
    | leaf hl => exact absurd rfl (hl _ _)
  | leaf hl =>
    cases h' with
    | call _ _ => exact absurd rfl (hl _ _)
    | leaf _ => rfl
  | unary _ ih =>
    cases h' with
    | unary h' => rw [ih h']
  | binary _ _ ih ih' =>
    cases h' with
    | binary h₁ h₂ => rw [ih h₁, ih' h₂]

/-! ### What stands for a node unfolds as the node does -/

section Trees

variable {root : NodeId} {w : Walk} {t : Trees τ}

/-- The tree of a node unfolds as the node does, if what stands for its parts does so one level deeper. -/
theorem Grammar.treeOf_unfolds (hw : g.Visits [] w) (hp : p ∈ w.left.toList)
    (hcall : ∀ l r, g.node p ≠ .leaf (.call l r)) {useOf : NodeId → Expr τ}
    (hparts : ∀ k k' s, k ∈ g.children p → g.resolve k = .ok k' → w.entered k' = true → g.Unfolds d k' s →
      b.Unfolds d (useOf k') s)
    (h : g.Unfolds (d + 1) p s) (hlazy : ∀ c, g.node p ≠ .lazy c) :
    b.Unfolds (d + 1) (g.treeOf p ((w.kidsOf p).map useOf)) s := by
  obtain ⟨ks, hks⟩ := (hw.entered p).1 (List.mem_append_right _ hp)
  have hresolve := forall₂_of_mapM_eq_ok (hw.kids p ks hks)
  have hclosed := hw.closed p hp
  rw [Walk.kidsOf_of_getElem? hks] at hclosed ⊢
  have hpart {k k' : NodeId} {s : Shape τ} (hk : k ∈ g.children p) (hk' : g.resolve k = .ok k') (hmem : k' ∈ ks)
      (hs : g.Unfolds d k s) : b.Unfolds d (useOf k') s :=
    hparts k k' s hk hk' (hclosed k' hmem) ((resolve_eq_ok_iff.1 hk').unfolds_iff.1 hs)
  unfold children at hresolve hpart
  unfold treeOf
  cases h with
  | target hnode _ _ => exact absurd hnode (hlazy _)
  | leaf hnode =>
    rw [hnode]
    exact .leaf fun i r hl => hcall i r (hnode.trans (congrArg _ hl))
  | unary hnode hs =>
    rw [hnode] at hresolve hpart ⊢
    cases hresolve with
    | cons hk hnil =>
      cases hnil
      exact .unary (hpart (List.mem_cons_self ..) hk (List.mem_cons_self ..) hs)
  | binary hnode hs ht =>
    rw [hnode] at hresolve hpart ⊢
    cases hresolve with
    | cons hk hresolve =>
      cases hresolve with
      | cons hl hnil =>
        cases hnil
        exact .binary (hpart (List.mem_cons_self ..) hk (List.mem_cons_self ..) hs)
          (hpart (List.mem_cons_of_mem _ (List.mem_cons_self ..)) hl
            (List.mem_cons_of_mem _ (List.mem_cons_self ..)) ht)

/-- What stands for a node unfolds as the node does. -/
theorem Trees.Built.unfolds (h : Trees.Built g w w.left.toList t) (hw : g.Visits [] w)
    (hcalls : ∀ p l r, g.Reaches root p → g.node p ≠ .leaf (.call l r))
    (hsubs : b.subroutines = t.subroutines.reverse) (hlazy : ∀ c, g.node p ≠ .lazy c)
    (hp : w.entered p = true) (hreach : g.Reaches root p) (hs : g.Unfolds d p s) :
    b.Unfolds d (t.useOf p) s := by
  induction d generalizing p s with
  | zero =>
    cases hs
    exact .cut _
  | succ d ih =>
    rcases Walk.entered_iff.1 hp with hsize | hks
    · -- a node that does not exist fails
      have hnode := Grammar.node_of_size_le (hw.size ▸ hsize)
      rw [Trees.useOf_of_size_le (by rwa [h.size]), hs.unique (.leaf hnode)]
      exact .leaf nofun
    · have hleft := (hw.entered p).2 hks
      have htree : b.Unfolds (d + 1) (g.treeOf p ((w.kidsOf p).map t.useOf)) s := by
        refine Grammar.treeOf_unfolds hw hleft (hcalls p · · hreach) (fun k k' s hk hk' hentered hs => ?_) hs hlazy
        have hleads := Grammar.resolve_eq_ok_iff.1 hk'
        obtain ⟨n, hn⟩ := hleads
        exact ih hn.not_lazy hentered ((hreach.part hk).trans (Grammar.LeadsTo.reaches ⟨n, hn⟩)) hs
      cases hshared : g.isShared w w.uses p with
      | false =>
        rw [h.tree p hleft hshared]
        exact htree
      | true =>
        obtain ⟨l, huse, hl⟩ := h.exists_call hw hleft hshared
        rw [huse]
        exact .call (hsubs ▸ h.getElem?_subroutines hl) htree

end Trees

end ParserMachine

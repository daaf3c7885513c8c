import Mathlib.Data.List.Induction
import ParserMachine.Proofs.Binding.Correct

/-!
# Induction over trees of a graph

A property of trees that calls of subroutines, leaves and the parser that fails have, and that every form
over parts with the property has, holds of what stands for each node and of each subroutine
(`Grammar.bind_induct`). The property may speak of the node that the tree stands for; if it does not, it
holds of all trees (`Grammar.bind_forall`).
-/

namespace ParserMachine

variable {τ : Type} [Token τ] {g : Grammar τ} {w : Walk} {p : NodeId}
  {pre post : List NodeId} {t : Trees τ}

/-- A property of what stands for nodes that holds of the whole if it holds of the parts. -/
structure Grammar.Inductive (g : Grammar τ) (called : Nat → Bool → NodeId → Prop)
    (P : NodeId → Expr τ → Prop) : Prop where
  /-- Of what fails and says nothing. -/
  empty : ∀ p, P p .empty
  /-- Of leaves. -/
  leaf : ∀ p l, g.node p = .leaf l → P p (.leaf l)
  /-- Of calls. -/
  call : ∀ p l r, called l r p → P p (.leaf (.call l r))
  /-- Of unary forms. -/
  unary : ∀ p u k k' e, g.node p = .unary u k → g.resolve k = .ok k' → P k' e → P p (.unary u e)
  /-- Of binary forms. -/
  binary : ∀ p b k l k' l' e e', g.node p = .binary b k l → g.resolve k = .ok k' →
    g.resolve l = .ok l' → P k' e → P l' e' → P p (.binary b e e')

namespace Grammar

theorem Inductive.anti {called called' : Nat → Bool → NodeId → Prop} {P : NodeId → Expr τ → Prop}
    (h : g.Inductive called P) (hcalled : ∀ l r p, called' l r p → called l r p) : g.Inductive called' P :=
  ⟨h.empty, h.leaf, fun p l r hl => h.call p l r (hcalled l r p hl), h.unary, h.binary⟩

/-- The tree of a node has a property if what stands for its parts has it. -/
theorem Inductive.treeOf {called : Nat → Bool → NodeId → Prop} {P : NodeId → Expr τ → Prop}
    (h : g.Inductive called P) (hw : g.Visits [] w) (hp : p ∈ w.left.toList) {useOf : NodeId → Expr τ}
    (hkids : ∀ k ∈ w.kidsOf p, P k (useOf k)) : P p (g.treeOf p ((w.kidsOf p).map useOf)) := by
  obtain ⟨ks, hks⟩ := (hw.entered p).1 (List.mem_append_right _ hp)
  have hparts := forall₂_of_mapM_eq_ok (hw.kids p ks hks)
  rw [Walk.kidsOf_of_getElem? hks] at hkids ⊢
  unfold children at hparts
  unfold Grammar.treeOf
  cases hnode : g.node p with
  | lazy c => exact h.empty p
  | leaf l => exact h.leaf p l hnode
  | unary u k =>
    rw [hnode] at hparts
    cases hparts with
    | cons hk hnil =>
      cases hnil
      exact h.unary p u k _ _ hnode hk (hkids _ (List.mem_cons_self ..))
  | binary b k l =>
    rw [hnode] at hparts
    cases hparts with
    | cons hk hparts =>
      cases hparts with
      | cons hl hnil =>
        cases hnil
        exact h.binary p b k l _ _ _ _ hnode hk hl (hkids _ (List.mem_cons_self ..))
          (hkids _ (List.mem_cons_of_mem _ (List.mem_cons_self ..)))

end Grammar

/-- An item that does not stand before another one stands after it, or is the same. -/
theorem exists_append_of_not_mem {ps : List NodeId} {k : NodeId} (hps : ps = pre ++ p :: post) (hk : k ∈ ps)
    (hpre : k ∉ pre) : ∃ pre' post', ps = pre' ++ k :: post' ∧ p ∈ pre' ++ [k] := by
  subst hps
  have hmem : k ∈ p :: post := (List.mem_append.1 hk).resolve_left hpre
  obtain ⟨mid, rest, hrest⟩ := List.append_of_mem hmem
  refine ⟨pre ++ mid, rest, by rw [hrest, List.append_assoc], ?_⟩
  cases mid with
  | nil =>
    cases hrest
    exact List.mem_append_right _ (List.mem_cons_self ..)
  | cons q mid =>
    cases hrest
    exact List.mem_append_left _ (List.mem_append_right _ (List.mem_cons_self ..))

section Built

variable (h : Trees.Built g w w.left.toList t) (hw : g.Visits [] w) {P : NodeId → Expr τ → Prop}
  (hP : g.Inductive (fun l r p => (w.left.toList.filter (g.isShared w w.uses))[l]? = some p ∧
    w.uses.recursive.getD p false = r) P)
include h hw hP

/-- What stands for a part of a node has a property if what stands for each node left before has it:
other parts are shared. -/
theorem Trees.Built.part {k : NodeId} (hpre : ∀ q ∈ pre, P q (t.useOf q))
    (hleft : w.left.toList = pre ++ p :: post) (hk : k ∈ w.kidsOf p) : P k (t.useOf k) := by
  have hp : p ∈ w.left.toList := by
    rw [hleft]
    exact List.mem_append_right _ (List.mem_cons_self ..)
  rcases Walk.entered_iff.1 (hw.closed p hp k hk) with hsize | hks
  · rw [Trees.useOf_of_size_le (by rwa [h.size])]
    exact hP.empty k
  · have hkleft := (hw.entered k).2 hks
    cases hshared : g.isShared w w.uses k with
    | true =>
      obtain ⟨l, huse, hl⟩ := h.exists_call hw hkleft hshared
      rw [huse]
      exact hP.call k l _ ⟨hl, rfl⟩
    | false =>
      by_contra hkpre
      obtain ⟨pre', post', hsplit, hpmem⟩ := exists_append_of_not_mem hleft hkleft fun hmem => hkpre (hpre k hmem)
      rw [Grammar.isShared_of_edge hw.nodup (fun q hq => hw.size ▸ hw.lt hq) hsplit hpmem hk]
        at hshared
      cases hshared

/-- What stands for a node that was left has a property of which the whole has it if the parts do. -/
theorem Trees.Built.induct_left (hleft : w.left.toList = pre ++ post) :
    ∀ p ∈ pre, P p (t.useOf p) ∧ P p (g.treeOf p ((w.kidsOf p).map t.useOf)) := by
  induction pre using List.reverseRecOn generalizing post with
  | nil => nofun
  | append_singleton pre p ih =>
    rw [List.append_assoc] at hleft
    have hpre := ih hleft
    have hp : p ∈ w.left.toList := by
      rw [hleft]
      exact List.mem_append_right _ (List.mem_cons_self ..)
    have htree := hP.treeOf hw hp fun k hk => h.part hw hP (fun q hq => (hpre q hq).1) hleft hk
    intro q hq
    rcases List.mem_append.1 hq with hq | hq
    · exact hpre q hq
    · cases List.mem_singleton.1 hq
      refine ⟨?_, htree⟩
      cases hshared : g.isShared w w.uses p with
      | true =>
        obtain ⟨l, huse, hl⟩ := h.exists_call hw hp hshared
        rw [huse]
        exact hP.call p l _ ⟨hl, rfl⟩
      | false =>
        rw [h.tree p hp hshared]
        exact htree

end Built

/-- The main expression and the subroutines have a property that is inductive. The list says for which
node each subroutine stands; calls say of it whether it is recursive. -/
theorem Grammar.bind_induct {root : NodeId} {b : Bound τ} (hbind : g.bind root = .ok b) :
    ∃ (root' : NodeId) (ps : List NodeId), g.resolve root = .ok root' ∧
      ps.length = b.subroutines.length ∧
      ∀ P, g.Inductive (fun l r p => ps[l]? = some p ∧ ∀ s, b.subroutines[l]? = some s → s.recursive = r) P →
        P root' b.main ∧
        ∀ (l : Nat) p s, ps[l]? = some p → b.subroutines[l]? = some s → P p s.body := by
  obtain ⟨root', w, hroot, -, hw, hentered, rfl⟩ := Grammar.exists_of_bind hbind
  have h := Trees.built_trees hw
  refine ⟨root', w.left.toList.filter (g.isShared w w.uses), hroot, ?_, fun P hP => ?_⟩
  · show _ = (g.trees w).subroutines.reverse.length
    rw [h.subroutines, List.length_map]
  replace hP : g.Inductive (fun l r p => (w.left.toList.filter (g.isShared w w.uses))[l]? = some p ∧
      w.uses.recursive.getD p false = r) P := by
    refine hP.anti fun l r p hl => ⟨hl.1, fun s hs => ?_⟩
    have hs' : some (g.subroutineOf w (g.trees w) p) = some s := (h.getElem?_subroutines hl.1).symm.trans hs
    cases hs'
    exact hl.2
  refine ⟨?_, ?_⟩
  · have hall := h.induct_left hw hP (List.append_nil _).symm
    rcases Walk.entered_iff.1 hentered with hsize | hks
    · show P root' ((g.trees w).useOf root')
      rw [Trees.useOf_of_size_le (by rwa [h.size])]
      exact hP.empty root'
    · exact (hall root' ((hw.entered root').2 hks)).1
  · intro l p s hl hs
    have hall := h.induct_left hw hP (List.append_nil _).symm
    have hmem := List.mem_of_mem_filter (List.mem_of_getElem? hl)
    have hs' : some (g.subroutineOf w (g.trees w) p) = some s :=
      (h.getElem?_subroutines hl).symm.trans hs
    cases hs'
    exact (hall p hmem).2

/-- A property that does not speak of nodes holds of all trees. -/
theorem Grammar.bind_forall {root : NodeId} {b : Bound τ} (hbind : g.bind root = .ok b)
    {P : Expr τ → Prop}
    (hP : g.Inductive (fun l r _ => ∃ s, b.subroutines[l]? = some s ∧ s.recursive = r) fun _ => P) :
    P b.main ∧ ∀ s ∈ b.subroutines, P s.body := by
  obtain ⟨root', ps, -, hlength, hinduct⟩ := Grammar.bind_induct hbind
  obtain ⟨hmain, hbodies⟩ := hinduct (fun _ => P) <| hP.anti fun l r p ⟨hl, hr⟩ => by
    have hlt : l < b.subroutines.length := hlength ▸ (List.getElem?_eq_some_iff.1 hl).1
    exact ⟨_, List.getElem?_eq_getElem hlt, hr _ (List.getElem?_eq_getElem hlt)⟩
  refine ⟨hmain, fun s hs => ?_⟩
  obtain ⟨l, hl⟩ := List.getElem?_of_mem hs
  have hps : l < ps.length := hlength ▸ (List.getElem?_eq_some_iff.1 hl).1
  exact hbodies l ps[l] s (List.getElem?_eq_getElem hps) hl

end ParserMachine

import ParserMachine.Proofs.Binding.Sharing

/-!
# Trees of nodes

The trees are built in the order of leaving. What stands for a node does not change once it is built,
and so at the end it is the tree of the node over what stands for its parts, or a call of the
subroutine that has this tree (`Trees.Built`).
-/

namespace ParserMachine

variable {τ : Type} [Token τ] {g : Grammar τ} {w : Walk} {p q : NodeId} {pre post : List NodeId}
  {t : Trees τ}

namespace Grammar

/-- The subroutine of a node. -/
def subroutineOf (g : Grammar τ) (w : Walk) (t : Trees τ) (p : NodeId) : Subroutine τ :=
  ⟨g.treeOf p ((w.kidsOf p).map t.useOf), w.uses.recursive.getD p false⟩

end Grammar

/-- The trees of the nodes that were left first. -/
structure Trees.Built (g : Grammar τ) (w : Walk) (pre : List NodeId) (t : Trees τ) : Prop where
  /-- There is room for every node. -/
  size : t.uses.size = w.kids.size
  /-- Calls stand for shared nodes. -/
  call : ∀ p ∈ w.left.toList, g.isShared w w.uses p = true →
    t.useOf p = Grammar.callOf (g.labels w w.uses) w.uses p
  /-- Other nodes stand for themselves. -/
  tree : ∀ p ∈ pre, g.isShared w w.uses p = false →
    t.useOf p = g.treeOf p ((w.kidsOf p).map t.useOf)
  /-- The subroutines are those of the shared nodes, in order. -/
  subroutines : t.subroutines.reverse = (pre.filter (g.isShared w w.uses)).map (g.subroutineOf w t)

namespace Trees

theorem useOf_set {body : Expr τ} (hp : p < t.uses.size) (q : NodeId) :
    Trees.useOf { t with uses := t.uses.setIfInBounds p body } q =
      if p = q then body else t.useOf q := by
  show (t.uses.setIfInBounds p body).getD q .empty = if p = q then body else t.uses.getD q .empty
  rw [Array.getD_eq_getD_getElem?, Array.getElem?_setIfInBounds, Array.getD_eq_getD_getElem?]
  split
  · rfl
  · rfl

theorem useOf_of_size_le (h : t.uses.size ≤ p) : t.useOf p = .empty := by
  unfold useOf
  rw [Array.getD_eq_getD_getElem?, Array.getElem?_eq_none h]
  rfl

section Built

variable (hw : g.Visits [] w)
include hw

theorem built_start :
    Built g w [] ⟨(Array.range w.kids.size).map (Grammar.callOf (g.labels w w.uses) w.uses), []⟩ where
  size := by rw [Array.size_map, Array.size_range]
  call := by
    intro p hp _
    have hlt : p < w.kids.size := by
      rw [hw.size]
      exact hw.lt hp
    unfold useOf
    rw [Array.getD_eq_getD_getElem?, Array.getElem?_map, Array.getElem?_range, if_pos hlt]
    rfl
  tree := nofun
  subroutines := rfl

/-- The next node is added. -/
theorem Built.add (h : Built g w pre t) (hleft : w.left.toList = pre ++ p :: post) :
    Built g w (pre ++ [p])
      (t.add p ((g.labels w w.uses).getD p none).isSome (w.uses.recursive.getD p false)
        (g.treeOf p ((w.kidsOf p).map t.useOf))) := by
  have hlt : ∀ q ∈ w.left.toList, q < w.kids.size := fun q hq => by
    rw [hw.size]
    exact hw.lt hq
  have hnodup : w.left.toList.Nodup := hw.nodup
  have hp : p ∈ w.left.toList := by
    rw [hleft]
    exact List.mem_append_right _ (List.mem_cons_self ..)
  rw [Grammar.isSome_labels w.uses hnodup hlt hp]
  cases hshared : g.isShared w w.uses p with
  | true =>
    refine ⟨h.size, h.call, fun q hq hqs => ?_, ?_⟩
    · rcases List.mem_append.1 hq with hq | hq
      · exact h.tree q hq hqs
      · rw [List.mem_singleton.1 hq, hshared] at hqs
        cases hqs
    · show (_ :: t.subroutines).reverse = _
      rw [List.reverse_cons, h.subroutines, List.filter_append, List.map_append,
        List.filter_cons_of_pos hshared]
      rfl
  | false =>
    obtain ⟨body, hbody⟩ : ∃ body, body = g.treeOf p ((w.kidsOf p).map t.useOf) := ⟨_, rfl⟩
    rw [← hbody]
    show Built g w _ { t with uses := t.uses.setIfInBounds p body }
    have hset (q : NodeId) : Trees.useOf { t with uses := t.uses.setIfInBounds p body } q =
        if p = q then body else t.useOf q := useOf_set (by rw [h.size]; exact hlt p hp) q
    -- no part of a node up to this one is this node, so what stands for the parts stays
    have hkeep (q : NodeId) (hq : q ∈ pre ++ [p]) :
        (w.kidsOf q).map (Trees.useOf { t with uses := t.uses.setIfInBounds p body }) =
          (w.kidsOf q).map t.useOf := by
      refine List.map_congr_left fun k hk => ?_
      rw [hset, if_neg]
      rintro rfl
      rw [Grammar.isShared_of_edge hnodup hlt hleft hq hk] at hshared
      cases hshared
    refine ⟨Array.size_setIfInBounds.trans h.size, fun q hq hqs => ?_, fun q hq hqs => ?_, ?_⟩
    · rw [hset, if_neg]
      · exact h.call q hq hqs
      · rintro rfl
        rw [hshared] at hqs
        cases hqs
    · rw [hkeep q hq, hset]
      split
      · rename_i hpq
        rw [hbody, hpq]
      · rename_i hpq
        refine h.tree q ((List.mem_append.1 hq).resolve_right fun hq => ?_) hqs
        exact hpq (List.mem_singleton.1 hq).symm
    · show t.subroutines.reverse = _
      rw [h.subroutines, List.filter_append, List.filter_cons_of_neg (by rw [hshared]; nofun),
        List.filter_nil, List.append_nil]
      refine List.map_congr_left fun q hq => ?_
      unfold Grammar.subroutineOf
      rw [hkeep q (List.mem_append_left _ (List.mem_of_mem_filter hq))]

/-- All trees are built. -/
theorem built_trees : Built g w w.left.toList (g.trees w) := by
  have hall (post : List NodeId) : ∀ (pre : List NodeId) (t : Trees τ), Built g w pre t →
      w.left.toList = pre ++ post →
      Built g w w.left.toList
        (post.foldl
          (fun t p =>
            t.add p ((g.labels w w.uses).getD p none).isSome (w.uses.recursive.getD p false)
              (g.treeOf p ((w.kidsOf p).map t.useOf))) t) := by
    induction post with
    | nil =>
      intro pre t ht hleft
      rw [List.append_nil] at hleft
      rw [hleft]
      exact ht
    | cons p post ih =>
      intro pre t ht hleft
      refine ih (pre ++ [p]) _ (ht.add hw hleft) ?_
      rw [hleft, List.append_assoc]
      rfl
  unfold Grammar.trees
  rw [← Array.foldl_toList]
  exact hall w.left.toList [] _ (built_start hw) rfl

end Built

/-- A shared node stands for a call, by its place among the shared nodes. -/
theorem Built.exists_call (h : Built g w w.left.toList t) (hw : g.Visits [] w)
    (hp : p ∈ w.left.toList) (hshared : g.isShared w w.uses p = true) :
    ∃ l, t.useOf p = .leaf (.call l (w.uses.recursive.getD p false)) ∧
      (w.left.toList.filter (g.isShared w w.uses))[l]? = some p := by
  have hlt : ∀ q ∈ w.left.toList, q < w.kids.size := fun q hq => by
    rw [hw.size]
    exact hw.lt hq
  obtain ⟨pre, post, hfilter⟩ := List.append_of_mem (List.mem_filter.2 ⟨hp, hshared⟩)
  refine ⟨pre.length, ?_, ?_⟩
  · rw [h.call p hp hshared]
    unfold Grammar.callOf
    rw [Grammar.getD_labels w.uses hw.nodup hlt hfilter]
  · rw [hfilter, List.getElem?_append_right (Nat.le_refl _), Nat.sub_self]
    rfl

/-- The subroutine of a shared node stands at the place of the node among these. -/
theorem Built.getElem?_subroutines (h : Built g w w.left.toList t) {l : Nat}
    (hl : (w.left.toList.filter (g.isShared w w.uses))[l]? = some p) :
    t.subroutines.reverse[l]? = some (g.subroutineOf w t p) := by
  rw [h.subroutines, List.getElem?_map, hl]
  rfl

end Trees

/-- What binding gives is read off from a walk that has come to the root and has left every node that it entered. -/
theorem Grammar.exists_of_bind {root : NodeId} {b : Bound τ} (hbind : g.bind root = .ok b) :
    ∃ root' w, g.resolve root = .ok root' ∧ g.postorder root' = .ok w ∧ g.Visits [] w ∧ w.entered root' = true ∧
      b = ⟨(g.trees w).useOf root', (g.trees w).subroutines.reverse⟩ := by
  unfold Grammar.bind at hbind
  obtain ⟨root', hroot, hbind⟩ := bind_eq_ok_iff.1 hbind
  obtain ⟨w, hwalk, hbind⟩ := bind_eq_ok_iff.1 hbind
  cases hbind
  obtain ⟨hw, -, hentered⟩ := walk_visits visits_start (by simp) hwalk
  exact ⟨root', w, hroot, hwalk, hw, hentered, rfl⟩

end ParserMachine

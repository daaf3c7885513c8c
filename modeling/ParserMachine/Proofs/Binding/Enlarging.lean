import Mathlib.Data.List.Flatten
import ParserMachine.Proofs.Binding.Faithful
import ParserMachine.Proofs.Binding.Spanning
import ParserMachine.Proofs.Simplification.Refusals

/-!
# Larger walks share more

A walk that comes to the root of another one uses every node as often as that one, so that it shares what that one
shares, but for a root that was shared only because it was the first node of a cycle
(`Grammar.isShared_of_larger`). Less is known of what stands for a node where more is shared
(`Grammar.sharper_useOf`). The repetitions of trees are those of the nodes that were left
(`Grammar.Binds.exists_of_repeats`).
-/

namespace ParserMachine

variable {τ : Type} [Token τ] {g : Grammar τ} {p q k root root' : NodeId} {b b' : Bound τ} {w w' : Walk}
  {t t' : Trees τ}

theorem Facts.sharper_unknown (f : Facts) : f.Sharper .unknown := ⟨nofun, nofun, nofun⟩

/-- What is known of the form does not depend on what is known of its part. -/
def Unary.Opaque (u : Unary τ) : Prop := ∀ f f', u.facts f = u.facts f'

namespace Grammar

/-! ### Nodes of two walks -/

section Visits

variable (hw : g.Visits [] w) (hw' : g.Visits [] w')
include hw hw'

theorem kidsOf_eq_of_visits (hp : p ∈ w.left.toList) (hp' : p ∈ w'.left.toList) : w'.kidsOf p = w.kidsOf p := by
  obtain ⟨ks, hks⟩ := (hw.entered p).1 (List.mem_append_right _ hp)
  obtain ⟨ks', hks'⟩ := (hw'.entered p).1 (List.mem_append_right _ hp')
  rw [Walk.kidsOf_of_getElem? hks, Walk.kidsOf_of_getElem? hks']
  exact Except.ok.inj ((hw'.kids p ks' hks').symm.trans (hw.kids p ks hks))

theorem isSmall_eq_of_visits (hp : p ∈ w.left.toList) (hp' : p ∈ w'.left.toList) :
    g.isSmall w' p = g.isSmall w p := by
  unfold isSmall
  rw [kidsOf_eq_of_visits hw hw' hp hp']

/-- A walk that comes to a node comes to everything below it. -/
theorem mem_left_of_below (hroot : w'.entered root = true) (hbelow : w.Below root p) (hp : p ∈ w.left.toList) :
    p ∈ w'.left.toList := by
  have hmem {q : NodeId} (hq : q ∈ w.left.toList) (hentered : w'.entered q = true) : q ∈ w'.left.toList := by
    refine (hw'.entered q).2 ((Walk.entered_iff.1 hentered).resolve_left (Nat.not_le.2 ?_))
    rw [hw'.size]
    exact hw.lt hq
  induction hbelow with
  | refl => exact hmem hp hroot
  | tail _ hk ih =>
    have hq := hw.mem_left_of_mem_kidsOf hk
    exact hmem hp (hw'.closed _ (ih hq) _ (kidsOf_eq_of_visits hw hw' hq (ih hq) ▸ hk))

theorem countP_edges_le (hsubset : w.left.toList ⊆ w'.left.toList) (f : NodeId × NodeId → Bool) :
    w.edges.countP f ≤ w'.edges.countP f := by
  have hedges : w'.edges.countP f =
      (w'.left.toList.flatMap fun p => (w'.kidsOf p).map fun k => (p, k)).countP f := rfl
  obtain ⟨l, hperm, hsub⟩ := List.subperm_of_subset hw.nodup hsubset
  have hl : (w.left.toList.flatMap fun p => (w.kidsOf p).map fun k => (p, k)).Perm
      (l.flatMap fun p => (w'.kidsOf p).map fun k => (p, k)) := by
    refine (hperm.flatMap_right _).symm.trans (List.Perm.of_eq (List.flatMap_congr fun p hp => ?_))
    rw [kidsOf_eq_of_visits hw hw' (hperm.subset hp) (hsub.subset hp)]
  rw [hedges]
  exact Nat.le_trans (Nat.le_of_eq (hl.countP_eq f)) (hsub.flatMap _).countP_le

end Visits

theorem Visits.getElem?_of_mem_left (hw : g.Visits [] w) (hp : p ∈ w.left.toList) :
    w.kids[p]? = some (some (w.kidsOf p)) := by
  obtain ⟨ks, hks⟩ := (hw.entered p).1 (List.mem_append_right _ hp)
  rw [Walk.kidsOf_of_getElem? hks]
  exact hks

theorem Visits.kidsOf_unary {u : Unary τ} (hw : g.Visits [] w) (hp : p ∈ w.left.toList)
    (hnode : g.node p = .unary u q) (hk : g.resolve q = .ok k) : w.kidsOf p = [k] := by
  have hkids := hw.kids p _ (hw.getElem?_of_mem_left hp)
  unfold children at hkids
  rw [hnode] at hkids
  have hparts : [q].mapM g.resolve = .ok [k] := by
    rw [List.mapM_cons, hk]
    rfl
  exact Except.ok.inj (hkids.symm.trans hparts)

theorem Visits.kidsOf_binary {f : Binary τ} {q' k' : NodeId} (hw : g.Visits [] w) (hp : p ∈ w.left.toList)
    (hnode : g.node p = .binary f q q') (hk : g.resolve q = .ok k) (hk' : g.resolve q' = .ok k') :
    w.kidsOf p = [k, k'] := by
  have hkids := hw.kids p _ (hw.getElem?_of_mem_left hp)
  unfold children at hkids
  rw [hnode] at hkids
  have hparts : [q, q'].mapM g.resolve = .ok [k, k'] := by
    rw [List.mapM_cons, hk, List.mapM_cons, hk']
    rfl
  exact Except.ok.inj (hkids.symm.trans hparts)

/-- The root was left last. -/
theorem Spans.last {pre : List NodeId} (h : Spans root [] w) (hw : g.Visits [] w)
    (hleft : w.left.toList = pre ++ [p]) : p = root := by
  have hp : p ∈ w.left.toList := hleft ▸ List.mem_append_right _ (List.mem_cons_self ..)
  rcases h.used p hp with hroot | ⟨pre', post', q, hsplit, hq, -⟩ | ⟨x, hx, -⟩
  · exact hroot
  · -- nothing stands behind the last node
    have hnodup := hw.nodup
    rw [List.nil_append, hsplit] at hnodup
    rcases List.eq_nil_or_concat post' with rfl | ⟨mid, r, rfl⟩
    · cases hq
    · rw [hleft, List.concat_eq_append, ← List.cons_append, ← List.append_assoc] at hsplit
      obtain ⟨-, hr⟩ := List.append_inj' hsplit rfl
      cases hr
      have hdup := (List.nodup_cons.1 (List.nodup_append.1 hnodup).2.1).1
      exact absurd (by simp) hdup
  · cases hx

theorem Spans.root_mem (h : Spans root [] w) (hw : g.Visits [] w) (hp : p ∈ w.left.toList) :
    root ∈ w.left.toList := by
  rcases List.eq_nil_or_concat w.left.toList with hnil | ⟨pre, r, hleft⟩
  · rw [hnil] at hp
    cases hp
  · rw [List.concat_eq_append] at hleft
    exact h.last hw hleft ▸ hleft ▸ List.mem_append_right _ (List.mem_cons_self ..)

/-- A root that is a part is recursive. -/
theorem Spans.recursive_root (h : Spans root [] w) (hw : g.Visits [] w) (hp : root ∈ w.kidsOf p)
    (hroot : root ∈ w.left.toList) : w.uses.recursive.getD root false = true := by
  rcases List.eq_nil_or_concat w.left.toList with hnil | ⟨pre, r, hleft⟩
  · rw [hnil] at hroot
    cases hroot
  · rw [List.concat_eq_append] at hleft
    obtain rfl := h.last hw hleft
    have hpleft := hw.mem_left_of_mem_kidsOf hp
    exact Walk.recursive_of_edge hw.nodup (fun q hq => hw.size ▸ hw.lt hq) hleft (hleft ▸ hpleft) hp

/-- What is used twice and not small is shared. -/
theorem isShared_of_two_le (hw : g.Visits [] w) (hp : p ∈ w.left.toList) (hsmall : g.isSmall w p = false)
    (hcount : 2 ≤ w.edges.countP fun e => e.2 = p) : g.isShared w w.uses p = true := by
  unfold isShared
  rw [hsmall, Walk.getD_count_uses (hw.size ▸ hw.lt hp), Bool.or_eq_true, Bool.and_eq_true, decide_eq_true_iff]
  exact .inr ⟨hcount, rfl⟩

/-- What is known of the tree of a node depends on what is known of its parts. -/
theorem sharper_treeOf (hw : g.Visits [] w) (hp : p ∈ w.left.toList) {useOf useOf' : NodeId → Expr τ}
    (hkid : ∀ k ∈ w.kidsOf p,
      (useOf k).facts.Sharper (useOf' k).facts ∨ ∃ u k, g.node p = .unary u k ∧ u.Opaque) :
    (g.treeOf p ((w.kidsOf p).map useOf)).facts.Sharper (g.treeOf p ((w.kidsOf p).map useOf')).facts := by
  obtain ⟨ks, hks⟩ := (hw.entered p).1 (List.mem_append_right _ hp)
  have hparts := forall₂_of_mapM_eq_ok (hw.kids p ks hks)
  rw [Walk.kidsOf_of_getElem? hks] at hkid ⊢
  unfold children at hparts
  unfold treeOf
  cases hnode : g.node p with
  | lazy c => exact .refl _
  | leaf l => exact .refl _
  | unary u k =>
    rw [hnode] at hparts
    cases hparts with
    | cons _ hnil =>
      cases hnil
      rcases hkid _ (List.mem_cons_self ..) with hsharper | ⟨u', k', heq, hsealed⟩
      · exact u.sharper hsharper
      · obtain ⟨rfl, -⟩ := Node.unary.inj (hnode.symm.trans heq)
        exact .of_eq (hsealed _ _)
  | binary b k l =>
    have hsharper (j : NodeId) (hj : j ∈ ks) : (useOf j).facts.Sharper (useOf' j).facts :=
      (hkid j hj).resolve_right fun ⟨_, _, heq, _⟩ => by cases hnode.symm.trans heq
    rw [hnode] at hparts
    cases hparts with
    | cons _ hparts =>
      cases hparts with
      | cons _ hnil =>
        cases hnil
        exact b.sharper (hsharper _ (List.mem_cons_self ..))
          (hsharper _ (List.mem_cons_of_mem _ (List.mem_cons_self ..)))

section Larger

variable (h : g.Binds root b w t) (hspans : Spans root [] w) (h' : g.Binds root' b' w' t')
  (hentered : w'.entered root = true)
include h hspans h' hentered

omit hspans in
theorem left_subset : w.left.toList ⊆ w'.left.toList := fun p hp =>
  mem_left_of_below h.visits h'.visits hentered (h.below p hp) hp

/-- A larger walk shares what was shared, but for a root that it uses once at most. -/
theorem isShared_of_larger (hp : p ∈ w.left.toList) (hshared : g.isShared w w.uses p = true) :
    g.isShared w' w'.uses p = true ∨ p = root ∧ w'.edges.countP (fun e => e.2 = root) ≤ 1 := by
  have hsubset := left_subset h h' hentered
  have hp' := hsubset hp
  have hcount (f : NodeId × NodeId → Bool) := countP_edges_le h.visits h'.visits hsubset f
  have hsmall := isSmall_eq_of_visits h.visits h'.visits hp hp'
  cases hrec : w.uses.recursive.getD p false with
  | false =>
    unfold isShared at hshared
    rw [hrec, Walk.getD_count_uses (h.visits.size ▸ h.visits.lt hp), Bool.false_or, Bool.and_eq_true,
      decide_eq_true_iff, Bool.not_eq_true'] at hshared
    exact .inl (isShared_of_two_le h'.visits hp' (hsmall.trans hshared.2) (Nat.le_trans hshared.1 (hcount _)))
  | true =>
    have hsmall' := hsmall.trans (hspans.not_small h.visits hp hrec)
    by_cases hroot : p = root
    · subst hroot
      by_cases htwo : 2 ≤ w'.edges.countP fun e => e.2 = p
      · exact .inl (isShared_of_two_le h'.visits hp' hsmall' htwo)
      · exact .inr ⟨rfl, by omega⟩
    · exact .inl (isShared_of_two_le h'.visits hp' hsmall'
        (Nat.le_trans (hspans.two_le_count h.visits hp hrec hroot) (hcount _)))

/-- Less is known of what stands for a node in trees of a larger walk, unless it is the root. The root may be shared no
longer if nothing is known of what it is a part of. -/
theorem sharper_useOf
    (hroot : g.isShared w' w'.uses root = true ∨ ∀ q ∈ w.left.toList, root ∈ w.kidsOf q →
      g.isShared w' w'.uses q = true ∨ ∃ u k, g.node q = .unary u k ∧ u.Opaque) :
    ∀ p ∈ w.left.toList, p ≠ root → (t.useOf p).facts.Sharper (t'.useOf p).facts := by
  have hsubset := left_subset h h' hentered
  refine h.visits.induct_unshared fun p hp hunshared hne => ?_
  have hp' := hsubset hp
  cases hshared' : g.isShared w' w'.uses p with
  | true =>
    obtain ⟨l, huse, -⟩ := h'.built.exists_call h'.visits hp' hshared'
    rw [huse]
    exact Facts.sharper_unknown _
  | false =>
    have hshared : g.isShared w w.uses p = false := by
      by_contra hshared
      rw [Bool.not_eq_false] at hshared
      rcases isShared_of_larger h hspans h' hentered hp hshared with htrue | ⟨heq, -⟩
      · rw [hshared'] at htrue
        cases htrue
      · exact hne heq
    rw [h.built.tree p hp hshared, h'.built.tree p hp' hshared', kidsOf_eq_of_visits h.visits h'.visits hp hp']
    have hkid (k : NodeId) (hk : k ∈ w.kidsOf p) :
        (t.useOf k).facts.Sharper (t'.useOf k).facts ∨ ∃ u k, g.node p = .unary u k ∧ u.Opaque := by
      rcases Walk.entered_iff.1 (h.visits.closed p hp k hk) with hsize | hks
      · rw [Trees.useOf_of_size_le (by rwa [h.built.size]),
          Trees.useOf_of_size_le (by rwa [h'.built.size, h'.visits.size, ← h.visits.size])]
        exact .inl (.refl _)
      · have hkleft := (h.visits.entered k).2 hks
        cases hkshared' : g.isShared w' w'.uses k with
        | true =>
          obtain ⟨l, huse, -⟩ := h'.built.exists_call h'.visits (hsubset hkleft) hkshared'
          rw [huse]
          exact .inl (Facts.sharper_unknown _)
        | false =>
          by_cases hkroot : k = root
          · subst hkroot
            rcases hroot with hroot | hroot
            · rw [hkshared'] at hroot
              cases hroot
            · rcases hroot p hp hk with htrue | hsealed
              · rw [hshared'] at htrue
                cases htrue
              · exact .inr hsealed
          · refine .inl (hunshared k hk hkleft ?_ hkroot)
            by_contra hkshared
            rw [Bool.not_eq_false] at hkshared
            rcases isShared_of_larger h hspans h' hentered hkleft hkshared with htrue | ⟨heq, -⟩
            · rw [hkshared'] at htrue
              cases htrue
            · exact hkroot heq
    exact sharper_treeOf h.visits hp hkid

end Larger

/-! ### Repetitions -/

section Repetitions

variable (h : g.Binds root b w t)
include h

/-- What holds of the tree of a node, and of every form over a part of which it holds, holds of the main expression or
of a subroutine. -/
theorem Binds.exists_of_treeOf {P : Expr τ → Prop} (hunary : ∀ u e, P e → P (.unary u e))
    (hleft : ∀ b e e', P e → P (.binary b e e')) (hright : ∀ b e e', P e' → P (.binary b e e'))
    (hp : p ∈ w.left.toList) (hP : P (g.treeOf p ((w.kidsOf p).map t.useOf))) :
    P b.main ∨ ∃ s ∈ b.subroutines, P s.body := by
  have htree (p : NodeId) (hp : p ∈ w.left.toList) (huse : P (t.useOf p) → P b.main ∨ ∃ s ∈ b.subroutines, P s.body)
      (hP : P (g.treeOf p ((w.kidsOf p).map t.useOf))) : P b.main ∨ ∃ s ∈ b.subroutines, P s.body := by
    cases hshared : g.isShared w w.uses p with
    | false => exact huse ((h.built.tree p hp hshared).symm ▸ hP)
    | true =>
      obtain ⟨l, -, hl⟩ := h.built.exists_call h.visits hp hshared
      have hsub := h.built.getElem?_subroutines hl
      rw [← h.subroutines] at hsub
      exact .inr ⟨_, List.mem_of_getElem? hsub, hP⟩
  have hpart {q k : NodeId} (hk : k ∈ w.kidsOf q) (hP : P (t.useOf k)) :
      P (g.treeOf q ((w.kidsOf q).map t.useOf)) := by
    have hparts := forall₂_of_mapM_eq_ok (h.visits.kids q _ (Walk.getElem?_of_mem_kidsOf hk))
    obtain ⟨ks, hks⟩ : ∃ ks, w.kidsOf q = ks := ⟨_, rfl⟩
    rw [hks] at hparts hk ⊢
    unfold children at hparts
    unfold treeOf
    cases hnode : g.node q with
    | lazy c =>
      rw [hnode] at hparts
      cases hparts
      cases hk
    | leaf l =>
      rw [hnode] at hparts
      cases hparts
      cases hk
    | unary u j =>
      rw [hnode] at hparts
      cases hparts with
      | cons _ hnil =>
        cases hnil
        obtain rfl := List.mem_singleton.1 hk
        exact hunary u _ hP
    | binary f j l =>
      rw [hnode] at hparts
      cases hparts with
      | cons _ hparts =>
        cases hparts with
        | cons _ hnil =>
          cases hnil
          rcases List.mem_cons.1 hk with rfl | hk
          · exact hleft f _ _ hP
          · obtain rfl := List.mem_singleton.1 hk
            exact hright f _ _ hP
  have huse (hbelow : w.Below root p) : P (t.useOf p) → P b.main ∨ ∃ s ∈ b.subroutines, P s.body := by
    clear hP hp
    induction hbelow with
    | refl => exact fun hP => .inl (h.main ▸ hP)
    | tail _ hk ih => exact fun hP => htree _ (h.visits.mem_left_of_mem_kidsOf hk) ih (hpart hk hP)
  exact htree p hp (huse (h.below p hp)) hP

/-- A repetition in the graph is one in the trees. -/
theorem Binds.repeats_of_many (hp : p ∈ w.left.toList) (hnode : g.node p = .unary .many q) (hk : g.resolve q = .ok k) :
    b.Repeats (t.useOf k) := by
  refine h.exists_of_treeOf (fun u e he => .inr he) (fun f e e' he => .inl he) (fun f e e' he => .inr he) hp ?_
  rw [h.visits.kidsOf_unary hp hnode hk]
  unfold treeOf
  rw [hnode]
  exact .inl ⟨rfl, rfl⟩

/-- A repetition in what stands for a node is one in its tree, where this stands for it. -/
theorem Binds.repeatedIn_of_useOf {e : Expr τ} (hp : w.entered p = true) (he : e.RepeatedIn (t.useOf p)) :
    p ∈ w.left.toList ∧ g.isShared w w.uses p = false ∧ e.RepeatedIn (g.treeOf p ((w.kidsOf p).map t.useOf)) := by
  rcases Walk.entered_iff.1 hp with hsize | hks
  · rw [Trees.useOf_of_size_le (by rwa [h.built.size])] at he
    exact he.elim
  · have hleft := (h.visits.entered p).2 hks
    cases hshared : g.isShared w w.uses p with
    | false => exact ⟨hleft, rfl, h.built.tree p hleft hshared ▸ he⟩
    | true =>
      obtain ⟨l, huse, -⟩ := h.built.exists_call h.visits hleft hshared
      rw [huse] at he
      exact he.elim

/-- A repetition in the trees is one in the graph. -/
theorem Binds.exists_of_repeats {e : Expr τ} (he : b.Repeats e) :
    ∃ p ∈ w.left.toList, ∃ q k, g.node p = .unary .many q ∧ g.resolve q = .ok k ∧ e = t.useOf k := by
  have hall : ∀ p ∈ w.left.toList, e.RepeatedIn (g.treeOf p ((w.kidsOf p).map t.useOf)) →
      ∃ p ∈ w.left.toList, ∃ q k, g.node p = .unary .many q ∧ g.resolve q = .ok k ∧ e = t.useOf k := by
    refine h.visits.induct_unshared fun p hp ih he => ?_
    have hpart (k : NodeId) (hk : k ∈ w.kidsOf p) (he : e.RepeatedIn (t.useOf k)) :
        ∃ p ∈ w.left.toList, ∃ q k, g.node p = .unary .many q ∧ g.resolve q = .ok k ∧ e = t.useOf k := by
      obtain ⟨hkleft, hshared, he⟩ := h.repeatedIn_of_useOf (h.visits.closed p hp k hk) he
      exact ih k hk hkleft hshared he
    have hparts := forall₂_of_mapM_eq_ok (h.visits.kids p _ (h.visits.getElem?_of_mem_left hp))
    obtain ⟨ks, hks⟩ : ∃ ks, w.kidsOf p = ks := ⟨_, rfl⟩
    rw [hks] at hparts hpart he
    unfold children at hparts
    unfold treeOf at he
    cases hnode : g.node p with
    | lazy c =>
      rw [hnode] at he
      exact he.elim
    | leaf l =>
      rw [hnode] at he
      exact he.elim
    | unary u q =>
      rw [hnode] at hparts he
      cases hparts with
      | cons hk hnil =>
        cases hnil
        rcases he with ⟨rfl, rfl⟩ | he
        · exact ⟨p, hp, q, _, hnode, hk, rfl⟩
        · exact hpart _ (List.mem_cons_self ..) he
    | binary f q q' =>
      rw [hnode] at hparts he
      cases hparts with
      | cons _ hparts =>
        cases hparts with
        | cons _ hnil =>
          cases hnil
          rcases he with he | he
          · exact hpart _ (List.mem_cons_self ..) he
          · exact hpart _ (List.mem_cons_of_mem _ (List.mem_cons_self ..)) he
  rcases he with he | ⟨s, hs, he⟩
  · rw [h.main] at he
    obtain ⟨hroot, -, he⟩ := h.repeatedIn_of_useOf h.entered he
    exact hall root hroot he
  · rw [h.subroutines, h.built.subroutines] at hs
    obtain ⟨p, hp, rfl⟩ := List.mem_map.1 hs
    exact hall p (List.mem_of_mem_filter hp) he

omit h in
/-- A repetition of a parser that is known to succeed in place is one of such a parser in trees of a smaller walk, if
of the node from which the larger walk has come to the root of the smaller one nothing is known. -/
theorem Binds.isIdle_of_larger (h : g.Binds root b w t) (hspans : Spans root [] w) (h' : g.Binds root' b' w' t')
    {around : NodeId} (haround : root ∈ w'.kidsOf around)
    (hsealed : around ∈ w.left.toList →
      g.isShared w' w'.uses around = true ∨ ∃ u k, g.node around = .unary u k ∧ u.Opaque)
    (hp : p ∈ w.left.toList) (hne : p ≠ around) (hk : k ∈ w.kidsOf p) (hidle : (t'.useOf k).facts.isIdle = true) :
    (t.useOf k).facts.isIdle = true := by
  have haroundleft := h'.visits.mem_left_of_mem_kidsOf haround
  have hentered := h'.visits.closed around haroundleft root haround
  have hsubset := left_subset h h' hentered
  have hrootleft := hspans.root_mem h.visits hp
  -- the root is used twice if it is a part of another node too
  have htwice {q : NodeId} (hq : q ∈ w.left.toList) (hroot : root ∈ w.kidsOf q) (hqne : q ≠ around) :
      g.isShared w' w'.uses root = true := by
    have hsmall : g.isSmall w' root = false := by
      rw [isSmall_eq_of_visits h.visits h'.visits hrootleft (hsubset hrootleft)]
      exact hspans.not_small h.visits hrootleft (hspans.recursive_root h.visits hroot hrootleft)
    refine isShared_of_two_le h'.visits (hsubset hrootleft) hsmall ?_
    refine Walk.two_le_countP_edges hqne (Walk.mem_edges.2 ⟨hsubset hq, ?_⟩) (Walk.mem_edges.2 ⟨haroundleft, haround⟩)
    rwa [kidsOf_eq_of_visits h.visits h'.visits hq (hsubset hq)]
  rcases Walk.entered_iff.1 (h.visits.closed p hp k hk) with hsize | hks
  · rw [Trees.useOf_of_size_le (by rwa [h'.built.size, h'.visits.size, ← h.visits.size])] at hidle
    cases hidle
  have hkleft := (h.visits.entered k).2 hks
  have hunshared : g.isShared w' w'.uses k = false := by
    by_contra hshared
    rw [Bool.not_eq_false] at hshared
    obtain ⟨l, huse, -⟩ := h'.built.exists_call h'.visits (hsubset hkleft) hshared
    rw [huse] at hidle
    cases hidle
  have hkroot : k ≠ root := by
    rintro rfl
    rw [htwice hp hk hne] at hunshared
    cases hunshared
  refine (sharper_useOf h hspans h' hentered ?_ k hkleft hkroot).isIdle hidle
  by_cases hshared : g.isShared w' w'.uses root = true
  · exact .inl hshared
  · refine .inr fun q hq hroot => ?_
    obtain rfl : q = around := by
      by_contra hqne
      exact hshared (htwice hq hroot hqne)
    exact hsealed hq

end Repetitions

end Grammar

end ParserMachine

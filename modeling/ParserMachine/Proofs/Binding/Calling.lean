import Mathlib.Logic.Relation
import ParserMachine.Proofs.Binding.Unfolding
import ParserMachine.Proofs.Compiling.Calls

/-!
# Calls of bound trees

Every call goes to a subroutine and says rightly whether it is recursive, and every subroutine is called: each node
that a walk leaves is the root or a part of another one (`Grammar.walk_below`), and a call stands for a shared node
wherever it is a part. With the unfoldings this is what binding does (`Grammar.bind_keeps_graph`).
-/

namespace ParserMachine

variable {τ : Type} [Token τ] {g : Grammar τ} {p q : NodeId} {w w' : Walk} {t : Trees τ}

/-- The calls of an expression: the labels, and whether the subroutines are said to be recursive. -/
def Expr.calls : Expr τ → List (Nat × Bool)
  | leaf (.call l r) => [(l, r)]
  | leaf _ => []
  | unary _ p => p.calls
  | binary _ p q => p.calls ++ q.calls

namespace Bound

/-- The calls of the main expression and of all subroutines. -/
def calls (b : Bound τ) : List (Nat × Bool) := b.main.calls ++ b.subroutines.flatMap (·.body.calls)

theorem mem_calls {b : Bound τ} {c : Nat × Bool} :
    c ∈ b.calls ↔ c ∈ b.main.calls ∨ ∃ s ∈ b.subroutines, c ∈ s.body.calls := by
  rw [calls, List.mem_append, List.mem_flatMap]

/-- The labels of the calls are the numbers of the subroutines, and calls say rightly which subroutines are
recursive. -/
structure Numbered (b : Bound τ) : Prop where
  /-- A call goes to a subroutine. -/
  target : ∀ l r, (l, r) ∈ b.calls → ∃ s, b.subroutines[l]? = some s ∧ s.recursive = r
  /-- A subroutine is called. -/
  called : ∀ l < b.subroutines.length, ∃ r, (l, r) ∈ b.calls

end Bound

/-! ### Every node that is left is a part -/

namespace Walk

/-- A node is a part, over any number of levels, of another one. -/
def Below (w : Walk) : NodeId → NodeId → Prop := Relation.ReflTransGen fun p k => k ∈ w.kidsOf p

/-- A node with parts was entered. -/
theorem getElem?_of_mem_kidsOf {k : NodeId} (hk : k ∈ w.kidsOf p) : w.kids[p]? = some (some (w.kidsOf p)) := by
  unfold kidsOf at hk ⊢
  rw [Array.getD_eq_getD_getElem?] at hk ⊢
  cases hp : w.kids[p]? with
  | none =>
    rw [hp] at hk
    cases hk
  | some ks =>
    cases ks with
    | none =>
      rw [hp] at hk
      cases hk
    | some ks => rfl

theorem Below.grows (h : w.Below p q) (hgrows : w.Grows w') : w'.Below p q := by
  refine Relation.ReflTransGen.mono (fun p k hk => ?_) _ _ h
  rw [kidsOf_of_getElem? (hgrows.kids p _ (getElem?_of_mem_kidsOf hk))]
  exact hk

end Walk

namespace Grammar

/-- What a walk from a node leaves, it had left before or finds below the node. -/
theorem walk_below {path : List NodeId} {depth : Nat} (hw : g.Visits path w)
    (hdepth : g.nodes.size < depth + path.length) (h : g.walk depth p w = .ok w') :
    ∀ q ∈ w'.left.toList, q ∈ w.left.toList ∨ w'.Below p q := by
  induction depth generalizing path p w w' with
  | zero =>
    cases h
    exact fun q hq => .inl hq
  | succ depth ih =>
    rw [walk] at h
    by_cases hp : w.entered p = true
    · rw [if_pos hp] at h
      cases h
      exact fun q hq => .inl hq
    · rw [if_neg hp] at h
      obtain ⟨ks, hks, h⟩ := bind_eq_ok_iff.1 h
      obtain ⟨w₁, hw₁, h⟩ := bind_eq_ok_iff.1 h
      cases h
      obtain ⟨hentered, -⟩ := hw.enter hp hks
      have hdepth' : g.nodes.size < depth + (p :: path).length := by
        rw [List.length_cons]
        omega
      have hfold : ∀ (js : List NodeId) (v : Walk), g.Visits (p :: path) v →
          js.foldlM (fun w k => g.walk depth k w) v = .ok w₁ →
          ∀ q ∈ w₁.left.toList, q ∈ v.left.toList ∨ ∃ k ∈ js, w₁.Below k q := by
        intro js
        induction js with
        | nil =>
          intro v _ hv q hq
          cases hv
          exact .inl hq
        | cons k js ihjs =>
          intro v hv hfold q hq
          rw [List.foldlM_cons] at hfold
          obtain ⟨v₁, hv₁, hfold⟩ := bind_eq_ok_iff.1 hfold
          obtain ⟨hvisits, -, -⟩ := walk_visits hv hdepth' hv₁
          have hgrows := (foldlM_visits (fun k w w' hw h => walk_visits hw hdepth' h) hvisits hfold).2.1
          rcases ihjs v₁ hvisits hfold q hq with hq | ⟨j, hj, hbelow⟩
          · rcases ih hv hdepth' hv₁ q hq with hq | hbelow
            · exact .inl hq
            · exact .inr ⟨k, List.mem_cons_self .., hbelow.grows hgrows⟩
          · exact .inr ⟨j, List.mem_cons_of_mem _ hj, hbelow⟩
      have hgrows := (foldlM_visits (fun k w w' hw h => walk_visits hw hdepth' h) hentered hw₁).2.1
      obtain ⟨js, hjs⟩ := (hentered.entered p).1 (List.mem_append_left _ (List.mem_cons_self ..))
      have hkids : w₁.kidsOf p = ks := by
        rw [Walk.kidsOf_of_getElem? (hgrows.kids p js hjs)]
        cases (hentered.kids p js hjs).symm.trans hks
        rfl
      intro q hq
      rcases List.mem_append.1 (Array.toList_push ▸ hq) with hq | hq
      · rcases hfold ks _ hentered hw₁ q hq with hq | ⟨k, hk, hbelow⟩
        · exact .inl hq
        · exact .inr (.head (hkids ▸ hk) hbelow)
      · obtain rfl := List.mem_singleton.1 hq
        exact .inr .refl

theorem Visits.mem_left_of_mem_kidsOf (hw : g.Visits [] w) {k : NodeId} (hk : k ∈ w.kidsOf p) :
    p ∈ w.left.toList := (hw.entered p).2 ⟨_, Walk.getElem?_of_mem_kidsOf hk⟩

/-- What a walk finds below a node, the node reaches. -/
theorem Visits.reaches_of_below (hw : g.Visits [] w) (h : w.Below p q) : g.Reaches p q := by
  induction h with
  | refl => exact .refl
  | tail _ hk ih =>
    have hresolve := forall₂_of_mapM_eq_ok (hw.kids _ _ (Walk.getElem?_of_mem_kidsOf hk))
    obtain ⟨k', hk', hkk'⟩ := exists_of_mem_forall₂ hresolve hk
    exact (ih.part hk').trans (resolve_eq_ok_iff.1 hkk').reaches

/-- What binding has built when it succeeds, for the root behind references. -/
structure Binds (g : Grammar τ) (root : NodeId) (b : Bound τ) (w : Walk) (t : Trees τ) : Prop where
  /-- The walk has gone over all that the root reaches. -/
  visits : g.Visits [] w
  /-- It has come to the root. -/
  entered : w.entered root = true
  /-- It has left nothing else than what is below the root. -/
  below : ∀ p ∈ w.left.toList, w.Below root p
  /-- All trees are built. -/
  built : Trees.Built g w w.left.toList t
  /-- The main expression stands for the root. -/
  main : b.main = t.useOf root
  /-- The subroutines are those of the trees. -/
  subroutines : b.subroutines = t.subroutines.reverse

theorem exists_binds {root : NodeId} {b : Bound τ} (hbind : g.bind root = .ok b) :
    ∃ root' w t, g.LeadsTo root root' ∧ g.Binds root' b w t := by
  obtain ⟨root', w, hroot, hwalk, hw, hentered, rfl⟩ := exists_of_bind hbind
  have hbelow : ∀ p ∈ w.left.toList, w.Below root' p := fun p hp =>
    (walk_below visits_start (by simp) hwalk p hp).resolve_left nofun
  exact ⟨root', w, g.trees w, resolve_eq_ok_iff.1 hroot, hw, hentered, hbelow, Trees.built_trees hw, rfl, rfl⟩

/-! ### Where calls stand -/

/-- The calls of what stands for a part are calls of the tree. -/
theorem calls_subset_treeOf (hw : g.Visits [] w) (hp : p ∈ w.left.toList) {k : NodeId} (hk : k ∈ w.kidsOf p)
    (useOf : NodeId → Expr τ) : (useOf k).calls ⊆ (g.treeOf p ((w.kidsOf p).map useOf)).calls := by
  obtain ⟨ks, hks⟩ := (hw.entered p).1 (List.mem_append_right _ hp)
  have hparts := forall₂_of_mapM_eq_ok (hw.kids p ks hks)
  rw [Walk.kidsOf_of_getElem? hks] at hk ⊢
  unfold children at hparts
  unfold treeOf
  cases hnode : g.node p with
  | lazy c =>
    rw [hnode] at hparts
    cases hparts
    cases hk
  | leaf l =>
    rw [hnode] at hparts
    cases hparts
    cases hk
  | unary u k =>
    rw [hnode] at hparts
    cases hparts with
    | cons _ hnil =>
      cases hnil
      obtain rfl := List.mem_singleton.1 hk
      exact List.Subset.refl _
  | binary b k l =>
    rw [hnode] at hparts
    cases hparts with
    | cons _ hparts =>
      cases hparts with
      | cons _ hnil =>
        cases hnil
        rcases List.mem_cons.1 hk with rfl | hk
        · exact List.subset_append_left _ _
        · obtain rfl := List.mem_singleton.1 hk
          exact List.subset_append_right _ _

section Binds

variable {root : NodeId} {b : Bound τ} (h : g.Binds root b w t)
include h

/-- The calls of the tree of each node that is left occur among all calls, and so does what stands for it. -/
theorem Binds.calls_subset (hp : p ∈ w.left.toList) :
    (t.useOf p).calls ⊆ b.calls ∧ (g.treeOf p ((w.kidsOf p).map t.useOf)).calls ⊆ b.calls := by
  have htree : ∀ q ∈ w.left.toList, (t.useOf q).calls ⊆ b.calls →
      (g.treeOf q ((w.kidsOf q).map t.useOf)).calls ⊆ b.calls := by
    intro q hq huse c hc
    cases hshared : g.isShared w w.uses q with
    | false =>
      rw [← h.built.tree q hq hshared] at hc
      exact huse hc
    | true =>
      obtain ⟨l, -, hl⟩ := h.built.exists_call h.visits hq hshared
      have hsub := h.built.getElem?_subroutines hl
      rw [← h.subroutines] at hsub
      exact Bound.mem_calls.2 (.inr ⟨_, List.mem_of_getElem? hsub, hc⟩)
  have hbelow := h.below p hp
  induction hbelow with
  | refl =>
    have huse : (t.useOf root).calls ⊆ b.calls := fun c hc => Bound.mem_calls.2 (.inl (h.main ▸ hc))
    exact ⟨huse, htree root hp huse⟩
  | @tail q k _ hk ih =>
    have hq := h.visits.mem_left_of_mem_kidsOf hk
    have huse : (t.useOf k).calls ⊆ b.calls := fun c hc =>
      (ih hq).2 (calls_subset_treeOf h.visits hq hk t.useOf hc)
    exact ⟨huse, htree k hp huse⟩

/-- A call goes to a subroutine and says rightly whether it is recursive. -/
theorem Binds.target (hcalls : ∀ p l r, g.Reaches root p → g.node p ≠ .leaf (.call l r)) {l : Nat} {r : Bool}
    (hc : (l, r) ∈ b.calls) : ∃ s, b.subroutines[l]? = some s ∧ s.recursive = r := by
  have hinductive : g.Inductive
      (fun l r p => (w.left.toList.filter (g.isShared w w.uses))[l]? = some p ∧ w.uses.recursive.getD p false = r)
      fun p e => g.Reaches root p → ∀ c ∈ e.calls, ∃ s, b.subroutines[c.1]? = some s ∧ s.recursive = c.2 := by
    refine ⟨fun _ _ => nofun, fun p l hl hp => ?_, fun p l r hl _ c hc => ?_, fun p u k k' e hnode hk he hp => ?_,
      fun p f k l k' l' e e' hnode hk hl he he' hp c hc => ?_⟩
    · cases l with
      | call l r => exact absurd hl (hcalls p l r hp)
      | _ => nofun
    · obtain rfl := List.mem_singleton.1 hc
      exact ⟨_, h.subroutines ▸ h.built.getElem?_subroutines hl.1, hl.2⟩
    · refine he ((hp.part ?_).trans (resolve_eq_ok_iff.1 hk).reaches)
      rw [children, hnode]
      exact List.mem_cons_self ..
    · rcases List.mem_append.1 hc with hc | hc
      · refine he ((hp.part ?_).trans (resolve_eq_ok_iff.1 hk).reaches) c hc
        rw [children, hnode]
        exact List.mem_cons_self ..
      · refine he' ((hp.part ?_).trans (resolve_eq_ok_iff.1 hl).reaches) c hc
        rw [children, hnode]
        exact List.mem_cons_of_mem _ (List.mem_cons_self ..)
  have hall := h.built.induct_left h.visits hinductive (List.append_nil _).symm
  rcases Bound.mem_calls.1 hc with hc | ⟨s, hs, hc⟩
  · rcases Walk.entered_iff.1 h.entered with hsize | hks
    · rw [h.main, Trees.useOf_of_size_le (by rwa [h.built.size])] at hc
      cases hc
    · exact (hall root ((h.visits.entered root).2 hks)).1 .refl _ (h.main ▸ hc)
  · rw [h.subroutines, h.built.subroutines] at hs
    obtain ⟨p, hp, rfl⟩ := List.mem_map.1 hs
    have hleft := List.mem_of_mem_filter hp
    exact (hall p hleft).2 (h.visits.reaches_of_below (h.below p hleft)) _ hc

/-- A subroutine is called. -/
theorem Binds.called {l : Nat} (hl : l < b.subroutines.length) : ∃ r, (l, r) ∈ b.calls := by
  rw [h.subroutines, h.built.subroutines, List.length_map] at hl
  obtain ⟨hleft, hshared⟩ := List.mem_filter.1 (List.getElem_mem hl)
  obtain ⟨l', huse, hl'⟩ := h.built.exists_call h.visits hleft hshared
  obtain rfl : l = l' := by
    refine (List.getElem?_inj hl (h.visits.nodup.filter _)).1 ?_
    rw [hl', List.getElem?_eq_getElem hl]
  have hcalls := (h.calls_subset hleft).1
  rw [huse] at hcalls
  exact ⟨_, hcalls (List.mem_cons_self ..)⟩

end Binds

/-- Binding keeps the grammar. It succeeds just if every reference that the root reaches leads to a parser,
and says otherwise that a reference is undefined or that references are cyclic. Trees have no references;
the labels of their calls are the numbers of the subroutines, each call says whether its subroutine is
recursive, and at every depth the main expression unfolds to one shape, which is that of the root. -/
theorem bind_keeps_graph (g : Grammar τ) (root : NodeId)
    (hcalls : ∀ p l r, g.Reaches root p → g.node p ≠ .leaf (.call l r)) :
    ((∃ b, g.bind root = .ok b) ↔ ∀ p c, g.Reaches root p → g.node p = .lazy c → ∃ q, g.LeadsTo p q) ∧
    (∀ e, g.bind root = .error e → e = .undefinedReference ∨ e = .cyclicReference) ∧
    ∀ b, g.bind root = .ok b → b.Numbered ∧
      ∀ d, ∃ s, (∀ s', g.Unfolds d root s' ↔ s' = s) ∧ ∀ s', b.Unfolds d b.main s' ↔ s' = s := by
  refine ⟨exists_bind_iff, fun e => bind_error, fun b hbind => ?_⟩
  obtain ⟨root', w, t, hroot, h⟩ := exists_binds hbind
  replace hcalls : ∀ p l r, g.Reaches root' p → g.node p ≠ .leaf (.call l r) :=
    fun p l r hp => hcalls p l r (hroot.reaches.trans hp)
  refine ⟨⟨fun l r => h.target hcalls, fun l => h.called⟩, fun d => ?_⟩
  obtain ⟨s, hs⟩ := (exists_bind_iff.1 ⟨b, hbind⟩).exists_unfolds d
  have hlazy : ∀ c, g.node root' ≠ .lazy c := by
    obtain ⟨n, hroot⟩ := hroot
    exact hroot.not_lazy
  have hmain : b.Unfolds d b.main s := by
    rw [h.main]
    exact h.built.unfolds h.visits hcalls h.subroutines hlazy h.entered .refl (hroot.unfolds_iff.1 hs)
  refine ⟨s, fun s' => ⟨fun hs' => hs'.unique hs, fun hs' => hs' ▸ hs⟩, fun s' => ⟨fun hs' => ?_, fun hs' => ?_⟩⟩
  · exact hs'.unique hmain
  · exact hs' ▸ hmain

/-- Any number of `x` up to the end of the input, by a parser that refers to itself. -/
def untilEnd : Grammar Char where
  nodes := #[.lazy 0, .leaf (.single 'x' (ExpectedSet.tokens ['x'])), .binary (.seq .right) 1 0, .leaf .eof,
    .binary .alt 2 3]
  cells := #[.defined 4]

theorem bind_keeps_graph_untilEnd :
    (∀ p l r, untilEnd.Reaches 0 p → untilEnd.node p ≠ .leaf (.call l r)) ∧
      ∃ b, untilEnd.bind 0 = .ok b ∧ b.Numbered ∧ b.subroutines.length = 1 ∧
        ∀ d, ∃ s, (∀ s', untilEnd.Unfolds d 0 s' ↔ s' = s) ∧ ∀ s', b.Unfolds d b.main s' ↔ s' = s := by
  have hfree : untilEnd.CallFree := callFree_of_forall fun n hn l r => by
    simp only [untilEnd, List.mem_toArray, List.mem_cons, List.not_mem_nil, or_false] at hn
    rcases hn with rfl | rfl | rfl | rfl | rfl <;> nofun
  have hcalls (p : NodeId) (l : Nat) (r : Bool) (_ : untilEnd.Reaches 0 p) :
      untilEnd.node p ≠ .leaf (.call l r) := hfree p l r
  have hok : ((untilEnd.bind 0).toOption.map (·.subroutines.length)) = some 1 := by decide +kernel
  cases hbind : untilEnd.bind 0 with
  | error e =>
    rw [hbind] at hok
    cases hok
  | ok b =>
    rw [hbind] at hok
    obtain ⟨hnumbered, hunfolds⟩ := (bind_keeps_graph untilEnd 0 hcalls).2.2 b hbind
    exact ⟨hcalls, b, rfl, hnumbered, Option.some.inj hok, hunfolds⟩

end Grammar

end ParserMachine

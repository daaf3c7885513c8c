import Mathlib.Data.List.Perm.Subperm
import ParserMachine.Proofs.Binding.Around

/-!
# The tree of a walk

Each node but the root was entered from one that was left later, and an edge goes back only to a node that the walk
was still below (`Grammar.Spans`). So a node that is known to be recursive is not small, and it is used twice unless it
is the root (`Grammar.Spans.two_le_count`).
-/

namespace ParserMachine

variable {τ : Type} [Token τ] {g : Grammar τ} {path : List NodeId} {w w' : Walk} {p q k root : NodeId}

/-! ### Nodes on the way -/

/-- The node is a part of one that was left later. -/
def Walk.UsedLater (w : Walk) (p : NodeId) : Prop :=
  ∃ pre post q, w.left.toList = pre ++ p :: post ∧ q ∈ post ∧ p ∈ w.kidsOf q

namespace Grammar

/-- How nodes hang together that a walk has left which is at the end of `path`. -/
structure Spans (root : NodeId) (path : List NodeId) (w : Walk) : Prop where
  /-- A node is the root, or it is a part of one that was left later or will be. -/
  used : ∀ q ∈ w.left.toList, q = root ∨ w.UsedLater q ∨ ∃ x ∈ path, q ∈ w.kidsOf x
  /-- A part was left before, or the node is below it. -/
  back : ∀ pre q post, w.left.toList = pre ++ q :: post →
    ∀ k ∈ w.kidsOf q, k ∈ pre ∨ w.kids.size ≤ k ∨ w.Below k q

theorem kidsOf_of_grows (h : w.Grows w') (hk : k ∈ w.kidsOf p) : k ∈ w'.kidsOf p := by
  rw [Walk.kidsOf_of_getElem? (h.kids p _ (Walk.getElem?_of_mem_kidsOf hk))]
  exact hk

/-- A node is entered. -/
theorem Spans.enter (h : Spans root path w) (hw : g.Visits path w) (hgrows : w.Grows w')
    (hleft : w'.left = w.left) : Spans root (p :: path) w' := by
  have hkids : ∀ q ∈ w.left.toList, w'.kidsOf q = w.kidsOf q := fun q hq => by
    obtain ⟨ks, hks⟩ := (hw.entered q).1 (List.mem_append_right _ hq)
    rw [Walk.kidsOf_of_getElem? hks, Walk.kidsOf_of_getElem? (hgrows.kids q ks hks)]
  refine ⟨fun q hq => ?_, fun pre q post hsplit k hk => ?_⟩
  · rw [hleft] at hq
    rcases h.used q hq with hroot | ⟨pre, post, r, hsplit, hr, hqr⟩ | ⟨x, hx, hqx⟩
    · exact .inl hroot
    · exact .inr (.inl ⟨pre, post, r, hleft ▸ hsplit, hr, kidsOf_of_grows hgrows hqr⟩)
    · exact .inr (.inr ⟨x, List.mem_cons_of_mem _ hx, kidsOf_of_grows hgrows hqx⟩)
  · rw [hleft] at hsplit
    have hq : q ∈ w.left.toList := hsplit ▸ List.mem_append_right _ (List.mem_cons_self ..)
    rw [hkids q hq] at hk
    rw [hgrows.size]
    exact (h.back pre q post hsplit k hk).imp_right (.imp_right (·.grows hgrows))

/-- A node is left after its parts. -/
theorem Spans.leave (h : Spans root (p :: path) w) (hw : g.Visits (p :: path) w)
    (hp : p = root ∨ ∃ x ∈ path, p ∈ w.kidsOf x) (habove : ∀ x ∈ p :: path, w.Below x p)
    (hkids : ∀ k ∈ w.kidsOf p, w.entered k = true) : Spans root path { w with left := w.left.push p } := by
  refine ⟨fun q hq => ?_, fun pre q post hsplit k hk => ?_⟩
  · have hmem : q ∈ w.left.toList ++ [p] := Array.toList_push ▸ hq
    have hpush (pre post : List NodeId) (hsplit : w.left.toList = pre ++ q :: post) :
        (w.left.push p).toList = pre ++ q :: (post ++ [p]) := by
      rw [Array.toList_push, hsplit, List.append_assoc]
      rfl
    rcases List.mem_append.1 hmem with hleft | hlast
    · rcases h.used q hleft with hroot | ⟨pre, post, r, hsplit, hr, hqr⟩ | ⟨x, hx, hqx⟩
      · exact .inl hroot
      · exact .inr (.inl ⟨pre, post ++ [p], r, hpush pre post hsplit, List.mem_append_left _ hr, hqr⟩)
      · rcases List.mem_cons.1 hx with rfl | hx
        · obtain ⟨pre, post, hsplit⟩ := List.append_of_mem hleft
          exact .inr (.inl ⟨pre, post ++ [x], x, hpush pre post hsplit,
            List.mem_append_right _ (List.mem_cons_self ..), hqx⟩)
        · exact .inr (.inr ⟨x, hx, hqx⟩)
    · obtain rfl := List.mem_singleton.1 hlast
      exact hp.imp_right .inr
  · have hsplit' : w.left.toList ++ [p] = pre ++ q :: post := Array.toList_push ▸ hsplit
    rcases List.eq_nil_or_concat post with rfl | ⟨mid, r, rfl⟩
    · obtain ⟨rfl, hq⟩ := List.append_inj' hsplit' rfl
      cases hq
      rcases Walk.entered_iff.1 (hkids k hk) with hsize | hks
      · exact .inr (.inl hsize)
      · rcases List.mem_append.1 ((hw.entered k).2 hks) with hk | hk
        · exact .inr (.inr (habove k hk))
        · exact .inl hk
    · rw [List.concat_eq_append, ← List.cons_append, ← List.append_assoc] at hsplit'
      exact h.back pre q mid (List.append_inj' hsplit' rfl).1 k hk

/-- Nodes hang together wherever a walk has come to. -/
theorem walk_spans {depth : Nat} (hw : g.Visits path w) (hdepth : g.nodes.size < depth + path.length)
    (hspans : Spans root path w) (hp : p = root ∨ ∃ x ∈ path, p ∈ w.kidsOf x) (habove : ∀ x ∈ path, w.Below x p)
    (h : g.walk depth p w = .ok w') : Spans root path w' := by
  induction depth generalizing path p w w' with
  | zero =>
    cases h
    exact hspans
  | succ depth ih =>
    rw [walk] at h
    by_cases hentered : w.entered p = true
    · rw [if_pos hentered] at h
      cases h
      exact hspans
    rw [if_neg hentered] at h
    obtain ⟨ks, hks, h⟩ := bind_eq_ok_iff.1 h
    obtain ⟨w₁, hw₁, h⟩ := bind_eq_ok_iff.1 h
    cases h
    obtain ⟨hvisits, hgrows⟩ := hw.enter hentered hks
    have hdepth' : g.nodes.size < depth + (p :: path).length := by
      rw [List.length_cons]
      omega
    have hstep : ∀ k w w', g.Visits (p :: path) w → g.walk depth k w = .ok w' →
        g.Visits (p :: path) w' ∧ w.Grows w' ∧ w'.entered k = true := fun k w w' hw h => walk_visits hw hdepth' h
    have hfold : ∀ (js : List NodeId) (v : Walk), g.Visits (p :: path) v → Spans root (p :: path) v →
        (∀ j ∈ js, j ∈ v.kidsOf p) → (∀ x ∈ path, v.Below x p) →
        js.foldlM (fun w k => g.walk depth k w) v = .ok w₁ → Spans root (p :: path) w₁ := by
      intro js
      induction js with
      | nil =>
        intro v _ hspans _ _ hv
        cases hv
        exact hspans
      | cons k js ihjs =>
        intro v hv hspans hjs habove hfold
        rw [List.foldlM_cons] at hfold
        obtain ⟨v₁, hv₁, hfold⟩ := bind_eq_ok_iff.1 hfold
        rw [List.forall_mem_cons] at hjs
        obtain ⟨hvisits, hgrows, -⟩ := walk_visits hv hdepth' hv₁
        refine ihjs v₁ hvisits (ih hv hdepth' hspans (.inr ⟨p, List.mem_cons_self .., hjs.1⟩) ?_ hv₁)
          (fun j hj => kidsOf_of_grows hgrows (hjs.2 j hj)) (fun x hx => (habove x hx).grows hgrows) hfold
        rw [List.forall_mem_cons]
        exact ⟨.single hjs.1, fun x hx => (habove x hx).tail hjs.1⟩
    have hkids : Walk.kidsOf { w with kids := w.kids.setIfInBounds p (some ks) } p = ks := by
      obtain ⟨js, hjs⟩ := (hvisits.entered p).1 (List.mem_append_left _ (List.mem_cons_self ..))
      rw [Walk.kidsOf_of_getElem? hjs]
      exact Except.ok.inj ((hvisits.kids p js hjs).symm.trans hks)
    have hspans₁ := hfold ks _ hvisits (hspans.enter hw hgrows rfl) (fun j hj => hkids.symm ▸ hj)
      (fun x hx => (habove x hx).grows hgrows) hw₁
    obtain ⟨hvisits₁, hgrows₁, hks₁⟩ := foldlM_visits hstep hvisits hw₁
    have hkids₁ : w₁.kidsOf p = ks := by
      obtain ⟨js, hjs⟩ := (hvisits.entered p).1 (List.mem_append_left _ (List.mem_cons_self ..))
      rw [Walk.kidsOf_of_getElem? (hgrows₁.kids p js hjs)]
      exact (Walk.kidsOf_of_getElem? hjs).symm.trans hkids
    refine hspans₁.leave hvisits₁ ?_ ?_ fun k hk => hks₁ k (hkids₁ ▸ hk)
    · refine hp.imp_right ?_
      rintro ⟨x, hx, hpx⟩
      exact ⟨x, hx, kidsOf_of_grows hgrows₁ (kidsOf_of_grows hgrows hpx)⟩
    · rw [List.forall_mem_cons]
      exact ⟨.refl, fun x hx => ((habove x hx).grows hgrows).grows hgrows₁⟩

end Grammar

/-! ### Edges -/

namespace Walk

variable {position : Array Nat} {u : Uses} {es : List (NodeId × NodeId)}

theorem count_foldl (es : List (NodeId × NodeId)) : (es.foldl (Uses.addEdge position) u).count[p]? =
    u.count[p]?.map (· + es.countP fun e => e.2 = p) := by
  induction es generalizing u with
  | nil => simp
  | cons e es ih =>
    refine (ih (u := u.addEdge position e)).trans ?_
    show (u.count.modify e.2 (· + 1))[p]?.map _ = _
    rw [Array.getElem?_modify, List.countP_cons]
    by_cases he : e.2 = p
    · rw [if_pos he, if_pos (decide_eq_true he), Option.map_map]
      exact congrArg (Option.map · _) (funext fun n => by simp only [Function.comp]; omega)
    · rw [if_neg he, if_neg (by simpa using he), Nat.add_zero]

/-- A node is used as often as edges lead to it. -/
theorem getD_count_uses (hp : p < w.kids.size) : w.uses.count.getD p 0 = w.edges.countP fun e => e.2 = p := by
  rw [Array.getD_eq_getD_getElem?, uses_eq, count_foldl, Array.getElem?_replicate, if_pos hp]
  simp

/-- Two edges lead to a node that is a part of two nodes. -/
theorem two_le_countP_edges {r : NodeId} (hqr : q ≠ r) (hq : (q, p) ∈ w.edges) (hr : (r, p) ∈ w.edges) :
    2 ≤ w.edges.countP fun e => e.2 = p := by
  rw [List.countP_eq_length_filter]
  have hnodup : [(q, p), (r, p)].Nodup := by simpa using hqr
  refine (List.subperm_of_subset hnodup fun e he => List.mem_filter.2 ?_).length_le
  rcases List.mem_cons.1 he with rfl | he
  · exact ⟨hq, by simp⟩
  · obtain rfl := List.mem_singleton.1 he
    exact ⟨hr, by simp⟩

theorem exists_of_recursive_foldl (h : (es.foldl (Uses.addEdge position) u).recursive[p]? = some true) :
    u.recursive[p]? = some true ∨ ∃ e ∈ es, e.2 = p ∧ position.getD e.1 0 ≤ position.getD p 0 := by
  induction es generalizing u with
  | nil => exact .inl h
  | cons e es ih =>
    rcases ih (u := u.addEdge position e) h with h | ⟨e', he', h⟩
    · unfold Uses.addEdge at h
      dsimp only at h
      split at h
      · rename_i hle
        rw [Array.getElem?_setIfInBounds] at h
        split at h
        · rename_i hep
          exact .inr ⟨e, List.mem_cons_self .., hep, hep ▸ hle⟩
        · exact .inl h
      · exact .inl h
    · exact .inr ⟨e', List.mem_cons_of_mem _ he', h⟩

/-- A recursive node is a part of one that was left no later. -/
theorem exists_edge_of_recursive (h : w.uses.recursive.getD p false = true) :
    ∃ q, (q, p) ∈ w.edges ∧ w.positions.getD q 0 ≤ w.positions.getD p 0 := by
  have hrec : w.uses.recursive[p]? = some true := by
    rw [Array.getD_eq_getD_getElem?] at h
    cases hget : w.uses.recursive[p]? with
    | none =>
      rw [hget] at h
      cases h
    | some r =>
      rw [hget] at h
      exact congrArg some h
  rw [uses_eq] at hrec
  rcases exists_of_recursive_foldl hrec with h | ⟨⟨q, k⟩, he, rfl, hle⟩
  · rw [Array.getElem?_replicate] at h
    split at h <;> cases h
  · exact ⟨q, he, hle⟩

end Walk

namespace Grammar

section Spans

variable (h : Spans root [] w) (hw : g.Visits [] w) (hp : p ∈ w.left.toList)
  (hrec : w.uses.recursive.getD p false = true)
include h hw hp hrec

/-- A recursive node is a part of one that is below it. -/
theorem Spans.exists_below : ∃ q, p ∈ w.kidsOf q ∧ w.Below p q ∧ q ∈ w.left.toList ∧
    w.positions.getD q 0 ≤ w.positions.getD p 0 := by
  have hlt : ∀ q ∈ w.left.toList, q < w.kids.size := fun q hq => hw.size ▸ hw.lt hq
  obtain ⟨q, he, hle⟩ := Walk.exists_edge_of_recursive hrec
  obtain ⟨hq, hpq⟩ := Walk.mem_edges.1 he
  refine ⟨q, hpq, ?_, hq, hle⟩
  obtain ⟨pre, post, hsplit⟩ := List.append_of_mem hq
  rcases h.back pre q post hsplit p hpq with hpre | hsize | hbelow
  · -- a node that was left before has a smaller position
    obtain ⟨pre', post', rfl⟩ := List.append_of_mem hpre
    have hsplit' : w.left.toList = pre' ++ p :: (post' ++ q :: post) := by rw [hsplit, List.append_assoc]; rfl
    rw [Walk.getD_positions hw.nodup hsplit (hlt q hq), Walk.getD_positions hw.nodup hsplit' (hlt p hp),
      List.length_append, List.length_cons] at hle
    omega
  · exact absurd (hlt p hp) (Nat.not_lt.2 hsize)
  · exact hbelow

/-- A recursive node is not small. -/
theorem Spans.not_small : g.isSmall w p = false := by
  obtain ⟨q, hpq, hbelow, -, -⟩ := h.exists_below hw hp hrec
  have hleaf (k : NodeId) (hk : (g.node k).isLeaf = true) : w.kidsOf k = [] := by
    cases hkids : w.kidsOf k with
    | nil => rfl
    | cons j js =>
      have hresolve := hw.kids k _ (Walk.getElem?_of_mem_kidsOf (hkids ▸ List.mem_cons_self ..))
      unfold children at hresolve
      cases hnode : g.node k with
      | leaf l =>
        rw [hnode, hkids] at hresolve
        cases hresolve
      | _ =>
        rw [hnode] at hk
        cases hk
  -- neither the node itself nor its parts have it as a part
  have hparts (hnode : (g.node p).isLeaf = false) :
      ((w.kidsOf p).all fun k => (g.node k).isLeaf) = false := by
    by_contra hall
    rw [Bool.not_eq_false, List.all_eq_true] at hall
    rcases Relation.ReflTransGen.cases_head hbelow with rfl | ⟨k, hk, hkq⟩
    · rw [hall _ hpq] at hnode
      cases hnode
    · have hnone := hleaf k (hall k hk)
      rcases Relation.ReflTransGen.cases_head hkq with rfl | ⟨j, hj, -⟩
      · rw [hnone] at hpq
        cases hpq
      · rw [hnone] at hj
        cases hj
  unfold isSmall
  split
  · rename_i l hl
    have hnone := hleaf p (by rw [hl]; rfl)
    rcases Relation.ReflTransGen.cases_head hbelow with rfl | ⟨k, hk, -⟩
    · rw [hnone] at hpq
      cases hpq
    · rw [hnone] at hk
      cases hk
  all_goals first
    | rfl
    | exact hparts (by simp [*, Node.isLeaf])

/-- A recursive node other than the root is used twice: it was entered from a node that was left later. -/
theorem Spans.two_le_count (hroot : p ≠ root) : 2 ≤ w.edges.countP fun e => e.2 = p := by
  have hlt : ∀ q ∈ w.left.toList, q < w.kids.size := fun q hq => hw.size ▸ hw.lt hq
  obtain ⟨q, hpq, -, hq, hle⟩ := h.exists_below hw hp hrec
  rcases h.used p hp with hp | ⟨pre, post, r, hsplit, hr, hpr⟩ | ⟨x, hx, -⟩
  · exact absurd hp hroot
  · obtain ⟨mid, post, rfl⟩ := List.append_of_mem hr
    have hsplit' : w.left.toList = (pre ++ p :: mid) ++ r :: post := by rw [hsplit, List.append_assoc]; rfl
    have hrleft : r ∈ w.left.toList := hsplit' ▸ List.mem_append_right _ (List.mem_cons_self ..)
    have hqr : q ≠ r := by
      rintro rfl
      rw [Walk.getD_positions hw.nodup hsplit' (hlt q hrleft), Walk.getD_positions hw.nodup hsplit (hlt p hp),
        List.length_append, List.length_cons] at hle
      omega
    exact Walk.two_le_countP_edges hqr (Walk.mem_edges.2 ⟨hq, hpq⟩) (Walk.mem_edges.2 ⟨hrleft, hpr⟩)
  · cases hx

end Spans

/-- What binding has built hangs together. -/
theorem exists_binds_spans {b : Bound τ} (hbind : g.bind root = .ok b) :
    ∃ root' w t, g.LeadsTo root root' ∧ g.Binds root' b w t ∧ Spans root' [] w := by
  obtain ⟨root', w, hroot, hwalk, hw, hentered, rfl⟩ := exists_of_bind hbind
  have hdepth : g.nodes.size < g.nodes.size + 1 + ([] : List NodeId).length := by simp
  have hbelow : ∀ p ∈ w.left.toList, w.Below root' p := fun p hp =>
    (walk_below visits_start hdepth hwalk p hp).resolve_left nofun
  have hstart : Spans root' [] (Walk.start g.nodes.size) := ⟨nofun, fun pre q post hsplit => by
    cases pre <;> cases hsplit⟩
  exact ⟨root', w, g.trees w, resolve_eq_ok_iff.1 hroot, ⟨hw, hentered, hbelow, Trees.built_trees hw, rfl, rfl⟩,
    walk_spans visits_start hdepth hstart (.inl rfl) nofun hwalk⟩

end Grammar

end ParserMachine

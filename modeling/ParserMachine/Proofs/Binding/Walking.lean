import Mathlib.Data.List.Perm.Subperm
import ParserMachine.Grammar.Binding
import ParserMachine.Proofs.Generation.Emission

/-!
# Depth-first walks

While a walk goes on, each node that was entered is on the path from the root or was left, and the parts
of those that were left were all entered (`Grammar.Visits`). No node is on the path twice, so that a walk
whose depth is the number of nodes is never cut off (`Grammar.walk_visits`).
-/

namespace ParserMachine

variable {τ : Type} [Token τ] {g : Grammar τ} {path : List NodeId} {w w' w'' : Walk} {p k : NodeId}

namespace Walk

/-- What was entered stays entered, with the same parts. -/
structure Grows (w w' : Walk) : Prop where
  /-- No node comes or goes. -/
  size : w'.kids.size = w.kids.size
  /-- The parts stay the same. -/
  kids : ∀ (p : Nat) ks, w.kids[p]? = some (some ks) → w'.kids[p]? = some (some ks)

theorem Grows.refl (w : Walk) : w.Grows w := ⟨rfl, fun _ _ => id⟩

theorem Grows.trans (h : w.Grows w') (h' : w'.Grows w'') : w.Grows w'' :=
  ⟨h'.size.trans h.size, fun p ks hp => h'.kids p ks (h.kids p ks hp)⟩

/-- Nodes that do not exist count as entered. -/
theorem entered_iff : w.entered p = true ↔ w.kids.size ≤ p ∨ ∃ ks, w.kids[p]? = some (some ks) := by
  unfold entered
  rw [Array.getD_eq_getD_getElem?]
  cases h : w.kids[p]? with
  | none => simpa using Array.getElem?_eq_none_iff.1 h
  | some kids =>
    have hlt : p < w.kids.size := (Array.getElem?_eq_some_iff.1 h).1
    cases kids with
    | none => simpa using hlt
    | some ks => simp

theorem Grows.entered (h : w.Grows w') (hp : w.entered p = true) : w'.entered p = true := by
  rw [entered_iff] at hp ⊢
  rw [h.size]
  exact hp.imp_right fun ⟨ks, hks⟩ => ⟨ks, h.kids p ks hks⟩

theorem kidsOf_of_getElem? {ks : List NodeId} (h : w.kids[p]? = some (some ks)) :
    w.kidsOf p = ks := by
  unfold kidsOf
  rw [Array.getD_eq_getD_getElem?, h]
  rfl

end Walk

namespace Grammar

/-- How far a walk has come that is at the end of `path`, the last node first. -/
structure Visits (g : Grammar τ) (path : List NodeId) (w : Walk) : Prop where
  /-- There is room for every node. -/
  size : w.kids.size = g.nodes.size
  /-- No node is met twice. -/
  nodup : (path ++ w.left.toList).Nodup
  /-- The nodes that were entered are on the path or were left. -/
  entered : ∀ p : Nat, p ∈ path ++ w.left.toList ↔ ∃ ks, w.kids[p]? = some (some ks)
  /-- The parts are those of the nodes, references resolved. -/
  kids : ∀ (p : Nat) ks, w.kids[p]? = some (some ks) → (g.children p).mapM g.resolve = .ok ks
  /-- The parts of nodes that were left were entered. -/
  closed : ∀ p ∈ w.left.toList, ∀ k ∈ w.kidsOf p, w.entered k = true

theorem node_of_size_le (h : g.nodes.size ≤ p) : g.node p = .leaf .empty := by
  unfold node
  rw [Array.getD_eq_getD_getElem?, Array.getElem?_eq_none h]
  rfl

theorem Visits.lt (h : g.Visits path w) (hp : p ∈ path ++ w.left.toList) : p < g.nodes.size := by
  obtain ⟨ks, hks⟩ := (h.entered p).1 hp
  rw [← h.size]
  exact (Array.getElem?_eq_some_iff.1 hks).1

/-- A path is no longer than there are nodes. -/
theorem Visits.length_le (h : g.Visits path w) : path.length ≤ g.nodes.size := by
  have hnodup : path.Nodup := h.nodup.sublist (List.sublist_append_left _ _)
  have hsubset : path ⊆ List.range g.nodes.size := fun p hp =>
    List.mem_range.2 (h.lt (List.mem_append_left _ hp))
  have hlength := (List.subperm_of_subset hnodup hsubset).length_le
  rwa [List.length_range] at hlength

theorem visits_start : g.Visits [] (Walk.start g.nodes.size) where
  size := Array.size_replicate
  nodup := List.nodup_nil
  entered := by
    intro p
    refine ⟨nofun, fun ⟨ks, hks⟩ => ?_⟩
    obtain ⟨hp, hks⟩ := Array.getElem?_eq_some_iff.1 hks
    simp [Walk.start] at hks
  kids := by
    intro p ks hks
    obtain ⟨hp, hks⟩ := Array.getElem?_eq_some_iff.1 hks
    simp [Walk.start] at hks
  closed := nofun

/-- A node is entered. -/
theorem Visits.enter {ks : List NodeId} (h : g.Visits path w) (hp : w.entered p ≠ true)
    (hks : (g.children p).mapM g.resolve = .ok ks) :
    g.Visits (p :: path) { w with kids := w.kids.setIfInBounds p (some ks) } ∧
      w.Grows { w with kids := w.kids.setIfInBounds p (some ks) } := by
  rw [ne_eq, Walk.entered_iff, not_or, Nat.not_le] at hp
  obtain ⟨hlt, hnew⟩ := hp
  have hget (q : NodeId) : (w.kids.setIfInBounds p (some ks))[q]? =
      if p = q then some (some ks) else w.kids[q]? := by
    rw [Array.getElem?_setIfInBounds]
    by_cases hpq : p = q
    · rw [if_pos hpq, if_pos hpq, if_pos hlt]
    · rw [if_neg hpq, if_neg hpq]
  have hgrows : w.Grows { w with kids := w.kids.setIfInBounds p (some ks) } := by
    refine ⟨Array.size_setIfInBounds, fun q js hq => ?_⟩
    show (w.kids.setIfInBounds p (some ks))[q]? = _
    rw [hget, if_neg]
    · exact hq
    · rintro rfl
      exact hnew ⟨js, hq⟩
  refine ⟨⟨hgrows.size.trans h.size, ?_, fun q => ?_, fun q js hq => ?_, fun q hq k hk => ?_⟩,
    hgrows⟩
  · rw [List.cons_append, List.nodup_cons]
    exact ⟨fun hmem => hnew ((h.entered p).1 hmem), h.nodup⟩
  · show q ∈ p :: path ++ w.left.toList ↔ ∃ js, (w.kids.setIfInBounds p (some ks))[q]? = _
    rw [hget, List.cons_append, List.mem_cons]
    by_cases hpq : p = q
    · rw [if_pos hpq]
      exact ⟨fun _ => ⟨ks, rfl⟩, fun _ => .inl hpq.symm⟩
    · rw [if_neg hpq, ← h.entered q, or_iff_right (Ne.symm hpq)]
  · have hq' : (w.kids.setIfInBounds p (some ks))[q]? = some (some js) := hq
    rw [hget] at hq'
    by_cases hpq : p = q
    · rw [if_pos hpq] at hq'
      cases hq'
      rw [← hpq]
      exact hks
    · rw [if_neg hpq] at hq'
      exact h.kids q js hq'
  · obtain ⟨js, hjs⟩ := (h.entered q).1 (List.mem_append_right _ hq)
    rw [Walk.kidsOf_of_getElem? (hgrows.kids q js hjs), ← Walk.kidsOf_of_getElem? hjs] at hk
    exact hgrows.entered (h.closed q hq k hk)

/-- A node is left, after all its parts were entered. -/
theorem Visits.leave (h : g.Visits (p :: path) w) (hp : ∀ k ∈ w.kidsOf p, w.entered k = true) :
    g.Visits path { w with left := w.left.push p } := by
  have hperm : (path ++ (w.left.push p).toList).Perm (p :: path ++ w.left.toList) := by
    rw [Array.toList_push, ← List.append_assoc]
    exact List.perm_append_singleton p _
  refine ⟨h.size, hperm.nodup_iff.2 h.nodup, fun q => hperm.mem_iff.trans (h.entered q), h.kids,
    fun q hq k hk => ?_⟩
  have hq' : q ∈ (w.left.push p).toList := hq
  rw [Array.toList_push, List.mem_append, List.mem_singleton] at hq'
  rcases hq' with hq' | rfl
  · exact h.closed q hq' k hk
  · exact hp k hk

/-- What holds of each step of a walk over several nodes. -/
theorem foldlM_visits {step : Walk → NodeId → Except CompileError Walk}
    (hstep : ∀ k w w', g.Visits path w → step w k = .ok w' →
      g.Visits path w' ∧ w.Grows w' ∧ w'.entered k = true) {ks : List NodeId}
    (hw : g.Visits path w) (h : ks.foldlM step w = .ok w') :
    g.Visits path w' ∧ w.Grows w' ∧ ∀ k ∈ ks, w'.entered k = true := by
  induction ks generalizing w with
  | nil =>
    cases h
    exact ⟨hw, .refl _, nofun⟩
  | cons k ks ih =>
    rw [List.foldlM_cons] at h
    obtain ⟨w₁, hw₁, h⟩ := bind_eq_ok_iff.1 h
    obtain ⟨hvisits, hgrows, hk⟩ := hstep k w w₁ hw hw₁
    obtain ⟨hvisits', hgrows', hks⟩ := ih hvisits h
    refine ⟨hvisits', hgrows.trans hgrows', fun j hj => ?_⟩
    rcases List.mem_cons.1 hj with rfl | hj
    · exact hgrows'.entered hk
    · exact hks j hj

theorem walk_visits {depth : Nat} (hw : g.Visits path w)
    (hdepth : g.nodes.size < depth + path.length) (h : g.walk depth p w = .ok w') :
    g.Visits path w' ∧ w.Grows w' ∧ w'.entered p = true := by
  induction depth generalizing path p w w' with
  | zero =>
    have := hw.length_le
    omega
  | succ depth ih =>
    rw [walk] at h
    by_cases hp : w.entered p = true
    · rw [if_pos hp] at h
      cases h
      exact ⟨hw, .refl _, hp⟩
    · rw [if_neg hp] at h
      obtain ⟨ks, hks, h⟩ := bind_eq_ok_iff.1 h
      obtain ⟨w₁, hw₁, h⟩ := bind_eq_ok_iff.1 h
      cases h
      obtain ⟨hentered, hgrows⟩ := hw.enter hp hks
      have hdepth' : g.nodes.size < depth + (p :: path).length := by
        rw [List.length_cons]
        omega
      obtain ⟨hvisits, hgrows', hkids⟩ :=
        foldlM_visits (fun k w w' hw h => ih hw hdepth' h) hentered hw₁
      obtain ⟨js, hjs⟩ := (hentered.entered p).1 (List.mem_append_left _ (List.mem_cons_self ..))
      have hjs' := hgrows'.kids p js hjs
      refine ⟨hvisits.leave fun k hk => hkids k ?_, ⟨hgrows'.size.trans hgrows.size,
        (hgrows.trans hgrows').kids⟩, hgrows'.entered (Walk.entered_iff.2 (.inr ⟨js, hjs⟩))⟩
      have hkeq : js = ks := by
        have := hentered.kids p js hjs
        rw [hks] at this
        cases this
        rfl
      rw [Walk.kidsOf_of_getElem? hjs', hkeq] at hk
      exact hk

end Grammar

end ParserMachine

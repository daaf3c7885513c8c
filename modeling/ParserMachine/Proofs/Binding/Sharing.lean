import ParserMachine.Proofs.Binding.Walking

/-!
# Shared nodes

The shared nodes have labels in the order in which they were left (`Grammar.getD_labels`). A node that
is a part of one left no later is recursive and so shared (`Grammar.isShared_of_edge`); all other parts
were left before the nodes they are parts of.
-/

namespace ParserMachine

variable {τ : Type} [Token τ] {g : Grammar τ} {w : Walk} {p q : NodeId} {pre post : List NodeId}

/-- Numbering the items of a list in an array. -/
def numbered {α : Type} (f : Nat → α) (a : Array α) (l : List (Nat × Nat)) : Array α :=
  l.foldl (fun a pi => a.setIfInBounds pi.1 (f pi.2)) a

section Numbered

variable {α : Type} {f : Nat → α} {a : Array α} {l : List Nat} {n : Nat}

theorem numbered_of_not_mem (h : p ∉ l) : (numbered f a (l.zipIdx n))[p]? = a[p]? := by
  induction l generalizing a n with
  | nil => rfl
  | cons q l ih =>
    rw [List.mem_cons, not_or] at h
    refine (ih h.2).trans ?_
    rw [Array.getElem?_setIfInBounds, if_neg (Ne.symm h.1)]

/-- Each item of a list without repetition has its own number. -/
theorem numbered_of_eq_append (hnodup : l.Nodup) (h : l = pre ++ p :: post) (hp : p < a.size) :
    (numbered f a (l.zipIdx n))[p]? = some (f (n + pre.length)) := by
  induction pre generalizing l a n with
  | nil =>
    subst h
    refine (numbered_of_not_mem (List.nodup_cons.1 hnodup).1).trans ?_
    rw [Array.getElem?_setIfInBounds, if_pos rfl, if_pos hp]
    rfl
  | cons q pre ih =>
    subst h
    rw [List.cons_append, List.nodup_cons] at hnodup
    have hnext := @ih (a.setIfInBounds q (f n)) _ (n + 1) hnodup.2 rfl
      (by rwa [Array.size_setIfInBounds])
    rw [List.length_cons, Nat.add_comm pre.length, ← Nat.add_assoc]
    exact hnext

end Numbered

/-- What an edge adds to what is known of how nodes are used. -/
def Uses.addEdge (position : Array Nat) (u : Uses) (e : NodeId × NodeId) : Uses :=
  { u with
    count := u.count.modify e.2 (· + 1)
    recursive :=
      if position.getD e.1 0 ≤ position.getD e.2 0 then u.recursive.setIfInBounds e.2 true
      else u.recursive }

namespace Walk

/-- A node has as its position how many were left before. -/
theorem getD_positions (hnodup : w.left.toList.Nodup) (h : w.left.toList = pre ++ p :: post)
    (hp : p < w.kids.size) : w.positions.getD p 0 = pre.length := by
  have hget := numbered_of_eq_append (f := id) (a := Array.replicate w.kids.size 0) (n := 0) hnodup h
    (by rwa [Array.size_replicate])
  rw [Array.getD_eq_getD_getElem?]
  show ((numbered id (Array.replicate w.kids.size 0) w.left.toList.zipIdx)[p]?).getD 0 = _
  rw [hget]
  exact Nat.zero_add _

theorem uses_eq (w : Walk) :
    w.uses = w.edges.foldl (Uses.addEdge w.positions)
      ⟨w.positions, Array.replicate w.kids.size 0, Array.replicate w.kids.size false⟩ := rfl

section Edges

variable {position : Array Nat} {u : Uses} {es : List (NodeId × NodeId)}

theorem size_recursive_addEdge (e : NodeId × NodeId) :
    (u.addEdge position e).recursive.size = u.recursive.size := by
  unfold Uses.addEdge
  dsimp only
  split
  · exact Array.size_setIfInBounds
  · rfl

/-- A node once known to be recursive stays so. -/
theorem recursive_foldl (h : u.recursive[p]? = some true) :
    (es.foldl (Uses.addEdge position) u).recursive[p]? = some true := by
  induction es generalizing u with
  | nil => exact h
  | cons e es ih =>
    refine ih ?_
    show (if position.getD e.1 0 ≤ position.getD e.2 0 then u.recursive.setIfInBounds e.2 true
      else u.recursive)[p]? = some true
    split
    · rw [Array.getElem?_setIfInBounds]
      split
      · rename_i hep
        subst hep
        rw [if_pos (Array.getElem?_eq_some_iff.1 h).1]
      · exact h
    · exact h

/-- The end of an edge from a node that is left no later is recursive. -/
theorem recursive_of_mem (he : (q, p) ∈ es) (hp : p < u.recursive.size)
    (hle : position.getD q 0 ≤ position.getD p 0) :
    (es.foldl (Uses.addEdge position) u).recursive[p]? = some true := by
  induction es generalizing u with
  | nil => cases he
  | cons e es ih =>
    rcases List.mem_cons.1 he with rfl | he
    · refine recursive_foldl (u := u.addEdge position (q, p)) ?_
      show (if position.getD q 0 ≤ position.getD p 0 then u.recursive.setIfInBounds p true
        else u.recursive)[p]? = some true
      rw [if_pos hle, Array.getElem?_setIfInBounds, if_pos rfl, if_pos hp]
    · exact ih he (by rwa [size_recursive_addEdge])

end Edges

/-- A part of a node that is left no later is recursive. -/
theorem recursive_of_edge (hnodup : w.left.toList.Nodup) (hlt : ∀ p ∈ w.left.toList, p < w.kids.size)
    (h : w.left.toList = pre ++ p :: post) (hq : q ∈ pre ++ [p]) (hpq : p ∈ w.kidsOf q) :
    w.uses.recursive.getD p false = true := by
  have hp : p ∈ w.left.toList := by
    rw [h]
    exact List.mem_append_right _ (List.mem_cons_self ..)
  have hsplit : w.left.toList = pre ++ [p] ++ post := by
    rw [h, List.append_assoc]
    rfl
  have hq' : q ∈ w.left.toList := by
    rw [hsplit]
    exact List.mem_append_left _ hq
  have hedge : (q, p) ∈ w.edges :=
    List.mem_flatMap.2 ⟨q, hq', List.mem_map.2 ⟨p, hpq, rfl⟩⟩
  have hle : w.positions.getD q 0 ≤ w.positions.getD p 0 := by
    obtain ⟨pre', post', hpre⟩ := List.append_of_mem hq
    rw [hpre, List.append_assoc] at hsplit
    rw [getD_positions hnodup h (hlt p hp), getD_positions hnodup hsplit (hlt q hq')]
    have hlength := congrArg List.length hpre
    simp only [List.length_append, List.length_cons, List.length_nil] at hlength
    omega
  rw [Array.getD_eq_getD_getElem?, uses_eq,
    recursive_of_mem hedge (by rw [Array.size_replicate]; exact hlt p hp) hle]
  rfl

end Walk

namespace Grammar

/-- A part of a node that is left no later is shared. -/
theorem isShared_of_edge (hnodup : w.left.toList.Nodup)
    (hlt : ∀ p ∈ w.left.toList, p < w.kids.size) (h : w.left.toList = pre ++ p :: post)
    (hq : q ∈ pre ++ [p]) (hpq : p ∈ w.kidsOf q) : g.isShared w w.uses p = true := by
  unfold isShared
  rw [Walk.recursive_of_edge hnodup hlt h hq hpq]
  rfl

/-- Nodes that are not shared have no label. -/
theorem getD_labels_of_not_mem (u : Uses) (h : p ∉ w.left.toList.filter (g.isShared w u)) :
    (g.labels w u).getD p none = none := by
  have hget := numbered_of_not_mem (f := some) (a := Array.replicate w.kids.size none) (n := 0) h
  rw [Array.getD_eq_getD_getElem?]
  show ((numbered some (Array.replicate w.kids.size none) _)[p]?).getD none = none
  rw [hget, Array.getElem?_replicate]
  split <;> rfl

/-- A shared node has as its label how many such nodes were left before. -/
theorem getD_labels (u : Uses) (hnodup : w.left.toList.Nodup)
    (hlt : ∀ p ∈ w.left.toList, p < w.kids.size)
    (h : w.left.toList.filter (g.isShared w u) = pre ++ p :: post) :
    (g.labels w u).getD p none = some pre.length := by
  have hp : p ∈ w.left.toList.filter (g.isShared w u) := by
    rw [h]
    exact List.mem_append_right _ (List.mem_cons_self ..)
  have hget := numbered_of_eq_append (f := some) (a := Array.replicate w.kids.size none) (n := 0)
    (hnodup.filter _) h (by rw [Array.size_replicate]; exact hlt p (List.mem_of_mem_filter hp))
  rw [Array.getD_eq_getD_getElem?]
  show ((numbered some (Array.replicate w.kids.size none) _)[p]?).getD none = _
  rw [hget, Nat.zero_add]
  rfl

theorem isSome_labels (u : Uses) (hnodup : w.left.toList.Nodup)
    (hlt : ∀ p ∈ w.left.toList, p < w.kids.size) (hp : p ∈ w.left.toList) :
    ((g.labels w u).getD p none).isSome = g.isShared w u p := by
  by_cases hshared : g.isShared w u p = true
  · obtain ⟨pre, post, hfilter⟩ := List.append_of_mem (List.mem_filter.2 ⟨hp, hshared⟩)
    rw [getD_labels u hnodup hlt hfilter, hshared]
    rfl
  · rw [getD_labels_of_not_mem u fun hmem => hshared (List.mem_filter.1 hmem).2]
    exact (Bool.eq_false_iff.2 hshared).symm

end Grammar

end ParserMachine

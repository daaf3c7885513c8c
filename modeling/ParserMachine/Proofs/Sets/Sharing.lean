import ParserMachine.Proofs.Reports.Combining
import ParserMachine.Proofs.Sets.Pools

/-!
# Sharing lists does not show

Whatever is done with the sets of a pool, they are the sets that come about if every set is kept for itself
(`SetPool.exists_represents_run`): the lists that they share, and what stands in a list behind a set's end, cannot be
seen.
`SetPool.sharing_keeps_sets` says what this means for reading, growing, comparing and listing sets.
-/

namespace ParserMachine

section Sorted

variable {α : Type} [Ord α] [Std.LawfulEqOrd α] [Std.TransOrd α] [DecidableEq α]

namespace SortedSet

theorem ofList_append_filter (l m : List α) : ofList (l ++ m.filter (· ∉ l)) = (ofList l).union (ofList m) := by
  apply ext
  intro x
  rw [mem_ofList, mem_append_filter_not_mem, mem_union, mem_ofList, mem_ofList]

theorem ofList_appendNew (l as : List α) : ofList (SetPool.appendNew l as) = (ofList l).union (ofList as) := by
  apply ext
  intro x
  rw [mem_ofList, SetPool.mem_appendNew, mem_union, mem_ofList, mem_ofList]

theorem map_ofList_appendsFrom (all : List α) (ls : List (List α)) :
    (SetPool.appendsFrom all ls).map ofList = prefixUnionsFrom (ofList all) (ls.map ofList) := by
  induction ls generalizing all with
  | nil => rfl
  | cons l ls ih =>
    refine congrArg (ofList all :: ·) ((ih _).trans ?_)
    rw [ofList_appendNew]

end SortedSet

namespace SetPool

variable {p : SetPool α} {ls : List (List α)}

/-- An operation on a pool is the operation on the sets that the pool represents. -/
theorem Represents.exists_apply (h : p.Represents ls) (op : SetOp α) :
    ∃ ls', (p.apply op).Represents ls' ∧ ls'.map SortedSet.ofList = SetOp.onSets (ls.map SortedSet.ofList) op := by
  have hget (i : Nat) : SortedSet.ofList (ls.getD i []) = (ls.map SortedSet.ofList).getD i .empty :=
    (List.getD_map ls [] SortedSet.ofList).symm
  cases op with
  | empty => exact ⟨_, h.add List.nodup_nil, List.map_append⟩
  | single a => exact ⟨_, h.add (by simp), List.map_append⟩
  | ofList as =>
    refine ⟨_, h.add (nodup_appendNew List.nodup_nil), List.map_append.trans ?_⟩
    have has : SortedSet.ofList (appendNew [] as) = SortedSet.ofList as :=
      SortedSet.ext fun x => by simp [mem_appendNew]
    rw [List.map_singleton, has]
    rfl
  | copy i =>
    refine ⟨_, h.copy i, List.map_append.trans ?_⟩
    exact congrArg (ls.map SortedSet.ofList ++ [·]) (hget i)
  | drop i => exact ⟨_, h.drop i, (List.eraseIdx_map ..).symm⟩
  | assign i j =>
    refine ⟨_, h.assign i j, List.map_set.trans ?_⟩
    exact congrArg _ (hget j)
  | union i j =>
    refine ⟨_, h.union i j, List.map_append.trans ?_⟩
    rw [List.map_singleton, SortedSet.ofList_append_filter, hget, hget]
    rfl
  | extend i j =>
    refine ⟨_, h.extend i j, List.map_set.trans ?_⟩
    rw [SortedSet.ofList_append_filter, hget, hget]
    rfl
  | prefixUnions is =>
    refine ⟨_, h.prefixUnions is, List.map_append.trans ?_⟩
    have hsets : (is.map (ls.getD · [])).map SortedSet.ofList = is.map ((ls.map SortedSet.ofList).getD · .empty) := by
      rw [List.map_map]
      exact List.map_congr_left fun i _ => hget i
    rw [SortedSet.map_ofList_appendsFrom, hsets]
    rfl

/-- Operations on a pool are the operations on the sets that the pool represents. -/
theorem Represents.exists_applyAll (h : p.Represents ls) (ops : List (SetOp α)) :
    ∃ ls', (p.applyAll ops).Represents ls' ∧
      ls'.map SortedSet.ofList = ops.foldl SetOp.onSets (ls.map SortedSet.ofList) := by
  induction ops generalizing p ls with
  | nil => exact ⟨ls, h, rfl⟩
  | cons op ops ih =>
    obtain ⟨ls', h', hls'⟩ := h.exists_apply op
    rw [List.foldl_cons, ← hls']
    exact ih h'

/-- After any operations a pool represents the sets that come about if each is kept for itself. -/
theorem exists_represents_run (ops : List (SetOp α)) :
    ∃ ls, (run ops).Represents ls ∧ ls.map SortedSet.ofList = SetOp.runOnSets ops :=
  represents_empty.exists_applyAll ops

end SetPool

end Sorted

namespace SetPool

variable {τ : Type} [Token τ] {p : SetPool (ErrorItem τ)} {ls : List (List (ErrorItem τ))}

/-- The sets of a pool read, grow and compare as sets do that are kept for themselves. -/
structure HoldsSets (p : SetPool (ErrorItem τ)) (sets : List (ExpectedSet τ)) : Prop where
  /-- There are as many sets, with these members. -/
  length_eq : p.sets.length = sets.length
  mem_items : ∀ i x, x ∈ p.items i ↔ x ∈ sets.getD i .empty
  /-- No item is listed twice, so the size of a set is the number of its members. -/
  nodup : ∀ i, (p.items i).Nodup
  length_items : ∀ i, (p.items i).length = (p.setAt i).size
  /-- A set that is extended has the items of both sets, and no other set changes. -/
  mem_extend : ∀ i j, i < p.sets.length → ∀ x, x ∈ (p.extend i j).items i ↔ x ∈ p.items i ∨ x ∈ p.items j
  items_extend : ∀ i j k, k ≠ i → (p.extend i j).items k = p.items k
  /-- A union has the items of both sets, and no set changes. -/
  mem_union : ∀ i j x, x ∈ (p.union i j).items p.sets.length ↔ x ∈ p.items i ∨ x ∈ p.items j
  items_union : ∀ i j k, k < p.sets.length → (p.union i j).items k = p.items k
  /-- The running unions are beginnings of one list, the `k`-th has the items of the first `k` sets, and no set
  changes. -/
  list_prefixUnions : ∀ (is : List Nat) (k : Nat), k ≤ is.length →
    ((p.prefixUnions is).setAt (p.sets.length + k)).list = p.lists.length
  mem_prefixUnions : ∀ (is : List Nat) (k : Nat), k ≤ is.length →
    ∀ x, x ∈ (p.prefixUnions is).items (p.sets.length + k) ↔ ∃ i ∈ is.take k, x ∈ p.items i
  items_prefixUnions : ∀ is k, k < p.sets.length → (p.prefixUnions is).items k = p.items k
  /-- Two sets are equal if they have the same members. -/
  same_iff : ∀ i j, p.same i j = true ↔ ∀ x, x ∈ p.items i ↔ x ∈ p.items j
  equivalence : Equivalence fun i j => p.same i j = true
  /-- A set has the text of its members, so equal sets have the same text. -/
  render_eq : ∀ i, p.render i = ExpectedSet.render (sets.getD i .empty)
  render_congr : ∀ i j, p.same i j = true → p.render i = p.render j

theorem Represents.mem_items_iff (h : p.Represents ls) (i : Nat) (x : ErrorItem τ) :
    x ∈ p.items i ↔ x ∈ (ls.map SortedSet.ofList).getD i .empty := by
  have hget : (ls.map SortedSet.ofList).getD i .empty = SortedSet.ofList (ls.getD i []) :=
    List.getD_map ls [] SortedSet.ofList
  rw [hget, SortedSet.mem_ofList, h.items_eq]

theorem Represents.render_eq (h : p.Represents ls) (i : Nat) :
    p.render i = ExpectedSet.render ((ls.map SortedSet.ofList).getD i .empty) :=
  (ExpectedSet.render_eq_of_mem_iff (h.mem_items_iff i)).symm

/-- Sets that are found equal stand for one set, so they have its text. -/
theorem Represents.render_congr (h : p.Represents ls) {i j : Nat} (hsame : p.same i j = true) :
    p.render i = p.render j := by
  have hsets : (ls.map SortedSet.ofList).getD i .empty = (ls.map SortedSet.ofList).getD j .empty :=
    SortedSet.ext fun x => by rw [← h.mem_items_iff, ← h.mem_items_iff, (h.same_iff i j).1 hsame x]
  rw [h.render_eq, h.render_eq, hsets]

theorem Represents.holdsSets (h : p.Represents ls) : p.HoldsSets (ls.map SortedSet.ofList) :=
  { length_eq := by rw [h.length_eq, List.length_map]
    mem_items := h.mem_items_iff
    nodup := h.nodup_items
    length_items := h.length_items
    mem_extend := h.mem_items_extend
    items_extend := h.items_extend
    mem_union := h.mem_items_union
    items_union := h.items_union
    list_prefixUnions := list_setAt_prefixUnions
    mem_prefixUnions := h.mem_items_prefixUnions
    items_prefixUnions := h.items_prefixUnions
    same_iff := h.same_iff
    equivalence := h.equivalence_same
    render_eq := h.render_eq
    render_congr := fun _ _ => h.render_congr }

/-- Whatever is done with the sets of a pool, they read, grow and compare as the sets do that come about if every set is
kept for itself. -/
theorem sharing_keeps_sets (ops : List (SetOp (ErrorItem τ))) : (run ops).HoldsSets (SetOp.runOnSets ops) := by
  obtain ⟨ls, h, hls⟩ := exists_represents_run ops
  exact hls ▸ h.holdsSets

/-- A running union of four sets that grows by itself does not show what stands behind it in the list. -/
example :
    let p : SetPool (ErrorItem Char) := run [.single (.label "a"), .single (.label "b"), .single (.label "a"),
      .single (.label "c"), .prefixUnions [0, 1, 2, 3], .copy 5, .single (.label "d"), .extend 9 10]
    p.items 9 = [.label "a", .label "d"] ∧ p.items 8 = [.label "a", .label "b", .label "c"] ∧ p.same 6 7 = true := by
  decide

end SetPool

end ParserMachine

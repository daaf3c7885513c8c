/-!
# Finite sets as strictly increasing lists

A set is kept as the list of its members in increasing order, so two sets with the same members
are the same value (`SortedSet.ext`) and every listing of a set comes out in order. Membership in
each operation's result is stated beside it: `mem_insert`, `mem_union`, `mem_ofList`.
-/

namespace ParserMachine

/-- A finite set of `α`, listed in strictly increasing order. -/
structure SortedSet (α : Type) [Ord α] where
  /-- The members in increasing order. -/
  toList : List α
  /-- No member is repeated and all stand in order. -/
  sorted : toList.Pairwise (fun a b => compare a b = .lt)
deriving DecidableEq

namespace SortedSet

variable {α : Type} [Ord α]

instance : Membership α (SortedSet α) := ⟨fun s a => a ∈ s.toList⟩

instance [DecidableEq α] (a : α) (s : SortedSet α) : Decidable (a ∈ s) :=
  inferInstanceAs (Decidable (a ∈ s.toList))

theorem mem_def {a : α} {s : SortedSet α} : a ∈ s ↔ a ∈ s.toList := Iff.rfl

/-- The set without members. -/
def empty : SortedSet α := ⟨[], .nil⟩

/-- The set whose only member is `a`. -/
def single (a : α) : SortedSet α := ⟨[a], List.pairwise_singleton _ a⟩

/-- How many members there are. -/
def size (s : SortedSet α) : Nat := s.toList.length

/-- Whether there is no member. -/
def isEmpty (s : SortedSet α) : Bool := s.toList.isEmpty

@[simp] theorem not_mem_empty (a : α) : a ∉ (empty : SortedSet α) := List.not_mem_nil

@[simp] theorem mem_single {a b : α} : a ∈ single b ↔ a = b := List.mem_singleton

/-- Puts `a` in its place in an increasing list, unless it is there already. -/
def insertInto (a : α) : List α → List α
  | [] => [a]
  | b :: bs =>
    match compare a b with
    | .lt => a :: b :: bs
    | .eq => b :: bs
    | .gt => b :: insertInto a bs

variable [Std.LawfulEqOrd α]

theorem mem_insertInto {a x : α} {l : List α} : x ∈ insertInto a l ↔ x = a ∨ x ∈ l := by
  induction l with
  | nil => simp [insertInto]
  | cons b bs ih =>
    unfold insertInto
    cases h : compare a b with
    | lt => simp
    | eq => simp [Std.LawfulEqOrd.eq_of_compare h]
    | gt => simp [ih, or_left_comm]

variable [Std.TransOrd α]

theorem pairwise_insertInto (a : α) {l : List α}
    (h : l.Pairwise (fun a b => compare a b = .lt)) :
    (insertInto a l).Pairwise (fun a b => compare a b = .lt) := by
  induction l with
  | nil => exact List.pairwise_singleton _ a
  | cons b bs ih =>
    obtain ⟨hb, hbs⟩ := List.pairwise_cons.1 h
    unfold insertInto
    cases hab : compare a b with
    | lt =>
      refine List.pairwise_cons.2 ⟨fun x hx => ?_, h⟩
      rcases List.mem_cons.1 hx with rfl | hx
      · exact hab
      · exact Std.TransCmp.lt_trans hab (hb x hx)
    | eq => exact h
    | gt =>
      refine List.pairwise_cons.2 ⟨fun x hx => ?_, ih hbs⟩
      rcases mem_insertInto.1 hx with rfl | hx
      · exact Std.OrientedCmp.lt_of_gt hab
      · exact hb x hx

/-- The set with `a` added. -/
def insert (s : SortedSet α) (a : α) : SortedSet α :=
  ⟨insertInto a s.toList, pairwise_insertInto a s.sorted⟩

@[simp] theorem mem_insert {s : SortedSet α} {a x : α} : x ∈ s.insert a ↔ x = a ∨ x ∈ s :=
  mem_insertInto

/-- The set with every element of a list added. -/
def insertAll (s : SortedSet α) (l : List α) : SortedSet α := l.foldl insert s

@[simp] theorem mem_insertAll {s : SortedSet α} {l : List α} {x : α} :
    x ∈ s.insertAll l ↔ x ∈ s ∨ x ∈ l := by
  induction l generalizing s with
  | nil => simp [insertAll]
  | cons a l ih =>
    have := @ih (s.insert a)
    simp only [insertAll, List.foldl_cons, mem_insert, List.mem_cons] at this ⊢
    rw [this]
    simp only [or_assoc, or_left_comm]

/-- The members of either set. -/
def union (s t : SortedSet α) : SortedSet α := s.insertAll t.toList

@[simp] theorem mem_union {s t : SortedSet α} {x : α} : x ∈ s.union t ↔ x ∈ s ∨ x ∈ t :=
  mem_insertAll

/-- The elements of a list, whatever their order and however often they occur. -/
def ofList (l : List α) : SortedSet α := empty.insertAll l

@[simp] theorem mem_ofList {l : List α} {x : α} : x ∈ ofList l ↔ x ∈ l := by
  simp [ofList]

omit [Std.LawfulEqOrd α] in
/-- Two increasing lists with the same members are equal. -/
theorem eq_of_mem_iff {l m : List α} (hl : l.Pairwise (fun a b => compare a b = .lt))
    (hm : m.Pairwise (fun a b => compare a b = .lt)) (h : ∀ x, x ∈ l ↔ x ∈ m) : l = m := by
  induction l generalizing m with
  | nil =>
    cases m with
    | nil => rfl
    | cons b bs => exact absurd ((h b).2 List.mem_cons_self) List.not_mem_nil
  | cons a as ih =>
    cases m with
    | nil => exact absurd ((h a).1 List.mem_cons_self) List.not_mem_nil
    | cons b bs =>
      obtain ⟨ha, has⟩ := List.pairwise_cons.1 hl
      obtain ⟨hb, hbs⟩ := List.pairwise_cons.1 hm
      have hne : ∀ {x : α}, compare x x ≠ .lt := fun {x} => by
        rw [Std.compare_self]; decide
      have hab : a = b := by
        rcases List.mem_cons.1 ((h a).1 List.mem_cons_self) with e | hmem
        · exact e
        · rcases List.mem_cons.1 ((h b).2 List.mem_cons_self) with e | hmem'
          · exact e.symm
          · exact absurd (Std.TransCmp.lt_trans (ha b hmem') (hb a hmem)) hne
      subst hab
      refine congrArg (a :: ·) (ih has hbs fun x => ?_)
      have := h x
      simp only [List.mem_cons] at this
      constructor
      · intro hx
        rcases this.1 (Or.inr hx) with rfl | hx'
        · exact absurd (ha x hx) hne
        · exact hx'
      · intro hx
        rcases this.2 (Or.inr hx) with rfl | hx'
        · exact absurd (hb x hx) hne
        · exact hx'

omit [Std.LawfulEqOrd α] in
/-- A set is determined by its members. -/
theorem ext {s t : SortedSet α} (h : ∀ x, x ∈ s ↔ x ∈ t) : s = t := by
  cases s with
  | mk l hl =>
    cases t with
    | mk m hm =>
      have : l = m := eq_of_mem_iff hl hm h
      subst this
      rfl

/-- The running unions of a list of sets: the `k`-th of them holds the members of the first `k`
sets, so there is one more union than there are sets. -/
def prefixUnionsFrom (acc : SortedSet α) : List (SortedSet α) → List (SortedSet α)
  | [] => [acc]
  | s :: rest => acc :: prefixUnionsFrom (acc.union s) rest

/-- The running unions, beginning with the empty set. -/
def prefixUnions (sets : List (SortedSet α)) : List (SortedSet α) := prefixUnionsFrom empty sets

/-- The union of all sets of a list. -/
def unions (sets : List (SortedSet α)) : SortedSet α := sets.foldl union empty

end SortedSet

end ParserMachine

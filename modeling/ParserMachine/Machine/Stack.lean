/-!
# Stacks

A stack knows its height, so that cutting it back to an earlier height looks at no entry but those
that go. `Stack.toList` is its view; what each operation does to it is stated beside the operation.
-/

namespace ParserMachine

/-- A stack that knows its height. -/
structure Stack (α : Type) where
  /-- The entries, the top first. -/
  toList : List α
  /-- How many entries there are. -/
  height : Nat
  /-- The height is that of the entries. -/
  height_eq : height = toList.length

namespace Stack

variable {α : Type}

/-- A stack is determined by its entries. -/
theorem ext {s t : Stack α} (h : s.toList = t.toList) : s = t := by
  obtain ⟨l, n, rfl⟩ := s
  obtain ⟨m, k, rfl⟩ := t
  cases h
  rfl

/-- The stack without entries. -/
def empty : Stack α := ⟨[], 0, rfl⟩

@[simp] theorem toList_empty : (empty : Stack α).toList = [] := rfl

/-- Puts an entry on top. -/
def push (a : α) (s : Stack α) : Stack α :=
  ⟨a :: s.toList, s.height + 1, by rw [s.height_eq, List.length_cons]⟩

@[simp] theorem toList_push (a : α) (s : Stack α) : (s.push a).toList = a :: s.toList := rfl

/-- The top and the stack below it. -/
@[inline] def pop? : Stack α → Option (α × Stack α)
  | ⟨[], _, _⟩ => none
  | ⟨a :: rest, n, h⟩ => some (a, ⟨rest, n - 1, by rw [h, List.length_cons, Nat.add_sub_cancel]⟩)

@[simp] theorem pop?_empty : (empty : Stack α).pop? = none := rfl

@[simp] theorem pop?_push (a : α) (s : Stack α) : (s.push a).pop? = some (a, s) := rfl

theorem pop?_eq_some_iff {a : α} {s t : Stack α} : s.pop? = some (a, t) ↔ s = t.push a := by
  constructor
  · obtain ⟨_ | ⟨b, rest⟩, n, h⟩ := s
    · intro hs
      cases hs
    · intro hs
      cases hs
      exact ext rfl
  · rintro rfl
    rfl

theorem pop?_eq_none_iff {s : Stack α} : s.pop? = none ↔ s = empty := by
  constructor
  · obtain ⟨_ | ⟨b, rest⟩, n, h⟩ := s
    · exact fun _ => ext rfl
    · intro hs
      cases hs
  · rintro rfl
    rfl

/-- The top. -/
def top? (s : Stack α) : Option α := s.toList.head?

/-- The stack below the top. -/
def below (s : Stack α) : Stack α :=
  ⟨s.toList.tail, s.height - 1, by rw [s.height_eq, List.length_tail]⟩

@[simp] theorem toList_below (s : Stack α) : s.below.toList = s.toList.tail := rfl

/-- The lowest `n` entries. -/
def lowest (n : Nat) (s : Stack α) : Stack α :=
  ⟨s.toList.drop (s.height - n), min n s.height, by
    rw [List.length_drop, ← s.height_eq]
    omega⟩

@[simp] theorem toList_lowest (n : Nat) (s : Stack α) :
    (s.lowest n).toList = s.toList.drop (s.toList.length - n) := by
  simp only [lowest, s.height_eq]

end Stack

end ParserMachine

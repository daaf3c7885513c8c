import ParserMachine.Error.Expected

/-!
# Sets that share their lists

A pool keeps sets that have many elements in common without keeping these more than once: a set is a beginning of a
list, and several sets may be beginnings of one list. So a set is copied, and the running unions of many sets are made,
without a copy of their elements.

Where a set grows, its list grows, if the set is the whole of the list and no other set uses it; otherwise the set
moves to a list of its own first. Sets are named by their positions in the pool, and a position beyond the last one
names a set without elements. What a set holds is `SetPool.items`; the operations are `SetOp`, and `SetOp.onSets` says
what they do to sets that are kept apart.
-/

namespace ParserMachine

/-- A set of a pool: the first elements of one of the lists. -/
structure SharedSet where
  /-- The position of the list. -/
  list : Nat
  /-- How many of its elements are in the set. -/
  size : Nat
deriving DecidableEq

/-- Sets, and the lists that hold their elements. -/
structure SetPool (α : Type) where
  /-- The lists. One that no set uses any more stays where it is. -/
  lists : List (List α)
  /-- The sets. -/
  sets : List SharedSet

namespace SetPool

variable {α : Type}

/-- The pool without sets. -/
def empty : SetPool α := ⟨[], []⟩

/-- The set at a position. -/
def setAt (p : SetPool α) (i : Nat) : SharedSet := p.sets.getD i ⟨0, 0⟩

/-- The list at a position. -/
def listAt (p : SetPool α) (n : Nat) : List α := p.lists.getD n []

/-- The elements of a set. -/
def elements (p : SetPool α) (s : SharedSet) : List α := (p.listAt s.list).take s.size

/-- The elements of the set at a position. -/
def items (p : SetPool α) (i : Nat) : List α := p.elements (p.setAt i)

/-- Whether another set uses the list of the set at a position. -/
def sharesList (p : SetPool α) (i : Nat) : Bool := (p.sets.eraseIdx i).any (·.list = (p.setAt i).list)

/-! ### Making and growing sets -/

/-- Adds a set that is the whole of a new list. -/
def add (l : List α) (p : SetPool α) : SetPool α :=
  ⟨p.lists ++ [l], p.sets ++ [⟨p.lists.length, l.length⟩]⟩

/-- Adds a copy of a set. -/
def copy (i : Nat) (p : SetPool α) : SetPool α := { p with sets := p.sets ++ [p.setAt i] }

/-- Takes a set away. Those behind it move up. -/
def drop (i : Nat) (p : SetPool α) : SetPool α := { p with sets := p.sets.eraseIdx i }

/-- Puts a set in the place of another. -/
def assign (i : Nat) (s : SharedSet) (p : SetPool α) : SetPool α := { p with sets := p.sets.set i s }

/-- Moves a set to a new list, of which it is the whole. -/
def move (i : Nat) (l : List α) (p : SetPool α) : SetPool α :=
  ⟨p.lists ++ [l], p.sets.set i ⟨p.lists.length, l.length⟩⟩

/-- Adds elements at the end of a set that is the whole of its list. A list that other sets use stays as it is. -/
def grow (i : Nat) (extra : List α) (p : SetPool α) : SetPool α :=
  let n := (p.setAt i).list
  let l := p.listAt n ++ extra
  if p.sharesList i then p.move i l else ⟨p.lists.set n l, p.sets.set i ⟨n, l.length⟩⟩

variable [DecidableEq α]

/-- Adds the elements of the set at `j` to the set at `i`. -/
def extend (i j : Nat) (p : SetPool α) : SetPool α :=
  let s := p.setAt i
  let t := p.setAt j
  if t.size = 0 ∨ (t.list = s.list ∧ t.size ≤ s.size) then p
  else if s.size = 0 then p.assign i t
  else
    let missing := (p.elements t).filter (· ∉ p.elements s)
    if missing = [] then p
    else if s.size < (p.listAt s.list).length then (p.move i (p.elements s)).grow i missing
    else p.grow i missing

/-- Adds the union of two sets. -/
def union (i j : Nat) (p : SetPool α) : SetPool α := (p.copy i).extend p.sets.length j

/-- Appends to a list what it does not have yet, each element once. -/
def appendNew (l as : List α) : List α := as.foldl (fun l a => if a ∈ l then l else l ++ [a]) l

/-- Appends what is new in each of several lists, and says how long the list is before each of them and at the end. -/
def gather : List α → List (List α) → List α × List Nat
  | all, [] => (all, [all.length])
  | all, l :: rest =>
    let (whole, sizes) := gather (appendNew all l) rest
    (whole, all.length :: sizes)

/-- Adds the running unions of some sets, which all use one list. There is one more of them than there are sets: the
`k`-th is the union of the first `k` sets. -/
def prefixUnions (is : List Nat) (p : SetPool α) : SetPool α :=
  let (whole, sizes) := gather [] (is.map p.items)
  ⟨p.lists ++ [whole], p.sets ++ sizes.map (⟨p.lists.length, ·⟩)⟩

/-! ### Comparing and listing sets -/

/-- Whether two sets are equal. Beginnings of one list are if they are equally long; other sets are if they are equally
long and the first one's elements are all in the second. -/
def same (p : SetPool α) (i j : Nat) : Bool :=
  let s := p.setAt i
  let t := p.setAt j
  (s.list = t.list && s.size = t.size) || (s.size = t.size && (p.elements s).all (· ∈ p.elements t))

/-- The names of the items of a set in words. -/
def render {τ : Type} [Token τ] (p : SetPool (ErrorItem τ)) (i : Nat) : String :=
  ExpectedSet.disjunction (SortedSet.ofList ((p.items i).map ErrorItem.render)).toList

end SetPool

/-! ### Operations -/

/-- What can be done with the sets of a pool. A set that is made comes after all others. -/
inductive SetOp (α : Type) where
  /-- Makes a set without elements. -/
  | empty
  /-- Makes a set of one element. -/
  | single (a : α)
  /-- Makes a set of the elements of a list. -/
  | ofList (as : List α)
  /-- Makes a copy of a set. -/
  | copy (i : Nat)
  /-- Takes a set away. -/
  | drop (i : Nat)
  /-- Makes the set at `i` a copy of the one at `j`. -/
  | assign (i j : Nat)
  /-- Makes the union of two sets. -/
  | union (i j : Nat)
  /-- Adds the elements of the set at `j` to the one at `i`. -/
  | extend (i j : Nat)
  /-- Makes the running unions of some sets. -/
  | prefixUnions (is : List Nat)

namespace SetPool

variable {α : Type} [DecidableEq α]

/-- The pool after an operation. -/
def apply (p : SetPool α) : SetOp α → SetPool α
  | .empty => p.add []
  | .single a => p.add [a]
  | .ofList as => p.add (appendNew [] as)
  | .copy i => p.copy i
  | .drop i => p.drop i
  | .assign i j => p.assign i (p.setAt j)
  | .union i j => p.union i j
  | .extend i j => p.extend i j
  | .prefixUnions is => p.prefixUnions is

/-- The pool after some operations. -/
def applyAll (p : SetPool α) (ops : List (SetOp α)) : SetPool α := ops.foldl apply p

/-- The pool after some operations, beginning without sets. -/
def run (ops : List (SetOp α)) : SetPool α := empty.applyAll ops

end SetPool

namespace SetOp

variable {α : Type} [Ord α] [Std.LawfulEqOrd α] [Std.TransOrd α]

/-- What an operation does to sets that are kept apart. -/
def onSets (sets : List (SortedSet α)) : SetOp α → List (SortedSet α)
  | empty => sets ++ [.empty]
  | single a => sets ++ [.single a]
  | ofList as => sets ++ [.ofList as]
  | copy i => sets ++ [sets.getD i .empty]
  | drop i => sets.eraseIdx i
  | assign i j => sets.set i (sets.getD j .empty)
  | union i j => sets ++ [(sets.getD i .empty).union (sets.getD j .empty)]
  | extend i j => sets.set i ((sets.getD i .empty).union (sets.getD j .empty))
  | prefixUnions is => sets ++ SortedSet.prefixUnions (is.map (sets.getD · .empty))

/-- The sets after some operations, beginning without any. -/
def runOnSets (ops : List (SetOp α)) : List (SortedSet α) := ops.foldl onSets []

end SetOp

end ParserMachine

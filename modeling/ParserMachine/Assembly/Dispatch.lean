import ParserMachine.Expr.Lead

/-!
# Choosing alternatives by their first token

Alternatives whose leads do not overlap can be chosen by looking at one token. `Dispatch.sort` says
which of a list of alternatives go into a table, and which are left to be tried one after another:
those whose lead meets that of an earlier one, and all from the first one on that has no lead.
-/

namespace ParserMachine.Dispatch

variable {τ : Type} [Token τ] {α : Type}

/-- Sorts alternatives into those for a table, each with its lead, and the rest, both in order.
`seen` holds the tokens of all leads before. -/
def sortFrom (leadOf : α → Option (Lead τ)) (seen : List τ) :
    List α → List (α × Lead τ) × List α
  | [] => ([], [])
  | a :: rest =>
    match leadOf a with
    | none => ([], a :: rest)
    | some l =>
      let (table, others) := sortFrom leadOf (seen ++ l.tokens.filter (· ∉ seen)) rest
      if l.tokens.any (· ∈ seen) then (table, a :: others) else ((a, l) :: table, others)

theorem sortFrom_cons (leadOf : α → Option (Lead τ)) (seen : List τ) (a : α) (rest : List α) :
    sortFrom leadOf seen (a :: rest) = match leadOf a with
      | none => ([], a :: rest)
      | some l =>
        let sorted := sortFrom leadOf (seen ++ l.tokens.filter (· ∉ seen)) rest
        if l.tokens.any (· ∈ seen) then (sorted.1, a :: sorted.2) else ((a, l) :: sorted.1, sorted.2) := rfl

/-- Sorts alternatives into those for a table, each with its lead, and the rest. -/
def sort (leadOf : α → Option (Lead τ)) (alts : List α) : List (α × Lead τ) × List α :=
  sortFrom leadOf [] alts

/-- The tokens that choose an alternative, each with the position of the alternative. -/
def entries (leads : List (Lead τ)) : List (τ × Nat) :=
  leads.zipIdx.flatMap fun (l, k) => l.tokens.map fun t => (t, k)

/-- What the leads before each one expect. -/
def before (leads : List (Lead τ)) : List (ExpectedSet τ) :=
  (SortedSet.prefixUnions (leads.map Lead.expected)).dropLast

/-- What the leads after each one expect. -/
def after (leads : List (Lead τ)) : List (ExpectedSet τ) :=
  (SortedSet.prefixUnions (leads.tail.reverse.map Lead.expected)).reverse

/-- What all leads expect. -/
def all (leads : List (Lead τ)) : ExpectedSet τ := SortedSet.unions (leads.map Lead.expected)

end ParserMachine.Dispatch

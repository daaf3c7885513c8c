import ParserMachine.Token
import ParserMachine.SortedSet

/-!
# Items of an error message

What was found, or would have been accepted, at the place of an error. Items have two orders. In a
listing, runs of tokens come first, then labels, then the end of the input (`compare`). As a
report of what was found, one item may say more than another (`ErrorItem.compareDetail`), and the
one that says more is kept (`ErrorItem.moreSpecific`).
-/

namespace ParserMachine

/-- What was found, or would have been accepted, at some place of the input. -/
inductive ErrorItem (τ : Type) where
  /-- A run of tokens. -/
  | tokens (ts : List τ)
  /-- Something that has a name. -/
  | label (name : String)
  /-- The end of the input. -/
  | endOfInput
deriving DecidableEq

namespace ErrorItem

variable {τ : Type} [Token τ]

/-- The order of a listing: runs of tokens, labels, the end of the input. -/
instance : Ord (ErrorItem τ) where
  compare
    | .tokens a, .tokens b => compare a b
    | .tokens _, _ => .lt
    | .label _, .tokens _ => .gt
    | .label a, .label b => compare a b
    | .label _, .endOfInput => .lt
    | .endOfInput, .endOfInput => .eq
    | .endOfInput, _ => .gt

theorem compare_tokens (a b : List τ) :
    compare (ErrorItem.tokens a) (.tokens b) = compare a b := rfl

theorem compare_label (a b : String) :
    compare (ErrorItem.label a : ErrorItem τ) (.label b) = compare a b := rfl

instance : Std.OrientedOrd (ErrorItem τ) where
  eq_swap {a b} :=
    match a, b with
    | .tokens x, .tokens y => Std.OrientedOrd.eq_swap (a := x) (b := y)
    | .label x, .label y => Std.OrientedOrd.eq_swap (a := x) (b := y)
    | .tokens _, .label _ | .tokens _, .endOfInput | .label _, .tokens _ | .label _, .endOfInput
    | .endOfInput, .tokens _ | .endOfInput, .label _ | .endOfInput, .endOfInput => rfl

instance : Std.TransOrd (ErrorItem τ) where
  isLE_trans {a b c} hab hbc :=
    match a, b, c, hab, hbc with
    | .tokens _, .tokens _, .tokens _, hab, hbc =>
      Std.TransOrd.isLE_trans (α := List τ) hab hbc
    | .label _, .label _, .label _, hab, hbc => Std.TransOrd.isLE_trans (α := String) hab hbc
    | .tokens _, _, .label _, _, _ | .tokens _, _, .endOfInput, _, _
    | .label _, _, .endOfInput, _, _ | .endOfInput, _, .endOfInput, _, _ => rfl
    | .label _, .tokens _, _, hab, _ => by cases hab
    | .endOfInput, .tokens _, _, hab, _ => by cases hab
    | .endOfInput, .label _, _, hab, _ => by cases hab
    | _, .label _, .tokens _, _, hbc => by cases hbc
    | _, .endOfInput, .tokens _, _, hbc => by cases hbc
    | _, .endOfInput, .label _, _, hbc => by cases hbc

instance : Std.LawfulEqOrd (ErrorItem τ) where
  compare_self {a} :=
    match a with
    | .tokens x => Std.compare_self (a := x)
    | .label x => Std.compare_self (a := x)
    | .endOfInput => rfl
  eq_of_compare {a b} h :=
    match a, b, h with
    | .tokens _, .tokens _, h => congrArg _ (Std.LawfulEqOrd.eq_of_compare (α := List τ) h)
    | .label _, .label _, h => congrArg _ (Std.LawfulEqOrd.eq_of_compare (α := String) h)
    | .endOfInput, .endOfInput, _ => rfl

/-- How much input the item covers. -/
def span : ErrorItem τ → Nat
  | tokens ts => ts.length
  | label _ | endOfInput => 1

/-- Among items of the same span a label, which a grammar chose to report, comes above raw tokens,
and the end of the input comes below both. -/
def rank : ErrorItem τ → Nat
  | label _ => 2
  | tokens _ => 1
  | endOfInput => 0

/-- Which of two items says more: the one with the larger span, then the one of higher rank, then
the one with the larger contents. -/
def compareDetail (a b : ErrorItem τ) : Ordering :=
  (compare a.span b.span).then ((compare a.rank b.rank).then (compare a b))

/-- Of two items the one that says more. -/
def moreSpecific (a b : ErrorItem τ) : ErrorItem τ :=
  match compareDetail a b with
  | .lt => b
  | .eq | .gt => a

/-- How the item is named in messages. -/
def render : ErrorItem τ → String
  | tokens ts => Token.describe ts
  | label name => name
  | endOfInput => "end of input"

end ErrorItem

end ParserMachine

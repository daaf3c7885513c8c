import ParserMachine.Error.ParseError

/-!
# Values

What parsers produce. One type serves for all of them, since the machine keeps the results of
different parsers on one stack.

The verdict of a branch (`leftBranch`, `rightBranch`) is a value of its own kind: a branch looks at
nothing else, and `left` and `right` are plain data to it. `toVerdict` turns the one into the other
and `plain` turns every verdict inside a value back into data.
-/

namespace ParserMachine

/-- What a parser produces. -/
inductive Value (τ : Type) [Token τ] where
  /-- The result of a parser that has nothing to tell. -/
  | unit
  /-- A truth value. -/
  | bool (b : Bool)
  /-- An integer of 64 bits. -/
  | int (n : Int64)
  /-- A text. -/
  | str (s : String)
  /-- Several values, as a repetition collects them. -/
  | list (items : Array (Value τ))
  /-- One token of the input. -/
  | tok (t : τ)
  /-- A run of tokens of the input. -/
  | chunk (ts : List τ)
  /-- Two values. -/
  | pair (a b : Value τ)
  /-- The first of two cases, as data. -/
  | left (v : Value τ)
  /-- The second of two cases, as data. -/
  | right (v : Value τ)
  /-- An absent value. -/
  | none
  /-- A present value. -/
  | some (v : Value τ)
  /-- The result of a captured parser that succeeded. -/
  | ok (v : Value τ)
  /-- The error of a captured parser that failed. -/
  | err (e : ParseError τ)
  /-- A verdict that makes a branch run its second parser. -/
  | leftBranch (v : Value τ)
  /-- A verdict that makes a branch stop with this value. -/
  | rightBranch (v : Value τ)
  /-- The function that pairs `v` with its argument, the argument second. -/
  | pairWith (v : Value τ)

namespace Value

variable {τ : Type} [Token τ]

mutual

/-- Whether two values have the same structure. -/
def same : Value τ → Value τ → Bool
  | .unit, .unit | .none, .none => true
  | .bool a, .bool b => a == b
  | .int a, .int b => a == b
  | .str a, .str b => a == b
  | .list ⟨as⟩, .list ⟨bs⟩ => sameAll as bs
  | .tok a, .tok b => a = b
  | .chunk a, .chunk b => a = b
  | .pair a a', .pair b b' => a.same b && a'.same b'
  | .left a, .left b | .right a, .right b | .some a, .some b | .ok a, .ok b
  | .leftBranch a, .leftBranch b | .rightBranch a, .rightBranch b
  | .pairWith a, .pairWith b => a.same b
  | .err a, .err b => a = b
  | _, _ => false
termination_by structural v => v

/-- Whether two lists of values have the same structure. -/
def sameAll : List (Value τ) → List (Value τ) → Bool
  | [], [] => true
  | a :: as, b :: bs => a.same b && sameAll as bs
  | _, _ => false
termination_by structural vs => vs

end

mutual

/-- The value with every verdict inside it made plain data. -/
def plain : Value τ → Value τ
  | .list ⟨vs⟩ => .list ⟨plainAll vs⟩
  | .pair a b => .pair a.plain b.plain
  | .left v | .leftBranch v => .left v.plain
  | .right v | .rightBranch v => .right v.plain
  | .some v => .some v.plain
  | .ok v => .ok v.plain
  | v => v
termination_by structural v => v

/-- The values of a list with every verdict inside them made plain data. -/
def plainAll : List (Value τ) → List (Value τ)
  | [] => []
  | v :: vs => v.plain :: plainAll vs
termination_by structural vs => vs

end

/-- Plain data as a verdict: a left value, or any other value as a right one. -/
def toVerdict : Value τ → Value τ
  | .left v => .leftBranch v
  | .right v => .rightBranch v
  | v => .rightBranch v

/-- The list with `v` at its end; other values stay as they are. -/
def append : Value τ → Value τ → Value τ
  | .list vs, v => .list (vs.push v)
  | v, _ => v

/-- Puts `v` in front of a list; with any other value it makes a list of two. -/
def prepend (v : Value τ) : Value τ → Value τ
  | .list vs => .list (#[v] ++ vs)
  | w => .list #[v, w]

/-- Applies a function; other values stay as they are. -/
def apply : Value τ → Value τ → Value τ
  | .pairWith v, arg => .pair v arg
  | v, _ => v

/-! ### Reading values -/

mutual

/-- The text of a value: of a token as `ofToken` says, of compound values the texts of their parts
one after another. Values without text have the empty one. -/
def text (ofToken : τ → String) : Value τ → String
  | .tok t => ofToken t
  | .chunk ts => String.join (ts.map ofToken)
  | .str s => s
  | .int n => toString n.toInt
  | .list ⟨vs⟩ => textAll ofToken vs
  | .pair a b => a.text ofToken ++ b.text ofToken
  | .left v | .right v | .some v | .ok v => v.text ofToken
  | _ => ""
termination_by structural v => v

/-- The texts of values one after another. -/
def textAll (ofToken : τ → String) : List (Value τ) → String
  | [] => ""
  | v :: vs => v.text ofToken ++ textAll ofToken vs
termination_by structural vs => vs

end

/-- How many things a value holds: items, tokens or characters of a sequence, none for a value
that means absence, one for any other. -/
def count : Value τ → Nat
  | .list vs => vs.size
  | .chunk ts => ts.length
  | .str s => s.length
  | .unit | .none => 0
  | _ => 1

end Value

end ParserMachine

import ParserMachine.Grammar.Graph

/-!
# Parsers from parsers

The vocabulary in which grammars are written. Every combinator adds nodes to the grammar and gives
the number of the outermost one; parsers it is given are shared, not copied, so a combinator that
uses one twice (`some`, `sepBy1`) makes a node with two parents.
-/

namespace ParserMachine.Build

variable {τ : Type} [Token τ]

/-! ### Leaves -/

/-- A leaf. -/
def leaf (l : Leaf τ) : Build τ NodeId := node (.leaf l)

/-- Succeeds with a value and consumes nothing. -/
def pure (v : Value τ) : Build τ NodeId := leaf (.pure v)

/-- Fails on purpose. -/
def failWith (f : Failure) : Build τ NodeId := leaf (.fail f)

/-- Fails with a message. -/
def fail (message : String) : Build τ NodeId := failWith (.message [message])

/-- Fails and names what was found. -/
def unexpected (name : String) : Build τ NodeId := failWith (.unexpected name)

/-- Fails and says nothing. -/
def empty : Build τ NodeId := leaf .empty

/-- The end of the input. -/
def eof : Build τ NodeId := leaf .eof

/-- Exactly the token `t`. -/
def token (t : τ) : Build τ NodeId := leaf (.single t (ExpectedSet.tokens [t]))

/-- A token that passes a test; what was expected is not named. -/
def satisfy (test : τ → Bool) : Build τ NodeId := leaf (.satisfy test .empty)

/-- A token that passes a test, expected under a name. -/
def satisfyLabeled (name : String) (test : τ → Bool) : Build τ NodeId :=
  leaf (.satisfy test (ExpectedSet.label name))

/-- Exactly the tokens `ts`, which are the result. -/
def literal (ts : List τ) : Build τ NodeId :=
  leaf (.literal ts (.chunk ts) (ExpectedSet.tokens ts))

/-! ### Results -/

/-- Applies a function to the result. -/
def map (f : Value τ → Value τ) (p : NodeId) : Build τ NodeId := node (.unary (.map f) p)

/-- Replaces the result. -/
def as (v : Value τ) (p : NodeId) : Build τ NodeId := map (fun _ => v) p

/-- Discards the result. -/
def void (p : NodeId) : Build τ NodeId := as .unit p

/-- The consumed tokens in place of the result. -/
def chunk (p : NodeId) : Build τ NodeId := node (.unary .chunk p)

/-- The pair of the consumed tokens and the result. -/
def withChunk (p : NodeId) : Build τ NodeId := do
  map id (← node (.unary .matchChunk p))

/-! ### Sequences -/

/-- One after the other; the result is the second one's. -/
def andThen (p q : NodeId) : Build τ NodeId := node (.binary (.seq .right) p q)

/-- One after the other; the result is the first one's. -/
def skip (p q : NodeId) : Build τ NodeId := node (.binary (.seq .left) p q)

/-- One after the other; the results are combined. -/
def zipWith (f : Value τ → Value τ → Value τ) (p q : NodeId) : Build τ NodeId :=
  node (.binary (.seq (.both f)) p q)

/-- `p` with `opening` before it and `closing` after it. -/
def between (p opening closing : NodeId) : Build τ NodeId := do
  skip (← andThen opening p) closing

/-! ### Choices -/

/-- The second parser if the first fails without having consumed input. -/
def or (p q : NodeId) : Build τ NodeId := node (.binary .alt p q)

/-- The first of the parsers that succeeds, tried in order from the left; without any, `empty`. -/
def choice : List NodeId → Build τ NodeId
  | [] => empty
  | p :: ps => ps.foldlM or p

/-- The result of `p`, or `v` if it fails without having consumed input. -/
def optionOr (v : Value τ) (p : NodeId) : Build τ NodeId := do
  or p (← pure v)

/-- The result of `p` as a present value, or an absent one if `p` fails without having consumed
input. -/
def optional (p : NodeId) : Build τ NodeId := do
  optionOr .none (← map .some p)

/-- Runs `onLeft` if the result of `p` is a left value, and combines what both hold; any other
result stands, a right value for what it holds. -/
def branch (p onLeft : NodeId) (f : Value τ → Value τ → Value τ) : Build τ NodeId := do
  node (.binary (.branch f) (← map Value.toVerdict p) onLeft)

/-- Applies the function that `f` produces to what a left value holds; any other result of `p`
stands, a right value for what it holds. -/
def select (p f : NodeId) : Build τ NodeId := branch p f fun v g => g.apply v

/-- Fails, where `p` ends, if its result does not pass a test. -/
def filter (test : Value τ → Bool) (p : NodeId) : Build τ NodeId := do
  let judged ← map (fun v => if test v then .right v else .left .unit) p
  branch judged (← empty) fun _ v => v

/-! ### Repetitions -/

/-- As often as it succeeds; the result is the list of results. -/
def many (p : NodeId) : Build τ NodeId := do
  map id (← node (.unary .many p))

/-- As often as it succeeds; the results are discarded. -/
def skipMany (p : NodeId) : Build τ NodeId := do
  void (← node (.unary .many p))

/-- At least once; the result is the list of results. -/
def some (p : NodeId) : Build τ NodeId := do
  zipWith Value.prepend p (← many p)

/-- At least once, with `separator` between. -/
def sepBy1 (p separator : NodeId) : Build τ NodeId := do
  zipWith Value.prepend p (← many (← andThen separator p))

/-- Any number of times, with `separator` between. -/
def sepBy (p separator : NodeId) : Build τ NodeId := do
  optionOr (.list #[]) (← sepBy1 p separator)

/-! ### Looking ahead and going back -/

/-- Runs `p` and gives the input back. -/
def lookAhead (p : NodeId) : Build τ NodeId := node (.unary .lookAhead p)

/-- Succeeds, with nothing consumed, where `p` fails. -/
def notFollowedBy (p : NodeId) : Build τ NodeId := node (.unary .notFollowedBy p)

/-- Gives the input back when `p` fails. -/
def attempt (p : NodeId) : Build τ NodeId := node (.unary .attempt p)

/-! ### Messages and errors -/

/-- Names `p` in messages. -/
def label (name : String) (p : NodeId) : Build τ NodeId :=
  node (.unary (.label (Option.some name)) p)

/-- Keeps `p` out of messages. -/
def hide (p : NodeId) : Build τ NodeId := node (.unary (.label Option.none) p)

/-- Does something about the errors that escape `p`. -/
def guard (mode : GuardMode τ) (p : NodeId) : Build τ NodeId := node (.unary (.guard mode) p)

/-- The result of `p`, or its error as a value with the input given back. -/
def capture (p : NodeId) : Build τ NodeId := do map id (← guard .capture p)

/-- What comes of a captured error. -/
def orElseOf (f : ParseError τ → Value τ) : Value τ → Value τ
  | .ok v => v
  | .err e => f e
  | v => v

/-- The result of `p`, or what `f` makes of its error. -/
def recover (f : ParseError τ → Value τ) (p : NodeId) : Build τ NodeId := do
  map (orElseOf f) (← capture p)

/-- A captured error as a left value, a result as a right one. -/
def sortCaptured : Value τ → Value τ
  | .ok v => .right v
  | v => .left v

/-- The result of `p`; if `p` fails, runs `onError` where `p` began and combines the error with the
result of that. -/
def handle (p onError : NodeId) (f : Value τ → Value τ → Value τ) : Build τ NodeId := do
  branch (← map sortCaptured (← capture p)) onError f

/-- Amends the errors that escape `p`. -/
def region (f : ParseError τ → ParseError τ) (p : NodeId) : Build τ NodeId :=
  guard (.amend f) p

/-! ### References -/

/-- A new cell whose target is to be defined later. -/
def deferred : Build τ CellId := cell .undefined

/-- A parser that behaves like the target of a cell. -/
def reference (c : CellId) : Build τ NodeId := node (.lazy c)

/-- A reference to a parser that is there already. -/
def delay (p : NodeId) : Build τ NodeId := do
  reference (← cell (.supplied p))

/-- A parser that may refer to itself: `f` is given a reference to the parser that it makes. -/
def recursive (f : NodeId → Build τ NodeId) : Build τ NodeId := do
  let c ← deferred
  let p ← f (← reference c)
  let _ ← define c p
  return p

end ParserMachine.Build

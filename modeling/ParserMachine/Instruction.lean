import ParserMachine.Expr

/-!
# Instructions

The instructions of the parsing machine. The type `ι` of jump targets is a label before a program
is laid out and the index of an instruction after it.

A *handler* is where the machine continues when a failure occurs; instructions of the third group
install and remove handlers, those of the fourth stand where handlers point.
-/

namespace ParserMachine

/-- What an instruction that consumes input does with what it matched. -/
inductive Output (τ : Type) [Token τ] where
  /-- Nothing. -/
  | discard
  /-- Pushes it. -/
  | keep
  /-- Applies a function and pushes the result. -/
  | map (f : Value τ → Value τ)

/-- What a captured span turns into. -/
inductive SliceMode where
  /-- The span in place of the result. -/
  | chunk
  /-- The pair of the span and the result. -/
  | pair
deriving DecidableEq

/-- An instruction with jump targets in `ι`. -/
inductive Instr (τ : Type) [Token τ] (ι : Type) where
  -- Values.
  /-- Pushes a value. -/
  | push (v : Value τ)
  /-- Takes the top value away. -/
  | pop
  /-- Applies a function to the top value. -/
  | map (f : Value τ → Value τ)
  /-- Pops `y`, then `x`, and pushes `f x y`. -/
  | lift2 (f : Value τ → Value τ → Value τ)
  /-- Pushes an empty list. -/
  | newList
  -- Input.
  /-- Consumes the token `t`. -/
  | single (t : τ) (expected : ExpectedSet τ) (out : Output τ)
  /-- Consumes one token that passes a test. -/
  | satisfy (test : τ → Bool) (expected : ExpectedSet τ) (out : Output τ)
  /-- Consumes `ts`; where they stop matching, what matched stays consumed. -/
  | literal (ts : List τ) (v : Value τ) (expected : ExpectedSet τ) (out : Output τ)
  /-- Consumes tokens while they pass a test. -/
  | satisfyMany (test : τ → Bool) (expected : ExpectedSet τ) (push : Bool)
  /-- Fails unless the input has ended. -/
  | eof (expected : ExpectedSet τ)
  /-- Fails on purpose. -/
  | fail (f : Failure)
  /-- Fails and says nothing. -/
  | empty
  /-- Fails at the current token. -/
  | expect (expected : ExpectedSet τ)
  /-- Records what is expected here, without failing. -/
  | hint (expected : ExpectedSet τ)
  -- Control and handlers.
  /-- Jumps, to come back to the next instruction. -/
  | call (target : ι)
  /-- Goes back to after the last call; without one the run ends. -/
  | ret
  /-- Goes on elsewhere. -/
  | jump (target : ι)
  /-- Pops a verdict, pushes what it holds, and jumps if it is a left one. -/
  | case (left : ι)
  /-- Chooses a target by the current token. `before` holds, for each target, what the ones before
  it expect, and `all` what all of them expect. Other tokens go to `fallback` or fail. -/
  | dispatch (table : List (τ × Nat)) (targets : List ι) (before : List (ExpectedSet τ))
      (all : ExpectedSet τ) (fallback : Option ι)
  /-- Installs a handler and remembers where the input stands. A snapshot sets the hints aside. -/
  | checkpoint (handler : ι) (snapshot : Bool)
  /-- Removes the handler and jumps. -/
  | commit (target : ι)
  /-- Removes the handler and jumps; the input stays consumed. -/
  | release (target : ι)
  /-- Removes the handler, gives the input back and jumps. -/
  | restore (target : ι)
  /-- Removes the handler, gives the input back and fails. -/
  | negFail
  /-- Ends a labelled parser that succeeded. -/
  | labelOk (name : Option String) (target : ι)
  /-- Ends one round of a repetition. -/
  | loop (body exit : ι) (push : Bool)
  -- Where handlers point.
  /-- Goes on if nothing was consumed, else fails on. -/
  | recover
  /-- Gives the input back and fails on. -/
  | rewind
  /-- Gives the input back and succeeds. -/
  | negSucceed (push : Bool)
  /-- Renames what a labelled parser expected, and fails on. -/
  | labelErr (name : Option String)
  /-- Ends a repetition if nothing was consumed, else fails on. -/
  | manyDone
  /-- Makes a value of the error in flight, or amends it and fails on. -/
  | guardErr (mode : GuardMode τ) (push : Bool)
  -- Spans.
  /-- Remembers where the input stands. -/
  | mark
  /-- Takes the tokens since the last mark. -/
  | slice (mode : SliceMode)

variable {τ : Type} [Token τ]

namespace Output

/-- The output followed by a function. -/
def andThen (f : Value τ → Value τ) : Output τ → Output τ
  | discard => discard
  | keep => map f
  | map g => map fun v => f (g v)

end Output

namespace Instr

variable {ι κ : Type}

/-- Every jump target, in order. -/
def targets : Instr τ ι → List ι
  | call t | jump t | case t | checkpoint t _ | commit t | release t | restore t
  | labelOk _ t => [t]
  | loop body exit _ => [body, exit]
  | dispatch _ ts _ _ fallback => ts ++ fallback.toList
  | _ => []

/-- The instruction with every jump target replaced, in order; where one cannot be, the first such
failure. -/
def retarget {m : Type → Type} [Monad m] (f : ι → m κ) : Instr τ ι → m (Instr τ κ)
  | call t => return .call (← f t)
  | jump t => return .jump (← f t)
  | case t => return .case (← f t)
  | checkpoint t snapshot => return .checkpoint (← f t) snapshot
  | commit t => return .commit (← f t)
  | release t => return .release (← f t)
  | restore t => return .restore (← f t)
  | labelOk name t => return .labelOk name (← f t)
  | loop body exit pushes => return .loop (← f body) (← f exit) pushes
  | dispatch table ts before all fallback =>
    return .dispatch table (← ts.mapM f) before all (← fallback.mapM f)
  | push v => return .push v
  | pop => return .pop
  | map g => return .map g
  | lift2 g => return .lift2 g
  | newList => return .newList
  | single t e out => return .single t e out
  | satisfy test e out => return .satisfy test e out
  | literal ts v e out => return .literal ts v e out
  | satisfyMany test e pushes => return .satisfyMany test e pushes
  | eof e => return .eof e
  | fail g => return .fail g
  | empty => return .empty
  | expect e => return .expect e
  | hint e => return .hint e
  | ret => return .ret
  | negFail => return .negFail
  | recover => return .recover
  | rewind => return .rewind
  | negSucceed pushes => return .negSucceed pushes
  | labelErr name => return .labelErr name
  | manyDone => return .manyDone
  | guardErr mode pushes => return .guardErr mode pushes
  | mark => return .mark
  | slice mode => return .slice mode

/-- Whether the machine never goes on with the next instruction, unless by a jump or a handler. -/
def isTerminal : Instr τ ι → Bool
  | jump _ | ret | commit _ | release _ | restore _ | negFail | labelOk _ _ | loop _ _ _
  | rewind | labelErr _ | fail _ | empty | expect _ | dispatch _ _ _ _ _ => true
  | _ => false

/-! ### Listing -/

/-- A remark that is shown only where it holds. -/
def remark (holds : Bool) (text : String) : String := if holds then " " ++ text else ""

/-- How an output is shown. -/
def renderOutput : Output τ → String
  | .discard => ""
  | .keep => " push"
  | .map _ => " map"

/-- How a label is shown. -/
def renderLabel (name : Option String) : String := name.getD "<hidden>"

/-- The entries of a dispatch table, by the name of the token and then by the number of the
target. -/
def renderTable (target : ι → String) (table : List (τ × Nat)) (targets : List ι) : String :=
  let entries := table.map fun (t, k) => (Token.describe [t], k)
  let order := compareLex (compareOn Prod.fst) (compareOn Prod.snd)
  let inOrder := entries.mergeSort fun a b => (order a b).isLE
  String.intercalate ", "
    (inOrder.map fun (name, k) => name ++ "->" ++ ((targets[k]?).map target).getD "")

/-- The instruction in a listing; `target` shows a jump target. -/
def render (target : ι → String) : Instr τ ι → String
  | push _ => "push"
  | pop => "pop"
  | map _ => "map"
  | lift2 _ => "lift2"
  | newList => "new_list"
  | single t _ out => "single " ++ Token.describe [t] ++ renderOutput out
  | satisfy _ e out => "satisfy [" ++ ExpectedSet.render e ++ "]" ++ renderOutput out
  | literal ts _ _ out => "literal " ++ Token.describe ts ++ renderOutput out
  | satisfyMany _ e pushes =>
    "satisfy_many [" ++ ExpectedSet.render e ++ "]" ++ remark pushes "push"
  | eof _ => "eof"
  | fail f => "fail " ++ f.render
  | empty => "empty"
  | expect e => "expect [" ++ ExpectedSet.render e ++ "]"
  | hint e => "hint [" ++ ExpectedSet.render e ++ "]"
  | call t => "call " ++ target t
  | ret => "return"
  | jump t => "jump " ++ target t
  | case t => "case left=" ++ target t
  | dispatch table ts _ _ fallback =>
    "dispatch \x7b" ++ renderTable target table ts ++ "\x7d" ++
      (fallback.map fun t => " else " ++ target t).getD ""
  | checkpoint t snapshot => "checkpoint " ++ target t ++ remark snapshot "snapshot"
  | commit t => "commit " ++ target t
  | release t => "release " ++ target t
  | restore t => "restore " ++ target t
  | negFail => "neg_fail"
  | labelOk name t => "label_ok " ++ renderLabel name ++ " " ++ target t
  | loop body exit pushes =>
    "loop " ++ target body ++ " " ++ target exit ++ remark pushes "push"
  | recover => "recover"
  | rewind => "rewind"
  | negSucceed pushes => "neg_succeed" ++ remark pushes "push"
  | labelErr name => "label_err " ++ renderLabel name
  | manyDone => "many_done"
  | guardErr .capture pushes => "catch_err capture" ++ remark pushes "push"
  | guardErr (.amend _) pushes | guardErr (.merge _) pushes =>
    "catch_err rewrite" ++ remark pushes "push"
  | mark => "mark"
  | slice .chunk => "slice"
  | slice .pair => "slice pair"

end Instr

end ParserMachine

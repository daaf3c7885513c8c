import ParserMachine.Machine.Stack
import ParserMachine.Program

/-!
# The state of the machine

The machine reads a buffer of tokens, to which more may be added while `more` holds, and keeps four
stacks: values, return positions, handlers and checks. A check remembers where the input stood. A
handler remembers how high the other stacks were, so that a failure can cut them back to that
height.

Errors are kept in two places. `error` is the one in flight, on its way to a handler. `hints` is the
merge of all errors that were survived but may still matter to the final report.
-/

namespace ParserMachine

/-- A way in which a program that is not well formed stops the machine. -/
inductive Fault where
  /-- There is no value to take. -/
  | noValue (pc : Nat)
  /-- There is no check to take. -/
  | noCheck (pc : Nat)
  /-- A branch looks at a value that is no verdict. -/
  | noVerdict (pc : Nat)
  /-- A dispatch table leads to a target that does not exist. -/
  | noTarget (pc : Nat)
deriving DecidableEq

/-- The fault in words. -/
def Fault.message : Fault → String
  | noValue pc => "data stack underflow at instruction " ++ toString pc
  | noCheck pc => "no input check at instruction " ++ toString pc
  | noVerdict pc =>
    "branch at instruction " ++ toString pc ++
      " expected an \x60Either\x60 value; the expression was built with mismatched types"
  | noTarget pc => "no dispatch target at instruction " ++ toString pc

/-- Whether and why the machine stands still. -/
inductive Status where
  /-- It can go on. -/
  | running
  /-- It needs a token that has not arrived yet. -/
  | suspended
  /-- A failure met no handler. -/
  | failed
  /-- The program is not well formed. -/
  | faulted (f : Fault)
deriving DecidableEq

/-- Where to go on after a failure, and how high the other stacks were. -/
structure Handler where
  /-- Where to go on. -/
  pc : Nat
  /-- How many values there were. -/
  data : Nat
  /-- How many return positions there were. -/
  calls : Nat
  /-- How many checks there were. -/
  checks : Nat
deriving DecidableEq

/-- Where the input stood. -/
structure Check (τ : Type) [Token τ] where
  /-- How many tokens were consumed. -/
  offset : Nat
  /-- The hints that a snapshot set aside, if one was made. -/
  saved : Option (Option (ParseError τ))

/-- The state of the machine. -/
structure State (τ : Type) [Token τ] where
  /-- The tokens that have arrived. -/
  input : Array τ
  /-- Whether more tokens may arrive. -/
  more : Bool
  /-- How many tokens are consumed. -/
  offset : Nat := 0
  /-- The position of the next instruction. -/
  pc : Nat := 0
  /-- Whether the machine can go on. -/
  status : Status := .running
  /-- The values. -/
  data : Stack (Value τ) := .empty
  /-- The positions to return to. -/
  calls : Stack Nat := .empty
  /-- The handlers, the innermost first. -/
  handlers : List Handler := []
  /-- The checks. -/
  checks : Stack (Check τ) := .empty
  /-- The error in flight. -/
  error : Option (ParseError τ) := none
  /-- The merge of the errors that were survived. -/
  hints : Option (ParseError τ) := none
  /-- The items of a one-instruction repetition that ran out of input. -/
  parked : Array (Value τ) := #[]
  /-- How often user errors were made anew. -/
  renewals : Nat := 0

/-- The result of a run, with the tokens that were not consumed. -/
inductive Outcome (τ : Type) [Token τ] where
  /-- The parser succeeded. -/
  | done (v : Value τ) (rest : List τ)
  /-- The parser failed. -/
  | failed (e : ParseError τ) (rest : List τ)
  /-- The program is not well formed. -/
  | faulted (f : Fault)

namespace State

variable {τ : Type} [Token τ]

/-- The token at the cursor. -/
def current? (s : State τ) : Option τ := s.input[s.offset]?

/-- What stands at the cursor, for a report. -/
def here (s : State τ) : ErrorItem τ :=
  match s.current? with
  | some t => .tokens [t]
  | none => .endOfInput

/-- The report that something else was expected at the cursor. -/
def errorHere (s : State τ) (expected : ExpectedSet τ) : ParseError τ :=
  .trivial s.offset (some s.here) expected

/-- Whether the token at the cursor has yet to arrive. -/
def needsInput (s : State τ) : Bool := s.more && s.input.size ≤ s.offset

/-- Goes on at a position. -/
def goto (pc : Nat) (s : State τ) : State τ := { s with pc }

/-- Goes on with the next instruction. -/
def next (s : State τ) : State τ := { s with pc := s.pc + 1 }

/-- Puts a value on the stack. -/
def push (v : Value τ) (s : State τ) : State τ := { s with data := s.data.push v }

/-- Stops because the program is not well formed. -/
def fault (f : Nat → Fault) (s : State τ) : State τ := { s with status := .faulted (f s.pc) }

/-- Waits for input; the same instruction is run again when it has come. -/
def suspend (s : State τ) : State τ := { s with status := .suspended }

/-- Records an error that was survived. -/
def hint (e : ParseError τ) (s : State τ) : State τ :=
  { s with hints := ParseError.mergeOpt s.hints (some e) }

/-- Takes hints that were set aside back in. -/
def reinstate (saved : Option (Option (ParseError τ))) (s : State τ) : State τ :=
  match saved with
  | none => s
  | some h => { s with hints := ParseError.mergeOpt h s.hints }

/-- The error in flight; without one, an error that says nothing. -/
def inFlight (s : State τ) : ParseError τ := s.error.getD (.unknown s.offset)

/-- Removes the innermost handler. -/
def dropHandler (s : State τ) : State τ := { s with handlers := s.handlers.tail }

/-- Goes on at the innermost handler, with the other stacks cut back to where they were; without
one the run has failed. -/
def unwind (s : State τ) : State τ :=
  match s.handlers with
  | [] => { s with status := .failed }
  | h :: rest =>
    { s with
      handlers := rest
      pc := h.pc
      data := s.data.lowest h.data
      calls := s.calls.lowest h.calls
      checks := s.checks.lowest h.checks }

/-- Raises an error. -/
def fail (e : ParseError τ) (s : State τ) : State τ := unwind { s with error := some e }

/-- Takes the top value. -/
@[inline] def withValue (s : State τ) (k : Value τ → State τ → State τ) : State τ :=
  match s.data.pop? with
  | none => s.fault .noValue
  | some (v, rest) => k v { s with data := rest }

/-- Takes the top check. -/
@[inline] def withCheck (s : State τ) (k : Check τ → State τ → State τ) : State τ :=
  match s.checks.pop? with
  | none => s.fault .noCheck
  | some (c, rest) => k c { s with checks := rest }

/-- What comes of a matched value. -/
def emit (out : Output τ) (v : Value τ) (s : State τ) : State τ :=
  match out with
  | .discard => s
  | .keep => s.push v
  | .map f => s.push (f v)

/-- The result of a run that has ended: the error in flight merged with the hints, or the top
value. -/
def outcome (s : State τ) : Outcome τ :=
  let rest := (s.input.extract s.offset s.input.size).toList
  match s.status with
  | .faulted f => .faulted f
  | .failed =>
    .failed ((ParseError.mergeOpt s.hints s.error).getD (.unknown (min s.offset s.input.size))) rest
  | _ => .done (s.data.top?.getD .unit) rest

end State

end ParserMachine

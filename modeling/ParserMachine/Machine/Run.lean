import ParserMachine.Machine.Step

/-!
# Running programs

A program runs on a whole input or on one that arrives in chunks. A streaming parse is over only
once the end of the stream was told, so that its outcome is that of the whole input.

A run need not end, so every function here is given how many steps the machine may make, and gives
nothing if they were too few.
-/

namespace ParserMachine

variable {τ : Type} [Token τ]

namespace Program

/-- One step, if the machine can go on. -/
@[inline] def step? (p : Program τ) (s : State τ) : Option (State τ) :=
  if s.status = .running then (p.code[s.pc]?).map (s.exec p.size) else none

/-- Steps until the machine stands still; nothing if more than `steps` are needed. -/
def run (p : Program τ) : Nat → State τ → Option (State τ)
  | 0, s => if (p.step? s).isNone then some s else none
  | steps + 1, s =>
    match p.step? s with
    | none => some s
    | some s' => run p steps s'

/-- Parses a whole input. -/
def parse (p : Program τ) (steps : Nat) (input : List τ) : Option (Outcome τ) :=
  (p.run steps { input := input.toArray, more := false }).map State.outcome

end Program

/-- The state of a parse whose input arrives in chunks. -/
inductive Streaming (τ : Type) [Token τ] where
  /-- The stream has ended and the parse is over. -/
  | complete (o : Outcome τ)
  /-- The parse waits for input, or to be told that there is none. -/
  | waiting (s : State τ)

namespace State

/-- More input, or with `none` the end of the stream. A suspended machine can go on. -/
def feed (chunk : Option (List τ)) (s : State τ) : State τ :=
  let s := if s.status = .suspended then { s with status := .running } else s
  match chunk with
  | some ts => { s with input := s.input ++ ts.toArray }
  | none => { s with more := false }

/-- Whether the program was not well formed. -/
def isFaulted (s : State τ) : Bool :=
  match s.status with
  | .faulted _ => true
  | _ => false

/-- The state of the parse when the machine stands still. -/
def streaming (s : State τ) : Streaming τ :=
  if (s.status = .suspended || s.more) && !s.isFaulted then .waiting s else .complete s.outcome

end State

namespace Program

/-- Begins a parse with a first chunk. -/
def begin (p : Program τ) (steps : Nat) (chunk : List τ) : Option (Streaming τ) :=
  (p.run steps { input := chunk.toArray, more := true }).map State.streaming

/-- Goes on with the next chunk, or with `none` at the end of the stream. A parse that is over
stays as it is. -/
def resume (p : Program τ) (steps : Nat) (chunk : Option (List τ)) :
    Streaming τ → Option (Streaming τ)
  | .complete o => some (.complete o)
  | .waiting s => (p.run steps (s.feed chunk)).map State.streaming

/-- The outcome, with the end of the stream told if it was not. -/
def conclude (p : Program τ) (steps : Nat) (s : Streaming τ) : Option (Outcome τ) := do
  match ← p.resume steps none s with
  | .complete o => return o
  | .waiting s => return s.outcome

/-- Goes on with several chunks and ends the stream. -/
def finish (p : Program τ) (steps : Nat) (chunks : List (List τ)) (s : Streaming τ) :
    Option (Outcome τ) := do
  p.conclude steps (← chunks.foldlM (fun s c => p.resume steps (some c) s) s)

end Program

end ParserMachine

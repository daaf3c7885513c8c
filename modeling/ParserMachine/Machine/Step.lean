import ParserMachine.Machine.State

/-!
# What the instructions do

`State.exec` runs one instruction. An instruction that needs a token which has not arrived yet
changes nothing but the status (`State.suspend`), so that it can be run again; only a repetition in
one instruction keeps what it has read so far.
-/

namespace ParserMachine

variable {τ : Type} [Token τ]

/-! ### Matching -/

/-- The first position from `i` on whose token does not pass a test, or the end of the input. -/
def spanEnd (test : τ → Bool) (input : Array τ) (i : Nat) : Nat :=
  if h : i < input.size then
    if test input[i] then spanEnd test input (i + 1) else i
  else i
termination_by input.size - i

/-- How many of the tokens `ts` stand in the input from `i` on before the first mismatch. -/
def matchLength (input : Array τ) : Nat → List τ → Nat
  | _, [] => 0
  | i, t :: ts => if input[i]? = some t then matchLength input (i + 1) ts + 1 else 0

namespace State

/-- One token that is accepted. -/
def one (accept : τ → Bool) (expected : ExpectedSet τ) (out : Output τ) (s : State τ) : State τ :=
  match s.current? with
  | some t =>
    if accept t then (State.emit out (.tok t) { s with offset := s.offset + 1 }).next
    else s.fail (s.errorHere expected)
  | none => if s.more then s.suspend else s.fail (s.errorHere expected)

/-- All of the tokens `ts`. On a mismatch what matched stays consumed, and the error lies at the
first token that differs. -/
def literal (ts : List τ) (v : Value τ) (expected : ExpectedSet τ) (out : Output τ)
    (s : State τ) : State τ :=
  let k := matchLength s.input s.offset ts
  let moved := { s with offset := s.offset + k }
  if k = ts.length then (moved.emit out v).next
  else if s.more && s.input.size ≤ s.offset + k then s.suspend
  else moved.fail (moved.errorHere expected)

/-- Tokens while they pass a test. The token that ends the run is recorded as a hint. -/
def satisfyMany (test : τ → Bool) (expected : ExpectedSet τ) (pushes : Bool) (s : State τ) :
    State τ :=
  let stop := spanEnd test s.input s.offset
  let read := if pushes then (s.input.extract s.offset stop).map Value.tok else #[]
  let items := s.parked ++ read
  let moved := { s with offset := stop, parked := #[] }
  if s.more && s.input.size ≤ stop then { moved with parked := items }.suspend
  else
    let hinted := moved.hint (moved.errorHere expected)
    (if pushes then hinted.push (.list items) else hinted).next

/-- The end of the input. -/
def endOfInput (expected : ExpectedSet τ) (s : State τ) : State τ :=
  match s.current? with
  | some _ => s.fail (s.errorHere expected)
  | none => if s.more then s.suspend else s.next

/-- Fails at the current token, once it is known. -/
def expect (expected : ExpectedSet τ) (s : State τ) : State τ :=
  if s.needsInput then s.suspend else s.fail (s.errorHere expected)

/-- Chooses by the current token, once it is known. What the alternatives that are passed over
expected is recorded as a hint. -/
def dispatch (table : List (τ × Nat)) (targets : List Nat) (before : List (ExpectedSet τ))
    (all : ExpectedSet τ) (fallback : Option Nat) (s : State τ) : State τ :=
  if s.needsInput then s.suspend
  else
    match s.current?.bind fun t => table.lookup t with
    | some k =>
      match before[k]?, targets[k]? with
      | some e, some t => (if e.isEmpty then s else s.hint (s.errorHere e)).goto t
      | _, _ => s.fault .noTarget
    | none =>
      match fallback with
      | some f => (s.hint (s.errorHere all)).goto f
      | none => s.fail (s.errorHere all)

/-! ### Handlers and checks -/

/-- Installs a handler. -/
def checkpoint (handler : Nat) (snapshot : Bool) (s : State τ) : State τ :=
  let check : Check τ := ⟨s.offset, if snapshot then some s.hints else none⟩
  { s with
    hints := if snapshot then none else s.hints
    checks := s.checks.push check
    handlers := ⟨handler, s.data.height, s.calls.height, s.checks.height + 1⟩ :: s.handlers
    pc := s.pc + 1 }

/-- Removes the handler, and gives the input back if `rewinds` holds. -/
def leave (rewinds : Bool) (target : Nat) (s : State τ) : State τ :=
  s.dropHandler.withCheck fun c s =>
    ({ s with offset := if rewinds then c.offset else s.offset }.reinstate c.saved).goto target

/-- The parser that must not succeed has succeeded. If it consumed nothing, the report needs the
current token. -/
def negFail (s : State τ) : State τ :=
  match s.checks.pop? with
  | none => s.fault .noCheck
  | some (c, rest) =>
    if s.offset = c.offset && s.needsInput then s.suspend
    else
      let found := if c.offset < s.offset then
          .tokens (s.input.extract c.offset s.offset).toList
        else s.here
      fail (.trivial c.offset (some found) .empty)
        { s.dropHandler with
          checks := rest
          hints := c.saved.getD s.hints
          offset := c.offset }

/-- A labelled parser has succeeded. If it consumed nothing, the label stands for all that it
reported where it began; a hidden parser's reports are dropped. -/
def labelOk (name : Option String) (target : Nat) (s : State τ) : State τ :=
  s.dropHandler.withCheck fun c s =>
    let inside := if s.offset = c.offset then
        ParseError.mergeOpt (s.hints.filter fun h => h.offset > c.offset)
          (name.map fun l => .trivial c.offset none (ExpectedSet.label l))
      else if name.isNone then none
      else s.hints
    { s with hints := ParseError.mergeOpt (c.saved.getD none) inside }.goto target

/-- Adds an item to the list below it. -/
def collect (s : State τ) : State τ :=
  s.withValue fun v s => s.withValue fun list s => s.push (list.append v)

/-- One round of a repetition has ended. It is repeated if it consumed something. -/
def loop (body exit : Nat) (s : State τ) : State τ :=
  match s.checks.pop? with
  | none => s.fault .noCheck
  | some (c, rest) =>
    if c.offset = s.offset then
      ({ s.dropHandler with checks := rest }.reinstate c.saved).goto exit
    else { s with checks := rest.push { c with offset := s.offset } }.goto body

/-- Survives the error in flight if nothing was consumed. -/
def recover (s : State τ) : State τ :=
  s.withCheck fun c s =>
    let s := s.reinstate c.saved
    if s.offset = c.offset then ({ s with error := none }.hint s.inFlight).next else s.unwind

/-- Gives the input back and fails on. -/
def rewind (s : State τ) : State τ :=
  s.withCheck fun c s => ({ s with offset := c.offset }.reinstate c.saved).unwind

/-- The parser that must not succeed has failed. -/
def negSucceed (pushes : Bool) (s : State τ) : State τ :=
  s.withCheck fun c s =>
    let s := { s with offset := c.offset, hints := c.saved.getD s.hints, error := none }
    (if pushes then s.push .unit else s).next

/-- A labelled parser has failed. If the error lies where the parser began, the label stands for
what was expected there. -/
def labelErr (name : Option String) (s : State τ) : State τ :=
  s.withCheck fun c s =>
    let e := s.inFlight
    let atStart := e.offset = c.offset
    let inside := if atStart then s.hints.filter fun h => h.offset ≠ c.offset else s.hints
    unwind { s with
      error := some (if atStart then e.withExpected ((name.map ExpectedSet.label).getD .empty)
        else e)
      hints := ParseError.mergeOpt (c.saved.getD none) inside }

/-- An error goes on that was amended by the guard whose checkpoint set `saved` aside. Of the hints
only those beyond it stay. -/
def failAmended (e : ParseError τ) (saved : Option (Option (ParseError τ))) (s : State τ) :
    State τ :=
  let hints := ParseError.mergeOpt (saved.getD none) s.hints
  unwind { s with
    error := some e
    hints := hints.filter fun h => h.offset > e.offset }

/-- A guarded parser has failed: its error becomes a value, or is amended and goes on. -/
def guardErr (mode : GuardMode τ) (pushes : Bool) (s : State τ) : State τ :=
  s.withCheck fun c s =>
    match mode with
    | .capture =>
      let s := { s with offset := c.offset, hints := c.saved.getD s.hints }
      let e := s.inFlight
      let s := { s with error := none }
      (if pushes then s.push (.err e) else s).next
    | .amend f => s.failAmended (f s.inFlight) c.saved
    | .merge other =>
      let time := s.renewals + 1
      { s with renewals := time }.failAmended (s.inFlight.merge (other.renew time)) c.saved

/-- The tokens since the last mark. -/
def slice (mode : SliceMode) (s : State τ) : State τ :=
  s.withCheck fun c s =>
    let span := (s.input.extract c.offset s.offset).toList
    match mode with
    | .chunk => (s.push (.chunk span)).next
    | .pair => s.withValue fun v s => (s.push (.pair (.chunk span) v)).next

/-- Looks at a verdict. -/
def case (left : Nat) (s : State τ) : State τ :=
  s.withValue fun v s' =>
    match v with
    | .leftBranch w => (s'.push w).goto left
    | .rightBranch w => (s'.push w).next
    | _ => s.fault .noVerdict

/-! ### All instructions -/

/-- Runs one instruction of a program of `size` instructions. -/
def exec (size : Nat) (s : State τ) : Instr τ Nat → State τ
  | .push v => (s.push v).next
  | .pop => s.withValue fun _ s => s.next
  | .map f => s.withValue fun v s => (s.push (f v)).next
  | .lift2 f => s.withValue fun w s => s.withValue fun v s => (s.push (f v w)).next
  | .newList => (s.push (.list #[])).next
  | .single t e out => s.one (fun u => u = t) e out
  | .satisfy test e out => s.one test e out
  | .literal ts v e out => s.literal ts v e out
  | .satisfyMany test e pushes => s.satisfyMany test e pushes
  | .eof e => s.endOfInput e
  | .fail f => s.fail (f.raise s.offset)
  | .empty => s.fail (.unknown s.offset)
  | .expect e => s.expect e
  | .hint e => (s.hint (.trivial s.offset none e)).next
  | .call t => { s with calls := s.calls.push (s.pc + 1), pc := t }
  | .ret => { s with calls := s.calls.below, pc := s.calls.top?.getD size }
  | .jump t => s.goto t
  | .case t => s.case t
  | .dispatch table ts before all fallback => s.dispatch table ts before all fallback
  | .checkpoint h snapshot => s.checkpoint h snapshot
  | .commit t | .release t => s.leave false t
  | .restore t => s.leave true t
  | .negFail => s.negFail
  | .labelOk name t => s.labelOk name t
  | .loop body exit pushes => (if pushes then s.collect else s).loop body exit
  | .recover | .manyDone => s.recover
  | .rewind => s.rewind
  | .negSucceed pushes => s.negSucceed pushes
  | .labelErr name => s.labelErr name
  | .guardErr mode pushes => s.guardErr mode pushes
  | .mark => { s with checks := s.checks.push ⟨s.offset, none⟩ }.next
  | .slice mode => s.slice mode

end State

end ParserMachine

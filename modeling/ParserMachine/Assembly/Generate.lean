import ParserMachine.Assembly.Dispatch
import ParserMachine.Assembly.Draft
import ParserMachine.CompileError
import ParserMachine.Options

/-!
# Code for expressions

Every expression has code in two modes. In the value mode it leaves its result on top of the data
stack, in the discard mode it leaves the stack as it was. The code of a form is the code of its
parts with instructions around it:

* a form that reacts to failure (`attempt`, `lookAhead`, `label`, …) is
  `checkpoint h; part; ⟨leave⟩ end; h: ⟨react⟩; end:`
* a repetition is `newList; checkpoint h; body: part; loop body end; h: manyDone; end:`
* alternatives are `checkpoint h; part; commit end; h: recover; …; last part; end:`, or a dispatch
  table where their first tokens tell them apart

A form takes its labels before its parts take theirs. Alternatives of alternatives are one list, so
the recursion (`Expr.operands`) gives the operands of an expression, each with its code, and a
list of operands that has more than one is an alternation.
-/

namespace ParserMachine

variable {τ : Type} [Token τ]

/-- Writing code: hands out labels, and may meet a call of a subroutine that does not exist. -/
abbrev Emit := StateT Label (Except CompileError)

namespace Emit

/-- A label that was not used before. -/
def fresh : Emit Label := modifyGet fun l => (l, l + 1)

/-- So many labels that were not used before. -/
def freshLabels (n : Nat) : Emit (List Label) := (List.replicate n ()).mapM fun _ => fresh

end Emit

/-- What code generation depends on. -/
structure Target (τ : Type) [Token τ] where
  /-- Which kinds of code are used. -/
  options : Options
  /-- The subroutines that calls refer to. The label of a subroutine is that of its entry. -/
  subroutines : Array (Subroutine τ)

/-- An operand of an alternation, with its code: `emit true` discards the result. -/
structure Operand (τ : Type) [Token τ] where
  /-- The operand. -/
  expr : Expr τ
  /-- Its code. -/
  emit : Bool → Emit (Draft τ)

/-- The output of an instruction that matches. -/
def Output.ofMode (discard : Bool) : Output τ := if discard then .discard else .keep

namespace Draft

/-- An instruction that is needed only where `holds`. -/
def only (holds : Bool) (i : Instr τ Label) : Draft τ := if holds then instr i else nothing

/-- A part with a handler: `leave` ends it where it succeeds, `react` stands at the handler. -/
def guarded (snapshot : Bool) (part : Emit (Draft τ)) (leave : Label → Draft τ)
    (react : Instr τ Label) : Emit (Draft τ) := do
  let handler ← Emit.fresh
  let stop ← Emit.fresh
  return instr (.checkpoint handler snapshot) ++ (← part) ++ leave stop ++
    lines [.mark handler, .instr react, .mark stop]

/-- The code of a repetition. -/
def repetition (discard : Bool) (part : Bool → Emit (Draft τ)) : Emit (Draft τ) := do
  let body ← Emit.fresh
  let handler ← Emit.fresh
  let stop ← Emit.fresh
  return only (!discard) .newList ++ lines [.instr (.checkpoint handler false), .mark body] ++
    (← part discard) ++
    lines [.instr (.loop body stop !discard), .mark handler, .instr .manyDone, .mark stop]

/-- The code of a branch. -/
def branch (f : Value τ → Value τ → Value τ) (p q : Bool → Emit (Draft τ)) (discard : Bool) :
    Emit (Draft τ) := do
  let left ← Emit.fresh
  let stop ← Emit.fresh
  return (← p false) ++ lines [.instr (.case left), .instr (.jump stop), .mark left] ++
    (← q false) ++ lines [.instr (.lift2 f), .mark stop] ++ only discard .pop

end Draft

/-- The code of a leaf. -/
def Leaf.emit (tgt : Target τ) (discard : Bool) : Leaf τ → Emit (Draft τ)
  | pure v => return .only (!discard) (.push v)
  | fail f => return .instr (.fail f)
  | empty => return .instr .empty
  | satisfy test e => return .instr (.satisfy test e (.ofMode discard))
  | single t e => return .instr (.single t e (.ofMode discard))
  | literal ts v e => return .instr (.literal ts v e (.ofMode discard))
  | eof =>
    return Draft.instr (.eof (SortedSet.single .endOfInput)) ++ .only (!discard) (.push .unit)
  | call l _ => do
    if l < tgt.subroutines.size then return Draft.instr (.call l) ++ .only discard .pop
    else throw (.unresolvedLabel l)

/-- The test and the expectation of a parser that accepts one token. -/
def Expr.oneToken? : Expr τ → Option ((τ → Bool) × ExpectedSet τ)
  | leaf (.single t e) => some (fun u => u = t, e)
  | leaf (.satisfy test e) => some (test, e)
  | _ => none

/-- The code of a unary form over `p`, whose own code is `part`. -/
def Unary.emit (tgt : Target τ) (p : Expr τ) (part : Bool → Emit (Draft τ)) (discard : Bool) :
    Unary τ → Emit (Draft τ)
  | map f => return (← part discard) ++ .only (!discard) (.map f)
  | lookAhead => Draft.guarded false (part discard) (fun l => .instr (.restore l)) .rewind
  | notFollowedBy => do
    let handler ← Emit.fresh
    return Draft.instr (.checkpoint handler true) ++ (← part true) ++
      .lines [.instr .negFail, .mark handler, .instr (.negSucceed !discard)]
  | attempt => Draft.guarded false (part discard) (fun l => .instr (.release l)) .rewind
  | many =>
    match if tgt.options.fuseRepetition then p.oneToken? else none with
    | some (test, e) => return .instr (.satisfyMany test e !discard)
    | none => Draft.repetition discard part
  | chunk =>
    if discard then part true
    else return Draft.instr .mark ++ (← part true) ++ .instr (.slice .chunk)
  | matchChunk =>
    if discard then part true
    else return Draft.instr .mark ++ (← part false) ++ .instr (.slice .pair)
  | label name =>
    Draft.guarded true (part discard) (fun l => .instr (.labelOk name l)) (.labelErr name)
  | guard .capture =>
    Draft.guarded true (part discard)
      (fun l => .only (!discard) (.map .ok) ++ .instr (.release l)) (.guardErr .capture !discard)
  | guard mode =>
    Draft.guarded true (part discard) (fun l => .instr (.release l)) (.guardErr mode false)

/-- The code of a sequence. -/
def SeqKind.emit (p q : Bool → Emit (Draft τ)) (discard : Bool) : SeqKind τ → Emit (Draft τ)
  | both f => return (← p discard) ++ (← q discard) ++ .only (!discard) (.lift2 f)
  | left => return (← p discard) ++ (← q true)
  | right => return (← p true) ++ (← q discard)

/-! ### Alternatives -/

namespace Draft

/-- The codes of alternatives that are tried in order; `handlers` has one label for each but the
last. -/
def tryInOrder (stop : Label) : List Label → List (Draft τ) → Draft τ
  | h :: hs, c :: cs =>
    instr (.checkpoint h false) ++ c ++
      lines [.instr (.commit stop), .mark h, .instr .recover] ++ tryInOrder stop hs cs
  | [], c :: _ => c ++ mark stop
  | _, [] => mark stop

/-- Alternatives that are tried in order. -/
def chain (alts : List (Operand τ)) (discard : Bool) : Emit (Draft τ) := do
  let stop ← Emit.fresh
  let handlers ← Emit.freshLabels (alts.length - 1)
  return tryInOrder stop handlers (← alts.mapM fun a => a.emit discard)

/-- An alternative that a table chooses. If others may be tried after it, it has a handler, after
which the fallback goes on, or what the others expect is reported. -/
def chosen (stop : Label) (fallback : Option Label) (target : Label) (handler : Option Label)
    (after : ExpectedSet τ) (part : Draft τ) : Draft τ :=
  match handler with
  | none => mark target ++ part ++ instr (.jump stop)
  | some h =>
    lines [.mark target, .instr (.checkpoint h false)] ++ part ++
      lines [.instr (.commit stop), .mark h, .instr .recover] ++
      match fallback with
      | some f => only (!after.isEmpty) (.hint after) ++ instr (.jump f)
      | none => instr (.expect after)

/-- The codes of the alternatives of a table, one after another. -/
def allChosen (stop : Label) (fallback : Option Label) :
    List Label → List (Option Label) → List (ExpectedSet τ) → List (Draft τ) → Draft τ
  | t :: ts, h :: hs, e :: es, c :: cs =>
    chosen stop fallback t h e c ++ allChosen stop fallback ts hs es cs
  | _, _, _, _ => nothing

/-- Alternatives of which a table chooses some, and `others` are tried in order after those. -/
def dispatch (table : List (Operand τ × Lead τ)) (others : List (Operand τ)) (discard : Bool) :
    Emit (Draft τ) := do
  let leads := table.map Prod.snd
  let after := Dispatch.after leads
  let stop ← Emit.fresh
  let fallback ← if others.isEmpty then pure none else some <$> Emit.fresh
  let targets ← Emit.freshLabels table.length
  let handlers ← after.mapM fun e =>
    if others.isEmpty && e.isEmpty then pure none else some <$> Emit.fresh
  let chainLabels ← if others.isEmpty then pure [] else Emit.freshLabels others.length
  let parts ← table.mapM fun a => a.1.emit discard
  let otherParts ← others.mapM fun a => a.emit discard
  let chain := match fallback, chainLabels with
    | some f, chainStop :: chainHandlers => mark f ++ tryInOrder chainStop chainHandlers otherParts
    | _, _ => nothing
  return instr (.dispatch (Dispatch.entries leads) targets (Dispatch.before leads)
      (Dispatch.all leads) fallback) ++
    allChosen stop fallback targets handlers after parts ++ chain ++ mark stop

/-- Alternatives: by a table, if the options ask for tables and at least two alternatives can be
told apart by their first token, else in order. -/
def alternation (tgt : Target τ) (alts : List (Operand τ)) (discard : Bool) : Emit (Draft τ) :=
  if tgt.options.dispatchTables then
    let (table, others) := Dispatch.sort (fun a => a.expr.lead tgt.subroutines) alts
    if table.length < 2 then chain alts discard else dispatch table others discard
  else chain alts discard

/-- The code of an expression that has these operands. -/
def ofOperands (tgt : Target τ) : List (Operand τ) → Bool → Emit (Draft τ)
  | [a], discard => a.emit discard
  | alts, discard => alternation tgt alts discard

end Draft

/-! ### Expressions -/

namespace Expr

/-- The operands of an expression as an alternation, each with its code, followed by `rest`; an
expression of another form is its only operand. -/
def operands (tgt : Target τ) : Expr τ → List (Operand τ) → List (Operand τ)
  | leaf l, rest => ⟨leaf l, fun discard => l.emit tgt discard⟩ :: rest
  | unary u p, rest =>
    ⟨unary u p, fun discard =>
      u.emit tgt p (Draft.ofOperands tgt (operands tgt p [])) discard⟩ :: rest
  | binary .alt p q, rest => operands tgt p (operands tgt q rest)
  | binary (.seq kind) p q, rest =>
    ⟨seq kind p q, fun discard =>
      kind.emit (Draft.ofOperands tgt (operands tgt p []))
        (Draft.ofOperands tgt (operands tgt q [])) discard⟩ :: rest
  | binary (.branch f) p q, rest =>
    ⟨binary (.branch f) p q, fun discard =>
      Draft.branch f (Draft.ofOperands tgt (operands tgt p []))
        (Draft.ofOperands tgt (operands tgt q [])) discard⟩ :: rest

/-- The code of an expression. -/
def emit (tgt : Target τ) (p : Expr τ) (discard : Bool) : Emit (Draft τ) :=
  Draft.ofOperands tgt (p.operands tgt []) discard

end Expr

namespace Bound

/-- The blocks of subroutines of which the first has the label `first`. -/
def emitBlocks (tgt : Target τ) : Nat → List (Subroutine τ) → Emit (List (Block τ))
  | _, [] => return []
  | first, s :: rest => do
    let code ← s.body.emit tgt false
    return ⟨first, first, code.toCode, s.recursive⟩ :: (← emitBlocks tgt (first + 1) rest)

/-- The code of the main expression in a mode, and of every subroutine. -/
def generateIn (discard : Bool) (o : Options) (b : Bound τ) : Except CompileError (Assembly τ) := do
  let tgt : Target τ := ⟨o, b.subroutines.toArray⟩
  let ((main, blocks), fresh) ← StateT.run
    (do return (← b.main.emit tgt discard, ← emitBlocks tgt 0 b.subroutines)) b.subroutines.length
  return ⟨main.toCode, blocks, fresh⟩

/-- The code of the main expression, whose result is needed, and of every subroutine. -/
def generate (o : Options) (b : Bound τ) : Except CompileError (Assembly τ) := b.generateIn false o

end Bound

end ParserMachine

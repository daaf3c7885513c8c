import ParserMachine.Expr.Noted
import ParserMachine.CompileError
import ParserMachine.Options

/-!
# Simplifying expressions

Local rules (`Expr.Noted.simplify?`) are applied at every node, parts before wholes, until none
matches; what a rule asks about a parser is noted beside it. A pass goes over the main expression
and every subroutine, and passes are repeated while some rule still fires (`Bound.optimize`).

Chains of one associative form are treated as a whole at their outermost node, which nests them to
the right: sequences that keep the last or the first result, and alternatives. A node inside such a
chain leaves it alone.

A repetition whose parser is known to succeed without consuming input would never end. It is
refused, also where no rule is applied.
-/

namespace ParserMachine

variable {τ : Type} [Token τ]

/-! ### Chains -/

/-- Whether the form is a sequence that keeps the first result. -/
def Binary.keepsFirst : Binary τ → Bool
  | .seq .left => true
  | _ => false

/-- Whether the form is a sequence that keeps the last result. -/
def Binary.keepsLast : Binary τ → Bool
  | .seq .right => true
  | _ => false

/-- Whether the form is an alternative. -/
def Binary.isAlt : Binary τ → Bool
  | .alt => true
  | _ => false

namespace Expr

/-- The operands of a chain of the forms that `joins` picks out, followed by `rest`. -/
def With.operands (joins : Binary τ → Bool) {f : Facts} :
    With τ f → List (Noted τ) → List (Noted τ)
  | .leaf l, rest => .leaf l :: rest
  | .unary u p, rest => ⟨_, .unary u p⟩ :: rest
  | .binary b p q, rest =>
    if joins b then p.operands joins (q.operands joins rest) else ⟨_, .binary b p q⟩ :: rest

namespace Noted

/-- The operands of a chain, followed by `rest`. -/
def operands (joins : Binary τ → Bool) (p : Noted τ) (rest : List (Noted τ)) : List (Noted τ) :=
  p.tree.operands joins rest

/-- Joins operands by a binary form, nested to the right. -/
def rightNested (b : Binary τ) : List (Noted τ) → Noted τ
  | [] => leaf .empty
  | [p] => p
  | p :: ps => binary b p (rightNested b ps)

/-! ### Rules -/

/-- Whether the expression fails at once. -/
def isFailing : Noted τ → Bool
  | ⟨_, .leaf .empty⟩ | ⟨_, .leaf (.fail _)⟩ => true
  | _ => false

/-- Rules for unary forms. -/
def simplifyUnary? : Unary τ → Noted τ → Option (Noted τ)
  | .map g, ⟨_, .leaf (.pure v)⟩ => some (leaf (.pure (g v)))
  | .map g, ⟨_, .unary (.map f) p⟩ => some ⟨_, .unary (.map fun v => g (f v)) p⟩
  | .map _, p => if p.isFailing then some p else none
  | .lookAhead, ⟨_, .unary .lookAhead p⟩ => some ⟨_, .unary .lookAhead p⟩
  | .lookAhead, ⟨_, .leaf (.pure v)⟩ => some (leaf (.pure v))
  | .notFollowedBy, ⟨_, .unary .notFollowedBy p⟩ =>
    some ⟨_, .unary (.map fun _ => .unit) (.unary .lookAhead p)⟩
  | .attempt, p => if p.facts.atomic then some p else none
  | .label name, ⟨_, .unary (.label _) p⟩ => some ⟨_, .unary (.label name) p⟩
  | .many, ⟨_, .leaf .empty⟩ => some (leaf (.pure (.list #[])))
  | .chunk, ⟨_, .leaf (.pure _)⟩ => some (leaf (.pure (.chunk [])))
  | _, _ => none

/-- The value that the expression succeeds with at once. -/
def constant? : Noted τ → Option (Value τ)
  | ⟨_, .leaf (.pure v)⟩ => some v
  | _ => none

/-- Rules for a sequence of which one operand is a constant. -/
def foldConstant? (kind : SeqKind τ) (p q : Noted τ) : Option (Noted τ) :=
  match kind, p.constant?, q.constant? with
  | .right, some _, _ => some q
  | .left, _, some _ => some p
  | .left, some v, none => some (unary (.map fun _ => v) q)
  | .right, none, some w => some (unary (.map fun _ => w) p)
  | .both f, some v, _ => some (unary (.map (f v)) q)
  | .both f, none, some w => some (unary (.map fun v => f v w) p)
  | _, none, none => none

/-- Nests a chain of sequences to the right. -/
def nestChain? : SeqKind τ → Noted τ → Noted τ → Option (Noted τ)
  | .left, p@⟨_, .binary (.seq .left) _ _⟩, q =>
    let ps := p.operands Binary.keepsFirst (q.operands Binary.keepsFirst [])
    some (rightNested (.seq .left) ps)
  | .right, p@⟨_, .binary (.seq .right) _ _⟩, q =>
    let ps := p.operands Binary.keepsLast (q.operands Binary.keepsLast [])
    some (rightNested (.seq .right) ps)
  | _, _, _ => none

/-- Rules for a sequence: what fails at once needs no continuation and no beginning that does
nothing; constants are folded in; chains are nested to the right, except inside a chain. -/
def simplifySeq? (chained : Bool) (kind : SeqKind τ) (p q : Noted τ) : Option (Noted τ) :=
  if p.isFailing then some p
  else if q.isFailing && p.facts.isIdle then some q
  else
    match foldConstant? kind p q with
    | some r => some r
    | none => if chained then none else nestChain? kind p q

/-- Two neighbouring alternatives that look ahead, as one. -/
def joinLookAheads? : Noted τ → Noted τ → Option (Noted τ)
  | ⟨_, .unary .lookAhead p⟩, ⟨_, .unary .lookAhead q⟩ =>
    some ⟨_, .unary .lookAhead (.binary .alt (.unary .attempt p) q)⟩
  | ⟨_, .unary .notFollowedBy p⟩, ⟨_, .unary .notFollowedBy q⟩ =>
    some ⟨_, .unary .notFollowedBy (.binary (.seq .right) (.unary .lookAhead p) q)⟩
  | _, _ => none

/-- Adds an alternative to those before it, the last one first, and says whether it was joined with
the last one. -/
def addAlternative : List (Noted τ) → Noted τ → List (Noted τ) × Bool
  | [], p => ([p], false)
  | q :: qs, p =>
    match joinLookAheads? q p with
    | some r => (r :: qs, true)
    | none => (p :: q :: qs, false)

/-- Goes through alternatives in order: those that fail at once and say nothing are left out,
neighbours that look ahead are joined, and nothing follows one that cannot fail. `done` holds the
alternatives so far, the last one first; `changed` says whether the list was changed. -/
def tidyAlternatives (done : List (Noted τ)) (changed : Bool) :
    List (Noted τ) → List (Noted τ) × Bool
  | [] => (done.reverse, changed)
  | ⟨_, .leaf .empty⟩ :: rest => tidyAlternatives done true rest
  | p :: rest =>
    let (done, joined) := addAlternative done p
    if done.head?.any fun q => !q.facts.canFail then
      (done.reverse, changed || joined || !rest.isEmpty)
    else tidyAlternatives done (changed || joined) rest

/-- Rules for a whole chain of alternatives. -/
def simplifyAlt? (p q : Noted τ) : Option (Noted τ) :=
  let nestedLeft := match p with
    | ⟨_, .binary .alt _ _⟩ => true
    | _ => false
  let ps := p.operands Binary.isAlt (q.operands Binary.isAlt [])
  let (alts, changed) := tidyAlternatives [] nestedLeft ps
  if changed then some (rightNested .alt alts) else none

/-- One step of simplification at the outermost node, if some rule matches. -/
def simplify? (chained : Bool) : Noted τ → Option (Noted τ)
  | ⟨_, .leaf _⟩ => none
  | ⟨_, .unary u p⟩ => simplifyUnary? u ⟨_, p⟩
  | ⟨_, .binary (.seq kind) p q⟩ => simplifySeq? chained kind ⟨_, p⟩ ⟨_, q⟩
  | ⟨_, .binary .alt p q⟩ => if chained then none else simplifyAlt? ⟨_, p⟩ ⟨_, q⟩
  | ⟨_, .binary (.branch _) _ _⟩ => none

/-- Refuses a repetition that would never end. -/
def checkRepeat : Noted τ → Except CompileError Unit
  | ⟨_, .unary .many p⟩ =>
    let p : Noted τ := ⟨_, p⟩
    if p.facts.isIdle then .error (.nonConsumingRepeat p.expr.name) else .ok ()
  | _ => .ok ()

/-! ### Passes -/

/-- How often the rules are applied at one node in one pass. -/
def maxLocalSteps : Nat := 64

/-- Applies rules at the outermost node, at most `steps` times, and adds to `fired` how often. -/
def settle (simplifying chained : Bool) :
    Nat → Noted τ → Nat → Except CompileError (Noted τ × Nat)
  | 0, p, fired => .ok (p, fired)
  | steps + 1, p, fired => do
    checkRepeat p
    match if simplifying then simplify? chained p else none with
    | some q => settle simplifying chained steps q (fired + 1)
    | none => .ok (p, fired)

end Noted

end Expr

/-- Whether the left operand of a binary form continues its chain. -/
def Binary.chainsLeft : Binary τ → Expr τ → Bool
  | .seq .left, .seq .left _ _ | .seq .right, .seq .right _ _ | .alt, .alt _ _ => true
  | _, _ => false

/-- Whether the right operand of a binary form continues its chain. -/
def Binary.chainsRight : Binary τ → Expr τ → Bool
  | .alt, .alt _ _ => true
  | _, _ => false

/-- One pass over an expression, with the number of rules that fired. `chained` says whether the
expression continues a chain of the one around it. -/
def Expr.simplifyPass (simplifying : Bool) :
    Bool → Expr τ → Except CompileError (Noted τ × Nat)
  | _, leaf l => .ok (.leaf l, 0)
  | chained, unary u p => do
    let (p', fired) ← simplifyPass simplifying false p
    Noted.settle simplifying chained Noted.maxLocalSteps (.unary u p') fired
  | chained, binary b p q => do
    let (q', firedRight) ← simplifyPass simplifying (b.chainsRight q) q
    let (p', firedLeft) ← simplifyPass simplifying (b.chainsLeft p) p
    Noted.settle simplifying chained Noted.maxLocalSteps (.binary b p' q') (firedLeft + firedRight)

namespace Bound

/-- One pass over the subroutines, in order. -/
def simplifySubroutines (simplifying : Bool) :
    List (Subroutine τ) → Except CompileError (List (Subroutine τ) × Nat)
  | [] => .ok ([], 0)
  | s :: rest => do
    let (body, fired) ← s.body.simplifyPass simplifying false
    let (rest', firedRest) ← simplifySubroutines simplifying rest
    return ({ s with body := body.expr } :: rest', fired + firedRest)

/-- One pass over the main expression and the subroutines, with the number of rules that fired. -/
def simplifyPass (simplifying : Bool) (b : Bound τ) : Except CompileError (Bound τ × Nat) := do
  let (main, fired) ← b.main.simplifyPass simplifying false
  let (subroutines, firedRest) ← simplifySubroutines simplifying b.subroutines
  return (⟨main.expr, subroutines⟩, fired + firedRest)

/-- Passes while some rule fires, at most `passes` of them. -/
def optimizeFor (simplifying : Bool) : Nat → Bound τ → Except CompileError (Bound τ)
  | 0, b => .ok b
  | passes + 1, b => do
    let (b', fired) ← b.simplifyPass simplifying
    if fired = 0 then return b' else optimizeFor simplifying passes b'

/-- Simplifies as the options say, and refuses repetitions that would never end. -/
def optimize (o : Options) (b : Bound τ) : Except CompileError (Bound τ) :=
  b.optimizeFor o.optimize o.passes

end Bound

end ParserMachine

import ParserMachine.Assembly
import ParserMachine.Options

/-!
# Inlining subroutines

Calls of a small subroutine that is not recursive are replaced by a copy of its code, whose labels
are replaced by fresh ones, and the subroutine is dropped. In one round only those subroutines are
inlined that call no other candidate, so no copy ever calls a subroutine that is being dropped.
-/

namespace ParserMachine

variable {τ : Type} [Token τ]

namespace Code

/-- Fresh labels for those that the code marks, from `fresh` on. A label that is marked twice is
given two; the second one is used. -/
def freshNames (fresh : Label) (c : Code τ) : Std.TreeMap Label Label :=
  ((Code.marks c).zipIdx fresh).foldl (fun m (l, new) => m.insert l new) ∅

/-- The code with labels replaced; those that have no new name stay. -/
def rename (names : Std.TreeMap Label Label) (c : Code τ) : Code τ :=
  let new (l : Label) : Label := names.getD l l
  c.map fun
    | .mark l => .mark (new l)
    | .instr i => .instr (Id.run (i.retarget fun l => new l))

/-- A copy of the code with fresh labels for those that it marks. -/
def copy (fresh : Label) (c : Code τ) : Code τ × Label :=
  (rename (freshNames fresh c) c, fresh + (Code.marks c).length)

/-- Replaces the calls of the given subroutines by copies. Gives also the next fresh label and the
number of calls replaced. -/
def inlineCalls (bodies : Std.TreeMap Label (Block τ)) (fresh : Label) :
    Code τ → Code τ × Label × Nat
  | [] => ([], fresh, 0)
  | line :: rest =>
    match line.call?.bind fun l => bodies[l]? with
    | some b =>
      let (body, fresh) := copy fresh b.code
      let (rest, fresh, n) := inlineCalls bodies fresh rest
      (body ++ rest, fresh, n + 1)
    | none =>
      let (rest, fresh, n) := inlineCalls bodies fresh rest
      (line :: rest, fresh, n)

end Code

namespace Assembly

/-- Whether a subroutine may be inlined: it is small and not recursive. -/
def isCandidate (threshold : Nat) (b : Block τ) : Bool :=
  !b.recursive && Code.size b.code ≤ threshold

/-- The subroutines that are inlined in one round, by entry: the candidates that call no candidate,
themselves included. -/
def inlineBodies (threshold : Nat) (blocks : List (Block τ)) : Std.TreeMap Label (Block τ) :=
  let candidates := byEntry (blocks.filter (isCandidate threshold))
  candidates.filter fun _ b => (Code.calls b.code).all fun l => l ∉ candidates

/-- Replaces calls in blocks, one after another. -/
def inlineBlocks (bodies : Std.TreeMap Label (Block τ)) (fresh : Label) :
    List (Block τ) → List (Block τ) × Label × Nat
  | [] => ([], fresh, 0)
  | b :: rest =>
    let (code, fresh, n) := Code.inlineCalls bodies fresh b.code
    let (rest, fresh, m) := inlineBlocks bodies fresh rest
    ({ b with code } :: rest, fresh, n + m)

/-- One round: replaces the calls of the given subroutines in all blocks and drops these. Gives
also the number of calls replaced. -/
def inlineRound (bodies : Std.TreeMap Label (Block τ)) (a : Assembly τ) : Assembly τ × Nat :=
  let (main, fresh, n) := Code.inlineCalls bodies a.fresh a.main
  let (blocks, fresh, m) := inlineBlocks bodies fresh a.blocks
  (⟨main, blocks.filter fun b => b.entry ∉ bodies, fresh⟩, n + m)

/-- Rounds while there is something to inline, at most `rounds` of them. -/
def inlineFor (threshold : Nat) : Nat → Assembly τ → Assembly τ × Nat
  | 0, a => (a, 0)
  | rounds + 1, a =>
    let bodies := inlineBodies threshold a.blocks
    if bodies.isEmpty then (a, 0)
    else
      let (a, n) := a.inlineRound bodies
      let (a, m) := inlineFor threshold rounds a
      (a, n + m)

/-- Inlines as the options say, with the number of calls replaced. -/
def inline (o : Options) (a : Assembly τ) : Assembly τ × Nat :=
  if o.inlineThreshold = 0 then (a, 0) else a.inlineFor o.inlineThreshold o.passes

end Assembly

end ParserMachine

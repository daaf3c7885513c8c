import ParserMachine.Assembly
import ParserMachine.CompileError
import Std.Data.TreeSet

/-!
# Programs

A program is one array of instructions whose jump targets are positions in it: the main block and
after it every subroutine that main reaches by calls, each block with a `ret` at its end.
-/

namespace ParserMachine

/-- Instructions with positions for jump targets. -/
structure Program (τ : Type) [Token τ] where
  /-- The instructions; a run begins with the first. -/
  code : Array (Instr τ Nat)

variable {τ : Type} [Token τ]

namespace Assembly

/-- The labels of the subroutines in `seen` and of those that the calls reach. Every step takes up
one call, and the calls of a subroutine are added but once, so `steps` need not exceed the number of
calls in the whole assembly. -/
def reachableFrom (entered : Std.TreeMap Label (Block τ)) :
    Nat → Std.TreeSet Nat → List Label → Std.TreeSet Nat
  | steps + 1, seen, l :: calls =>
    match entered[l]? with
    | none => reachableFrom entered steps seen calls
    | some b =>
      if b.label ∈ seen then reachableFrom entered steps seen calls
      else reachableFrom entered steps (seen.insert b.label) (Code.calls b.code ++ calls)
  | _, seen, _ => seen

/-- The subroutines that main reaches by calls. -/
def reachable (a : Assembly τ) : List (Block τ) :=
  let calls := Code.calls (a.main ++ a.blocks.flatMap Block.code)
  let seen := reachableFrom (byEntry a.blocks) calls.length ∅ (Code.calls a.main)
  a.blocks.filter fun b => b.label ∈ seen

/-- All code in a row. -/
def layout (a : Assembly τ) : Code τ :=
  a.main ++ [.instr .ret] ++
    a.reachable.flatMap fun b => .mark b.entry :: b.code ++ [.instr .ret]

end Assembly

namespace Code

/-- Adds the position of each label to those known, counting instructions from `start`; the last
place that a label marks counts. -/
def positionsFrom (known : Std.TreeMap Label Nat) (start : Nat) : Code τ → Std.TreeMap Label Nat
  | [] => known
  | .mark l :: rest => positionsFrom (known.insert l start) start rest
  | .instr _ :: rest => positionsFrom known (start + 1) rest

/-- The position of each label. -/
def positions (c : Code τ) : Std.TreeMap Label Nat := positionsFrom ∅ 0 c

/-- The position of a label. -/
def position (known : Std.TreeMap Label Nat) (l : Label) : Except CompileError Nat :=
  match known[l]? with
  | some p => .ok p
  | none => .error (.unresolvedLabel l)

/-- The instructions of a line, with positions for labels. -/
def resolveLine (known : Std.TreeMap Label Nat) :
    Line τ → Except CompileError (Option (Instr τ Nat))
  | .mark _ => .ok none
  | .instr i => do return some (← i.retarget (position known))

end Code

/-- Lays out the code that is reached and replaces labels by positions. -/
def Assembly.link (a : Assembly τ) : Except CompileError (Program τ) := do
  let layout := a.layout
  let lines ← layout.mapM (Code.resolveLine (Code.positions layout))
  return ⟨(lines.filterMap id).toArray⟩

namespace Program

/-- The number of instructions. -/
def size (p : Program τ) : Nat := p.code.size

end Program

end ParserMachine

import ParserMachine.Instruction
import Std.Data.TreeMap

/-!
# Assemblies

Code before it is laid out: a main block and the blocks of subroutines, in which places are marked
by labels.
-/

namespace ParserMachine

/-- A name for a place in the code. -/
abbrev Label := Nat

/-- A line of a block. -/
inductive Line (τ : Type) [Token τ] where
  /-- Marks the place of the next instruction. -/
  | mark (l : Label)
  /-- An instruction. -/
  | instr (i : Instr τ Label)

/-- The lines of a block. -/
abbrev Code (τ : Type) [Token τ] := List (Line τ)

/-- The code of a subroutine. -/
structure Block (τ : Type) [Token τ] where
  /-- The label of the subroutine. -/
  label : Nat
  /-- The label of its first instruction. -/
  entry : Label
  /-- Its lines. -/
  code : Code τ
  /-- Whether it may reach itself. -/
  recursive : Bool

/-- A main block and subroutines, the latter by increasing label. -/
structure Assembly (τ : Type) [Token τ] where
  /-- Where the run begins. -/
  main : Code τ
  /-- The subroutines. -/
  blocks : List (Block τ)
  /-- The next label that was not used yet. -/
  fresh : Label

variable {τ : Type} [Token τ]

namespace Line

/-- Whether the line is an instruction. -/
def isInstr : Line τ → Bool
  | mark _ => false
  | instr _ => true

/-- The label of a call. -/
def call? : Line τ → Option Label
  | instr (.call l) => some l
  | _ => none

/-- The label of a mark. -/
def mark? : Line τ → Option Label
  | mark l => some l
  | instr _ => none

/-- How a label is shown. -/
def renderLabel (l : Label) : String := "L" ++ toString l

/-- The line in a listing. -/
def render : Line τ → String
  | mark l => renderLabel l ++ ":"
  | instr i => "  " ++ i.render renderLabel

end Line

namespace Code

/-- The number of instructions. -/
def size (c : Code τ) : Nat := c.countP Line.isInstr

/-- The labels that the code calls, in order. -/
def calls (c : Code τ) : List Label := c.filterMap Line.call?

/-- The labels that the code marks, in order. -/
def marks (c : Code τ) : List Label := c.filterMap Line.mark?

end Code

namespace Assembly

/-- The number of instructions of all blocks. -/
def size (a : Assembly τ) : Nat := Code.size (a.main ++ a.blocks.flatMap Block.code)

/-- Puts a block in its place, instead of one with the same label. -/
def insertBlock (b : Block τ) : List (Block τ) → List (Block τ)
  | [] => [b]
  | c :: rest =>
    if b.label < c.label then b :: c :: rest
    else if b.label = c.label then b :: rest
    else c :: insertBlock b rest

/-- The blocks by the labels at which they are entered; of several with one label the last one. -/
def byEntry (blocks : List (Block τ)) : Std.TreeMap Label (Block τ) :=
  blocks.foldl (fun m b => m.insert b.entry b) ∅

end Assembly

end ParserMachine

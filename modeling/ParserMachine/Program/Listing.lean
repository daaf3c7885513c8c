import ParserMachine.Program

/-!
# Listings of programs

A program as text with one instruction a line, and as a control-flow graph.
-/

namespace ParserMachine

variable {τ : Type} [Token τ]

/-- A text with blanks before it, at least `width` characters long. -/
def padLeft (width : Nat) (s : String) : String :=
  String.ofList (List.replicate (width - s.length) ' ') ++ s

/-- Splits a text at its line ends, a line feed or a carriage return and a line feed. -/
def splitLines (s : String) : List String :=
  let parts := s.splitOn "\n"
  let ended := parts.dropLast.map fun l =>
    if l.endsWith "\r" then String.ofList l.toList.dropLast else l
  match parts.getLast? with
  | some "" | none => ended
  | some l => ended ++ [l]

namespace Program

/-- How a position is shown. -/
def renderTarget (p : Nat) : String := toString p

/-- The instructions one a line, each after its position. -/
def render (p : Program τ) : String :=
  String.join (p.code.toList.zipIdx.map fun (i, k) =>
    padLeft 4 (toString k) ++ ": " ++ i.render renderTarget ++ "\n")

/-- The lines of the listing. -/
def lines (p : Program τ) : List String := splitLines p.render

/-- A text as it stands between the quotes of a label in a graph. -/
def escapeLabel (s : String) : String :=
  String.ofList (s.toList.flatMap fun c => if c = '\\' || c = '"' then ['\\', c] else [c])

/-- The node of an instruction, and the edges from it: to the next instruction, if the machine may
go on with it, and dashed ones to jump targets. -/
def graphNode (size k : Nat) (i : Instr τ Nat) : List String :=
  let shape := match i with
    | .ret => ", shape=doublecircle"
    | _ => ""
  let next := if !i.isTerminal && k + 1 < size then
      ["id" ++ toString k ++ " -> id" ++ toString (k + 1)]
    else []
  ["node[label=\"" ++ toString k ++ ": " ++ escapeLabel (i.render renderTarget) ++ "\"" ++
      shape ++ "] id" ++ toString k] ++ next ++
    i.targets.map fun t => "id" ++ toString k ++ " -> id" ++ toString t ++ " [style=dashed]"

/-- The control-flow graph. -/
def graph (p : Program τ) : String :=
  let body := p.code.toList.zipIdx.flatMap fun (i, k) => graphNode p.size k i
  String.join ((["digraph \x7b"] ++ body ++ ["\x7d"]).map (· ++ "\n"))

/-- The lines of the control-flow graph. -/
def graphLines (p : Program τ) : List String := splitLines p.graph

end Program

end ParserMachine

import ParserMachine.Grammar.Binding
import ParserMachine.Expr.Simplify
import ParserMachine.Assembly.Generate
import ParserMachine.Assembly.Fuse
import ParserMachine.Assembly.Inline
import ParserMachine.Program

/-!
# From grammars to programs

The whole way: trees of the graph, simplified; their code; neighbouring instructions joined, small
subroutines inlined and neighbours joined again; and the program.
-/

namespace ParserMachine

variable {τ : Type} [Token τ]

namespace Assembly

/-- Joins neighbouring instructions if the options say so. -/
def tidyIf (o : Options) (a : Assembly τ) : Assembly τ :=
  if o.fuseInstructions then a.tidy o.maxPasses else a

/-- Improves code as the options say. -/
def improve (o : Options) (a : Assembly τ) : Assembly τ :=
  let (b, inlined) := (a.tidyIf o).inline o
  if inlined = 0 then b else b.tidyIf o

end Assembly

/-- The program of trees. -/
def Bound.compile (o : Options) (b : Bound τ) : Except CompileError (Program τ) := do
  ((← (← b.optimize o).generate o).improve o).link

/-- The program of the parser that a grammar has at `root`. -/
def Grammar.compile (g : Grammar τ) (o : Options) (root : NodeId) :
    Except CompileError (Program τ) := do
  (← g.bind root).compile o

end ParserMachine

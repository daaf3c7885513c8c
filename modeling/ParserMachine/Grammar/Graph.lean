import ParserMachine.Expr
import ParserMachine.CompileError

/-!
# Grammars as graphs

A grammar is a store of nodes that refer to one another by number, so that one parser may be used
in several places and still be one parser. A node refers only to nodes that were there before it;
the one way to refer forward is a *reference cell*, which is defined later or filled by a supplier
the first time its target is needed.

`Grammar.follow` finds the parser behind a chain of references. The chain is cut off after as many
steps as there are cells, since a longer one has met some cell twice and is cyclic.
-/

namespace ParserMachine

/-- The number of a node. -/
abbrev NodeId := Nat

/-- The number of a reference cell. -/
abbrev CellId := Nat

/-- A parser whose parts are nodes. -/
inductive Node (τ : Type) [Token τ] where
  /-- A parser without parts. -/
  | leaf (l : Leaf τ)
  /-- A form around a parser. -/
  | unary (u : Unary τ) (p : NodeId)
  /-- A form that joins two parsers. -/
  | binary (b : Binary τ) (p q : NodeId)
  /-- Whatever the cell comes to refer to. -/
  | lazy (cell : CellId)

/-- The state of a reference cell. -/
inductive Cell where
  /-- Nothing is known of the target. -/
  | undefined
  /-- A supplier will give the target when it is first needed. -/
  | supplied (p : NodeId)
  /-- The supplier was run and gave the target. -/
  | forced (p : NodeId)
  /-- The target was defined. -/
  | defined (p : NodeId)
deriving DecidableEq

namespace Cell

/-- The target, if there is one or a supplier of one. -/
def target? : Cell → Option NodeId
  | undefined => none
  | supplied p | forced p | defined p => some p

/-- Whether there is a target or a supplier of one. -/
def isDefined (c : Cell) : Bool := c.target?.isSome

/-- The cell after its target was needed. -/
def force : Cell → Cell
  | supplied p => forced p
  | c => c

/-- Defines the target, unless there is one already, and says whether it did. A supplier that has
not been run is dropped. -/
def define (p : NodeId) : Cell → Bool × Cell
  | undefined | supplied _ => (true, defined p)
  | c => (false, c)

/-- How often the supplier was run. -/
def runs : Cell → Nat
  | forced _ => 1
  | _ => 0

end Cell

/-- A store of nodes and reference cells. -/
structure Grammar (τ : Type) [Token τ] where
  /-- The nodes by number. -/
  nodes : Array (Node τ) := #[]
  /-- The reference cells by number. -/
  cells : Array Cell := #[]

variable {τ : Type} [Token τ]

namespace Node

/-- The parts of a node, in order. -/
def children : Node τ → List NodeId
  | leaf _ | lazy _ => []
  | unary _ p => [p]
  | binary _ p q => [p, q]

/-- Whether the node is a parser without parts. -/
def isLeaf : Node τ → Bool
  | leaf _ => true
  | _ => false

/-- The name of the node. -/
def name : Node τ → String
  | leaf l => l.name
  | unary u _ => u.name
  | binary b _ _ => b.name
  | lazy _ => "lazy"

/-- The same form over other parts. Parts that are not given are replaced by `filler`, those given
beyond need are left out. -/
def withChildren (filler : NodeId) (kids : List NodeId) : Node τ → Node τ
  | leaf l => leaf l
  | lazy c => lazy c
  | unary u _ => unary u (kids.headD filler)
  | binary b _ _ => binary b (kids.headD filler) (kids.tail.headD filler)

end Node

namespace Grammar

/-- The node of a number; a number that was never given out counts as the parser that fails and
says nothing. -/
def node (g : Grammar τ) (p : NodeId) : Node τ := g.nodes.getD p (.leaf .empty)

/-- The cell of a number; one that was never given out counts as undefined. -/
def cell (g : Grammar τ) (c : CellId) : Cell := g.cells.getD c .undefined

/-- Follows references from a node, at most `steps` of them: the cells that were met, and the first
node that is no reference. -/
def followFor (g : Grammar τ) : Nat → NodeId → List CellId × Except CompileError NodeId
  | steps, p =>
    match g.node p with
    | .lazy c =>
      match steps, (g.cell c).target? with
      | 0, _ => ([], .error .cyclicReference)
      | _ + 1, none => ([c], .error .undefinedReference)
      | steps + 1, some q =>
        let (cells, result) := followFor g steps q
        (c :: cells, result)
    | _ => ([], .ok p)

/-- Follows references from a node: the cells that were met, and the first node that is no
reference. -/
def follow (g : Grammar τ) (p : NodeId) : List CellId × Except CompileError NodeId :=
  g.followFor g.cells.size p

/-- The first node behind references. -/
def resolve (g : Grammar τ) (p : NodeId) : Except CompileError NodeId := (g.follow p).2

/-- The parts of a node, in order. -/
def children (g : Grammar τ) (p : NodeId) : List NodeId := (g.node p).children

end Grammar

/-- Building a grammar. -/
abbrev Build (τ : Type) [Token τ] := StateM (Grammar τ)

namespace Build

/-- Adds a node. -/
def node (n : Node τ) : Build τ NodeId :=
  modifyGet fun g => (g.nodes.size, { g with nodes := g.nodes.push n })

/-- Adds a reference cell. -/
def cell (c : Cell) : Build τ CellId :=
  modifyGet fun g => (g.cells.size, { g with cells := g.cells.push c })

/-- Changes a reference cell. -/
def updateCell (c : CellId) (f : Cell → Cell) : Build τ Unit :=
  modify fun g => { g with cells := g.cells.modify c f }

/-- Defines the target of a cell and says whether it had none before. -/
def define (c : CellId) (p : NodeId) : Build τ Bool := do
  let (fresh, defined) := ((← get).cell c).define p
  updateCell c fun _ => defined
  return fresh

/-- The target of a cell, which from now on counts as needed. -/
def force (c : CellId) : Build τ (Except CompileError NodeId) := do
  updateCell c Cell.force
  match ((← get).cell c).target? with
  | some p => return .ok p
  | none => return .error .undefinedReference

/-- The first node behind references, all of which from now on count as needed. -/
def resolve (p : NodeId) : Build τ (Except CompileError NodeId) := do
  let (cells, result) := (← get).follow p
  cells.forM fun c => updateCell c Cell.force
  return result

end Build

end ParserMachine

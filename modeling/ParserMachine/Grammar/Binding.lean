import ParserMachine.Grammar.Graph

/-!
# From a graph to trees

`Grammar.bind` turns the part of a grammar that a root reaches into trees. A parser that may reach
itself, or that is used more than once and is not small, becomes a subroutine; its uses become
calls. All else is copied to where it is used.

The nodes are put in the order in which a depth-first walk leaves them (`Grammar.postorder`), parts
from left to right. An edge goes to a node that the walk has not left yet just if it closes a cycle,
so the order alone tells which parsers are recursive, and building the trees in this order finds
every part built, except where a call stands for it.
-/

namespace ParserMachine

variable {τ : Type} [Token τ]

/-- What a depth-first walk has found out. -/
structure Walk where
  /-- The parts of the nodes that were entered, references resolved. -/
  kids : Array (Option (List NodeId))
  /-- The nodes that were left, in order. -/
  left : Array NodeId

namespace Walk

/-- Nothing was entered yet. -/
def start (size : Nat) : Walk := ⟨Array.replicate size none, #[]⟩

/-- Whether a node was entered. -/
def entered (w : Walk) (p : NodeId) : Bool := (w.kids.getD p (some [])).isSome

/-- The parts of a node that was entered. -/
def kidsOf (w : Walk) (p : NodeId) : List NodeId := (w.kids.getD p none).getD []

end Walk

namespace Grammar

/-- Walks on from a node, unless it was entered before. All parts are resolved as soon as the node
is entered. `depth` bounds how deep the walk goes; nodes on one path differ, so their number is
enough. -/
def walk (g : Grammar τ) : Nat → NodeId → Walk → Except CompileError Walk
  | 0, _, w => .ok w
  | depth + 1, p, w =>
    if w.entered p then .ok w
    else do
      let kids ← (g.children p).mapM g.resolve
      let w := { w with kids := w.kids.setIfInBounds p (some kids) }
      let w ← kids.foldlM (fun w k => walk g depth k w) w
      return { w with left := w.left.push p }

/-- The nodes that `root` reaches in the order in which a depth-first walk leaves them, and their
parts. -/
def postorder (g : Grammar τ) (root : NodeId) : Except CompileError Walk :=
  g.walk (g.nodes.size + 1) root (Walk.start g.nodes.size)

end Grammar

/-- How the nodes of a walk are used. -/
structure Uses where
  /-- The position of each node in the order of leaving. -/
  position : Array Nat
  /-- How often each node is a part of another. -/
  count : Array Nat
  /-- Whether each node may reach itself. -/
  recursive : Array Bool

namespace Walk

/-- The positions of the nodes in the order of leaving. -/
def positions (w : Walk) : Array Nat :=
  w.left.toList.zipIdx.foldl (fun a pi => a.setIfInBounds pi.1 pi.2)
    (Array.replicate w.kids.size 0)

/-- The edges of the walk, from a node to each of its parts. -/
def edges (w : Walk) : List (NodeId × NodeId) :=
  w.left.toList.flatMap fun p => (w.kidsOf p).map fun k => (p, k)

/-- How the nodes are used. A node is recursive if some part of it, or the node itself, has it as a
part: that is an edge from a node that was left no later. -/
def uses (w : Walk) : Uses :=
  let position := w.positions
  w.edges.foldl
    (fun u e =>
      { u with
        count := u.count.modify e.2 (· + 1)
        recursive :=
          if position.getD e.1 0 ≤ position.getD e.2 0 then u.recursive.setIfInBounds e.2 true
          else u.recursive })
    ⟨position, Array.replicate w.kids.size 0, Array.replicate w.kids.size false⟩

end Walk

namespace Grammar

/-- Whether a parser is cheap enough to be copied to every use: a leaf, or one cheap form directly
over leaves. -/
def isSmall (g : Grammar τ) (w : Walk) (p : NodeId) : Bool :=
  match g.node p with
  | .leaf _ => true
  | .unary (.map _) _ | .unary .attempt _ | .unary (.label _) _ | .binary (.seq _) _ _ =>
    (w.kidsOf p).all fun k => (g.node k).isLeaf
  | _ => false

/-- Whether a parser becomes a subroutine. -/
def isShared (g : Grammar τ) (w : Walk) (u : Uses) (p : NodeId) : Bool :=
  u.recursive.getD p false || (u.count.getD p 0 > 1 && !g.isSmall w p)

end Grammar

/-- The trees built so far. -/
structure Trees (τ : Type) [Token τ] where
  /-- What stands for each node where it is used: its tree, or a call. -/
  uses : Array (Expr τ)
  /-- The subroutines, the last one first. -/
  subroutines : List (Subroutine τ)

namespace Trees

/-- What stands for a node. -/
def useOf (t : Trees τ) (p : NodeId) : Expr τ := t.uses.getD p .empty

/-- Adds the tree of a node, as a subroutine if the node is shared. -/
def add (t : Trees τ) (p : NodeId) (shared recursive : Bool) (body : Expr τ) : Trees τ :=
  if shared then { t with subroutines := ⟨body, recursive⟩ :: t.subroutines }
  else { t with uses := t.uses.setIfInBounds p body }

end Trees

namespace Grammar

/-- What stands for a shared node: a call. -/
def callOf (labels : Array (Option Nat)) (u : Uses) (p : NodeId) : Expr τ :=
  match labels.getD p none with
  | some l => .leaf (.call l (u.recursive.getD p false))
  | none => .empty

/-- The tree of a node over what stands for its parts. -/
def treeOf (g : Grammar τ) (p : NodeId) (parts : List (Expr τ)) : Expr τ :=
  match g.node p, parts with
  | .leaf l, _ => .leaf l
  | .unary u _, [k] => .unary u k
  | .binary b _ _, [k, l] => .binary b k l
  | _, _ => .empty

/-- The labels of the shared nodes, in the order of leaving. -/
def labels (g : Grammar τ) (w : Walk) (u : Uses) : Array (Option Nat) :=
  ((w.left.toList.filter (g.isShared w u)).zipIdx).foldl
    (fun a pl => a.setIfInBounds pl.1 (some pl.2)) (Array.replicate w.kids.size none)

/-- Builds the trees in the order of leaving. Calls stand for shared nodes from the start. -/
def trees (g : Grammar τ) (w : Walk) : Trees τ :=
  let u := w.uses
  let labels := g.labels w u
  w.left.foldl
    (fun t p =>
      t.add p (labels.getD p none).isSome (u.recursive.getD p false)
        (g.treeOf p ((w.kidsOf p).map t.useOf)))
    ⟨(Array.range w.kids.size).map (callOf labels u), []⟩

/-- The trees of a root and of the subroutines it needs. -/
def bind (g : Grammar τ) (root : NodeId) : Except CompileError (Bound τ) := do
  let root ← g.resolve root
  let t := g.trees (← g.postorder root)
  return ⟨t.uses.getD root .empty, t.subroutines.reverse⟩

end Grammar

end ParserMachine

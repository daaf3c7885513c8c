import ParserMachine.Assembly

/-!
# Joining neighbouring instructions

Code generation leaves values on the stack that the next instruction takes away again. Here such
neighbours become one instruction, jumps to the next instruction are left out, and a jump to a jump
goes straight to where the second one goes. Nothing is joined across a mark, since control can enter
there.

A block is rebuilt line by line, the lines so far kept with the last one first; a line that is added
may be joined with the last one, and the outcome with the one before (`Code.addInstr`).
-/

namespace ParserMachine

variable {τ : Type} [Token τ]

/-! ### Neighbours -/

/-- What becomes of two instructions in a row, if they can be joined: one instruction or none. -/
def Instr.fuse? : Instr τ Label → Instr τ Label → Option (Option (Instr τ Label))
  | push _, pop => some none
  | push v, map f => some (some (push (f v)))
  | map f, map g => some (some (map fun v => g (f v)))
  | map _, pop => some (some pop)
  | satisfyMany test e true, pop => some (some (satisfyMany test e false))
  | single _ _ .discard, _ | satisfy _ _ .discard, _ | literal _ _ _ .discard, _ => none
  | single t e out, map f => some (some (single t e (out.andThen f)))
  | single t e _, pop => some (some (single t e .discard))
  | satisfy test e out, map f => some (some (satisfy test e (out.andThen f)))
  | satisfy test e _, pop => some (some (satisfy test e .discard))
  | literal ts v e out, map f => some (some (literal ts v e (out.andThen f)))
  | literal ts v e _, pop => some (some (literal ts v e .discard))
  | _, _ => none

namespace Code

/-- Adds an instruction to the lines so far, the last one first, and joins it with those before as
long as it can be. Gives also how often it was joined. -/
def addInstr : Code τ → Instr τ Label → Code τ × Nat
  | .instr a :: rest, i =>
    match a.fuse? i with
    | none => (.instr i :: .instr a :: rest, 0)
    | some none => (rest, 1)
    | some (some j) =>
      let (lines, joined) := addInstr rest j
      (lines, joined + 1)
  | lines, i => (.instr i :: lines, 0)

/-- Leaves out a jump to `l` if only marks follow it in the lines so far, the last one first. -/
def dropJumpTo? (l : Label) : Code τ → Option (Code τ)
  | .mark m :: rest => (dropJumpTo? l rest).map (.mark m :: ·)
  | .instr (.jump t) :: rest => if t = l then some rest else none
  | _ => none

/-- Adds a line to the lines so far, the last one first, with how often lines were joined or left
out. -/
def addLine (lines : Code τ) : Line τ → Code τ × Nat
  | .instr i => addInstr lines i
  | .mark l =>
    match dropJumpTo? l lines with
    | some rest => (.mark l :: rest, 1)
    | none => (.mark l :: lines, 0)

/-- Joins neighbours in a block, with how often this was possible. -/
def fuse (c : Code τ) : Code τ × Nat :=
  let (lines, fired) := c.foldl
    (fun (lines, fired) line =>
      let (lines, n) := addLine lines line
      (lines, fired + n))
    ([], 0)
  (lines.reverse, fired)

/-! ### Jumps to jumps -/

/-- For each label whose next instruction is a jump, where that goes; the last place that a label
marks counts. `pending` holds the labels of the marks just passed. -/
def forwardsFrom (pending : List Label) (known : Std.TreeMap Label Label) :
    Code τ → Std.TreeMap Label Label
  | [] => known
  | .mark l :: rest => forwardsFrom (l :: pending) known rest
  | .instr (.jump t) :: rest =>
    forwardsFrom [] (pending.foldl (fun m l => m.insert l t) known) rest
  | .instr _ :: rest => forwardsFrom [] known rest

/-- For each label whose next instruction is a jump, where that goes. -/
def forwards (c : Code τ) : Std.TreeMap Label Label := forwardsFrom [] ∅ c

/-- The end of the way that leads from jump to jump, or nothing if it is longer than `steps`. -/
def wayEnd? (forward : Std.TreeMap Label Label) : Nat → Label → Option Label
  | 0, l => if l ∈ forward then none else some l
  | steps + 1, l =>
    match forward[l]? with
    | none => some l
    | some next => wayEnd? forward steps next

/-- The last label on a way that leads back to itself, before it meets one of `seen` again. Each
step reaches a label for the first time, so `steps` need not exceed the number of labels. -/
def roundEnd (forward : Std.TreeMap Label Label) : Nat → List Label → Label → Label
  | 0, _, l => l
  | steps + 1, seen, l =>
    match forward[l]? with
    | none => l
    | some next => if next ∈ seen then l else roundEnd forward steps (next :: seen) next

/-- Where a jump to `l` ends up. A way longer than the number of labels leads round for ever; then
it is where the way would first repeat itself. -/
def destination (forward : Std.TreeMap Label Label) (l : Label) : Label :=
  match wayEnd? forward forward.size l with
  | some l' => l'
  | none => roundEnd forward forward.size [l] l

/-- A line with its jump sent straight to where it ends up. -/
def threadLine (forward : Std.TreeMap Label Label) : Line τ → Line τ × Nat
  | .instr (.jump t) =>
    let t' := destination forward t
    (.instr (.jump t'), if t' = t then 0 else 1)
  | line => (line, 0)

/-- Sends every jump straight to where it ends up, with how many were changed. -/
def threadJumps (c : Code τ) : Code τ × Nat :=
  let lines := c.map (threadLine (forwards c))
  (lines.map Prod.fst, lines.foldr (fun l n => l.2 + n) 0)

/-- One round over a block, with the number of changes. -/
def tidy (c : Code τ) : Code τ × Nat :=
  let (fused, n) := fuse c
  let (threaded, m) := threadJumps fused
  (threaded, n + m)

end Code

/-! ### Rounds -/

namespace Assembly

/-- One round over all blocks, with the number of changes. -/
def tidyRound (a : Assembly τ) : Assembly τ × Nat :=
  let (main, n) := Code.tidy a.main
  let blocks := a.blocks.map fun b =>
    let (code, m) := Code.tidy b.code
    ({ b with code }, m)
  ({ a with main, blocks := blocks.map Prod.fst }, blocks.foldr (fun b n => b.2 + n) n)

/-- Rounds while something changes, at most `rounds` of them. -/
def tidyFor : Nat → Assembly τ → Assembly τ
  | 0, a => a
  | rounds + 1, a =>
    let (a', n) := a.tidyRound
    if n = 0 then a' else tidyFor rounds a'

/-- Joins neighbours and shortens jumps in all blocks, in at most `passes` rounds but at least
one. -/
def tidy (passes : Nat) (a : Assembly τ) : Assembly τ := a.tidyFor (max passes 1)

end Assembly

end ParserMachine

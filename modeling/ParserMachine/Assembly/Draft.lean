import ParserMachine.Assembly

/-!
# Code under construction

Code is put together from pieces, and a piece may become part of a larger one many times over. A
draft joins pieces without copying them; `Draft.toCode` writes all lines out once, and
`toCode_append` says that they are the lines of the pieces in a row.
-/

namespace ParserMachine

/-- Code that is being put together. -/
inductive Draft (τ : Type) [Token τ] where
  /-- Lines that are written out. -/
  | lines (c : Code τ)
  /-- One piece after the other. -/
  | join (a b : Draft τ)

namespace Draft

variable {τ : Type} [Token τ]

instance : Append (Draft τ) := ⟨join⟩

/-- The lines of a draft, followed by others. -/
def before (rest : Code τ) : Draft τ → Code τ
  | lines c => c ++ rest
  | join a b => a.before (b.before rest)

/-- The lines of a draft. -/
def toCode (d : Draft τ) : Code τ := d.before []

theorem before_eq (d : Draft τ) (rest : Code τ) : d.before rest = d.toCode ++ rest := by
  induction d generalizing rest with
  | lines c => simp [before, toCode]
  | join a b iha ihb =>
    show a.before (b.before rest) = a.before (b.before []) ++ rest
    rw [iha, iha (b.before []), ihb, List.append_assoc]
    rfl

@[simp] theorem toCode_lines (c : Code τ) : (lines c).toCode = c := List.append_nil c

@[simp] theorem toCode_append (a b : Draft τ) : (a ++ b).toCode = a.toCode ++ b.toCode :=
  before_eq a b.toCode

/-- An instruction as a draft. -/
def instr (i : Instr τ Label) : Draft τ := lines [.instr i]

/-- A mark as a draft. -/
def mark (l : Label) : Draft τ := lines [.mark l]

/-- The draft without lines. -/
def nothing : Draft τ := lines []

end Draft

end ParserMachine

import ParserMachine.Assembly

/-!
# Replacing jump targets

`Instr.mapTargets` replaces the jump targets of an instruction where no replacement can fail. Where
one can, the outcome is the same as long as all are there (`Instr.retarget_eq_ok`).
-/

namespace ParserMachine

variable {τ : Type} [Token τ] {ι κ μ : Type}

namespace Instr

/-- The instruction with every jump target replaced. -/
def mapTargets (g : ι → κ) (i : Instr τ ι) : Instr τ κ := Id.run (i.retarget fun l => g l)

theorem mapTargets_dispatch (g : ι → κ) (table : List (τ × Nat)) (ts : List ι)
    (before : List (ExpectedSet τ)) (all : ExpectedSet τ) (fallback : Option ι) :
    (dispatch table ts before all fallback).mapTargets g =
      dispatch table (ts.map g) before all (fallback.map g) := by
  have hpure (a : ι) : Id.run (g a) = g a := rfl
  cases fallback <;> simp [mapTargets, retarget, hpure]

theorem targets_mapTargets (g : ι → κ) (i : Instr τ ι) :
    (i.mapTargets g).targets = i.targets.map g := by
  cases i with
  | dispatch table ts before all fallback =>
    rw [mapTargets_dispatch]
    cases fallback <;> simp [targets]
  | _ => rfl

theorem mapTargets_mapTargets (g : ι → κ) (h : κ → μ) (i : Instr τ ι) :
    (i.mapTargets g).mapTargets h = i.mapTargets fun l => h (g l) := by
  cases i with
  | dispatch table ts before all fallback =>
    simp only [mapTargets_dispatch, List.map_map, Option.map_map]
    rfl
  | _ => rfl

theorem mapTargets_id (i : Instr τ ι) : i.mapTargets (fun l => l) = i := by
  cases i with
  | dispatch table ts before all fallback =>
    rw [mapTargets_dispatch]
    simp
  | _ => rfl

end Instr

end ParserMachine

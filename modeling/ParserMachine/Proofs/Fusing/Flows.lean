import ParserMachine.Proofs.Assembly.Flows
import ParserMachine.Proofs.Fusing.Rounds

/-!
# Flows of tidied code

Control flows through tidied code as through the code before it (`Code.Tidies.flows`): neighbours that are
joined do not change how control comes to the next line, and a jump comes to the label at the end of its way by
the flow by which it came to the first one. So rounds of tidying keep the flows of an assembly
(`Assembly.Carries.tidyIf`).
-/

namespace ParserMachine

variable {τ : Type} [Token τ] {bad : Unary τ → Prop}

namespace Instr

/-- Of neighbours that are joined the first one gives a value, and the second one takes it. What they become takes what
the first one takes and gives what the second one gives. -/
theorem effect_of_fuse? {a b : Instr τ Label} {o : Option (Instr τ Label)} (h : a.fuse? b = some o) :
    a.isSteady = true ∧ b.isSteady = true ∧ a.gives = 1 ∧ b.takes = 1 ∧ (o = none → a.takes = b.gives) ∧
      ∀ j ∈ o, j.isSteady = true ∧ j.takes = a.takes ∧ j.gives = b.gives := by
  have hgives {out : Output τ} (hout : out = .discard → False) : out.gives = 1 ∧ ∀ f, (out.andThen f).gives = 1 := by
    cases out with
    | discard => exact (hout rfl).elim
    | keep | map => exact ⟨rfl, fun _ => rfl⟩
  unfold fuse? at h
  split at h
  all_goals cases h
  case h_1 => exact ⟨rfl, rfl, rfl, rfl, fun _ => rfl, nofun⟩
  case h_2 | h_3 | h_4 | h_5 =>
    refine ⟨rfl, rfl, rfl, rfl, nofun, ?_⟩
    rintro j ⟨⟩
    exact ⟨rfl, rfl, rfl⟩
  case h_9 | h_11 | h_13 =>
    refine ⟨rfl, rfl, (hgives (by assumption)).1, rfl, nofun, ?_⟩
    rintro j ⟨⟩
    exact ⟨rfl, rfl, (hgives (by assumption)).2 _⟩
  all_goals
    refine ⟨rfl, rfl, (hgives (by assumption)).1, rfl, nofun, ?_⟩
    rintro j ⟨⟩
    exact ⟨rfl, rfl, rfl⟩

/-- Neighbours that are joined pass together as what they become. -/
theorem Passes.fuse? {via : Label → Flow → Prop} {a b : Instr τ Label} {o : Option (Instr τ Label)} {f f₁ f' : Flow}
    (ha : a.Passes bad via f f₁) (hb : b.Passes bad via f₁ f') (h : a.fuse? b = some o) :
    (o = none → f = f') ∧ ∀ j ∈ o, j.Passes bad via f f' := by
  obtain ⟨hsteady, hsteady', hgives, htakes, hnone, hsome⟩ := effect_of_fuse? h
  obtain ⟨ks, rfl, rfl⟩ := (passes_iff_of_isSteady hsteady).1 ha
  obtain ⟨ks', hks, rfl⟩ := (passes_iff_of_isSteady hsteady').1 hb
  rw [hgives, htakes] at hks
  cases hks
  refine ⟨fun ho => by rw [hnone ho], fun j hj => ?_⟩
  obtain ⟨hj, htakes, hgives⟩ := hsome j hj
  rw [← htakes, ← hgives]
  exact .steady hj

end Instr

namespace Code

variable {via : Label → Flow → Prop} {block c d : Code τ} {f f' g g' : Flow} {l : Label}

/-- Marks do not change a flow. -/
theorem Flows.of_ofMarks {ls : List Label} (h : (ofMarks ls ++ c).Flows bad via f f') : c.Flows bad via f f' := by
  induction ls with
  | nil => exact h
  | cons l ls ih =>
    cases h with
    | mark _ h => exact ih h

theorem Flows.via_of_mark (h : Flows bad via (.mark l :: c) f f') : via l f := by
  cases h with
  | mark hl _ => exact hl

theorem mem_marks_of_after_ne_nil (h : after l c ≠ []) : l ∈ marks c := by
  induction c with
  | nil => exact absurd rfl h
  | cons line c ih =>
    cases line with
    | instr i => exact ih h
    | mark m =>
      unfold Code.after at h
      split at h
      · rename_i hm
        exact hm ▸ List.mem_cons_self ..
      · exact List.mem_cons_of_mem _ (ih h)

/-- Control comes to the end of a way as to its beginning. -/
theorem Way.leads {t t' : Label} (h : Way block t t') (hblock : block.Flows bad via g g') (hvia : Definite via)
    (ht : via t f) : via t' f := by
  induction h with
  | refl => exact ht
  | @step t t₁ t' ls rest hafter _ ih =>
    have hmem : t ∈ marks block := mem_marks_of_after_ne_nil (by simp [hafter])
    have hjump := hblock.after hvia hmem ht
    rw [hafter] at hjump
    cases hjump.of_ofMarks with
    | instr hi _ =>
      cases hi with
      | steady hi => cases hi
      | failing hi => cases hi
      | jump hnext => exact ih hnext

/-- Control flows through tidied code as before. -/
theorem Tidies.flows (h : Tidies block c d) (hblock : block.Flows bad via g g') (hvia : Definite via)
    (hc : c.Flows bad via f f') : d.Flows bad via f f' := by
  induction h generalizing f with
  | nil => exact hc
  | line line _ ih =>
    cases hc with
    | mark hl hc => exact .mark hl (ih hc)
    | instr hi hc => exact .instr hi (ih hc)
  | joined hfuse _ ih =>
    cases hc with
    | instr hi hc =>
      cases hc with
      | instr hi' hc => exact .instr ((hi.fuse? hi' hfuse).2 _ rfl) (ih hc)
  | dropped hfuse _ ih =>
    cases hc with
    | instr hi hc =>
      cases hc with
      | instr hi' hc =>
        rw [(hi.fuse? hi' hfuse).1 rfl]
        exact ih hc
  | fallen ls _ ih =>
    cases hc with
    | instr hi hc =>
      cases hi with
      | steady hi => cases hi
      | failing hi => cases hi
      | jump hl =>
        -- the jump comes to its label as the lines between do
        obtain rfl := hvia _ _ _ hl hc.of_ofMarks.via_of_mark
        exact ih hc
  | straight hway _ ih =>
    cases hc with
    | instr hi hc =>
      cases hi with
      | steady hi => cases hi
      | failing hi => cases hi
      | jump ht => exact .instr (.jump (hway.leads hblock hvia ht)) (ih hc)

theorem Steps.flows (h : Steps c d) (hvia : Definite via) (hc : c.Flows bad via f f') : d.Flows bad via f f' := by
  induction h with
  | refl => exact hc
  | tail _ hstep ih => exact hstep.flows ih hvia ih

end Code

namespace Assembly

variable {a : Assembly τ}

theorem codes_tidyRound (a : Assembly τ) : a.tidyRound.1.codes = a.codes.map fun c => (Code.tidy c).1 := by
  unfold codes tidyRound
  simp

theorem Carries.tidyRound (h : a.Carries bad) (hsound : a.Sound) : a.tidyRound.1.Carries bad := by
  obtain ⟨via, hvia, hfresh, hflows⟩ := h
  refine ⟨via, hvia, hfresh, fun c' hc' => ?_⟩
  rw [codes_tidyRound] at hc'
  obtain ⟨c, hc, rfl⟩ := List.mem_map.1 hc'
  exact (Code.steps_tidy (hsound.closed c hc).nodup).flows hvia (hflows c hc)

theorem Carries.tidyFor (h : a.Carries bad) (hsound : a.Sound) (rounds : Nat) : (a.tidyFor rounds).Carries bad := by
  induction rounds generalizing a with
  | zero => exact h
  | succ rounds ih =>
    unfold Assembly.tidyFor
    have hround := h.tidyRound hsound
    dsimp only
    split
    · exact hround
    · exact ih hround (improves_tidyRound a hsound).1

/-- Tidying keeps the flows of an assembly. -/
theorem Carries.tidyIf (h : a.Carries bad) (hsound : a.Sound) (o : Options) : (a.tidyIf o).Carries bad := by
  unfold Assembly.tidyIf
  split
  · exact h.tidyFor hsound _
  · exact h

end Assembly

end ParserMachine

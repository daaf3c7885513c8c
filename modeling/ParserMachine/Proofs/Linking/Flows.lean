import ParserMachine.Proofs.Generation.Flows
import ParserMachine.Proofs.Inlining.Flows
import ParserMachine.Proofs.Linking.Placement

/-!
# Flows of programs

The flows of an assembly are those of its program, with positions for labels (`Program.FlowsBy`): control comes
to a position as it comes to the lines that stand there, and to the code of a subroutine without checks of its
own (`Assembly.Carries.exists_flows`).
-/

namespace ParserMachine

variable {τ : Type} [Token τ] {bad : Unary τ → Prop}

namespace Program

variable {p : Program τ} {pos : Label → Nat} {good : Label → Prop} {via : Label → Flow → Prop}

/-- Control comes by this flow to a place of a block, where that block stands in the program. -/
structure Into (bad : Unary τ → Prop) (p : Program τ) (pos : Label → Nat) (good : Label → Prop)
    (via : Label → Flow → Prop) (q : Nat) (f : Flow) (block c : Code τ) : Prop where
  /-- The block is closed. -/
  closed : block.Closed
  /-- It stands somewhere. -/
  stands : ∃ base stop, p.At pos good stop base block
  /-- Control flows through it. -/
  flows : block.Flows bad via (.runs []) (.runs [.value])
  /-- The lines that are left of it stand here. -/
  here : ∃ stop, p.At pos good stop q c
  /-- And control flows through them. -/
  rest : c.Flows bad via f (.runs [.value])
  /-- They are the end of the block. -/
  suffix : c <:+ block

theorem Into.start {q stop : Nat} {block : Code τ} (hclosed : block.Closed) (hat : p.At pos good stop q block)
    (hflows : block.Flows bad via (.runs []) (.runs [.value])) : Into bad p pos good via q (.runs []) block block :=
  ⟨hclosed, ⟨q, stop, hat⟩, hflows, ⟨stop, hat⟩, hflows, List.suffix_refl _⟩

theorem Into.next (hvia : Code.Definite via)
    (hcalls : ∀ l, good l → ∃ block c, Into bad p pos good via (pos l) (.runs []) block c) {q : Nat} {f : Flow}
    {block c : Code τ} (h : Into bad p pos good via q f block c) {i : Instr τ Nat} (hi : p.code[q]? = some i) :
    (i = .ret ∧ f = .runs [.value]) ∨
      ((∀ t, i = .call t → ∃ block c, Into bad p pos good via t (.runs []) block c) ∧
        ∃ f', i.Passes bad (fun q f => ∃ block c, Into bad p pos good via q f block c) f f' ∧
          ∃ block c, Into bad p pos good via (q + 1) f' block c) := by
  obtain ⟨hclosed, hblock, hflows, ⟨stop, hhere⟩, hrest, hsuffix⟩ := h
  induction c with
  | nil =>
    obtain rfl : i = .ret := Option.some.inj (hi.symm.trans hhere.2)
    cases hrest
    exact .inl ⟨rfl, rfl⟩
  | cons line c ih =>
    have htail : c <:+ block := (List.suffix_cons line c).trans hsuffix
    cases line with
    | mark l =>
      cases hrest with
      | mark _ hrest => exact ih hrest htail hhere.2
    | instr j =>
      obtain ⟨hcode, hgood, hhere⟩ := hhere
      cases hrest with
      | @instr _ _ _ f₁ _ hj hrest =>
        obtain rfl : i = j.mapTargets pos := Option.some.inj (hi.symm.trans hcode)
        have hmem : .instr j ∈ block := hsuffix.subset (List.mem_cons_self ..)
        refine .inr ⟨fun t ht => ?_, f₁, ?_, block, c, hclosed, hblock, hflows, ⟨stop, hhere⟩, hrest, htail⟩
        · cases j <;> cases ht
          exact hcalls _ (hgood _ rfl)
        · have hplaced : (j.mapTargets pos).Passes bad (fun q f => ∃ block c, Into bad p pos good via q f block c)
              (f.above []) (f₁.above []) := by
            refine hj.jumps.mapTargets fun t g ht => ?_
            have hmark := hclosed.jumps _ hmem t ht.2
            obtain ⟨base, stop, hat⟩ := hblock
            rw [Flow.above_nil]
            exact ⟨block, _, hclosed, ⟨base, stop, hat⟩, hflows, ⟨stop, hat.after hmark⟩, hflows.after hvia hmark ht.1,
              Code.after_suffix _ _⟩
          rwa [Flow.above_nil, Flow.above_nil] at hplaced

end Program

/-- The flows of an assembly are those of its program. -/
theorem Assembly.Carries.exists_flows {a : Assembly τ} {p : Program τ} (h : a.Carries bad) (hsound : a.Sound)
    (hlink : a.link = .ok p) : ∃ into, p.FlowsBy bad into := by
  obtain ⟨via, hvia, -, hflows⟩ := h
  obtain ⟨hmain, hblocks⟩ := Assembly.at_of_link hsound hlink
  have hcalls (l : Label) (hl : a.IsEntry l) :
      ∃ block c, Program.Into bad p a.pos a.IsEntry via (a.pos l) (.runs []) block c := by
    obtain ⟨stop, hat⟩ := hblocks l hl
    obtain ⟨b, hb, rfl⟩ := hl
    have hmem : b.code ∈ a.codes := List.mem_cons_of_mem _ (List.mem_map_of_mem (mem_reachable hb))
    rw [hsound.codeOf_entry (mem_reachable hb)] at hat
    exact ⟨_, _, .start (hsound.closed _ hmem) hat (hflows _ hmem)⟩
  refine ⟨fun q f => ∃ block c, Program.Into bad p a.pos a.IsEntry via q f block c, ⟨_, _, .start
    (hsound.closed _ (List.mem_cons_self ..)) hmain (hflows _ (List.mem_cons_self ..))⟩, ?_⟩
  rintro q f i ⟨block, c, hinto⟩ hi
  exact hinto.next hvia hcalls hi

end ParserMachine

import ParserMachine.Proofs.Binding.References
import ParserMachine.Proofs.Compiling.Calls
import ParserMachine.Proofs.Compiling.Unoptimized
import ParserMachine.Proofs.Linking.Layout
import ParserMachine.Proofs.Simplification.Refusals

/-!
# Labels from generation to linking

Generated code marks each label once and marks every label that an instruction refers to, and each round of
joining and of inlining keeps it so (`Assembly.Stage.wellLabelled`). So linking finds every label, and what it
makes is the layout with positions for labels (`Grammar.labels_resolved`).
-/

namespace ParserMachine

variable {τ : Type} [Token τ]

namespace Assembly

variable {o : Options} {a a' : Assembly τ}

/-- The labels of an assembly find what they stand for. -/
structure WellLabelled (a : Assembly τ) : Prop where
  /-- No label is marked twice; the entry of a subroutine counts as a mark. -/
  once : a.labels.Nodup
  /-- Every label that an instruction refers to is marked. -/
  marked : ∀ c ∈ a.codes, ∀ i, .instr i ∈ c → ∀ l ∈ i.targets, l ∈ a.labels
  /-- Only calls refer to labels outside of their own code. -/
  inside : ∀ c ∈ a.codes, ∀ i, .instr i ∈ c → (∀ l, i ≠ .call l) → ∀ l ∈ i.targets, l ∈ Code.marks c
  /-- Calls refer to entries of subroutines. -/
  calls : ∀ c ∈ a.codes, ∀ l, .instr (.call l) ∈ c → l ∈ a.entries

theorem mem_labels_of_mem_marks {c : Code τ} (hc : c ∈ a.codes) {l : Label} (hl : l ∈ Code.marks c) :
    l ∈ a.labels := by
  rcases List.mem_cons.1 hc with rfl | hc
  · exact List.mem_append_left _ hl
  · obtain ⟨b, hb, rfl⟩ := List.mem_map.1 hc
    exact List.mem_append_right _ (List.mem_flatMap.2 ⟨b, hb, List.mem_cons_of_mem _ hl⟩)

theorem mem_labels_of_mem_entries {l : Label} (hl : l ∈ a.entries) : l ∈ a.labels := by
  obtain ⟨b, hb, rfl⟩ := List.mem_map.1 hl
  exact List.mem_append_right _ (List.mem_flatMap.2 ⟨b, hb, List.mem_cons_self ..⟩)

theorem Sound.wellLabelled (h : a.Sound) : a.WellLabelled := by
  have hcalls (c : Code τ) (hc : c ∈ a.codes) (l : Label) (hl : .instr (.call l) ∈ c) : l ∈ a.entries :=
    h.calls c hc l (List.mem_filterMap.2 ⟨_, hl, rfl⟩)
  have hinside (c : Code τ) (hc : c ∈ a.codes) (i : Instr τ Label) (hi : .instr i ∈ c)
      (hcall : ∀ l, i ≠ .call l) (l : Label) (hl : l ∈ i.targets) : l ∈ Code.marks c := by
    apply (h.closed c hc).jumps _ hi
    have hplain : i.isPlain = true := by
      cases i with
      | call m => exact absurd rfl (hcall m)
      | ret => cases hl
      | _ => rfl
    have hjumps : Line.jumps (.instr i) = i.targets := if_pos hplain
    rw [hjumps]
    exact hl
  refine ⟨h.nodup, fun c hc i hi l hl => ?_, hinside, hcalls⟩
  by_cases hcall : ∃ m, i = .call m
  · obtain ⟨m, rfl⟩ := hcall
    obtain rfl := List.mem_singleton.1 hl
    exact mem_labels_of_mem_entries (hcalls c hc l hi)
  · exact mem_labels_of_mem_marks hc (hinside c hc i hi (not_exists.1 hcall) l hl)

/-- What rounds of joining and of inlining, in any order, make of an assembly. -/
inductive Stage (o : Options) (a : Assembly τ) : Assembly τ → Prop where
  /-- No round. -/
  | start : Stage o a a
  /-- One more round in which neighbours are joined and jumps are shortened. -/
  | tidied {a' : Assembly τ} : Stage o a a' → Stage o a a'.tidyRound.1
  /-- One more round in which calls are replaced by copies. -/
  | inlined {a' : Assembly τ} : Stage o a a' →
    Stage o a (a'.inlineRound (inlineBodies o.inlineThreshold a'.blocks)).1

/-- Every round keeps an assembly sound. -/
theorem Stage.sound (h : a.Stage o a') (hsound : a.Sound) : a'.Sound := by
  induction h with
  | start => exact hsound
  | tidied _ ih => exact (improves_tidyRound _ ih).1
  | @inlined a' _ ih =>
    exact ((inlines_inlineRound _ a').improves (inlinable_inlineBodies o.inlineThreshold a') ih).1

/-- After every round labels find what they stand for. -/
theorem Stage.wellLabelled (h : a.Stage o a') (hsound : a.Sound) : a'.WellLabelled :=
  (h.sound hsound).wellLabelled

theorem Stage.tidyFor (h : a.Stage o a') (rounds : Nat) : a.Stage o (a'.tidyFor rounds) := by
  induction rounds generalizing a' with
  | zero => exact h
  | succ rounds ih =>
    unfold Assembly.tidyFor
    dsimp only
    split
    · exact h.tidied
    · exact ih h.tidied

theorem Stage.tidyIf (h : a.Stage o a') : a.Stage o (a'.tidyIf o) := by
  unfold Assembly.tidyIf
  split
  · exact h.tidyFor _
  · exact h

theorem Stage.inlineFor (h : a.Stage o a') (rounds : Nat) :
    a.Stage o (a'.inlineFor o.inlineThreshold rounds).1 := by
  induction rounds generalizing a' with
  | zero => exact h
  | succ rounds ih =>
    unfold Assembly.inlineFor
    dsimp only
    split
    · exact h
    · exact ih h.inlined

/-- All that is done to an assembly before it is linked is done in rounds. -/
theorem stage_improve (o : Options) (a : Assembly τ) : a.Stage o (a.improve o) := by
  have hinlined : a.Stage o ((a.tidyIf o).inline o).1 := by
    have htidied := (Stage.start (o := o) (a := a)).tidyIf
    unfold inline
    split
    · exact htidied
    · exact htidied.inlineFor o.passes
  unfold improve
  dsimp only
  split
  · exact hinlined
  · exact hinlined.tidyIf

end Assembly

/-- Trees that are closed have a program, whose labels were found at every stage. -/
theorem Bound.Closed.exists_stages {b : Bound τ} (h : b.Closed) (o : Options) :
    ∃ a p, b.generate o = .ok a ∧ (∀ a', a.Stage o a' → a'.WellLabelled) ∧ a.Stage o (a.improve o) ∧
      (a.improve o).link = .ok p ∧ p.LaysOut (a.improve o) := by
  obtain ⟨a, p, hgenerate, hlink, hgenerates, hsound, -⟩ := h.exists_link o
  exact ⟨a, p, hgenerate, fun a' hstage => hstage.wellLabelled hgenerates.sound,
    Assembly.stage_improve o a, hlink, hsound.laysOut hlink⟩

/-- No compilation of a grammar that makes no calls itself fails for a label. Where binding and simplification
succeed, labels find what they stand for after generation and after every round over the code, and the program
is the layout of what is left in the end: its targets are the positions of the instructions that follow the
marks, its calls go to the beginnings of subroutines, it has just the subroutines that main calls, directly or
through others, and each block ends with a return. -/
theorem Grammar.labels_resolved {g : Grammar τ} (hcalls : g.CallFree) (o : Options) (root : NodeId) :
    (∀ l, g.compile o root ≠ .error (.unresolvedLabel l)) ∧
      ∀ b b', g.bind root = .ok b → b.optimize o = .ok b' →
        ∃ a p, b'.generate o = .ok a ∧ (∀ a', a.Stage o a' → a'.WellLabelled) ∧
          a.Stage o (a.improve o) ∧ g.compile o root = .ok p ∧ p.LaysOut (a.improve o) := by
  have hstages (b b' : Bound τ) (hbind : g.bind root = .ok b) (hoptimize : b.optimize o = .ok b') :
      ∃ a p, b'.generate o = .ok a ∧ (∀ a', a.Stage o a' → a'.WellLabelled) ∧
        a.Stage o (a.improve o) ∧ g.compile o root = .ok p ∧ p.LaysOut (a.improve o) := by
    have hclosed := (Bound.simplifies_of_optimize hoptimize).closed (hcalls.closed hbind)
    obtain ⟨a, p, hgenerate, hwell, hstage, hlink, hlaid⟩ := hclosed.exists_stages o
    have hcompile : g.compile o root = .ok p := bind_eq_ok_iff.2 ⟨b, hbind, bind_eq_ok_iff.2
      ⟨b', hoptimize, bind_eq_ok_iff.2 ⟨a, hgenerate, hlink⟩⟩⟩
    exact ⟨a, p, hgenerate, hwell, hstage, hcompile, hlaid⟩
  refine ⟨fun l hl => ?_, hstages⟩
  rcases hcalls.compile_eq_error_iff.1 hl with hbind | ⟨b, -, hoptimize⟩
  · rcases bind_error hbind with h | h <;> cases h
  · obtain ⟨q, q', -, -, -, h⟩ := Bound.refuses_of_optimize hoptimize
    cases h

theorem Grammar.labels_resolved_parenthesized :
    ∃ b b' a p, parenthesized.bind 6 = .ok b ∧ b.optimize {} = .ok b' ∧ b'.generate {} = .ok a ∧
      (a.improve {}).WellLabelled ∧ parenthesized.compile {} 6 = .ok p ∧ p.LaysOut (a.improve {}) := by
  have hcalls : parenthesized.CallFree := callFree_of_forall (by simp [parenthesized])
  have hok : (parenthesized.compile {} 6).isOk = true := by decide +kernel
  cases hcompile : parenthesized.compile {} 6 with
  | error e =>
    rw [hcompile] at hok
    cases hok
  | ok p =>
    obtain ⟨b, hbind, hrest⟩ := bind_eq_ok_iff.1 hcompile
    obtain ⟨b', hoptimize, -⟩ := bind_eq_ok_iff.1 hrest
    obtain ⟨a, p', hgenerate, hwell, hstage, hcompile', hlaid⟩ :=
      (labels_resolved hcalls {} 6).2 b b' hbind hoptimize
    rw [hcompile] at hcompile'
    cases hcompile'
    exact ⟨b, b', a, p, hbind, hoptimize, hgenerate, hwell _ hstage, rfl, hlaid⟩

end ParserMachine

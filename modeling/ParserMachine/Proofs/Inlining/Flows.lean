import ParserMachine.Proofs.Fusing.Flows
import ParserMachine.Proofs.Inlining.Rounds

/-!
# Flows of code with copies

Where calls are replaced by copies, control flows through each copy as through the subroutine, with what the caller
has put on the stacks below (`Code.Inlines.flows`). So nothing that is done to an assembly before it is linked takes
its flows away (`Assembly.Carries.improve`).
-/

namespace ParserMachine

variable {τ : Type} [Token τ] {bad : Unary τ → Prop} {bodies : Std.TreeMap Label (Block τ)}

/-- Only the flows matter by which control comes to the labels that an instruction jumps to. -/
theorem Instr.Passes.jumps {via : Label → Flow → Prop} {i : Instr τ Label} {f f' : Flow} (h : i.Passes bad via f f') :
    i.Passes bad (fun l g => via l g ∧ l ∈ Line.jumps (.instr i)) f f' := by
  cases h with
  | steady hi => exact .steady hi
  | failing hi => exact .failing hi
  | jump ht => exact .jump ⟨ht, List.mem_cons_self ..⟩
  | case ht => exact .case ⟨ht, List.mem_cons_self ..⟩
  | dispatch hts => exact .dispatch fun t ht => ⟨hts t ht, ht⟩
  | checkpoint ht => exact .checkpoint ⟨ht, List.mem_cons_self ..⟩
  | round ht => exact .round ⟨ht, List.mem_cons_self ..⟩
  | commit ht => exact .commit ⟨ht, List.mem_cons_self ..⟩
  | release ht => exact .release ⟨ht, List.mem_cons_self ..⟩
  | restore ht => exact .restore ⟨ht, List.mem_cons_self ..⟩
  | negFail hgood => exact .negFail hgood
  | labelOk hgood ht => exact .labelOk hgood ⟨ht, List.mem_cons_self ..⟩
  | loop hbody hexit =>
    exact .loop ⟨hbody, List.mem_cons_self ..⟩ ⟨hexit, List.mem_cons_of_mem _ (List.mem_cons_self ..)⟩
  | recover => exact .recover
  | manyDone => exact .manyDone
  | rewind => exact .rewind
  | negSucceed hgood => exact .negSucceed hgood
  | labelErr hgood => exact .labelErr hgood
  | guardErr hgood hf => exact .guardErr hgood hf
  | mark => exact .mark
  | slice => exact .slice

namespace Code

variable {via via' : Label → Flow → Prop} {c d : Code τ} {f f' : Flow} {k k' : Nat}

/-- Control flows through a copy as through the code, and more may lie below. -/
theorem Flows.renamed (h : c.Flows bad via f f') (base : List Slot) {ls : List Label} (hmarks : ∀ l ∈ marks c, l ∈ ls)
    (hjumps : ∀ line ∈ c, ∀ t ∈ line.jumps, t ∈ ls) {r : Label → Label}
    (hvia : ∀ l ∈ ls, ∀ g, via l g → via' (r l) (g.above base)) :
    (renamed r c).Flows bad via' (f.above base) (f'.above base) := by
  induction h with
  | nil => exact .nil _
  | mark hl _ ih =>
    rw [marks_mark, List.forall_mem_cons] at hmarks
    rw [List.forall_mem_cons] at hjumps
    exact .mark (hvia _ hmarks.1 _ hl) (ih hmarks.2 hjumps.2)
  | instr hi _ ih =>
    rw [List.forall_mem_cons] at hjumps
    exact .instr (hi.jumps.mapTargets fun t g ht => hvia t (hjumps.1 t ht.2) g ht.1) (ih hmarks hjumps.2)

theorem Definite.or (h : Definite via) (h' : Definite via') (hapart : ∀ l g g', via l g → ¬ via' l g') :
    Definite fun l g => via l g ∨ via' l g := by
  rintro l f g (hf | hf) (hg | hg)
  · exact h l f g hf hg
  · exact absurd hg (hapart l f g hf)
  · exact absurd hf (hapart l g f hg)
  · exact h' l f g hf hg

/-- Flows for the labels from one on up to another. -/
structure NewFlows (k k' : Nat) (new : Label → Flow → Prop) : Prop where
  /-- Control comes to each of them by one flow. -/
  definite : Definite new
  /-- They have no others. -/
  labels : ∀ l g, new l g → k ≤ l ∧ l < k'

theorem NewFlows.append {m : Nat} {new new' : Label → Flow → Prop} (h : NewFlows k m new) (h' : NewFlows m k' new')
    (hle : k ≤ m) (hle' : m ≤ k') : NewFlows k k' fun l g => new l g ∨ new' l g := by
  refine ⟨h.definite.or h'.definite fun l g g' hl hl' => ?_, ?_⟩
  · exact absurd (h.labels l g hl).2 (Nat.not_lt.2 (h'.labels l g' hl').1)
  · rintro l g (hl | hl)
    · exact ⟨(h.labels l g hl).1, Nat.lt_of_lt_of_le (h.labels l g hl).2 hle'⟩
    · exact ⟨Nat.le_trans hle (h'.labels l g hl).1, (h'.labels l g hl).2⟩

/-- How control comes to the labels of a copy. -/
def copyFlows (via : Label → Flow → Prop) (k : Nat) (c : Code τ) (base : List Slot) (m : Label) (g : Flow) : Prop :=
  ∃ l ∈ marks c, newName k c l = m ∧ ∃ g₀, via l g₀ ∧ g = g₀.above base

theorem newFlows_copyFlows (hvia : Definite via) (hnodup : (marks c).Nodup) (base : List Slot) :
    NewFlows k (k + (marks c).length) (copyFlows via k c base) := by
  have hnames := map_newName (k := k) hnodup
  refine ⟨?_, ?_⟩
  · rintro m f g ⟨l, hl, rfl, f₀, hf, rfl⟩ ⟨l', hl', heq, g₀, hg, rfl⟩
    have hinj := List.inj_on_of_nodup_map (hnames ▸ List.nodup_range') hl' hl heq
    rw [hvia l f₀ g₀ hf (hinj ▸ hg)]
  · rintro m g ⟨l, hl, rfl, -⟩
    have hmem : newName k c l ∈ List.range' k (marks c).length := hnames ▸ List.mem_map_of_mem hl
    exact List.mem_range'_1.1 hmem

/-- Control flows through code with copies, with flows for the labels that were handed out. -/
theorem Inlines.flows (hvia : Definite via) (hbodies : ∀ (l : Nat) b, bodies[l]? = some b →
      b.code.Closed ∧ b.code.Flows bad via (.runs []) (.runs [.value]))
    (h : Inlines bodies k c d k') (hc : c.Flows bad via f f') :
    ∃ new, NewFlows k k' new ∧ d.Flows bad (fun l g => via l g ∨ new l g) f f' := by
  induction h generalizing f with
  | nil => exact ⟨fun _ _ => False, ⟨nofun, nofun⟩, hc.mono fun _ _ => .inl⟩
  | line _ _ ih =>
    cases hc with
    | mark hl hc =>
      obtain ⟨new, hnew, hd⟩ := ih hc
      exact ⟨new, hnew, .mark (.inl hl) hd⟩
    | instr hi hc =>
      obtain ⟨new, hnew, hd⟩ := ih hc
      exact ⟨new, hnew, .instr (hi.mono fun _ _ => .inl) hd⟩
  | @copy k k' c d l b hb hrest ih =>
    cases hc with
    | instr hi hc =>
      obtain ⟨ks, rfl, rfl⟩ := (Instr.passes_iff_of_isSteady rfl).1 hi
      obtain ⟨new, hnew, hd⟩ := ih hc
      obtain ⟨hclosed, hflows⟩ := hbodies l b hb
      have hcopy := newFlows_copyFlows (k := k) hvia hclosed.nodup ks
      refine ⟨_, hcopy.append hnew (Nat.le_add_right _ _) hrest.le, .append ?_ (hd.mono ?_)⟩
      · exact hflows.renamed ks (fun _ => id) hclosed.jumps
          fun l hl g hg => .inr (.inl ⟨l, hl, rfl, g, hg, rfl⟩)
      · exact fun l g hl => hl.imp_right .inr

end Code

theorem Blocks.Inlines.flows {via : Label → Flow → Prop} {k k' : Nat} {bs bs' : List (Block τ)}
    (hvia : Code.Definite via) (hbodies : ∀ (l : Nat) b, bodies[l]? = some b →
      b.code.Closed ∧ b.code.Flows bad via (.runs []) (.runs [.value]))
    (h : Inlines bodies k bs bs' k') (hbs : ∀ b ∈ bs, b.code.Flows bad via (.runs []) (.runs [.value])) :
    ∃ new, Code.NewFlows k k' new ∧
      ∀ b ∈ bs', b.code.Flows bad (fun l g => via l g ∨ new l g) (.runs []) (.runs [.value]) := by
  induction h with
  | nil => exact ⟨fun _ _ => False, ⟨nofun, nofun⟩, nofun⟩
  | cons hc h ih =>
    rw [List.forall_mem_cons] at hbs
    obtain ⟨new, hnew, hflows⟩ := hc.flows hvia hbodies hbs.1
    obtain ⟨new', hnew', hflows'⟩ := ih hbs.2
    refine ⟨_, hnew.append hnew' hc.le h.le, List.forall_mem_cons.2 ⟨hflows.mono ?_, fun b hb => ?_⟩⟩
    · exact fun l g hl => hl.imp_right .inl
    · exact (hflows' b hb).mono fun l g hl => hl.imp_right .inr

namespace Assembly

variable {a a' : Assembly τ}

/-- Inlining keeps the flows of an assembly. -/
theorem Carries.inlines (ha : a.Carries bad) (hsound : a.Sound) (hbodies : a.Inlinable bodies)
    (h : a.Inlines bodies a') : a'.Carries bad := by
  obtain ⟨via, hvia, hfresh, hflows⟩ := ha
  have hbodies' (l : Nat) (b : Block τ) (hb : bodies[l]? = some b) :
      b.code.Closed ∧ b.code.Flows bad via (.runs []) (.runs [.value]) := by
    have hmem : b.code ∈ a.codes := List.mem_cons_of_mem _ (List.mem_map_of_mem (hbodies.mem l b hb).1)
    exact ⟨hsound.closed _ hmem, hflows _ hmem⟩
  cases h with
  | @round main main' bs bs' k m k' hmain hbs =>
    obtain ⟨new, hnew, hmain'⟩ := hmain.flows hvia hbodies' (hflows main (List.mem_cons_self ..))
    obtain ⟨new', hnew', hbs'⟩ := hbs.flows hvia hbodies' fun b hb =>
      hflows _ (List.mem_cons_of_mem _ (List.mem_map_of_mem hb))
    have hboth := hnew.append hnew' hmain.le hbs.le
    refine ⟨fun l g => via l g ∨ new l g ∨ new' l g, hvia.or hboth.definite fun l g g' hl hl' => ?_, ?_, ?_⟩
    · exact absurd (hfresh l g hl) (Nat.not_lt.2 (hboth.labels l g' hl').1)
    · rintro l g (hl | hl)
      · exact Nat.lt_of_lt_of_le (hfresh l g hl) (Nat.le_trans hmain.le hbs.le)
      · exact (hboth.labels l g hl).2
    · refine List.forall_mem_cons.2 ⟨hmain'.mono fun l g hl => hl.imp_right .inl, fun c hc => ?_⟩
      obtain ⟨b, hb, rfl⟩ := List.mem_map.1 hc
      exact (hbs' b (List.mem_of_mem_filter hb)).mono fun l g hl => hl.imp_right .inr

theorem Carries.inlineFor (h : a.Carries bad) (hsound : a.Sound) (threshold rounds : Nat) :
    (a.inlineFor threshold rounds).1.Carries bad := by
  induction rounds generalizing a with
  | zero => exact h
  | succ rounds ih =>
    unfold Assembly.inlineFor
    dsimp only
    split
    · exact h
    · have hbodies := inlinable_inlineBodies threshold a
      have hround := inlines_inlineRound (inlineBodies threshold a.blocks) a
      exact ih (h.inlines hsound hbodies hround) (hround.sound hsound hbodies)

/-- Nothing that is done to an assembly before it is linked takes its flows away. -/
theorem Carries.improve (h : a.Carries bad) (hsound : a.Sound) (o : Options) : (a.improve o).Carries bad := by
  have htidied := (improves_tidyIf o a hsound).1
  have hinlined : ((a.tidyIf o).inline o).1.Carries bad ∧ ((a.tidyIf o).inline o).1.Sound := by
    unfold Assembly.inline
    split
    · exact ⟨h.tidyIf hsound o, htidied⟩
    · exact ⟨(h.tidyIf hsound o).inlineFor htidied _ _, (improves_inlineFor _ _ _ htidied).1⟩
  unfold Assembly.improve
  dsimp only
  split
  · exact hinlined.1
  · exact hinlined.1.tidyIf hinlined.2 o

end Assembly

end ParserMachine

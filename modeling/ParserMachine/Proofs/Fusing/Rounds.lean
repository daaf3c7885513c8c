import Mathlib.Logic.Relation
import ParserMachine.Compile
import ParserMachine.Proofs.Fusing.Tidied
import ParserMachine.Proofs.Lists

/-!
# Rounds of tidying

One round over a block tidies it step by step (`Code.steps_tidy`), and so rounds over an assembly leave
what it does as it was (`Assembly.improves_tidyIf`).
-/

namespace ParserMachine

variable {τ : Type} [Token τ]

namespace Code

/-- Several steps of tidying. -/
abbrev Steps : Code τ → Code τ → Prop := Relation.ReflTransGen fun c d => c.Tidies c d

variable {block c d lines rest : Code τ} {l : Label}

/-! ### Joining -/

theorem reverse_append_cons (lines rest : Code τ) (line : Line τ) :
    (line :: lines).reverse ++ rest = lines.reverse ++ line :: rest := by
  rw [List.reverse_cons, List.append_assoc]
  rfl

theorem steps_addInstr (lines rest : Code τ) (i : Instr τ Label) :
    Steps (lines.reverse ++ .instr i :: rest) ((addInstr lines i).1.reverse ++ rest) := by
  induction lines generalizing i with
  | nil => exact .refl
  | cons line lines ih =>
    cases line with
    | mark l =>
      have hadd : (addInstr (.mark l :: lines) i).1 = .instr i :: .mark l :: lines := rfl
      rw [hadd, reverse_append_cons (.mark l :: lines)]
    | instr a =>
      unfold addInstr
      cases hfuse : a.fuse? i with
      | none => rw [← reverse_append_cons]
      | some o =>
        rw [reverse_append_cons]
        cases o with
        | none =>
          apply Relation.ReflTransGen.single
          apply Tidies.prepend
          exact .dropped hfuse (.refl _ _)
        | some j =>
          refine Relation.ReflTransGen.head ?_ (ih j)
          apply Tidies.prepend
          exact .joined hfuse (.refl _ _)

/-- The lines from which a jump over marks is left out. -/
theorem eq_of_dropJumpTo? {kept : Code τ} (h : dropJumpTo? l lines = some kept) :
    ∃ ls below, lines = ofMarks ls ++ .instr (.jump l) :: below ∧ kept = ofMarks ls ++ below := by
  induction lines generalizing kept with
  | nil => cases h
  | cons line lines ih =>
    cases line with
    | mark m =>
      unfold dropJumpTo? at h
      obtain ⟨kept', hkept', rfl⟩ := Option.map_eq_some_iff.1 h
      obtain ⟨ls, below, rfl, rfl⟩ := ih hkept'
      exact ⟨m :: ls, below, rfl, rfl⟩
    | instr i =>
      unfold dropJumpTo? at h
      split at h
      · rename_i heq
        cases heq
      · rename_i heq
        cases heq
        split at h
        · rename_i htl
          cases h
          exact ⟨[], lines, by rw [htl]; rfl, rfl⟩
        · cases h
      · cases h

theorem reverse_ofMarks (ls : List Label) : (ofMarks ls : Code τ).reverse = ofMarks ls.reverse := by
  unfold ofMarks
  rw [List.map_reverse]

theorem steps_addLine (lines rest : Code τ) (line : Line τ) :
    Steps (lines.reverse ++ line :: rest) ((addLine lines line).1.reverse ++ rest) := by
  cases line with
  | instr i => exact steps_addInstr lines rest i
  | mark l =>
    unfold addLine
    cases hdrop : dropJumpTo? l lines with
    | none =>
      dsimp only
      rw [hdrop, reverse_append_cons]
    | some kept =>
      dsimp only
      rw [hdrop]
      obtain ⟨ls, below, rfl, rfl⟩ := eq_of_dropJumpTo? hdrop
      rw [reverse_append_cons, List.reverse_append, List.reverse_append, List.append_assoc,
        List.append_assoc, reverse_append_cons, reverse_ofMarks]
      apply Relation.ReflTransGen.single
      apply Tidies.prepend
      exact .fallen _ (.refl _ _)

theorem steps_fuse (c : Code τ) : Steps c (fuse c).1 := by
  have hfold (rest : Code τ) : ∀ (lines : Code τ) n, Steps (lines.reverse ++ rest)
      (rest.foldl (fun done line => ((addLine done.1 line).1, done.2 + (addLine done.1 line).2))
        (lines, n)).1.reverse := by
    induction rest with
    | nil =>
      intro lines n
      rw [List.append_nil]
      exact .refl
    | cons line rest ih =>
      intro lines n
      exact (steps_addLine lines rest line).trans (ih _ _)
  exact hfold c [] 0

/-! ### Ways -/

/-- A mark of the first label leads over marks to a jump to the second one. -/
def Forwards (block : Code τ) (l t : Label) : Prop :=
  ∃ pre ls post, block = pre ++ .mark l :: (ofMarks ls ++ .instr (.jump t) :: post)

theorem Forwards.way {t : Label} (h : Forwards block l t) (hnodup : (marks block).Nodup) :
    Way block l t := by
  obtain ⟨pre, ls, post, hblock⟩ := h
  have hafter : after l block = ofMarks ls ++ .instr (.jump t) :: post := by
    apply after_of_suffix hnodup
    rw [hblock]
    exact List.suffix_append _ _
  exact .step hafter (.refl t)

theorem getElem?_foldl_insert {pending : List Label} {known : Std.TreeMap Label Label} {t t' : Label}
    (h : (pending.foldl (fun m l => m.insert l t) known)[l]? = some t') :
    (l ∈ pending ∧ t' = t) ∨ known[l]? = some t' := by
  induction pending generalizing known with
  | nil => exact .inr h
  | cons m pending ih =>
    rcases ih h with ⟨hl, ht⟩ | hknown
    · exact .inl ⟨List.mem_cons_of_mem _ hl, ht⟩
    · rw [Std.TreeMap.getElem?_insert] at hknown
      split at hknown
      · rename_i heq
        cases hknown
        rw [Std.LawfulEqCmp.compare_eq_iff_eq] at heq
        exact .inl ⟨heq ▸ List.mem_cons_self .., rfl⟩
      · exact .inr hknown

/-- What is known of the labels while a block is gone through holds of the block. -/
theorem forwards_of_forwardsFrom (pre : Code τ) (pending : List Label)
    {known : Std.TreeMap Label Label} {t : Label} (hblock : block = pre ++ (ofMarks pending.reverse ++ c))
    (hknown : ∀ (l t : Label), known[l]? = some t → Forwards block l t)
    (h : (forwardsFrom pending known c)[l]? = some t) : Forwards block l t := by
  induction c generalizing pre pending known with
  | nil => exact hknown l t h
  | cons line c ih =>
    cases line with
    | mark m =>
      refine ih pre (m :: pending) ?_ hknown h
      rw [hblock, List.reverse_cons]
      simp [ofMarks]
    | instr i =>
      have hnext : block = (pre ++ ofMarks pending.reverse ++ [Line.instr i]) ++ (ofMarks [] ++ c) := by
        rw [hblock]
        simp [ofMarks]
      unfold forwardsFrom at h
      split at h
      · rename_i heq
        cases heq
      · rename_i heq
        cases heq
      · rename_i t' rest heq
        cases heq
        refine ih _ [] hnext (fun l t h => ?_) h
        rcases getElem?_foldl_insert h with ⟨hl, rfl⟩ | h
        · obtain ⟨ls, ls', hpending⟩ := List.append_of_mem (List.mem_reverse.2 hl)
          refine ⟨pre ++ ofMarks ls, ls', c, ?_⟩
          rw [hblock, hpending]
          simp [ofMarks]
        · exact hknown l t h
      · rename_i heq
        cases heq
        exact ih _ [] hnext hknown h

theorem forwards_of_getElem? {t : Label} (h : (forwards block)[l]? = some t) : Forwards block l t :=
  forwards_of_forwardsFrom [] [] rfl (by simp) h

section Way

variable (hnodup : (marks block).Nodup)
include hnodup

theorem way_of_wayEnd? {steps : Nat} {l l' : Label}
    (h : wayEnd? (forwards block) steps l = some l') : Way block l l' := by
  induction steps generalizing l with
  | zero =>
    unfold wayEnd? at h
    split at h
    · cases h
    · cases h
      exact .refl _
  | succ steps ih =>
    unfold wayEnd? at h
    cases hnext : (forwards block)[l]? with
    | none =>
      rw [hnext] at h
      cases h
      exact .refl _
    | some next =>
      rw [hnext] at h
      exact ((forwards_of_getElem? hnext).way hnodup).trans (ih h)

theorem way_roundEnd (steps : Nat) (seen : List Label) (l : Label) :
    Way block l (roundEnd (forwards block) steps seen l) := by
  induction steps generalizing seen l with
  | zero => exact .refl l
  | succ steps ih =>
    unfold roundEnd
    cases hnext : (forwards block)[l]? with
    | none => exact .refl l
    | some next =>
      dsimp only
      split
      · exact .refl l
      · exact ((forwards_of_getElem? hnext).way hnodup).trans (ih _ next)

theorem way_destination (l : Label) : Way block l (destination (forwards block) l) := by
  unfold destination
  cases hend : wayEnd? (forwards block) (forwards block).size l with
  | none => exact way_roundEnd hnodup _ _ l
  | some l' => exact way_of_wayEnd? hnodup hend

theorem tidies_threadJumps : block.Tidies block (threadJumps block).1 := by
  have hlines (c : Code τ) :
      Tidies block c ((c.map (threadLine (forwards block))).map Prod.fst) := by
    induction c with
    | nil => exact .nil
    | cons line c ih =>
      rw [List.map_cons, List.map_cons]
      unfold threadLine
      split
      · exact .straight (way_destination hnodup _) ih
      · exact .line _ ih
  exact hlines block

end Way

theorem Steps.marks (h : Steps c d) : marks d = marks c := by
  induction h with
  | refl => rfl
  | tail _ hstep ih => exact hstep.marks.trans ih

theorem Steps.calls (h : Steps c d) : calls d = calls c := by
  induction h with
  | refl => rfl
  | tail _ hstep ih => exact hstep.calls.trans ih

/-- One round tidies a block step by step. -/
theorem steps_tidy (hnodup : (marks c).Nodup) : Steps c (tidy c).1 := by
  have hfused := steps_fuse c
  refine hfused.tail (tidies_threadJumps ?_)
  rw [hfused.marks]
  exact hnodup

end Code

/-! ### Assemblies -/

/-- A subroutine with tidied code. -/
structure Block.Tidies (b b' : Block τ) : Prop where
  /-- The label stays. -/
  label : b'.label = b.label
  /-- The entry stays. -/
  entry : b'.entry = b.entry
  /-- The code is tidied. -/
  code : b.code.Tidies b.code b'.code

theorem Block.Tidies.refl (b : Block τ) : b.Tidies b := ⟨rfl, rfl, .refl _ _⟩

/-- An assembly with tidied code. -/
structure Assembly.Tidies (a a' : Assembly τ) : Prop where
  /-- Main is tidied. -/
  main : a.main.Tidies a.main a'.main
  /-- Each subroutine is tidied. -/
  blocks : List.Forall₂ Block.Tidies a.blocks a'.blocks
  /-- The same labels are left. -/
  fresh : a'.fresh = a.fresh

namespace Assembly

variable {a a' : Assembly τ} {bs bs' : List (Block τ)}

theorem labels_of_tidies (h : List.Forall₂ Block.Tidies bs bs') :
    bs'.flatMap Block.labels = bs.flatMap Block.labels := by
  induction h with
  | nil => rfl
  | cons hb _ ih =>
    rw [List.flatMap_cons, List.flatMap_cons, ih, Block.labels, Block.labels, hb.entry,
      hb.code.marks]

theorem entries_of_tidies (h : List.Forall₂ Block.Tidies bs bs') :
    bs'.map Block.entry = bs.map Block.entry := by
  induction h with
  | nil => rfl
  | cons hb _ ih => rw [List.map_cons, List.map_cons, ih, hb.entry]

theorem Tidies.exists_code (h : a.Tidies a') {c' : Code τ} (hc' : c' ∈ a'.codes) :
    ∃ c ∈ a.codes, c.Tidies c c' := by
  rcases List.mem_cons.1 hc' with rfl | hc'
  · exact ⟨a.main, List.mem_cons_self .., h.main⟩
  · obtain ⟨b', hb', rfl⟩ := List.mem_map.1 hc'
    obtain ⟨b, hb, htidies⟩ := exists_of_mem_forall₂ h.blocks hb'
    exact ⟨b.code, List.mem_cons_of_mem _ (List.mem_map_of_mem hb), htidies.code⟩

theorem Tidies.sound (h : a.Tidies a') (hsound : a.Sound) : a'.Sound := by
  have hlabels : a'.labels = a.labels := by
    unfold labels
    rw [h.main.marks, labels_of_tidies h.blocks]
  refine ⟨?_, fun l hl => ?_, fun c' hc' => ?_, fun c' hc' l hl => ?_, fun b' hb' => ?_⟩
  · rw [hlabels]
    exact hsound.nodup
  · rw [hlabels] at hl
    rw [h.fresh]
    exact hsound.fresh l hl
  · obtain ⟨c, hc, htidies⟩ := h.exists_code hc'
    exact htidies.closed (hsound.closed c hc)
  · obtain ⟨c, hc, htidies⟩ := h.exists_code hc'
    rw [htidies.calls] at hl
    rw [entries, entries_of_tidies h.blocks]
    exact hsound.calls c hc l hl
  · obtain ⟨b, hb, htidies⟩ := exists_of_mem_forall₂ h.blocks hb'
    rw [htidies.label, htidies.entry]
    exact hsound.named b hb

theorem Tidies.codeOf (h : a.Tidies a') (l : Label) :
    (a.codeOf l).Tidies (a.codeOf l) (a'.codeOf l) := by
  have hfind (bs bs' : List (Block τ)) (h : List.Forall₂ Block.Tidies bs bs') :
      Code.Tidies (((bs.find? fun b => b.entry = l).map Block.code).getD [])
        (((bs.find? fun b => b.entry = l).map Block.code).getD [])
        (((bs'.find? fun b => b.entry = l).map Block.code).getD []) := by
    induction h with
    | nil => exact .nil
    | @cons b b' bs bs' hb _ ih =>
      by_cases hl : b.entry = l
      · rw [List.find?_cons_of_pos (by simpa using hl),
          List.find?_cons_of_pos (by simpa using hb.entry.trans hl)]
        exact hb.code
      · rw [List.find?_cons_of_neg (by simpa using hl),
          List.find?_cons_of_neg (by simpa [hb.entry] using hl)]
        exact ih
  exact hfind _ _ h.blocks

theorem tidied_start (h : a.Tidies a') (hsound : a.Sound) (input : List τ) :
    (a.start input).Tidied (a'.start input) :=
  ⟨hsound.start_sound input, rfl, h.main, h.main, rfl, .nil⟩

/-- A tidied assembly does what it did. -/
theorem Tidies.improves (h : a.Tidies a') : a.Improves a' := by
  intro hsound
  have hsimulates := Config.tidied_simulates h.codeOf hsound.codeOf_closed
  refine ⟨h.sound hsound, fun ho => ?_, fun hl => ?_⟩
  · obtain ⟨x, hx, hfinished, ho⟩ := ho
    obtain ⟨n, y, hn, hy⟩ := hsimulates.leads_of_ends (tidied_start h hsound _) hx
    have hy' := hy.finished hfinished
    refine ⟨y, ⟨⟨n, hn⟩, hy'.step?_eq_none _⟩, hy', ?_⟩
    rw [hy.state]
    exact ho
  · exact hsimulates.lasts (tidied_start h hsound _) hl

/-- Main may be tidied step by step. -/
theorem improves_main {c d : Code τ} (h : Code.Steps c d) (bs : List (Block τ)) (fresh : Label) :
    Improves ⟨c, bs, fresh⟩ ⟨d, bs, fresh⟩ := by
  induction h with
  | refl => exact .refl _
  | tail _ hstep ih =>
    apply ih.trans
    apply Tidies.improves
    exact ⟨hstep, List.forall₂_same.2 fun b _ => .refl b, rfl⟩

/-- A subroutine may be tidied step by step. -/
theorem improves_block {c d : Code τ} (h : Code.Steps c d) (main : Code τ) (b : Block τ)
    (pre post : List (Block τ)) (fresh : Label) :
    Improves ⟨main, pre ++ { b with code := c } :: post, fresh⟩
      ⟨main, pre ++ { b with code := d } :: post, fresh⟩ := by
  induction h with
  | refl => exact .refl _
  | tail _ hstep ih =>
    apply ih.trans
    apply Tidies.improves
    refine ⟨.refl _ _, ?_, rfl⟩
    apply List.rel_append
    · exact List.forall₂_same.2 fun b _ => .refl b
    · exact .cons ⟨rfl, rfl, hstep⟩ (List.forall₂_same.2 fun b _ => .refl b)

/-- All subroutines may be tidied. -/
theorem improves_blocks (main : Code τ) (bs pre : List (Block τ)) (fresh : Label) :
    Improves ⟨main, pre ++ bs, fresh⟩
      ⟨main, pre ++ bs.map fun b => { b with code := (Code.tidy b.code).1 }, fresh⟩ := by
  induction bs generalizing pre with
  | nil => exact .refl _
  | cons b bs ih =>
    intro hsound
    have hcode : b.code ∈ codes ⟨main, pre ++ b :: bs, fresh⟩ := by
      apply List.mem_cons_of_mem
      exact List.mem_map_of_mem (List.mem_append_right _ (List.mem_cons_self ..))
    have hsteps := Code.steps_tidy (hsound.closed _ hcode).nodup
    have hfirst := improves_block hsteps main b pre bs fresh
    have hrest := ih (pre ++ [{ b with code := (Code.tidy b.code).1 }])
    rw [List.append_assoc, List.append_assoc] at hrest
    exact hfirst.trans hrest hsound

theorem improves_tidyRound (a : Assembly τ) : a.Improves a.tidyRound.1 := by
  intro hsound
  have hsteps := Code.steps_tidy (hsound.closed _ (List.mem_cons_self ..)).nodup
  have hblocks := improves_blocks (Code.tidy a.main).1 a.blocks [] a.fresh
  have hround : a.tidyRound.1 = ⟨(Code.tidy a.main).1,
      [] ++ a.blocks.map fun b => { b with code := (Code.tidy b.code).1 }, a.fresh⟩ := by
    unfold tidyRound
    simp
  rw [hround]
  exact (improves_main hsteps a.blocks a.fresh).trans hblocks hsound

theorem improves_tidyFor (rounds : Nat) (a : Assembly τ) : a.Improves (a.tidyFor rounds) := by
  induction rounds generalizing a with
  | zero => exact .refl a
  | succ rounds ih =>
    unfold tidyFor
    have hround := improves_tidyRound a
    dsimp only
    split
    · exact hround
    · exact hround.trans (ih _)

/-- Tidying leaves what an assembly does as it was. -/
theorem improves_tidyIf (o : Options) (a : Assembly τ) : a.Improves (a.tidyIf o) := by
  unfold tidyIf
  split
  · exact improves_tidyFor _ a
  · exact .refl a

end Assembly

end ParserMachine

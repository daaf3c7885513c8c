import ParserMachine.Proofs.Assembly.Running
import ParserMachine.Proofs.Fusing.Neighbours
import ParserMachine.Proofs.Machine.Buffer

/-!
# Tidied code

Code is tidied at any number of places: neighbours are joined or left out, a jump over marks to one of
them is left out, and a jump goes straight to where its way leads (`Code.Tidies`). Marks and calls stay
where they are, so that handlers and other blocks see no difference, and the tidied code runs through
the same states (`Config.tidied_simulates`).
-/

namespace ParserMachine

variable {τ : Type} [Token τ]

namespace Code

/-- Marks of labels. -/
def ofMarks (ls : List Label) : Code τ := ls.map .mark

/-- After the first label there are jumps that lead to after the second one. -/
inductive Way (block : Code τ) : Label → Label → Prop where
  /-- The end of the way. -/
  | refl (t : Label) : Way block t t
  /-- A jump on the way. -/
  | step {t t₁ t' : Label} {ls : List Label} {rest : Code τ} :
    after t block = ofMarks ls ++ .instr (.jump t₁) :: rest → Way block t₁ t' → Way block t t'

/-- Code of a block and what it is tidied to. -/
inductive Tidies (block : Code τ) : Code τ → Code τ → Prop where
  /-- The end. -/
  | nil : Tidies block [] []
  /-- A line that stays. -/
  | line {c d : Code τ} (line : Line τ) : Tidies block c d → Tidies block (line :: c) (line :: d)
  /-- Neighbours become one instruction. -/
  | joined {c d : Code τ} {a b j : Instr τ Label} : a.fuse? b = some (some j) → Tidies block c d →
    Tidies block (.instr a :: .instr b :: c) (.instr j :: d)
  /-- Neighbours are left out. -/
  | dropped {c d : Code τ} {a b : Instr τ Label} : a.fuse? b = some none → Tidies block c d →
    Tidies block (.instr a :: .instr b :: c) d
  /-- A jump over marks is left out. -/
  | fallen {c d : Code τ} {l : Label} (ls : List Label) : Tidies block (ofMarks ls ++ .mark l :: c) d →
    Tidies block (.instr (.jump l) :: (ofMarks ls ++ .mark l :: c)) d
  /-- A jump goes straight to where its way leads. -/
  | straight {c d : Code τ} {t t' : Label} : Way block t t' → Tidies block c d →
    Tidies block (.instr (.jump t) :: c) (.instr (.jump t') :: d)

variable {block c d : Code τ}

theorem Way.trans {t t₁ t' : Label} (h : Way block t t₁) (h' : Way block t₁ t') :
    Way block t t' := by
  induction h with
  | refl => exact h'
  | step hafter _ ih => exact .step hafter (ih h')

theorem Tidies.refl (block c : Code τ) : Tidies block c c := by
  induction c with
  | nil => exact .nil
  | cons line c ih => exact .line line ih

theorem Tidies.prepend (h : Tidies block c d) (pre : Code τ) : Tidies block (pre ++ c) (pre ++ d) := by
  induction pre with
  | nil => exact h
  | cons line pre ih => exact .line line ih

/-- Marks at the beginning stay. -/
theorem Tidies.of_marks {ls : List Label} (h : Tidies block (ofMarks ls ++ c) d) :
    ∃ d', d = ofMarks ls ++ d' ∧ Tidies block c d' := by
  induction ls generalizing d with
  | nil => exact ⟨d, rfl, h⟩
  | cons l ls ih =>
    cases h with
    | line _ h =>
      obtain ⟨d', rfl, h'⟩ := ih h
      exact ⟨d', rfl, h'⟩

theorem Tidies.marks (h : Tidies block c d) : marks d = marks c := by
  induction h with
  | nil => rfl
  | line line _ ih =>
    cases line with
    | mark l => exact congrArg (l :: ·) ih
    | instr i => exact ih
  | joined _ _ ih => exact ih
  | dropped _ _ ih => exact ih
  | fallen _ _ ih => exact ih
  | straight _ _ ih => exact ih

theorem Tidies.calls (h : Tidies block c d) : calls d = calls c := by
  induction h with
  | nil => rfl
  | line line _ ih => rw [calls_cons, calls_cons, ih]
  | joined hfuse _ ih =>
    obtain ⟨ha, hb, hj⟩ := Instr.isStraight_of_fuse? hfuse
    simp only [calls_cons, Instr.call?_of_isStraight, ha, hb, hj _ rfl]
    exact ih
  | dropped hfuse _ ih =>
    obtain ⟨ha, hb, -⟩ := Instr.isStraight_of_fuse? hfuse
    simp only [calls_cons, Instr.call?_of_isStraight, ha, hb]
    exact ih
  | fallen _ _ ih => exact ih
  | straight _ _ ih => exact ih

theorem Tidies.after (h : Tidies block c d) (l : Label) : Tidies block (after l c) (after l d) := by
  induction h with
  | nil => exact .nil
  | line line h ih =>
    cases line with
    | mark m =>
      unfold Code.after
      split
      · exact h
      · exact ih
    | instr i => exact ih
  | joined _ _ ih => exact ih
  | dropped _ _ ih => exact ih
  | fallen _ _ ih => exact ih
  | straight _ _ ih => exact ih

/-- A label that can be reached by a way from a mark is a mark. -/
theorem Way.mem_marks (hclosed : block.Closed) {t t' : Label} (h : Way block t t')
    (ht : t ∈ marks block) : t' ∈ marks block := by
  induction h with
  | refl => exact ht
  | @step t t₁ t' ls rest hafter _ ih =>
    apply ih
    have hmem : .instr (.jump t₁) ∈ block := by
      apply (Code.after_suffix t block).subset
      rw [hafter]
      exact List.mem_append_right _ (List.mem_cons_self ..)
    exact hclosed.jumps _ hmem t₁ (List.mem_singleton_self t₁)

/-- The lines of tidied code jump to marks of the block. -/
theorem Tidies.lines (hclosed : block.Closed) (h : Tidies block c d)
    (hc : ∀ line ∈ c, (∀ t ∈ line.jumps, t ∈ Code.marks block) ∧ line ≠ .instr .ret) :
    ∀ line ∈ d, (∀ t ∈ line.jumps, t ∈ Code.marks block) ∧ line ≠ .instr .ret := by
  induction h with
  | nil => exact hc
  | line line _ ih =>
    rw [List.forall_mem_cons] at hc ⊢
    exact ⟨hc.1, ih hc.2⟩
  | @joined c d a b j hfuse _ ih =>
    obtain ⟨-, -, hj⟩ := Instr.isStraight_of_fuse? hfuse
    have hplain := Instr.isPlain_of_isStraight (hj j rfl)
    rw [List.forall_mem_cons, List.forall_mem_cons] at hc
    rw [List.forall_mem_cons]
    refine ⟨⟨fun t ht => ?_, ?_⟩, ih hc.2.2⟩
    · have hjumps : Line.jumps (.instr j) = j.targets := if_pos hplain
      rw [hjumps, Instr.targets_of_isStraight (hj j rfl)] at ht
      cases ht
    · rintro ⟨⟩
      cases hplain
  | dropped _ _ ih =>
    rw [List.forall_mem_cons, List.forall_mem_cons] at hc
    exact ih hc.2.2
  | fallen _ _ ih =>
    rw [List.forall_mem_cons] at hc
    exact ih hc.2
  | @straight c d t t' hway _ ih =>
    rw [List.forall_mem_cons] at hc ⊢
    refine ⟨⟨fun t'' ht => ?_, nofun⟩, ih hc.2⟩
    rw [List.mem_singleton.1 ht]
    exact hway.mem_marks hclosed (hc.1.1 t (List.mem_singleton_self t))

/-- Tidied blocks are closed. -/
theorem Tidies.closed (hclosed : block.Closed) (h : Tidies block block d) : d.Closed := by
  have hlines := h.lines hclosed fun line hline =>
    ⟨hclosed.jumps line hline, fun hret => hclosed.noRet (hret ▸ hline)⟩
  rw [← h.marks] at hlines
  refine ⟨?_, fun line hline => (hlines line hline).1, fun hret => (hlines _ hret).2 rfl⟩
  rw [h.marks]
  exact hclosed.nodup

end Code

/-- An activation that waits, in tidied code. -/
structure Frame.Tidied (f f' : Frame τ) : Prop where
  /-- The block is tidied. -/
  block : f.block.Tidies f.block f'.block
  /-- What is left is tidied. -/
  rest : f.block.Tidies f.rest f'.rest
  /-- The handlers are the same. -/
  handlers : f'.handlers = f.handlers

/-- Activations that run in tidied code. -/
structure Config.Tidied (x y : Config τ) : Prop where
  /-- They are sound. -/
  sound : x.Sound
  /-- All input is there. -/
  more : x.state.more = false
  /-- The block is tidied. -/
  block : x.block.Tidies x.block y.block
  /-- What is left is tidied. -/
  rest : x.block.Tidies x.rest y.rest
  /-- The state is the same. -/
  state : y.state = x.state
  /-- The activations that wait are tidied. -/
  frames : List.Forall₂ Frame.Tidied x.frames y.frames

namespace Config

variable {codeOf codeOf' : Label → Code τ} {x x' y : Config τ} {block rest block' rest' : Code τ}
  {s t : State τ} {frames frames' : List (Frame τ)}

/-- Where tidied code arrives. -/
theorem tidied_arrive (hsound : (arrive block rest t frames).Sound) (hmore : t.more = false)
    (hblock : block.Tidies block block') (hrest : t.pc = 1 → block.Tidies rest rest')
    (hframes : List.Forall₂ Frame.Tidied frames frames') :
    Tidied (arrive block rest t frames) (arrive block' rest' t frames') := by
  refine ⟨hsound, hmore, hblock, ?_, rfl, hframes⟩
  show block.Tidies (if t.pc = 1 then rest else _) (if t.pc = 1 then rest' else _)
  by_cases hpc : t.pc = 1
  · rw [if_pos hpc, if_pos hpc]
    exact hrest hpc
  · rw [if_neg hpc, if_neg hpc]
    exact hblock.after _

theorem leads_ofMarks (ls : List Label) (hs : s.status = .running) :
    Leads (step? codeOf) ls.length ⟨block, Code.ofMarks ls ++ rest, s, frames⟩
      ⟨block, rest, s, frames⟩ := by
  induction ls with
  | nil => exact Leads.refl _ _
  | cons l ls ih => exact Leads.cons (step?_mark l hs) ih

theorem step?_jump_goto (t : Label) (hs : s.status = .running) (hpc : s.pc = 0) :
    step? codeOf ⟨block, .instr (.jump t) :: rest, s, frames⟩ =
      some ⟨block, Code.after t block, s, frames⟩ := by
  rw [step?_instr hs rfl]
  exact congrArg some (arrive_goto t hpc)

variable (codeOf frames) in
/-- Code runs along a way of jumps. -/
theorem leads_of_way {t t' : Label} (h : Code.Way block t t') (hs : s.status = .running)
    (hpc : s.pc = 0) : ∃ n, Leads (step? codeOf) n ⟨block, Code.after t block, s, frames⟩
      ⟨block, Code.after t' block, s, frames⟩ := by
  induction h with
  | refl => exact ⟨0, Leads.refl _ _⟩
  | @step t t₁ t' ls rest hafter _ ih =>
    obtain ⟨n, hn⟩ := ih
    rw [hafter]
    exact ⟨_, (leads_ofMarks ls hs).trans (Leads.cons (step?_jump_goto t₁ hs hpc) hn)⟩

theorem Sound.atLine (h : Sound ⟨block, rest, s, frames⟩) (hs : s.status = .running)
    (hmore : s.more = false) : s.AtLine := by
  refine ⟨hs, h.pc, hmore, fun x hx => ?_⟩
  obtain ⟨l, -, hl⟩ := h.handlers x hx
  rw [hl]
  exact Nat.le_add_left 2 l

/-- No step makes input arrive. -/
theorem Step.more (h : Step codeOf x x') : x'.state.more = x.state.more := by
  cases h with
  | back | mark | call => rfl
  | instr => exact (State.sameBuffer_exec 0 _ _).2
  | @failed block rest s f frames _ =>
    let t : State τ := { s with status := .running, handlers := f.handlers }
    exact (State.SameBuffer.unwind (State.SameBuffer.refl t)).2

/-- An instruction of tidied code. -/
theorem Tidied.instr {i : Instr τ Label}
    (h : Tidied ⟨block, .instr i :: rest, s, frames⟩ ⟨block', rest', s, frames'⟩)
    (hclosed : ∀ l, (codeOf l).Closed) (hs : s.status = .running) (hfits : i.fits s = true) :
    ∃ n m x y, Leads (step? codeOf) n (arrive block rest (s.exec 0 i.shifted) frames) x ∧
      Leads (step? codeOf') m ⟨block', rest', s, frames'⟩ y ∧ Tidied x y ∧
      (m = 0 → x.rest.length < rest.length + 1) := by
  obtain ⟨hsound, hmore, hblock, hrest, -, hframes⟩ := h
  have hstep : Step codeOf ⟨block, .instr i :: rest, s, frames⟩
      (arrive block rest (s.exec 0 i.shifted) frames) := .instr hs hfits
  have hsound' := hstep.sound hclosed hsound
  have hmore' := hstep.more.trans hmore
  have hline := hsound.atLine hs hmore
  cases hrest with
  | line _ hrest =>
    refine ⟨0, 1, _, _, Leads.refl _ _, Leads.single (step?_instr hs hfits), ?_, nofun⟩
    exact tidied_arrive hsound' hmore' hblock (fun _ => hrest) hframes
  | @joined c d a b j hfuse hrest =>
    obtain ⟨-, hb, hj⟩ := Instr.isStraight_of_fuse? hfuse
    have hjoined : step? codeOf' ⟨block', .instr j :: d, s, frames'⟩ =
        some (arrive block' d (s.exec 0 j.shifted) frames') :=
      step?_instr hs (Instr.fits_of_isStraight (hj j rfl) s)
    cases Instr.follows_of_fuse? hline hfuse with
    | leaves hne heq =>
      refine ⟨0, 1, _, _, Leads.refl _ _, Leads.single hjoined, ?_, nofun⟩
      rw [heq]
      exact tidied_arrive hsound' hmore' hblock (fun hpc => absurd hpc hne) hframes
    | goes t ht hrun hpc heq =>
      -- the second neighbour is run, too, before the activations meet again
      rw [ht, arrive_next hpc] at hsound' hmore' ⊢
      have hsecond : Step codeOf ⟨block, .instr b :: c, t, frames⟩
          (arrive block c (t.exec 0 b.shifted) frames) :=
        .instr hrun (Instr.fits_of_isStraight hb t)
      refine ⟨1, 1, _, _, Leads.single hsecond.step?, Leads.single hjoined, ?_, nofun⟩
      rw [heq]
      exact tidied_arrive (hsecond.sound hclosed hsound') (hsecond.more.trans hmore') hblock
        (fun _ => hrest) hframes
  | @dropped c d a b hfuse hrest =>
    obtain ⟨-, hb, -⟩ := Instr.isStraight_of_fuse? hfuse
    obtain ⟨t, ht, hrun, hpc, hnext⟩ := Instr.exec_of_fuse?_none s hfuse
    rw [ht, arrive_next (hpc.trans hline.pc)] at hsound' hmore' ⊢
    have hsecond : Step codeOf ⟨block, .instr b :: c, t, frames⟩
        (arrive block c (t.exec 0 b.shifted) frames) :=
      .instr (hrun.trans hs) (Instr.fits_of_isStraight hb t)
    have hsound'' := hsecond.sound hclosed hsound'
    rw [hnext, arrive_next hline.pc] at hsecond hsound''
    refine ⟨1, 0, _, _, Leads.single hsecond.step?, Leads.refl _ _, ?_, fun _ => ?_⟩
    · exact ⟨hsound'', hmore, hblock, hrest, rfl, hframes⟩
    · show c.length < c.length + 1 + 1
      omega
  | @fallen c d l ls hrest =>
    obtain ⟨d', rfl, hrest'⟩ := hrest.of_marks
    cases hrest' with
    | @line c d' _ hrest' =>
      have hafter : Code.after l block = c := by
        apply Code.after_of_suffix hsound.closed.nodup
        exact (List.suffix_append _ _).trans ((List.suffix_cons _ _).trans hsound.suffix)
      have harrive : arrive block (Code.ofMarks ls ++ .mark l :: c)
          (s.exec 0 (Instr.shifted (.jump l))) frames = ⟨block, c, s, frames⟩ := by
        rw [← hafter]
        exact arrive_goto l hline.pc
      rw [harrive] at hsound' ⊢
      refine ⟨0, _, _, _, Leads.refl _ _,
        (leads_ofMarks ls hs).trans (Leads.single (step?_mark l hs)), ?_, nofun⟩
      exact ⟨hsound', hmore, hblock, hrest', rfl, hframes⟩
  | @straight _ d t t' hway hrest =>
    have harrive : arrive block rest (s.exec 0 (Instr.shifted (.jump t))) frames =
        ⟨block, Code.after t block, s, frames⟩ := arrive_goto t hline.pc
    rw [harrive]
    obtain ⟨n, hn⟩ := leads_of_way codeOf frames hway hs hline.pc
    refine ⟨n, 1, _, _, hn, Leads.single (step?_jump_goto t' hs hline.pc), ?_, nofun⟩
    refine ⟨?_, hmore, hblock, hblock.after t', rfl, hframes⟩
    exact ⟨hsound.closed, Code.after_suffix _ _, hsound.handlers, hsound.pc, hsound.failed,
      hsound.frames⟩

/-- Tidied code has finished where the code has. -/
theorem Tidied.finished (h : Tidied x y) (hx : x.Finished) : y.Finished := by
  obtain ⟨block', rest', s', frames'⟩ := y
  obtain ⟨-, -, -, hrest, hstate, hframes⟩ := h
  dsimp only at hstate hrest hframes
  subst hstate
  unfold Finished at hx ⊢
  dsimp only
  cases hs : x.state.status with
  | running =>
    simp only [hs] at hx ⊢
    obtain ⟨hrest', hclean, hframes'⟩ := hx
    rw [hrest'] at hrest
    rw [hframes'] at hframes
    cases hrest
    cases hframes
    exact ⟨rfl, hclean, rfl⟩
  | failed =>
    simp only [hs] at hx ⊢
    rw [hx] at hframes
    cases hframes
    rfl
  | suspended =>
    simp only [hs] at hx
  | faulted f => trivial

/-- Code that is tidied runs through the same states. -/
theorem tidied_simulates (hcode : ∀ l, (codeOf l).Tidies (codeOf l) (codeOf' l))
    (hclosed : ∀ l, (codeOf l).Closed) :
    Simulates (step? codeOf) (step? codeOf') Tidied fun x => x.rest.length := by
  intro x x' y h hstep
  obtain ⟨hsound, hmore, hblock, hrest, hstate, hframes⟩ := h
  have hret : .instr .ret ∉ x.rest := fun hmem => hsound.closed.noRet (hsound.suffix.subset hmem)
  have hstep := Step.of_step? hstep hret
  have hsound' := hstep.sound hclosed hsound
  have hmore' := hstep.more.trans hmore
  obtain ⟨block', rest', s', frames'⟩ := y
  dsimp only at hstate hblock hrest hframes
  subst hstate
  cases hstep with
  | @back block s f frames hs hhandlers =>
    cases hrest
    cases hframes with
    | @cons _ f' _ frames' hf hframes =>
      refine ⟨0, 1, _, _, Leads.refl _ _, Leads.single (step?_end f' hs hhandlers), ?_, nofun⟩
      refine ⟨hsound', hmore, hf.block, hf.rest, ?_, hframes⟩
      rw [hf.handlers]
  | @mark block rest s l frames hs =>
    cases hrest with
    | line _ hrest =>
      refine ⟨0, 1, _, _, Leads.refl _ _, Leads.single (step?_mark l hs), ?_, nofun⟩
      exact ⟨hsound', hmore, hblock, hrest, rfl, hframes⟩
  | @call block rest s l frames hs =>
    cases hrest with
    | line _ hrest =>
      refine ⟨0, 1, _, _, Leads.refl _ _, Leads.single (step?_call l hs), ?_, nofun⟩
      exact ⟨hsound', hmore, hcode l, hcode l, rfl, .cons ⟨hblock, hrest, rfl⟩ hframes⟩
    | joined hfuse => exact nomatch (Instr.isStraight_of_fuse? hfuse).1
    | dropped hfuse => exact nomatch (Instr.isStraight_of_fuse? hfuse).1
  | @failed block rest s f frames hs =>
    cases hframes with
    | @cons _ f' _ frames' hf hframes =>
      refine ⟨0, 1, _, _, Leads.refl _ _, Leads.single (step?_failed f' hs), ?_, nofun⟩
      rw [hf.handlers]
      exact tidied_arrive hsound' hmore' hf.block (fun _ => .nil) hframes
  | @instr block rest s i frames hs hfits =>
    exact Tidied.instr ⟨hsound, hmore, hblock, hrest, rfl, hframes⟩ hclosed hs hfits

end Config

end ParserMachine

import ParserMachine.Proofs.Machine.Destinations

/-!
# Sound configurations

Code is closed if it jumps only to labels that it marks, marks none twice and does not return before
its end. While closed code runs, the lines that are left are the end of their block and handlers point to
marks of it (`Config.Sound`); every step keeps this up (`Config.Step.sound`).
-/

namespace ParserMachine

variable {τ : Type} [Token τ]

/-- The labels that a line jumps to within its block. -/
def Line.jumps : Line τ → List Label
  | mark _ => []
  | instr i => if i.isPlain then i.targets else []

/-- Whether control stays in the code until its end. -/
structure Code.Closed (c : Code τ) : Prop where
  /-- No label is marked twice. -/
  nodup : (Code.marks c).Nodup
  /-- Jumps stay in the code. -/
  jumps : ∀ line ∈ c, ∀ t ∈ line.jumps, t ∈ Code.marks c
  /-- The code is left at its end. -/
  noRet : .instr .ret ∉ c

theorem Code.Closed.nil : Code.Closed ([] : Code τ) := ⟨List.nodup_nil, nofun, nofun⟩

/-- Whether handlers point to marks of a block. -/
def Code.Holds (block : Code τ) (handlers : List Handler) : Prop :=
  ∀ h ∈ handlers, ∃ l ∈ Code.marks block, h.pc = l + 2

/-- An activation that may go on. -/
structure Frame.Sound (f : Frame τ) : Prop where
  /-- Its code is closed. -/
  closed : f.block.Closed
  /-- What is left is the end of the block. -/
  suffix : f.rest <:+ f.block
  /-- Its handlers point to marks. -/
  handlers : f.block.Holds f.handlers

/-- A configuration that runs closed code. -/
structure Config.Sound (x : Config τ) : Prop where
  /-- The code is closed. -/
  closed : x.block.Closed
  /-- What is left is the end of the block. -/
  suffix : x.rest <:+ x.block
  /-- Handlers point to marks. -/
  handlers : x.block.Holds x.state.handlers
  /-- The current instruction stands at 0. -/
  pc : x.state.pc = 0
  /-- A failure has left no handler. -/
  failed : x.state.status = .failed → x.state.handlers = []
  /-- The waiting activations may go on. -/
  frames : ∀ f ∈ x.frames, f.Sound

namespace Config

variable {codeOf : Label → Code τ} {x y : Config τ}

/-- The steps of a machine in closed code. -/
inductive Step (codeOf : Label → Code τ) : Config τ → Config τ → Prop where
  /-- An activation has come to its end. -/
  | back {block : Code τ} {s : State τ} {f : Frame τ} {frames : List (Frame τ)} :
    s.status = .running → s.handlers = [] →
    Step codeOf ⟨block, [], s, f :: frames⟩
      ⟨f.block, f.rest, { s with handlers := f.handlers }, frames⟩
  /-- A mark is passed. -/
  | mark {block rest : Code τ} {s : State τ} {l : Label} {frames : List (Frame τ)} :
    s.status = .running →
    Step codeOf ⟨block, .mark l :: rest, s, frames⟩ ⟨block, rest, s, frames⟩
  /-- A subroutine is called. -/
  | call {block rest : Code τ} {s : State τ} {l : Label} {frames : List (Frame τ)} :
    s.status = .running →
    Step codeOf ⟨block, .instr (.call l) :: rest, s, frames⟩
      ⟨codeOf l, codeOf l, { s with handlers := [] }, ⟨block, rest, s.handlers⟩ :: frames⟩
  /-- An instruction is run. -/
  | instr {block rest : Code τ} {s : State τ} {i : Instr τ Label} {frames : List (Frame τ)} :
    s.status = .running → i.fits s = true →
    Step codeOf ⟨block, .instr i :: rest, s, frames⟩ (arrive block rest (s.exec 0 i.shifted) frames)
  /-- A failure goes on in the activation below. -/
  | failed {block rest : Code τ} {s : State τ} {f : Frame τ} {frames : List (Frame τ)} :
    s.status = .failed →
    Step codeOf ⟨block, rest, s, f :: frames⟩
      (arrive f.block []
        (State.unwind { s with status := .running, handlers := f.handlers }) frames)

theorem Step.of_step? (h : step? codeOf x = some y) (hret : .instr .ret ∉ x.rest) :
    Step codeOf x y := by
  obtain ⟨block, rest, s, frames⟩ := x
  unfold step? at h
  dsimp only at h
  split at h
  · rename_i hs
    split at h
    · split at h
      · rename_i hhandlers
        cases h
        exact .back hs hhandlers
      · cases h
    · cases h
      exact .mark hs
    · cases h
      exact .call hs
    · exact absurd (List.mem_cons_self ..) hret
    · split at h
      · rename_i hfits
        cases h
        exact .instr hs hfits
      · cases h
  · rename_i hs
    split at h
    · cases h
    · cases h
      exact .failed hs
  · cases h

theorem Step.step? (h : Step codeOf x y) : step? codeOf x = some y := by
  cases h with
  | back hs hhandlers => exact step?_end _ hs hhandlers
  | mark hs => exact step?_mark _ hs
  | call hs => exact step?_call _ hs
  | instr hs hfits => exact step?_instr hs hfits
  | failed hs => exact step?_failed _ hs

end Config

theorem Instr.targets_shifted (i : Instr τ Label) : i.shifted.targets = i.targets.map (· + 2) :=
  targets_mapTargets _ i

theorem Instr.isPlain_shifted (i : Instr τ Label) : i.shifted.isPlain = i.isPlain := by
  cases i <;> rfl

theorem Instr.leaves_shifted (i : Instr τ Label) : i.shifted.leaves = i.leaves := by
  cases i <;> rfl

theorem Instr.fits_shifted (i : Instr τ Label) (s : State τ) : i.shifted.fits s = i.fits s := by
  unfold fits
  rw [isPlain_shifted, leaves_shifted]

theorem Instr.isPlain_of_fits {i : Instr τ Label} {s : State τ} (h : i.fits s = true) :
    i.isPlain = true := by
  unfold fits at h
  exact (Bool.and_eq_true_iff.1 h).1

namespace Config

variable {codeOf : Label → Code τ} {x y : Config τ} {block rest : Code τ} {s t : State τ}
  {frames : List (Frame τ)}

/-- An instruction of a closed block goes on within the block. -/
theorem Sound.goes {i : Instr τ Label} (h : Sound ⟨block, .instr i :: rest, s, frames⟩)
    (hs : s.status = .running) (hfits : i.fits s = true) :
    block.Holds (s.exec 0 i.shifted).handlers ∧
      ((s.exec 0 i.shifted).status = .failed → (s.exec 0 i.shifted).handlers = []) ∧
      ((s.exec 0 i.shifted).status = .running →
        (s.exec 0 i.shifted).pc = 1 ∨ ∃ l ∈ Code.marks block, (s.exec 0 i.shifted).pc = l + 2) := by
  have hgoes := State.exec_goes hs ((Instr.fits_shifted i s).trans hfits) 0
  have hmem : .instr i ∈ block := h.suffix.subset (List.mem_cons_self ..)
  have htarget (t : Nat) (ht : t ∈ i.shifted.targets) : ∃ l ∈ Code.marks block, t = l + 2 := by
    rw [Instr.targets_shifted] at ht
    obtain ⟨l, hl, rfl⟩ := List.mem_map.1 ht
    have hjumps : Line.jumps (.instr i) = i.targets := if_pos (Instr.isPlain_of_fits hfits)
    exact ⟨l, h.closed.jumps _ hmem l (hjumps ▸ hl), rfl⟩
  refine ⟨fun x hx => ?_, hgoes.failed, fun hr => ?_⟩
  · rcases hgoes.handlers x hx with hold | hnew
    · exact h.handlers x hold
    · exact htarget _ hnew
  · rcases hgoes.pc hr with hnext | htarg | ⟨x, hx, hpc⟩
    · rw [h.pc] at hnext
      exact .inl hnext
    · exact .inr (htarget _ htarg)
    · rw [hpc]
      exact .inr (h.handlers x hx)

theorem arrive_sound (hclosed : block.Closed) (hsuffix : rest <:+ block)
    (hhandlers : block.Holds t.handlers) (hfailed : t.status = .failed → t.handlers = [])
    (hframes : ∀ f ∈ frames, Frame.Sound f) : (arrive block rest t frames).Sound where
  closed := hclosed
  suffix := by
    unfold arrive
    split
    · exact hsuffix
    · exact Code.after_suffix _ _
  handlers := hhandlers
  pc := rfl
  failed := hfailed
  frames := hframes

theorem Step.sound (hcode : ∀ l, (codeOf l).Closed) (h : Step codeOf x y) (hx : x.Sound) :
    y.Sound := by
  cases h with
  | @back block s f frames hs hhandlers =>
    have hf := hx.frames f (List.mem_cons_self ..)
    exact ⟨hf.closed, hf.suffix, hf.handlers, hx.pc, fun h => absurd (h.symm.trans hs) nofun,
      fun g hg => hx.frames g (List.mem_cons_of_mem _ hg)⟩
  | mark hs =>
    exact ⟨hx.closed, (List.suffix_cons _ _).trans hx.suffix, hx.handlers, hx.pc, hx.failed,
      hx.frames⟩
  | @call block rest s l frames hs =>
    refine ⟨hcode l, List.suffix_refl _, nofun, hx.pc, fun _ => rfl, fun f hf => ?_⟩
    rcases List.mem_cons.1 hf with rfl | hf
    · exact ⟨hx.closed, (List.suffix_cons _ _).trans hx.suffix, hx.handlers⟩
    · exact hx.frames f hf
  | instr hs hfits =>
    obtain ⟨hhandlers, hfailed, -⟩ := hx.goes hs hfits
    exact arrive_sound hx.closed ((List.suffix_cons _ _).trans hx.suffix) hhandlers hfailed
      hx.frames
  | @failed block rest s f frames hs =>
    have hf := hx.frames f (List.mem_cons_self ..)
    let t : State τ := { s with status := .running, handlers := f.handlers }
    have hgoes : State.Goes [] t t.unwind := State.Still.unwind ⟨rfl, rfl, fun _ h => h⟩
    refine arrive_sound hf.closed (List.nil_suffix) (fun h hh => ?_) hgoes.failed
      fun g hg => hx.frames g (List.mem_cons_of_mem _ hg)
    rcases hgoes.handlers h hh with hold | hnew
    · exact hf.handlers h hold
    · cases hnew

end Config

end ParserMachine

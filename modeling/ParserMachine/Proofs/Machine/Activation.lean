import ParserMachine.Proofs.Meaning.Reply
import ParserMachine.Proofs.Assembly.Targets
import ParserMachine.Proofs.Machine.Simulation

/-!
# Running labelled code

Before it is laid out, code is run block by block. An activation (`Config`) is in the middle of a
block, with the lines that are left and with the handlers that were installed since the block was
entered; below it wait the activations that have called (`Frame`). Values and checks are those of the
machine, and so is what an instruction does: `State.exec` is used as it stands.

A position is a list of lines and needs no number. For `State.exec`, which counts positions, the
current instruction stands at 0 and the label `l` at `l + 2` (`Instr.shifted`), so that 1 means that
the next line follows.
-/

namespace ParserMachine

variable {τ : Type} [Token τ]

namespace Code

/-- The lines after the mark `l`. -/
def after (l : Label) : Code τ → Code τ
  | [] => []
  | .mark m :: rest => if m = l then rest else after l rest
  | .instr _ :: rest => after l rest

@[simp] theorem marks_nil : marks ([] : Code τ) = [] := rfl

@[simp] theorem marks_mark (l : Label) (c : Code τ) : marks (.mark l :: c) = l :: marks c := rfl

@[simp] theorem marks_instr (i : Instr τ Label) (c : Code τ) : marks (.instr i :: c) = marks c :=
  rfl

@[simp] theorem marks_append (c d : Code τ) : marks (c ++ d) = marks c ++ marks d :=
  List.filterMap_append

/-- Where no label is marked twice, a mark is found where it stands. -/
theorem after_of_suffix {l : Label} {c block : Code τ} (hnodup : (marks block).Nodup)
    (h : .mark l :: c <:+ block) : after l block = c := by
  obtain ⟨pre, rfl⟩ := h
  induction pre with
  | nil => exact if_pos rfl
  | cons line pre ih =>
    cases line with
    | instr i => exact ih hnodup
    | mark m =>
      have hnodup' : (m :: marks (pre ++ .mark l :: c)).Nodup := hnodup
      rw [List.nodup_cons] at hnodup'
      have hne : m ≠ l := by
        rintro rfl
        exact hnodup'.1 (by simp)
      show (if m = l then _ else after l (pre ++ .mark l :: c)) = c
      rw [if_neg hne]
      exact ih hnodup'.2

theorem after_suffix (l : Label) (c : Code τ) : after l c <:+ c := by
  induction c with
  | nil => exact List.suffix_refl _
  | cons line c ih =>
    cases line with
    | instr i => exact ih.trans (List.suffix_cons _ _)
    | mark m =>
      show (if m = l then c else after l c) <:+ _
      split
      · exact List.suffix_cons _ _
      · exact ih.trans (List.suffix_cons _ _)

/-- A mark and the lines after it. -/
theorem suffix_of_mem_marks {l : Label} {block : Code τ} (h : l ∈ marks block) : .mark l :: after l block <:+ block := by
  induction block with
  | nil => cases h
  | cons line c ih =>
    cases line with
    | mark m =>
      show .mark l :: (if m = l then c else after l c) <:+ _
      split
      · rename_i hml
        subst hml
        exact List.suffix_refl _
      · rename_i hml
        exact (ih ((List.mem_cons.1 h).resolve_left (Ne.symm hml))).trans (List.suffix_cons _ _)
    | instr i => exact (ih h).trans (List.suffix_cons _ _)

end Code

/-- The instruction with the position of the label `l` counted as `l + 2`. -/
def Instr.shifted (i : Instr τ Label) : Instr τ Nat := i.mapTargets (· + 2)

/-- Whether an instruction stays in the activation, so that `State.exec` says all that it does. -/
def Instr.isPlain {ι : Type} : Instr τ ι → Bool
  | call _ | ret => false
  | _ => true

/-- Whether an instruction removes the innermost handler. -/
def Instr.leaves {ι : Type} : Instr τ ι → Bool
  | commit _ | release _ | restore _ | negFail | labelOk _ _ | loop _ _ _ => true
  | _ => false

/-- Whether an instruction stays in the activation, also in that the handler it may remove is one of
the activation. -/
def Instr.fits {ι : Type} (i : Instr τ ι) (s : State τ) : Bool :=
  i.isPlain && !(i.leaves && s.handlers.isEmpty)

/-- An activation that waits for one that it has called. -/
structure Frame (τ : Type) [Token τ] where
  /-- The block that it runs. -/
  block : Code τ
  /-- The lines that are left of it. -/
  rest : Code τ
  /-- The handlers that it has installed. -/
  handlers : List Handler

/-- An activation that runs, with those that wait. -/
structure Config (τ : Type) [Token τ] where
  /-- The block that is run. -/
  block : Code τ
  /-- The lines that are left of it. -/
  rest : Code τ
  /-- The state of the machine. Its handlers are those that this activation has installed. -/
  state : State τ
  /-- The activations that wait, the last one first. -/
  frames : List (Frame τ)

namespace Config

/-- Where an instruction leads that `rest` follows in the block. -/
def arrive (block rest : Code τ) (s : State τ) (frames : List (Frame τ)) : Config τ :=
  ⟨block, if s.pc = 1 then rest else Code.after (s.pc - 2) block, { s with pc := 0 }, frames⟩

/-- One step, if there is one. A failure without a handler ends the activation and fails on in the
one below. An activation that has come to its end goes back, provided it has left no handler; no
activation removes a handler of another one. -/
def step? (codeOf : Label → Code τ) (x : Config τ) : Option (Config τ) :=
  match x.state.status with
  | .running =>
    match x.rest with
    | [] =>
      match x.state.handlers, x.frames with
      | [], f :: frames => some ⟨f.block, f.rest, { x.state with handlers := f.handlers }, frames⟩
      | _, _ => none
    | .mark _ :: rest => some ⟨x.block, rest, x.state, x.frames⟩
    | .instr (.call l) :: rest =>
      some ⟨codeOf l, codeOf l, { x.state with handlers := [] },
        ⟨x.block, rest, x.state.handlers⟩ :: x.frames⟩
    | .instr .ret :: _ => some ⟨x.block, [], x.state, x.frames⟩
    | .instr i :: rest =>
      if i.fits x.state then some (arrive x.block rest (x.state.exec 0 i.shifted) x.frames)
      else none
  | .failed =>
    match x.frames with
    | [] => none
    | f :: frames =>
      some (arrive f.block []
        (State.unwind { x.state with status := .running, handlers := f.handlers }) frames)
  | _ => none

end Config

/-! ### States between instructions -/

namespace State

/-- What a parser takes along. -/
def reading (s : State τ) : Reading τ := ⟨s.offset, s.hints, s.renewals⟩

/-- The state with another reading. -/
def read (r : Reading τ) (s : State τ) : State τ :=
  { s with offset := r.offset, hints := r.hints, renewals := r.renewals }

@[simp] theorem read_reading (s : State τ) : s.read s.reading = s := rfl

@[simp] theorem reading_read (r : Reading τ) (s : State τ) : (s.read r).reading = r := rfl

/-- A state in which an instruction of an activation begins: all input is there, nothing has gone
wrong, and handlers point to labels. -/
structure Ready (input : Array τ) (s : State τ) : Prop where
  /-- The buffer holds the input. -/
  input : s.input = input
  /-- No more will arrive. -/
  more : s.more = false
  /-- The current instruction stands at 0. -/
  pc : s.pc = 0
  /-- The machine can go on. -/
  status : s.status = .running
  /-- Return positions are not used. -/
  calls : s.calls = .empty
  /-- No error is in flight. -/
  error : s.error = none
  /-- No repetition has been interrupted. -/
  parked : s.parked = #[]
  /-- Handlers point to labels. -/
  handlers : ∀ h ∈ s.handlers, 2 ≤ h.pc

/-- Readings, values and checks may change. -/
theorem Ready.change {input : Array τ} {s : State τ} (h : s.Ready input) (r : Reading τ)
    (data : Stack (Value τ)) (checks : Stack (Check τ)) :
    State.Ready input { s.read r with data, checks } :=
  ⟨h.input, h.more, h.pc, h.status, h.calls, h.error, h.parked, h.handlers⟩

theorem Ready.push {input : Array τ} {s : State τ} (h : s.Ready input) (v : Value τ) :
    (s.push v).Ready input := h.change s.reading _ s.checks

end State

namespace Stack

variable {α : Type}

/-- Cutting a stack back to the height of a lower part gives that part. -/
theorem lowest_of_suffix {s t : Stack α} (h : s.toList <:+ t.toList) : t.lowest s.height = s := by
  obtain ⟨l, hl⟩ := h
  apply Stack.ext
  rw [toList_lowest, s.height_eq, ← hl, List.length_append, Nat.add_sub_cancel,
    List.drop_left]

theorem lowest_height (s : Stack α) : s.lowest s.height = s := lowest_of_suffix (List.suffix_refl _)

end Stack

namespace Config

variable {codeOf : Label → Code τ} {block rest : Code τ} {s : State τ} {frames : List (Frame τ)}

theorem step?_mark (l : Label) (h : s.status = .running) :
    step? codeOf ⟨block, .mark l :: rest, s, frames⟩ = some ⟨block, rest, s, frames⟩ := by
  unfold step?
  simp only [h]

theorem step?_call (l : Label) (h : s.status = .running) :
    step? codeOf ⟨block, .instr (.call l) :: rest, s, frames⟩ =
      some ⟨codeOf l, codeOf l, { s with handlers := [] }, ⟨block, rest, s.handlers⟩ :: frames⟩ := by
  unfold step?
  simp only [h]

theorem step?_end (f : Frame τ) (h : s.status = .running) (hhandlers : s.handlers = []) :
    step? codeOf ⟨block, [], s, f :: frames⟩ =
      some ⟨f.block, f.rest, { s with handlers := f.handlers }, frames⟩ := by
  unfold step?
  simp only [h, hhandlers]

theorem step?_failed (f : Frame τ) (h : s.status = .failed) :
    step? codeOf ⟨block, rest, s, f :: frames⟩ =
      some (arrive f.block []
        (State.unwind { s with status := .running, handlers := f.handlers }) frames) := by
  unfold step?
  simp only [h]

theorem step?_instr {i : Instr τ Label} (h : s.status = .running) (hfits : i.fits s = true) :
    step? codeOf ⟨block, .instr i :: rest, s, frames⟩ =
      some (arrive block rest (s.exec 0 i.shifted) frames) := by
  unfold step?
  simp only [h]
  cases i <;> exact if_pos hfits

theorem arrive_next (h : s.pc = 0) : arrive block rest s.next frames = ⟨block, rest, s, frames⟩ := by
  unfold arrive State.next
  rw [if_pos (by rw [h]), ← h]

theorem arrive_goto (l : Label) (h : s.pc = 0) :
    arrive block rest (s.goto (l + 2)) frames = ⟨block, Code.after l block, s, frames⟩ := by
  unfold arrive State.goto
  rw [if_neg (by simp), ← h]
  rfl

/-- A failure never leads to the next line. -/
theorem pc_unwind_ne_one (hpc : s.pc = 0) (hhandlers : ∀ h ∈ s.handlers, 2 ≤ h.pc) :
    s.unwind.pc ≠ 1 := by
  unfold State.unwind
  cases hs : s.handlers with
  | nil =>
    show s.pc ≠ 1
    rw [hpc]
    decide
  | cons h hs' =>
    have := hhandlers h (by rw [hs]; exact List.mem_cons_self ..)
    show h.pc ≠ 1
    omega

/-- Where a failure leads does not depend on what comes next. -/
theorem arrive_unwind (hpc : s.pc = 0) (hhandlers : ∀ h ∈ s.handlers, 2 ≤ h.pc) :
    arrive block rest s.unwind frames = arrive block [] s.unwind frames := by
  unfold arrive
  rw [if_neg (pc_unwind_ne_one hpc hhandlers), if_neg (pc_unwind_ne_one hpc hhandlers)]

end Config

/-! ### How runs end -/

/-- The outcomes are the same, but for the positions of faults. -/
def Outcome.Agrees : Outcome τ → Outcome τ → Prop
  | faulted _, faulted _ => True
  | faulted _, _ => False
  | o, o' => o = o'

theorem Outcome.Agrees.refl (o : Outcome τ) : o.Agrees o := by
  cases o with
  | faulted f => trivial
  | _ => rfl

theorem Outcome.Agrees.symm {o o' : Outcome τ} (h : o.Agrees o') : o'.Agrees o := by
  cases o <;> cases o' <;> first | trivial | (cases h; rfl)

theorem Outcome.Agrees.trans {o o' o'' : Outcome τ} (h : o.Agrees o') (h' : o'.Agrees o'') :
    o.Agrees o'' := by
  cases o <;> cases o' <;> first | (cases h; exact h') | (cases o'' <;> trivial)

/-- Only the result is left on the stacks. -/
structure State.Clean (s : State τ) : Prop where
  /-- There is one value. -/
  data : ∃ v, s.data = .push v .empty
  /-- There are no handlers. -/
  handlers : s.handlers = []
  /-- There are no checks. -/
  checks : s.checks = .empty

/-- The configuration stands still as it should: at its end, or with a failure or a fault. -/
def Config.Finished (x : Config τ) : Prop :=
  match x.state.status with
  | .running => x.rest = [] ∧ x.state.Clean ∧ x.frames = []
  | .failed => x.frames = []
  | .faulted _ => True
  | .suspended => False

/-- A configuration that stands still as it should has no step. -/
theorem Config.Finished.step?_eq_none {x : Config τ} (h : x.Finished) (codeOf : Label → Code τ) :
    step? codeOf x = none := by
  obtain ⟨block, rest, s, frames⟩ := x
  unfold Finished at h
  unfold step?
  cases hs : s.status with
  | running =>
    simp only [hs] at h ⊢
    obtain ⟨rfl, hclean, rfl⟩ := h
    rw [hclean.handlers]
  | failed =>
    simp only [hs] at h ⊢
    rw [h]
  | suspended => rfl
  | faulted f => rfl

end ParserMachine

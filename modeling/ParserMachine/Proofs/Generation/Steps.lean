import ParserMachine.Assembly.Generate
import ParserMachine.Proofs.Generation.Answers

/-!
# Single steps of generated code

What the instructions do where code generation puts them: those that look at the input
(`Config.answers_one` and its like), those that install a handler (`State.install`), those that leave
a part that has succeeded, and those that stand where a handler points (`State.caught`).
-/

namespace ParserMachine

variable {τ : Type} [Token τ] {input : Array τ} {codeOf : Label → Code τ}

/-- The reading after a part with a handler has succeeded: a snapshot takes the hints that it set aside
back in. -/
def Reading.settle (snapshot : Bool) (start r : Reading τ) : Reading τ :=
  if snapshot then start.rejoin r r.hints else r

namespace State

/-- The check of a handler. -/
def check (snapshot : Bool) (s : State τ) : Check τ :=
  ⟨s.offset, if snapshot then some s.hints else none⟩

/-- The state after a handler at the label `l` was installed. -/
def install (l : Label) (snapshot : Bool) (s : State τ) : State τ :=
  { s with
    hints := if snapshot then none else s.hints
    checks := s.checks.push (s.check snapshot)
    handlers := ⟨l + 2, s.data.height, 0, s.checks.height + 1⟩ :: s.handlers }

/-- The state in which a handler begins whose part has failed: the check of the handler is on
top. -/
def caught (c : Check τ) (e : ParseError τ) (r : Reading τ) (s : State τ) : State τ :=
  { s.read r with error := some e, checks := s.checks.push c }

/-- The state after the place was marked where a span begins. -/
def marked (s : State τ) : State τ := { s with checks := s.checks.push ⟨s.offset, none⟩ }

/-- Whether the innermost handler points to the label `l` and lets nothing of the state be cut
away. -/
def Guarded (l : Label) (s : State τ) : Prop :=
  ∃ hs, s.handlers = ⟨l + 2, s.data.height, 0, s.checks.height⟩ :: hs

variable {s t : State τ}

theorem Ready.install (h : s.Ready input) (l : Label) (snapshot : Bool) :
    (s.install l snapshot).Ready input := by
  refine ⟨h.input, h.more, h.pc, h.status, h.calls, h.error, h.parked, ?_⟩
  intro x hx
  cases hx with
  | head => exact Nat.le_add_left 2 l
  | tail _ hx => exact h.handlers x hx

theorem guarded_install (l : Label) (snapshot : Bool) (s : State τ) :
    (s.install l snapshot).Guarded l := ⟨s.handlers, rfl⟩

/-- Under a handler, an instruction may remove one. -/
theorem fits_install {i : Instr τ Label} (hplain : i.isPlain = true) (l : Label) (snapshot : Bool)
    (discard : Bool) (v : Value τ) (r : Reading τ) :
    i.fits ((s.install l snapshot).succeed discard v r) = true := by
  unfold Instr.fits
  rw [hplain]
  cases discard <;> simp [install, State.succeed, State.read, State.push]

theorem Guarded.succeed_true {l : Label} (h : s.Guarded l) (v : Value τ) (r : Reading τ) :
    (s.succeed true v r).Guarded l := h

theorem over_marked (s : State τ) : s.Over s.marked :=
  ⟨rfl, List.suffix_refl _, List.suffix_cons _ _⟩

theorem reading_install (l : Label) (snapshot : Bool) (s : State τ) :
    (s.install l snapshot).reading = if snapshot then s.reading.bare else s.reading := by
  cases snapshot <;> rfl

end State

namespace Config

open State

variable {n : Nat} {discard : Bool} {block rest : Code τ} {s : State τ} {frames : List (Frame τ)}
  {k : Config τ}

/-- An instruction after which the next line follows. -/
theorem step?_next {i : Instr τ Label} {t : State τ} (hfits : i.fits s = true)
    (h : s.status = .running) (ht : t.pc = 0) (hexec : s.exec 0 i.shifted = t.next) :
    step? codeOf ⟨block, .instr i :: rest, s, frames⟩ = some ⟨block, rest, t, frames⟩ := by
  rw [step?_instr h hfits, hexec, arrive_next ht]

/-- An instruction that goes on at a label. -/
theorem step?_goto {i : Instr τ Label} {t : State τ} {l : Label} (hfits : i.fits s = true)
    (h : s.status = .running) (ht : t.pc = 0) (hexec : s.exec 0 i.shifted = t.goto (l + 2)) :
    step? codeOf ⟨block, .instr i :: rest, s, frames⟩ =
      some ⟨block, Code.after l block, t, frames⟩ := by
  rw [step?_instr h hfits, hexec, arrive_goto l ht]

/-- An instruction that fails. -/
theorem step?_unwind {i : Instr τ Label} {t : State τ} (hfits : i.fits s = true)
    (h : s.status = .running) (ht : t.pc = 0)
    (hhandlers : ∀ h ∈ t.handlers, 2 ≤ h.pc) (hexec : s.exec 0 i.shifted = t.unwind) :
    step? codeOf ⟨block, .instr i :: rest, s, frames⟩ =
      some (arrive block [] t.unwind frames) := by
  rw [step?_instr h hfits, hexec, arrive_unwind ht hhandlers]

/-! ### Values -/

theorem step?_push (hs : s.Ready input) (v : Value τ) :
    step? codeOf ⟨block, .instr (.push v) :: rest, s, frames⟩ =
      some ⟨block, rest, s.succeed false v s.reading, frames⟩ := step?_next rfl hs.status hs.pc rfl

theorem step?_pop (hs : s.Ready input) (v : Value τ) (r : Reading τ) :
    step? codeOf ⟨block, .instr .pop :: rest, s.succeed false v r, frames⟩ =
      some ⟨block, rest, s.succeed true v r, frames⟩ := step?_next rfl hs.status hs.pc rfl

theorem step?_map (hs : s.Ready input) (f : Value τ → Value τ) (v : Value τ) (r : Reading τ) :
    step? codeOf ⟨block, .instr (.map f) :: rest, s.succeed false v r, frames⟩ =
      some ⟨block, rest, s.succeed false (f v) r, frames⟩ := step?_next rfl hs.status hs.pc rfl

theorem step?_lift2 (hs : s.Ready input) (f : Value τ → Value τ → Value τ) (v w : Value τ)
    (r r' : Reading τ) :
    step? codeOf
        ⟨block, .instr (.lift2 f) :: rest, (s.succeed false v r).succeed false w r', frames⟩ =
      some ⟨block, rest, s.succeed false (f v w) r', frames⟩ := step?_next rfl hs.status hs.pc rfl

theorem step?_jump (hs : s.Ready input) (l : Label) :
    step? codeOf ⟨block, .instr (.jump l) :: rest, s, frames⟩ =
      some ⟨block, Code.after l block, s, frames⟩ := step?_goto rfl hs.status hs.pc rfl

theorem step?_hint (hs : s.Ready input) (e : ExpectedSet τ) :
    step? codeOf ⟨block, .instr (.hint e) :: rest, s, frames⟩ =
      some ⟨block, rest, s.read (s.reading.hint (.trivial s.offset none e)), frames⟩ :=
  step?_next rfl hs.status hs.pc rfl

/-! ### Input -/

/-- An instruction that fails at once. -/
theorem answers_fail {i : Instr τ Label} (hfits : i.fits k.state = true) (hs : k.state.Ready input)
    {e : ParseError τ} {r : Reading τ} (hexec : k.state.exec 0 i.shifted = (k.state.read r).fail e) :
    Answers codeOf n discard { k with rest := .instr i :: k.rest } k (some (.failed e r)) := by
  refine ⟨k.state.read r, (Over.refl _).read r, rfl, ?_⟩
  exact .single (step?_unwind hfits hs.status hs.pc hs.handlers hexec)

/-- An instruction that succeeds at once. -/
theorem answers_done {i : Instr τ Label} (hfits : i.fits k.state = true) (hs : k.state.Ready input)
    {v : Value τ} {r : Reading τ} (hexec : k.state.exec 0 i.shifted = (k.state.succeed discard v r).next) :
    Answers codeOf n discard { k with rest := .instr i :: k.rest } k (some (.done v r)) :=
  .single (step?_next hfits hs.status (hs.succeed discard v r).pc hexec)

theorem here_eq (hs : s.Ready input) : s.here = s.reading.here input := by
  rw [← hs.input]
  rfl

theorem errorHere_eq (hs : s.Ready input) (e : ExpectedSet τ) :
    s.errorHere e = s.reading.errorHere input e := by
  unfold State.errorHere Reading.errorHere
  rw [here_eq hs]
  rfl

theorem emit_ofMode (discard : Bool) (v : Value τ) (s : State τ) :
    s.emit (.ofMode discard) v = s.succeed discard v s.reading := by
  cases discard <;> rfl

theorem answers_one {i : Instr τ Label} (hfits : i.fits k.state = true) (hs : k.state.Ready input)
    {accept : τ → Bool} {e : ExpectedSet τ}
    (hexec : k.state.exec 0 i.shifted = k.state.one accept e (.ofMode discard)) :
    Answers codeOf n discard { k with rest := .instr i :: k.rest } k
      (Run.one input accept e k.state.reading) := by
  have hcurrent : k.state.reading.current? input = k.state.current? := by
    rw [← hs.input]
    rfl
  have herror := errorHere_eq hs e
  unfold Run.one
  unfold State.one at hexec
  rw [hcurrent]
  cases hc : k.state.current? with
  | none =>
    simp only [hc, hs.more] at hexec
    exact answers_fail hfits hs (by rw [hexec, herror]; rfl)
  | some t =>
    simp only [hc] at hexec
    dsimp only
    split
    · rename_i haccept
      rw [if_pos haccept] at hexec
      refine answers_done hfits hs ?_
      rw [hexec, emit_ofMode]
      rfl
    · rename_i haccept
      rw [if_neg haccept] at hexec
      exact answers_fail hfits hs (by rw [hexec, herror]; rfl)

theorem answers_literal (hs : k.state.Ready input) (ts : List τ) (v : Value τ)
    (e : ExpectedSet τ) :
    Answers codeOf n discard
      { k with rest := .instr (.literal ts v e (.ofMode discard)) :: k.rest } k
      (Run.literal input ts v e k.state.reading) := by
  obtain rfl := hs.input
  let r : Reading τ :=
    { k.state.reading with
      offset := k.state.offset + matchLength k.state.input k.state.offset ts }
  have hexec : k.state.exec 0 (Instr.shifted (.literal ts v e (.ofMode discard))) =
      k.state.literal ts v e (.ofMode discard) := rfl
  have herror := errorHere_eq (hs.change r k.state.data k.state.checks) e
  unfold State.literal at hexec
  by_cases hlen : matchLength k.state.input k.state.offset ts = ts.length
  · have hdone : Run.literal k.state.input ts v e k.state.reading = some (.done v r) := if_pos hlen
    rw [hdone]
    refine answers_done rfl hs ?_
    rw [hexec, if_pos hlen, emit_ofMode]
    rfl
  · have hfailed : Run.literal k.state.input ts v e k.state.reading =
        some (.failed (r.errorHere k.state.input e) r) := if_neg hlen
    rw [hfailed]
    refine answers_fail rfl hs ?_
    rw [hexec, if_neg hlen, if_neg (by rw [hs.more]; simp)]
    exact congrArg (fun e => (k.state.read r).fail e) herror

theorem answers_endOfInput (hs : k.state.Ready input) :
    Answers codeOf n true
      { k with rest := .instr (.eof (SortedSet.single .endOfInput)) :: k.rest } k
      (Run.endOfInput input k.state.reading) := by
  have hcurrent : k.state.reading.current? input = k.state.current? := by
    rw [← hs.input]
    rfl
  have hexec : k.state.exec 0 (Instr.shifted (.eof (SortedSet.single .endOfInput))) =
      k.state.endOfInput (SortedSet.single .endOfInput) := rfl
  have herror := errorHere_eq hs (SortedSet.single .endOfInput)
  unfold Run.endOfInput
  unfold State.endOfInput at hexec
  rw [hcurrent]
  cases hc : k.state.current? with
  | none =>
    simp only [hc, hs.more] at hexec
    exact answers_done rfl hs hexec
  | some t =>
    simp only [hc, herror] at hexec
    exact answers_fail rfl hs hexec

theorem answers_expect (hs : k.state.Ready input) (e : ExpectedSet τ) :
    Answers codeOf n discard { k with rest := .instr (.expect e) :: k.rest } k
      (some (.failed (k.state.reading.errorHere input e) k.state.reading)) := by
  refine answers_fail rfl hs ?_
  have hneeds : k.state.needsInput = false := by
    unfold State.needsInput
    rw [hs.more]
    rfl
  have hexec : k.state.exec 0 (Instr.shifted (.expect e)) = k.state.expect e := rfl
  rw [hexec, State.expect, hneeds, ← errorHere_eq hs]
  rfl

/-! ### Handlers -/

theorem step?_checkpoint (hs : s.Ready input) (l : Label) (snapshot : Bool) :
    step? codeOf ⟨block, .instr (.checkpoint l snapshot) :: rest, s, frames⟩ =
      some ⟨block, rest, s.install l snapshot, frames⟩ := by
  refine step?_next rfl hs.status hs.pc ?_
  show s.checkpoint (l + 2) snapshot = _
  unfold State.checkpoint State.install
  rw [hs.calls]
  rfl

/-- A failure goes on at the innermost handler. -/
theorem arrive_fail (l : Label) {t : State τ} (hs : s.Ready input) (hguarded : s.Guarded l)
    (ht : s.Over t) (e : ParseError τ) :
    arrive block [] (t.fail e) frames =
      ⟨block, Code.after l block,
        { s.read t.reading with error := some e, handlers := s.handlers.tail }, frames⟩ := by
  obtain ⟨hh, hhandlers⟩ := hguarded
  have hdata : t.data.lowest s.data.height = s.data := Stack.lowest_of_suffix ht.data
  have hchecks : t.checks.lowest s.checks.height = s.checks := Stack.lowest_of_suffix ht.checks
  have hcalls : (Stack.empty : Stack Nat).lowest 0 = .empty := rfl
  rw [ht.eq]
  unfold State.fail State.unwind
  simp only [State.read, hhandlers, hdata, hchecks, hs.calls, hcalls, List.tail_cons]
  unfold arrive
  rw [if_neg (by simp)]
  simp only [hs.pc, Nat.add_sub_cancel]
  rfl

theorem arrive_fail_install (l : Label) (snapshot : Bool) {t : State τ} (hs : s.Ready input)
    (ht : (s.install l snapshot).Over t) (e : ParseError τ) :
    arrive block [] (t.fail e) frames =
      ⟨block, Code.after l block, s.caught (s.check snapshot) e t.reading, frames⟩ := by
  rw [arrive_fail l (hs.install l snapshot) (State.guarded_install l snapshot s) ht]
  rfl

/-! ### Leaving a part that has succeeded -/

section Leave

variable (discard) (l stop : Label) (v : Value τ) (r : Reading τ)

theorem step?_release (hs : s.Ready input) (snapshot : Bool) :
    step? codeOf
        ⟨block, .instr (.release stop) :: rest, (s.install l snapshot).succeed discard v r, frames⟩ =
      some ⟨block, Code.after stop block, s.succeed discard v (s.reading.settle snapshot r),
        frames⟩ := by
  have h := (hs.install l snapshot).succeed discard v r
  refine step?_goto (fits_install rfl l snapshot discard v r) h.status (hs.succeed _ v _).pc ?_
  cases discard <;> cases snapshot <;> rfl

theorem step?_commit (hs : s.Ready input) :
    step? codeOf
        ⟨block, .instr (.commit stop) :: rest, (s.install l false).succeed discard v r, frames⟩ =
      some ⟨block, Code.after stop block, s.succeed discard v r, frames⟩ := by
  have h := (hs.install l false).succeed discard v r
  refine step?_goto (fits_install rfl l false discard v r) h.status (hs.succeed discard v r).pc ?_
  cases discard <;> rfl

theorem step?_restore (hs : s.Ready input) :
    step? codeOf
        ⟨block, .instr (.restore stop) :: rest, (s.install l false).succeed discard v r, frames⟩ =
      some ⟨block, Code.after stop block, s.succeed discard v (s.reading.backTo r), frames⟩ := by
  have h := (hs.install l false).succeed discard v r
  refine step?_goto (fits_install rfl l false discard v r) h.status (hs.succeed discard v _).pc ?_
  cases discard <;> rfl

theorem step?_labelOk (hs : s.Ready input) (name : Option String) :
    step? codeOf
        ⟨block, .instr (.labelOk name stop) :: rest, (s.install l true).succeed discard v r,
          frames⟩ =
      some ⟨block, Code.after stop block,
        s.succeed discard v (s.reading.rejoin r (s.reading.labelledHints name r)), frames⟩ := by
  have h := (hs.install l true).succeed discard v r
  refine step?_goto (fits_install rfl l true discard v r) h.status (hs.succeed discard v _).pc ?_
  cases discard <;> rfl

omit discard in
theorem step?_negFail (hs : s.Ready input) :
    step? codeOf ⟨block, .instr .negFail :: rest, (s.install l true).succeed true v r, frames⟩ =
      some (arrive block []
        (State.fail (.trivial s.offset (some (s.reading.found input r)) .empty)
          (s.read (s.reading.undo r))) frames) := by
  obtain rfl := hs.input
  have h := (hs.install l true).succeed true v r
  refine step?_unwind rfl h.status hs.pc hs.handlers ?_
  show State.negFail ((s.install l true).succeed true v r) = _
  unfold State.negFail
  have hneeds : ((s.install l true).succeed true v r).needsInput = false := by
    unfold State.needsInput
    rw [h.more]
    rfl
  simp only [hneeds, Bool.and_false, Bool.false_eq_true, if_false]
  rfl

end Leave

/-! ### Spans -/

theorem step?_markSpan (hs : s.Ready input) :
    step? codeOf ⟨block, .instr .mark :: rest, s, frames⟩ = some ⟨block, rest, s.marked, frames⟩ :=
  step?_next rfl (t := s.marked) hs.status hs.pc rfl

theorem step?_slice (hs : s.Ready input) (v : Value τ) (r : Reading τ) :
    step? codeOf
        ⟨block, .instr (.slice .chunk) :: rest,
          s.marked.succeed true v r, frames⟩ =
      some ⟨block, rest, s.succeed false (s.reading.span input r) r, frames⟩ := by
  obtain rfl := hs.input
  exact step?_next rfl hs.status hs.pc rfl

theorem step?_slicePair (hs : s.Ready input) (v : Value τ) (r : Reading τ) :
    step? codeOf
        ⟨block, .instr (.slice .pair) :: rest,
          s.marked.succeed false v r, frames⟩ =
      some ⟨block, rest, s.succeed false (.pair (s.reading.span input r) v) r, frames⟩ := by
  obtain rfl := hs.input
  exact step?_next rfl hs.status hs.pc rfl

/-! ### Rounds -/

theorem step?_newList (hs : s.Ready input) :
    step? codeOf ⟨block, .instr .newList :: rest, s, frames⟩ =
      some ⟨block, rest, s.succeed false (.list #[]) s.reading, frames⟩ :=
  step?_next rfl hs.status hs.pc rfl

theorem exec_loop (s : State τ) (discard : Bool) (h body exit : Label) (items : Array (Value τ)) (r : Reading τ) (v : Value τ)
    (r' : Reading τ) :
    (((s.succeed discard (.list items) r).install h false).succeed discard v r').exec 0
        (Instr.shifted (.loop body exit !discard)) =
      if r.offset = r'.offset then
        (s.succeed discard (.list (items.push v)) r').goto (exit + 2)
      else ((s.succeed discard (.list (items.push v)) r').install h false).goto (body + 2) := by
  cases discard <;> rfl

/-- A round that has succeeded: another one follows if input was consumed. -/
theorem step?_loop (hs : s.Ready input) (h body exit : Label) (items : Array (Value τ))
    (r : Reading τ) (v : Value τ) (r' : Reading τ) :
    step? codeOf
        ⟨block, .instr (.loop body exit !discard) :: rest,
          ((s.succeed discard (.list items) r).install h false).succeed discard v r', frames⟩ =
      some (if r.offset = r'.offset then
          ⟨block, Code.after exit block, s.succeed discard (.list (items.push v)) r', frames⟩
        else
          ⟨block, Code.after body block, (s.succeed discard (.list (items.push v)) r').install h false,
            frames⟩) := by
  have hready := ((hs.succeed discard (.list items) r).install h false).succeed discard v r'
  have hexec := exec_loop s discard h body exit items r v r'
  have hdone := hs.succeed discard (.list (items.push v)) r'
  have hfits := fits_install (i := .loop body exit !discard)
    (s := s.succeed discard (.list items) r) rfl h false discard v r'
  by_cases hplace : r.offset = r'.offset
  · rw [if_pos hplace] at hexec ⊢
    exact step?_goto hfits hready.status hdone.pc hexec
  · rw [if_neg hplace] at hexec ⊢
    exact step?_goto hfits hready.status (hdone.install h false).pc hexec

/-! ### Where handlers point -/

section Caught

variable {e : ParseError τ} {r : Reading τ}

theorem step?_recover (hs : s.Ready input) (o : Nat) :
    step? codeOf ⟨block, .instr .recover :: rest, s.caught ⟨o, none⟩ e r, frames⟩ =
      some (if r.offset = o then ⟨block, rest, s.read (r.hint e), frames⟩
        else arrive block [] ((s.read r).fail e) frames) := by
  split
  · rename_i hplace
    refine step?_next rfl hs.status hs.pc ?_
    show State.recover (s.caught ⟨o, none⟩ e r) = _
    have herror := hs.error
    obtain ⟨_, _, _, _, _, _, _, _, _, error, _, _, _⟩ := s
    subst herror
    exact if_pos hplace
  · rename_i hplace
    have hr := hs.change r s.data s.checks
    refine step?_unwind rfl hr.status hr.pc hr.handlers ?_
    exact if_neg hplace

theorem step?_manyDone (hs : s.Ready input) (o : Nat) :
    step? codeOf ⟨block, .instr .manyDone :: rest, s.caught ⟨o, none⟩ e r, frames⟩ =
      some (if r.offset = o then ⟨block, rest, s.read (r.hint e), frames⟩
        else arrive block [] ((s.read r).fail e) frames) := by
  have h := @step?_recover τ _ input codeOf block rest s frames e r hs o
  rw [← h]
  rfl

theorem step?_rewind (hs : s.Ready input) :
    step? codeOf ⟨block, .instr .rewind :: rest, s.caught (s.check false) e r, frames⟩ =
      some (arrive block [] ((s.read (s.reading.backTo r)).fail e) frames) :=
  step?_unwind rfl hs.status hs.pc hs.handlers rfl

theorem step?_negSucceed (hs : s.Ready input) :
    step? codeOf
        ⟨block, .instr (.negSucceed !discard) :: rest, s.caught (s.check true) e r, frames⟩ =
      some ⟨block, rest, s.succeed discard .unit (s.reading.undo r), frames⟩ := by
  refine step?_next rfl hs.status (hs.succeed discard _ _).pc ?_
  have herror := hs.error
  obtain ⟨_, _, _, _, _, _, _, _, _, error, _, _, _⟩ := s
  subst herror
  cases discard <;> rfl

theorem step?_capture (hs : s.Ready input) :
    step? codeOf
        ⟨block, .instr (.guardErr .capture !discard) :: rest, s.caught (s.check true) e r,
          frames⟩ =
      some ⟨block, rest, s.succeed discard (.err e) (s.reading.undo r), frames⟩ := by
  refine step?_next rfl hs.status (hs.succeed discard _ _).pc ?_
  have herror := hs.error
  obtain ⟨_, _, _, _, _, _, _, _, _, error, _, _, _⟩ := s
  subst herror
  cases discard <;> rfl

/-- A reply that is a failure is raised. -/
theorem step?_labelErr (hs : s.Ready input) (name : Option String) {e' : ParseError τ}
    {r' : Reading τ} (h : Reply.labelled name s.reading e r = .failed e' r') :
    step? codeOf ⟨block, .instr (.labelErr name) :: rest, s.caught (s.check true) e r, frames⟩ =
      some (arrive block [] ((s.read r').fail e') frames) := by
  refine step?_unwind rfl hs.status hs.pc hs.handlers ?_
  cases h
  rfl

theorem step?_guardErr (hs : s.Ready input) {mode : GuardMode τ} {e' : ParseError τ}
    {r' : Reading τ} (h : mode.reply s.reading e r = .failed e' r') :
    step? codeOf
        ⟨block, .instr (.guardErr mode false) :: rest, s.caught (s.check true) e r, frames⟩ =
      some (arrive block [] ((s.read r').fail e') frames) := by
  refine step?_unwind rfl hs.status hs.pc hs.handlers ?_
  cases mode with
  | capture => cases h
  | amend f =>
    cases h
    rfl
  | merge other =>
    cases h
    rfl

end Caught

end Config

end ParserMachine

import ParserMachine.Proofs.Streaming.Prefix

/-!
# A machine on a part of the input

A machine that has seen only a part of the input is compared with one that has the whole of it. The
two are in step (`State.InStep`) when they differ in their buffers only. A machine that waits inside
a repetition of one instruction is ahead of the other one, which still stands before that repetition
(`State.MidSpan`); what it has read is parked. `State.Tracks` is either of the two.

Main statement: a step of the machine with the part either waits for input, and then nothing is lost,
or keeps the two in step (`State.Tracks.exec`).
-/

namespace ParserMachine

variable {τ : Type} [Token τ]

namespace State

/-- The state with another buffer, to which nothing will be added. -/
def onWhole (whole : Array τ) (s : State τ) : State τ := { s with input := whole, more := false }

/-- The buffer of `s` is a part of the whole input, nothing that `s` points at lies beyond it, and it
is all of the input once no more may arrive. -/
structure Within (whole : Array τ) (s : State τ) : Prop where
  /-- The whole input goes on where the buffer ends. -/
  part : ∃ rest, whole = s.input ++ rest
  /-- A buffer that cannot grow is the whole input. -/
  ended : s.more = false → whole = s.input
  /-- The cursor is in the buffer or at its end. -/
  offset_le : s.offset ≤ s.input.size
  /-- So are the places that checks remember. -/
  checks_le : ∀ c ∈ s.checks.toList, c.offset ≤ s.input.size

/-- `w` is `s` with the whole input. -/
structure InStep (whole : Array τ) (s w : State τ) : Prop where
  /-- The buffer is a part of the whole. -/
  within : s.Within whole
  /-- The states differ in the buffer only. -/
  eq : w = s.onWhole whole
  /-- Nothing is parked. -/
  parked : s.parked = #[]
  /-- The machine does not wait. -/
  awake : s.status ≠ .suspended

/-- `s` is inside a repetition of one instruction, before which `w` stands. -/
structure MidSpan (p : Program τ) (whole : Array τ) (s w : State τ) : Prop where
  /-- The buffer is a part of the whole. -/
  within : s.Within whole
  /-- The machine can go on. -/
  running : s.status = .running
  /-- The states differ in the buffer and in how far the repetition has come. -/
  eq : w = { s.onWhole whole with offset := w.offset, parked := #[] }
  /-- The repetition began where `w` stands. -/
  le : w.offset ≤ s.offset
  /-- The instruction is a repetition; what was read passes its test and is parked. -/
  reading : ∃ test e pushes, p.code[s.pc]? = some (.satisfyMany test e pushes) ∧
    (∀ j t, w.offset ≤ j → j < s.offset → whole[j]? = some t → test t) ∧
    s.parked = if pushes then (whole.extract w.offset s.offset).map Value.tok else #[]

/-- `s`, which has seen a part of the input, has come as far as `w`, which has all of it. -/
def Tracks (p : Program τ) (whole : Array τ) (s w : State τ) : Prop :=
  InStep whole s w ∨ MidSpan p whole s w

/-! ### What does not look at the buffer -/

section onWhole

variable {whole : Array τ} {s : State τ}

@[simp] theorem onWhole_input : (s.onWhole whole).input = whole := rfl
@[simp] theorem onWhole_more : (s.onWhole whole).more = false := rfl
@[simp] theorem onWhole_offset : (s.onWhole whole).offset = s.offset := rfl
@[simp] theorem onWhole_pc : (s.onWhole whole).pc = s.pc := rfl
@[simp] theorem onWhole_status : (s.onWhole whole).status = s.status := rfl
@[simp] theorem onWhole_data : (s.onWhole whole).data = s.data := rfl
@[simp] theorem onWhole_calls : (s.onWhole whole).calls = s.calls := rfl
@[simp] theorem onWhole_handlers : (s.onWhole whole).handlers = s.handlers := rfl
@[simp] theorem onWhole_checks : (s.onWhole whole).checks = s.checks := rfl
@[simp] theorem onWhole_error : (s.onWhole whole).error = s.error := rfl
@[simp] theorem onWhole_hints : (s.onWhole whole).hints = s.hints := rfl
@[simp] theorem onWhole_parked : (s.onWhole whole).parked = s.parked := rfl
@[simp] theorem onWhole_renewals : (s.onWhole whole).renewals = s.renewals := rfl

theorem onWhole_eq_self (h : whole = s.input) (hm : s.more = false) : s.onWhole whole = s := by
  subst h
  cases s
  simp only at hm
  subst hm
  rfl

end onWhole

/-! ### Steps that do not read -/

section InStep

variable {whole : Array τ} {s w : State τ}

/-- A change of the smaller state that leaves its buffer alone and points at nothing beyond it. -/
theorem InStep.change (h : InStep whole s w) {t w' : State τ} (hw : w' = t.onWhole whole)
    (hi : t.input = s.input) (hm : t.more = s.more) (ho : t.offset ≤ s.input.size)
    (hc : ∀ c ∈ t.checks.toList, c.offset ≤ s.input.size) (hp : t.parked = #[])
    (ha : t.status ≠ .suspended) : InStep whole t w' := by
  refine ⟨⟨?_, ?_, ?_, ?_⟩, hw, hp, ha⟩
  · rw [hi]
    exact h.within.part
  · rw [hi, hm]
    exact h.within.ended
  · rwa [hi]
  · rwa [hi]

/-- Two states in step stay so when both are changed in the same way, as long as the change leaves
the buffers alone and points at nothing beyond them. -/
theorem InStep.update (h : InStep whole s w) (f : State τ → State τ)
    (hf : f (s.onWhole whole) = (f s).onWhole whole) (hi : (f s).input = s.input)
    (hm : (f s).more = s.more) (ho : (f s).offset ≤ s.input.size)
    (hc : ∀ c ∈ (f s).checks.toList, c.offset ≤ s.input.size) (hp : (f s).parked = #[])
    (ha : (f s).status ≠ .suspended) : InStep whole (f s) (f w) :=
  h.change (by rw [h.eq, hf]) hi hm ho hc hp ha

theorem InStep.goto (h : InStep whole s w) (pc : Nat) : InStep whole (s.goto pc) (w.goto pc) :=
  h.update _ rfl rfl rfl h.within.offset_le h.within.checks_le h.parked h.awake

theorem InStep.next (h : InStep whole s w) : InStep whole s.next w.next :=
  h.update _ rfl rfl rfl h.within.offset_le h.within.checks_le h.parked h.awake

theorem InStep.push (h : InStep whole s w) (v : Value τ) : InStep whole (s.push v) (w.push v) :=
  h.update _ rfl rfl rfl h.within.offset_le h.within.checks_le h.parked h.awake

theorem InStep.hint (h : InStep whole s w) (e : ParseError τ) :
    InStep whole (s.hint e) (w.hint e) :=
  h.update _ rfl rfl rfl h.within.offset_le h.within.checks_le h.parked h.awake

theorem InStep.setOffset (h : InStep whole s w) {o : Nat} (ho : o ≤ s.input.size) :
    InStep whole { s with offset := o } { w with offset := o } :=
  h.update (fun s => { s with offset := o }) rfl rfl rfl ho h.within.checks_le h.parked h.awake

theorem InStep.offset_eq (h : InStep whole s w) : w.offset = s.offset := by rw [h.eq]; rfl

theorem InStep.fault (h : InStep whole s w) (f : Nat → Fault) :
    InStep whole (s.fault f) (w.fault f) :=
  h.update _ rfl rfl rfl h.within.offset_le h.within.checks_le h.parked nofun

theorem InStep.dropHandler (h : InStep whole s w) : InStep whole s.dropHandler w.dropHandler :=
  h.update _ rfl rfl rfl h.within.offset_le h.within.checks_le h.parked h.awake

theorem InStep.reinstate (h : InStep whole s w) (saved : Option (Option (ParseError τ))) :
    InStep whole (s.reinstate saved) (w.reinstate saved) := by
  cases saved with
  | none => exact h
  | some hints =>
    exact h.update _ rfl rfl rfl h.within.offset_le h.within.checks_le h.parked h.awake

theorem InStep.unwind (h : InStep whole s w) : InStep whole s.unwind w.unwind := by
  obtain ⟨_, more, _, _, _, _, _, handlers, _, _, _, _, _⟩ := s
  cases handlers with
  | nil => exact h.update _ rfl rfl rfl h.within.offset_le h.within.checks_le h.parked nofun
  | cons handler rest =>
    refine h.update _ rfl rfl rfl h.within.offset_le ?_ h.parked h.awake
    intro c hc
    rw [State.unwind, Stack.toList_lowest] at hc
    exact h.within.checks_le c (List.mem_of_mem_drop hc)

theorem InStep.fail (h : InStep whole s w) (e : ParseError τ) :
    InStep whole (s.fail e) (w.fail e) :=
  (h.update (fun s => { s with error := some e }) rfl rfl rfl h.within.offset_le h.within.checks_le
    h.parked h.awake).unwind

/-- Taking the top value keeps two states in step if what is done with it does. -/
theorem InStep.withValue (h : InStep whole s w) {k : Value τ → State τ → State τ}
    (hk : ∀ v {s' w'}, InStep whole s' w' → s'.input = s.input → InStep whole (k v s') (k v w')) :
    InStep whole (s.withValue k) (w.withValue k) := by
  obtain rfl := h.eq
  rw [State.withValue, State.withValue, onWhole_data]
  cases s.data.pop? with
  | none => exact h.fault _
  | some top =>
    exact hk top.1 (h.update (fun s => { s with data := top.2 }) rfl rfl rfl h.within.offset_le
      h.within.checks_le h.parked h.awake) rfl

/-- Taking the top check keeps two states in step if what is done with it does. The check points into
the buffer. -/
theorem InStep.withCheck (h : InStep whole s w) {k : Check τ → State τ → State τ}
    (hk : ∀ c {s' w'}, InStep whole s' w' → s'.input = s.input → s'.offset = s.offset →
      c.offset ≤ s.input.size → InStep whole (k c s') (k c w')) :
    InStep whole (s.withCheck k) (w.withCheck k) := by
  obtain rfl := h.eq
  rw [State.withCheck, State.withCheck, onWhole_checks]
  cases htop : s.checks.pop? with
  | none => exact h.fault _
  | some top =>
    have hs := Stack.pop?_eq_some_iff.1 htop
    have hle := h.within.checks_le
    rw [hs, Stack.toList_push] at hle
    exact hk top.1 (h.update (fun s => { s with checks := top.2 }) rfl rfl rfl h.within.offset_le
      (fun c hc => hle c (List.mem_cons_of_mem _ hc)) h.parked h.awake) rfl rfl
      (hle top.1 List.mem_cons_self)

theorem InStep.case (h : InStep whole s w) (left : Nat) :
    InStep whole (s.case left) (w.case left) := by
  obtain rfl := h.eq
  rw [State.case, State.case, State.withValue, State.withValue, onWhole_data]
  cases s.data.pop? with
  | none => exact h.fault _
  | some top =>
    have h' : InStep whole { s with data := top.2 } { s.onWhole whole with data := top.2 } :=
      h.change rfl rfl rfl h.within.offset_le h.within.checks_le h.parked h.awake
    dsimp only
    split
    · exact (h'.push _).goto left
    · exact (h'.push _).next
    · exact h.fault _

theorem InStep.emit (h : InStep whole s w) (out : Output τ) (v : Value τ) :
    InStep whole (s.emit out v) (w.emit out v) := by
  cases out with
  | discard => exact h
  | keep => exact h.push v
  | map f => exact h.push (f v)

end InStep

/-! ### Handlers and checks -/

section Handlers

variable {whole : Array τ} {s w : State τ}

theorem InStep.checkpoint (h : InStep whole s w) (handler : Nat) (snapshot : Bool) :
    InStep whole (s.checkpoint handler snapshot) (w.checkpoint handler snapshot) := by
  refine h.update _ rfl rfl rfl h.within.offset_le (fun c hc => ?_) h.parked h.awake
  rcases List.mem_cons.1 hc with rfl | hc
  · exact h.within.offset_le
  · exact h.within.checks_le c hc

theorem InStep.mark (h : InStep whole s w) :
    InStep whole { s with checks := s.checks.push ⟨s.offset, none⟩ }
      { w with checks := w.checks.push ⟨w.offset, none⟩ } := by
  refine h.update (fun s => { s with checks := s.checks.push ⟨s.offset, none⟩ }) rfl rfl rfl
    h.within.offset_le (fun c hc => ?_) h.parked h.awake
  rcases List.mem_cons.1 hc with rfl | hc
  · exact h.within.offset_le
  · exact h.within.checks_le c hc

theorem InStep.leave (h : InStep whole s w) (rewinds : Bool) (target : Nat) :
    InStep whole (s.leave rewinds target) (w.leave rewinds target) := by
  refine h.dropHandler.withCheck fun c s' w' h' hi _ hc => ?_
  rw [h'.eq, onWhole_offset]
  rw [← h'.eq]
  refine ((h'.setOffset (o := if rewinds then c.offset else s'.offset) ?_).reinstate _).goto _
  cases rewinds with
  | true => exact hi ▸ hc
  | false => exact h'.within.offset_le

theorem InStep.labelOk (h : InStep whole s w) (name : Option String) (target : Nat) :
    InStep whole (s.labelOk name target) (w.labelOk name target) := by
  refine h.dropHandler.withCheck fun c s' w' h' _ _ _ => ?_
  obtain rfl := h'.eq
  exact h'.change rfl rfl rfl h'.within.offset_le h'.within.checks_le h'.parked h'.awake

theorem InStep.collect (h : InStep whole s w) : InStep whole s.collect w.collect :=
  h.withValue fun _ _ _ h' _ => h'.withValue fun _ _ _ h'' _ => h''.push _

theorem InStep.loop (h : InStep whole s w) (body exit : Nat) :
    InStep whole (s.loop body exit) (w.loop body exit) := by
  obtain rfl := h.eq
  rw [State.loop, State.loop, onWhole_checks, onWhole_offset]
  cases htop : s.checks.pop? with
  | none => exact h.fault _
  | some top =>
    have hle := h.within.checks_le
    rw [Stack.pop?_eq_some_iff.1 htop, Stack.toList_push] at hle
    have hrest : ∀ c ∈ top.2.toList, c.offset ≤ s.input.size :=
      fun c hc => hle c (List.mem_cons_of_mem _ hc)
    dsimp only
    split
    · exact ((h.dropHandler.change (t := { s.dropHandler with checks := top.2 }) rfl rfl rfl
        h.within.offset_le hrest h.parked h.awake).reinstate _).goto _
    · refine InStep.goto (s := { s with checks := top.2.push { top.1 with offset := s.offset } })
        (h.change rfl rfl rfl h.within.offset_le (fun c hc => ?_) h.parked h.awake) _
      rcases List.mem_cons.1 hc with rfl | hc
      · exact h.within.offset_le
      · exact hrest c hc

theorem InStep.recover (h : InStep whole s w) : InStep whole s.recover w.recover := by
  refine h.withCheck fun c s' w' h' _ _ _ => ?_
  have hsaved := h'.reinstate c.saved
  dsimp only
  generalize s'.reinstate c.saved = s'', w'.reinstate c.saved = w'' at hsaved
  rw [hsaved.offset_eq]
  split
  · obtain rfl := hsaved.eq
    exact InStep.next (hsaved.change rfl rfl rfl hsaved.within.offset_le hsaved.within.checks_le
      hsaved.parked hsaved.awake)
  · exact hsaved.unwind

theorem InStep.rewind (h : InStep whole s w) : InStep whole s.rewind w.rewind :=
  h.withCheck fun c _ _ h' hi _ hc => ((h'.setOffset (o := c.offset) (hi ▸ hc)).reinstate _).unwind

theorem InStep.negSucceed (h : InStep whole s w) (pushes : Bool) :
    InStep whole (s.negSucceed pushes) (w.negSucceed pushes) := by
  refine h.withCheck fun c s' w' h' hi _ hc => ?_
  obtain rfl := h'.eq
  have hback : InStep whole
      { s' with offset := c.offset, hints := c.saved.getD s'.hints, error := none }
      { s'.onWhole whole with
        offset := c.offset, hints := c.saved.getD (s'.onWhole whole).hints, error := none } :=
    h'.change rfl rfl rfl (hi ▸ hc) h'.within.checks_le h'.parked h'.awake
  cases pushes with
  | true => exact (hback.push _).next
  | false => exact hback.next

theorem InStep.labelErr (h : InStep whole s w) (name : Option String) :
    InStep whole (s.labelErr name) (w.labelErr name) := by
  refine h.withCheck fun c s' w' h' _ _ _ => ?_
  obtain rfl := h'.eq
  exact InStep.unwind
    (h'.change rfl rfl rfl h'.within.offset_le h'.within.checks_le h'.parked h'.awake)

theorem InStep.failAmended (h : InStep whole s w) (e : ParseError τ)
    (saved : Option (Option (ParseError τ))) :
    InStep whole (s.failAmended e saved) (w.failAmended e saved) := by
  obtain rfl := h.eq
  exact InStep.unwind
    (h.change rfl rfl rfl h.within.offset_le h.within.checks_le h.parked h.awake)

theorem InStep.guardErr (h : InStep whole s w) (mode : GuardMode τ) (pushes : Bool) :
    InStep whole (s.guardErr mode pushes) (w.guardErr mode pushes) := by
  refine h.withCheck fun c s' w' h' hi _ hc => ?_
  obtain rfl := h'.eq
  cases mode with
  | capture =>
    have hback : InStep whole
        { s' with offset := c.offset, hints := c.saved.getD s'.hints, error := none }
        { s'.onWhole whole with
          offset := c.offset, hints := c.saved.getD (s'.onWhole whole).hints, error := none } :=
      h'.change rfl rfl rfl (hi ▸ hc) h'.within.checks_le h'.parked h'.awake
    cases pushes with
    | true => exact (hback.push _).next
    | false => exact hback.next
  | amend f => exact h'.failAmended _ _
  | merge other =>
    exact InStep.failAmended (s := { s' with renewals := s'.renewals + 1 })
      (h'.change rfl rfl rfl h'.within.offset_le h'.within.checks_le h'.parked h'.awake) _ _

end Handlers

/-! ### Steps that read -/

/-- What a step has come to: `s'` waits for input that may still arrive, and is no further than `w`
was before the step, or it is in step with `w'`. -/
def Advances (p : Program τ) (whole : Array τ) (s' w w' : State τ) : Prop :=
  (s'.status = .suspended ∧ s'.more = true ∧ Tracks p whole { s' with status := .running } w) ∨
    InStep whole s' w'

section Reading

variable {p : Program τ} {whole : Array τ} {s w : State τ}

/-- Waiting changes nothing. -/
theorem InStep.advances_suspend (h : InStep whole s w) (hr : s.status = .running)
    (hm : s.more = true) (w' : State τ) : Advances p whole s.suspend w w' := by
  refine .inl ⟨rfl, hm, .inl ?_⟩
  have : { s.suspend with status := Status.running } = s := by
    rw [State.suspend, ← hr]
  rwa [this]

/-- The token at the cursor is the same for both, unless it has yet to arrive. -/
theorem InStep.current?_eq (h : InStep whole s w) (hn : s.needsInput = false) :
    w.current? = s.current? := by
  obtain rfl := h.eq
  obtain ⟨rest, hrest⟩ := h.within.part
  rw [needsInput, Bool.and_eq_false_iff] at hn
  rcases hn with hm | hlt
  · rw [onWhole_eq_self (h.within.ended hm) hm]
  · rw [decide_eq_false_iff_not, Nat.not_le] at hlt
    rw [current?, current?, onWhole_input, onWhole_offset, hrest, Array.getElem?_append_left hlt]

theorem current?_eq_none_of_needsInput (hn : s.needsInput = true) :
    s.current? = none ∧ s.more = true := by
  rw [needsInput, Bool.and_eq_true, decide_eq_true_iff] at hn
  exact ⟨Array.getElem?_eq_none_iff.2 hn.2, hn.1⟩

theorem more_eq_false_of_current?_eq_none (hn : s.needsInput = false) (hc : s.current? = none) :
    s.more = false := by
  rw [needsInput, Bool.and_eq_false_iff, decide_eq_false_iff_not] at hn
  exact hn.resolve_right (not_not_intro (Array.getElem?_eq_none_iff.1 hc))

theorem lt_size_of_current?_eq_some {t : τ} (hc : s.current? = some t) : s.offset < s.input.size :=
  (Array.getElem?_eq_some_iff.1 hc).1

/-- A machine that has the whole input never waits. -/
theorem InStep.more_eq_false (h : InStep whole s w) : w.more = false := by rw [h.eq]; rfl

theorem InStep.needsInput_eq_false (h : InStep whole s w) : w.needsInput = false := by
  rw [needsInput, h.more_eq_false, Bool.false_and]

theorem InStep.errorHere_eq (h : InStep whole s w) (hn : s.needsInput = false)
    (e : ExpectedSet τ) : w.errorHere e = s.errorHere e := by
  rw [errorHere, errorHere, here, here, h.current?_eq hn, h.offset_eq]

theorem InStep.one (h : InStep whole s w) (hr : s.status = .running) (accept : τ → Bool)
    (e : ExpectedSet τ) (out : Output τ) :
    Advances p whole (s.one accept e out) w (w.one accept e out) := by
  cases hn : s.needsInput with
  | true =>
    obtain ⟨hc, hm⟩ := current?_eq_none_of_needsInput hn
    rw [State.one, hc]
    simpa only [hm, if_true] using h.advances_suspend hr hm _
  | false =>
    refine .inr ?_
    rw [State.one, State.one, h.current?_eq hn, h.errorHere_eq hn]
    cases hc : s.current? with
    | none =>
      simpa only [more_eq_false_of_current?_eq_none hn hc, h.more_eq_false, Bool.false_eq_true,
        if_false] using h.fail _
    | some t =>
      dsimp only
      split
      · have hlt := lt_size_of_current?_eq_some hc
        rw [h.offset_eq]
        exact ((h.setOffset (o := s.offset + 1) hlt).emit out _).next
      · exact h.fail _

theorem InStep.endOfInput (h : InStep whole s w) (hr : s.status = .running) (e : ExpectedSet τ) :
    Advances p whole (s.endOfInput e) w (w.endOfInput e) := by
  cases hn : s.needsInput with
  | true =>
    obtain ⟨hc, hm⟩ := current?_eq_none_of_needsInput hn
    rw [State.endOfInput, hc]
    simpa only [hm, if_true] using h.advances_suspend hr hm _
  | false =>
    refine .inr ?_
    rw [State.endOfInput, State.endOfInput, h.current?_eq hn, h.errorHere_eq hn]
    cases hc : s.current? with
    | none =>
      simpa only [more_eq_false_of_current?_eq_none hn hc, h.more_eq_false, Bool.false_eq_true,
        if_false] using h.next
    | some t => exact h.fail _

theorem InStep.expect (h : InStep whole s w) (hr : s.status = .running) (e : ExpectedSet τ) :
    Advances p whole (s.expect e) w (w.expect e) := by
  rw [State.expect, State.expect, h.needsInput_eq_false]
  cases hn : s.needsInput with
  | true => exact h.advances_suspend hr (current?_eq_none_of_needsInput hn).2 _
  | false =>
    rw [h.errorHere_eq hn]
    exact .inr (h.fail _)

theorem InStep.dispatch (h : InStep whole s w) (hr : s.status = .running) (table : List (τ × Nat))
    (targets : List Nat) (before : List (ExpectedSet τ)) (all : ExpectedSet τ)
    (fallback : Option Nat) :
    Advances p whole (s.dispatch table targets before all fallback) w
      (w.dispatch table targets before all fallback) := by
  simp only [State.dispatch, h.needsInput_eq_false]
  cases hn : s.needsInput with
  | true => exact h.advances_suspend hr (current?_eq_none_of_needsInput hn).2 _
  | false =>
    refine .inr ?_
    simp only [h.errorHere_eq hn, h.current?_eq hn, Bool.false_eq_true, if_false]
    split
    · split
      · split
        · exact h.goto _
        · exact (h.hint _).goto _
      · exact h.fault _
    · split
      · exact (h.hint _).goto _
      · exact h.fail _

theorem InStep.literal (h : InStep whole s w) (hr : s.status = .running) (ts : List τ)
    (v : Value τ) (e : ExpectedSet τ) (out : Output τ) :
    Advances p whole (s.literal ts v e out) w (w.literal ts v e out) := by
  obtain ⟨rest, hrest⟩ := h.within.part
  have hle := add_matchLength_le_size s.input ts h.within.offset_le
  by_cases hk : matchLength s.input s.offset ts = ts.length
  · have hw : matchLength w.input w.offset ts = ts.length := by
      rw [h.eq, onWhole_input, onWhole_offset, hrest, matchLength_append _ _ (.inl hk), hk]
    rw [State.literal, State.literal]
    simp only [hk, hw, if_true]
    rw [h.offset_eq]
    exact .inr ((h.setOffset (by omega)).emit out v).next
  · cases hm : (s.more && decide (s.input.size ≤ s.offset + matchLength s.input s.offset ts)) with
    | true =>
      rw [State.literal]
      simp only [hk, hm, if_false, if_true]
      exact h.advances_suspend hr (Bool.and_eq_true_iff.1 hm).1 _
    | false =>
      have hw : matchLength w.input w.offset ts = matchLength s.input s.offset ts := by
        rw [h.eq, onWhole_input, onWhole_offset]
        rw [Bool.and_eq_false_iff, decide_eq_false_iff_not, Nat.not_le] at hm
        rcases hm with hm | hm
        · rw [h.within.ended hm]
        · rw [hrest, matchLength_append _ _ (.inr hm)]
      rw [State.literal, State.literal]
      have hwm (n : Nat) : (w.more && decide (w.input.size ≤ n)) = false := by
        rw [h.more_eq_false, Bool.false_and]
      simp only [hk, hw, hm, hwm, Bool.false_eq_true, if_false]
      have hmoved := h.setOffset hle
      rw [h.offset_eq, hmoved.errorHere_eq (by simpa only [needsInput] using hm)]
      exact .inr (hmoved.fail _)

/-- What was consumed since a check is the same in both buffers. -/
theorem InStep.extract_eq (h : InStep whole s w) (start : Nat) :
    w.input.extract start w.offset = s.input.extract start s.offset := by
  obtain ⟨rest, hrest⟩ := h.within.part
  rw [h.eq, onWhole_input, onWhole_offset, hrest, Array.extract_append,
    Nat.sub_eq_zero_of_le h.within.offset_le, Array.extract_zero, Array.append_empty]

theorem InStep.slice (h : InStep whole s w) (mode : SliceMode) :
    InStep whole (s.slice mode) (w.slice mode) := by
  refine h.withCheck fun c s' w' h' _ _ _ => ?_
  rw [h'.extract_eq]
  cases mode with
  | chunk => exact (h'.push _).next
  | pair => exact h'.withValue fun v s'' w'' h'' _ => (h''.push _).next

theorem InStep.negFail (h : InStep whole s w) (hr : s.status = .running) :
    Advances p whole s.negFail w w.negFail := by
  rw [State.negFail, State.negFail, h.needsInput_eq_false, h.offset_eq]
  have hchecks : w.checks = s.checks := by rw [h.eq]; rfl
  rw [hchecks]
  cases htop : s.checks.pop? with
  | none => exact .inr (h.fault _)
  | some top =>
    obtain ⟨c, rest⟩ := top
    have hle := h.within.checks_le
    rw [Stack.pop?_eq_some_iff.1 htop, Stack.toList_push] at hle
    dsimp only
    rw [Bool.and_false, if_neg Bool.false_ne_true]
    cases hn : (decide (s.offset = c.offset) && s.needsInput) with
    | true =>
      have hn := (Bool.and_eq_true_iff.1 hn).2
      exact h.advances_suspend hr (current?_eq_none_of_needsInput hn).2 _
    | false =>
      rw [if_neg Bool.false_ne_true, ← h.offset_eq, h.extract_eq, h.offset_eq]
      have hfound : (if c.offset < s.offset then
            ErrorItem.tokens (s.input.extract c.offset s.offset).toList else w.here) =
          if c.offset < s.offset then
            ErrorItem.tokens (s.input.extract c.offset s.offset).toList else s.here := by
        split
        · rfl
        · have hhere : s.needsInput = false := by
            rcases Bool.and_eq_false_iff.1 hn with hne | hn
            · have hc := hle c List.mem_cons_self
              rw [decide_eq_false_iff_not] at hne
              rw [needsInput, decide_eq_false (by omega), Bool.and_false]
            · exact hn
          rw [here, here, h.current?_eq hhere]
      rw [hfound]
      obtain rfl := h.eq
      exact .inr (InStep.fail (s := { s.dropHandler with
          checks := rest, hints := c.saved.getD s.hints, offset := c.offset })
        (h.change rfl rfl rfl (hle c List.mem_cons_self)
          (fun c hc => hle c (List.mem_cons_of_mem _ hc)) h.parked h.awake) _)

/-- Before a repetition nothing has been read of it yet. -/
theorem InStep.midSpan (h : InStep whole s w) (hr : s.status = .running) {test : τ → Bool} {e : ExpectedSet τ} {pushes : Bool}
    (hi : p.code[s.pc]? = some (.satisfyMany test e pushes)) : MidSpan p whole s w := by
  refine ⟨h.within, hr, ?_, Nat.le_of_eq h.offset_eq, test, e, pushes, hi, ?_, ?_⟩
  · rw [h.eq]
    show s.onWhole whole = { s.onWhole whole with offset := s.offset, parked := #[] }
    rw [← h.parked]
    rfl
  · intro j t hj hlt
    rw [h.offset_eq] at hj
    omega
  · rw [h.parked, h.offset_eq, Array.extract_empty_of_stop_le_start (Nat.le_refl _), Array.map_empty,
      ite_self]

section Repetition

variable (h : MidSpan p whole s w) {test : τ → Bool} {e : ExpectedSet τ} {pushes : Bool}
  (hi : p.code[s.pc]? = some (.satisfyMany test e pushes))
include h hi

/-- What `MidSpan.reading` says of the instruction that the machine is at. -/
theorem MidSpan.reading_at :
    (∀ j t, w.offset ≤ j → j < s.offset → whole[j]? = some t → test t) ∧
      s.parked = if pushes then (whole.extract w.offset s.offset).map Value.tok else #[] := by
  obtain ⟨_, _, _, hi', hpass, hparked⟩ := h.reading
  rw [hi] at hi'
  cases hi'
  exact ⟨hpass, hparked⟩

/-- The tokens up to the end of the span, of which a part may have been passed before, pass the test. -/
theorem MidSpan.passed : ∀ j t, w.offset ≤ j → j < spanEnd test s.input s.offset →
    whole[j]? = some t → test t := by
  obtain ⟨hpass, -⟩ := h.reading_at hi
  obtain ⟨rest, hrest⟩ := h.within.part
  have hstop := spanEnd_le_size test s.input h.within.offset_le
  intro j t hj hlt hget
  by_cases hjs : j < s.offset
  · exact hpass j t hj hjs hget
  · refine test_of_lt_spanEnd test s.input s.offset j t (by omega) hlt ?_
    rwa [hrest, Array.getElem?_append_left (by omega)] at hget

/-- What was put aside and what is read now are the tokens from where the span began. -/
theorem MidSpan.parked_append_read :
    s.parked ++ (if pushes then
        (s.input.extract s.offset (spanEnd test s.input s.offset)).map Value.tok else #[]) =
      if pushes then
        (whole.extract w.offset (spanEnd test s.input s.offset)).map Value.tok else #[] := by
  obtain ⟨-, hparked⟩ := h.reading_at hi
  obtain ⟨rest, hrest⟩ := h.within.part
  have hextract : s.input.extract s.offset (spanEnd test s.input s.offset) =
      whole.extract s.offset (spanEnd test s.input s.offset) := by
    rw [hrest, Array.extract_append, Nat.sub_eq_zero_of_le (spanEnd_le_size test s.input h.within.offset_le),
      Array.extract_zero, Array.append_empty]
  rw [hparked, hextract]
  cases pushes with
  | false => rfl
  | true =>
    simp only [if_true]
    rw [← Array.map_append, Array.extract_append_extract, Nat.min_eq_left h.le,
      Nat.max_eq_right (le_spanEnd test s.input s.offset)]

/-- Unless the machine waits, the span ends where it ends in the whole input. -/
theorem MidSpan.spanEnd_eq (hwait : (s.more && decide (s.input.size ≤ spanEnd test s.input s.offset)) = false) :
    spanEnd test whole w.offset = spanEnd test s.input s.offset := by
  obtain ⟨hpass, -⟩ := h.reading_at hi
  obtain ⟨rest, hrest⟩ := h.within.part
  have hsize : s.input.size ≤ whole.size := by
    rw [hrest, Array.size_append]
    omega
  rw [spanEnd_eq_of_forall test whole h.le (Nat.le_trans h.within.offset_le hsize) hpass]
  rcases Bool.and_eq_false_iff.1 hwait with hm | hlt
  · rw [h.within.ended hm]
  · rw [decide_eq_false_iff_not, Nat.not_le] at hlt
    rw [hrest, spanEnd_append test _ _ hlt]

theorem MidSpan.satisfyMany :
    Advances p whole (s.satisfyMany test e pushes) w (w.satisfyMany test e pushes) := by
  have hstop := spanEnd_le_size test s.input h.within.offset_le
  have hread := h.parked_append_read hi
  have hw : w = { s.onWhole whole with offset := w.offset, parked := #[] } := h.eq
  cases hwait : (s.more && decide (s.input.size ≤ spanEnd test s.input s.offset)) with
  | true =>
    refine .inl ⟨by simp [State.satisfyMany, hwait, suspend], ?_, .inr ?_⟩
    · simpa [State.satisfyMany, hwait, suspend] using (Bool.and_eq_true_iff.1 hwait).1
    have hs' : ({ s.satisfyMany test e pushes with status := Status.running } : State τ) =
        { s with
          offset := spanEnd test s.input s.offset
          parked := if pushes then
            (whole.extract w.offset (spanEnd test s.input s.offset)).map Value.tok else #[] } := by
      simp only [State.satisfyMany, hwait, if_true, hread, suspend, h.running]
    rw [hs']
    exact ⟨⟨h.within.part, h.within.ended, hstop, h.within.checks_le⟩, h.running, hw,
      Nat.le_trans h.le (le_spanEnd test s.input s.offset), test, e, pushes, hi, h.passed hi, rfl⟩
  | false =>
    have hend : spanEnd test w.input w.offset = spanEnd test s.input s.offset := by
      have hinput : w.input = whole := by rw [hw]; rfl
      rw [hinput, h.spanEnd_eq hi hwait]
    have hmoved : InStep whole
        { s with offset := spanEnd test s.input s.offset, parked := #[] }
        { w with offset := spanEnd test s.input s.offset, parked := #[] } := by
      refine ⟨⟨h.within.part, h.within.ended, hstop, h.within.checks_le⟩, ?_, rfl, ?_⟩
      · rw [hw]
        rfl
      · rw [h.running]
        decide
    have hitems : w.parked ++ (if pushes then
          (w.input.extract w.offset (spanEnd test s.input s.offset)).map Value.tok else #[]) =
        if pushes then
          (whole.extract w.offset (spanEnd test s.input s.offset)).map Value.tok else #[] := by
      rw [hw]
      exact Array.empty_append
    have hmore (n : Nat) : (w.more && decide (w.input.size ≤ n)) = false := by
      rw [hw]
      rfl
    have herror := hmoved.errorHere_eq (by simpa only [needsInput] using hwait) e
    simp only [State.satisfyMany, hwait, hend, hmore, hread, hitems, Bool.false_eq_true, if_false]
    rw [herror]
    cases pushes with
    | true => exact .inr ((hmoved.hint _).push _).next
    | false => exact .inr (hmoved.hint _).next

end Repetition

/-- A step of the machine that has seen a part of the input. It waits, and the other machine stands
where it stood; or the two are in step after it. -/
theorem Tracks.exec (h : Tracks p whole s w) (hr : s.status = .running) {i : Instr τ Nat}
    (hi : p.code[s.pc]? = some i) :
    Advances p whole (s.exec p.size i) w (w.exec p.size i) := by
  rcases h with h | h
  · cases i with
    | push v => exact .inr (h.push v).next
    | pop => exact .inr (h.withValue fun _ _ _ h' _ => h'.next)
    | map f => exact .inr (h.withValue fun v _ _ h' _ => (h'.push (f v)).next)
    | lift2 f =>
      rw [State.exec, State.exec]
      refine .inr (h.withValue fun y _ _ h' _ => ?_)
      exact h'.withValue fun x _ _ h'' _ => (h''.push (f x y)).next
    | newList => exact .inr (h.push _).next
    | single t e out => exact h.one hr _ e out
    | satisfy test e out => exact h.one hr test e out
    | literal ts v e out => exact h.literal hr ts v e out
    | satisfyMany test e pushes => exact (h.midSpan hr hi).satisfyMany hi
    | eof e => exact h.endOfInput hr e
    | fail f =>
      rw [State.exec, State.exec, h.offset_eq]
      exact .inr (h.fail _)
    | empty =>
      rw [State.exec, State.exec, h.offset_eq]
      exact .inr (h.fail _)
    | expect e => exact h.expect hr e
    | hint e =>
      rw [State.exec, State.exec, h.offset_eq]
      exact .inr (h.hint _).next
    | call t =>
      exact .inr (h.update (State.exec p.size · (.call t)) rfl rfl rfl h.within.offset_le
        h.within.checks_le h.parked h.awake)
    | ret =>
      exact .inr (h.update (State.exec p.size · .ret) rfl rfl rfl h.within.offset_le
        h.within.checks_le h.parked h.awake)
    | jump t => exact .inr (h.goto t)
    | case t => exact .inr (h.case t)
    | dispatch table targets before all fallback => exact h.dispatch hr _ _ _ _ _
    | checkpoint handler snapshot => exact .inr (h.checkpoint handler snapshot)
    | commit t => exact .inr (h.leave false t)
    | release t => exact .inr (h.leave false t)
    | restore t => exact .inr (h.leave true t)
    | negFail => exact h.negFail hr
    | labelOk name t => exact .inr (h.labelOk name t)
    | loop body exit pushes =>
      cases pushes with
      | true => exact .inr (h.collect.loop body exit)
      | false => exact .inr (h.loop body exit)
    | recover => exact .inr h.recover
    | rewind => exact .inr h.rewind
    | negSucceed pushes => exact .inr (h.negSucceed pushes)
    | labelErr name => exact .inr (h.labelErr name)
    | manyDone => exact .inr h.recover
    | guardErr mode pushes => exact .inr (h.guardErr mode pushes)
    | mark => exact .inr h.mark.next
    | slice mode => exact .inr (h.slice mode)
  · obtain ⟨test, e, pushes, hi', _⟩ := h.reading
    rw [hi] at hi'
    cases hi'
    exact h.satisfyMany hi

end Reading

end State

end ParserMachine

import ParserMachine.Machine.Step

/-!
# The buffer

No instruction changes the tokens that have arrived, or whether more may arrive
(`State.exec_input`, `State.exec_more`). Both facts go through every helper by which instructions are
defined: each of them rebuilds the state from other fields only.
-/

namespace ParserMachine.State

variable {τ : Type} [Token τ]

/-- `t` has the buffer of `s`. -/
def SameBuffer (s t : State τ) : Prop := t.input = s.input ∧ t.more = s.more

namespace SameBuffer

variable {s t u : State τ}

theorem refl (s : State τ) : s.SameBuffer s := ⟨rfl, rfl⟩

theorem trans (h : s.SameBuffer t) (h' : t.SameBuffer u) : s.SameBuffer u :=
  ⟨h'.1.trans h.1, h'.2.trans h.2⟩

theorem unwind (h : s.SameBuffer t) : s.SameBuffer t.unwind := by
  rw [State.unwind]
  split <;> exact h

theorem fail (h : s.SameBuffer t) (e : ParseError τ) : s.SameBuffer (t.fail e) :=
  unwind (t := { t with error := some e }) h

theorem withValue (h : s.SameBuffer t) {k : Value τ → State τ → State τ}
    (hk : ∀ v {u}, s.SameBuffer u → s.SameBuffer (k v u)) :
    s.SameBuffer (t.withValue k) := by
  rw [State.withValue]
  split
  · exact h
  · exact hk _ h

theorem withCheck (h : s.SameBuffer t) {k : Check τ → State τ → State τ}
    (hk : ∀ c {u}, s.SameBuffer u → s.SameBuffer (k c u)) :
    s.SameBuffer (t.withCheck k) := by
  rw [State.withCheck]
  split
  · exact h
  · exact hk _ h

theorem reinstate (h : s.SameBuffer t) (saved : Option (Option (ParseError τ))) :
    s.SameBuffer (t.reinstate saved) := by
  cases saved <;> exact h

theorem emit (h : s.SameBuffer t) (out : Output τ) (v : Value τ) :
    s.SameBuffer (t.emit out v) := by
  cases out <;> exact h

theorem collect (h : s.SameBuffer t) : s.SameBuffer t.collect :=
  h.withValue fun _ _ h => h.withValue fun _ _ h => h

theorem recover (h : s.SameBuffer t) : s.SameBuffer t.recover := by
  refine h.withCheck fun c u h => ?_
  have hsaved := h.reinstate c.saved
  dsimp only
  split
  · exact hsaved
  · exact hsaved.unwind

theorem leave (h : s.SameBuffer t) (rewinds : Bool) (target : Nat) :
    s.SameBuffer (t.leave rewinds target) :=
  withCheck (t := t.dropHandler) h fun c u h =>
    reinstate (t := { u with offset := if rewinds then c.offset else u.offset }) h c.saved

theorem one (h : s.SameBuffer t) (accept : τ → Bool) (e : ExpectedSet τ) (out : Output τ) :
    s.SameBuffer (t.one accept e out) := by
  rw [State.one]
  split
  · split
    · exact emit (t := { t with offset := t.offset + 1 }) h out _
    · exact h.fail _
  · split
    · exact h
    · exact h.fail _

theorem literal (h : s.SameBuffer t) (ts : List τ) (v : Value τ) (e : ExpectedSet τ)
    (out : Output τ) : s.SameBuffer (t.literal ts v e out) := by
  rw [State.literal]
  split
  · exact emit (t := { t with offset := t.offset + matchLength t.input t.offset ts }) h out _
  · split
    · exact h
    · exact fail (t := { t with offset := t.offset + matchLength t.input t.offset ts }) h _

theorem satisfyMany (h : s.SameBuffer t) (test : τ → Bool) (e : ExpectedSet τ) (pushes : Bool) :
    s.SameBuffer (t.satisfyMany test e pushes) := by
  rw [State.satisfyMany]
  dsimp only
  split
  · exact h
  · cases pushes <;> exact h

theorem dispatch (h : s.SameBuffer t) (table : List (τ × Nat)) (targets : List Nat)
    (before : List (ExpectedSet τ)) (all : ExpectedSet τ) (fallback : Option Nat) :
    s.SameBuffer (t.dispatch table targets before all fallback) := by
  simp only [State.dispatch]
  split
  · exact h
  · split
    · split
      · split <;> exact h
      · exact h
    · split
      · exact h
      · exact h.fail _

theorem negFail (h : s.SameBuffer t) : s.SameBuffer t.negFail := by
  rw [State.negFail]
  split
  · exact h
  · split
    · exact h
    · exact fail (t := { t.dropHandler with checks := _, hints := _, offset := _ }) h _

theorem loop (h : s.SameBuffer t) (body exit : Nat) : s.SameBuffer (t.loop body exit) := by
  rw [State.loop]
  split
  · exact h
  · split
    · exact reinstate (t := { t.dropHandler with checks := _ }) h _
    · exact h

theorem guardErr (h : s.SameBuffer t) (mode : GuardMode τ) (pushes : Bool) :
    s.SameBuffer (t.guardErr mode pushes) := by
  refine h.withCheck fun c u h => ?_
  cases mode with
  | capture => cases pushes <;> exact h
  | amend f => exact unwind (t := { u with error := _, hints := _ }) h
  | merge other => exact unwind (t := { u with renewals := _, error := _, hints := _ }) h

theorem case (h : s.SameBuffer t) (left : Nat) : s.SameBuffer (t.case left) := by
  rw [State.case, State.withValue]
  split
  · exact h
  · split <;> exact h

theorem slice (h : s.SameBuffer t) (mode : SliceMode) : s.SameBuffer (t.slice mode) := by
  refine h.withCheck fun c u h => ?_
  cases mode with
  | chunk => exact h
  | pair => exact h.withValue fun _ _ h => h

end SameBuffer

/-- No instruction changes the buffer. -/
theorem sameBuffer_exec (size : Nat) (s : State τ) (i : Instr τ Nat) :
    s.SameBuffer (s.exec size i) := by
  have h := SameBuffer.refl s
  cases i with
  | push | newList | hint | call | ret | jump | checkpoint | mark => exact h
  | pop => exact h.withValue fun _ _ h => h
  | map f => exact h.withValue fun _ _ h => h
  | lift2 f => exact h.withValue fun _ _ h => h.withValue fun _ _ h => h
  | single | satisfy => exact h.one _ _ _
  | literal => exact h.literal _ _ _ _
  | satisfyMany => exact h.satisfyMany _ _ _
  | eof e =>
    rw [exec, endOfInput]
    split
    · exact h.fail _
    · split <;> exact h
  | fail | empty => exact h.fail _
  | expect e =>
    rw [exec, expect]
    split
    · exact h
    · exact h.fail _
  | case t => exact h.case t
  | dispatch => exact h.dispatch _ _ _ _ _
  | commit | release | restore => exact h.leave _ _
  | negFail => exact h.negFail
  | labelOk => exact SameBuffer.withCheck (t := s.dropHandler) h fun _ _ h => h
  | loop body exit pushes =>
    cases pushes with
    | true => exact h.collect.loop _ _
    | false => exact h.loop _ _
  | recover | manyDone => exact h.recover
  | rewind =>
    exact h.withCheck fun c t h =>
      (SameBuffer.reinstate (t := { t with offset := c.offset }) h c.saved).unwind
  | negSucceed pushes =>
    refine h.withCheck fun c t h => ?_
    cases pushes <;> exact h
  | labelErr name =>
    exact h.withCheck fun c t h => SameBuffer.unwind (t := { t with error := _, hints := _ }) h
  | guardErr => exact h.guardErr _ _
  | slice => exact h.slice _

@[simp] theorem exec_input (size : Nat) (s : State τ) (i : Instr τ Nat) :
    (s.exec size i).input = s.input := (sameBuffer_exec size s i).1

@[simp] theorem exec_more (size : Nat) (s : State τ) (i : Instr τ Nat) :
    (s.exec size i).more = s.more := (sameBuffer_exec size s i).2

end ParserMachine.State

import ParserMachine.Proofs.Streaming.Prefix

/-!
# Offsets in order

The places that checks remember, from the lowest check to the highest, and after them the cursor and the end
of the buffer are in order (`State.Ordered`), and no instruction changes that
(`State.Ordered.exec`): the cursor goes forth within the buffer or back to the place of the highest check.
-/

namespace ParserMachine

variable {τ : Type} [Token τ]

/-- The checks, the highest first, and the cursor are in order, and the cursor is in a buffer of so many
tokens or at its end. -/
structure InOrder (size offset : Nat) (checks : List (Check τ)) : Prop where
  /-- The cursor is in the buffer or at its end. -/
  offset_le : offset ≤ size
  /-- No check lies beyond the cursor. -/
  checks_le : ∀ c ∈ checks, c.offset ≤ offset
  /-- No check lies beyond one above it. -/
  sorted : checks.Pairwise fun c d => d.offset ≤ c.offset

namespace InOrder

variable {size offset offset' : Nat} {checks checks' : List (Check τ)} {c : Check τ}

/-- Some checks go. -/
theorem sublist (h : InOrder size offset checks) (hsub : checks'.Sublist checks) :
    InOrder size offset checks' :=
  ⟨h.offset_le, fun c hc => h.checks_le c (hsub.subset hc), h.sorted.sublist hsub⟩

theorem tail (h : InOrder size offset (c :: checks)) : InOrder size offset checks :=
  h.sublist (List.sublist_cons_self _ _)

/-- The cursor goes back to the highest check. -/
theorem back (h : InOrder size offset (c :: checks)) : InOrder size c.offset checks :=
  ⟨Nat.le_trans (h.checks_le c (List.mem_cons_self ..)) h.offset_le,
    fun _ hd => (List.pairwise_cons.1 h.sorted).1 _ hd, (List.pairwise_cons.1 h.sorted).2⟩

/-- The cursor goes forth. -/
theorem forth (h : InOrder size offset checks) (hle : offset ≤ offset') (hsize : offset' ≤ size) :
    InOrder size offset' checks :=
  ⟨hsize, fun c hc => Nat.le_trans (h.checks_le c hc) hle, h.sorted⟩

/-- A check at the cursor. -/
theorem push (h : InOrder size offset checks) (hc : c.offset = offset) :
    InOrder size offset (c :: checks) := by
  refine ⟨h.offset_le, fun d hd => ?_, List.pairwise_cons.2 ⟨fun d hd => ?_, h.sorted⟩⟩
  · rcases List.mem_cons.1 hd with rfl | hd
    · exact Nat.le_of_eq hc
    · exact h.checks_le d hd
  · rw [hc]
    exact h.checks_le d hd

end InOrder

namespace State

/-- The checks, the cursor and the end of the buffer are in order. -/
def Ordered (s : State τ) : Prop := InOrder s.input.size s.offset s.checks.toList

namespace Ordered

variable {s : State τ}

/-- A run begins at the first token, and without checks. -/
theorem start (input : Array τ) (more : Bool) : State.Ordered { input, more } := ⟨Nat.zero_le _, nofun, .nil⟩

theorem unwind (h : s.Ordered) : s.unwind.Ordered := by
  rw [State.unwind]
  split
  · exact h
  · unfold Ordered
    rw [Stack.toList_lowest]
    exact h.sublist (List.drop_sublist _ _)

theorem fail (h : s.Ordered) (e : ParseError τ) : (s.fail e).Ordered :=
  unwind (s := { s with error := some e }) h

theorem withValue (h : s.Ordered) {k : Value τ → State τ → State τ}
    (hk : ∀ v {t : State τ}, t.Ordered → (k v t).Ordered) : (s.withValue k).Ordered := by
  rw [State.withValue]
  split
  · exact h
  · exact hk _ h

/-- The top check in order. -/
theorem of_pop? (h : s.Ordered) {c : Check τ} {rest : Stack (Check τ)}
    (hpop : s.checks.pop? = some (c, rest)) : InOrder s.input.size s.offset (c :: rest.toList) := by
  have h' : InOrder s.input.size s.offset s.checks.toList := h
  rwa [Stack.pop?_eq_some_iff.1 hpop, Stack.toList_push] at h'

/-- Whoever takes the top check may go back to it. -/
theorem withCheck (h : s.Ordered) {k : Check τ → State τ → State τ}
    (hk : ∀ c {t : State τ}, t.Ordered → State.Ordered { t with offset := c.offset } → (k c t).Ordered) :
    (s.withCheck k).Ordered := by
  rw [State.withCheck]
  split
  · exact h
  · rename_i c rest hpop
    have htop := h.of_pop? hpop
    exact hk c (t := { s with checks := rest }) htop.tail htop.back

theorem reinstate (h : s.Ordered) (saved : Option (Option (ParseError τ))) :
    (s.reinstate saved).Ordered := by
  cases saved <;> exact h

theorem emit (h : s.Ordered) (out : Output τ) (v : Value τ) : (s.emit out v).Ordered := by
  cases out <;> exact h

theorem one (h : s.Ordered) (accept : τ → Bool) (e : ExpectedSet τ) (out : Output τ) :
    (s.one accept e out).Ordered := by
  rw [State.one]
  split
  · rename_i t ht
    split
    · have hlt : s.offset < s.input.size := (Array.getElem?_eq_some_iff.1 ht).1
      exact emit (s := { s with offset := s.offset + 1 }) (InOrder.forth h (Nat.le_succ _) hlt) out _
    · exact h.fail _
  · split
    · exact h
    · exact h.fail _

theorem literal (h : s.Ordered) (ts : List τ) (v : Value τ) (e : ExpectedSet τ) (out : Output τ) :
    (s.literal ts v e out).Ordered := by
  have hmoved : State.Ordered { s with offset := s.offset + matchLength s.input s.offset ts } :=
    InOrder.forth h (Nat.le_add_right _ _) (add_matchLength_le_size s.input ts h.offset_le)
  rw [State.literal]
  split
  · exact hmoved.emit out _
  · split
    · exact h
    · exact hmoved.fail _

theorem satisfyMany (h : s.Ordered) (test : τ → Bool) (e : ExpectedSet τ) (pushes : Bool) :
    (s.satisfyMany test e pushes).Ordered := by
  have hmoved : State.Ordered { s with offset := spanEnd test s.input s.offset } :=
    InOrder.forth h (le_spanEnd test s.input s.offset) (spanEnd_le_size test s.input h.offset_le)
  rw [State.satisfyMany]
  dsimp only
  split
  · exact hmoved
  · cases pushes <;> exact hmoved

theorem dispatch (h : s.Ordered) (table : List (τ × Nat)) (targets : List Nat)
    (before : List (ExpectedSet τ)) (all : ExpectedSet τ) (fallback : Option Nat) :
    (s.dispatch table targets before all fallback).Ordered := by
  simp only [State.dispatch]
  split
  · exact h
  · split
    · split
      · split <;> exact h
      · exact h
    · split
      · exact h
      · exact h.fail _

theorem negFail (h : s.Ordered) : s.negFail.Ordered := by
  rw [State.negFail]
  split
  · exact h
  · rename_i c rest hpop
    split
    · exact h
    · exact fail (s := { s.dropHandler with checks := rest, hints := _, offset := c.offset })
        (h.of_pop? hpop).back _

theorem loop (h : s.Ordered) (body exit : Nat) : (s.loop body exit).Ordered := by
  rw [State.loop]
  split
  · exact h
  · rename_i c rest hpop
    have htail := (h.of_pop? hpop).tail
    split
    · exact reinstate (s := { s.dropHandler with checks := rest }) htail _
    · exact InOrder.push htail rfl

theorem leave (h : s.Ordered) (rewinds : Bool) (target : Nat) : (s.leave rewinds target).Ordered := by
  refine withCheck (s := s.dropHandler) h fun c t h hback => ?_
  refine reinstate (s := { t with offset := if rewinds then c.offset else t.offset }) ?_ c.saved
  cases rewinds with
  | true => exact hback
  | false => exact h

theorem recover (h : s.Ordered) : s.recover.Ordered := by
  refine h.withCheck fun c t h _ => ?_
  have hsaved := h.reinstate c.saved
  dsimp only
  split
  · exact hsaved
  · exact hsaved.unwind

theorem guardErr (h : s.Ordered) (mode : GuardMode τ) (pushes : Bool) :
    (s.guardErr mode pushes).Ordered := by
  refine h.withCheck fun c t h hback => ?_
  cases mode with
  | capture => cases pushes <;> exact hback
  | amend f => exact unwind (s := { t with error := _, hints := _ }) h
  | merge other => exact unwind (s := { t with renewals := _, error := _, hints := _ }) h

theorem case (h : s.Ordered) (left : Nat) : (s.case left).Ordered := by
  rw [State.case, State.withValue]
  split
  · exact h
  · split <;> exact h

theorem slice (h : s.Ordered) (mode : SliceMode) : (s.slice mode).Ordered := by
  refine h.withCheck fun c t h _ => ?_
  cases mode with
  | chunk => exact h
  | pair => exact h.withValue fun _ _ h => h

/-- No instruction brings the offsets out of order. -/
theorem exec (h : s.Ordered) (size : Nat) (i : Instr τ Nat) : (s.exec size i).Ordered := by
  cases i with
  | push | newList | hint | call | ret | jump => exact h
  | pop => exact h.withValue fun _ _ h => h
  | map f => exact h.withValue fun _ _ h => h
  | lift2 f => exact h.withValue fun _ _ h => h.withValue fun _ _ h => h
  | single | satisfy => exact h.one _ _ _
  | literal => exact h.literal _ _ _ _
  | satisfyMany => exact h.satisfyMany _ _ _
  | eof e =>
    rw [State.exec, endOfInput]
    split
    · exact h.fail _
    · split <;> exact h
  | fail | empty => exact h.fail _
  | expect e =>
    rw [State.exec, expect]
    split
    · exact h
    · exact h.fail _
  | case t => exact h.case t
  | dispatch => exact h.dispatch _ _ _ _ _
  | checkpoint | mark => exact InOrder.push h rfl
  | commit | release | restore => exact h.leave _ _
  | negFail => exact h.negFail
  | labelOk => exact withCheck (s := s.dropHandler) h fun _ _ h _ => h
  | loop body exit pushes =>
    cases pushes with
    | true => exact (h.withValue fun _ _ h => h.withValue fun _ _ h => h : s.collect.Ordered).loop _ _
    | false => exact h.loop _ _
  | recover | manyDone => exact h.recover
  | rewind =>
    exact h.withCheck fun c t _ hback => (reinstate (s := { t with offset := c.offset }) hback c.saved).unwind
  | negSucceed pushes =>
    refine h.withCheck fun c t _ hback => ?_
    cases pushes <;> exact hback
  | labelErr name => exact h.withCheck fun c t h _ => unwind (s := { t with error := _, hints := _ }) h
  | guardErr => exact h.guardErr _ _
  | slice => exact h.slice _

end Ordered

end State

end ParserMachine

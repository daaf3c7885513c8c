import ParserMachine.Proofs.Assembly.Flows
import ParserMachine.Proofs.Machine.Noting

/-!
# Instructions that leave checks alone

Of most instructions it can be said at once what comes of a state by them (`State.Acts`, `State.acts_exec`):
calls, handlers and checks stay as they are, and the instruction raises an error at the cursor or goes on, takes and
gives some values, and may then record what it expected.
-/

namespace ParserMachine

variable {τ : Type} [Token τ]

open ParseError

namespace State

/-- The second state is beside the first one: it has the same status, error, calls, handlers and checks. -/
structure Beside (s t : State τ) : Prop where
  status : t.status = s.status
  error : t.error = s.error
  calls : t.calls = s.calls
  handlers : t.handlers = s.handlers
  checks : t.checks = s.checks

/-- The second state has `m` values in place of `n` values of the first one. -/
def Trades (n m : Nat) (s t : State τ) : Prop :=
  ∃ vs ws rest, vs.length = n ∧ ws.length = m ∧ s.data.toList = vs ++ rest ∧ t.data.toList = ws ++ rest

/-- What comes of a state by an instruction that leaves calls, handlers and checks alone. -/
inductive Acts (s : State τ) (i : Instr τ Nat) : State τ → Prop where
  /-- The machine stops. -/
  | faults {t : State τ} {f : Fault} : t.status = .faulted f → Acts s i t
  /-- It waits. -/
  | waits {t : State τ} : s.suspend.Beside t → t.data = s.data → t.pc = s.pc → Acts s i t
  /-- The instruction raises an error at the cursor, wherever that has come. -/
  | fails {t : State τ} {e : ParseError τ} : s.raised i = some e → s.recorded i = none → e.offset = t.offset →
    s.Beside t → t.data = s.data → t.hints = s.hints → Acts s i (t.fail e)
  /-- It goes on, and may record what it expected. -/
  | goes {t : State τ} : s.raised i = none → s.Beside t → s.Trades i.takes i.gives t →
    t.hints = mergeOpt s.hints (s.recorded i) → (i.isTerminal = false ∧ t.pc = s.pc + 1) ∨ t.pc ∈ i.targets →
    Acts s i t

variable {s : State τ}

theorem Beside.emit {t : State τ} (h : s.Beside t) (out : Output τ) (v : Value τ) : s.Beside (t.emit out v) := by
  cases out <;> exact ⟨h.status, h.error, h.calls, h.handlers, h.checks⟩

theorem Trades.of_eq {t : State τ} (h : t.data = s.data) : s.Trades 0 0 t :=
  ⟨[], [], s.data.toList, rfl, rfl, rfl, congrArg Stack.toList h⟩

theorem Trades.push {t : State τ} (h : t.data = s.data) (v : Value τ) : s.Trades 0 1 (t.push v) :=
  ⟨[], [v], s.data.toList, rfl, rfl, rfl, congrArg (fun data : Stack (Value τ) => v :: data.toList) h⟩

theorem Trades.emit {t : State τ} (h : t.data = s.data) (out : Output τ) (v : Value τ) :
    s.Trades 0 out.gives (t.emit out v) := by
  cases out with
  | discard => exact .of_eq h
  | keep | map => exact .push h _

theorem Acts.fault {i : Instr τ Nat} (t : State τ) (f : Nat → Fault) : s.Acts i (t.fault f) := .faults rfl

theorem Acts.suspend {i : Instr τ Nat} : s.Acts i s.suspend := .waits ⟨rfl, rfl, rfl, rfl, rfl⟩ rfl rfl

theorem acts_withValue {i : Instr τ Nat} {k : Value τ → State τ → State τ}
    (hk : ∀ v data, s.data = data.push v → s.Acts i (k v { s with data })) : s.Acts i (s.withValue k) := by
  rw [withValue]
  split
  · exact .fault _ _
  · rename_i hpop
    exact hk _ _ (Stack.pop?_eq_some_iff.1 hpop)

theorem acts_one {i : Instr τ Nat} {accept : τ → Bool} {expected : ExpectedSet τ} {out : Output τ}
    (htakes : i.takes = 0) (hgives : i.gives = out.gives) (hraised : s.raised i = s.missed accept expected)
    (hrecorded : s.recorded i = none)
    (hterminal : i.isTerminal = false) : s.Acts i (s.one accept expected out) := by
  unfold missed at hraised
  rw [one]
  split
  · rename_i t ht
    rw [ht] at hraised
    dsimp only at hraised
    split
    · rename_i haccept
      rw [if_pos haccept] at hraised
      have hmoved : s.Beside { s with offset := s.offset + 1 } := ⟨rfl, rfl, rfl, rfl, rfl⟩
      have hbeside := hmoved.emit out (.tok t)
      refine .goes hraised ⟨hbeside.status, hbeside.error, hbeside.calls, hbeside.handlers, hbeside.checks⟩ ?_ ?_
        (.inl ⟨hterminal, ?_⟩)
      · rw [htakes, hgives]
        exact Trades.emit (s := s) (t := { s with offset := s.offset + 1 }) rfl out (.tok t)
      · rw [hrecorded, mergeOpt_none]
        cases out <;> rfl
      · cases out <;> rfl
    · rename_i haccept
      rw [if_neg haccept] at hraised
      exact .fails hraised hrecorded rfl ⟨rfl, rfl, rfl, rfl, rfl⟩ rfl rfl
  · rename_i ht
    rw [ht] at hraised
    dsimp only at hraised
    split
    · exact .suspend
    · rename_i hmore
      rw [if_neg hmore] at hraised
      exact .fails hraised hrecorded rfl ⟨rfl, rfl, rfl, rfl, rfl⟩ rfl rfl

theorem acts_literal (ts : List τ) (v : Value τ) (expected : ExpectedSet τ) (out : Output τ) :
    s.Acts (.literal ts v expected out) (s.literal ts v expected out) := by
  have hmoved : s.Beside { s with offset := s.offset + matchLength s.input s.offset ts } := ⟨rfl, rfl, rfl, rfl, rfl⟩
  rw [literal]
  split
  · rename_i hk
    have hbeside := hmoved.emit out v
    refine .goes ?_ ⟨hbeside.status, hbeside.error, hbeside.calls, hbeside.handlers, hbeside.checks⟩ ?_ ?_
      (.inl ⟨rfl, ?_⟩)
    · dsimp only [raised]
      rw [if_pos (by simp [hk])]
    · exact Trades.emit (s := s) (t := { s with offset := s.offset + matchLength s.input s.offset ts }) rfl out v
    · show _ = mergeOpt s.hints none
      rw [mergeOpt_none]
      cases out <;> rfl
    · cases out <;> rfl
  · rename_i hk
    split
    · exact .suspend
    · rename_i hneeds
      refine .fails ?_ rfl rfl hmoved rfl rfl
      unfold raised needsInput
      dsimp only
      rw [if_neg (by simp [hk, Bool.eq_false_iff.2 hneeds])]

theorem acts_satisfyMany (test : τ → Bool) (expected : ExpectedSet τ) (pushes : Bool) :
    s.Acts (.satisfyMany test expected pushes) (s.satisfyMany test expected pushes) := by
  rw [satisfyMany]
  dsimp only
  split
  · exact .waits ⟨rfl, rfl, rfl, rfl, rfl⟩ rfl rfl
  · rename_i hneeds
    have hrecorded : s.recorded (.satisfyMany test expected pushes) =
        some (State.errorHere { s with offset := spanEnd test s.input s.offset } expected) := by
      unfold recorded needsInput
      dsimp only
      rw [if_neg hneeds]
    refine .goes rfl ?_ ?_ ?_ (.inl ⟨rfl, ?_⟩)
    · cases pushes <;> exact ⟨rfl, rfl, rfl, rfl, rfl⟩
    · cases pushes with
      | true => exact .push (s := s) (t := { s with data := s.data }) rfl _
      | false => exact .of_eq rfl
    · rw [hrecorded]
      cases pushes <;> rfl
    · cases pushes <;> rfl

theorem acts_dispatch (table : List (τ × Nat)) (targets : List Nat) (before : List (ExpectedSet τ))
    (all : ExpectedSet τ) (fallback : Option Nat) :
    s.Acts (.dispatch table targets before all fallback) (s.dispatch table targets before all fallback) := by
  simp only [State.dispatch]
  split
  · exact .suspend
  · rename_i hneeds
    split
    · rename_i k hk
      split
      · rename_i e t he ht
        refine .goes ?_ ?_ ?_ ?_ (.inr (List.mem_append_left _ (List.mem_of_getElem? ht)))
        · dsimp only [raised]
          rw [if_pos (by simp [hk])]
        · split <;> exact ⟨rfl, rfl, rfl, rfl, rfl⟩
        · split <;> exact .of_eq rfl
        · dsimp only [recorded]
          rw [if_neg hneeds, hk]
          dsimp only
          rw [he, ht]
          dsimp only
          split
          · exact (mergeOpt_none _).symm
          · rfl
      · exact .fault _ _
    · rename_i hk
      cases fallback with
      | some f =>
        refine .goes ?_ ⟨rfl, rfl, rfl, rfl, rfl⟩ (.of_eq rfl) ?_
          (.inr (List.mem_append_right _ (List.mem_cons_self ..)))
        · dsimp only [raised]
          rw [if_pos (by simp)]
        · dsimp only [recorded]
          rw [if_neg hneeds, hk]
          rfl
      | none =>
        refine .fails ?_ ?_ rfl ⟨rfl, rfl, rfl, rfl, rfl⟩ rfl rfl
        · dsimp only [raised]
          rw [if_neg (by simp [hk, Bool.eq_false_iff.2 hneeds])]
        · dsimp only [recorded]
          rw [if_neg hneeds, hk]
          rfl

end State

/-- Whether an instruction leaves calls, handlers and checks alone, unless it fails. -/
def Instr.isForward {ι : Type} : Instr τ ι → Bool
  | push _ | pop | map _ | lift2 _ | newList | single _ _ _ | satisfy _ _ _ | literal _ _ _ _
  | satisfyMany _ _ _ | eof _ | hint _ | fail _ | empty | expect _ | jump _ | case _
  | dispatch _ _ _ _ _ => true
  | _ => false

namespace State

variable {s : State τ}

theorem acts_exec {i : Instr τ Nat} (hi : i.isForward = true) (size : Nat) : s.Acts i (s.exec size i) := by
  have hquiet {j : Instr τ Nat} {data : Stack (Value τ)} {pc : Nat} (hraised : s.raised j = none)
      (hrecorded : s.recorded j = none) (hdata : s.Trades j.takes j.gives { s with data, pc })
      (hpc : (j.isTerminal = false ∧ pc = s.pc + 1) ∨ pc ∈ j.targets) : s.Acts j { s with data, pc } := by
    refine .goes hraised ⟨rfl, rfl, rfl, rfl, rfl⟩ hdata ?_ hpc
    rw [hrecorded]
    exact (mergeOpt_none _).symm
  have htop {v w : Value τ} {data : Stack (Value τ)} {pc : Nat} (h : s.data = data.push v) :
      s.Trades 1 1 { s with data := data.push w, pc } :=
    ⟨[v], [w], data.toList, rfl, rfl, congrArg Stack.toList h, rfl⟩
  cases i with
  | push | newList => exact hquiet rfl rfl ⟨[], [_], s.data.toList, rfl, rfl, rfl, rfl⟩ (.inl ⟨rfl, rfl⟩)
  | pop =>
    rw [exec]
    exact acts_withValue fun v data h =>
      hquiet rfl rfl ⟨[v], [], data.toList, rfl, rfl, congrArg Stack.toList h, rfl⟩ (.inl ⟨rfl, rfl⟩)
  | map f =>
    rw [exec]
    exact acts_withValue fun v data h => hquiet rfl rfl (htop h) (.inl ⟨rfl, rfl⟩)
  | lift2 f =>
    rw [exec]
    refine acts_withValue fun w data h => ?_
    rw [withValue]
    split
    · exact .fault _ _
    · rename_i v rest hpop
      have hrest : data = rest.push v := Stack.pop?_eq_some_iff.1 hpop
      refine hquiet rfl rfl ⟨[w, v], [f v w], rest.toList, rfl, rfl, ?_, rfl⟩ (.inl ⟨rfl, rfl⟩)
      rw [h, hrest]
      rfl
  | single | satisfy => exact acts_one rfl rfl rfl rfl rfl
  | literal => exact acts_literal _ _ _ _
  | satisfyMany => exact acts_satisfyMany _ _ _
  | eof e =>
    rw [exec, endOfInput]
    split
    · rename_i t ht
      refine .fails ?_ rfl rfl ⟨rfl, rfl, rfl, rfl, rfl⟩ rfl rfl
      dsimp only [raised]
      rw [if_pos (by simp [ht])]
    · rename_i ht
      split
      · exact .suspend
      · refine hquiet ?_ rfl (.of_eq rfl) (.inl ⟨rfl, rfl⟩)
        dsimp only [raised]
        rw [if_neg (by simp [ht])]
  | fail f =>
    refine .fails rfl rfl ?_ ⟨rfl, rfl, rfl, rfl, rfl⟩ rfl rfl
    cases f <;> rfl
  | empty => exact .fails rfl rfl rfl ⟨rfl, rfl, rfl, rfl, rfl⟩ rfl rfl
  | expect e =>
    rw [exec, expect]
    split
    · exact .suspend
    · rename_i hneeds
      refine .fails ?_ rfl rfl ⟨rfl, rfl, rfl, rfl, rfl⟩ rfl rfl
      dsimp only [raised]
      rw [if_neg hneeds]
  | hint e => exact .goes rfl ⟨rfl, rfl, rfl, rfl, rfl⟩ (.of_eq rfl) rfl (.inl ⟨rfl, rfl⟩)
  | jump t => exact hquiet rfl rfl (.of_eq rfl) (.inr (List.mem_cons_self ..))
  | case t =>
    rw [exec, case]
    rw [withValue]
    split
    · exact .fault _ _
    · rename_i v data hpop
      have h : s.data = data.push v := Stack.pop?_eq_some_iff.1 hpop
      split
      · exact hquiet rfl rfl (htop h) (.inr (List.mem_cons_self ..))
      · exact hquiet rfl rfl (htop h) (.inl ⟨rfl, rfl⟩)
      · exact .fault _ _
  | dispatch => exact acts_dispatch _ _ _ _ _
  | _ => cases hi

end State

end ParserMachine

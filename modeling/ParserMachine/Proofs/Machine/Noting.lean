import ParserMachine.Proofs.Machine.Runs
import ParserMachine.Proofs.Reports.Combining

/-!
# Errors that a run notes

An instruction may raise an error (`State.raised`), and it may record one as a hint: what it expected where it
went on (`State.recorded`), or the error in flight that it survived (`State.survived`). No other errors come into
a state: each that it holds is in flight, among the hints or set aside by a check, and comes from those that were
noted by merging (`State.Errors.exec`), unless a guard amends it.
-/

namespace ParserMachine

variable {τ : Type} [Token τ]

namespace State

/-! ### What an instruction notes -/

/-- The error where the token at the cursor is not accepted. -/
def missed (accept : τ → Bool) (expected : ExpectedSet τ) (s : State τ) : Option (ParseError τ) :=
  match s.current? with
  | some t => if accept t then none else some (s.errorHere expected)
  | none => if s.more then none else some (s.errorHere expected)

/-- The error that an instruction fails with, if it raises one. -/
def raised (s : State τ) : Instr τ Nat → Option (ParseError τ)
  | .single t e _ => s.missed (fun u => u = t) e
  | .satisfy test e _ => s.missed test e
  | .literal ts _ e _ =>
    let k := matchLength s.input s.offset ts
    let moved := { s with offset := s.offset + k }
    if k = ts.length || moved.needsInput then none else some (moved.errorHere e)
  | .eof e => if s.current?.isSome then some (s.errorHere e) else none
  | .fail f => some (f.raise s.offset)
  | .empty => some (.unknown s.offset)
  | .expect e => if s.needsInput then none else some (s.errorHere e)
  | .dispatch table _ _ all fallback =>
    if s.needsInput || (s.current?.bind fun t => table.lookup t).isSome || fallback.isSome then none
    else some (s.errorHere all)
  | .negFail =>
    match s.checks.pop? with
    | none => none
    | some (c, _) =>
      if s.offset = c.offset && s.needsInput then none
      else
        let found := if c.offset < s.offset then
            .tokens (s.input.extract c.offset s.offset).toList
          else s.here
        some (.trivial c.offset (some found) .empty)
  | _ => none

/-- What an instruction expected where it went on and records as a hint. -/
def recorded (s : State τ) : Instr τ Nat → Option (ParseError τ)
  | .satisfyMany test e _ =>
    let moved := { s with offset := spanEnd test s.input s.offset }
    if moved.needsInput then none else some (moved.errorHere e)
  | .hint e => some (.trivial s.offset none e)
  | .dispatch table targets before all fallback =>
    if s.needsInput then none
    else
      match s.current?.bind fun t => table.lookup t with
      | some k =>
        match before[k]?, targets[k]? with
        | some e, some _ => if e.isEmpty then none else some (s.errorHere e)
        | _, _ => none
      | none => if fallback.isSome then some (s.errorHere all) else none
  | _ => none

/-- The error in flight that an instruction survives and records as a hint. -/
def survived (s : State τ) : Instr τ Nat → Option (ParseError τ)
  | .recover | .manyDone =>
    match s.checks.pop? with
    | none => none
    | some (c, _) => if s.offset = c.offset then some s.inFlight else none
  | _ => none

end State

/-- What the instructions note in the first steps of a run. -/
def Program.along (p : Program τ) (note : State τ → Instr τ Nat → Option (ParseError τ)) :
    Nat → State τ → List (ParseError τ)
  | 0, _ => []
  | steps + 1, s =>
    match p.step? s, p.code[s.pc]? with
    | some s', some i => (note s i).toList ++ along p note steps s'
    | _, _ => []

/-- What holds of two errors and is kept by merging holds of their merge. -/
theorem ParseError.forall_mem_mergeOpt {H : ParseError τ → Prop} (hmerge : ∀ a b, H a → H b → H (a.merge b))
    {a b : Option (ParseError τ)} (ha : ∀ e ∈ a, H e) (hb : ∀ e ∈ b, H e) : ∀ e ∈ mergeOpt a b, H e := by
  cases a with
  | none => exact hb
  | some a =>
    cases b with
    | none => exact ha
    | some b =>
      rintro e ⟨⟩
      exact hmerge a b (ha a rfl) (hb b rfl)

theorem ParseError.forall_mem_none {H : ParseError τ → Prop} : ∀ e ∈ (none : Option (ParseError τ)), H e := by
  intro e he
  cases he

/-- What a check set aside, or what stands there where it set nothing aside. -/
theorem ParseError.forall_mem_getD {H : ParseError τ → Prop} {saved : Option (Option (ParseError τ))}
    {m : Option (ParseError τ)} (hsaved : ∀ e ∈ saved.join, H e) (hm : ∀ e ∈ m, H e) :
    ∀ e ∈ saved.getD m, H e := by
  cases saved with
  | none => exact hm
  | some m => exact hsaved

namespace State

/-! ### Where errors come from -/

/-- The errors that a state holds: `E` holds of the one in flight and `H` of those that were survived. -/
structure Errors (E H : ParseError τ → Prop) (s : State τ) : Prop where
  /-- The error in flight. -/
  flying : ∀ e ∈ s.error, E e
  /-- The hints. -/
  hinted : ∀ e ∈ s.hints, H e
  /-- The hints that checks set aside. -/
  saved : ∀ c ∈ s.checks.toList, ∀ e ∈ c.saved.join, H e

namespace Errors

variable {E H : ParseError τ → Prop} {s : State τ}

theorem unwind (h : s.Errors E H) : s.unwind.Errors E H := by
  rw [State.unwind]
  split
  · exact ⟨h.flying, h.hinted, h.saved⟩
  · refine ⟨h.flying, h.hinted, fun c hc => h.saved c ?_⟩
    rw [Stack.toList_lowest] at hc
    exact List.mem_of_mem_drop hc

theorem fail (h : s.Errors E H) {e : ParseError τ} (he : E e) : (s.fail e).Errors E H := by
  refine unwind (s := { s with error := some e }) ⟨?_, h.hinted, h.saved⟩
  rintro e' ⟨⟩
  exact he

theorem withValue (h : s.Errors E H) {k : Value τ → State τ → State τ}
    (hk : ∀ v {t : State τ}, t.Errors E H → (k v t).Errors E H) : (s.withValue k).Errors E H := by
  rw [State.withValue]
  split
  · exact ⟨h.flying, h.hinted, h.saved⟩
  · exact hk _ ⟨h.flying, h.hinted, h.saved⟩

theorem withCheck (h : s.Errors E H) {k : Check τ → State τ → State τ}
    (hk : ∀ c {t : State τ}, s.checks.pop? = some (c, t.checks) → t.offset = s.offset → t.error = s.error →
      t.input = s.input → (∀ e ∈ c.saved.join, H e) → t.Errors E H → (k c t).Errors E H) :
    (s.withCheck k).Errors E H := by
  rw [State.withCheck]
  split
  · exact ⟨h.flying, h.hinted, h.saved⟩
  · rename_i c rest hpop
    have hchecks := Stack.pop?_eq_some_iff.1 hpop
    have hsaved := h.saved
    rw [hchecks, Stack.toList_push, List.forall_mem_cons] at hsaved
    exact hk c (t := { s with checks := rest }) hpop rfl rfl rfl hsaved.1 ⟨h.flying, h.hinted, hsaved.2⟩

theorem hint (h : s.Errors E H) (hmerge : ∀ a b, H a → H b → H (a.merge b)) {e : ParseError τ} (he : H e) :
    (s.hint e).Errors E H :=
  ⟨h.flying, ParseError.forall_mem_mergeOpt hmerge h.hinted (by simpa using he), h.saved⟩

theorem reinstate (h : s.Errors E H) (hmerge : ∀ a b, H a → H b → H (a.merge b))
    {saved : Option (Option (ParseError τ))} (hsaved : ∀ e ∈ saved.join, H e) : (s.reinstate saved).Errors E H := by
  cases saved with
  | none => exact h
  | some m => exact ⟨h.flying, ParseError.forall_mem_mergeOpt hmerge hsaved h.hinted, h.saved⟩

theorem emit (h : s.Errors E H) (out : Output τ) (v : Value τ) : (s.emit out v).Errors E H := by
  cases out <;> exact ⟨h.flying, h.hinted, h.saved⟩

theorem one (h : s.Errors E H) {accept : τ → Bool} {expected : ExpectedSet τ}
    (hraised : ∀ e ∈ s.missed accept expected, E e) (out : Output τ) : (s.one accept expected out).Errors E H := by
  unfold State.missed at hraised
  rw [State.one]
  cases ht : s.current? with
  | some t =>
    rw [ht] at hraised
    dsimp only at hraised ⊢
    by_cases haccept : accept t
    · rw [if_pos haccept]
      have hemit := emit (s := { s with offset := s.offset + 1 }) ⟨h.flying, h.hinted, h.saved⟩ out (.tok t)
      exact ⟨hemit.flying, hemit.hinted, hemit.saved⟩
    · rw [if_neg haccept] at hraised ⊢
      exact h.fail (hraised _ rfl)
  | none =>
    rw [ht] at hraised
    dsimp only at hraised ⊢
    by_cases hmore : s.more
    · rw [if_pos hmore]
      exact ⟨h.flying, h.hinted, h.saved⟩
    · rw [if_neg hmore] at hraised ⊢
      exact h.fail (hraised _ rfl)

theorem literal (h : s.Errors E H) {ts : List τ} {v : Value τ} {expected : ExpectedSet τ} {out : Output τ}
    (hraised : ∀ e ∈ s.raised (.literal ts v expected out), E e) : (s.literal ts v expected out).Errors E H := by
  have hmoved : State.Errors E H { s with offset := s.offset + matchLength s.input s.offset ts } :=
    ⟨h.flying, h.hinted, h.saved⟩
  rw [State.literal]
  split
  · have hemit := hmoved.emit out v
    exact ⟨hemit.flying, hemit.hinted, hemit.saved⟩
  · rename_i hk
    split
    · exact ⟨h.flying, h.hinted, h.saved⟩
    · rename_i hneeds
      refine hmoved.fail (hraised _ ?_)
      unfold raised needsInput
      dsimp only
      rw [if_neg (by simp [hk, Bool.eq_false_iff.2 hneeds])]
      rfl

theorem satisfyMany (h : s.Errors E H) (hmerge : ∀ a b, H a → H b → H (a.merge b)) {test : τ → Bool}
    {expected : ExpectedSet τ} {pushes : Bool} (hrecorded : ∀ e ∈ s.recorded (.satisfyMany test expected pushes), H e) :
    (s.satisfyMany test expected pushes).Errors E H := by
  rw [State.satisfyMany]
  dsimp only
  split
  · exact ⟨h.flying, h.hinted, h.saved⟩
  · rename_i hneeds
    have hmoved : State.Errors E H
        { s with offset := spanEnd test s.input s.offset, parked := #[] } := ⟨h.flying, h.hinted, h.saved⟩
    have hhinted := hmoved.hint hmerge (hrecorded _ (by
      unfold recorded needsInput
      dsimp only
      rw [if_neg hneeds]
      rfl))
    cases pushes <;> exact ⟨hhinted.flying, hhinted.hinted, hhinted.saved⟩

theorem dispatch (h : s.Errors E H) (hmerge : ∀ a b, H a → H b → H (a.merge b)) {table : List (τ × Nat)}
    {targets : List Nat} {before : List (ExpectedSet τ)} {all : ExpectedSet τ} {fallback : Option Nat}
    (hraised : ∀ e ∈ s.raised (.dispatch table targets before all fallback), E e)
    (hrecorded : ∀ e ∈ s.recorded (.dispatch table targets before all fallback), H e) :
    (s.dispatch table targets before all fallback).Errors E H := by
  dsimp only [raised] at hraised
  dsimp only [recorded] at hrecorded
  simp only [State.dispatch]
  split
  · exact ⟨h.flying, h.hinted, h.saved⟩
  · rename_i hneeds
    rw [if_neg hneeds] at hrecorded
    split
    · rename_i k hk
      rw [hk] at hrecorded
      dsimp only at hrecorded
      split
      · rename_i e t he ht
        rw [he, ht] at hrecorded
        dsimp only at hrecorded
        split
        · exact ⟨h.flying, h.hinted, h.saved⟩
        · rename_i hempty
          rw [if_neg hempty] at hrecorded
          have hhinted := h.hint hmerge (hrecorded _ rfl)
          exact ⟨hhinted.flying, hhinted.hinted, hhinted.saved⟩
      · exact ⟨h.flying, h.hinted, h.saved⟩
    · rename_i hk
      rw [hk] at hraised hrecorded
      cases fallback with
      | some f =>
        have hhinted := h.hint hmerge (hrecorded _ rfl)
        exact ⟨hhinted.flying, hhinted.hinted, hhinted.saved⟩
      | none =>
        refine h.fail (hraised _ ?_)
        rw [if_neg (by simp [Bool.eq_false_iff.2 hneeds])]
        rfl

theorem negFail (h : s.Errors E H) (hraised : ∀ e ∈ s.raised .negFail, E e) : s.negFail.Errors E H := by
  dsimp only [raised] at hraised
  rw [State.negFail]
  cases hpop : s.checks.pop? with
  | none => exact ⟨h.flying, h.hinted, h.saved⟩
  | some top =>
    obtain ⟨c, rest⟩ := top
    rw [hpop] at hraised
    dsimp only at hraised ⊢
    have hchecks := Stack.pop?_eq_some_iff.1 hpop
    have hsaved := h.saved
    rw [hchecks, Stack.toList_push, List.forall_mem_cons] at hsaved
    split
    · exact ⟨h.flying, h.hinted, h.saved⟩
    · rename_i hneeds
      rw [if_neg hneeds] at hraised
      refine fail (s := { s.dropHandler with checks := rest, hints := _, offset := c.offset })
        ⟨h.flying, fun e he => ?_, hsaved.2⟩ (hraised _ rfl)
      cases hc : c.saved with
      | none => exact h.hinted e (by simpa [hc] using he)
      | some m => exact hsaved.1 e (by simpa [hc] using he)

theorem loop (h : s.Errors E H) (hmerge : ∀ a b, H a → H b → H (a.merge b)) (body exit : Nat) :
    (s.loop body exit).Errors E H := by
  rw [State.loop]
  split
  · exact ⟨h.flying, h.hinted, h.saved⟩
  · rename_i c rest hpop
    have hsaved := h.saved
    rw [Stack.pop?_eq_some_iff.1 hpop, Stack.toList_push, List.forall_mem_cons] at hsaved
    split
    · have hreinstate := reinstate (s := { s.dropHandler with checks := rest })
        ⟨h.flying, h.hinted, hsaved.2⟩ hmerge hsaved.1
      exact ⟨hreinstate.flying, hreinstate.hinted, hreinstate.saved⟩
    · exact ⟨h.flying, h.hinted, List.forall_mem_cons.2 hsaved⟩

theorem leave (h : s.Errors E H) (hmerge : ∀ a b, H a → H b → H (a.merge b)) (rewinds : Bool) (target : Nat) :
    (s.leave rewinds target).Errors E H := by
  refine withCheck (s := s.dropHandler) ⟨h.flying, h.hinted, h.saved⟩ fun c t _ _ _ _ hsaved h => ?_
  have hreinstate := reinstate (s := { t with offset := if rewinds then c.offset else t.offset })
    ⟨h.flying, h.hinted, h.saved⟩ hmerge hsaved
  exact ⟨hreinstate.flying, hreinstate.hinted, hreinstate.saved⟩

theorem labelOk (h : s.Errors E H) (hmerge : ∀ a b, H a → H b → H (a.merge b)) (name : Option String)
    (target : Nat) (hlabel : ∀ c ∈ s.checks.toList, ∀ l, H (.trivial c.offset none (ExpectedSet.label l))) :
    (s.labelOk name target).Errors E H := by
  refine withCheck (s := s.dropHandler) ⟨h.flying, h.hinted, h.saved⟩ fun c t hpop _ _ _ hsaved h => ?_
  have hsaved' : ∀ e ∈ c.saved.getD none, H e :=
    ParseError.forall_mem_getD hsaved ParseError.forall_mem_none
  have hc : c ∈ s.checks.toList := by
    have hchecks : s.checks = t.checks.push c := Stack.pop?_eq_some_iff.1 hpop
    rw [hchecks]
    exact List.mem_cons_self ..
  refine ⟨h.flying, ParseError.forall_mem_mergeOpt hmerge hsaved' fun e he => ?_, h.saved⟩
  split at he
  · refine ParseError.forall_mem_mergeOpt hmerge (fun e he => ?_) (fun e he => ?_) e he
    · exact h.hinted e (Option.mem_filter_iff.1 he).1
    · obtain ⟨l, -, rfl⟩ := Option.map_eq_some_iff.1 he
      exact hlabel c hc l
  · split at he
    · cases he
    · exact h.hinted e he

theorem recover (h : s.Errors E H) (hmerge : ∀ a b, H a → H b → H (a.merge b))
    (hsurvived : ∀ e ∈ s.survived .recover, H e) : s.recover.Errors E H := by
  refine h.withCheck fun c t hpop hoffset herror _ hsaved h => ?_
  have hreinstate := h.reinstate hmerge hsaved
  have hfields : (t.reinstate c.saved).offset = s.offset ∧ (t.reinstate c.saved).inFlight = s.inFlight := by
    unfold State.inFlight
    rw [← herror, ← hoffset]
    cases c.saved <;> exact ⟨rfl, rfl⟩
  dsimp only
  rw [hfields.1, hfields.2]
  split
  · rename_i hplace
    have hquiet : State.Errors E H { t.reinstate c.saved with error := none } :=
      ⟨ParseError.forall_mem_none, hreinstate.hinted, hreinstate.saved⟩
    have hhinted := hquiet.hint hmerge (hsurvived _ (by
      unfold survived
      rw [hpop]
      exact if_pos hplace))
    exact ⟨hhinted.flying, hhinted.hinted, hhinted.saved⟩
  · exact hreinstate.unwind

theorem labelErr (h : s.Errors E H) (hmerge : ∀ a b, H a → H b → H (a.merge b)) (name : Option String)
    (hflying : E s.inFlight) (hlabel : ∀ expected, E (s.inFlight.withExpected expected)) :
    (s.labelErr name).Errors E H := by
  refine h.withCheck fun c t _ hoffset herror _ hsaved h => ?_
  have hinFlight : t.inFlight = s.inFlight := by
    unfold State.inFlight
    rw [herror, hoffset]
  have hsaved' : ∀ e ∈ c.saved.getD none, H e :=
    ParseError.forall_mem_getD hsaved ParseError.forall_mem_none
  dsimp only
  rw [hinFlight]
  refine unwind (s := { t with error := _, hints := _ }) ⟨?_, ?_, h.saved⟩
  · rintro e ⟨⟩
    split
    · exact hlabel _
    · exact hflying
  · refine ParseError.forall_mem_mergeOpt hmerge hsaved' fun e he => ?_
    split at he
    · exact h.hinted e (Option.mem_filter_iff.1 he).1
    · exact h.hinted e he

theorem case (h : s.Errors E H) (left : Nat) : (s.case left).Errors E H := by
  rw [State.case, State.withValue]
  split
  · exact ⟨h.flying, h.hinted, h.saved⟩
  · split <;> exact ⟨h.flying, h.hinted, h.saved⟩

/-- The errors that a state holds come from those that it held and those that the instruction noted, unless a
guard amends one. -/
theorem exec (h : s.Errors E H) (hmerge : ∀ a b, H a → H b → H (a.merge b)) (size : Nat) (i : Instr τ Nat)
    (hraised : ∀ e ∈ s.raised i, E e) (hrecorded : ∀ e ∈ s.recorded i, H e) (hsurvived : ∀ e ∈ s.survived i, H e)
    (hlabelOk : ∀ name t, i = .labelOk name t →
      ∀ c ∈ s.checks.toList, ∀ l, H (.trivial c.offset none (ExpectedSet.label l)))
    (hlabelErr : ∀ name, i = .labelErr name → E s.inFlight ∧ ∀ expected, E (s.inFlight.withExpected expected))
    (hguard : ∀ mode pushes, i = .guardErr mode pushes → mode = .capture) : (s.exec size i).Errors E H := by
  have hsame {t : State τ} (herror : t.error = s.error) (hhints : t.hints = s.hints) (hchecks : t.checks = s.checks) :
      t.Errors E H := ⟨herror ▸ h.flying, hhints ▸ h.hinted, hchecks ▸ h.saved⟩
  cases i with
  | push | newList | call | ret | jump => exact hsame rfl rfl rfl
  | pop => exact h.withValue fun _ _ h => ⟨h.flying, h.hinted, h.saved⟩
  | map f =>
    rw [State.exec]
    refine h.withValue fun _ _ h => ?_
    exact ⟨h.flying, h.hinted, h.saved⟩
  | lift2 f =>
    rw [State.exec]
    refine h.withValue fun _ _ h => h.withValue fun _ _ h => ?_
    exact ⟨h.flying, h.hinted, h.saved⟩
  | single | satisfy => exact h.one hraised _
  | literal => exact h.literal hraised
  | satisfyMany => exact h.satisfyMany hmerge hrecorded
  | eof e =>
    dsimp only [raised] at hraised
    rw [State.exec, State.endOfInput]
    split
    · rename_i ht
      rw [ht] at hraised
      exact h.fail (hraised _ rfl)
    · split <;> exact hsame rfl rfl rfl
  | fail | empty => exact h.fail (hraised _ rfl)
  | expect e =>
    dsimp only [raised] at hraised
    rw [State.exec, State.expect]
    split
    · exact hsame rfl rfl rfl
    · rename_i hneeds
      rw [if_neg hneeds] at hraised
      exact h.fail (hraised _ rfl)
  | hint e =>
    have hhinted := h.hint hmerge (hrecorded _ rfl)
    exact ⟨hhinted.flying, hhinted.hinted, hhinted.saved⟩
  | case t => exact h.case t
  | dispatch => exact h.dispatch hmerge hraised hrecorded
  | checkpoint t snapshot =>
    cases snapshot with
    | true => exact ⟨h.flying, ParseError.forall_mem_none, List.forall_mem_cons.2 ⟨h.hinted, h.saved⟩⟩
    | false => exact ⟨h.flying, h.hinted, List.forall_mem_cons.2 ⟨ParseError.forall_mem_none, h.saved⟩⟩
  | mark => exact ⟨h.flying, h.hinted, List.forall_mem_cons.2 ⟨ParseError.forall_mem_none, h.saved⟩⟩
  | commit | release | restore => exact h.leave hmerge _ _
  | negFail => exact h.negFail hraised
  | labelOk name t => exact h.labelOk hmerge name t (hlabelOk name t rfl)
  | loop body exit pushes =>
    cases pushes with
    | true =>
      have hcollect : s.collect.Errors E H :=
        h.withValue fun _ _ h => h.withValue fun _ _ h => ⟨h.flying, h.hinted, h.saved⟩
      exact hcollect.loop hmerge _ _
    | false => exact h.loop hmerge _ _
  | recover | manyDone => exact h.recover hmerge hsurvived
  | rewind =>
    rw [State.exec, State.rewind]
    refine h.withCheck fun c t _ _ _ _ hsaved h => ?_
    exact (reinstate (s := { t with offset := c.offset }) ⟨h.flying, h.hinted, h.saved⟩ hmerge hsaved).unwind
  | negSucceed pushes =>
    rw [State.exec, State.negSucceed]
    refine h.withCheck fun c t _ _ _ _ hsaved h => ?_
    have hhints : ∀ e ∈ c.saved.getD t.hints, H e := ParseError.forall_mem_getD hsaved h.hinted
    cases pushes <;> exact ⟨ParseError.forall_mem_none, hhints, h.saved⟩
  | labelErr name =>
    obtain ⟨hflying, hlabel⟩ := hlabelErr name rfl
    exact h.labelErr hmerge name hflying hlabel
  | guardErr mode pushes =>
    obtain rfl := hguard mode pushes rfl
    rw [State.exec, State.guardErr]
    refine h.withCheck fun c t _ _ _ _ hsaved h => ?_
    have hhints : ∀ e ∈ c.saved.getD t.hints, H e := ParseError.forall_mem_getD hsaved h.hinted
    cases pushes <;> exact ⟨ParseError.forall_mem_none, hhints, h.saved⟩
  | slice mode =>
    rw [State.exec, State.slice]
    refine h.withCheck fun c t _ _ _ _ hsaved h => ?_
    cases mode with
    | chunk => exact ⟨h.flying, h.hinted, h.saved⟩
    | pair => exact h.withValue fun _ _ h => ⟨h.flying, h.hinted, h.saved⟩

end Errors

end State

end ParserMachine

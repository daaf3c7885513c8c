import ParserMachine.Machine.Step

/-!
# What parsers mean

A parser reads on from where it stands and replies with a value or an error (`Reply`). What it
takes along is a cursor, the hints and a counter of renewals (`Reading`), over an input that stays the
same. `Leaf.run`, `Unary.run` and `Binary.run` say what each form does with what its parts do; no
machine occurs in them.

Evaluation need not end, so a parser gives nothing (`none`) where it was not granted enough depth or
rounds. The forms are monotone: with parts that give a reply more often, a form gives the same reply,
and possibly in more cases (`Unary.run_mono`, `Binary.run_mono`).
-/

namespace ParserMachine

variable {τ : Type} [Token τ]

/-- What a parser takes along. -/
structure Reading (τ : Type) [Token τ] where
  /-- How many tokens are consumed. -/
  offset : Nat
  /-- The merge of the errors that were survived. -/
  hints : Option (ParseError τ)
  /-- How often user errors were made anew. -/
  renewals : Nat

/-- How a parser ends. -/
inductive Reply (τ : Type) [Token τ] where
  /-- It succeeded. -/
  | done (v : Value τ) (r : Reading τ)
  /-- It failed. -/
  | failed (e : ParseError τ) (r : Reading τ)
  /-- A branch met a value that is no verdict. -/
  | stuck

/-- A parser in action. -/
abbrev Run (τ : Type) [Token τ] := Reading τ → Option (Reply τ)

namespace Reading

/-- The token at the cursor. -/
def current? (input : Array τ) (r : Reading τ) : Option τ := input[r.offset]?

/-- What stands at the cursor, for a report. -/
def here (input : Array τ) (r : Reading τ) : ErrorItem τ :=
  match r.current? input with
  | some t => .tokens [t]
  | none => .endOfInput

/-- The report that something else was expected at the cursor. -/
def errorHere (input : Array τ) (r : Reading τ) (expected : ExpectedSet τ) : ParseError τ :=
  .trivial r.offset (some (r.here input)) expected

/-- Takes along an error that was survived. -/
def hint (e : ParseError τ) (r : Reading τ) : Reading τ :=
  { r with hints := ParseError.mergeOpt r.hints (some e) }

@[simp] theorem hint_offset (e : ParseError τ) (r : Reading τ) : (r.hint e).offset = r.offset := rfl

end Reading

namespace Run

/-- The parser that never replies. -/
def never : Run τ := fun _ => none

/-- Runs a parser and goes on according to its reply. -/
def handle (p : Run τ) (r : Reading τ) (onDone : Value τ → Reading τ → Option (Reply τ))
    (onFailed : ParseError τ → Reading τ → Option (Reply τ)) : Option (Reply τ) :=
  match p r with
  | none => none
  | some (.done v r') => onDone v r'
  | some (.failed e r') => onFailed e r'
  | some .stuck => some .stuck

/-- Runs a parser whose failure is the failure of the whole. -/
def andThen (p : Run τ) (r : Reading τ) (onDone : Value τ → Reading τ → Option (Reply τ)) :
    Option (Reply τ) :=
  p.handle r onDone fun e r' => some (.failed e r')

/-- The second parser where the first fails without having consumed input. -/
def orElse (p q : Run τ) : Run τ := fun r =>
  p.handle r (fun v r' => some (.done v r'))
    fun e r' => if r'.offset = r.offset then q (r'.hint e) else some (.failed e r')

/-- Several parsers, each where the ones before it fail without having consumed input. -/
def inOrder : List (Run τ) → Run τ
  | [] => fun r => some (.failed (.unknown r.offset) r)
  | [p] => p
  | p :: q :: rest => p.orElse (inOrder (q :: rest))

/-- Repeats a parser, at most `rounds` times, and collects its values. The repetition ends where the
parser fails in place or succeeds in place. -/
def collect (p : Run τ) : Nat → Array (Value τ) → Run τ
  | 0, _, _ => none
  | rounds + 1, items, r =>
    p.handle r
      (fun v r' =>
        if r.offset = r'.offset then some (.done (.list (items.push v)) r')
        else collect p rounds (items.push v) r')
      fun e r' =>
        if r'.offset = r.offset then some (.done (.list items) (r'.hint e))
        else some (.failed e r')

end Run

section Handle

variable {p q s : Run τ} {r r' : Reading τ} {v : Value τ} {e : ParseError τ}
  {onDone : Value τ → Reading τ → Option (Reply τ)}
  {onFailed : ParseError τ → Reading τ → Option (Reply τ)}

theorem Run.handle_of_none (h : p r = none) : p.handle r onDone onFailed = none := by
  rw [Run.handle, h]

theorem Run.handle_of_done (h : p r = some (.done v r')) :
    p.handle r onDone onFailed = onDone v r' := by
  rw [Run.handle, h]

theorem Run.handle_of_failed (h : p r = some (.failed e r')) :
    p.handle r onDone onFailed = onFailed e r' := by
  rw [Run.handle, h]

theorem Run.handle_of_stuck (h : p r = some .stuck) :
    p.handle r onDone onFailed = some .stuck := by
  rw [Run.handle, h]

/-- To go on with the reply as it is changes nothing. -/
theorem Run.handle_self (p : Run τ) (r : Reading τ) :
    p.handle r (fun v s => some (.done v s)) (fun e s => some (.failed e s)) = p r := by
  unfold handle
  split <;> exact Eq.symm ‹_›

/-- Alternatives may be grouped in either way. -/
theorem Run.orElse_assoc (p q s : Run τ) : (p.orElse q).orElse s = p.orElse (q.orElse s) := by
  funext r
  unfold orElse
  cases hp : p r with
  | none => rw [handle_of_none hp, handle_of_none (handle_of_none hp)]
  | some reply =>
    cases reply with
    | done v r' => rw [handle_of_done hp, handle_of_done (handle_of_done hp)]
    | stuck => rw [handle_of_stuck hp, handle_of_stuck (handle_of_stuck hp)]
    | failed e r' =>
      rw [handle_of_failed hp]
      by_cases hplace : r'.offset = r.offset
      · rw [if_pos hplace]
        -- the second parser begins where the first did
        show _ = handle q (r'.hint e) _ fun e' r'' =>
          if r''.offset = r'.offset then s (r''.hint e') else some (.failed e' r'')
        rw [hplace]
        unfold handle
        simp only [hp, if_pos hplace]
      · rw [if_neg hplace]
        rw [handle_of_failed (p := fun r => _) (by rw [handle_of_failed hp, if_neg hplace])]
        rw [if_neg hplace]

end Handle

/-! ### Leaves -/

/-- One token that is accepted. -/
def Run.one (input : Array τ) (accept : τ → Bool) (expected : ExpectedSet τ) : Run τ := fun r =>
  match r.current? input with
  | some t =>
    if accept t then some (.done (.tok t) { r with offset := r.offset + 1 })
    else some (.failed (r.errorHere input expected) r)
  | none => some (.failed (r.errorHere input expected) r)

/-- All of the tokens `ts`. On a mismatch what matched stays consumed, and the error lies at the
first token that differs. -/
def Run.literal (input : Array τ) (ts : List τ) (v : Value τ) (expected : ExpectedSet τ) : Run τ :=
  fun r =>
    let k := matchLength input r.offset ts
    let moved := { r with offset := r.offset + k }
    if k = ts.length then some (.done v moved)
    else some (.failed (moved.errorHere input expected) moved)

/-- The end of the input. -/
def Run.endOfInput (input : Array τ) : Run τ := fun r =>
  match r.current? input with
  | some _ => some (.failed (r.errorHere input (SortedSet.single .endOfInput)) r)
  | none => some (.done .unit r)

/-- What a leaf does, given what calls do. -/
def Leaf.run (input : Array τ) (ofCall : Nat → Run τ) : Leaf τ → Run τ
  | pure v => fun r => some (.done v r)
  | fail f => fun r => some (.failed (f.raise r.offset) r)
  | empty => fun r => some (.failed (.unknown r.offset) r)
  | satisfy test e => .one input test e
  | single t e => .one input (fun u => u = t) e
  | literal ts v e => .literal input ts v e
  | eof => .endOfInput input
  | call l _ => ofCall l

/-! ### Unary forms -/

namespace Reading

/-- Back where another reading stands. -/
def backTo (start r : Reading τ) : Reading τ := { r with offset := start.offset }

/-- Without hints, as the inside of a labelled or guarded parser begins. -/
def bare (r : Reading τ) : Reading τ := { r with hints := none }

/-- Back where another reading stands, with its hints: only the renewals of the inside count. -/
def undo (start r : Reading τ) : Reading τ :=
  { r with offset := start.offset, hints := start.hints }

/-- The hints of the outside and those of the inside. -/
def rejoin (start r : Reading τ) (inside : Option (ParseError τ)) : Reading τ :=
  { r with hints := ParseError.mergeOpt start.hints inside }

/-- The hints that stay when an amended error goes on: those beyond it. -/
def beyond (e : ParseError τ) (r : Reading τ) : Reading τ :=
  { r with hints := r.hints.filter fun h => h.offset > e.offset }

/-- The tokens between two readings, as a value. -/
def span (input : Array τ) (start r : Reading τ) : Value τ :=
  .chunk (input.extract start.offset r.offset).toList

end Reading

/-- The hints from inside a labelled parser that has succeeded. If it consumed nothing, the label
stands for all that it reported where it began; a hidden parser's reports are dropped. -/
def Reading.labelledHints (name : Option String) (start r : Reading τ) : Option (ParseError τ) :=
  if r.offset = start.offset then
    ParseError.mergeOpt (r.hints.filter fun h => h.offset > start.offset)
      (name.map fun l => .trivial start.offset none (ExpectedSet.label l))
  else if name.isNone then none
  else r.hints

/-- A labelled parser has failed. If the error lies where the parser began, the label stands for
what was expected there. -/
def Reply.labelled (name : Option String) (start : Reading τ) (e : ParseError τ) (r : Reading τ) :
    Reply τ :=
  .failed
    (if e.offset = start.offset then e.withExpected ((name.map ExpectedSet.label).getD .empty)
      else e)
    (start.rejoin r
      (if e.offset = start.offset then r.hints.filter fun h => h.offset ≠ start.offset
        else r.hints))

/-- What a parser that must not succeed has found. -/
def Reading.found (input : Array τ) (start r : Reading τ) : ErrorItem τ :=
  if start.offset < r.offset then .tokens (input.extract start.offset r.offset).toList
  else r.here input

/-- A guarded parser has failed: its error becomes a value, or is amended and goes on. -/
def GuardMode.reply (start : Reading τ) (e : ParseError τ) (r : Reading τ) :
    GuardMode τ → Reply τ
  | capture => .done (.err e) (start.undo r)
  | amend f => .failed (f e) ((start.rejoin r r.hints).beyond (f e))
  | merge other =>
    let time := r.renewals + 1
    let e' := e.merge (other.renew time)
    .failed e' ((start.rejoin { r with renewals := time } r.hints).beyond e')

/-- The value of a guarded parser that has succeeded. -/
def GuardMode.value (v : Value τ) : GuardMode τ → Value τ
  | capture => .ok v
  | _ => v

/-- What a unary form does, given what its part does. -/
def Unary.run (input : Array τ) (rounds : Nat) (p : Run τ) : Unary τ → Run τ
  | map f => fun r => p.andThen r fun v r' => some (.done (f v) r')
  | lookAhead => fun r =>
    p.handle r (fun v r' => some (.done v (r.backTo r')))
      fun e r' => some (.failed e (r.backTo r'))
  | notFollowedBy => fun r =>
    p.handle r.bare
      (fun _ r' =>
        some (.failed (.trivial r.offset (some (r.found input r')) .empty) (r.undo r')))
      fun _ r' => some (.done .unit (r.undo r'))
  | attempt => fun r =>
    p.handle r (fun v r' => some (.done v r')) fun e r' => some (.failed e (r.backTo r'))
  | many => p.collect rounds #[]
  | chunk => fun r => p.andThen r fun _ r' => some (.done (r.span input r') r')
  | matchChunk => fun r => p.andThen r fun v r' => some (.done (.pair (r.span input r') v) r')
  | label name => fun r =>
    p.handle r.bare (fun v r' => some (.done v (r.rejoin r' (r.labelledHints name r'))))
      fun e r' => some (.labelled name r e r')
  | guard mode => fun r =>
    p.handle r.bare (fun v r' => some (.done (mode.value v) (r.rejoin r' r'.hints)))
      fun e r' => some (mode.reply r e r')

/-! ### Binary forms -/

/-- What a sequence makes of the values of its parts. -/
def SeqKind.value (v w : Value τ) : SeqKind τ → Value τ
  | both f => f v w
  | left => v
  | right => w

/-- What a binary form does, given what its parts do. -/
def Binary.run (p q : Run τ) : Binary τ → Run τ
  | seq kind => fun r =>
    p.andThen r fun v r' => q.andThen r' fun w r'' => some (.done (kind.value v w) r'')
  | alt => p.orElse q
  | branch f => fun r =>
    p.andThen r fun v r' =>
      match v with
      | .leftBranch v => q.andThen r' fun w r'' => some (.done (f v w) r'')
      | .rightBranch v => some (.done v r')
      | _ => some .stuck

/-! ### Monotony -/

namespace Run

/-- The second parser gives every reply that the first gives. -/
def Extends (q p : Run τ) : Prop := ∀ r reply, p r = some reply → q r = some reply

theorem Extends.refl (p : Run τ) : p.Extends p := fun _ _ h => h

theorem Extends.trans {p q s : Run τ} (hqp : q.Extends p) (hsq : s.Extends q) : s.Extends p :=
  fun r reply h => hsq r reply (hqp r reply h)

theorem extends_never (p : Run τ) : p.Extends never := by
  intro r reply h
  cases h

variable {p q p' q' : Run τ}

theorem handle_mono (hp : p'.Extends p) {r : Reading τ} {reply : Reply τ}
    {onDone onDone' : Value τ → Reading τ → Option (Reply τ)}
    {onFailed onFailed' : ParseError τ → Reading τ → Option (Reply τ)}
    (hd : ∀ v r', onDone v r' = some reply → onDone' v r' = some reply)
    (hf : ∀ e r', onFailed e r' = some reply → onFailed' e r' = some reply)
    (h : p.handle r onDone onFailed = some reply) :
    p'.handle r onDone' onFailed' = some reply := by
  unfold handle at h ⊢
  cases hr : p r with
  | none =>
    rw [hr] at h
    cases h
  | some reply' =>
    rw [hr] at h
    rw [hp r reply' hr]
    cases reply' with
    | done v r' => exact hd v r' h
    | failed e r' => exact hf e r' h
    | stuck => exact h

theorem andThen_mono (hp : p'.Extends p) {r : Reading τ} {reply : Reply τ}
    {onDone onDone' : Value τ → Reading τ → Option (Reply τ)}
    (hd : ∀ v r', onDone v r' = some reply → onDone' v r' = some reply)
    (h : p.andThen r onDone = some reply) : p'.andThen r onDone' = some reply :=
  handle_mono hp hd (fun _ _ h => h) h

theorem orElse_mono (hp : p'.Extends p) (hq : q'.Extends q) :
    (p'.orElse q').Extends (p.orElse q) := by
  intro r reply h
  refine handle_mono hp (fun _ _ h => h) (fun e r' h => ?_) h
  by_cases hmoved : r'.offset = r.offset
  · rw [if_pos hmoved] at h ⊢
    exact hq _ _ h
  · rwa [if_neg hmoved] at h ⊢

theorem collect_mono (hp : p'.Extends p) {n m : Nat} (hnm : n ≤ m) (items : Array (Value τ)) :
    (p'.collect m items).Extends (p.collect n items) := by
  induction n generalizing m items with
  | zero =>
    intro r reply h
    cases h
  | succ n ih =>
    obtain ⟨m, rfl⟩ := Nat.exists_eq_succ_of_ne_zero (Nat.ne_zero_of_lt hnm)
    intro r reply h
    refine handle_mono hp (fun v r' h => ?_) (fun _ _ h => h) h
    by_cases hplace : r.offset = r'.offset
    · rwa [if_pos hplace] at h ⊢
    · rw [if_neg hplace] at h ⊢
      exact ih (Nat.le_of_succ_le_succ hnm) _ _ _ h

end Run

theorem Leaf.run_mono {input : Array τ} {ofCall ofCall' : Nat → Run τ}
    (hc : ∀ l, (ofCall' l).Extends (ofCall l)) (l : Leaf τ) :
    (l.run input ofCall').Extends (l.run input ofCall) := by
  cases l with
  | call l => exact hc l
  | _ => exact Run.Extends.refl _

theorem Unary.run_mono {input : Array τ} {p p' : Run τ} (hp : p'.Extends p) {n m : Nat}
    (hnm : n ≤ m) (u : Unary τ) : (u.run input m p').Extends (u.run input n p) := by
  intro r reply h
  cases u with
  | many => exact Run.collect_mono hp hnm #[] r reply h
  | map | chunk | matchChunk => exact Run.andThen_mono hp (fun _ _ h => h) h
  | _ => exact Run.handle_mono hp (fun _ _ h => h) (fun _ _ h => h) h

theorem Binary.run_mono {p q p' q' : Run τ} (hp : p'.Extends p) (hq : q'.Extends q)
    (b : Binary τ) : (b.run p' q').Extends (b.run p q) := by
  intro r reply h
  cases b with
  | seq kind =>
    exact Run.andThen_mono hp (fun _ _ h => Run.andThen_mono hq (fun _ _ h => h) h) h
  | alt => exact Run.orElse_mono hp hq r reply h
  | branch f =>
    refine Run.andThen_mono hp (fun v r' h => ?_) h
    cases v with
    | leftBranch v => exact Run.andThen_mono hq (fun _ _ h => h) h
    | _ => exact h

end ParserMachine

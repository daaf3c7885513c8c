import ParserMachine.Proofs.Meaning.Tree

/-!
# Where parsers may go

What is known of a parser beforehand is about where it begins, whether it succeeds and where it ends. `Expr.ways`
says what may happen of this on some input, with values, hints and calls left out: a branch may go on or not, and
a call may do anything. Without tables an expression takes these ways only (`Expr.run_takes`).
-/

namespace ParserMachine

variable {τ : Type} [Token τ]

/-- From where, with which verdict and to where a parser may go. -/
abbrev Ways := Nat → Bool → Nat → Prop

namespace Ways

/-- All ways. -/
def any : Ways := fun _ _ _ => True

/-- Ways after which the cursor goes back to where they began. -/
inductive Back (w : Ways) (i : Nat) : Bool → Nat → Prop where
  | intro {ok : Bool} {j : Nat} : w i ok j → Back w i ok i

/-- Ways after which the cursor goes back, with the verdict turned round. -/
inductive Denied (w : Ways) (i : Nat) : Bool → Nat → Prop where
  | done {j : Nat} : w i false j → Denied w i true i
  | failed {j : Nat} : w i true j → Denied w i false i

/-- Ways of which the cursor goes back where they fail. -/
inductive Attempt (w : Ways) (i : Nat) : Bool → Nat → Prop where
  | done {j : Nat} : w i true j → Attempt w i true j
  | back {j : Nat} : w i false j → Attempt w i false i

/-- Ways one after another, until one of them fails or nothing is consumed. -/
inductive Rounds (w : Ways) : Ways where
  | stop {i : Nat} : w i false i → Rounds w i true i
  | broken {i j : Nat} : j ≠ i → w i false j → Rounds w i false j
  | idle {i : Nat} : w i true i → Rounds w i true i
  | next {i j k : Nat} {ok : Bool} : w i true k → Rounds w k ok j → Rounds w i ok j

/-- One way and then another. -/
inductive Seq (w v : Ways) (i : Nat) : Bool → Nat → Prop where
  | broken {j : Nat} : w i false j → Seq w v i false j
  | both {k j : Nat} {ok : Bool} : w i true k → v k ok j → Seq w v i ok j

/-- One way, or another where the first fails in place. -/
inductive Alt (w v : Ways) (i : Nat) : Bool → Nat → Prop where
  | first {j : Nat} : w i true j → Alt w v i true j
  | broken {j : Nat} : j ≠ i → w i false j → Alt w v i false j
  | second {j : Nat} {ok : Bool} : w i false i → v i ok j → Alt w v i ok j

/-- A way, or success in place. -/
inductive OrNothing (w : Ways) (i : Nat) : Bool → Nat → Prop where
  | some {ok : Bool} {j : Nat} : w i ok j → OrNothing w i ok j
  | nothing : OrNothing w i true i

variable {w w' v v' : Ways} {i j : Nat} {ok : Bool}

/-- The second has all ways of the first. -/
def Below (w w' : Ways) : Prop := ∀ i ok j, w i ok j → w' i ok j

theorem Rounds.mono (hw : w.Below w') (h : Rounds w i ok j) : Rounds w' i ok j := by
  induction h with
  | stop h => exact .stop (hw _ _ _ h)
  | broken hne h => exact .broken hne (hw _ _ _ h)
  | idle h => exact .idle (hw _ _ _ h)
  | next h _ ih => exact .next (hw _ _ _ h) ih

theorem Seq.mono (hw : w.Below w') (hv : v.Below v') (h : Seq w v i ok j) : Seq w' v' i ok j := by
  cases h with
  | broken h => exact .broken (hw _ _ _ h)
  | both h h' => exact .both (hw _ _ _ h) (hv _ _ _ h')

theorem Alt.mono (hw : w.Below w') (hv : v.Below v') (h : Alt w v i ok j) : Alt w' v' i ok j := by
  cases h with
  | first h => exact .first (hw _ _ _ h)
  | broken hne h => exact .broken hne (hw _ _ _ h)
  | second h h' => exact .second (hw _ _ _ h) (hv _ _ _ h')

theorem OrNothing.mono (hw : w.Below w') (h : OrNothing w i ok j) : OrNothing w' i ok j := by
  cases h with
  | some h => exact .some (hw _ _ _ h)
  | nothing => exact .nothing

end Ways

/-- The ways of a leaf: those that it takes on some input, whatever calls do. -/
inductive Leaf.Ways (l : Leaf τ) : ParserMachine.Ways where
  | done {input : Array τ} {ofCall : Nat → Run τ} {r r' : Reading τ} {v : Value τ} :
    l.run input ofCall r = some (.done v r') → Leaf.Ways l r.offset true r'.offset
  | failed {input : Array τ} {ofCall : Nat → Run τ} {r r' : Reading τ} {e : ParseError τ} :
    l.run input ofCall r = some (.failed e r') → Leaf.Ways l r.offset false r'.offset

/-- The ways of a unary form, given those of its part. -/
def Unary.ways (w : Ways) : Unary τ → Ways
  | map _ | chunk | matchChunk | label _ => w
  | lookAhead => .Back w
  | notFollowedBy => .Denied w
  | attempt => .Attempt w
  | many => .Rounds w
  | guard _ => .any

/-- The ways of a binary form, given those of its parts. -/
def Binary.ways (w v : Ways) : Binary τ → Ways
  | seq _ => .Seq w v
  | alt => .Alt w v
  | branch _ => .Seq w (.OrNothing v)

/-- The ways of an expression. -/
def Expr.ways : Expr τ → Ways
  | leaf l => l.Ways
  | unary u p => u.ways p.ways
  | binary b p q => b.ways p.ways q.ways

theorem Unary.ways_mono {w w' : Ways} (h : w.Below w') (u : Unary τ) : (u.ways w).Below (u.ways w') := by
  intro i ok j hw
  cases u with
  | map | chunk | matchChunk | label => exact h _ _ _ hw
  | lookAhead =>
    obtain ⟨hw⟩ := hw
    exact .intro (h _ _ _ hw)
  | notFollowedBy =>
    cases hw with
    | done hw => exact .done (h _ _ _ hw)
    | failed hw => exact .failed (h _ _ _ hw)
  | attempt =>
    cases hw with
    | done hw => exact .done (h _ _ _ hw)
    | back hw => exact .back (h _ _ _ hw)
  | many => exact hw.mono h
  | guard => trivial

theorem Binary.ways_mono {w w' v v' : Ways} (hw : w.Below w') (hv : v.Below v') (b : Binary τ) :
    (b.ways w v).Below (b.ways w' v') := by
  intro i ok j h
  cases b with
  | seq => exact h.mono hw hv
  | alt => exact h.mono hw hv
  | branch => exact h.mono hw fun _ _ _ hn => hn.mono hv

/-! ### Runs -/

/-- A parser takes these ways only. -/
structure Run.Takes (p : Run τ) (w : Ways) : Prop where
  /-- Where it succeeds. -/
  done : ∀ r v r', p r = some (.done v r') → w r.offset true r'.offset
  /-- Where it fails. -/
  failed : ∀ r e r', p r = some (.failed e r') → w r.offset false r'.offset

namespace Run

variable {p q : Run τ} {w v : Ways} {r : Reading τ} {reply : Reply τ}
  {onDone : Value τ → Reading τ → Option (Reply τ)} {onFailed : ParseError τ → Reading τ → Option (Reply τ)}

/-- Where the reply of a parser that goes on comes from. -/
theorem handle_eq_some (h : p.handle r onDone onFailed = some reply) :
    (∃ v r', p r = some (.done v r') ∧ onDone v r' = some reply) ∨
      (∃ e r', p r = some (.failed e r') ∧ onFailed e r' = some reply) ∨
      (p r = some .stuck ∧ reply = .stuck) := by
  cases hp : p r with
  | none =>
    rw [handle_of_none hp] at h
    cases h
  | some reply' =>
    cases reply' with
    | done v r' =>
      rw [handle_of_done hp] at h
      exact .inl ⟨v, r', rfl, h⟩
    | failed e r' =>
      rw [handle_of_failed hp] at h
      exact .inr (.inl ⟨e, r', rfl, h⟩)
    | stuck =>
      rw [handle_of_stuck hp] at h
      cases h
      exact .inr (.inr ⟨rfl, rfl⟩)

theorem handle_eq_done {v : Value τ} {r' : Reading τ} (h : p.handle r onDone onFailed = some (.done v r')) :
    (∃ w r₁, p r = some (.done w r₁) ∧ onDone w r₁ = some (.done v r')) ∨
      ∃ e r₁, p r = some (.failed e r₁) ∧ onFailed e r₁ = some (.done v r') := by
  rcases handle_eq_some h with h | h | ⟨-, h⟩
  · exact .inl h
  · exact .inr h
  · cases h

theorem handle_eq_failed {e : ParseError τ} {r' : Reading τ}
    (h : p.handle r onDone onFailed = some (.failed e r')) :
    (∃ w r₁, p r = some (.done w r₁) ∧ onDone w r₁ = some (.failed e r')) ∨
      ∃ e₁ r₁, p r = some (.failed e₁ r₁) ∧ onFailed e₁ r₁ = some (.failed e r') := by
  rcases handle_eq_some h with h | h | ⟨-, h⟩
  · exact .inl h
  · exact .inr h
  · cases h

theorem andThen_eq_done {v : Value τ} {r' : Reading τ} (h : p.andThen r onDone = some (.done v r')) :
    ∃ w r₁, p r = some (.done w r₁) ∧ onDone w r₁ = some (.done v r') := by
  rcases handle_eq_done h with h | ⟨_, _, -, h⟩
  · exact h
  · cases h

theorem andThen_eq_failed {e : ParseError τ} {r' : Reading τ}
    (h : p.andThen r onDone = some (.failed e r')) :
    (∃ w r₁, p r = some (.done w r₁) ∧ onDone w r₁ = some (.failed e r')) ∨
      p r = some (.failed e r') := by
  rcases handle_eq_failed h with h | ⟨_, _, hp, h⟩
  · exact .inl h
  · cases h
    exact .inr hp

/-- What only makes another value takes the ways of its part. -/
theorem takes_value (hp : p.Takes w) (value : Reading τ → Value τ → Reading τ → Value τ) :
    Takes (fun r => p.andThen r fun v r' => some (.done (value r v r') r')) w := by
  constructor
  · intro r v r' h
    obtain ⟨u, r₁, hpr, h⟩ := andThen_eq_done h
    cases h
    exact hp.done r u _ hpr
  · intro r e r' h
    rcases andThen_eq_failed h with ⟨_, _, -, h⟩ | h
    · cases h
    · exact hp.failed r e r' h

/-- One parser after another, which may depend on the value of the first. -/
theorem takes_seq (hp : p.Takes w) {next : Value τ → Run τ} (hnext : ∀ u, (next u).Takes v) :
    Takes (fun r => p.andThen r next) (.Seq w v) := by
  constructor
  · intro r u r' h
    obtain ⟨u₁, r₁, hpr, h⟩ := andThen_eq_done h
    exact .both (hp.done r u₁ r₁ hpr) ((hnext u₁).done r₁ u r' h)
  · intro r e r' h
    rcases andThen_eq_failed h with ⟨u₁, r₁, hpr, h⟩ | h
    · exact .both (hp.done r u₁ r₁ hpr) ((hnext u₁).failed r₁ e r' h)
    · exact .broken (hp.failed r e r' h)

theorem takes_orElse (hp : p.Takes w) (hq : q.Takes v) : (p.orElse q).Takes (.Alt w v) := by
  -- the second parser begins where the first failed in place
  have hsecond (r : Reading τ) (e : ParseError τ) (r₁ : Reading τ) (hpr : p r = some (.failed e r₁))
      (hplace : r₁.offset = r.offset) : w r.offset false r.offset := by
    have hw := hp.failed r e r₁ hpr
    rwa [hplace] at hw
  constructor
  · intro r u r' h
    rcases handle_eq_done h with ⟨u₁, r₁, hpr, h⟩ | ⟨e₁, r₁, hpr, h⟩
    · cases h
      exact .first (hp.done r u _ hpr)
    · split at h
      · rename_i hplace
        have hv := hq.done _ u r' h
        rw [Reading.hint_offset, hplace] at hv
        exact .second (hsecond r e₁ r₁ hpr hplace) hv
      · cases h
  · intro r e r' h
    rcases handle_eq_failed h with ⟨u₁, r₁, -, h⟩ | ⟨e₁, r₁, hpr, h⟩
    · cases h
    · split at h
      · rename_i hplace
        have hv := hq.failed _ e r' h
        rw [Reading.hint_offset, hplace] at hv
        exact .second (hsecond r e₁ r₁ hpr hplace) hv
      · rename_i hmoved
        cases h
        exact .broken hmoved (hp.failed r e _ hpr)

theorem takes_collect (hp : p.Takes w) (rounds : Nat) (items : Array (Value τ)) :
    (p.collect rounds items).Takes (.Rounds w) := by
  induction rounds generalizing items with
  | zero => exact ⟨fun _ _ _ h => (nomatch h), fun _ _ _ h => (nomatch h)⟩
  | succ rounds ih =>
    constructor
    · intro r u r' h
      rcases handle_eq_done h with ⟨u₁, r₁, hpr, h⟩ | ⟨e₁, r₁, hpr, h⟩
      · have hw := hp.done r u₁ r₁ hpr
        split at h
        · rename_i hplace
          cases h
          rw [← hplace] at hw ⊢
          exact .idle hw
        · exact .next hw ((ih _).done r₁ u r' h)
      · have hw := hp.failed r e₁ r₁ hpr
        split at h
        · rename_i hplace
          cases h
          rw [Reading.hint_offset, hplace]
          rw [hplace] at hw
          exact .stop hw
        · cases h
    · intro r e r' h
      rcases handle_eq_failed h with ⟨u₁, r₁, hpr, h⟩ | ⟨e₁, r₁, hpr, h⟩
      · split at h
        · cases h
        · exact .next (hp.done r u₁ r₁ hpr) ((ih _).failed r₁ e r' h)
      · split at h
        · cases h
        · rename_i hmoved
          cases h
          exact .broken hmoved (hp.failed r e _ hpr)

end Run

section Forms

variable {p q : Run τ} {w v : Ways}

theorem Unary.run_takes (hp : p.Takes w) (input : Array τ) (rounds : Nat) (u : Unary τ) :
    (u.run input rounds p).Takes (u.ways w) := by
  cases u with
  | many => exact Run.takes_collect hp rounds #[]
  | map g => exact Run.takes_value hp fun _ u _ => g u
  | chunk => exact Run.takes_value hp fun r _ r' => r.span input r'
  | matchChunk => exact Run.takes_value hp fun r u r' => .pair (r.span input r') u
  | guard mode => exact ⟨fun _ _ _ _ => trivial, fun _ _ _ _ => trivial⟩
  | lookAhead =>
    constructor
    · intro r u r' h
      rcases Run.handle_eq_done h with ⟨u₁, r₁, hpr, h⟩ | ⟨_, _, -, h⟩ <;> cases h
      exact .intro (hp.done r u r₁ hpr)
    · intro r e r' h
      rcases Run.handle_eq_failed h with ⟨_, _, -, h⟩ | ⟨e₁, r₁, hpr, h⟩ <;> cases h
      exact .intro (hp.failed r e r₁ hpr)
  | notFollowedBy =>
    constructor
    · intro r u r' h
      rcases Run.handle_eq_done h with ⟨_, _, -, h⟩ | ⟨e₁, r₁, hpr, h⟩ <;> cases h
      exact .done (hp.failed r.bare e₁ r₁ hpr)
    · intro r e r' h
      rcases Run.handle_eq_failed h with ⟨u₁, r₁, hpr, h⟩ | ⟨_, _, -, h⟩ <;> cases h
      exact .failed (hp.done r.bare u₁ r₁ hpr)
  | attempt =>
    constructor
    · intro r u r' h
      rcases Run.handle_eq_done h with ⟨u₁, r₁, hpr, h⟩ | ⟨_, _, -, h⟩ <;> cases h
      exact .done (hp.done r u _ hpr)
    · intro r e r' h
      rcases Run.handle_eq_failed h with ⟨_, _, -, h⟩ | ⟨e₁, r₁, hpr, h⟩ <;> cases h
      exact .back (hp.failed r e r₁ hpr)
  | label name =>
    constructor
    · intro r u r' h
      rcases Run.handle_eq_done h with ⟨u₁, r₁, hpr, h⟩ | ⟨_, _, -, h⟩ <;> cases h
      exact hp.done r.bare u r₁ hpr
    · intro r e r' h
      rcases Run.handle_eq_failed h with ⟨_, _, -, h⟩ | ⟨e₁, r₁, hpr, h⟩ <;> cases h
      exact hp.failed r.bare e₁ r₁ hpr

theorem Binary.run_takes (hp : p.Takes w) (hq : q.Takes v) (b : Binary τ) :
    (b.run p q).Takes (b.ways w v) := by
  cases b with
  | seq kind => exact Run.takes_seq hp fun u => Run.takes_value hq fun _ u' _ => kind.value u u'
  | alt => exact Run.takes_orElse hp hq
  | branch f =>
    apply Run.takes_seq hp
    intro u
    have hsome : q.Takes (.OrNothing v) :=
      ⟨fun r u r' h => .some (hq.done r u r' h), fun r e r' h => .some (hq.failed r e r' h)⟩
    cases u with
    | leftBranch u => exact Run.takes_value hsome fun _ u' _ => f u u'
    | rightBranch u =>
      constructor
      · intro r u' r' h
        cases h
        exact .nothing
      · intro r e r' h
        cases h
    | _ => exact ⟨fun _ _ _ => nofun, fun _ _ _ => nofun⟩

end Forms

/-- Without tables an expression takes its ways only. -/
theorem Expr.run_takes {x : Setting τ} (hx : x.target.options.dispatchTables = false) (p : Expr τ) :
    (p.run x).Takes p.ways := by
  induction p with
  | leaf l =>
    rw [run_leaf]
    exact ⟨fun _ _ _ h => .done h, fun _ _ _ h => .failed h⟩
  | unary u p ih =>
    rw [run_unary]
    exact Unary.run_takes ih x.input x.rounds u
  | binary b p q ihp ihq =>
    rw [run_binary_of_noTables x hx]
    exact Binary.run_takes ihp ihq b

end ParserMachine

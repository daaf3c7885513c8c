import ParserMachine.Proofs.Compiling.Forms
import ParserMachine.Proofs.Recognition.Facts
import ParserMachine.Proofs.Reports.Merging

/-!
# The course of a parse

Where no form inspects its part (`Unary.Inspects`) a parse has a simple course (`Run.Regular`). The cursor does
not go back behind the place where a parser began, and errors do not lie behind the cursor. What a parser does
does not depend on the hints that it was begun with: they are merged with its own.
-/

namespace ParserMachine

variable {τ : Type} [Token τ]

open ParseError

/-- Whether the form gives input back that its part has read with success, or takes its part's error in
hand. -/
def Unary.Inspects : Unary τ → Prop
  | lookAhead | notFollowedBy | guard _ => True
  | _ => False

theorem Unary.foreign_inspects : Unary.Foreign (Unary.Inspects : Unary τ → Prop) :=
  ⟨fun _ => id, id, fun _ => trivial⟩

/-- The reading with hints from before. -/
def Reading.under (h : Option (ParseError τ)) (r : Reading τ) : Reading τ :=
  { r with hints := mergeOpt h r.hints }

namespace Reply

/-- The reply with hints from before. -/
def under (h : Option (ParseError τ)) : Reply τ → Reply τ
  | done v r => done v (r.under h)
  | failed e r => failed e (r.under h)
  | stuck => stuck

/-- The cursor has not gone back behind the place, and an error does not lie behind the cursor. -/
def From (i : Nat) : Reply τ → Prop
  | done _ r => i ≤ r.offset
  | failed e r => i ≤ r.offset ∧ r.offset ≤ e.offset
  | stuck => True

end Reply

/-- The parser goes ahead only, and keeps the hints that it was begun with. -/
structure Run.Regular (p : Run τ) : Prop where
  /-- It goes ahead. -/
  forward : ∀ r reply, p r = some reply → reply.From r.offset
  /-- Hints are kept. -/
  keeps : ∀ h r, p (r.under h) = (p r).map (Reply.under h)

namespace Reading

variable {h : Option (ParseError τ)} {r r' : Reading τ}

theorem hint_under (e : ParseError τ) : (r.under h).hint e = (r.hint e).under h := by
  unfold hint under
  rw [mergeOpt_assoc]

theorem rejoin_under (inside : Option (ParseError τ)) :
    (r.under h).rejoin r' inside = (r.rejoin r' inside).under h := by
  unfold rejoin under
  rw [mergeOpt_assoc]

theorem under_bare (r : Reading τ) : r.bare.under r.hints = r := by
  unfold bare under
  rw [mergeOpt_none]

end Reading

namespace Run

variable {p q : Run τ} {r : Reading τ} {reply : Reply τ}

section Handle

variable {onDone onDone' : Value τ → Reading τ → Option (Reply τ)}
  {onFailed onFailed' : ParseError τ → Reading τ → Option (Reply τ)}

theorem Regular.handle_under {h : Option (ParseError τ)} (hp : p.Regular)
    (hd : ∀ v r', onDone' v (r'.under h) = (onDone v r').map (Reply.under h))
    (hf : ∀ e r', onFailed' e (r'.under h) = (onFailed e r').map (Reply.under h)) :
    p.handle (r.under h) onDone' onFailed' = (p.handle r onDone onFailed).map (Reply.under h) := by
  unfold handle
  rw [hp.keeps]
  cases p r with
  | none => rfl
  | some reply =>
    cases reply with
    | done v r' => exact hd v r'
    | failed e r' => exact hf e r'
    | stuck => rfl

theorem Regular.from_of_handle (hp : p.Regular) (h : p.handle r onDone onFailed = some reply) {i : Nat}
    (hd : ∀ v r', r.offset ≤ r'.offset → onDone v r' = some reply → reply.From i)
    (hf : ∀ e r', r.offset ≤ r'.offset → r'.offset ≤ e.offset → onFailed e r' = some reply → reply.From i) :
    reply.From i := by
  rcases handle_eq_some h with ⟨v, r', hr, h⟩ | ⟨e, r', hr, h⟩ | ⟨-, rfl⟩
  · exact hd v r' (hp.forward r _ hr) h
  · exact hf e r' (hp.forward r _ hr).1 (hp.forward r _ hr).2 h
  · trivial

end Handle

theorem regular_never : Regular (never : Run τ) := ⟨fun _ _ hreply => (nomatch hreply), fun _ _ => rfl⟩

/-- A parser after which another is begun, which may depend on the value and on where the first began. -/
theorem Regular.andThen (hp : p.Regular) {k : Reading τ → Value τ → Run τ}
    (hforward : ∀ r v r' reply, r.offset ≤ r'.offset → k r v r' = some reply → reply.From r.offset)
    (hkeeps : ∀ h r v r', k (r.under h) v (r'.under h) = (k r v r').map (Reply.under h)) :
    Regular fun r => p.andThen r (k r) :=
  ⟨fun r reply h => hp.from_of_handle h (fun v r' hr h => hforward r v r' reply hr h)
      fun e r' hr he h => by
        cases h
        exact ⟨hr, he⟩,
    fun h r => hp.handle_under (hkeeps h r) fun _ _ => rfl⟩

/-- A parser whose value is changed. -/
theorem Regular.value (hp : p.Regular) {f : Reading τ → Value τ → Reading τ → Value τ}
    (hf : ∀ h r v r', f (r.under h) v (r'.under h) = f r v r') :
    Regular fun r => p.andThen r fun v r' => some (.done (f r v r') r') := by
  refine hp.andThen (fun r v r' reply hr h => ?_) fun h r v r' => ?_
  · cases h
    exact hr
  · rw [hf]
    rfl

theorem Regular.orElse (hp : p.Regular) (hq : q.Regular) : (p.orElse q).Regular := by
  refine ⟨fun r reply h => ?_, fun h r => ?_⟩
  · refine hp.from_of_handle h (fun v r' hr h => ?_) fun e r' hr he h => ?_
    · cases h
      exact hr
    · split at h
      · rename_i hplace
        exact hplace ▸ hq.forward (r'.hint e) reply h
      · cases h
        exact ⟨hr, he⟩
  · refine hp.handle_under (fun _ _ => rfl) fun e r' => ?_
    show (if r'.offset = r.offset then q ((r'.under h).hint e) else _) = _
    split
    · rw [Reading.hint_under, hq.keeps]
    · rfl

theorem Regular.collect (hp : p.Regular) (rounds : Nat) (items : Array (Value τ)) :
    (p.collect rounds items).Regular := by
  induction rounds generalizing items with
  | zero => exact regular_never
  | succ rounds ih =>
    refine ⟨fun r reply h => ?_, fun h r => ?_⟩
    · refine hp.from_of_handle h (fun v r' hr h => ?_) fun e r' hr he h => ?_
      · split at h
        · cases h
          exact hr
        · have hrest := (ih _).forward r' reply h
          cases reply with
          | done v s => exact Nat.le_trans hr hrest
          | failed e s => exact ⟨Nat.le_trans hr hrest.1, hrest.2⟩
          | stuck => trivial
      · split at h <;> cases h
        · exact hr
        · exact ⟨hr, he⟩
    · refine hp.handle_under (fun v r' => ?_) fun e r' => ?_
      · show (if r.offset = r'.offset then _ else p.collect rounds (items.push v) (r'.under h)) = _
        split
        · rfl
        · exact (ih _).keeps h r'
      · show (if r'.offset = r.offset then some (Reply.done _ ((r'.under h).hint e)) else _) = _
        split
        · rw [Reading.hint_under]
          rfl
        · rfl

end Run

/-! ### Forms -/

section Forms

variable {p q : Run τ} {input : Array τ}

theorem Leaf.regular_run {ofCall : Nat → Run τ} (hcall : ∀ l, (ofCall l).Regular) (l : Leaf τ) :
    (l.run input ofCall).Regular := by
  have hone (accept : τ → Bool) (e : ExpectedSet τ) : (Run.one input accept e).Regular := by
    refine ⟨fun r reply h => ?_, fun h r => ?_⟩
    · unfold Run.one at h
      split at h
      · split at h <;> cases h
        · exact Nat.le_succ _
        · exact ⟨Nat.le_refl _, Nat.le_refl _⟩
      · cases h
        exact ⟨Nat.le_refl _, Nat.le_refl _⟩
    · unfold Run.one
      rw [show (r.under h).current? input = r.current? input from rfl]
      split
      · split <;> rfl
      · rfl
  cases l with
  | pure v => exact ⟨fun r reply h => (by cases h; exact Nat.le_refl _), fun _ _ => rfl⟩
  | fail f =>
    refine ⟨fun r reply h => ?_, fun _ _ => rfl⟩
    cases h
    refine ⟨Nat.le_refl _, Nat.le_of_eq ?_⟩
    cases f <;> rfl
  | empty => exact ⟨fun r reply h => (by cases h; exact ⟨Nat.le_refl _, Nat.le_refl _⟩), fun _ _ => rfl⟩
  | satisfy test e => exact hone _ _
  | single t e => exact hone _ _
  | literal ts v e =>
    refine ⟨fun r reply h => ?_, fun h r => ?_⟩
    · have hliteral : Run.literal input ts v e r = some reply := h
      unfold Run.literal at hliteral
      dsimp only at hliteral
      split at hliteral <;> cases hliteral
      · exact Nat.le_add_right _ _
      · exact ⟨Nat.le_add_right _ _, Nat.le_refl _⟩
    · show Run.literal input ts v e (r.under h) = (Run.literal input ts v e r).map _
      unfold Run.literal
      dsimp only
      rw [show (r.under h).offset = r.offset from rfl]
      split <;> rfl
  | eof =>
    refine ⟨fun r reply h => ?_, fun h r => ?_⟩
    · have heof : Run.endOfInput input r = some reply := h
      unfold Run.endOfInput at heof
      split at heof <;> cases heof
      · exact ⟨Nat.le_refl _, Nat.le_refl _⟩
      · exact Nat.le_refl _
    · show Run.endOfInput input (r.under h) = (Run.endOfInput input r).map _
      unfold Run.endOfInput
      rw [show (r.under h).current? input = r.current? input from rfl]
      split <;> rfl
  | call l => exact hcall l

theorem Unary.regular_run (hp : p.Regular) (rounds : Nat) {u : Unary τ} (hu : ¬ u.Inspects) :
    (u.run input rounds p).Regular := by
  cases u with
  | many => exact hp.collect rounds #[]
  | map f => exact hp.value (f := fun _ v _ => f v) fun _ _ _ _ => rfl
  | chunk => exact hp.value (f := fun r _ r' => r.span input r') fun _ _ _ _ => rfl
  | matchChunk => exact hp.value (f := fun r v r' => .pair (r.span input r') v) fun _ _ _ _ => rfl
  | attempt =>
    refine ⟨fun r reply h => ?_, fun h r => hp.handle_under (fun _ _ => rfl) fun _ _ => rfl⟩
    refine hp.from_of_handle h (fun v r' hr h => ?_) fun e r' hr he h => ?_
    · cases h
      exact hr
    · cases h
      exact ⟨Nat.le_refl _, Nat.le_trans hr he⟩
  | label name =>
    refine ⟨fun r reply h => ?_, fun h r => ?_⟩
    · refine hp.from_of_handle h (fun v r' hr h => ?_) fun e r' hr he h => ?_
      · cases h
        exact hr
      · cases h
        refine ⟨hr, ?_⟩
        split
        · cases e <;> exact he
        · exact he
    · show p.handle r.bare _ _ = (p.handle r.bare _ _).map _
      unfold Run.handle
      cases p r.bare with
      | none => rfl
      | some reply =>
        cases reply with
        | done v r' => exact congrArg (fun r => some (Reply.done v r)) (Reading.rejoin_under _)
        | failed e r' => exact congrArg (fun r => some (Reply.failed _ r)) (Reading.rejoin_under _)
        | stuck => rfl
  | lookAhead | notFollowedBy | guard => exact absurd trivial hu

theorem Binary.regular_run (hp : p.Regular) (hq : q.Regular) (b : Binary τ) : (b.run p q).Regular := by
  have hthen (value : Value τ → Value τ) (r r' : Reading τ) (reply : Reply τ) (hr : r.offset ≤ r'.offset)
      (h : (q.andThen r' fun w r'' => some (.done (value w) r'')) = some reply) : reply.From r.offset := by
    refine hq.from_of_handle h (fun w r'' hr' h => ?_) fun e r'' hr' he h => ?_
    · cases h
      exact Nat.le_trans hr hr'
    · cases h
      exact ⟨Nat.le_trans hr hr', he⟩
  have hunder (value : Value τ → Value τ) (h : Option (ParseError τ)) (r : Reading τ) :
      (q.andThen (r.under h) fun w r' => some (.done (value w) r')) =
        (q.andThen r fun w r' => some (.done (value w) r')).map (Reply.under h) :=
    hq.handle_under (fun _ _ => rfl) fun _ _ => rfl
  cases b with
  | seq kind =>
    exact hp.andThen (k := fun _ v r' => q.andThen r' fun w r'' => some (.done (kind.value v w) r''))
      (fun r v r' reply => hthen (kind.value v) r r' reply) fun h _ v r' => hunder (kind.value v) h r'
  | alt => exact hp.orElse hq
  | branch f =>
    refine hp.andThen (fun r v r' reply hr h => ?_) fun h r v r' => ?_
    · cases v with
      | leftBranch v => exact hthen (f v) r r' reply hr h
      | rightBranch v =>
        cases h
        exact hr
      | _ =>
        cases h
        trivial
    · cases v with
      | leftBranch v => exact hunder (f v) h r'
      | _ => rfl

end Forms

/-! ### Trees without tables -/

theorem Expr.regular_run {x : Setting τ} (hx : x.target.options.dispatchTables = false)
    (hcall : ∀ l, (x.ofCall l).Regular) {p : Expr τ} (hp : p.Without Unary.Inspects) :
    (p.run x).Regular := by
  induction p with
  | leaf l =>
    rw [run_leaf]
    exact Leaf.regular_run hcall l
  | unary u p ih =>
    rw [run_unary]
    exact Unary.regular_run (ih hp.2) x.rounds hp.1
  | binary b p q ihp ihq =>
    rw [run_binary_of_noTables x hx]
    exact Binary.regular_run (ihp hp.1) (ihq hp.2) b

end ParserMachine

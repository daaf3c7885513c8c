import ParserMachine.Proofs.Binding.References
import ParserMachine.Proofs.Generation.Whole
import ParserMachine.Proofs.Meaning.Graph

/-!
# Errors that are made anew

How often errors were made anew matters only to forms that do so: a parser that reaches none of them replies the same
whatever the count is, and leaves it as it was (`Grammar.evalAt_steady`).
-/

namespace ParserMachine

variable {τ : Type} [Token τ] {g : Grammar τ} {input : Array τ} {p : NodeId} {k : Nat} {r : Reading τ}
  {reply : Reply τ}

/-- The reading after so many renewals. -/
def Reading.renewed (k : Nat) (r : Reading τ) : Reading τ := { r with renewals := k }

/-- The reply after so many renewals. -/
def Reply.renewed (k : Nat) : Reply τ → Reply τ
  | done v r => done v (r.renewed k)
  | failed e r => failed e (r.renewed k)
  | stuck => stuck

@[simp] theorem Reply.outcome_renewed (k : Nat) (reply : Reply τ) (input : List τ) :
    (reply.renewed k).outcome input = reply.outcome input := by
  cases reply <;> rfl

namespace Run

/-- The parser replies the same whatever the count of renewals is, and leaves it as it was. -/
def Steady (p : Run τ) : Prop := ∀ k r, p (r.renewed k) = (p r).map (Reply.renewed k)

variable {first second : Run τ}

theorem steady_never : (never : Run τ).Steady := fun _ _ => rfl

theorem Steady.handle (h : first.Steady) {onDone onDone' : Value τ → Reading τ → Option (Reply τ)}
    {onFailed onFailed' : ParseError τ → Reading τ → Option (Reply τ)}
    (hd : ∀ v r', onDone' v (r'.renewed k) = (onDone v r').map (Reply.renewed k))
    (hf : ∀ e r', onFailed' e (r'.renewed k) = (onFailed e r').map (Reply.renewed k)) :
    first.handle (r.renewed k) onDone' onFailed' = (first.handle r onDone onFailed).map (Reply.renewed k) := by
  unfold Run.handle
  rw [h k r]
  cases first r with
  | none => rfl
  | some reply =>
    cases reply with
    | done v r' => exact hd v r'
    | failed e r' => exact hf e r'
    | stuck => rfl

theorem Steady.andThen (h : first.Steady) {onDone onDone' : Value τ → Reading τ → Option (Reply τ)}
    (hd : ∀ v r', onDone' v (r'.renewed k) = (onDone v r').map (Reply.renewed k)) :
    first.andThen (r.renewed k) onDone' = (first.andThen r onDone).map (Reply.renewed k) :=
  h.handle hd fun _ _ => rfl

theorem Steady.orElse (h : first.Steady) (h' : second.Steady) : (first.orElse second).Steady := by
  intro k r
  refine h.handle (fun _ _ => rfl) fun e r' => ?_
  show (if r'.offset = r.offset then second ((r'.hint e).renewed k) else _) = _
  split
  · exact h' k _
  · rfl

theorem Steady.collect (h : first.Steady) (rounds : Nat) (items : Array (Value τ)) :
    (first.collect rounds items).Steady := by
  induction rounds generalizing items with
  | zero => exact fun _ _ => rfl
  | succ rounds ih =>
    intro k r
    refine h.handle (fun v r' => ?_) fun e r' => ?_
    · show (if r.offset = r'.offset then _ else first.collect rounds (items.push v) (r'.renewed k)) = _
      split
      · rfl
      · exact ih _ k r'
    · show (if r'.offset = r.offset then _ else _) = _
      split <;> rfl

end Run

theorem Leaf.run_steady (l : Leaf τ) : (l.run input fun _ => .never).Steady := by
  have hone (accept : τ → Bool) (expected : ExpectedSet τ) : (Run.one input accept expected).Steady := by
    intro k r
    have hcurrent : (r.renewed k).current? input = r.current? input := rfl
    unfold Run.one
    rw [hcurrent]
    cases r.current? input with
    | some t => dsimp only; split <;> rfl
    | none => rfl
  intro k r
  cases l with
  | satisfy test e => exact hone _ _ k r
  | single t e => exact hone _ _ k r
  | literal ts v e =>
    show (if matchLength input r.offset ts = ts.length then _ else _) =
      Option.map _ (if matchLength input r.offset ts = ts.length then _ else _)
    split <;> rfl
  | eof =>
    have hcurrent : (r.renewed k).current? input = r.current? input := rfl
    unfold Leaf.run Run.endOfInput
    dsimp only
    rw [hcurrent]
    cases r.current? input <;> rfl
  | _ => rfl

theorem Unary.run_steady {first : Run τ} (h : first.Steady) {u : Unary τ} (hu : ∀ other, u ≠ .guard (.merge other))
    (rounds : Nat) : (u.run input rounds first).Steady := by
  intro k r
  cases u with
  | map | chunk | matchChunk => exact h.andThen fun _ _ => rfl
  | lookAhead | attempt => exact h.handle (fun _ _ => rfl) fun _ _ => rfl
  | notFollowedBy | label => exact h.handle (r := r.bare) (fun _ _ => rfl) fun _ _ => rfl
  | many => exact h.collect rounds #[] k r
  | guard mode =>
    cases mode with
    | merge other => exact absurd rfl (hu other)
    | _ => exact h.handle (r := r.bare) (fun _ _ => rfl) fun _ _ => rfl

theorem Binary.run_steady {first second : Run τ} (h : first.Steady) (h' : second.Steady) (b : Binary τ) :
    (b.run first second).Steady := by
  intro k r
  cases b with
  | alt => exact h.orElse h' k r
  | seq kind => exact h.andThen fun _ _ => h'.andThen fun _ _ => rfl
  | branch f =>
    refine h.andThen fun v r' => ?_
    cases v with
    | leftBranch v => exact h'.andThen fun _ _ => rfl
    | _ => rfl

namespace Grammar

/-- The node reaches a form that makes errors anew. -/
def Renews (g : Grammar τ) (p : NodeId) : Prop :=
  ∃ q other k, g.Reaches p q ∧ g.node q = .unary (.guard (.merge other)) k

/-- A node that reaches no form that makes errors anew does not depend on how often that was done. -/
theorem evalAt_steady (h : ¬ g.Renews p) (depth : Nat) : (g.evalAt input depth p).Steady := by
  induction depth generalizing p with
  | zero => exact Run.steady_never
  | succ depth ih =>
    have hpart {k : NodeId} (hk : k ∈ g.children p) : (g.evalAt input depth k).Steady :=
      ih fun ⟨q, other, l, hq, hnode⟩ => h ⟨q, other, l, (Reaches.refl.part hk).trans hq, hnode⟩
    unfold children at hpart
    unfold evalAt
    cases hnode : g.node p with
    | leaf l => exact l.run_steady
    | unary u k =>
      rw [hnode] at hpart
      exact Unary.run_steady (hpart (List.mem_cons_self ..))
        (fun other hu => h ⟨p, other, k, .refl, hu ▸ hnode⟩) _
    | binary b k l =>
      rw [hnode] at hpart
      exact Binary.run_steady (hpart (List.mem_cons_self ..))
        (hpart (List.mem_cons_of_mem _ (List.mem_cons_self ..))) b
    | lazy c =>
      dsimp only
      split
      · rename_i q hq
        exact ih fun ⟨x, other, l, hx, hnode'⟩ => h ⟨x, other, l, (Reaches.refl.target hnode hq).trans hx, hnode'⟩
      · exact Run.steady_never

theorem Evaluates.renewed (h : g.Evaluates input p r reply) (hp : ¬ g.Renews p) (k : Nat) :
    g.Evaluates input p (r.renewed k) (reply.renewed k) := by
  obtain ⟨depth, h⟩ := h
  refine ⟨depth, ?_⟩
  rw [evalAt_steady hp depth k r, h]
  rfl

/-- The count stays as it was. -/
theorem Evaluates.renewed_eq (h : g.Evaluates input p r reply) (hp : ¬ g.Renews p) :
    reply.renewed r.renewals = reply := (h.renewed hp r.renewals).unique h

theorem Evaluates.renewals_eq {e : ParseError τ} {r' : Reading τ} (h : g.Evaluates input p r (.failed e r'))
    (hp : ¬ g.Renews p) : r'.renewals = r.renewals :=
  (congrArg Reading.renewals (Reply.failed.inj (h.renewed_eq hp)).2).symm

/-- The outcome to which the node comes on a whole input, after errors were made anew so often. -/
def ComesTo (g : Grammar τ) (p : NodeId) (renewals : Nat) (input : List τ) (a : Outcome τ) : Prop :=
  ∃ reply, g.Evaluates input.toArray p ⟨0, none, renewals⟩ reply ∧ reply.outcome input = a

/-- A node that reaches no form that makes errors anew comes to the same outcomes after any number of renewals. -/
theorem comesTo_iff_of_not_renews (h : ¬ g.Renews p) {input : List τ} {a : Outcome τ} :
    g.ComesTo p k input a ↔ g.ComesTo p 0 input a := by
  constructor
  · rintro ⟨reply, heval, rfl⟩
    exact ⟨_, heval.renewed h 0, Reply.outcome_renewed 0 reply input⟩
  · rintro ⟨reply, heval, rfl⟩
    exact ⟨_, heval.renewed h k, Reply.outcome_renewed k reply input⟩

end Grammar

end ParserMachine

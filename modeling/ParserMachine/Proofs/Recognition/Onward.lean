import ParserMachine.Proofs.Meaning.Graph
import ParserMachine.Proofs.Recognition.Ways

/-!
# Cursors do not go back

However a node ends, the cursor does not lie before the place where the node was begun (`Grammar.evalAt_onward`): forms
that give input back give back what they have read themselves, and no more.
-/

namespace ParserMachine

variable {τ : Type} [Token τ]

/-- The cursor has not gone back behind the place. -/
def Reply.NotBefore (i : Nat) : Reply τ → Prop
  | done _ r | failed _ r => i ≤ r.offset
  | stuck => True

/-- However the parser ends, the cursor has not gone back behind where it began. -/
def Run.Onward (p : Run τ) : Prop := ∀ r, ∀ reply ∈ p r, reply.NotBefore r.offset

theorem Reply.NotBefore.mono {i j : Nat} {reply : Reply τ} (h : reply.NotBefore j) (hij : i ≤ j) :
    reply.NotBefore i := by
  cases reply with
  | done | failed => exact Nat.le_trans hij h
  | stuck => trivial

namespace Run

variable {p q : Run τ} {r : Reading τ} {i : Nat}

theorem onward_never : (never : Run τ).Onward := fun _ _ hreply => nomatch hreply

theorem notBefore_done {v : Value τ} (h : i ≤ r.offset) : ∀ reply ∈ some (Reply.done v r), reply.NotBefore i := by
  rintro _ ⟨⟩
  exact h

theorem notBefore_failed {e : ParseError τ} (h : i ≤ r.offset) :
    ∀ reply ∈ some (Reply.failed e r), reply.NotBefore i := by
  rintro _ ⟨⟩
  exact h

theorem Onward.handle (hp : p.Onward) {onDone : Value τ → Reading τ → Option (Reply τ)}
    {onFailed : ParseError τ → Reading τ → Option (Reply τ)}
    (hd : ∀ v r', r.offset ≤ r'.offset → ∀ reply ∈ onDone v r', reply.NotBefore i)
    (hf : ∀ e r', r.offset ≤ r'.offset → ∀ reply ∈ onFailed e r', reply.NotBefore i) :
    ∀ reply ∈ p.handle r onDone onFailed, reply.NotBefore i := by
  intro reply hreply
  rcases handle_eq_some hreply with ⟨v, r', hr, h⟩ | ⟨e, r', hr, h⟩ | ⟨-, rfl⟩
  · exact hd v r' (hp r _ hr) reply h
  · exact hf e r' (hp r _ hr) reply h
  · trivial

theorem Onward.andThen (hp : p.Onward) (hi : i ≤ r.offset) {onDone : Value τ → Reading τ → Option (Reply τ)}
    (hd : ∀ v r', i ≤ r'.offset → ∀ reply ∈ onDone v r', reply.NotBefore i) :
    ∀ reply ∈ p.andThen r onDone, reply.NotBefore i :=
  hp.handle (fun v r' hr => hd v r' (Nat.le_trans hi hr)) fun _ _ hr => notBefore_failed (Nat.le_trans hi hr)

theorem Onward.orElse (hp : p.Onward) (hq : q.Onward) : (p.orElse q).Onward := by
  intro r
  refine hp.handle (fun _ _ hr => notBefore_done hr) fun e r' hr => ?_
  split
  · exact fun reply h => (hq _ reply h).mono hr
  · exact notBefore_failed hr

theorem Onward.collect (hp : p.Onward) (rounds : Nat) (items : Array (Value τ)) :
    (p.collect rounds items).Onward := by
  induction rounds generalizing items with
  | zero => exact onward_never
  | succ rounds ih =>
    intro r
    refine hp.handle (fun v r' hr => ?_) fun e r' hr => ?_
    · split
      · exact notBefore_done hr
      · exact fun reply h => (ih _ r' reply h).mono hr
    · split
      · exact notBefore_done hr
      · exact notBefore_failed hr

end Run

open Run

section Forms

variable {p q : Run τ} {input : Array τ}

theorem Leaf.run_onward (l : Leaf τ) : (l.run input fun _ => .never).Onward := by
  have hone (accept : τ → Bool) (e : ExpectedSet τ) : (Run.one input accept e).Onward := by
    intro r
    unfold Run.one
    split
    · split
      · exact notBefore_done (Nat.le_succ _)
      · exact notBefore_failed (Nat.le_refl _)
    · exact notBefore_failed (Nat.le_refl _)
  intro r
  cases l with
  | pure v => exact notBefore_done (Nat.le_refl _)
  | fail | empty => exact notBefore_failed (Nat.le_refl _)
  | satisfy test e => exact hone _ _ r
  | single t e => exact hone _ _ r
  | literal ts v e =>
    unfold Leaf.run Run.literal
    dsimp only
    split
    · exact notBefore_done (Nat.le_add_right _ _)
    · exact notBefore_failed (Nat.le_add_right _ _)
  | eof =>
    unfold Leaf.run Run.endOfInput
    dsimp only
    split
    · exact notBefore_failed (Nat.le_refl _)
    · exact notBefore_done (Nat.le_refl _)
  | call l => exact onward_never r

theorem Unary.run_onward (hp : p.Onward) (rounds : Nat) (u : Unary τ) : (u.run input rounds p).Onward := by
  intro r
  cases u with
  | map | chunk | matchChunk => exact hp.andThen (Nat.le_refl _) fun _ _ => notBefore_done
  | lookAhead =>
    exact hp.handle (fun _ _ _ => notBefore_done (Nat.le_refl _)) fun _ _ _ => notBefore_failed (Nat.le_refl _)
  | notFollowedBy =>
    exact hp.handle (fun _ _ _ => notBefore_failed (Nat.le_refl _)) fun _ _ _ => notBefore_done (Nat.le_refl _)
  | attempt => exact hp.handle (fun _ _ => notBefore_done) fun _ _ _ => notBefore_failed (Nat.le_refl _)
  | many => exact hp.collect rounds #[] r
  | label name =>
    exact hp.handle (r := r.bare) (fun _ _ hr => notBefore_done (r := r.rejoin _ _) hr)
      fun _ _ hr => notBefore_failed (r := r.rejoin _ _) hr
  | guard mode =>
    refine hp.handle (r := r.bare) (fun _ _ hr => notBefore_done (r := r.rejoin _ _) hr) fun e r' hr => ?_
    cases mode with
    | capture => exact notBefore_done (Nat.le_refl _)
    | amend | merge => exact notBefore_failed hr

theorem Binary.run_onward (hp : p.Onward) (hq : q.Onward) (b : Binary τ) : (b.run p q).Onward := by
  intro r
  cases b with
  | seq kind =>
    exact hp.andThen (Nat.le_refl _) fun _ _ hr => hq.andThen hr fun _ _ => notBefore_done
  | alt => exact hp.orElse hq r
  | branch f =>
    refine hp.andThen (Nat.le_refl _) fun v r' hr => ?_
    cases v with
    | leftBranch v => exact hq.andThen hr fun _ _ => notBefore_done
    | rightBranch v => exact notBefore_done hr
    | _ =>
      rintro _ ⟨⟩
      trivial

end Forms

theorem Grammar.evalAt_onward (g : Grammar τ) (input : Array τ) (depth : Nat) (n : NodeId) :
    (g.evalAt input depth n).Onward := by
  induction depth generalizing n with
  | zero => exact onward_never
  | succ depth ih =>
    unfold evalAt
    split
    · exact Leaf.run_onward _
    · exact Unary.run_onward (ih _) _ _
    · exact Binary.run_onward (ih _) (ih _) _
    · split
      · exact ih _
      · exact onward_never

end ParserMachine

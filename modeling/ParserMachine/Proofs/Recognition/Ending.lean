import ParserMachine.Proofs.Recognition.Progress

/-!
# Where replies come

A form comes to a reply wherever its parts do (`Unary.run_replies`, `Binary.run_replies_seq`): a repetition is
repeated only where the cursor has moved on, and it cannot move beyond the input. So a tree replies at a depth at
which all its calls do, and if each subroutine calls only those with smaller labels, such a depth is known
(`Expr.evalAt_replies`).
-/

namespace ParserMachine

variable {τ : Type} [Token τ]

/-- A success does not lie beyond the input. -/
def Reply.Within (input : Array τ) : Reply τ → Prop
  | done _ s => s.offset ≤ input.size
  | _ => True

/-- The parser comes to a reply wherever it begins in the input, and does not leave the input. -/
def Run.Replies (input : Array τ) (p : Run τ) : Prop :=
  ∀ r : Reading τ, r.offset ≤ input.size → ∃ reply, p r = some reply ∧ reply.Within input

namespace Run

variable {input : Array τ} {p q : Run τ} {r : Reading τ}
  {onDone : Value τ → Reading τ → Option (Reply τ)}
  {onFailed : ParseError τ → Reading τ → Option (Reply τ)}

/-- A parser that replies, and what goes on after both kinds of reply. -/
theorem Replies.handle (h : p.Replies input) (hr : r.offset ≤ input.size)
    (hdone : ∀ v s, p r = some (.done v s) → s.offset ≤ input.size →
      ∃ reply, onDone v s = some reply ∧ reply.Within input)
    (hfailed : ∀ e s, ∃ reply, onFailed e s = some reply ∧ reply.Within input) :
    ∃ reply, p.handle r onDone onFailed = some reply ∧ reply.Within input := by
  obtain ⟨reply, hreply, hwithin⟩ := h r hr
  cases reply with
  | done v s =>
    rw [handle_of_done hreply]
    exact hdone v s hreply hwithin
  | failed e s =>
    rw [handle_of_failed hreply]
    exact hfailed e s
  | stuck => exact ⟨.stuck, handle_of_stuck hreply, trivial⟩

theorem Replies.andThen (h : p.Replies input) (hr : r.offset ≤ input.size)
    (hdone : ∀ v s, s.offset ≤ input.size → ∃ reply, onDone v s = some reply ∧ reply.Within input) :
    ∃ reply, p.andThen r onDone = some reply ∧ reply.Within input :=
  h.handle hr (fun v s _ => hdone v s) fun e s => ⟨.failed e s, rfl, trivial⟩

/-- A parser whose value is changed. -/
theorem Replies.value (h : p.Replies input) (value : Reading τ → Value τ → Reading τ → Value τ) :
    Replies input fun r => p.andThen r fun v s => some (.done (value r v s) s) :=
  fun _ hr => h.andThen hr fun _ _ hs => ⟨_, rfl, hs⟩

/-! ### Alternatives -/

theorem Replies.orElse (hp : p.Replies input) (hq : q.Replies input) : (p.orElse q).Replies input := by
  intro r hr
  refine hp.handle hr (fun v s _ hs => ⟨_, rfl, hs⟩) fun e s => ?_
  split
  · rename_i hplace
    exact hq (s.hint e) (Nat.le_trans (Nat.le_of_eq hplace) hr)
  · exact ⟨_, rfl, trivial⟩

theorem replies_inOrder {ps : List (Run τ)} (h : ∀ p ∈ ps, p.Replies input) : (inOrder ps).Replies input := by
  induction ps with
  | nil => exact fun r _ => ⟨_, rfl, trivial⟩
  | cons p ps ih =>
    obtain ⟨hp, hps⟩ := List.forall_mem_cons.1 h
    cases ps with
    | nil => exact hp
    | cons q ps => exact hp.orElse (ih hps)

theorem replies_byTable {table : List (Run τ × Lead τ)} {others : List (Run τ)}
    (htable : ∀ x ∈ table, x.1.Replies input) (hothers : ∀ p ∈ others, p.Replies input) :
    (byTable input table others).Replies input := by
  intro r hr
  have hrest := replies_inOrder hothers
  rcases byTable_cases input table others r with ⟨k, x, t, after, s, hx, -, -, hs, heq⟩ | ⟨-, heq⟩
  · have hplace : s.offset = r.offset := by
      rcases hs with rfl | ⟨_, rfl⟩ <;> rfl
    have hchosen := htable x (List.mem_of_getElem? hx)
    rw [heq]
    unfold chosen
    split
    · exact hchosen s (hplace ▸ hr)
    · refine hchosen.orElse (fun r hr => ?_) s (hplace ▸ hr)
      unfold afterChosen
      split
      · exact ⟨_, rfl, trivial⟩
      · refine hrest _ ?_
        split <;> exact hr
  · rw [heq]
    split
    · exact ⟨_, rfl, trivial⟩
    · exact hrest _ hr

theorem Replies.ofChoices {cs : List (Choice τ)} (h : ∀ c ∈ cs, c.run.Replies input) (tgt : Target τ) :
    (ofChoices tgt input cs).Replies input := by
  refine ofChoices_cases tgt (replies_inOrder (List.forall_mem_map.2 h)) fun table others htable hothers => ?_
  exact replies_byTable (List.forall_mem_map.2 fun x hx => h x.1 (htable x hx))
    (List.forall_mem_map.2 fun c hc => h c (hothers c hc))

/-! ### Repetitions -/

/-- A repetition goes into another round only where the cursor has moved on, so that there are no more rounds
than tokens are left, and one. -/
theorem Replies.collect (h : p.Replies input) (hmoves : p.Advances 0) {rounds : Nat} (items : Array (Value τ))
    (hr : r.offset ≤ input.size) (hrounds : input.size - r.offset < rounds) :
    ∃ reply, p.collect rounds items r = some reply ∧ reply.Within input := by
  induction rounds generalizing items r with
  | zero => exact absurd hrounds (Nat.not_lt_zero _)
  | succ rounds ih =>
    refine h.handle hr (fun v s hdone hs => ?_) fun e s => ?_
    · have hmoved := hmoves r v s hdone
      split
      · exact ⟨_, rfl, hs⟩
      · exact ih _ hs (by omega)
    · split
      · rename_i hplace
        exact ⟨_, rfl, Nat.le_trans (Nat.le_of_eq hplace) hr⟩
      · exact ⟨_, rfl, trivial⟩

end Run

/-! ### Forms -/

section Forms

variable {input : Array τ} {p q : Run τ}

theorem Run.one_replies (accept : τ → Bool) (e : ExpectedSet τ) : (Run.one input accept e).Replies input := by
  intro r hr
  unfold Run.one
  split
  · rename_i t ht
    split
    · exact ⟨_, rfl, (Array.getElem?_eq_some_iff.1 ht).1⟩
    · exact ⟨_, rfl, trivial⟩
  · exact ⟨_, rfl, trivial⟩

theorem Run.literal_replies (ts : List τ) (v : Value τ) (e : ExpectedSet τ) :
    (Run.literal input ts v e).Replies input := by
  intro r hr
  unfold Run.literal
  dsimp only
  split
  · exact ⟨_, rfl, add_matchLength_le_size input ts hr⟩
  · exact ⟨_, rfl, trivial⟩

theorem Leaf.run_replies {ofCall : Nat → Run τ} {l : Leaf τ}
    (hcall : ∀ n b, l = .call n b → (ofCall n).Replies input) : (l.run input ofCall).Replies input := by
  cases l with
  | call n b => exact hcall n b rfl
  | satisfy test e => exact Run.one_replies _ e
  | single t e => exact Run.one_replies _ e
  | literal ts v e => exact Run.literal_replies ts v e
  | pure v => exact fun r hr => ⟨_, rfl, hr⟩
  | fail | empty => exact fun r _ => ⟨_, rfl, trivial⟩
  | eof =>
    intro r hr
    show ∃ reply, Run.endOfInput input r = some reply ∧ _
    unfold Run.endOfInput
    split
    · exact ⟨_, rfl, trivial⟩
    · exact ⟨_, rfl, hr⟩

theorem Unary.run_replies (hp : p.Replies input) (hmoves : p.Advances 0) {rounds : Nat}
    (hrounds : input.size < rounds) (u : Unary τ) : (u.run input rounds p).Replies input := by
  cases u with
  | map f => exact hp.value fun _ v _ => f v
  | chunk => exact hp.value fun r _ s => r.span input s
  | matchChunk => exact hp.value fun r v s => .pair (r.span input s) v
  | many => exact fun r hr => hp.collect hmoves #[] hr (by omega)
  | lookAhead => exact fun r hr => hp.handle hr (fun _ _ _ _ => ⟨_, rfl, hr⟩) fun _ _ => ⟨_, rfl, trivial⟩
  | attempt => exact fun r hr => hp.handle hr (fun _ _ _ hs => ⟨_, rfl, hs⟩) fun _ _ => ⟨_, rfl, trivial⟩
  | notFollowedBy =>
    exact fun r hr => hp.handle (r := r.bare) hr (fun _ _ _ _ => ⟨_, rfl, trivial⟩) fun _ _ => ⟨_, rfl, hr⟩
  | label name =>
    exact fun r hr => hp.handle (r := r.bare) hr (fun _ _ _ hs => ⟨_, rfl, hs⟩) fun _ _ => ⟨_, rfl, trivial⟩
  | guard mode =>
    refine fun r hr => hp.handle (r := r.bare) hr (fun _ _ _ hs => ⟨_, rfl, hs⟩) fun _ _ => ⟨_, rfl, ?_⟩
    cases mode with
    | capture => exact hr
    | amend | merge => trivial

theorem Binary.run_replies_seq (hp : p.Replies input) (hq : q.Replies input) (kind : SeqKind τ) :
    (Binary.run p q (.seq kind)).Replies input :=
  fun _ hr => hp.andThen hr fun v _ hs => hq.value (fun _ w _ => kind.value v w) _ hs

theorem Binary.run_replies_branch (hp : p.Replies input) (hq : q.Replies input)
    (f : Value τ → Value τ → Value τ) : (Binary.run p q (.branch f)).Replies input := by
  refine fun _ hr => hp.andThen hr fun v s hs => ?_
  cases v with
  | leftBranch v => exact hq.value (fun _ w _ => f v w) _ hs
  | rightBranch v => exact ⟨_, rfl, hs⟩
  | _ => exact ⟨.stuck, rfl, trivial⟩

end Forms

/-! ### Expressions -/

namespace Expr

variable {x : Setting τ} {n : Nat}

theorem replies_of_mem_choices (hrounds : x.input.size < x.rounds) (hmoves : ∀ l, (x.ofCall l).Advances 0)
    (hcall : ∀ l < n, (x.ofCall l).Replies x.input) {p : Expr τ} (hp : p.CallsBelow n) :
    ∀ c ∈ p.choices x [], c.run.Replies x.input := by
  have hpart {q : Expr τ} (hq : ∀ c ∈ q.choices x [], c.run.Replies x.input) : (q.run x).Replies x.input :=
    .ofChoices hq x.target
  induction p with
  | leaf l =>
    refine List.forall_mem_singleton.2 (Leaf.run_replies fun l b hl => ?_)
    subst hl
    exact hcall l hp
  | unary u p ih =>
    exact List.forall_mem_singleton.2 (Unary.run_replies (hpart (ih hp)) (run_advances hmoves p) hrounds u)
  | binary b p q ihp ihq =>
    cases b with
    | seq kind =>
      exact List.forall_mem_singleton.2 (Binary.run_replies_seq (hpart (ihp hp.1)) (hpart (ihq hp.2)) kind)
    | branch f =>
      exact List.forall_mem_singleton.2 (Binary.run_replies_branch (hpart (ihp hp.1)) (hpart (ihq hp.2)) f)
    | alt =>
      rw [choices_alt]
      exact List.forall_mem_append.2 ⟨ihp hp.1, ihq hp.2⟩

variable {tgt : Target τ}

/-- Where subroutines call only those with smaller labels, an expression that calls only the first `n` of them
replies at the depth `n + 1`. -/
theorem evalAt_replies
    (hbodies : ∀ (l : Nat) (s : Subroutine τ), tgt.subroutines[l]? = some s → s.body.CallsBelow l) {p : Expr τ}
    (hp : p.CallsBelow n) (hn : n ≤ tgt.subroutines.size) (input : Array τ) {depth : Nat} (hdepth : n ≤ depth) :
    (p.evalAt tgt input (depth + 1)).Replies input := by
  induction depth generalizing n p with
  | zero =>
    obtain rfl := Nat.le_zero.1 hdepth
    have hrounds : input.size < 0 + input.size + 1 := by omega
    exact .ofChoices (replies_of_mem_choices (x := settingAt tgt input 0) hrounds
      (callsAt_advances input 0) (fun l hl => absurd hl (Nat.not_lt_zero l)) hp) tgt
  | succ depth ih =>
    have hrounds : input.size < depth + 1 + input.size + 1 := by omega
    refine .ofChoices (replies_of_mem_choices (x := settingAt tgt input (depth + 1)) hrounds
      (callsAt_advances input _) (fun l hl => ?_) hp) tgt
    have hs := Array.getElem?_eq_getElem (Nat.lt_of_lt_of_le hl hn)
    show (callsAt tgt input (depth + 1) l).Replies input
    rw [callsAt_of_getElem? hs]
    exact ih (hbodies l _ hs) (by omega) (by omega)

end Expr

end ParserMachine

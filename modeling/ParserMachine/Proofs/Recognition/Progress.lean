import ParserMachine.Proofs.Recognition.Leads

/-!
# Leads are consumed

No parser that succeeds has moved the cursor back, and one that has a lead has consumed a token
(`Expr.lead_advances`), whether tables choose or not: a success of alternatives is that of one of them, begun
where they begin (`Run.exists_of_ofChoices_eq_done`).
-/

namespace ParserMachine

variable {τ : Type} [Token τ]

/-- Where it succeeds, the parser has consumed `k` tokens at least. -/
def Run.Advances (k : Nat) (p : Run τ) : Prop := ∀ r v s, p r = some (.done v s) → r.offset + k ≤ s.offset

namespace Run

variable {p q : Run τ} {k m : Nat} {input : Array τ}

theorem never_advances (k : Nat) : (never : Run τ).Advances k := by
  intro r v s h
  cases h

theorem Advances.mono (h : p.Advances k) (hm : m ≤ k) : p.Advances m := by
  intro r v s hdone
  have := h r v s hdone
  omega

theorem Advances.andThen (hp : p.Advances k) {next : Reading τ → Value τ → Reading τ → Option (Reply τ)}
    (hnext : ∀ r v s w s', next r v s = some (.done w s') → s.offset + m ≤ s'.offset) :
    Advances (k + m) fun r => p.andThen r (next r) := by
  intro r v s h
  obtain ⟨w, s', hdone, h⟩ := andThen_eq_done h
  have hfirst := hp r w s' hdone
  have hsecond := hnext r w s' v s h
  omega

/-- A parser whose value is changed. -/
theorem Advances.value (hp : p.Advances k) (value : Reading τ → Value τ → Reading τ → Value τ) :
    Advances k fun r => p.andThen r fun v s => some (.done (value r v s) s) := by
  apply hp.andThen (m := 0)
  intro r v s w s' h
  cases h
  exact Nat.le_refl _

theorem Advances.attempt (hp : p.Advances k) (input : Array τ) (rounds : Nat) :
    (Unary.attempt.run input rounds p).Advances k := by
  intro r v s h
  rcases handle_eq_done h with ⟨w, s', hdone, h⟩ | ⟨_, _, -, h⟩ <;> cases h
  exact hp r v _ hdone

theorem Advances.label (hp : p.Advances k) (input : Array τ) (name : Option String) (rounds : Nat) :
    ((Unary.label name).run input rounds p).Advances k := by
  intro r v s h
  rcases handle_eq_done h with ⟨w, s', hdone, h⟩ | ⟨_, _, -, h⟩ <;> cases h
  exact hp r.bare v s' hdone

theorem Advances.collect (hp : p.Advances 0) (rounds : Nat) (items : Array (Value τ)) :
    (p.collect rounds items).Advances 0 := by
  induction rounds generalizing items with
  | zero => exact never_advances 0
  | succ rounds ih =>
    intro r v s h
    rcases handle_eq_done h with ⟨w, s', hdone, h⟩ | ⟨e, s', -, h⟩
    · have hfirst := hp r w s' hdone
      split at h
      · cases h
        exact hfirst
      · exact Nat.le_trans hfirst (ih _ s' v s h)
    · split at h
      · rename_i hplace
        cases h
        exact Nat.le_of_eq hplace.symm
      · cases h

/-! ### Alternatives -/

/-- A success of two alternatives is that of one of them. -/
theorem exists_of_orElse_eq_done {r s : Reading τ} {v : Value τ} (h : p.orElse q r = some (.done v s)) :
    p r = some (.done v s) ∨ ∃ r' : Reading τ, r'.offset = r.offset ∧ q r' = some (.done v s) := by
  rcases handle_eq_done h with ⟨w, s', hdone, h⟩ | ⟨e, s', -, h⟩
  · cases h
    exact .inl hdone
  · split at h
    · rename_i hplace
      exact .inr ⟨s'.hint e, hplace, h⟩
    · cases h

theorem exists_of_inOrder_eq_done {ps : List (Run τ)} {r s : Reading τ} {v : Value τ}
    (h : inOrder ps r = some (.done v s)) :
    ∃ p ∈ ps, ∃ r' : Reading τ, r'.offset = r.offset ∧ p r' = some (.done v s) := by
  induction ps generalizing r with
  | nil => cases h
  | cons p ps ih =>
    cases ps with
    | nil => exact ⟨p, List.mem_cons_self .., r, rfl, h⟩
    | cons q ps =>
      rcases exists_of_orElse_eq_done h with h | ⟨r', hr', h⟩
      · exact ⟨p, List.mem_cons_self .., r, rfl, h⟩
      · obtain ⟨p', hp', r'', hr'', h⟩ := ih h
        exact ⟨p', List.mem_cons_of_mem _ hp', r'', hr''.trans hr', h⟩

/-- A success of a table is that of the alternative that it chose, or of one that it leaves out. -/
theorem exists_of_byTable_eq_done {table : List (Run τ × Lead τ)} {others : List (Run τ)} {r s : Reading τ}
    {v : Value τ} (h : byTable input table others r = some (.done v s)) :
    ∃ p ∈ table.map Prod.fst ++ others, ∃ r' : Reading τ, r'.offset = r.offset ∧ p r' = some (.done v s) := by
  have hothers {r' : Reading τ} (hr' : r'.offset = r.offset) (h : inOrder others r' = some (.done v s)) :
      ∃ p ∈ table.map Prod.fst ++ others, ∃ r' : Reading τ, r'.offset = r.offset ∧ p r' = some (.done v s) := by
    obtain ⟨p, hp, r'', hr'', h⟩ := exists_of_inOrder_eq_done h
    exact ⟨p, List.mem_append_right _ hp, r'', hr''.trans hr', h⟩
  rcases byTable_cases input table others r with ⟨k, x, t, after, r₁, hx, -, -, hr₁, heq⟩ | ⟨-, heq⟩
  · have hplace : r₁.offset = r.offset := by
      rcases hr₁ with rfl | ⟨_, rfl⟩ <;> rfl
    have hmem : x.1 ∈ table.map Prod.fst ++ others :=
      List.mem_append_left _ (List.mem_map_of_mem (List.mem_of_getElem? hx))
    rw [heq] at h
    unfold chosen at h
    split at h
    · exact ⟨x.1, hmem, r₁, hplace, h⟩
    · rcases exists_of_orElse_eq_done h with h | ⟨r₂, hr₂, h⟩
      · exact ⟨x.1, hmem, r₁, hplace, h⟩
      · unfold afterChosen at h
        split at h
        · cases h
        · refine hothers ?_ h
          split <;> exact hr₂.trans hplace
  · rw [heq] at h
    split at h
    · cases h
    · exact hothers (Reading.hint_offset _ r) h

/-- A success of alternatives is that of one of them, begun where they begin. -/
theorem exists_of_ofChoices_eq_done {tgt : Target τ} {cs : List (Choice τ)} {r s : Reading τ} {v : Value τ}
    (h : ofChoices tgt input cs r = some (.done v s)) :
    ∃ c ∈ cs, ∃ r' : Reading τ, r'.offset = r.offset ∧ c.run r' = some (.done v s) := by
  refine ofChoices_cases tgt (P := fun p => p r = some (.done v s) →
    ∃ c ∈ cs, ∃ r' : Reading τ, r'.offset = r.offset ∧ c.run r' = some (.done v s)) (fun h => ?_)
    (fun table others htable hothers h => ?_) h
  · obtain ⟨p, hp, hdone⟩ := exists_of_inOrder_eq_done h
    obtain ⟨c, hc, rfl⟩ := List.mem_map.1 hp
    exact ⟨c, hc, hdone⟩
  · obtain ⟨p, hp, hdone⟩ := exists_of_byTable_eq_done h
    rw [List.map_map, List.mem_append, List.mem_map, List.mem_map] at hp
    rcases hp with ⟨x, hx, rfl⟩ | ⟨c, hc, rfl⟩
    · exact ⟨x.1, htable x hx, hdone⟩
    · exact ⟨c, hothers c hc, hdone⟩

theorem Advances.ofChoices {cs : List (Choice τ)} (h : ∀ c ∈ cs, c.run.Advances k) (tgt : Target τ)
    (input : Array τ) : (ofChoices tgt input cs).Advances k := by
  intro r v s hdone
  obtain ⟨c, hc, r', hr', hdone⟩ := exists_of_ofChoices_eq_done hdone
  exact hr' ▸ h c hc r' v s hdone

end Run

/-! ### Forms -/

section Forms

variable {p q : Run τ} {k m : Nat} {input : Array τ}

theorem Run.one_advances (accept : τ → Bool) (e : ExpectedSet τ) : (Run.one input accept e).Advances 1 := by
  intro r v s h
  unfold Run.one at h
  split at h
  · split at h <;> cases h
    exact Nat.le_refl _
  · cases h

theorem Run.literal_advances (ts : List τ) (v : Value τ) (e : ExpectedSet τ) :
    (Run.literal input ts v e).Advances ts.length := by
  intro r w s h
  unfold Run.literal at h
  dsimp only at h
  split at h
  · rename_i hlength
    cases h
    exact Nat.le_of_eq (congrArg (r.offset + ·) hlength.symm)
  · cases h

theorem Leaf.run_advances {ofCall : Nat → Run τ} (hcall : ∀ l, (ofCall l).Advances 0) (l : Leaf τ) :
    (l.run input ofCall).Advances 0 := by
  cases l with
  | call l => exact hcall l
  | satisfy test e => exact (Run.one_advances _ e).mono (Nat.zero_le _)
  | single t e => exact (Run.one_advances _ e).mono (Nat.zero_le _)
  | literal ts v e => exact (Run.literal_advances ts v e).mono (Nat.zero_le _)
  | pure v =>
    intro r w s h
    cases h
    exact Nat.le_refl _
  | fail | empty =>
    intro r w s h
    cases h
  | eof =>
    intro r w s h
    have heof : Run.endOfInput input r = some (.done w s) := h
    unfold Run.endOfInput at heof
    split at heof <;> cases heof
    exact Nat.le_refl _

/-- No form moves the cursor back where it succeeds: some put it back to where they began. -/
theorem Unary.run_advances (hp : p.Advances 0) (rounds : Nat) (u : Unary τ) :
    (u.run input rounds p).Advances 0 := by
  cases u with
  | map f => exact hp.value fun _ v _ => f v
  | chunk => exact hp.value fun r _ s => r.span input s
  | matchChunk => exact hp.value fun r v s => .pair (r.span input s) v
  | attempt => exact hp.attempt input rounds
  | label name => exact hp.label input name rounds
  | many => exact hp.collect rounds #[]
  | lookAhead =>
    intro r v s h
    rcases Run.handle_eq_done h with ⟨w, s', -, h⟩ | ⟨_, _, -, h⟩ <;> cases h
    exact Nat.le_refl _
  | notFollowedBy =>
    intro r v s h
    rcases Run.handle_eq_done h with ⟨_, _, -, h⟩ | ⟨_, s', -, h⟩ <;> cases h
    exact Nat.le_refl _
  | guard mode =>
    intro r v s h
    rcases Run.handle_eq_done h with ⟨w, s', hdone, h⟩ | ⟨_, s', -, h⟩
    · cases h
      exact hp r.bare w s' hdone
    · cases mode <;> cases h
      exact Nat.le_refl _

theorem Binary.run_advances_seq (hp : p.Advances k) (hq : q.Advances m) (kind : SeqKind τ) :
    (Binary.run p q (.seq kind)).Advances (k + m) := by
  apply hp.andThen
  intro r v s w s' h
  exact hq.value (fun _ w _ => kind.value v w) s w s' h

theorem Binary.run_advances_branch (hp : p.Advances k) (hq : q.Advances 0)
    (f : Value τ → Value τ → Value τ) : (Binary.run p q (.branch f)).Advances k := by
  apply hp.andThen (m := 0)
  intro r v s w s' h
  cases v with
  | leftBranch v => exact hq.value (fun _ w _ => f v w) s w s' h
  | rightBranch v =>
    cases h
    exact Nat.le_refl _
  | _ => cases h

end Forms

/-! ### Expressions -/

namespace Expr

section Setting

variable {x : Setting τ} (hcall : ∀ l, (x.ofCall l).Advances 0)
include hcall

theorem advances_of_mem_choices (p : Expr τ) : ∀ c ∈ p.choices x [], c.run.Advances 0 := by
  have hpart {q : Expr τ} (hq : ∀ c ∈ q.choices x [], c.run.Advances 0) : (q.run x).Advances 0 :=
    .ofChoices hq x.target x.input
  induction p with
  | leaf l => exact List.forall_mem_singleton.2 (Leaf.run_advances hcall l)
  | unary u p ih => exact List.forall_mem_singleton.2 (Unary.run_advances (hpart ih) x.rounds u)
  | binary b p q ihp ihq =>
    cases b with
    | seq kind => exact List.forall_mem_singleton.2 (Binary.run_advances_seq (hpart ihp) (hpart ihq) kind)
    | branch f => exact List.forall_mem_singleton.2 (Binary.run_advances_branch (hpart ihp) (hpart ihq) f)
    | alt =>
      rw [choices_alt]
      exact List.forall_mem_append.2 ⟨ihp, ihq⟩

theorem run_advances (p : Expr τ) : (p.run x).Advances 0 :=
  .ofChoices (advances_of_mem_choices hcall p) x.target x.input

/-- Alternatives consume a token if the expression has a lead and calls that have one do. -/
theorem leadWith_advances {ofCall : Nat → Option (Lead τ)}
    (hlead : ∀ l lead, ofCall l = some lead → (x.ofCall l).Advances 1) {p : Expr τ} {lead : Lead τ}
    (h : p.leadWith ofCall = some lead) : ∀ c ∈ p.choices x [], c.run.Advances 1 := by
  have hpart {q : Expr τ} (hq : ∀ c ∈ q.choices x [], c.run.Advances 1) : (q.run x).Advances 1 :=
    .ofChoices hq x.target x.input
  induction p generalizing lead with
  | leaf l =>
    refine List.forall_mem_singleton.2 ?_
    cases l with
    | single t e => exact Run.one_advances _ e
    | literal ts v e =>
      cases ts with
      | nil => cases h
      | cons t ts => exact (Run.literal_advances (t :: ts) v e).mono (Nat.le_add_left 1 ts.length)
    | call l => exact hlead l lead h
    | _ => cases h
  | unary u p ih =>
    refine List.forall_mem_singleton.2 ?_
    cases u with
    | map f => exact (hpart (ih h)).value fun _ v _ => f v
    | chunk => exact (hpart (ih h)).value fun r _ s => r.span x.input s
    | matchChunk => exact (hpart (ih h)).value fun r v s => .pair (r.span x.input s) v
    | attempt => exact (hpart (ih h)).attempt x.input x.rounds
    | label name =>
      obtain ⟨inner, hinner, -⟩ := Option.map_eq_some_iff.1 h
      exact (hpart (ih hinner)).label x.input name x.rounds
    | lookAhead | notFollowedBy | many | guard => cases h
  | binary b p q ihp ihq =>
    cases b with
    | seq kind =>
      refine List.forall_mem_singleton.2 ?_
      unfold leadWith at h
      split at h
      · exact Binary.run_advances_seq (run_advances hcall p) (hpart (ihq h)) kind
      · exact Binary.run_advances_seq (hpart (ihp h)) (run_advances hcall q) kind
    | branch f =>
      exact List.forall_mem_singleton.2 (Binary.run_advances_branch (hpart (ihp h)) (run_advances hcall q) f)
    | alt =>
      obtain ⟨l, hl, h⟩ := Option.bind_eq_some_iff.1 h
      obtain ⟨m, hm, -⟩ := Option.bind_eq_some_iff.1 h
      rw [choices_alt]
      exact List.forall_mem_append.2 ⟨ihp hl, ihq hm⟩

end Setting

variable {tgt : Target τ} {p : Expr τ} {lead : Lead τ}

theorem evalAt_advances (p : Expr τ) (input : Array τ) (depth : Nat) :
    (p.evalAt tgt input depth).Advances 0 := by
  induction depth generalizing p with
  | zero => exact Run.never_advances 0
  | succ depth ih =>
    apply run_advances (x := settingAt tgt input depth)
    exact callsAt_induct (Run.never_advances 0) fun s _ => ih s.body

theorem callsAt_advances (input : Array τ) (depth l : Nat) : (callsAt tgt input depth l).Advances 0 :=
  callsAt_induct (Run.never_advances 0) (fun s _ => evalAt_advances s.body input depth) l

/-- An expression with a lead consumes a token, however deep calls are followed for the lead. -/
theorem leadFrom_advances {steps : Nat} {path : List Nat}
    (h : p.leadFrom tgt.subroutines steps path = some lead) (input : Array τ) (depth : Nat) :
    (p.evalAt tgt input depth).Advances 1 := by
  refine leadFrom_induct (P := fun p _ => ∀ depth, (p.evalAt tgt input depth).Advances 1)
    (fun ofCall hcall p lead h depth => ?_) h depth
  cases depth with
  | zero => exact Run.never_advances 1
  | succ depth =>
    refine .ofChoices (leadWith_advances (callsAt_advances input depth) (fun l lead hl => ?_) h) tgt input
    obtain ⟨s, hs, hbody⟩ := hcall l lead hl
    have hrun : callsAt tgt input depth l = s.body.evalAt tgt input depth := callsAt_of_getElem? hs
    show (callsAt tgt input depth l).Advances 1
    rw [hrun]
    exact hbody depth

theorem lead_advances (h : p.lead tgt.subroutines = some lead) (input : Array τ) (depth : Nat) :
    (p.evalAt tgt input depth).Advances 1 := leadFrom_advances h input depth

end Expr

end ParserMachine

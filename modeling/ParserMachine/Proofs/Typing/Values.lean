import ParserMachine.Proofs.Meaning.Tree

/-!
# The values that parsers yield

A type is a set of values. What a parser may yield is a type built from the types of its parts
(`Expr.Yields`); it is typed if every branch in it looks at verdicts only (`Expr.Typed`). Typed parsers yield
what they may yield and are never stuck (`Expr.run_keeps`).
-/

namespace ParserMachine

variable {τ : Type} [Token τ]

/-- Whether a branch can look at the value. -/
def Value.IsVerdict : Value τ → Prop
  | leftBranch _ | rightBranch _ => True
  | _ => False

theorem Value.isVerdict_toVerdict (v : Value τ) : v.toVerdict.IsVerdict := by
  cases v <;> trivial

/-- What a leaf may yield, given what calls may yield. -/
def Leaf.Yields (ofCall : Nat → Value τ → Prop) : Leaf τ → Value τ → Prop
  | pure v => fun w => w = v
  | fail _ | empty => fun _ => False
  | satisfy _ _ | single _ _ => fun w => ∃ t, w = .tok t
  | literal _ v _ => fun w => w = v
  | eof => fun w => w = .unit
  | call l _ => ofCall l

/-- What a unary form may yield, given what its part may yield. -/
def Unary.Yields (T : Value τ → Prop) : Unary τ → Value τ → Prop
  | map f => fun w => ∃ v, T v ∧ w = f v
  | lookAhead | attempt | label _ | guard (.amend _) | guard (.merge _) => T
  | notFollowedBy => fun w => w = .unit
  | many => fun w => ∃ items : Array (Value τ), (∀ v ∈ items, T v) ∧ w = .list items
  | chunk => fun w => ∃ ts, w = .chunk ts
  | matchChunk => fun w => ∃ ts v, T v ∧ w = .pair (.chunk ts) v
  | guard .capture => fun w => (∃ v, T v ∧ w = .ok v) ∨ ∃ e, w = .err e

/-- What a binary form may yield, given what its parts may yield. -/
def Binary.Yields (T U : Value τ → Prop) : Binary τ → Value τ → Prop
  | seq kind => fun x => ∃ v w, T v ∧ U w ∧ x = kind.value v w
  | alt => fun x => T x ∨ U x
  | branch f => fun x => (∃ v w, T (.leftBranch v) ∧ U w ∧ x = f v w) ∨ T (.rightBranch x)

/-- Whether a binary form can look at what its first part yields. -/
def Binary.Typed (T : Value τ → Prop) : Binary τ → Prop
  | branch _ => ∀ v, T v → v.IsVerdict
  | _ => True

namespace Expr

/-- What an expression may yield, given what calls may yield. -/
def Yields (ofCall : Nat → Value τ → Prop) : Expr τ → Value τ → Prop
  | leaf l => l.Yields ofCall
  | unary u p => u.Yields (p.Yields ofCall)
  | binary b p q => b.Yields (p.Yields ofCall) (q.Yields ofCall)

/-- Every branch looks at verdicts only. -/
def Typed (ofCall : Nat → Value τ → Prop) : Expr τ → Prop
  | leaf _ => True
  | unary _ p => p.Typed ofCall
  | binary b p q => p.Typed ofCall ∧ q.Typed ofCall ∧ b.Typed (p.Yields ofCall)

end Expr

/-! ### Runs that keep to a type -/

/-- The reply is a value of the type, or a failure. -/
def Reply.Keeps (T : Value τ → Prop) : Reply τ → Prop
  | done v _ => T v
  | failed _ _ => True
  | stuck => False

namespace Run

/-- Every reply keeps to the type. -/
def Keeps (T : Value τ → Prop) (p : Run τ) : Prop := ∀ r, ∀ reply ∈ p r, reply.Keeps T

variable {T U : Value τ → Prop} {p q : Run τ} {r : Reading τ} {reply : Reply τ}

theorem Keeps.mono (h : p.Keeps T) (hTU : ∀ v, T v → U v) : p.Keeps U := by
  intro r reply hreply
  have hkeeps := h r reply hreply
  cases reply with
  | done v r' => exact hTU v hkeeps
  | failed e r' => trivial
  | stuck => exact hkeeps

theorem keeps_never : (never : Run τ).Keeps T := fun _ _ hreply => nomatch hreply

theorem keeps_handle (hp : p.Keeps T) {onDone : Value τ → Reading τ → Option (Reply τ)}
    {onFailed : ParseError τ → Reading τ → Option (Reply τ)}
    (hd : ∀ v r', T v → ∀ reply ∈ onDone v r', reply.Keeps U)
    (hf : ∀ e r', ∀ reply ∈ onFailed e r', reply.Keeps U) :
    ∀ reply ∈ p.handle r onDone onFailed, reply.Keeps U := by
  intro reply hreply
  have hr := hp r
  unfold handle at hreply
  cases hpr : p r with
  | none =>
    rw [hpr] at hreply
    cases hreply
  | some reply' =>
    rw [hpr] at hreply
    have hkeeps := hr reply' hpr
    cases reply' with
    | done v r' => exact hd v r' hkeeps reply hreply
    | failed e r' => exact hf e r' reply hreply
    | stuck => exact hkeeps.elim

theorem keeps_andThen (hp : p.Keeps T) {onDone : Value τ → Reading τ → Option (Reply τ)}
    (hd : ∀ v r', T v → ∀ reply ∈ onDone v r', reply.Keeps U) :
    ∀ reply ∈ p.andThen r onDone, reply.Keeps U := by
  refine keeps_handle hp hd fun e r' reply hreply => ?_
  cases hreply
  trivial

theorem keeps_orElse (hp : p.Keeps T) (hq : q.Keeps T) : (p.orElse q).Keeps T := by
  intro r
  refine keeps_handle hp (fun v r' hv reply hreply => ?_) fun e r' reply hreply => ?_
  · cases hreply
    exact hv
  · split at hreply
    · exact hq _ reply hreply
    · cases hreply
      trivial

theorem keeps_inOrder {ps : List (Run τ)} (h : ∀ p ∈ ps, p.Keeps T) : (inOrder ps).Keeps T := by
  induction ps with
  | nil =>
    intro r reply hreply
    cases hreply
    trivial
  | cons p ps ih =>
    cases ps with
    | nil => exact h p (List.mem_cons_self ..)
    | cons q ps =>
      exact keeps_orElse (h p (List.mem_cons_self ..)) (ih fun p' hp' => h p' (List.mem_cons_of_mem _ hp'))

theorem keeps_collect (hp : p.Keeps T) (rounds : Nat) {items : Array (Value τ)}
    (hitems : ∀ v ∈ items, T v) : (p.collect rounds items).Keeps (Unary.many.Yields T) := by
  induction rounds generalizing items with
  | zero => exact keeps_never
  | succ rounds ih =>
    intro r
    refine keeps_handle hp (fun v r' hv reply hreply => ?_) fun e r' reply hreply => ?_
    · have hpush : ∀ w ∈ items.push v, T w := by
        intro w hw
        rcases Array.mem_push.1 hw with hw | rfl
        · exact hitems w hw
        · exact hv
      split at hreply
      · cases hreply
        exact ⟨_, hpush, rfl⟩
      · exact ih hpush r' reply hreply
    · split at hreply
      · cases hreply
        exact ⟨items, hitems, rfl⟩
      · cases hreply
        trivial

/-! ### Tables -/

variable {tgt : Target τ} {input : Array τ}

theorem keeps_afterChosen {others : List (Run τ)} (h : ∀ p ∈ others, p.Keeps T)
    (after : ExpectedSet τ) : (afterChosen input others after).Keeps T := by
  intro r reply hreply
  unfold afterChosen at hreply
  split at hreply
  · cases hreply
    trivial
  · exact keeps_inOrder h _ reply hreply

theorem keeps_chosen {others : List (Run τ)} (h : ∀ p ∈ others, p.Keeps T) (after : ExpectedSet τ)
    (hp : p.Keeps T) : (chosen input others after p).Keeps T := by
  unfold chosen
  split
  · exact hp
  · exact keeps_orElse hp (keeps_afterChosen h after)

theorem keeps_byTable {table : List (Run τ × Lead τ)} {others : List (Run τ)}
    (htable : ∀ a ∈ table, a.1.Keeps T) (hothers : ∀ p ∈ others, p.Keeps T) :
    (byTable input table others).Keeps T := by
  intro r reply hreply
  unfold byTable at hreply
  dsimp only at hreply
  split at hreply
  · split at hreply
    · rename_i hk _ _
      exact keeps_chosen hothers _ (htable _ (List.mem_of_getElem? hk)) _ reply hreply
    · cases hreply
  · split at hreply
    · cases hreply
      trivial
    · exact keeps_inOrder hothers _ reply hreply

/-- Alternatives keep to a type if each does. -/
theorem keeps_ofChoices {alts : List (Choice τ)} (h : ∀ a ∈ alts, a.run.Keeps T) :
    (ofChoices tgt input alts).Keeps T := by
  refine ofChoices_cases tgt (keeps_inOrder (List.forall_mem_map.2 h)) fun table others htable hothers => ?_
  exact keeps_byTable (List.forall_mem_map.2 fun x hx => h x.1 (htable x hx))
    (List.forall_mem_map.2 fun c hc => h c (hothers c hc))

end Run

/-! ### Forms -/

section Forms

variable {T U : Value τ → Prop} {p q : Run τ} {input : Array τ}

theorem Leaf.run_keeps {S : Nat → Value τ → Prop} {ofCall : Nat → Run τ}
    (hcall : ∀ l, (ofCall l).Keeps (S l)) (l : Leaf τ) : (l.run input ofCall).Keeps (l.Yields S) := by
  intro r reply hreply
  have hone (accept : τ → Bool) (e : ExpectedSet τ) :
      (Run.one input accept e).Keeps fun w => ∃ t, w = .tok t := by
    intro r reply hreply
    unfold Run.one at hreply
    split at hreply
    · split at hreply
      · cases hreply
        exact ⟨_, rfl⟩
      · cases hreply
        trivial
    · cases hreply
      trivial
  cases l with
  | pure | fail | empty =>
    cases hreply
    trivial
  | satisfy test e => exact hone _ e r reply hreply
  | single t e => exact hone _ e r reply hreply
  | literal ts v e =>
    unfold Leaf.run Run.literal at hreply
    dsimp only at hreply
    split at hreply
    · cases hreply
      rfl
    · cases hreply
      trivial
  | eof =>
    unfold Leaf.run Run.endOfInput at hreply
    dsimp only at hreply
    split at hreply
    · cases hreply
      trivial
    · cases hreply
      rfl
  | call l => exact hcall l r reply hreply

theorem Unary.run_keeps (hp : p.Keeps T) (rounds : Nat) (u : Unary τ) :
    (u.run input rounds p).Keeps (u.Yields T) := by
  intro r
  cases u with
  | many => exact Run.keeps_collect hp rounds (by simp) r
  | map f =>
    refine Run.keeps_andThen hp fun v r' hv reply hreply => ?_
    cases hreply
    exact ⟨v, hv, rfl⟩
  | chunk =>
    refine Run.keeps_andThen hp fun v r' _ reply hreply => ?_
    cases hreply
    exact ⟨_, rfl⟩
  | matchChunk =>
    refine Run.keeps_andThen hp fun v r' hv reply hreply => ?_
    cases hreply
    exact ⟨_, v, hv, rfl⟩
  | lookAhead | attempt | label =>
    refine Run.keeps_handle hp (fun v r' hv reply hreply => ?_) fun e r' reply hreply => ?_
    · cases hreply
      exact hv
    · cases hreply
      trivial
  | notFollowedBy =>
    refine Run.keeps_handle hp (fun v r' _ reply hreply => ?_) fun e r' reply hreply => ?_
    · cases hreply
      trivial
    · cases hreply
      rfl
  | guard mode =>
    refine Run.keeps_handle hp (fun v r' hv reply hreply => ?_) fun e r' reply hreply => ?_
    · cases hreply
      cases mode with
      | capture => exact .inl ⟨v, hv, rfl⟩
      | amend | merge => exact hv
    · cases hreply
      cases mode with
      | capture => exact .inr ⟨e, rfl⟩
      | amend | merge => trivial

theorem Binary.run_keeps (hp : p.Keeps T) (hq : q.Keeps U) {b : Binary τ} (hb : b.Typed T) :
    (b.run p q).Keeps (b.Yields T U) := by
  intro r
  cases b with
  | seq kind =>
    refine Run.keeps_andThen hp fun v r' hv => Run.keeps_andThen hq fun w r'' hw reply hreply => ?_
    cases hreply
    exact ⟨v, w, hv, hw, rfl⟩
  | alt => exact Run.keeps_orElse (hp.mono fun _ => .inl) (hq.mono fun _ => .inr) r
  | branch f =>
    refine Run.keeps_andThen hp fun v r' hv => ?_
    have hverdict := hb v hv
    cases v with
    | leftBranch v =>
      refine Run.keeps_andThen hq fun w r'' hw reply hreply => ?_
      cases hreply
      exact .inl ⟨v, w, hv, hw, rfl⟩
    | rightBranch v =>
      intro reply hreply
      cases hreply
      exact .inr hv
    | _ => exact hverdict.elim

end Forms

/-! ### Trees -/

namespace Expr

variable {S : Nat → Value τ → Prop}

theorem keeps_cons {T : Value τ → Prop} {a : Choice τ} (ha : a.run.Keeps T) {rest : List (Choice τ)}
    (hrest : ∀ a ∈ rest, a.run.Keeps T) : ∀ b ∈ a :: rest, b.run.Keeps T := by
  intro b hb
  rcases List.mem_cons.1 hb with rfl | hb
  · exact ha
  · exact hrest b hb

theorem choices_keeps {x : Setting τ} (hcall : ∀ l, (x.ofCall l).Keeps (S l)) {p : Expr τ}
    (hp : p.Typed S) {T : Value τ → Prop} (hT : ∀ v, p.Yields S v → T v) {rest : List (Choice τ)}
    (hrest : ∀ a ∈ rest, a.run.Keeps T) : ∀ a ∈ p.choices x rest, a.run.Keeps T := by
  induction p generalizing T rest with
  | leaf l => exact keeps_cons ((Leaf.run_keeps hcall l).mono hT) hrest
  | unary u p ih =>
    have hpart : (p.run x).Keeps (p.Yields S) := Run.keeps_ofChoices (ih hp (fun _ h => h) nofun)
    exact keeps_cons ((Unary.run_keeps hpart x.rounds u).mono hT) hrest
  | binary b p q ihp ihq =>
    have hpart : (p.run x).Keeps (p.Yields S) := Run.keeps_ofChoices (ihp hp.1 (fun _ h => h) nofun)
    have hpart' : (q.run x).Keeps (q.Yields S) :=
      Run.keeps_ofChoices (ihq hp.2.1 (fun _ h => h) nofun)
    have hrun := (Binary.run_keeps hpart hpart' hp.2.2).mono hT
    cases b with
    | alt =>
      exact ihp hp.1 (fun v hv => hT v (.inl hv)) (ihq hp.2.1 (fun v hv => hT v (.inr hv)) hrest)
    | seq kind => exact keeps_cons hrun hrest
    | branch f => exact keeps_cons hrun hrest

/-- Typed expressions keep to what they may yield. -/
theorem run_keeps {x : Setting τ} (hcall : ∀ l, (x.ofCall l).Keeps (S l)) {p : Expr τ}
    (hp : p.Typed S) : (p.run x).Keeps (p.Yields S) :=
  Run.keeps_ofChoices (choices_keeps hcall hp (fun _ h => h) nofun)

end Expr

end ParserMachine

import ParserMachine.Expr.Facts
import ParserMachine.Proofs.Recognition.Ways

/-!
# What is known beforehand is right

The facts of an expression describe the ways that it may go (`Expr.facts_allow`), and so what it does
(`Expr.facts_describe`): what cannot fail never does, what consumes nothing leaves the cursor in place, and a
failure that is atomic does so too.
-/

namespace ParserMachine

variable {τ : Type} [Token τ]

/-- The facts are right for these ways. -/
structure Facts.Allows (f : Facts) (w : Ways) : Prop where
  /-- What cannot fail never does. -/
  canFail : f.canFail = false → ∀ i j, ¬ w i false j
  /-- What consumes nothing succeeds in place. -/
  mayConsume : f.mayConsume = false → ∀ i j, w i true j → j = i
  /-- What is atomic fails in place. -/
  atomic : f.atomic = true → ∀ i j, w i false j → j = i

/-- The facts are right. -/
structure Facts.Describes (f : Facts) (p : Run τ) : Prop where
  /-- What cannot fail never does. -/
  canFail : f.canFail = false → ∀ r e r', p r ≠ some (.failed e r')
  /-- What consumes nothing succeeds in place. -/
  mayConsume : f.mayConsume = false → ∀ r v r', p r = some (.done v r') → r'.offset = r.offset
  /-- What is atomic fails in place. -/
  atomic : f.atomic = true → ∀ r e r', p r = some (.failed e r') → r'.offset = r.offset

theorem Facts.Allows.describes {f : Facts} {w : Ways} (h : f.Allows w) {p : Run τ} (hp : p.Takes w) :
    f.Describes p where
  canFail hf r e r' hr := h.canFail hf _ _ (hp.failed r e r' hr)
  mayConsume hc r v r' hr := h.mayConsume hc _ _ (hp.done r v r' hr)
  atomic ha r e r' hr := h.atomic ha _ _ (hp.failed r e r' hr)

/-! ### Forms -/

theorem Facts.unknown_allows (w : Ways) : Facts.unknown.Allows w := ⟨nofun, nofun, nofun⟩

theorem Facts.describes_unknown (p : Run τ) : Facts.unknown.Describes p := ⟨nofun, nofun, nofun⟩

/-- Everything is right of what never replies. -/
theorem Facts.describes_never (f : Facts) : f.Describes (.never : Run τ) :=
  ⟨fun _ _ _ _ h => (nomatch h), fun _ _ _ _ h => (nomatch h), fun _ _ _ _ h => (nomatch h)⟩

theorem Leaf.facts_describe (input : Array τ) (ofCall : Nat → Run τ) (l : Leaf τ) :
    l.facts.Describes (l.run input ofCall) := by
  have hone (accept : τ → Bool) (e : ExpectedSet τ) : Facts.oneToken.Describes (Run.one input accept e) := by
    refine ⟨nofun, nofun, fun _ r e' r' h => ?_⟩
    unfold Run.one at h
    split at h
    · split at h
      · cases h
      · cases h
        rfl
    · cases h
      rfl
  cases l with
  | pure v =>
    refine ⟨fun _ r e r' h => (by cases h), fun _ r w r' h => ?_, fun _ r e r' h => (by cases h)⟩
    cases h
    rfl
  | fail | empty =>
    refine ⟨nofun, fun _ r w r' h => (by cases h), fun _ r e r' h => ?_⟩
    cases h
    rfl
  | satisfy test e => exact hone _ _
  | single t e => exact hone _ _
  | literal ts v e =>
    match ts with
    | [] =>
      refine ⟨fun _ r e r' h => ?_, fun _ r w r' h => ?_, fun _ r e r' h => ?_⟩ <;> cases h
      rfl
    | [t] =>
      refine ⟨nofun, nofun, fun _ r e' r' h => ?_⟩
      have hrun : Run.literal input [t] v e r = some (.failed e' r') := h
      unfold Run.literal matchLength at hrun
      dsimp only at hrun
      split at hrun
      · cases hrun
      · cases hrun
        rfl
    | _ :: _ :: _ => exact Facts.describes_unknown _
  | eof =>
    have heof (r : Reading τ) : Leaf.run input ofCall .eof r = Run.endOfInput input r := rfl
    refine ⟨nofun, fun _ r w r' h => ?_, fun _ r e r' h => ?_⟩
    · rw [heof] at h
      unfold Run.endOfInput at h
      split at h <;> cases h
      rfl
    · rw [heof] at h
      unfold Run.endOfInput at h
      split at h <;> cases h
      rfl
  | call l => exact Facts.describes_unknown _

theorem Leaf.facts_allow (l : Leaf τ) : l.facts.Allows l.Ways := by
  constructor
  · intro h i j hw
    cases hw with
    | failed hr => exact (l.facts_describe _ _).canFail h _ _ _ hr
  · intro h i j hw
    cases hw with
    | done hr => exact (l.facts_describe _ _).mayConsume h _ _ _ hr
  · intro h i j hw
    cases hw with
    | failed hr => exact (l.facts_describe _ _).atomic h _ _ _ hr

namespace Facts

variable {f g : Facts} {w v : Ways}

theorem Allows.seq (hf : f.Allows w) (hg : g.Allows v) : (f.seq g).Allows (.Seq w v) := by
  constructor
  · intro h i j hw
    obtain ⟨hcan, hcan'⟩ : f.canFail = false ∧ g.canFail = false := by simpa [Facts.seq] using h
    cases hw with
    | broken hw => exact hf.canFail hcan _ _ hw
    | both _ hv => exact hg.canFail hcan' _ _ hv
  · intro h i j hw
    obtain ⟨hmay, hmay'⟩ : f.mayConsume = false ∧ g.mayConsume = false := by simpa [Facts.seq] using h
    cases hw with
    | both hw hv => exact (hg.mayConsume hmay' _ _ hv).trans (hf.mayConsume hmay _ _ hw)
  · intro h i j hw
    obtain ⟨⟨hatomic, hmid⟩, hatomic'⟩ : (f.atomic = true ∧ (f.mayConsume = false ∨ g.canFail = false)) ∧
        g.atomic = true := by
      simpa [Facts.seq] using h
    cases hw with
    | broken hw => exact hf.atomic hatomic _ _ hw
    | both hw hv =>
      rcases hmid with hmay | hcan
      · exact (hg.atomic hatomic' _ _ hv).trans (hf.mayConsume hmay _ _ hw)
      · exact absurd hv (hg.canFail hcan _ _)

theorem Allows.alt (hf : f.Allows w) (hg : g.Allows v) : (f.alt g).Allows (.Alt w v) := by
  constructor
  · intro h i j hw
    have hor : f.canFail = true → g.canFail = false ∧ f.atomic = true := by simpa [Facts.alt] using h
    cases hw with
    | broken hmoved hw =>
      cases hcan : f.canFail with
      | false => exact hf.canFail hcan _ _ hw
      | true => exact hmoved (hf.atomic (hor hcan).2 _ _ hw)
    | second hw hv =>
      cases hcan : f.canFail with
      | false => exact hf.canFail hcan _ _ hw
      | true => exact hg.canFail (hor hcan).1 _ _ hv
  · intro h i j hw
    obtain ⟨hmay, hmay'⟩ : f.mayConsume = false ∧ g.mayConsume = false := by simpa [Facts.alt] using h
    cases hw with
    | first hw => exact hf.mayConsume hmay _ _ hw
    | second _ hv => exact hg.mayConsume hmay' _ _ hv
  · intro h i j hw
    obtain ⟨hatomic, hatomic'⟩ : f.atomic = true ∧ g.atomic = true := by simpa [Facts.alt] using h
    cases hw with
    | broken _ hw => exact hf.atomic hatomic _ _ hw
    | second _ hv => exact hg.atomic hatomic' _ _ hv

theorem Allows.orNothing (hg : g.Allows v) : g.Allows (.OrNothing v) := by
  constructor
  · intro h i j hv
    cases hv with
    | some hv => exact hg.canFail h _ _ hv
  · intro h i j hv
    cases hv with
    | some hv => exact hg.mayConsume h _ _ hv
    | nothing => rfl
  · intro h i j hv
    cases hv with
    | some hv => exact hg.atomic h _ _ hv

/-- A repetition of a parser that fails in place does not fail, and of one that succeeds in place it
consumes nothing. -/
theorem Allows.rounds (hf : f.Allows w) : (Unary.facts f (.many : Unary τ)).Allows (.Rounds w) := by
  have hfails (hatomic : f.atomic = true) {i j : Nat} {ok : Bool} (h : Ways.Rounds w i ok j) : ok = true := by
    induction h with
    | stop | idle => rfl
    | broken hmoved h => exact absurd (hf.atomic hatomic _ _ h) hmoved
    | next _ _ ih => exact ih
  constructor
  · intro h i j hw
    exact Bool.false_ne_true (hfails (by simpa [Unary.facts] using h) hw)
  · intro h i j hw
    have hplace {i j : Nat} {ok : Bool} (h' : Ways.Rounds w i ok j) : ok = true → j = i := by
      induction h' with
      | stop | idle => exact fun _ => rfl
      | broken => exact nofun
      | next hw _ ih => exact fun hok => (ih hok).trans (hf.mayConsume h _ _ hw)
    exact hplace hw rfl
  · intro h i j hw
    exact absurd (hfails h hw) Bool.false_ne_true

end Facts

theorem Unary.facts_allow {f : Facts} {w : Ways} (hf : f.Allows w) (u : Unary τ) :
    (u.facts f).Allows (u.ways w) := by
  cases u with
  | map | chunk | matchChunk | label => exact hf
  | guard => exact Facts.unknown_allows _
  | many => exact hf.rounds
  | lookAhead =>
    constructor
    · rintro h i j ⟨hw⟩
      exact hf.canFail h _ _ hw
    · rintro - i j ⟨-⟩
      rfl
    · rintro - i j ⟨-⟩
      rfl
  | notFollowedBy =>
    refine ⟨nofun, ?_, ?_⟩
    · rintro - i j ⟨-⟩
      rfl
    · rintro - i j ⟨-⟩
      rfl
  | attempt =>
    constructor
    · intro h i j hw
      cases hw with
      | back hw => exact hf.canFail h _ _ hw
    · intro h i j hw
      cases hw with
      | done hw => exact hf.mayConsume h _ _ hw
    · rintro - i j ⟨-⟩
      rfl

theorem Binary.facts_allow {f g : Facts} {w v : Ways} (hf : f.Allows w) (hg : g.Allows v) (b : Binary τ) :
    (b.facts f g).Allows (b.ways w v) := by
  cases b with
  | seq => exact hf.seq hg
  | alt => exact hf.alt hg
  | branch => exact hf.seq hg.orNothing

/-- The facts of an expression are right for all its ways. -/
theorem Expr.facts_allow (p : Expr τ) : p.facts.Allows p.ways := by
  induction p with
  | leaf l => exact l.facts_allow
  | unary u p ih => exact u.facts_allow ih
  | binary b p q ihp ihq => exact b.facts_allow ihp ihq

/-- The facts of an expression are right where no tables are used. -/
theorem Expr.facts_describe {x : Setting τ} (hx : x.target.options.dispatchTables = false)
    (p : Expr τ) : p.facts.Describes (p.run x) := p.facts_allow.describes (run_takes hx p)

end ParserMachine

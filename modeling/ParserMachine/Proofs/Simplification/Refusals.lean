import ParserMachine.Proofs.Simplification.Off
import ParserMachine.Proofs.Simplification.Rules

/-!
# What simplification refuses

Simplification fails only at a repetition that the trees had from the beginning, whose parser has become one
that is known to succeed without consuming input (`Bound.refuses_of_optimize`). No rule forgets what is known
of a parser (`Expr.Rule.sharper`). So a repetition of a parser of which this is known from the beginning is
refused under all options (`Bound.exists_refusal`).
-/

namespace ParserMachine

variable {τ : Type} [Token τ]

/-! ### Repetitions -/

namespace Expr

variable {p p' q q' : Expr τ} {e : CompileError}

/-- The expression has a repetition of `q`. -/
def RepeatedIn (q : Expr τ) : Expr τ → Prop
  | leaf _ => False
  | unary u p => (u = .many ∧ p = q) ∨ q.RepeatedIn p
  | binary _ p p' => q.RepeatedIn p ∨ q.RepeatedIn p'

/-- No rule makes a repetition. -/
theorem Rule.repeatedIn (h : Rule p p') (hq : q.RepeatedIn p') : q.RepeatedIn p := by
  cases h <;> simp only [RepeatedIn, reduceCtorEq, false_and, false_or] at hq ⊢ <;> tauto

/-- A repetition that is there in the end was there in the beginning. -/
theorem Simplifies.exists_repeatedIn (h : p.Simplifies p') (hq : q'.RepeatedIn p') :
    ∃ q : Expr τ, q.RepeatedIn p ∧ q.Simplifies q' := by
  induction h generalizing q' with
  | refl p => exact ⟨q', hq, .refl _⟩
  | rule h => exact ⟨q', h.repeatedIn hq, .refl _⟩
  | trans _ _ ih ih' =>
    obtain ⟨q₁, hq₁, hsimplifies'⟩ := ih' hq
    obtain ⟨q, hq, hsimplifies⟩ := ih hq₁
    exact ⟨q, hq, hsimplifies.trans hsimplifies'⟩
  | @unary u p p' hpart ih =>
    rcases hq with ⟨rfl, rfl⟩ | hq
    · exact ⟨p, .inl ⟨rfl, rfl⟩, hpart⟩
    · obtain ⟨q, hq, hsimplifies⟩ := ih hq
      exact ⟨q, .inr hq, hsimplifies⟩
  | binary b _ _ ihp ihq =>
    rcases hq with hq | hq
    · obtain ⟨q, hq, hsimplifies⟩ := ihp hq
      exact ⟨q, .inl hq, hsimplifies⟩
    · obtain ⟨q, hq, hsimplifies⟩ := ihq hq
      exact ⟨q, .inr hq, hsimplifies⟩

/-! ### Where simplification fails -/

/-- What an expression may become; without rules it stays as it is. -/
structure Becomes (simplifying : Bool) (p p' : Expr τ) : Prop where
  /-- Rules were applied. -/
  simplifies : p.Simplifies p'
  /-- Or none was. -/
  off : simplifying = false → p' = p

/-- Such an error names a repetition of the expression: its parser may become one that is known to succeed
without consuming input. -/
def Refuses (simplifying : Bool) (p : Expr τ) (e : CompileError) : Prop :=
  ∃ q q' : Expr τ, q.RepeatedIn p ∧ q.Becomes simplifying q' ∧ q'.facts.isIdle = true ∧
    e = .nonConsumingRepeat q'.name

variable {simplifying : Bool}

theorem Becomes.refl (p : Expr τ) : p.Becomes simplifying p := ⟨.refl p, fun _ => rfl⟩

theorem Becomes.trans {p'' : Expr τ} (h : p.Becomes simplifying p') (h' : p'.Becomes simplifying p'') :
    p.Becomes simplifying p'' :=
  ⟨h.simplifies.trans h'.simplifies, fun hoff => (h'.off hoff).trans (h.off hoff)⟩

theorem Becomes.exists_repeatedIn (h : p.Becomes simplifying p') (hq : q'.RepeatedIn p') :
    ∃ q : Expr τ, q.RepeatedIn p ∧ q.Becomes simplifying q' := by
  cases hoff : simplifying with
  | false =>
    rw [h.off hoff] at hq
    exact ⟨q', hq, .refl q'⟩
  | true =>
    obtain ⟨q, hq, hsimplifies⟩ := h.simplifies.exists_repeatedIn hq
    exact ⟨q, hq, hsimplifies, nofun⟩

/-- What is refused later is refused. -/
theorem Becomes.refuses (h : p.Becomes simplifying p') (h' : p'.Refuses simplifying e) :
    p.Refuses simplifying e := by
  obtain ⟨q₁, q', hq₁, hbecomes', hidle, he⟩ := h'
  obtain ⟨q, hq, hbecomes⟩ := h.exists_repeatedIn hq₁
  exact ⟨q, q', hq, hbecomes.trans hbecomes', hidle, he⟩

theorem Refuses.imp (h : p.Refuses simplifying e) (hin : ∀ q : Expr τ, q.RepeatedIn p → q.RepeatedIn p') :
    p'.Refuses simplifying e := by
  obtain ⟨q, q', hq, hrest⟩ := h
  exact ⟨q, q', hin q hq, hrest⟩

namespace Noted

variable {n n' : Noted τ}

theorem refuses_of_checkRepeat (h : checkRepeat n = .error e) : n.expr.Refuses simplifying e := by
  obtain ⟨_, t⟩ := n
  cases t with
  | @unary f u p =>
    cases u with
    | many =>
      have hcheck : (if f.isIdle then Except.error (CompileError.nonConsumingRepeat p.expr.name)
          else .ok ()) = .error e := h
      split at hcheck
      · rename_i hidle
        cases hcheck
        exact ⟨p.expr, p.expr, .inl ⟨rfl, rfl⟩, .refl _, (congrArg Facts.isIdle p.facts_expr).trans hidle, rfl⟩
      · cases hcheck
    | _ => cases h
  | _ => cases h

theorem refuses_of_settle {chained : Bool} {steps fired : Nat}
    (h : settle simplifying chained steps n fired = .error e) : n.expr.Refuses simplifying e := by
  induction steps generalizing n fired with
  | zero => cases h
  | succ steps ih =>
    rw [settle] at h
    rcases bind_eq_error_iff.1 h with h | ⟨-, -, h⟩
    · exact refuses_of_checkRepeat h
    · cases simplifying with
      | false => cases h
      | true =>
        rw [if_pos rfl] at h
        cases hr : simplify? chained n with
        | none =>
          rw [hr] at h
          cases h
        | some r =>
          rw [hr] at h
          have hstep : n.expr.Becomes true r.expr := by
            refine ⟨simplifies_of_simplify? hr, ?_⟩
            intro hoff
            cases hoff
          exact hstep.refuses (ih h)

end Noted

theorem becomes_of_simplifyPass {chained : Bool} {n : Noted τ} {fired : Nat}
    (h : p.simplifyPass simplifying chained = .ok (n, fired)) : p.Becomes simplifying n.expr := by
  refine ⟨simplifies_of_simplifyPass h, ?_⟩
  rintro rfl
  exact (simplifyPass_off h).1

theorem Becomes.unary (u : Unary τ) (h : p.Becomes simplifying p') :
    (Expr.unary u p).Becomes simplifying (.unary u p') :=
  ⟨.unary u h.simplifies, fun hoff => by rw [h.off hoff]⟩

theorem Becomes.binary (b : Binary τ) (h : p.Becomes simplifying p') (h' : q.Becomes simplifying q') :
    (Expr.binary b p q).Becomes simplifying (.binary b p' q') :=
  ⟨.binary b h.simplifies h'.simplifies, fun hoff => by rw [h.off hoff, h'.off hoff]⟩

theorem refuses_of_simplifyPass {chained : Bool} (h : p.simplifyPass simplifying chained = .error e) :
    p.Refuses simplifying e := by
  induction p generalizing chained with
  | leaf l => cases h
  | unary u p ih =>
    rw [simplifyPass] at h
    rcases bind_eq_error_iff.1 h with h | ⟨⟨n, fired⟩, hp, h⟩
    · exact (ih h).imp fun q hq => .inr hq
    · exact (Becomes.unary u (becomes_of_simplifyPass hp)).refuses (Noted.refuses_of_settle h)
  | binary b p p' ihp ihp' =>
    rw [simplifyPass] at h
    rcases bind_eq_error_iff.1 h with h | ⟨⟨n', fired'⟩, hp', h⟩
    · exact (ihp' h).imp fun q hq => .inr hq
    · rcases bind_eq_error_iff.1 h with h | ⟨⟨n, fired⟩, hp, h⟩
      · exact (ihp h).imp fun q hq => .inl hq
      · have hparts := Becomes.binary b (becomes_of_simplifyPass hp) (becomes_of_simplifyPass hp')
        exact hparts.refuses (Noted.refuses_of_settle h)

end Expr

namespace Bound

variable {b b' : Bound τ} {e : CompileError} {simplifying : Bool}

/-- The trees have a repetition of `q`. -/
def Repeats (b : Bound τ) (q : Expr τ) : Prop :=
  q.RepeatedIn b.main ∨ ∃ s ∈ b.subroutines, q.RepeatedIn s.body

/-- Such an error names a repetition of the trees: its parser may become one that is known to succeed without
consuming input. -/
def Refuses (simplifying : Bool) (b : Bound τ) (e : CompileError) : Prop :=
  ∃ q q' : Expr τ, b.Repeats q ∧ q.Becomes simplifying q' ∧ q'.facts.isIdle = true ∧
    e = .nonConsumingRepeat q'.name

/-- What trees may become; without rules they stay as they are. -/
structure Becomes (simplifying : Bool) (b b' : Bound τ) : Prop where
  /-- Rules were applied. -/
  simplifies : b.Simplifies b'
  /-- Or none was. -/
  off : simplifying = false → b' = b

/-- What is refused later is refused. -/
theorem Becomes.refuses (h : b.Becomes simplifying b') (h' : b'.Refuses simplifying e) :
    b.Refuses simplifying e := by
  cases hoff : simplifying with
  | false =>
    rw [hoff, h.off hoff] at h'
    exact h'
  | true =>
    obtain ⟨q₁, q', hq₁, hbecomes, hidle, he⟩ := h'
    rcases hq₁ with hmain | ⟨s', hs', hbody⟩
    · obtain ⟨q, hq, hsimplifies⟩ := h.simplifies.main.exists_repeatedIn hmain
      exact ⟨q, q', .inl hq, ⟨hsimplifies.trans hbecomes.simplifies, nofun⟩, hidle, he⟩
    · obtain ⟨s, hs, hss'⟩ := exists_of_mem_forall₂ h.simplifies.subroutines hs'
      obtain ⟨q, hq, hsimplifies⟩ := hss'.body.exists_repeatedIn hbody
      exact ⟨q, q', .inr ⟨s, hs, hq⟩, ⟨hsimplifies.trans hbecomes.simplifies, nofun⟩, hidle, he⟩

theorem refuses_of_simplifySubroutines {ss : List (Subroutine τ)}
    (h : simplifySubroutines simplifying ss = .error e) : ∃ s ∈ ss, s.body.Refuses simplifying e := by
  induction ss with
  | nil => cases h
  | cons s ss ih =>
    rw [simplifySubroutines] at h
    rcases bind_eq_error_iff.1 h with h | ⟨body, -, h⟩
    · exact ⟨s, List.mem_cons_self .., Expr.refuses_of_simplifyPass h⟩
    · rcases bind_eq_error_iff.1 h with h | ⟨rest, -, h⟩
      · obtain ⟨s', hs', hrefuses⟩ := ih h
        exact ⟨s', List.mem_cons_of_mem _ hs', hrefuses⟩
      · cases h

theorem refuses_of_simplifyPass (h : b.simplifyPass simplifying = .error e) : b.Refuses simplifying e := by
  unfold simplifyPass at h
  rcases bind_eq_error_iff.1 h with h | ⟨main, -, h⟩
  · obtain ⟨q, q', hq, hrest⟩ := Expr.refuses_of_simplifyPass h
    exact ⟨q, q', .inl hq, hrest⟩
  · rcases bind_eq_error_iff.1 h with h | ⟨subroutines, -, h⟩
    · obtain ⟨s, hs, q, q', hq, hrest⟩ := refuses_of_simplifySubroutines h
      exact ⟨q, q', .inr ⟨s, hs, hq⟩, hrest⟩
    · cases h

theorem becomes_of_simplifyPass {n : Nat} (h : b.simplifyPass simplifying = .ok (b', n)) :
    b.Becomes simplifying b' := by
  refine ⟨simplifies_of_simplifyPass h, ?_⟩
  rintro rfl
  exact (simplifyPass_off h).1

/-- Simplification fails only at a repetition that the trees had from the beginning. -/
theorem refuses_of_optimize {o : Options} (h : b.optimize o = .error e) : b.Refuses o.optimize e := by
  have hpasses (passes : Nat) (b : Bound τ) (h : b.optimizeFor o.optimize passes = .error e) :
      b.Refuses o.optimize e := by
    induction passes generalizing b with
    | zero => cases h
    | succ passes ih =>
      rw [optimizeFor] at h
      rcases bind_eq_error_iff.1 h with h | ⟨⟨b', n⟩, hpass, h⟩
      · exact refuses_of_simplifyPass h
      · dsimp only at h
        split at h
        · cases h
        · exact (becomes_of_simplifyPass hpass).refuses (ih b' h)
  exact hpasses o.passes b h

end Bound

/-! ### What is known -/

namespace Facts

/-- The first says at least what the second does. -/
structure Sharper (f g : Facts) : Prop where
  /-- What is known not to fail still is. -/
  canFail : g.canFail = false → f.canFail = false
  /-- What is known to consume nothing still is. -/
  mayConsume : g.mayConsume = false → f.mayConsume = false
  /-- What is known to fail in place still is. -/
  atomic : g.atomic = true → f.atomic = true

variable {f f' g g' h : Facts}

theorem Sharper.refl (f : Facts) : f.Sharper f := ⟨id, id, id⟩

theorem Sharper.of_eq (h : f = g) : f.Sharper g := h ▸ .refl f

theorem Sharper.trans (hfg : f.Sharper g) (hgh : g.Sharper h) : f.Sharper h :=
  ⟨fun hh => hfg.canFail (hgh.canFail hh), fun hh => hfg.mayConsume (hgh.mayConsume hh),
    fun hh => hfg.atomic (hgh.atomic hh)⟩

theorem Sharper.isIdle (hfg : f.Sharper g) (hg : g.isIdle = true) : f.isIdle = true := by
  simp only [Facts.isIdle, Bool.and_eq_true, Bool.not_eq_true'] at hg ⊢
  exact ⟨hfg.canFail hg.1, hfg.mayConsume hg.2⟩

theorem Sharper.seq (hf : f.Sharper f') (hg : g.Sharper g') : (f.seq g).Sharper (f'.seq g') where
  canFail h := by
    simp only [Facts.seq, Bool.or_eq_false_iff] at h ⊢
    exact h.imp hf.canFail hg.canFail
  mayConsume h := by
    simp only [Facts.seq, Bool.or_eq_false_iff] at h ⊢
    exact h.imp hf.mayConsume hg.mayConsume
  atomic h := by
    simp only [Facts.seq, Bool.and_eq_true, Bool.not_eq_true', Bool.and_eq_false_iff] at h ⊢
    obtain ⟨⟨hfirst, hbetween⟩, hsecond⟩ := h
    exact ⟨⟨hf.atomic hfirst, hbetween.imp hf.mayConsume hg.canFail⟩, hg.atomic hsecond⟩

theorem Sharper.alt (hf : f.Sharper f') (hg : g.Sharper g') : (f.alt g).Sharper (f'.alt g') where
  canFail h := by
    simp only [Facts.alt, Bool.and_eq_false_iff, Bool.or_eq_false_iff, Bool.not_eq_false'] at h ⊢
    exact h.imp hf.canFail (And.imp hg.canFail hf.atomic)
  mayConsume h := by
    simp only [Facts.alt, Bool.or_eq_false_iff] at h ⊢
    exact h.imp hf.mayConsume hg.mayConsume
  atomic h := by
    simp only [Facts.alt, Bool.and_eq_true] at h ⊢
    exact h.imp hf.atomic hg.atomic

theorem seq_assoc (f g h : Facts) : (f.seq g).seq h = f.seq (g.seq h) := by
  simp only [seq, mk.injEq, Bool.or_assoc, true_and]
  grind

theorem alt_assoc (f g h : Facts) : (f.alt g).alt h = f.alt (g.alt h) := by
  simp only [alt, mk.injEq, Bool.or_assoc, Bool.and_assoc, and_true]
  grind

end Facts

theorem Unary.sharper {f g : Facts} (h : f.Sharper g) (u : Unary τ) : (u.facts f).Sharper (u.facts g) := by
  cases u with
  | map | chunk | matchChunk | label => exact h
  | lookAhead => exact ⟨h.canFail, id, id⟩
  | notFollowedBy | guard => exact .refl _
  | attempt => exact ⟨h.canFail, h.mayConsume, id⟩
  | many => exact ⟨by simpa [Unary.facts] using h.atomic, h.mayConsume, h.atomic⟩

theorem Binary.sharper {f f' g g' : Facts} (hf : f.Sharper f') (hg : g.Sharper g') (b : Binary τ) :
    (b.facts f g).Sharper (b.facts f' g') := by
  cases b with
  | seq | branch => exact hf.seq hg
  | alt => exact hf.alt hg

namespace Expr

variable {p p' q : Expr τ}

theorem IsFailing.facts_eq (h : p.IsFailing) : p.facts = .check := by
  cases h <;> rfl

/-- No rule forgets what is known. -/
theorem Rule.sharper (h : Rule p p') : p'.facts.Sharper p.facts := by
  cases h with
  | mapPure | mapMap | mapFailing | lookAheadPure | labelTwice => exact .refl _
  | chunkPure => exact .refl _
  | lookAheadTwice => exact .refl _
  | manyEmpty => exact .refl _
  | deniedTwice => exact ⟨nofun, id, id⟩
  | attemptAtomic hatomic => exact ⟨id, id, fun _ => hatomic⟩
  | seqFailing kind q hp =>
    -- what follows a parser that fails is never begun
    constructor <;> simp [Expr.facts, Binary.facts, hp.facts_eq, Facts.seq, Facts.check]
  | seqIdle kind hq hidle =>
    constructor <;> simp [Expr.facts, Binary.facts, hq.facts_eq, Facts.seq, Facts.check]
  | dropFirst | dropSecond | mapFirst | mapSecond =>
    constructor <;> simp [Expr.facts, Binary.facts, Unary.facts, Leaf.facts, Facts.seq, Facts.idle]
  | nestLeft p q s | nestRight p q s => exact .of_eq (Facts.seq_assoc p.facts q.facts s.facts).symm
  | nestAlt p q s => exact .of_eq (Facts.alt_assoc p.facts q.facts s.facts).symm
  | unnestAlt p q s => exact .of_eq (Facts.alt_assoc p.facts q.facts s.facts)
  | emptyFirst | emptySecond =>
    constructor <;> simp [Expr.facts, Binary.facts, Leaf.facts, Facts.alt, Facts.check]
  | settled q hfails =>
    -- what is dropped may be the only part that consumes input: here more becomes known
    constructor <;> simp +contextual [Expr.facts, Binary.facts, Facts.alt, hfails]
  | joinLookAheads | joinDenied =>
    constructor <;> simp [Expr.facts, Binary.facts, Unary.facts, Facts.alt, Facts.check]

theorem Simplifies.sharper (h : p.Simplifies p') : p'.facts.Sharper p.facts := by
  induction h with
  | refl p => exact .refl _
  | rule h => exact h.sharper
  | trans _ _ ih ih' => exact ih'.trans ih
  | unary u _ ih => exact u.sharper ih
  | binary b _ _ ihp ihq => exact b.sharper ihp ihq

/-- A repetition of a parser that is known to succeed without consuming input is refused. -/
theorem exists_refusal (hq : q.RepeatedIn p) (hidle : q.facts.isIdle = true) (simplifying chained : Bool) :
    ∃ e, p.simplifyPass simplifying chained = .error e := by
  induction p generalizing chained with
  | leaf l => exact hq.elim
  | unary u p ih =>
    rw [simplifyPass]
    rcases hq with ⟨rfl, rfl⟩ | hq
    · cases hp : p.simplifyPass simplifying false with
      | error e => exact ⟨e, rfl⟩
      | ok n =>
        -- the parser comes first; what it has become is known to do no more than it
        obtain ⟨n, fired⟩ := n
        have hn : n.facts.isIdle = true := by
          rw [← n.facts_expr]
          exact (simplifies_of_simplifyPass hp).sharper.isIdle hidle
        have hcheck : Noted.checkRepeat (.unary .many n) = .error (.nonConsumingRepeat n.expr.name) :=
          if_pos hn
        obtain ⟨steps, hsteps⟩ : ∃ steps, Noted.maxLocalSteps = steps + 1 :=
          Nat.exists_eq_add_one.2 (by decide)
        refine ⟨.nonConsumingRepeat n.expr.name, ?_⟩
        show Noted.settle simplifying chained Noted.maxLocalSteps (.unary .many n) fired = _
        rw [hsteps, Noted.settle, hcheck]
        rfl
    · obtain ⟨e, he⟩ := ih hq false
      exact ⟨e, bind_eq_error_iff.2 (.inl he)⟩
  | binary b p p' ihp ihp' =>
    -- the right operand comes first, so its refusal is the one that is reported
    rw [simplifyPass]
    cases hp' : p'.simplifyPass simplifying (b.chainsRight p') with
    | error e => exact ⟨e, rfl⟩
    | ok n' =>
      rcases hq with hq | hq
      · obtain ⟨e, he⟩ := ihp hq (b.chainsLeft p)
        exact ⟨e, bind_eq_error_iff.2 (.inr ⟨n', rfl, bind_eq_error_iff.2 (.inl he)⟩)⟩
      · obtain ⟨e, he⟩ := ihp' hq (b.chainsRight p')
        rw [hp'] at he
        cases he

end Expr

namespace Bound

variable {b : Bound τ} {q : Expr τ}

theorem exists_refusal_subroutines {ss : List (Subroutine τ)} (hq : ∃ s ∈ ss, q.RepeatedIn s.body)
    (hidle : q.facts.isIdle = true) (simplifying : Bool) :
    ∃ e, simplifySubroutines simplifying ss = .error e := by
  induction ss with
  | nil =>
    obtain ⟨s, hs, -⟩ := hq
    cases hs
  | cons s ss ih =>
    rw [simplifySubroutines]
    cases hbody : s.body.simplifyPass simplifying false with
    | error e => exact ⟨e, rfl⟩
    | ok n =>
      obtain ⟨s', hs', hq⟩ := hq
      rcases List.mem_cons.1 hs' with rfl | hs'
      · obtain ⟨e, he⟩ := Expr.exists_refusal hq hidle simplifying false
        rw [hbody] at he
        cases he
      · obtain ⟨e, he⟩ := ih ⟨s', hs', hq⟩
        exact ⟨e, bind_eq_error_iff.2 (.inr ⟨n, rfl, bind_eq_error_iff.2 (.inl he)⟩)⟩

/-- A repetition of a parser that is known to succeed without consuming input is refused under all options. -/
theorem exists_refusal (hq : b.Repeats q) (hidle : q.facts.isIdle = true) (o : Options) :
    ∃ e, b.optimize o = .error e := by
  have hpass : ∃ e, b.simplifyPass o.optimize = .error e := by
    unfold simplifyPass
    cases hmain : b.main.simplifyPass o.optimize false with
    | error e => exact ⟨e, rfl⟩
    | ok n =>
      rcases hq with hq | hq
      · obtain ⟨e, he⟩ := Expr.exists_refusal hq hidle o.optimize false
        rw [hmain] at he
        cases he
      · obtain ⟨e, he⟩ := exists_refusal_subroutines hq hidle o.optimize
        exact ⟨e, bind_eq_error_iff.2 (.inr ⟨n, rfl, bind_eq_error_iff.2 (.inl he)⟩)⟩
  obtain ⟨e, he⟩ := hpass
  obtain ⟨passes, hpasses⟩ : ∃ passes, o.passes = passes + 1 :=
    Nat.exists_eq_add_one.2 (Nat.le_max_right o.maxPasses 1)
  refine ⟨e, ?_⟩
  unfold optimize
  rw [hpasses, optimizeFor]
  exact bind_eq_error_iff.2 (.inl he)

/-- More passes refuse what fewer do. -/
theorem optimizeFor_eq_error_mono {simplifying : Bool} {e : CompileError} {passes passes' : Nat}
    (hle : passes ≤ passes') {b : Bound τ} (h : b.optimizeFor simplifying passes = .error e) :
    b.optimizeFor simplifying passes' = .error e := by
  induction passes generalizing passes' b with
  | zero => cases h
  | succ passes ih =>
    obtain ⟨more, rfl⟩ := Nat.exists_eq_add_of_le hle
    rw [Nat.add_right_comm] at hle ⊢
    rw [optimizeFor] at h ⊢
    rcases bind_eq_error_iff.1 h with hpass | ⟨⟨b', n⟩, hpass, h⟩
    · exact bind_eq_error_iff.2 (.inl hpass)
    · refine bind_eq_error_iff.2 (.inr ⟨⟨b', n⟩, hpass, ?_⟩)
      dsimp only at h ⊢
      split at h
      · cases h
      · rw [if_neg ‹_›]
        exact ih (Nat.le_add_right passes more) h

end Bound

end ParserMachine

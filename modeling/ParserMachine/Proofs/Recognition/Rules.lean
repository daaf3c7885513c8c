import ParserMachine.Proofs.Recognition.Facts
import ParserMachine.Proofs.Recognition.Likeness
import ParserMachine.Proofs.Typing.Grammars

/-!
# Simplification keeps what is recognised

Each rule replaces an expression by one that recognises the same (`Expr.Rule.covers`), and so does
simplification as a whole (`Bound.Simplifies.covers`). Most rules keep the run as it is, or its verdict and the
place where it ends; those that rely on facts need the facts to be right, and one that leaves out a parser
needs to know that this is never stuck.
-/

namespace ParserMachine

variable {τ : Type} [Token τ]

open Reply

namespace Run

variable {p p' q q' : Run τ} {r r' : Reading τ}

/-! ### Forms inside forms -/

section Nested

variable {input : Array τ} {rounds : Nat}

theorem map_map (g f : Value τ → Value τ) (p : Run τ) :
    (Unary.map g).run input rounds ((Unary.map f).run input rounds p) =
      (Unary.map fun v => g (f v)).run input rounds p := by
  funext r
  unfold Unary.run andThen handle
  dsimp only
  cases p r with
  | none => rfl
  | some reply => cases reply <;> rfl

theorem lookAhead_lookAhead (p : Run τ) :
    Unary.lookAhead.run input rounds (Unary.lookAhead.run input rounds p) =
      Unary.lookAhead.run input rounds p := by
  funext r
  unfold Unary.run handle
  dsimp only
  cases p r with
  | none => rfl
  | some reply => cases reply <;> rfl

theorem denied_denied_covers (hp : p.Blind) :
    ((Unary.map fun _ => .unit).run input rounds (Unary.lookAhead.run input rounds p)).Covers
      (Unary.notFollowedBy.run input rounds (Unary.notFollowedBy.run input rounds p)) := by
  intro r r' hr
  have hbare : r.bare.bare.offset = r'.offset := hr
  unfold Unary.run andThen handle
  dsimp only
  refine (hp _ _ hbare).cases (fun h => ?_) (fun v r₁ r₁' h h' _ => ?_) (fun e e' r₁ r₁' h h' _ => ?_)
    fun h h' => ?_
  · simp only [h]
  · simp only [h, h']
    exact covered_done hr
  · simp only [h, h']
    exact covered_failed hr
  · simp only [h, h']
    exact covered_some trivial

theorem label_label_covers (name inner : Option String) (hp : p.Blind) :
    ((Unary.label name).run input rounds p).Covers
      ((Unary.label name).run input rounds ((Unary.label inner).run input rounds p)) := by
  intro r r' hr
  have hbare : r.bare.bare.offset = r'.bare.offset := hr
  unfold Unary.run handle
  dsimp only
  refine (hp _ _ hbare).cases (fun h => ?_) (fun v r₁ r₁' h h' hoffset => ?_)
    (fun e e' r₁ r₁' h h' hoffset => ?_) fun h h' => ?_
  · simp only [h]
  · simp only [h, h']
    exact covered_done hoffset
  · simp only [h, h']
    exact covered_failed hoffset
  · simp only [h, h']
    exact covered_some trivial

theorem attempt_covers (hp : p.Blind) (hatomic : ∀ r e r', p r = some (.failed e r') → r'.offset = r.offset) :
    p.Covers (Unary.attempt.run input rounds p) := by
  intro r r' hr
  unfold Unary.run handle
  refine (hp _ _ hr).cases (fun h => ?_) (fun v r₁ r₁' h h' hoffset => ?_)
    (fun e e' r₁ r₁' h h' hoffset => ?_) fun h h' => ?_
  · simp only [h]
  · simp only [h, h']
    exact covered_done hoffset
  · simp only [h, h']
    exact covered_failed ((hatomic r e r₁ h).symm.trans hoffset)
  · simp only [h, h']
    exact covered_some trivial

/-- Sequences may be grouped in either way if the values may. -/
theorem seq_assoc {kind : SeqKind τ}
    (hkind : ∀ u v w : Value τ, kind.value (kind.value u v) w = kind.value u (kind.value v w))
    (p q s : Run τ) :
    (Binary.seq kind).run ((Binary.seq kind).run p q) s =
      (Binary.seq kind).run p ((Binary.seq kind).run q s) := by
  funext r
  unfold Binary.run andThen handle
  dsimp only
  cases p r with
  | none => rfl
  | some reply =>
    cases reply with
    | done u r₁ =>
      dsimp only
      cases q r₁ with
      | none => rfl
      | some reply =>
        cases reply with
        | done v r₂ =>
          dsimp only
          cases s r₂ with
          | none => rfl
          | some reply =>
            cases reply with
            | done w r₃ =>
              dsimp only
              rw [hkind]
            | failed | stuck => rfl
        | failed | stuck => rfl
    | failed | stuck => rfl

theorem alt_lookAheads_covers (hp : p.Blind) (hq : q.Blind) :
    (Unary.lookAhead.run input rounds ((Unary.attempt.run input rounds p).orElse q)).Covers
      ((Unary.lookAhead.run input rounds p).orElse (Unary.lookAhead.run input rounds q)) := by
  intro r r' hr
  unfold Unary.run orElse handle
  dsimp only
  refine (hp _ _ hr).cases (fun h => ?_) (fun v r₁ r₁' h h' hoffset => ?_)
    (fun e e' r₁ r₁' h h' hoffset => ?_) fun h h' => ?_
  · simp only [h]
  · simp only [h, h']
    exact covered_done hr
  · -- the first parser has failed, and the input is given back to the second
    have hback : ((r.backTo r₁).hint e).offset = ((r'.backTo r₁').hint e').offset := hr
    simp only [h, h', show (r.backTo r₁).offset = r.offset from rfl,
      show (r'.backTo r₁').offset = r'.offset from rfl, if_true]
    refine (hq _ _ hback).cases (fun h => ?_) (fun v r₂ r₂' h h' _ => ?_)
      (fun e e' r₂ r₂' h h' _ => ?_) fun h h' => ?_
    · simp only [h]
    · simp only [h, h']
      exact covered_done hr
    · simp only [h, h']
      exact covered_failed hr
    · simp only [h, h']
      exact covered_some trivial
  · simp only [h, h']
    exact covered_some trivial

theorem alt_denied_covers (hp : p.Blind) (hq : q.Blind) :
    (Unary.notFollowedBy.run input rounds
        ((Binary.seq .right).run (Unary.lookAhead.run input rounds p) q)).Covers
      ((Unary.notFollowedBy.run input rounds p).orElse (Unary.notFollowedBy.run input rounds q)) := by
  intro r r' hr
  have hbare : r.bare.offset = r'.bare.offset := hr
  unfold Unary.run Binary.run orElse andThen handle
  dsimp only
  refine (hp _ _ hbare).cases (fun h => ?_) (fun v r₁ r₁' h h' hoffset => ?_)
    (fun e e' r₁ r₁' h h' hoffset => ?_) fun h h' => ?_
  · simp only [h]
  · -- the first parser has succeeded, and the input is given back to the second
    have hback : ((r.undo r₁).hint (.trivial r.offset (some (r.found input r₁)) .empty)).bare.offset =
        (r'.bare.backTo r₁').offset := hr
    simp only [h, h', show (r.undo r₁).offset = r.offset from rfl, if_true]
    refine (hq _ _ hback).cases (fun h => ?_) (fun w r₂ r₂' h h' _ => ?_)
      (fun e e' r₂ r₂' h h' _ => ?_) fun h h' => ?_
    · simp only [h]
    · simp only [h, h']
      exact covered_failed hr
    · simp only [h, h']
      exact covered_done hr
    · simp only [h, h']
      exact covered_some trivial
  · simp only [h, h']
    exact covered_done hr
  · simp only [h, h']
    exact covered_some trivial

end Nested

/-! ### Parts that do nothing -/

section Idle

variable {input : Array τ} {rounds : Nat}

/-- The parser fails in place, wherever it begins. -/
def FailsInPlace (p : Run τ) : Prop := ∀ r, ∃ e, p r = some (.failed e r)

theorem FailsInPlace.covers (hq : q.FailsInPlace) (hp : p.FailsInPlace) : q.Covers p := by
  intro r r' hr
  obtain ⟨e, he⟩ := hp r
  obtain ⟨e', he'⟩ := hq r'
  rw [he, he']
  exact covered_failed hr

theorem FailsInPlace.map (hp : p.FailsInPlace) (g : Value τ → Value τ) :
    ((Unary.map g).run input rounds p).FailsInPlace :=
  fun r => (hp r).imp fun _ he => handle_of_failed he

theorem FailsInPlace.seq (hp : p.FailsInPlace) (q : Run τ) (kind : SeqKind τ) :
    ((Binary.seq kind).run p q).FailsInPlace :=
  fun r => (hp r).imp fun _ he => handle_of_failed he

/-- A repetition of a parser that fails in place has no values. -/
theorem FailsInPlace.many_covers (hp : p.FailsInPlace) :
    Run.Covers (fun r => some (.done (.list #[]) r)) (Unary.many.run input rounds p) := by
  intro r r' hr
  show Covered (p.collect rounds #[] r) _
  cases rounds with
  | zero => exact covered_none
  | succ rounds =>
    obtain ⟨e, he⟩ := hp r
    unfold collect
    rw [handle_of_failed he, if_pos rfl]
    exact covered_done hr

/-- Before a parser that fails in place nothing is lost by leaving out one that succeeds in place. -/
theorem FailsInPlace.seq_covers (hq : q.FailsInPlace)
    (hp : ∀ r reply, p r = some reply → ∃ v r', reply = .done v r' ∧ r'.offset = r.offset) (kind : SeqKind τ) :
    q.Covers ((Binary.seq kind).run p q) := by
  intro r r' hr
  cases hpr : p r with
  | none =>
    rw [show Binary.run p q (.seq kind) r = none from handle_of_none hpr]
    exact covered_none
  | some reply =>
    obtain ⟨v, r₁, rfl, hr₁⟩ := hp r reply hpr
    obtain ⟨e, he⟩ := hq r₁
    obtain ⟨e', he'⟩ := hq r'
    have hseq : Binary.run p q (.seq kind) r = some (.failed e r₁) :=
      (handle_of_done hpr).trans (handle_of_failed he)
    rw [hseq, he']
    exact covered_failed (hr₁.trans hr)

/-- What a parser that fails in place leaves is a hint. -/
theorem FailsInPlace.orElse_covers (hp : p.FailsInPlace) (hq : q.Blind) : q.Covers (p.orElse q) := by
  intro r r' hr
  obtain ⟨e, he⟩ := hp r
  have horElse : p.orElse q r = q (r.hint e) := by
    unfold orElse
    rw [handle_of_failed he, if_pos rfl]
  rw [horElse]
  exact hq _ r' hr

theorem FailsInPlace.covers_orElse (hq : q.FailsInPlace) (hp : p.Blind) : p.Covers (p.orElse q) := by
  intro r r' hr
  refine covered_of_orElse (hp r r' hr) fun r₁ reply hr₁ h => ?_
  obtain ⟨e, he⟩ := hq r₁
  cases he.symm.trans h
  exact ⟨e, r₁, rfl, hr₁⟩

/-- Behind a parser that does not fail there is nothing to try. -/
theorem covers_orElse_of_not_failed (hp : p.Blind) (hcan : ∀ r e r', p r ≠ some (.failed e r')) (q : Run τ) :
    p.Covers (p.orElse q) := by
  intro r r' hr
  unfold orElse handle
  refine (hp _ _ hr).cases (fun h => ?_) (fun v r₁ r₁' h h' hoffset => ?_)
    (fun e e' r₁ r₁' h _ _ => ?_) fun h h' => ?_
  · simp only [h]
  · simp only [h, h']
    exact covered_done hoffset
  · exact absurd h (hcan r e r₁)
  · simp only [h, h']
    exact covered_some trivial

end Idle

end Run

namespace Expr

variable {p q : Expr τ}

theorem IsFailing.failsInPlace (h : p.IsFailing) (x : Setting τ) : (p.run x).FailsInPlace := by
  intro r
  cases h with
  | empty => exact ⟨_, congrFun (run_leaf x .empty) r⟩
  | fail f => exact ⟨_, congrFun (run_leaf x (.fail f)) r⟩

section Covers

variable {x : Setting τ} (hx : x.target.options.dispatchTables = false)
include hx

variable (hcall : ∀ l, (x.ofCall l).Blind)
include hcall

theorem blind_run (hp : p.Without Unary.Captures) : (p.run x).Blind := covers_run hx hx rfl rfl hcall hp

variable {S : Nat → Value τ → Prop} (hkeeps : ∀ l, (x.ofCall l).Keeps (S l))
include hkeeps

/-- What a rule puts in the place of an expression recognises the same. -/
theorem Rule.covers (h : Rule p q) (hp : p.Typed S) (hfree : p.Without Unary.Captures) :
    (q.run x).Covers (p.run x) := by
  have hblind := blind_run hx hcall (h.without Unary.foreign_captures hfree)
  have hsame (heq : p.run x = q.run x) : (q.run x).Covers (p.run x) := by
    rw [heq]
    exact hblind
  cases h with
  | mapPure g v =>
    rw [run_unary, run_leaf, run_leaf]
    exact fun r r' hr => covered_done hr
  | mapMap g f p =>
    refine hsame ?_
    rw [run_unary, run_unary, run_unary]
    exact Run.map_map g f _
  | mapFailing g hfails =>
    rw [run_unary]
    exact (hfails.failsInPlace x).covers ((hfails.failsInPlace x).map g)
  | lookAheadTwice p =>
    refine hsame ?_
    rw [run_unary, run_unary]
    exact Run.lookAhead_lookAhead _
  | lookAheadPure v =>
    rw [run_unary, run_leaf]
    exact fun r r' hr => covered_done hr
  | deniedTwice p =>
    rw [run_unary, run_unary, run_unary, run_unary]
    exact Run.denied_denied_covers (blind_run hx hcall hfree.2.2)
  | attemptAtomic hatomic =>
    rw [run_unary]
    exact Run.attempt_covers hblind ((facts_describe hx q).atomic hatomic)
  | labelTwice name inner p =>
    rw [run_unary, run_unary, run_unary]
    exact Run.label_label_covers name inner (blind_run hx hcall hfree.2.2)
  | manyEmpty =>
    rw [run_unary, run_leaf]
    exact (IsFailing.empty.failsInPlace x).many_covers
  | chunkPure v =>
    rw [run_unary, run_leaf, run_leaf]
    intro r r' hr
    have hspan : r.span x.input r = .chunk [] := by
      unfold Reading.span
      simp
    show Covered (some (.done (r.span x.input r) r)) _
    rw [hspan]
    exact covered_done hr
  | seqFailing kind q hfails =>
    rw [run_seq]
    exact (hfails.failsInPlace x).covers ((hfails.failsInPlace x).seq _ kind)
  | @seqIdle kind p q hfails hidle =>
    obtain ⟨hcan, hconsume⟩ : p.facts.canFail = false ∧ p.facts.mayConsume = false := by
      simpa [Facts.isIdle] using hidle
    have hfacts := facts_describe hx p
    rw [run_seq]
    refine (hfails.failsInPlace x).seq_covers (fun r reply hreply => ?_) kind
    cases reply with
    | done v r₁ => exact ⟨v, r₁, rfl, hfacts.mayConsume hconsume r v r₁ hreply⟩
    | failed e r₁ => exact absurd hreply (hfacts.canFail hcan r e r₁)
    | stuck => exact absurd hreply fun h => run_keeps hkeeps hp.1 r _ h
  | dropFirst v q =>
    refine hsame ?_
    rw [run_seq, run_leaf]
    exact funext (Run.handle_self (q.run x))
  | dropSecond p w =>
    refine hsame ?_
    rw [run_seq, run_leaf]
    exact funext (Run.handle_self (q.run x))
  | mapFirst kind v q =>
    refine hsame ?_
    rw [run_seq, run_leaf, run_unary]
    rfl
  | mapSecond kind p w =>
    refine hsame ?_
    rw [run_seq, run_leaf, run_unary]
    rfl
  | nestLeft p q s =>
    refine hsame ?_
    rw [run_seq, run_seq, run_seq, run_seq]
    exact Run.seq_assoc (fun _ _ _ => rfl) _ _ _
  | nestRight p q s =>
    refine hsame ?_
    rw [run_seq, run_seq, run_seq, run_seq]
    exact Run.seq_assoc (fun _ _ _ => rfl) _ _ _
  | nestAlt p q s =>
    refine hsame ?_
    simp only [run_alt_of_noTables x hx]
    exact Run.orElse_assoc _ _ _
  | unnestAlt p q s =>
    refine hsame ?_
    simp only [run_alt_of_noTables x hx]
    exact (Run.orElse_assoc _ _ _).symm
  | emptyFirst q =>
    rw [run_alt_of_noTables x hx]
    exact (IsFailing.empty.failsInPlace x).orElse_covers hblind
  | emptySecond p =>
    rw [run_alt_of_noTables x hx]
    exact (IsFailing.empty.failsInPlace x).covers_orElse hblind
  | settled q hcan =>
    rw [run_alt_of_noTables x hx]
    exact Run.covers_orElse_of_not_failed hblind ((facts_describe hx _).canFail hcan) _
  | joinLookAheads p q =>
    simp only [run_alt_of_noTables x hx, run_unary]
    exact Run.alt_lookAheads_covers (blind_run hx hcall hfree.1.2) (blind_run hx hcall hfree.2.2)
  | joinDenied p q =>
    rw [run_alt_of_noTables x hx, run_unary, run_unary, run_unary, run_seq, run_unary]
    exact Run.alt_denied_covers (blind_run hx hcall hfree.1.2) (blind_run hx hcall hfree.2.2)

/-- A simplified expression recognises the same. -/
theorem Simplifies.covers (h : Simplifies p q) (hp : p.Typed S) (hfree : p.Without Unary.Captures) :
    (q.run x).Covers (p.run x) := by
  induction h with
  | refl p => exact blind_run hx hcall hfree
  | rule h => exact h.covers hx hcall hkeeps hp hfree
  | trans h _ ih ih' => exact (ih hp hfree).trans (ih' (h.typed hp) (h.without Unary.foreign_captures hfree))
  | unary u _ ih =>
    rw [run_unary, run_unary]
    exact Unary.covers_run (ih hp hfree.2) x.rounds hfree.1
  | binary b _ _ ihp ihq =>
    rw [run_binary_of_noTables x hx, run_binary_of_noTables x hx]
    exact Binary.covers_run (ihp hp.1 hfree.1) (ihq hp.2.1 hfree.2) b

end Covers

end Expr

namespace Bound

variable {S : Nat → Value τ → Prop} {b b' : Bound τ}

section Covers

variable {o : Options} (ho : o.dispatchTables = false) (hfree : b.Without Unary.Captures)
include ho hfree

/-- What subroutines recognise does not depend on hints. -/
theorem Without.blind_callsAt (input : Array τ) (depth l : Nat) :
    (Expr.callsAt ⟨o, b.subroutines.toArray⟩ input depth l).Blind := by
  induction depth generalizing l with
  | zero =>
    refine Expr.callsAt_induct (P := Run.Blind) (Run.covers_never _) (fun s _ => ?_) l
    exact Run.covers_never _
  | succ depth ih =>
    refine Expr.callsAt_induct (P := Run.Blind) (Run.covers_never _) (fun s hs => ?_) l
    have hbody := hfree.bodies s (List.mem_toArray.1 hs)
    exact Expr.blind_run (x := Expr.settingAt ⟨o, b.subroutines.toArray⟩ input depth) ho ih hbody

variable (htyped : b.Typed S)
include htyped

/-- A simplified expression over subroutines that recognise the same recognises the same. -/
theorem run_covers {input : Array τ} {depth : Nat}
    (hcall : ∀ l, (Expr.callsAt ⟨o, b'.subroutines.toArray⟩ input depth l).Covers
      (Expr.callsAt ⟨o, b.subroutines.toArray⟩ input depth l)) {p q : Expr τ} (h : p.Simplifies q)
    (hp : p.Typed S) (hpfree : p.Without Unary.Captures) :
    (q.evalAt ⟨o, b'.subroutines.toArray⟩ input (depth + 1)).Covers
      (p.evalAt ⟨o, b.subroutines.toArray⟩ input (depth + 1)) := by
  have hrules := h.covers (x := Expr.settingAt ⟨o, b.subroutines.toArray⟩ input depth) ho
    (hfree.blind_callsAt ho input depth) (htyped.callsAt_keeps o input depth) hp hpfree
  have hcalls := Expr.covers_run (x := Expr.settingAt ⟨o, b.subroutines.toArray⟩ input depth)
    (y := Expr.settingAt ⟨o, b'.subroutines.toArray⟩ input depth) ho ho rfl rfl hcall (h.without Unary.foreign_captures hpfree)
  exact hrules.trans hcalls

variable (hb : b.Simplifies b')
include hb

theorem Simplifies.callsAt_covers (input : Array τ) (depth l : Nat) :
    (Expr.callsAt ⟨o, b'.subroutines.toArray⟩ input depth l).Covers
      (Expr.callsAt ⟨o, b.subroutines.toArray⟩ input depth l) := by
  induction depth generalizing l with
  | zero =>
    have hnever : Expr.callsAt ⟨o, b.subroutines.toArray⟩ input 0 l = .never := by
      unfold Expr.callsAt
      split <;> rfl
    rw [hnever]
    exact Run.covers_never _
  | succ depth ih =>
    cases hs : b.subroutines[l]? with
    | none =>
      have hnever : Expr.callsAt ⟨o, b.subroutines.toArray⟩ input (depth + 1) l = .never := by
        unfold Expr.callsAt
        rw [List.getElem?_toArray, hs]
      rw [hnever]
      exact Run.covers_never _
    | some s =>
      obtain ⟨s', hs', hsimplifies⟩ := getElem?_of_forall₂ hb.subroutines hs
      rw [Expr.callsAt_of_getElem? (by rw [List.getElem?_toArray]; exact hs'),
        Expr.callsAt_of_getElem? (by rw [List.getElem?_toArray]; exact hs)]
      exact run_covers ho hfree htyped ih hsimplifies.body (htyped.bodies l s hs).1
        (hfree.bodies s (List.mem_of_getElem? hs))

/-- Simplified trees recognise the same. -/
theorem Simplifies.covers (input : Array τ) (depth : Nat) :
    (b'.main.evalAt ⟨o, b'.subroutines.toArray⟩ input depth).Covers
      (b.main.evalAt ⟨o, b.subroutines.toArray⟩ input depth) := by
  cases depth with
  | zero => exact Run.covers_never _
  | succ depth =>
    exact run_covers ho hfree htyped (hb.callsAt_covers ho hfree htyped input depth) hb.main htyped.main
      hfree.main

end Covers

end Bound

end ParserMachine

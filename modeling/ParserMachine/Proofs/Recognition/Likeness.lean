import Mathlib.Data.List.Forall2
import ParserMachine.Proofs.Compiling.Forms
import ParserMachine.Proofs.Meaning.Tree

/-!
# What is recognised

Two replies are alike if they differ in errors, hints and renewals only (`Reply.Like`): both succeed with one
value or both fail, and they have consumed as much. One parser covers another if it comes to a like reply
wherever the other comes to one, whatever hints they were begun with (`Run.Covers`). Forms of parsers that are
covered are covered (`Unary.covers_run`, `Binary.covers_run`), as long as no error is captured: a captured
error is a value.
-/

namespace ParserMachine

variable {τ : Type} [Token τ]

/-- The replies are the same but for errors, hints and renewals. -/
def Reply.Like : Reply τ → Reply τ → Prop
  | done v r, done v' r' => v = v' ∧ r.offset = r'.offset
  | failed _ r, failed _ r' => r.offset = r'.offset
  | stuck, stuck => True
  | _, _ => False

/-- The reply is a failure at the place `i`. -/
def Reply.FailedAt (i : Nat) (reply : Reply τ) : Prop := ∃ e r, reply = failed e r ∧ r.offset = i

/-- If the first parser comes to a reply, so does the second, to a like one. -/
def Reply.Covered (x y : Option (Reply τ)) : Prop := ∀ reply ∈ x, ∃ reply' ∈ y, reply.Like reply'

namespace Reply

variable {a b c : Reply τ} {x y z : Option (Reply τ)} {v : Value τ} {e e' : ParseError τ}
  {r r' : Reading τ}

theorem Like.eq_done (h : Like (.done v r) b) : ∃ r', b = .done v r' ∧ r.offset = r'.offset := by
  cases b with
  | done w r' =>
    obtain ⟨rfl, hr⟩ := h
    exact ⟨r', rfl, hr⟩
  | failed | stuck => exact False.elim h

theorem Like.eq_failed (h : Like (.failed e r) b) :
    ∃ e' r', b = .failed e' r' ∧ r.offset = r'.offset := by
  cases b with
  | failed e' r' => exact ⟨e', r', rfl, h⟩
  | done | stuck => exact False.elim h

theorem Like.eq_stuck (h : Like .stuck b) : b = .stuck := by
  cases b with
  | stuck => rfl
  | done | failed => exact False.elim h

theorem Like.trans (h : a.Like b) (h' : b.Like c) : a.Like c := by
  cases a with
  | done v r =>
    obtain ⟨r', rfl, hr⟩ := h.eq_done
    obtain ⟨r'', rfl, hr'⟩ := h'.eq_done
    exact ⟨rfl, hr.trans hr'⟩
  | failed e r =>
    obtain ⟨e', r', rfl, hr⟩ := h.eq_failed
    obtain ⟨e'', r'', rfl, hr'⟩ := h'.eq_failed
    exact hr.trans hr'
  | stuck =>
    obtain rfl := h.eq_stuck
    exact h'

theorem Covered.trans (h : Covered x y) (h' : Covered y z) : Covered x z := by
  intro a ha
  obtain ⟨b, hb, hab⟩ := h a ha
  obtain ⟨c, hc, hbc⟩ := h' b hb
  exact ⟨c, hc, hab.trans hbc⟩

theorem covered_none : Covered none y := nofun

theorem covered_some (h : a.Like b) : Covered (some a) (some b) := by
  intro c hc
  cases hc
  exact ⟨b, rfl, h⟩

theorem covered_done (h : r.offset = r'.offset) : Covered (some (done v r)) (some (done v r')) :=
  covered_some ⟨rfl, h⟩

theorem covered_failed (h : r.offset = r'.offset) :
    Covered (some (failed e r)) (some (failed e' r')) := covered_some h

/-- The cases of two replies of which one covers the other. -/
theorem Covered.cases {a b : Option (Reply τ)} (h : Covered a b) (hnone : a = none → x = none)
    (hdone : ∀ v r r', a = some (.done v r) → b = some (.done v r') → r.offset = r'.offset → Covered x y)
    (hfailed : ∀ e e' r r', a = some (.failed e r) → b = some (.failed e' r') → r.offset = r'.offset →
      Covered x y)
    (hstuck : a = some .stuck → b = some .stuck → Covered x y) : Covered x y := by
  cases a with
  | none =>
    rw [hnone rfl]
    exact covered_none
  | some reply =>
    obtain ⟨reply', hb, hlike⟩ := h reply rfl
    cases reply with
    | done v r =>
      obtain ⟨r', rfl, hoffset⟩ := hlike.eq_done
      exact hdone v r r' rfl hb hoffset
    | failed e r =>
      obtain ⟨e', r', rfl, hoffset⟩ := hlike.eq_failed
      exact hfailed e e' r r' rfl hb hoffset
    | stuck =>
      obtain rfl := hlike.eq_stuck
      exact hstuck rfl hb

end Reply

open Reply

namespace Run

/-- The second parser does what the first one does, wherever it is begun at the same place. -/
def Covers (q p : Run τ) : Prop := ∀ r r' : Reading τ, r.offset = r'.offset → Covered (p r) (q r')

/-- What the parser recognises does not depend on hints. -/
def Blind (p : Run τ) : Prop := p.Covers p

variable {p q p' q' s : Run τ} {r r' : Reading τ}

theorem covers_never (q : Run τ) : q.Covers never := fun _ _ _ => covered_none

theorem Covers.trans (h : q.Covers p) (h' : s.Covers q) : s.Covers p :=
  fun r r' hr => (h r r' hr).trans (h' r' r' rfl)

/-- A covered parser goes on as the one that covers it. -/
theorem covered_handle (hp : Covered (p r) (p' r'))
    {onDone onDone' : Value τ → Reading τ → Option (Reply τ)}
    {onFailed onFailed' : ParseError τ → Reading τ → Option (Reply τ)}
    (hd : ∀ v r₁ r₁', r₁.offset = r₁'.offset → Covered (onDone v r₁) (onDone' v r₁'))
    (hf : ∀ e e' r₁ r₁', r₁.offset = r₁'.offset → Covered (onFailed e r₁) (onFailed' e' r₁')) :
    Covered (p.handle r onDone onFailed) (p'.handle r' onDone' onFailed') := by
  refine hp.cases handle_of_none (fun v r₁ r₁' h h' hoffset => ?_)
    (fun e e' r₁ r₁' h h' hoffset => ?_) fun h h' => ?_
  · rw [handle_of_done h, handle_of_done h']
    exact hd v r₁ r₁' hoffset
  · rw [handle_of_failed h, handle_of_failed h']
    exact hf e e' r₁ r₁' hoffset
  · rw [handle_of_stuck h, handle_of_stuck h']
    exact covered_some trivial

theorem covered_andThen (hp : Covered (p r) (p' r'))
    {onDone onDone' : Value τ → Reading τ → Option (Reply τ)}
    (hd : ∀ v r₁ r₁', r₁.offset = r₁'.offset → Covered (onDone v r₁) (onDone' v r₁')) :
    Covered (p.andThen r onDone) (p'.andThen r' onDone') :=
  covered_handle hp hd fun _ _ _ _ h => covered_failed h

/-- The second parser does what the first one does, wherever it is begun at the place `i`. -/
def CoversAt (i : Nat) (q p : Run τ) : Prop :=
  ∀ r r' : Reading τ, r.offset = i → r'.offset = i → Covered (p r) (q r')

variable {i : Nat}

theorem Covers.coversAt (h : q.Covers p) (i : Nat) : q.CoversAt i p :=
  fun r r' hr hr' => h r r' (hr.trans hr'.symm)

theorem covers_of_coversAt (h : ∀ i, q.CoversAt i p) : q.Covers p :=
  fun r r' hr => h r'.offset r r' hr rfl

theorem CoversAt.trans (h : q.CoversAt i p) (h' : s.CoversAt i q) : s.CoversAt i p :=
  fun r r' hr hr' => (h r r' hr hr').trans (h' r' r' hr' hr')

theorem CoversAt.orElse (hp : p'.CoversAt i p) (hq : q'.CoversAt i q) :
    (p'.orElse q').CoversAt i (p.orElse q) := by
  intro r r' hr hr'
  refine covered_handle (hp r r' hr hr') (fun v r₁ r₁' h => covered_done h) fun e e' r₁ r₁' h => ?_
  rw [h, hr, hr']
  split
  · rename_i hplace
    exact hq _ _ (h.trans hplace) hplace
  · exact covered_failed h

theorem covers_orElse (hp : p'.Covers p) (hq : q'.Covers q) : (p'.orElse q').Covers (p.orElse q) :=
  covers_of_coversAt fun i => (hp.coversAt i).orElse (hq.coversAt i)

/-- Behind a parser nothing is lost that fails in place. -/
theorem covered_of_orElse {y : Option (Reply τ)} (h : Covered (p r) y)
    (hq : ∀ r₁ reply, r₁.offset = r.offset → q r₁ = some reply → reply.FailedAt r.offset) :
    Covered (p.orElse q r) y := by
  refine h.cases handle_of_none (fun v r₁ r' h h' hoffset => ?_)
    (fun e e' r₁ r' h h' hoffset => ?_) fun h h' => ?_
  · rw [h', show p.orElse q r = _ from handle_of_done h]
    exact covered_done hoffset
  · rw [h', show p.orElse q r = _ from handle_of_failed h]
    split
    · rename_i hplace
      intro reply hreply
      obtain ⟨e₂, r₂, rfl, hr₂⟩ := hq (r₁.hint e) _ hplace hreply
      exact ⟨_, rfl, (hr₂.trans hplace.symm).trans hoffset⟩
    · exact covered_failed hoffset
  · rw [h', show p.orElse q r = _ from handle_of_stuck h]
    exact covered_some trivial

/-- What fails in place may stand behind a parser. -/
theorem covered_orElse {x : Option (Reply τ)} (h : Covered x (p r))
    (hq : ∀ r₁, r₁.offset = r.offset → ∃ reply, q r₁ = some reply ∧ reply.FailedAt r.offset) :
    Covered x (p.orElse q r) := by
  refine h.cases id (fun v r' r₁ h h' hoffset => ?_) (fun e e' r' r₁ h h' hoffset => ?_) fun h h' => ?_
  · rw [h, show p.orElse q r = _ from handle_of_done h']
    exact covered_done hoffset
  · rw [h, show p.orElse q r = _ from handle_of_failed h']
    split
    · rename_i hplace
      obtain ⟨_, hreply, e₂, r₂, rfl, hr₂⟩ := hq (r₁.hint e') hplace
      rw [hreply]
      exact covered_failed (hoffset.trans (hplace.trans hr₂.symm))
    · exact covered_failed hoffset
  · rw [h, show p.orElse q r = _ from handle_of_stuck h']
    exact covered_some trivial

theorem covers_inOrder {ps ps' : List (Run τ)} (h : List.Forall₂ (fun p p' => p'.Covers p) ps ps') :
    (inOrder ps').Covers (inOrder ps) := by
  induction h with
  | nil => exact fun _ _ hr => covered_failed hr
  | cons hp hps ih =>
    cases hps with
    | nil => exact hp
    | cons => exact covers_orElse hp ih

theorem covers_collect (hp : p'.Covers p) (rounds : Nat) (items : Array (Value τ)) :
    (p'.collect rounds items).Covers (p.collect rounds items) := by
  induction rounds generalizing items with
  | zero => exact covers_never _
  | succ rounds ih =>
    intro r r' hr
    refine covered_handle (hp _ _ hr) (fun v r₁ r₁' h => ?_) fun e e' r₁ r₁' h => ?_
    · rw [h, hr]
      split
      · exact covered_done h
      · exact ih _ _ _ h
    · rw [h, hr]
      split
      · exact covered_done h
      · exact covered_failed h

end Run

/-! ### Forms -/

section Forms

variable {p q p' q' : Run τ} {input : Array τ}

theorem Leaf.covers_run {ofCall ofCall' : Nat → Run τ} (hcall : ∀ l, (ofCall' l).Covers (ofCall l))
    (l : Leaf τ) : (l.run input ofCall').Covers (l.run input ofCall) := by
  intro r r' hr
  have hcurrent : r'.current? input = r.current? input := by
    unfold Reading.current?
    rw [hr]
  have hone (accept : τ → Bool) (e : ExpectedSet τ) :
      Covered (Run.one input accept e r) (Run.one input accept e r') := by
    unfold Run.one
    rw [hcurrent]
    split
    · split
      · exact covered_done (congrArg (· + 1) hr)
      · exact covered_failed hr
    · exact covered_failed hr
  cases l with
  | pure v => exact covered_done hr
  | fail | empty => exact covered_failed hr
  | satisfy test e => exact hone _ _
  | single t e => exact hone _ _
  | literal ts v e =>
    unfold Leaf.run Run.literal
    dsimp only
    rw [← hr]
    split
    · exact covered_done rfl
    · exact covered_failed rfl
  | eof =>
    show Covered (Run.endOfInput input r) (Run.endOfInput input r')
    unfold Run.endOfInput
    rw [hcurrent]
    split
    · exact covered_failed hr
    · exact covered_done hr
  | call l => exact hcall l r r' hr

/-- Whether the form captures errors. -/
def Unary.Captures : Unary τ → Prop
  | guard .capture => True
  | _ => False

theorem Unary.foreign_captures : Unary.Foreign (Unary.Captures : Unary τ → Prop) := ⟨fun _ => id, id, id⟩

theorem Unary.covers_run (hp : p'.Covers p) (rounds : Nat) {u : Unary τ} (hu : ¬ u.Captures) :
    (u.run input rounds p').Covers (u.run input rounds p) := by
  intro r r' hr
  have hspan {r₁ r₁' : Reading τ} (h : r₁.offset = r₁'.offset) : r.span input r₁ = r'.span input r₁' := by
    unfold Reading.span
    rw [hr, h]
  have hbare : r.bare.offset = r'.bare.offset := hr
  cases u with
  | many => exact Run.covers_collect hp rounds #[] r r' hr
  | map f => exact Run.covered_andThen (hp _ _ hr) fun v r₁ r₁' h => covered_done h
  | chunk =>
    refine Run.covered_andThen (hp _ _ hr) fun v r₁ r₁' h => ?_
    rw [hspan h]
    exact covered_done h
  | matchChunk =>
    refine Run.covered_andThen (hp _ _ hr) fun v r₁ r₁' h => ?_
    rw [hspan h]
    exact covered_done h
  | lookAhead =>
    exact Run.covered_handle (hp _ _ hr) (fun v _ _ _ => covered_done hr) fun _ _ _ _ _ => covered_failed hr
  | notFollowedBy =>
    exact Run.covered_handle (hp _ _ hbare) (fun v _ _ _ => covered_failed hr) fun _ _ _ _ _ => covered_done hr
  | attempt =>
    exact Run.covered_handle (hp _ _ hr) (fun v _ _ h => covered_done h) fun _ _ _ _ _ => covered_failed hr
  | label name =>
    exact Run.covered_handle (hp _ _ hbare) (fun v _ _ h => covered_done h) fun _ _ _ _ h => covered_failed h
  | guard mode =>
    cases mode with
    | capture => exact absurd trivial hu
    | amend | merge =>
      exact Run.covered_handle (hp _ _ hbare) (fun v _ _ h => covered_done h) fun _ _ _ _ h => covered_failed h

theorem Binary.covers_run (hp : p'.Covers p) (hq : q'.Covers q) (b : Binary τ) :
    (b.run p' q').Covers (b.run p q) := by
  intro r r' hr
  cases b with
  | seq kind =>
    exact Run.covered_andThen (hp _ _ hr) fun v _ _ h =>
      Run.covered_andThen (hq _ _ h) fun w _ _ h => covered_done h
  | alt => exact Run.covers_orElse hp hq r r' hr
  | branch f =>
    refine Run.covered_andThen (hp _ _ hr) fun v _ _ h => ?_
    cases v with
    | leftBranch v => exact Run.covered_andThen (hq _ _ h) fun w _ _ h => covered_done h
    | rightBranch v => exact covered_done h
    | _ => exact covered_some trivial

end Forms

/-! ### Trees without tables -/

namespace Expr

/-- What calls do more, expressions do more. -/
theorem covers_run {x y : Setting τ} (hx : x.target.options.dispatchTables = false)
    (hy : y.target.options.dispatchTables = false) (hinput : x.input = y.input)
    (hrounds : x.rounds = y.rounds) (hcall : ∀ l, (y.ofCall l).Covers (x.ofCall l)) {p : Expr τ}
    (hp : p.Without Unary.Captures) : (p.run y).Covers (p.run x) := by
  induction p with
  | leaf l =>
    rw [run_leaf, run_leaf, ← hinput]
    exact Leaf.covers_run hcall l
  | unary u p ih =>
    rw [run_unary, run_unary, ← hinput, ← hrounds]
    exact Unary.covers_run (ih hp.2) x.rounds hp.1
  | binary b p q ihp ihq =>
    rw [run_binary_of_noTables x hx, run_binary_of_noTables y hy]
    exact Binary.covers_run (ihp hp.1) (ihq hp.2) b

end Expr

end ParserMachine

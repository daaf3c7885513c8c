import ParserMachine.Proofs.Binding.Induction
import ParserMachine.Proofs.Compiling.Calls
import ParserMachine.Proofs.Typing.Values

/-!
# Typed grammars

A grammar is type-correct if its nodes can be given types such that each node yields values of its type and
branches look at verdicts (`Grammar.TypeCorrect`). The trees of such a grammar are typed
(`Grammar.TypeCorrect.bind`), they stay so when they are simplified (`Bound.Typed.simplifies`), and what is
typed is never stuck (`Bound.Typed.evalAt_ne_stuck`).
-/

namespace ParserMachine

variable {τ : Type} [Token τ]

/-! ### Smaller types -/

section Smaller

variable {T T' U U' : Value τ → Prop} {v : Value τ}

theorem Unary.Yields.mono (hT : ∀ v, T v → T' v) {u : Unary τ} (h : u.Yields T v) :
    u.Yields T' v := by
  cases u with
  | map f =>
    obtain ⟨w, hw, rfl⟩ := h
    exact ⟨w, hT w hw, rfl⟩
  | lookAhead | attempt | label => exact hT v h
  | notFollowedBy | chunk => exact h
  | many =>
    obtain ⟨items, hitems, rfl⟩ := h
    exact ⟨items, fun w hw => hT w (hitems w hw), rfl⟩
  | matchChunk =>
    obtain ⟨ts, w, hw, rfl⟩ := h
    exact ⟨ts, w, hT w hw, rfl⟩
  | guard mode =>
    cases mode with
    | capture =>
      rcases h with ⟨w, hw, rfl⟩ | herr
      · exact .inl ⟨w, hT w hw, rfl⟩
      · exact .inr herr
    | amend | merge => exact hT v h

theorem Binary.Yields.mono (hT : ∀ v, T v → T' v) (hU : ∀ v, U v → U' v) {b : Binary τ}
    (h : b.Yields T U v) : b.Yields T' U' v := by
  cases b with
  | seq kind =>
    obtain ⟨w, x, hw, hx, rfl⟩ := h
    exact ⟨w, x, hT w hw, hU x hx, rfl⟩
  | alt => exact h.imp (hT v) (hU v)
  | branch f =>
    rcases h with ⟨w, x, hw, hx, rfl⟩ | hright
    · exact .inl ⟨w, x, hT _ hw, hU x hx, rfl⟩
    · exact .inr (hT _ hright)

theorem Binary.Typed.anti (hT : ∀ v, T v → T' v) {b : Binary τ} (h : b.Typed T') : b.Typed T := by
  cases b with
  | branch f => exact fun v hv => h v (hT v hv)
  | seq | alt => trivial

end Smaller

/-! ### Simplification -/

namespace Expr

variable {S : Nat → Value τ → Prop} {p q : Expr τ} {v : Value τ}

theorem IsFailing.not_yields (h : p.IsFailing) : ¬ p.Yields S v := by
  cases h <;> exact id

theorem Rule.yields (h : Rule p q) (hq : q.Yields S v) : p.Yields S v := by
  cases h with
  | mapPure g w =>
    cases hq
    exact ⟨w, rfl, rfl⟩
  | mapMap g f p =>
    obtain ⟨w, hw, rfl⟩ := hq
    exact ⟨f w, ⟨w, hw, rfl⟩, rfl⟩
  | mapFailing g hp => exact (hp.not_yields hq).elim
  | lookAheadTwice | lookAheadPure | attemptAtomic | labelTwice | joinLookAheads => exact hq
  | deniedTwice p =>
    obtain ⟨w, -, rfl⟩ := hq
    rfl
  | manyEmpty =>
    cases hq
    exact ⟨#[], nofun, rfl⟩
  | chunkPure w =>
    cases hq
    exact ⟨[], rfl⟩
  | seqFailing kind q hp => exact (hp.not_yields hq).elim
  | seqIdle kind hfails => exact (hfails.not_yields hq).elim
  | dropFirst w q => exact ⟨w, v, rfl, hq, rfl⟩
  | dropSecond p w => exact ⟨v, w, hq, rfl, rfl⟩
  | mapFirst kind w q =>
    obtain ⟨x, hx, rfl⟩ := hq
    exact ⟨w, x, rfl, hx, rfl⟩
  | mapSecond kind p w =>
    obtain ⟨x, hx, rfl⟩ := hq
    exact ⟨x, w, hx, rfl, rfl⟩
  | nestLeft p q s =>
    obtain ⟨x, _, hx, ⟨y, z, hy, hz, -⟩, hv⟩ := hq
    exact ⟨x, z, ⟨x, y, hx, hy, rfl⟩, hz, hv⟩
  | nestRight p q s =>
    obtain ⟨x, w, hx, ⟨y, z, hy, hz, hw⟩, hv⟩ := hq
    exact ⟨y, z, ⟨x, y, hx, hy, rfl⟩, hz, hv.trans hw⟩
  | nestAlt p q s => exact or_assoc.2 hq
  | unnestAlt p q s => exact or_assoc.1 hq
  | emptyFirst q => exact .inr hq
  | emptySecond p => exact .inl hq
  | settled q hp => exact .inl hq
  | joinDenied p q => exact .inl hq

theorem Rule.typed (h : Rule p q) (hp : p.Typed S) : q.Typed S := by
  cases h with
  | mapPure | lookAheadPure | manyEmpty | chunkPure => trivial
  | mapMap | mapFailing | lookAheadTwice | deniedTwice | attemptAtomic | labelTwice => exact hp
  | seqFailing | dropSecond | mapSecond | emptySecond | settled => exact hp.1
  | seqIdle | dropFirst | mapFirst | emptyFirst => exact hp.2.1
  | nestLeft | nestRight | nestAlt => exact ⟨hp.1.1, ⟨hp.1.2.1, hp.2.1, trivial⟩, trivial⟩
  | unnestAlt => exact ⟨⟨hp.1, hp.2.1.1, trivial⟩, hp.2.1.2.1, trivial⟩
  | joinLookAheads | joinDenied => exact ⟨hp.1, hp.2.1, trivial⟩

theorem Simplifies.yields (h : Simplifies p q) (hq : q.Yields S v) : p.Yields S v := by
  induction h generalizing v with
  | refl p => exact hq
  | rule h => exact h.yields hq
  | trans _ _ ih ih' => exact ih (ih' hq)
  | unary u _ ih => exact Unary.Yields.mono (fun _ => ih) hq
  | binary b _ _ ihp ihq => exact Binary.Yields.mono (fun _ => ihp) (fun _ => ihq) hq

theorem Simplifies.typed (h : Simplifies p q) (hp : p.Typed S) : q.Typed S := by
  induction h with
  | refl p => exact hp
  | rule h => exact h.typed hp
  | trans _ _ ih ih' => exact ih' (ih hp)
  | unary u _ ih => exact ih hp
  | binary b hsimplifies _ ihp ihq =>
    exact ⟨ihp hp.1, ihq hp.2.1, hp.2.2.anti fun _ => hsimplifies.yields⟩

end Expr

/-! ### Trees -/

/-- Trees whose subroutines yield values of the given types. -/
structure Bound.Typed (S : Nat → Value τ → Prop) (b : Bound τ) : Prop where
  /-- The main expression is typed. -/
  main : b.main.Typed S
  /-- The subroutines are typed. -/
  bodies : ∀ (l : Nat) s, b.subroutines[l]? = some s →
    s.body.Typed S ∧ ∀ v, s.body.Yields S v → S l v

namespace Bound.Typed

variable {S : Nat → Value τ → Prop} {b b' : Bound τ}

theorem simplifies (h : b.Typed S) (hb : b.Simplifies b') : b'.Typed S := by
  refine ⟨hb.main.typed h.main, fun l s' hs' => ?_⟩
  obtain ⟨s, hs, hsimplifies⟩ := getElem?_of_forall₂ hb.subroutines.flip hs'
  obtain ⟨htyped, hyields⟩ := h.bodies l s hs
  exact ⟨hsimplifies.body.typed htyped, fun v hv => hyields v (hsimplifies.body.yields hv)⟩

/-- Subroutines keep to their types, however deep calls are followed. -/
theorem callsAt_keeps (h : b.Typed S) (o : Options) (input : Array τ) (depth l : Nat) :
    (Expr.callsAt ⟨o, b.subroutines.toArray⟩ input depth l).Keeps (S l) := by
  induction depth generalizing l with
  | zero =>
    unfold Expr.callsAt
    cases (⟨o, b.subroutines.toArray⟩ : Target τ).subroutines[l]? with
    | none => exact Run.keeps_never
    | some s => exact Run.keeps_never
  | succ depth ih =>
    unfold Expr.callsAt
    cases hs : (⟨o, b.subroutines.toArray⟩ : Target τ).subroutines[l]? with
    | none => exact Run.keeps_never
    | some s =>
      obtain ⟨htyped, hyields⟩ := h.bodies l s (by rwa [List.getElem?_toArray] at hs)
      exact (Expr.run_keeps (x := Expr.settingAt _ input depth) ih htyped).mono hyields

/-- Typed expressions are never stuck, whatever the reading. -/
theorem ne_stuck (h : b.Typed S) {q : Expr τ} (hq : q.Typed S) (o : Options) (input : Array τ) (depth : Nat)
    (r : Reading τ) : q.evalAt ⟨o, b.subroutines.toArray⟩ input depth r ≠ some .stuck := by
  intro hstuck
  cases depth with
  | zero => cases hstuck
  | succ depth =>
    exact Expr.run_keeps (x := Expr.settingAt _ input depth) (h.callsAt_keeps o input depth) hq r .stuck
      hstuck

/-- Typed trees are never stuck. -/
theorem evalAt_ne_stuck (h : b.Typed S) (o : Options) (input : List τ) (depth : Nat) :
    b.evalAt o input depth ≠ some .stuck := h.ne_stuck h.main o input.toArray depth .first

end Bound.Typed

/-! ### Graphs -/

namespace Grammar

variable {g : Grammar τ} {T : NodeId → Value τ → Prop}

/-- Types for the nodes of a grammar: each node yields values of its type if its parts do. -/
structure Typing (g : Grammar τ) (T : NodeId → Value τ → Prop) : Prop where
  /-- Leaves yield values of their types. -/
  leaf : ∀ p l, g.node p = .leaf l → ∀ v, l.Yields (fun _ _ => True) v → T p v
  /-- So do unary forms. -/
  unary : ∀ p u k, g.node p = .unary u k → ∀ v, u.Yields (T k) v → T p v
  /-- So do binary forms. -/
  binary : ∀ p b k l, g.node p = .binary b k l → ∀ v, b.Yields (T k) (T l) v → T p v
  /-- Branches look at verdicts. -/
  verdict : ∀ p b k l, g.node p = .binary b k l → b.Typed (T k)
  /-- References yield what their targets do. -/
  reference : ∀ p c q, g.node p = .lazy c → (g.cell c).target? = some q → ∀ v, T q v → T p v

/-- A grammar whose nodes can be given types. -/
def TypeCorrect (g : Grammar τ) : Prop := ∃ T, g.Typing T

/-- Any values will do where no branch looks at them. -/
theorem typeCorrect_of_forall (h : ∀ n ∈ g.nodes, ∀ f k l, n ≠ .binary (.branch f) k l) :
    g.TypeCorrect := by
  refine ⟨fun _ _ => True, fun _ _ _ _ _ => trivial, fun _ _ _ _ _ _ => trivial,
    fun _ _ _ _ _ _ _ => trivial, fun p b k l hnode => ?_, fun _ _ _ _ _ _ _ => trivial⟩
  cases b with
  | branch f => exact absurd hnode (Grammar.forall_node h nofun p f k l)
  | seq | alt => trivial

/-- Grammars are type-correct in which every branch looks at what was made a verdict, as the combinators build them. -/
theorem typeCorrect_of_verdicts
    (h : ∀ p f k l, g.node p = .binary (.branch f) k l → ∃ m, g.node k = .unary (.map Value.toVerdict) m) :
    g.TypeCorrect := by
  refine ⟨fun p v => (∃ m, g.node p = .unary (.map Value.toVerdict) m) → v.IsVerdict, ⟨?_, ?_, ?_, ?_, ?_⟩⟩
  · rintro p l hnode v - ⟨m, hm⟩
    cases hnode.symm.trans hm
  · rintro p u k hnode v hv ⟨m, hm⟩
    obtain rfl := (Node.unary.inj (hnode.symm.trans hm)).1
    obtain ⟨w, -, rfl⟩ := hv
    exact w.isVerdict_toVerdict
  · rintro p b k l hnode v - ⟨m, hm⟩
    cases hnode.symm.trans hm
  · intro p b k l hnode
    cases b with
    | branch f => exact fun v hv => hv (h p f k l hnode)
    | seq | alt => trivial
  · rintro p c q hnode - v - ⟨m, hm⟩
    cases hnode.symm.trans hm

theorem Typing.followFor (h : g.Typing T) {steps : Nat} {p q : NodeId}
    (hq : (g.followFor steps p).2 = .ok q) {v : Value τ} (hv : T q v) : T p v := by
  induction steps generalizing p with
  | zero =>
    unfold Grammar.followFor at hq
    split at hq
    · cases hq
    · cases hq
      exact hv
  | succ steps ih =>
    unfold Grammar.followFor at hq
    split at hq
    · rename_i c hc
      cases htarget : (g.cell c).target? with
      | none =>
        rw [htarget] at hq
        cases hq
      | some p' =>
        rw [htarget] at hq
        exact h.reference p c p' hc htarget v (ih hq)
    · cases hq
      exact hv

/-- What stands for the nodes of a typed grammar is typed. -/
theorem Typing.inductive (h : g.Typing T) (hcalls : g.CallFree) (ps : List NodeId) :
    g.Inductive (fun l _ p => ps[l]? = some p) fun p e =>
      e.Typed (fun l v => ∃ p, ps[l]? = some p ∧ T p v) ∧
        ∀ v, e.Yields (fun l v => ∃ p, ps[l]? = some p ∧ T p v) v → T p v where
  empty p := ⟨trivial, fun _ hv => hv.elim⟩
  leaf p l hl := by
    refine ⟨trivial, fun v hv => h.leaf p l hl v ?_⟩
    cases l with
    | call l r => exact absurd hl (hcalls p l r)
    | _ => exact hv
  call p l r hl := by
    refine ⟨trivial, ?_⟩
    rintro v ⟨p', hp', hv⟩
    rw [hl] at hp'
    cases hp'
    exact hv
  unary p u k k' e hnode hk he :=
    ⟨he.1, fun v hv => h.unary p u k hnode v (hv.mono fun w hw => h.followFor hk (he.2 w hw))⟩
  binary p b k l k' l' e e' hnode hk hl he he' := by
    have hek (w : Value τ) (hw : e.Yields _ w) : T k w := h.followFor hk (he.2 w hw)
    refine ⟨⟨he.1, he'.1, (h.verdict p b k l hnode).anti hek⟩, fun v hv => ?_⟩
    exact h.binary p b k l hnode v (hv.mono hek fun w hw => h.followFor hl (he'.2 w hw))

/-- The trees of a type-correct grammar are typed. -/
theorem TypeCorrect.bind (h : g.TypeCorrect) (hcalls : g.CallFree) {root : NodeId} {b : Bound τ}
    (hbind : g.bind root = .ok b) : ∃ S, b.Typed S := by
  obtain ⟨T, hT⟩ := h
  obtain ⟨root', ps, -, hlength, hinduct⟩ := Grammar.bind_induct hbind
  obtain ⟨hmain, hbodies⟩ := hinduct _ ((hT.inductive hcalls ps).anti fun _ _ _ h => h.1)
  refine ⟨_, hmain.1, fun l s hs => ?_⟩
  have hlt : l < ps.length := hlength ▸ (List.getElem?_eq_some_iff.1 hs).1
  have hl := List.getElem?_eq_getElem hlt
  obtain ⟨htyped, hyields⟩ := hbodies l ps[l] s hl hs
  exact ⟨htyped, fun v hv => ⟨ps[l], hl, hyields v hv⟩⟩

end Grammar

end ParserMachine

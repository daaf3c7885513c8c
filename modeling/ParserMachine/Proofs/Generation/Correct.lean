import ParserMachine.Proofs.Generation.Alternatives
import ParserMachine.Proofs.Generation.Emission
import ParserMachine.Proofs.Generation.Repetition

/-!
# Generated code is correct

The code of an expression does what the expression does, whatever options it was written for
(`Expr.emit_writes`), and the code of a subroutine does what a call of it does
(`Expr.evalAt_writes`). The proof follows the recursion of code generation: operands are matched
with the alternatives of the meaning one by one.
-/

namespace ParserMachine

variable {τ : Type} [Token τ] {input : Array τ} {codeOf : Label → Code τ} {n rounds : Nat}

open Emit

/-- Whatever code is written, it does what the parser does. -/
def Emit.Writes (codeOf : Label → Code τ) (input : Array τ) (n : Nat) (discard : Bool)
    (m : Emit (Draft τ)) (p : Run τ) : Prop :=
  ∀ l l' d, m.run l = .ok (d, l') → Code.Answers codeOf input n discard d.toCode p

/-! ### Forms -/

theorem Code.Answers.endOfInput {discard : Bool} :
    Code.Answers codeOf input n discard
      (Draft.instr (.eof (SortedSet.single .endOfInput)) ++
        .only (!discard) (.push .unit) : Draft τ).toCode (Run.endOfInput input) := by
  intro k hready _ _
  have hunit : Run.endOfInput input k.state.reading =
      (Run.endOfInput input).andThen k.state.reading fun _ r => some (.done .unit r) := by
    unfold Run.andThen Run.handle Run.endOfInput
    cases k.state.reading.current? input <;> rfl
  rw [hunit, Draft.toCode_append, List.append_assoc]
  let k' : Config τ := { k with rest := (Draft.only (!discard) (.push .unit)).toCode ++ k.rest }
  have hready' : k'.state.Ready input := hready
  refine Config.Answers.andThen ?_ ?_ ?_ (Config.answers_endOfInput hready') fun v r => ?_
  · rfl
  · rfl
  · exact State.Over.refl k.state
  cases discard with
  | true => exact Config.answers_done_self .unit r
  | false =>
    exact Config.Answers.step (Config.step?_push (hready.succeed true v r) .unit)
      (Config.answers_done_self (n := n) .unit r)

theorem Leaf.writes {tgt : Target τ} {ofCall : Nat → Run τ}
    (hcalls : ∀ l < tgt.subroutines.size, ∀ discard, Code.Answers codeOf input n discard
      (.instr (.call l) :: (Draft.only discard .pop).toCode) (ofCall l))
    (lf : Leaf τ) (discard : Bool) :
    Emit.Writes codeOf input n discard (lf.emit tgt discard) (lf.run input ofCall) := by
  intro l l' d h
  cases lf with
  | pure v =>
    cases h
    exact Code.Answers.leaf_pure v
  | fail f =>
    cases h
    intro k hready _ _
    exact Config.answers_fail rfl hready rfl
  | empty =>
    cases h
    intro k hready _ _
    exact Config.answers_fail rfl hready rfl
  | satisfy test e =>
    cases h
    intro k hready _ _
    exact Config.answers_one rfl hready rfl
  | single t e =>
    cases h
    intro k hready _ _
    exact Config.answers_one rfl hready rfl
  | literal ts v e =>
    cases h
    intro k hready _ _
    exact Config.answers_literal hready ts v e
  | eof =>
    cases h
    exact Code.Answers.endOfInput
  | call c r =>
    obtain ⟨hc, rfl, hd⟩ := Leaf.of_emit_call h
    rw [hd]
    exact hcalls c hc discard

theorem Unary.writes {tgt : Target τ} {p : Expr τ} {q : Run τ} {part : Bool → Emit (Draft τ)}
    (hn : n ≤ rounds) (hinput : input.size < rounds)
    (hpart : ∀ discard, Emit.Writes codeOf input n discard (part discard) q)
    (hone : ∀ test e, p.oneToken? = some (test, e) → q = Run.one input test e)
    (u : Unary τ) (discard : Bool) :
    Emit.Writes codeOf input n discard (u.emit tgt p part discard) (u.run input rounds q) := by
  intro l l' d h
  cases u with
  | map f =>
    rw [Unary.emit, run_bind_pure_eq_ok_iff] at h
    obtain ⟨c, hc, rfl⟩ := h
    rw [Draft.toCode_append]
    exact Code.Answers.map (hpart _ _ _ _ hc) f
  | lookAhead =>
    obtain ⟨c, hc, hd⟩ := Draft.exists_of_guarded h
    rw [hd]
    exact Code.Answers.lookAhead (hpart _ _ _ _ hc) l (l + 1)
  | notFollowedBy =>
    rw [Unary.emit, run_fresh_bind, run_bind_pure_eq_ok_iff] at h
    obtain ⟨c, hc, rfl⟩ := h
    simp only [Draft.toCode_append, Draft.toCode_lines, Draft.instr, List.singleton_append]
    exact Code.Answers.notFollowedBy (hpart _ _ _ _ hc) l
  | attempt =>
    obtain ⟨c, hc, hd⟩ := Draft.exists_of_guarded h
    rw [hd]
    exact Code.Answers.attempt (hpart _ _ _ _ hc) l (l + 1)
  | many =>
    rw [Unary.emit] at h
    split at h
    · rename_i test e hfused
      cases h
      refine Code.Answers.satisfyMany (hone test e ?_) hinput
      by_cases hfuse : tgt.options.fuseRepetition
      · rwa [if_pos hfuse] at hfused
      · rw [if_neg hfuse] at hfused
        cases hfused
    · obtain ⟨c, hc, hd⟩ := Draft.exists_of_repetition h
      rw [hd]
      exact Code.Answers.many (hpart _ _ _ _ hc) hn l (l + 1) (l + 2)
  | chunk =>
    rw [Unary.emit] at h
    cases discard with
    | true => exact Code.Answers.of_discard (hpart _ _ _ _ h) fun r _ r' => r.span input r'
    | false =>
      rw [if_neg Bool.false_ne_true, run_bind_pure_eq_ok_iff] at h
      obtain ⟨c, hc, rfl⟩ := h
      simp only [Draft.toCode_append, Draft.toCode_lines, Draft.instr, List.singleton_append]
      exact Code.Answers.chunk (hpart _ _ _ _ hc)
  | matchChunk =>
    rw [Unary.emit] at h
    cases discard with
    | true =>
      exact Code.Answers.of_discard (hpart _ _ _ _ h) fun r v r' => .pair (r.span input r') v
    | false =>
      rw [if_neg Bool.false_ne_true, run_bind_pure_eq_ok_iff] at h
      obtain ⟨c, hc, rfl⟩ := h
      simp only [Draft.toCode_append, Draft.toCode_lines, Draft.instr, List.singleton_append]
      exact Code.Answers.matchChunk (hpart _ _ _ _ hc)
  | label name =>
    obtain ⟨c, hc, hd⟩ := Draft.exists_of_guarded h
    rw [hd]
    exact Code.Answers.label (hpart _ _ _ _ hc) name l (l + 1)
  | guard mode =>
    cases mode with
    | capture =>
      obtain ⟨c, hc, hd⟩ := Draft.exists_of_guarded h
      rw [hd, Draft.toCode_append]
      exact Code.Answers.capture (hpart _ _ _ _ hc) l (l + 1)
    | amend f =>
      have hmode : GuardMode.amend f ≠ .capture := by rintro ⟨⟩
      obtain ⟨c, hc, hd⟩ := Draft.exists_of_guarded h
      rw [hd]
      exact Code.Answers.amended (hpart _ _ _ _ hc) hmode l (l + 1)
    | merge other =>
      have hmode : GuardMode.merge other ≠ .capture := by rintro ⟨⟩
      obtain ⟨c, hc, hd⟩ := Draft.exists_of_guarded h
      rw [hd]
      exact Code.Answers.amended (hpart _ _ _ _ hc) hmode l (l + 1)

section Binary

variable {p q : Run τ} {part part' : Bool → Emit (Draft τ)}

theorem SeqKind.writes (hp : ∀ discard, Emit.Writes codeOf input n discard (part discard) p)
    (hq : ∀ discard, Emit.Writes codeOf input n discard (part' discard) q) (kind : SeqKind τ)
    (discard : Bool) :
    Emit.Writes codeOf input n discard (kind.emit part part' discard)
      (Binary.run p q (.seq kind)) := by
  intro l l' d h
  cases kind with
  | both f =>
    rw [SeqKind.emit, run_bind_bind_pure_eq_ok_iff] at h
    obtain ⟨c, c', m, hc, hc', rfl⟩ := h
    simp only [Draft.toCode_append]
    exact Code.Answers.both (hp _ _ _ _ hc) (hq _ _ _ _ hc') f
  | left =>
    rw [SeqKind.emit, run_bind_bind_pure_eq_ok_iff] at h
    obtain ⟨c, c', m, hc, hc', rfl⟩ := h
    rw [Draft.toCode_append]
    exact Code.Answers.left (hp _ _ _ _ hc) (hq _ _ _ _ hc')
  | right =>
    rw [SeqKind.emit, run_bind_bind_pure_eq_ok_iff] at h
    obtain ⟨c, c', m, hc, hc', rfl⟩ := h
    rw [Draft.toCode_append]
    exact Code.Answers.right (hp _ _ _ _ hc) (hq _ _ _ _ hc')

theorem Draft.branch_writes
    (hp : ∀ discard, Emit.Writes codeOf input n discard (part discard) p)
    (hq : ∀ discard, Emit.Writes codeOf input n discard (part' discard) q)
    (f : Value τ → Value τ → Value τ) (discard : Bool) :
    Emit.Writes codeOf input n discard (Draft.branch f part part' discard)
      (Binary.run p q (.branch f)) := by
  intro l l' d h
  obtain ⟨c, c', m, hc, hc', hd⟩ := Draft.exists_of_branch h
  rw [hd]
  exact Code.Answers.branch (hp _ _ _ _ hc) (hq _ _ _ _ hc') f l (l + 1)

end Binary

/-! ### Alternatives -/

/-- The code of an operand does what the alternative does, and both have the same lead. -/
structure Operand.Writes (codeOf : Label → Code τ) (input : Array τ) (n : Nat) (tgt : Target τ)
    (a : Operand τ) (c : Choice τ) : Prop where
  /-- The lead is that of the expression. -/
  lead : a.expr.lead tgt.subroutines = c.lead
  /-- Whatever code is written for the operand, it does what the alternative does. -/
  code : ∀ discard, Emit.Writes codeOf input n discard (a.emit discard) c.run

section Alternatives

variable {tgt : Target τ} {as : List (Operand τ)} {cs : List (Choice τ)} {discard : Bool}

/-- What is written for operands does what the alternatives do. -/
theorem Emit.Each.answersAll {α β : Type} {f : α → Emit (Draft τ)} {g : β → Run τ}
    {l l' : Label} {ds : List (Draft τ)} {as : List α} {bs : List β}
    (h : Emit.Each f l as ds l')
    (hwrites : List.Forall₂ (fun a b => Emit.Writes codeOf input n discard (f a) (g b)) as bs) :
    AnswersAll codeOf input n discard ds (bs.map g) := by
  induction h generalizing bs with
  | nil =>
    cases hwrites
    exact .nil
  | cons hd hds ih =>
    cases hwrites with
    | cons ha has => exact .cons (ha _ _ _ hd) (ih has)

theorem Draft.chain_writes (h : List.Forall₂ (Operand.Writes codeOf input n tgt) as cs)
    (hne : as ≠ []) :
    Emit.Writes codeOf input n discard (Draft.chain as discard)
      (Run.inOrder (cs.map Choice.run)) := by
  intro l l' d hrun
  obtain ⟨ds, hds, rfl⟩ := Draft.exists_of_chain hrun
  have hlen := hds.length_eq
  refine Code.answers_tryInOrder l (hds.answersAll (h.imp fun a c hac => hac.code discard)) ?_ ?_
  · rintro rfl
    exact hne (List.length_eq_zero_iff.1 hlen.symm)
  · rw [List.length_range', hlen]

/-- A chosen alternative has a handler unless nothing is left to try or to report. -/
theorem Emit.Each.handlers {noOthers : Bool} {l l' : Label} {es : List (ExpectedSet τ)}
    {hs : List (Option Label)} (h : Emit.Each (Draft.handlerFor noOthers) l es hs l') :
    List.Forall₂ (fun e h => Option.isNone h = (noOthers && SortedSet.isEmpty e)) es hs := by
  induction h with
  | nil => exact .nil
  | @cons k m k' e handler es hs hhandler _ ih =>
    refine .cons ?_ ih
    unfold Draft.handlerFor at hhandler
    by_cases hnone : noOthers && e.isEmpty
    · rw [if_pos hnone] at hhandler
      cases hhandler
      exact hnone.symm
    · rw [if_neg hnone, run_map_eq_ok_iff] at hhandler
      obtain ⟨label, -, rfl⟩ := hhandler
      exact (Bool.eq_false_iff.2 hnone).symm

theorem Draft.dispatch_writes {table : List (Operand τ × Lead τ)}
    {table' : List (Choice τ × Lead τ)}
    (htable : List.Forall₂ (fun a c => Operand.Writes codeOf input n tgt a.1 c.1 ∧ a.2 = c.2)
      table table')
    (hothers : List.Forall₂ (Operand.Writes codeOf input n tgt) as cs) :
    Emit.Writes codeOf input n discard (Draft.dispatch table as discard)
      (Run.byTable input (table'.map fun a => (a.1.run, a.2)) (cs.map Choice.run)) := by
  have hleads : table.map Prod.snd = (table'.map fun a => (a.1.run, a.2)).map Prod.snd := by
    rw [List.map_map]
    exact List.forall₂_eq_eq_eq ▸ List.forall₂_map_left_iff.2
      (List.forall₂_map_right_iff.2 (htable.imp fun a c h => h.2))
  have hlength : table.length = (table'.map fun a => (a.1.run, a.2)).length := by
    rw [List.length_map, htable.length_eq]
  have hruns : table'.map (fun a => a.1.run) =
      (table'.map fun a => (a.1.run, a.2)).map Prod.fst := by
    rw [List.map_map]
    rfl
  intro l l' d h
  cases hothers with
  | nil =>
    obtain ⟨hs, parts, m, hhandlers, hparts, hd⟩ := Draft.exists_of_dispatch_nil h
    have hanswers := hparts.answersAll (htable.imp fun a c h => h.1.code discard)
    rw [hruns] at hanswers
    rw [hd, hleads]
    rw [hleads] at hhandlers
    refine Code.answers_dispatch hanswers ?_ hhandlers.handlers rfl
    rw [List.length_range', hlength]
  | @cons o c others cs ho hothers =>
    obtain ⟨hs, parts, otherParts, m, m', hhandlers, hparts, hotherParts, hd⟩ :=
      Draft.exists_of_dispatch_cons h
    have hanswers := hparts.answersAll (htable.imp fun a c h => h.1.code discard)
    have hall := List.Forall₂.cons ho hothers
    have hotherAnswers := hotherParts.answersAll (hall.imp fun a c h => h.code discard)
    have hlen := hotherParts.length_eq
    rw [hruns] at hanswers
    rw [hd, hleads]
    rw [hleads] at hhandlers
    refine Code.answers_dispatch hanswers ?_ hhandlers.handlers ?_
    · rw [List.length_range', hlength]
    · refine ⟨List.cons_ne_nil _ _, _, rfl, ?_⟩
      refine Code.answers_tryInOrder m hotherAnswers ?_ ?_
      · rintro rfl
        exact Nat.succ_ne_zero _ hlen.symm
      · rw [List.length_range', hlen]
        rfl

theorem Draft.alternation_writes (h : List.Forall₂ (Operand.Writes codeOf input n tgt) as cs)
    (hne : as ≠ []) :
    Emit.Writes codeOf input n discard (Draft.alternation tgt as discard)
      (Run.ofChoices tgt input cs) := by
  obtain ⟨htable, hothers⟩ := Dispatch.sortFrom_forall₂
    (f := fun a : Operand τ => a.expr.lead tgt.subroutines) (g := Choice.lead)
    (fun _ _ hac => hac.lead) h []
  have hlength := htable.length_eq
  unfold Draft.alternation Run.ofChoices
  by_cases htables : tgt.options.dispatchTables
  · rw [if_pos htables, if_pos htables]
    unfold Dispatch.sort
    dsimp only
    rw [hlength]
    split
    · exact Draft.chain_writes h hne
    · exact Draft.dispatch_writes htable hothers
  · rw [if_neg htables, if_neg htables]
    exact Draft.chain_writes h hne

theorem Draft.ofOperands_writes (h : List.Forall₂ (Operand.Writes codeOf input n tgt) as cs)
    (hne : as ≠ []) (discard : Bool) :
    Emit.Writes codeOf input n discard (Draft.ofOperands tgt as discard)
      (Run.ofChoices tgt input cs) := by
  cases h with
  | nil => exact absurd rfl hne
  | cons ha has =>
    cases has with
    | nil =>
      rw [Run.ofChoices_singleton]
      exact ha.code discard
    | cons hb hbs => exact Draft.alternation_writes (.cons ha (.cons hb hbs)) hne

end Alternatives

/-! ### Expressions -/

namespace Expr

theorem run_of_oneToken {x : Setting τ} {p : Expr τ} {test : τ → Bool} {e : ExpectedSet τ}
    (h : p.oneToken? = some (test, e)) : p.run x = Run.one x.input test e := by
  unfold oneToken? at h
  split at h
  · cases h
    exact run_leaf x _
  · cases h
    exact run_leaf x _
  · cases h

theorem operands_ne_nil (tgt : Target τ) (p : Expr τ) (rest : List (Operand τ)) :
    p.operands tgt rest ≠ [] := by
  induction p generalizing rest with
  | leaf l => exact List.cons_ne_nil _ _
  | unary u p => exact List.cons_ne_nil _ _
  | binary b p q ihp ihq =>
    cases b with
    | alt => exact ihp _
    | _ => exact List.cons_ne_nil _ _

section Setting

variable {x : Setting τ} (hn : n ≤ x.rounds) (hinput : x.input.size < x.rounds)
  (hcalls : ∀ l < x.target.subroutines.size, ∀ discard, Code.Answers codeOf x.input n discard
    (.instr (.call l) :: (Draft.only discard .pop).toCode) (x.ofCall l))

include hn hinput hcalls

theorem operands_write (p : Expr τ) {as : List (Operand τ)} {cs : List (Choice τ)}
    (h : List.Forall₂ (Operand.Writes codeOf x.input n x.target) as cs) :
    List.Forall₂ (Operand.Writes codeOf x.input n x.target) (p.operands x.target as)
      (p.choices x cs) := by
  induction p generalizing as cs with
  | leaf l => exact .cons ⟨rfl, Leaf.writes hcalls l⟩ h
  | unary u p ih =>
    refine .cons ⟨rfl, fun discard => ?_⟩ h
    refine Unary.writes hn hinput ?_ (fun test e hone => run_of_oneToken hone) u discard
    exact Draft.ofOperands_writes (ih .nil) (operands_ne_nil _ p [])
  | binary b p q ihp ihq =>
    have hp := Draft.ofOperands_writes (ihp .nil) (operands_ne_nil _ p [])
    have hq := Draft.ofOperands_writes (ihq .nil) (operands_ne_nil _ q [])
    cases b with
    | alt => exact ihp (ihq h)
    | seq kind => exact .cons ⟨rfl, SeqKind.writes hp hq kind⟩ h
    | branch f => exact .cons ⟨rfl, Draft.branch_writes hp hq f⟩ h

/-- The code of an expression does what the expression does. -/
theorem emit_writes (p : Expr τ) (discard : Bool) :
    Emit.Writes codeOf x.input n discard (p.emit x.target discard) (p.run x) :=
  Draft.ofOperands_writes (operands_write hn hinput hcalls p .nil) (operands_ne_nil _ p []) discard

end Setting

/-- Whatever code is written for an expression, it does what the expression does, provided that
every subroutine has code that was written for it. -/
theorem evalAt_writes {tgt : Target τ}
    (hcode : ∀ l s, tgt.subroutines[l]? = some s → (Code.marks (codeOf l)).Nodup ∧
      ∃ m m' d, (s.body.emit tgt false).run m = .ok (d, m') ∧ codeOf l = d.toCode)
    (depth : Nat) (p : Expr τ) (discard : Bool) :
    Emit.Writes codeOf input depth discard (p.emit tgt discard) (p.evalAt tgt input depth) := by
  induction depth generalizing p discard with
  | zero =>
    intro l l' d _ k _ _ _
    exact Lasts.zero _ _
  | succ depth ih =>
    let x : Setting τ := settingAt tgt input depth
    have hcalls (l : Nat) (hl : l < tgt.subroutines.size) (discard : Bool) :
        Code.Answers codeOf input (depth + 1) discard
          (.instr (.call l) :: (Draft.only discard .pop).toCode) (x.ofCall l) := by
      have hs : tgt.subroutines[l]? = some tgt.subroutines[l] := Array.getElem?_eq_getElem hl
      obtain ⟨hnodup, m, m', d, hd, hcodeOf⟩ := hcode l _ hs
      have hcall : x.ofCall l = tgt.subroutines[l].body.evalAt tgt input depth := by
        show callsAt tgt input depth l = _
        unfold callsAt
        rw [hs]
      rw [hcall]
      refine Code.Answers.call l ?_ hnodup
      rw [hcodeOf]
      exact ih _ false m m' d hd
    have hrounds : depth + 1 ≤ x.rounds := by
      show depth + 1 ≤ depth + input.size + 1
      omega
    have hinput : x.input.size < x.rounds := by
      show input.size < depth + input.size + 1
      omega
    exact @emit_writes _ _ codeOf _ x hrounds hinput hcalls p discard

end Expr

end ParserMachine

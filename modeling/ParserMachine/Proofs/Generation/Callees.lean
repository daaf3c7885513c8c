import ParserMachine.Proofs.Binding.Calling
import ParserMachine.Proofs.Generation.Blocks

/-!
# What generated code calls

The code of an expression, in either mode, calls only subroutines that the expression calls (`Expr.emit_callees`); so
the blocks of an assembly call only what the bodies of their subroutines call (`Bound.Generates.exists_subroutine`).
-/

namespace ParserMachine

variable {τ : Type} [Token τ] {callee : Nat → Prop} {discard : Bool} {t : Nat}

/-- Whatever code is written calls only these labels. -/
def Emit.Callees (callee : Nat → Prop) (m : Emit (Draft τ)) : Prop :=
  ∀ (l l' : Nat) d, m.run l = .ok (d, l') → ∀ t ∈ Code.calls d.toCode, callee t

open Emit

namespace Draft

theorem calls_instr {i : Instr τ Label} (hi : (Line.instr i).call? = none) : Code.calls (instr i).toCode = [] := by
  rw [instr, toCode_lines, Code.calls_cons, hi]
  rfl

theorem calls_only {i : Instr τ Label} (hi : (Line.instr i).call? = none) (holds : Bool) :
    Code.calls (only holds i).toCode = [] := by
  cases holds with
  | true => exact calls_instr hi
  | false => rfl

/-! ### Forms -/

theorem guarded_callees {snapshot : Bool} {part : Emit (Draft τ)} {leave : Label → Draft τ} {react : Instr τ Label}
    (hpart : Emit.Callees callee part) (hleave : ∀ l, Code.calls (leave l).toCode = [])
    (hreact : (Line.instr react).call? = none) : Emit.Callees callee (guarded snapshot part leave react) := by
  intro l l' d h t ht
  obtain ⟨c, hc, hd⟩ := exists_of_guarded h
  have hcalls : Code.calls d.toCode = Code.calls c.toCode := by
    rw [hd]
    simp only [Code.calls_append, Code.calls_cons, Code.calls_nil, hleave, hreact]
    exact (List.append_nil _).trans (List.append_nil _)
  exact hpart _ _ _ hc t (hcalls ▸ ht)

theorem repetition_callees {part : Bool → Emit (Draft τ)} (hpart : Emit.Callees callee (part discard)) :
    Emit.Callees callee (repetition discard part) := by
  intro l l' d h t ht
  obtain ⟨c, hc, hd⟩ := exists_of_repetition h
  refine hpart _ _ _ hc t ?_
  simpa [hd, calls_only (i := .newList) rfl, Line.call?] using ht

theorem branch_callees {f : Value τ → Value τ → Value τ} {p q : Bool → Emit (Draft τ)}
    (hp : Emit.Callees callee (p false)) (hq : Emit.Callees callee (q false)) :
    Emit.Callees callee (branch f p q discard) := by
  intro l l' d h t ht
  obtain ⟨c, c', m, hc, hc', hd⟩ := exists_of_branch h
  have hmem : t ∈ Code.calls c.toCode ∨ t ∈ Code.calls c'.toCode := by
    simpa [hd, calls_only (i := .pop) rfl, Line.call?] using ht
  exact hmem.elim (hp _ _ _ hc t) (hq _ _ _ hc' t)

/-! ### Alternatives -/

theorem mem_calls_tryInOrder {stop : Nat} {hs : List Nat} {cs : List (Draft τ)}
    (h : t ∈ Code.calls (tryInOrder stop hs cs).toCode) : t ∈ Code.calls (flat cs) := by
  induction hs generalizing cs with
  | nil =>
    cases cs with
    | nil => cases h
    | cons c cs =>
      rw [flat_cons, Code.calls_append]
      refine List.mem_append_left _ ?_
      simpa [tryInOrder, mark, Line.call?] using h
  | cons k hs ih =>
    cases cs with
    | nil => cases h
    | cons c cs =>
      have hmem : t ∈ Code.calls c.toCode ∨ t ∈ Code.calls (tryInOrder stop hs cs).toCode := by
        simpa [tryInOrder, instr, Line.call?] using h
      rw [flat_cons, Code.calls_append]
      exact List.mem_append.2 (hmem.imp_right ih)

theorem calls_chosen {stop target : Nat} {fallback handler : Option Nat} {e : ExpectedSet τ} {c : Draft τ} :
    Code.calls (chosen stop fallback target handler e c).toCode = Code.calls c.toCode := by
  cases handler with
  | none => simp [chosen, mark, instr, Line.call?]
  | some h =>
    cases fallback with
    | none => simp [chosen, instr, Line.call?]
    | some f => simp [chosen, calls_only (i := .hint e) rfl, instr, Line.call?]

theorem mem_calls_allChosen {stop : Nat} {fallback : Option Nat} {ts : List Nat} {hs : List (Option Nat)}
    {es : List (ExpectedSet τ)} {cs : List (Draft τ)}
    (h : t ∈ Code.calls (allChosen stop fallback ts hs es cs).toCode) : t ∈ Code.calls (flat cs) := by
  induction cs generalizing ts hs es with
  | nil =>
    unfold allChosen at h
    split at h
    · rename_i heq
      cases heq
    · cases h
  | cons c cs ih =>
    unfold allChosen at h
    split at h
    · rename_i heq
      cases heq
      rw [toCode_append, Code.calls_append, calls_chosen] at h
      rw [flat_cons, Code.calls_append]
      exact List.mem_append.2 ((List.mem_append.1 h).imp_right ih)
    · cases h

end Draft

theorem Emit.Each.callees {α : Type} {f : α → Emit (Draft τ)} {as : List α} {cs : List (Draft τ)} {l l' : Nat}
    (h : Emit.Each f l as cs l') (hf : ∀ a ∈ as, Emit.Callees callee (f a)) (ht : t ∈ Code.calls (Draft.flat cs)) :
    callee t := by
  induction h with
  | nil => cases ht
  | cons hc _ ih =>
    rw [Draft.flat_cons, Code.calls_append] at ht
    rcases List.mem_append.1 ht with ht | ht
    · exact hf _ (List.mem_cons_self ..) _ _ _ hc t ht
    · exact ih (fun a ha => hf a (List.mem_cons_of_mem _ ha)) ht

namespace Draft

theorem chain_callees {as : List (Operand τ)} (has : ∀ a ∈ as, Emit.Callees callee (a.emit discard)) :
    Emit.Callees callee (chain as discard) := by
  intro l l' d h t ht
  obtain ⟨cs, hcs, rfl⟩ := exists_of_chain h
  exact hcs.callees has (mem_calls_tryInOrder ht)

theorem dispatch_callees {table : List (Operand τ × Lead τ)} {others : List (Operand τ)}
    (htable : ∀ a ∈ table, Emit.Callees callee (a.1.emit discard))
    (hothers : ∀ a ∈ others, Emit.Callees callee (a.emit discard)) :
    Emit.Callees callee (dispatch table others discard) := by
  intro l l' d h t ht
  cases others with
  | nil =>
    obtain ⟨hs, parts, m, -, hparts, hd⟩ := exists_of_dispatch_nil h
    rw [hd] at ht
    exact hparts.callees htable (mem_calls_allChosen (by simpa [Line.call?] using ht))
  | cons o others =>
    obtain ⟨hs, parts, otherParts, m, m', -, hparts, hotherParts, hd⟩ := exists_of_dispatch_cons h
    rw [hd] at ht
    have hmem : t ∈ Code.calls (allChosen l (some (l + 1)) (List.range' (l + 2) table.length) hs
        (Dispatch.after (table.map Prod.snd)) parts).toCode ∨
        t ∈ Code.calls (tryInOrder m (List.range' (m + 1) others.length) otherParts).toCode := by
      simpa [Line.call?] using ht
    rcases hmem with hmem | hmem
    · exact hparts.callees htable (mem_calls_allChosen hmem)
    · exact hotherParts.callees hothers (mem_calls_tryInOrder hmem)

theorem ofOperands_callees (tgt : Target τ) {as : List (Operand τ)}
    (has : ∀ a ∈ as, ∀ discard, Emit.Callees callee (a.emit discard)) (discard : Bool) :
    Emit.Callees callee (ofOperands tgt as discard) := by
  refine ofOperands_cases tgt (chain_callees fun a ha => has a ha discard)
    (fun table others _ htable hothers => ?_) fun a ha => has a ha discard
  exact dispatch_callees (fun x hx => has x.1 (htable x hx) discard) fun a ha => has a (hothers a ha) discard

end Draft

/-! ### Expressions -/

theorem Leaf.emit_callees (tgt : Target τ) (lf : Leaf τ) (hcalls : ∀ c ∈ (Expr.leaf lf).calls, callee c.1)
    (discard : Bool) : Emit.Callees callee (lf.emit tgt discard) := by
  intro l l' d h t ht
  cases lf with
  | call c r =>
    obtain ⟨-, rfl, hd⟩ := Leaf.of_emit_call h
    have hmem : t = c := by
      simpa [hd, Draft.calls_only (i := .pop) rfl, Line.call?, eq_comm] using ht
    exact hmem ▸ hcalls (c, r) (List.mem_singleton_self _)
  | pure v =>
    cases h
    rw [Draft.calls_only rfl] at ht
    cases ht
  | eof =>
    cases h
    rw [Draft.toCode_append, Code.calls_append, Draft.calls_only rfl, Draft.calls_instr rfl] at ht
    cases ht
  | _ =>
    cases h
    cases ht

theorem Unary.emit_callees {tgt : Target τ} {p : Expr τ} {part : Bool → Emit (Draft τ)}
    (hpart : ∀ discard, Emit.Callees callee (part discard)) (u : Unary τ) (discard : Bool) :
    Emit.Callees callee (u.emit tgt p part discard) := by
  have hguarded (snapshot : Bool) {leave : Label → Instr τ Label} {react : Instr τ Label}
      (hleave : ∀ l, (Line.instr (leave l)).call? = none) (hreact : (Line.instr react).call? = none) :
      Emit.Callees callee (Draft.guarded snapshot (part discard) (fun l => .instr (leave l)) react) :=
    Draft.guarded_callees (hpart discard) (fun l => Draft.calls_instr (hleave l)) hreact
  cases u with
  | map f =>
    intro l l' d h t ht
    rw [Unary.emit, run_bind_pure_eq_ok_iff] at h
    obtain ⟨c, hc, rfl⟩ := h
    rw [Draft.toCode_append, Code.calls_append, Draft.calls_only rfl, List.append_nil] at ht
    exact hpart _ _ _ _ hc t ht
  | lookAhead | attempt => exact hguarded false (fun _ => rfl) rfl
  | label name => exact hguarded true (fun _ => rfl) rfl
  | guard mode =>
    cases mode with
    | capture =>
      refine Draft.guarded_callees (hpart discard) (fun l => ?_) rfl
      rw [Draft.toCode_append, Code.calls_append, Draft.calls_only rfl, Draft.calls_instr rfl]
      rfl
    | amend f => exact hguarded true (fun _ => rfl) rfl
    | merge other => exact hguarded true (fun _ => rfl) rfl
  | notFollowedBy =>
    intro l l' d h t ht
    rw [Unary.emit, run_fresh_bind, run_bind_pure_eq_ok_iff] at h
    obtain ⟨c, hc, rfl⟩ := h
    refine hpart _ _ _ _ hc t ?_
    simpa [Draft.instr, Line.call?] using ht
  | many =>
    intro l l' d h t ht
    rw [Unary.emit] at h
    split at h
    · cases h
      cases ht
    · exact Draft.repetition_callees (hpart discard) l l' d h t ht
  | chunk | matchChunk =>
    intro l l' d h t ht
    rw [Unary.emit] at h
    cases discard with
    | true => exact hpart _ l l' d h t ht
    | false =>
      rw [if_neg Bool.false_ne_true, run_bind_pure_eq_ok_iff] at h
      obtain ⟨c, hc, rfl⟩ := h
      refine hpart _ _ _ _ hc t ?_
      simpa [Draft.instr, Line.call?] using ht

theorem SeqKind.emit_callees {p q : Bool → Emit (Draft τ)} (hp : ∀ discard, Emit.Callees callee (p discard))
    (hq : ∀ discard, Emit.Callees callee (q discard)) (kind : SeqKind τ) (discard : Bool) :
    Emit.Callees callee (kind.emit p q discard) := by
  intro l l' d h t ht
  cases kind with
  | both f =>
    rw [SeqKind.emit, run_bind_bind_pure_eq_ok_iff] at h
    obtain ⟨c, c', m, hc, hc', rfl⟩ := h
    simp only [Draft.toCode_append, Code.calls_append, Draft.calls_only (i := .lift2 f) rfl, List.append_nil] at ht
    exact (List.mem_append.1 ht).elim (hp _ _ _ _ hc t) (hq _ _ _ _ hc' t)
  | left | right =>
    rw [SeqKind.emit, run_bind_bind_pure_eq_ok_iff] at h
    obtain ⟨c, c', m, hc, hc', rfl⟩ := h
    rw [Draft.toCode_append, Code.calls_append] at ht
    exact (List.mem_append.1 ht).elim (hp _ _ _ _ hc t) (hq _ _ _ _ hc' t)

namespace Expr

theorem operands_callees (tgt : Target τ) (p : Expr τ) (hcalls : ∀ c ∈ p.calls, callee c.1) {rest : List (Operand τ)}
    (hrest : ∀ a ∈ rest, ∀ discard, Emit.Callees callee (a.emit discard)) :
    ∀ a ∈ p.operands tgt rest, ∀ discard, Emit.Callees callee (a.emit discard) := by
  induction p generalizing rest with
  | leaf l => exact List.forall_mem_cons.2 ⟨Leaf.emit_callees tgt l hcalls, hrest⟩
  | unary u p ih =>
    have hp := Draft.ofOperands_callees tgt (ih hcalls (List.forall_mem_nil _))
    exact List.forall_mem_cons.2 ⟨Unary.emit_callees hp u, hrest⟩
  | binary b p q ihp ihq =>
    obtain ⟨hcallsp, hcallsq⟩ := List.forall_mem_append.1 hcalls
    have hp := Draft.ofOperands_callees tgt (ihp hcallsp (List.forall_mem_nil _))
    have hq := Draft.ofOperands_callees tgt (ihq hcallsq (List.forall_mem_nil _))
    cases b with
    | alt => exact ihp hcallsp (ihq hcallsq hrest)
    | seq kind => exact List.forall_mem_cons.2 ⟨SeqKind.emit_callees hp hq kind, hrest⟩
    | branch f =>
      exact List.forall_mem_cons.2 ⟨fun discard => Draft.branch_callees (hp false) (hq false), hrest⟩

/-- The code of an expression calls only what the expression calls. -/
theorem emit_callees (tgt : Target τ) (p : Expr τ) (discard : Bool) :
    Emit.Callees (fun l => ∃ c ∈ p.calls, c.1 = l) (p.emit tgt discard) :=
  Draft.ofOperands_callees tgt (operands_callees tgt p (fun c hc => ⟨c, hc, rfl⟩) (List.forall_mem_nil _)) discard

end Expr

/-! ### Blocks -/

namespace Bound

/-- A block calls only what the body of its subroutine calls. -/
theorem Blocks.exists_subroutine {tgt : Target τ} {first l l' : Nat} {ss : List (Subroutine τ)} {bs : List (Block τ)}
    (h : Blocks tgt first ss l bs l') {b : Block τ} (hb : b ∈ bs) :
    ∃ i s, ss[i]? = some s ∧ b.entry = first + i ∧ b.recursive = s.recursive ∧
      ∀ m ∈ Code.calls b.code, ∃ c ∈ s.body.calls, c.1 = m := by
  induction h with
  | nil => cases hb
  | @cons first l m l' s ss d bs hd _ ih =>
    rcases List.mem_cons.1 hb with rfl | hb
    · exact ⟨0, s, rfl, rfl, rfl, Expr.emit_callees tgt s.body false _ _ _ hd⟩
    · obtain ⟨i, s', hs', hentry, hrest⟩ := ih hb
      exact ⟨i + 1, s', hs', hentry.trans (Nat.succ_add_eq_add_succ first i), hrest⟩

variable {b : Bound τ} {o : Options} {a : Assembly τ}

theorem Generates.exists_subroutine (h : b.Generates o a) {blk : Block τ} (hblk : blk ∈ a.blocks) :
    ∃ s, b.subroutines[blk.entry]? = some s ∧ blk.recursive = s.recursive ∧
      ∀ m ∈ Code.calls blk.code, ∃ c ∈ s.body.calls, c.1 = m := by
  obtain ⟨d, m, -, -, hblocks⟩ := h
  obtain ⟨i, s, hs, hentry, hrest⟩ := hblocks.exists_subroutine hblk
  exact ⟨s, (hentry.trans (Nat.zero_add i)).symm ▸ hs, hrest⟩

end Bound

end ParserMachine

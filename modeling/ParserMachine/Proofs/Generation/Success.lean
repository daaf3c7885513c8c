import ParserMachine.Proofs.Generation.Labels

/-!
# Code for all trees

Code generation fails at calls of subroutines that do not exist, and nowhere else: for trees without
such calls (`Bound.Closed`) there is code (`Bound.Closed.exists_generateIn`).
-/

namespace ParserMachine

variable {τ : Type} [Token τ] {α β : Type}

/-- A leaf that calls, if anything, one of the first `n` subroutines. -/
def Leaf.CallsBelow (n : Nat) : Leaf τ → Prop
  | call l _ => l < n
  | _ => True

/-- All calls go to the first `n` subroutines. -/
def Expr.CallsBelow (n : Nat) : Expr τ → Prop
  | leaf l => l.CallsBelow n
  | unary _ p => p.CallsBelow n
  | binary _ p q => p.CallsBelow n ∧ q.CallsBelow n

/-- All calls go to subroutines that exist. -/
structure Bound.Closed (b : Bound τ) : Prop where
  /-- The calls of the main expression. -/
  main : b.main.CallsBelow b.subroutines.length
  /-- The calls of the subroutines. -/
  bodies : ∀ s ∈ b.subroutines, s.body.CallsBelow b.subroutines.length

/-! ### Writing without failure -/

namespace Emit

/-- What is written does not fail, whatever label comes next. -/
def Succeeds (x : Emit α) : Prop := ∀ l, ∃ r, x.run l = .ok r

theorem Succeeds.pure (a : α) : Succeeds (Pure.pure a : Emit α) := fun l => ⟨(a, l), rfl⟩

theorem Succeeds.bind {x : Emit α} {f : α → Emit β} (hx : x.Succeeds) (hf : ∀ a, (f a).Succeeds) :
    Succeeds (x >>= f) := by
  intro l
  obtain ⟨⟨a, m⟩, ha⟩ := hx l
  obtain ⟨⟨b, k⟩, hb⟩ := hf a m
  exact ⟨(b, k), run_bind_eq_ok_iff.2 ⟨a, m, ha, hb⟩⟩

theorem Succeeds.map {x : Emit α} (hx : x.Succeeds) (f : α → β) : Succeeds (f <$> x) := by
  intro l
  obtain ⟨⟨a, m⟩, ha⟩ := hx l
  exact ⟨(f a, m), run_map_eq_ok_iff.2 ⟨a, ha, rfl⟩⟩

theorem succeeds_fresh : Succeeds fresh := fun l => ⟨(l, l + 1), rfl⟩

theorem succeeds_freshLabels (n : Nat) : Succeeds (freshLabels n) :=
  fun l => ⟨_, run_freshLabels n l⟩

theorem succeeds_mapM {f : α → Emit β} {as : List α} (h : ∀ a ∈ as, (f a).Succeeds) :
    Succeeds (as.mapM f) := by
  induction as with
  | nil =>
    rw [List.mapM_nil]
    exact .pure _
  | cons a as ih =>
    rw [List.mapM_cons]
    have hrest := ih fun b hb => h b (List.mem_cons_of_mem _ hb)
    exact (h a (List.mem_cons_self ..)).bind fun b => hrest.bind fun bs => .pure _

end Emit

open Emit

section Forms

variable {tgt : Target τ} {discard : Bool}

theorem Draft.succeeds_guarded {part : Emit (Draft τ)} (hpart : part.Succeeds) (snapshot : Bool)
    (leave : Label → Draft τ) (react : Instr τ Label) :
    (guarded snapshot part leave react).Succeeds :=
  succeeds_fresh.bind fun _ => succeeds_fresh.bind fun _ => hpart.bind fun _ => .pure _

theorem Leaf.succeeds_emit {l : Leaf τ} (h : l.CallsBelow tgt.subroutines.size) (discard : Bool) :
    (l.emit tgt discard).Succeeds := by
  cases l with
  | call l r =>
    have hl : l < tgt.subroutines.size := h
    show Succeeds (if l < tgt.subroutines.size then _ else _)
    rw [if_pos hl]
    exact .pure _
  | _ => exact .pure _

theorem Unary.succeeds_emit {part : Bool → Emit (Draft τ)} (hpart : ∀ discard, (part discard).Succeeds)
    (p : Expr τ) (discard : Bool) (u : Unary τ) : (u.emit tgt p part discard).Succeeds := by
  cases u with
  | map f => exact (hpart discard).bind fun _ => .pure _
  | lookAhead | attempt | label => exact Draft.succeeds_guarded (hpart discard) _ _ _
  | notFollowedBy => exact succeeds_fresh.bind fun _ => (hpart true).bind fun _ => .pure _
  | many =>
    unfold emit
    dsimp only
    split
    · exact .pure _
    · exact succeeds_fresh.bind fun _ => succeeds_fresh.bind fun _ => succeeds_fresh.bind fun _ =>
        (hpart discard).bind fun _ => .pure _
  | chunk =>
    cases discard with
    | true => exact hpart true
    | false => exact (hpart true).bind fun _ => .pure _
  | matchChunk =>
    cases discard with
    | true => exact hpart true
    | false => exact (hpart false).bind fun _ => .pure _
  | guard mode => cases mode <;> exact Draft.succeeds_guarded (hpart discard) _ _ _

theorem SeqKind.succeeds_emit {p q : Bool → Emit (Draft τ)} (hp : ∀ discard, (p discard).Succeeds)
    (hq : ∀ discard, (q discard).Succeeds) (discard : Bool) (kind : SeqKind τ) :
    (kind.emit p q discard).Succeeds := by
  cases kind <;> exact (hp _).bind fun _ => (hq _).bind fun _ => .pure _

theorem Draft.succeeds_branch {p q : Bool → Emit (Draft τ)} (hp : ∀ discard, (p discard).Succeeds)
    (hq : ∀ discard, (q discard).Succeeds) (f : Value τ → Value τ → Value τ) (discard : Bool) :
    (branch f p q discard).Succeeds :=
  succeeds_fresh.bind fun _ => succeeds_fresh.bind fun _ => (hp false).bind fun _ =>
    (hq false).bind fun _ => .pure _

/-- All operands have code. -/
def Operand.AllSucceed (as : List (Operand τ)) : Prop :=
  ∀ a ∈ as, ∀ discard, (a.emit discard).Succeeds

theorem Operand.allSucceed_nil : AllSucceed ([] : List (Operand τ)) :=
  fun _ ha => absurd ha List.not_mem_nil

theorem Operand.AllSucceed.cons {a : Operand τ} {rest : List (Operand τ)} (hrest : AllSucceed rest)
    (ha : ∀ discard, (a.emit discard).Succeeds) : AllSucceed (a :: rest) :=
  List.forall_mem_cons.2 ⟨ha, hrest⟩

namespace Draft

variable {alts others : List (Operand τ)} {table : List (Operand τ × Lead τ)}

theorem succeeds_chain (h : Operand.AllSucceed alts) (discard : Bool) :
    (chain alts discard).Succeeds :=
  succeeds_fresh.bind fun _ => (succeeds_freshLabels _).bind fun _ =>
    (succeeds_mapM fun a ha => h a ha discard).bind fun _ => .pure _

theorem succeeds_dispatch (htable : ∀ a ∈ table, ∀ discard, (a.1.emit discard).Succeeds)
    (hothers : Operand.AllSucceed others) (discard : Bool) :
    (dispatch table others discard).Succeeds := by
  have hparts := succeeds_mapM fun a ha => htable a ha discard
  have hotherParts := succeeds_mapM fun a ha => hothers a ha discard
  unfold dispatch
  cases others with
  | nil =>
    simp only [List.isEmpty_nil, if_true, pure_bind]
    refine succeeds_fresh.bind fun _ => (succeeds_freshLabels _).bind fun _ =>
      (succeeds_mapM fun e _ => ?_).bind fun _ => hparts.bind fun _ => hotherParts.bind fun _ =>
      .pure _
    split
    · exact .pure _
    · exact succeeds_fresh.map _
  | cons a others =>
    simp only [List.isEmpty_cons, Bool.false_eq_true, if_false, Bool.false_and]
    exact succeeds_fresh.bind fun _ => (succeeds_fresh.map _).bind fun _ =>
      (succeeds_freshLabels _).bind fun _ =>
      (succeeds_mapM fun e _ => succeeds_fresh.map _).bind fun _ =>
      (succeeds_freshLabels _).bind fun _ => hparts.bind fun _ => hotherParts.bind fun _ => .pure _

theorem succeeds_alternation (h : Operand.AllSucceed alts) (discard : Bool) :
    (alternation tgt alts discard).Succeeds := by
  refine alternation_cases tgt (succeeds_chain h discard) fun table others _ htable hothers => ?_
  exact succeeds_dispatch (fun x hx => h x.1 (htable x hx)) (fun a ha => h a (hothers a ha)) discard

theorem succeeds_ofOperands (h : Operand.AllSucceed alts) (discard : Bool) :
    (ofOperands tgt alts discard).Succeeds := by
  unfold ofOperands
  split
  · exact h _ (List.mem_singleton_self _) discard
  · exact succeeds_alternation h discard

end Draft

theorem Expr.succeeds_operands (p : Expr τ) (hp : p.CallsBelow tgt.subroutines.size)
    {rest : List (Operand τ)} (hrest : Operand.AllSucceed rest) :
    Operand.AllSucceed (p.operands tgt rest) := by
  induction p generalizing rest with
  | leaf l => exact hrest.cons fun discard => Leaf.succeeds_emit hp discard
  | unary u p ih =>
    exact hrest.cons fun discard =>
      Unary.succeeds_emit (fun d => Draft.succeeds_ofOperands (ih hp Operand.allSucceed_nil) d) p discard u
  | binary b p q ihp ihq =>
    cases b with
    | alt => exact ihp hp.1 (ihq hp.2 hrest)
    | seq kind =>
      exact hrest.cons fun discard =>
        SeqKind.succeeds_emit (fun d => Draft.succeeds_ofOperands (ihp hp.1 Operand.allSucceed_nil) d)
          (fun d => Draft.succeeds_ofOperands (ihq hp.2 Operand.allSucceed_nil) d) discard kind
    | branch f =>
      exact hrest.cons fun discard =>
        Draft.succeeds_branch (fun d => Draft.succeeds_ofOperands (ihp hp.1 Operand.allSucceed_nil) d)
          (fun d => Draft.succeeds_ofOperands (ihq hp.2 Operand.allSucceed_nil) d) f discard

theorem Expr.succeeds_emit {p : Expr τ} (hp : p.CallsBelow tgt.subroutines.size) (discard : Bool) :
    (p.emit tgt discard).Succeeds := Draft.succeeds_ofOperands (p.succeeds_operands hp Operand.allSucceed_nil)
    discard

end Forms

namespace Bound

/-- Trees whose calls go to subroutines that exist have code. -/
theorem Closed.exists_generateIn {b : Bound τ} (h : b.Closed) (discard : Bool) (o : Options) :
    ∃ a, b.generateIn discard o = .ok a := by
  have hblocks (first : Nat) (ss : List (Subroutine τ)) (hss : ∀ s ∈ ss, s ∈ b.subroutines) :
      (emitBlocks ⟨o, b.subroutines.toArray⟩ first ss).Succeeds := by
    induction ss generalizing first with
    | nil => exact .pure _
    | cons s ss ih =>
      have hs := h.bodies s (hss s (List.mem_cons_self ..))
      exact (Expr.succeeds_emit hs false).bind fun _ =>
        (ih _ fun s hs => hss s (List.mem_cons_of_mem _ hs)).bind fun _ => .pure _
  have hmain : (b.main.emit ⟨o, b.subroutines.toArray⟩ discard).Succeeds :=
    Expr.succeeds_emit h.main discard
  obtain ⟨⟨⟨main, blocks⟩, fresh⟩, hrun⟩ := (hmain.bind fun main =>
    (hblocks 0 b.subroutines fun s hs => hs).bind fun blocks => Succeeds.pure (main, blocks))
      b.subroutines.length
  refine ⟨⟨main.toCode, blocks, fresh⟩, ?_⟩
  unfold generateIn
  dsimp only
  rw [hrun]
  rfl

end Bound

end ParserMachine

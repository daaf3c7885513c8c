import ParserMachine.Assembly.Generate
import ParserMachine.Proofs.Lists
import ParserMachine.Proofs.Meaning.Tables

/-!
# What code generation writes

Code generation hands out labels and may fail, so what it writes is read off from a run that
succeeded: each emitter gives pieces that its parts wrote, with its own lines around them, and labels
in a row (`Emit.run_freshLabels`).
-/

namespace ParserMachine

variable {τ : Type} [Token τ] {α β γ : Type} {l l' : Nat} {discard : Bool} {d : Draft τ}

namespace Emit

theorem run_pure (a : α) (l : Nat) : StateT.run (pure a : Emit α) l = .ok (a, l) := rfl

/-- Two steps succeed if the first does and the second does from there. -/
theorem run_bind_eq_ok_iff {x : Emit α} {f : α → Emit β} {b : β} :
    StateT.run (x >>= f) l = .ok (b, l') ↔
      ∃ a m, x.run l = .ok (a, m) ∧ (f a).run m = .ok (b, l') := by
  show (x.run l >>= fun p => (f p.1).run p.2) = _ ↔ _
  cases x.run l with
  | error e => exact ⟨nofun, fun ⟨_, _, h, _⟩ => nomatch h⟩
  | ok p =>
    constructor
    · intro h
      exact ⟨p.1, p.2, rfl, h⟩
    · rintro ⟨a, m, h, h'⟩
      cases h
      exact h'

/-- After a fresh label the rest goes on with the next one. -/
theorem run_fresh_bind (f : Label → Emit α) (l : Nat) :
    StateT.run (Emit.fresh >>= f) l = (f l).run (l + 1) := rfl

/-- A step whose result is only rearranged succeeds where the step does. -/
theorem run_bind_pure_eq_ok_iff {x : Emit α} {f : α → β} {b : β} :
    StateT.run (x >>= fun a => pure (f a)) l = .ok (b, l') ↔
      ∃ a, x.run l = .ok (a, l') ∧ f a = b := by
  rw [run_bind_eq_ok_iff]
  constructor
  · rintro ⟨a, m, hx, h⟩
    cases h
    exact ⟨a, hx, rfl⟩
  · rintro ⟨a, hx, rfl⟩
    exact ⟨a, l', hx, rfl⟩

/-- Two parts in a row, put together by `f`: the second takes its labels where the first stopped. -/
theorem run_bind_bind_pure_eq_ok_iff {x : Emit α} {y : Emit β} {f : α → β → γ} {c : γ} :
    StateT.run (x >>= fun a => y >>= fun b => pure (f a b)) l = .ok (c, l') ↔
      ∃ a b m, x.run l = .ok (a, m) ∧ y.run m = .ok (b, l') ∧ f a b = c := by
  rw [run_bind_eq_ok_iff]
  simp only [run_bind_pure_eq_ok_iff]
  constructor
  · rintro ⟨a, m, hx, b, hy, h⟩
    exact ⟨a, b, m, hx, hy, h⟩
  · rintro ⟨a, b, m, hx, hy, h⟩
    exact ⟨a, m, hx, b, hy, h⟩

theorem run_map_eq_ok_iff {x : Emit α} {f : α → β} {b : β} :
    StateT.run (f <$> x) l = .ok (b, l') ↔ ∃ a, x.run l = .ok (a, l') ∧ f a = b :=
  run_bind_pure_eq_ok_iff

/-- What is written for the items of a list, one after another. -/
inductive Each (f : α → Emit β) : Nat → List α → List β → Nat → Prop where
  | nil (k : Nat) : Each f k [] [] k
  | cons {k m k' : Nat} {a : α} {b : β} {as : List α} {bs : List β} :
    (f a).run k = .ok (b, m) → Each f m as bs k' → Each f k (a :: as) (b :: bs) k'

theorem each_of_mapM {f : α → Emit β} {as : List α} {bs : List β}
    (h : StateT.run (as.mapM f) l = .ok (bs, l')) : Each f l as bs l' := by
  induction as generalizing l bs with
  | nil =>
    rw [List.mapM_nil, run_pure] at h
    cases h
    exact .nil _
  | cons a as ih =>
    rw [List.mapM_cons, run_bind_bind_pure_eq_ok_iff] at h
    obtain ⟨b, bs, m, hb, hbs, rfl⟩ := h
    exact .cons hb (ih hbs)

theorem Each.length_eq {f : α → Emit β} {as : List α} {bs : List β} (h : Each f l as bs l') :
    bs.length = as.length := by
  induction h with
  | nil => rfl
  | cons _ _ ih => rw [List.length_cons, List.length_cons, ih]

/-- Each item of what is written is written for its item of the list. -/
theorem Each.forall₂ {f : α → Emit β} {as : List α} {bs : List β} (h : Each f l as bs l') :
    List.Forall₂ (fun a b => ∃ m m', (f a).run m = .ok (b, m')) as bs := by
  induction h with
  | nil => exact .nil
  | cons hb _ ih => exact .cons ⟨_, _, hb⟩ ih

theorem run_freshLabels (n l : Nat) :
    (Emit.freshLabels n).run l = .ok (List.range' l n, l + n) := by
  unfold freshLabels
  induction n generalizing l with
  | zero => rfl
  | succ n ih =>
    rw [List.replicate_succ, List.mapM_cons, run_fresh_bind]
    show (StateT.run ((List.replicate n ()).mapM fun _ => fresh) (l + 1) >>= _) = _
    rw [ih (l + 1), Nat.add_right_comm]
    rfl

end Emit

open Emit

/-! ### Forms -/

/-- A call is only written to a subroutine that exists. -/
theorem Leaf.of_emit_call {tgt : Target τ} {c : Label} {r : Bool}
    (h : (Leaf.emit tgt discard (.call c r)).run l = .ok (d, l')) :
    c < tgt.subroutines.size ∧ l' = l ∧
      d.toCode = [Line.instr (.call c)] ++ (Draft.only discard .pop).toCode := by
  rw [Leaf.emit] at h
  by_cases hc : c < tgt.subroutines.size
  · rw [if_pos hc] at h
    cases h
    exact ⟨hc, rfl, Draft.toCode_append _ _⟩
  · rw [if_neg hc] at h
    cases h

namespace Draft

theorem exists_of_guarded {snapshot : Bool} {part : Emit (Draft τ)} {leave : Label → Draft τ}
    {react : Instr τ Label} (h : (guarded snapshot part leave react).run l = .ok (d, l')) :
    ∃ c, part.run (l + 2) = .ok (c, l') ∧
      d.toCode = .instr (.checkpoint l snapshot) :: c.toCode ++ (leave (l + 1)).toCode ++
        [Line.mark l, .instr react, .mark (l + 1)] := by
  unfold guarded at h
  rw [run_fresh_bind, run_fresh_bind, run_bind_pure_eq_ok_iff] at h
  obtain ⟨c, hc, rfl⟩ := h
  refine ⟨c, hc, ?_⟩
  simp [instr]

theorem exists_of_repetition {part : Bool → Emit (Draft τ)}
    (h : (repetition discard part).run l = .ok (d, l')) :
    ∃ c, (part discard).run (l + 3) = .ok (c, l') ∧
      d.toCode = (only (!discard) .newList).toCode ++
        [Line.instr (.checkpoint (l + 1) false), .mark l] ++ c.toCode ++
        [Line.instr (.loop l (l + 2) !discard), .mark (l + 1), .instr .manyDone, .mark (l + 2)] := by
  unfold repetition at h
  rw [run_fresh_bind, run_fresh_bind, run_fresh_bind, run_bind_pure_eq_ok_iff] at h
  obtain ⟨c, hc, rfl⟩ := h
  refine ⟨c, hc, ?_⟩
  simp

theorem exists_of_branch {f : Value τ → Value τ → Value τ} {p q : Bool → Emit (Draft τ)}
    (h : (branch f p q discard).run l = .ok (d, l')) :
    ∃ c c' m, (p false).run (l + 2) = .ok (c, m) ∧ (q false).run m = .ok (c', l') ∧
      d.toCode = c.toCode ++ [Line.instr (.case l), .instr (.jump (l + 1)), .mark l] ++ c'.toCode ++
        [Line.instr (.lift2 f), .mark (l + 1)] ++ (only discard .pop).toCode := by
  unfold branch at h
  rw [run_fresh_bind, run_fresh_bind, run_bind_bind_pure_eq_ok_iff] at h
  obtain ⟨c, c', m, hc, hc', rfl⟩ := h
  refine ⟨c, c', m, hc, hc', ?_⟩
  simp

/-! ### Alternatives -/

theorem exists_of_chain {alts : List (Operand τ)}
    (h : (chain alts discard).run l = .ok (d, l')) :
    ∃ cs, Each (fun a : Operand τ => a.emit discard) (l + 1 + (alts.length - 1)) alts cs l' ∧
      d = tryInOrder l (List.range' (l + 1) (alts.length - 1)) cs := by
  unfold chain at h
  rw [run_fresh_bind, run_bind_eq_ok_iff] at h
  obtain ⟨hs, m, hhs, h⟩ := h
  rw [run_freshLabels] at hhs
  cases hhs
  rw [run_bind_pure_eq_ok_iff] at h
  obtain ⟨cs, hcs, rfl⟩ := h
  exact ⟨cs, each_of_mapM hcs, rfl⟩

/-- The label of a handler, where one is needed. -/
def handlerFor (noOthers : Bool) (e : ExpectedSet τ) : Emit (Option Label) :=
  if noOthers && e.isEmpty then pure none else some <$> Emit.fresh

/-- The code of a table that chooses among all alternatives. -/
theorem exists_of_dispatch_nil {table : List (Operand τ × Lead τ)}
    (h : (dispatch table [] discard).run l = .ok (d, l')) :
    ∃ hs parts m, Each (handlerFor true) (l + 1 + table.length)
        (Dispatch.after (table.map Prod.snd)) hs m ∧
      Each (fun a : Operand τ × Lead τ => a.1.emit discard) m table parts l' ∧
      d.toCode = .instr (.dispatch (Dispatch.entries (table.map Prod.snd))
          (List.range' (l + 1) table.length) (Dispatch.before (table.map Prod.snd))
          (Dispatch.all (table.map Prod.snd)) none) ::
        (allChosen l none (List.range' (l + 1) table.length) hs
          (Dispatch.after (table.map Prod.snd)) parts).toCode ++ [] ++ [Line.mark l] := by
  unfold dispatch at h
  rw [run_fresh_bind] at h
  simp only [List.isEmpty_nil, if_true, pure_bind, List.mapM_nil, Bool.true_and] at h
  rw [run_bind_eq_ok_iff] at h
  obtain ⟨ts, m, hts, h⟩ := h
  rw [run_freshLabels] at hts
  cases hts
  rw [run_bind_bind_pure_eq_ok_iff] at h
  obtain ⟨hs, parts, m, hhs, hparts, rfl⟩ := h
  refine ⟨hs, parts, m, each_of_mapM hhs, each_of_mapM hparts, ?_⟩
  simp [instr, mark, nothing]

/-- The code of a table that leaves some alternatives out. -/
theorem exists_of_dispatch_cons {table : List (Operand τ × Lead τ)} {o : Operand τ}
    {others : List (Operand τ)}
    (h : (dispatch table (o :: others) discard).run l = .ok (d, l')) :
    ∃ hs parts otherParts m m', Each (handlerFor false) (l + 2 + table.length)
        (Dispatch.after (table.map Prod.snd)) hs m ∧
      Each (fun a : Operand τ × Lead τ => a.1.emit discard) (m + (others.length + 1)) table
        parts m' ∧
      Each (fun a : Operand τ => a.emit discard) m' (o :: others) otherParts l' ∧
      d.toCode = .instr (.dispatch (Dispatch.entries (table.map Prod.snd))
          (List.range' (l + 2) table.length) (Dispatch.before (table.map Prod.snd))
          (Dispatch.all (table.map Prod.snd)) (some (l + 1))) ::
        (allChosen l (some (l + 1)) (List.range' (l + 2) table.length) hs
          (Dispatch.after (table.map Prod.snd)) parts).toCode ++
        (.mark (l + 1) ::
          (tryInOrder m (List.range' (m + 1) others.length) otherParts).toCode) ++ [Line.mark l] := by
  unfold dispatch at h
  rw [run_fresh_bind] at h
  simp only [List.isEmpty_cons, Bool.false_eq_true, if_false, Bool.false_and] at h
  rw [run_bind_eq_ok_iff] at h
  obtain ⟨f, m, hf, h⟩ := h
  rw [run_map_eq_ok_iff] at hf
  obtain ⟨f, hf, rfl⟩ := hf
  cases hf
  rw [run_bind_eq_ok_iff] at h
  obtain ⟨ts, m, hts, h⟩ := h
  rw [run_freshLabels] at hts
  cases hts
  rw [run_bind_eq_ok_iff] at h
  obtain ⟨hs, m, hhs, h⟩ := h
  rw [run_bind_eq_ok_iff] at h
  obtain ⟨ls, m', hls, h⟩ := h
  rw [run_freshLabels] at hls
  cases hls
  rw [run_bind_bind_pure_eq_ok_iff] at h
  obtain ⟨parts, otherParts, m', hparts, hothers, rfl⟩ := h
  refine ⟨hs, parts, otherParts, m, m', each_of_mapM hhs, each_of_mapM hparts,
    each_of_mapM hothers, ?_⟩
  simp [instr, mark, List.range'_succ]

section Choice

variable {P : Emit (Draft τ) → Prop} (tgt : Target τ) {as : List (Operand τ)}
  (hchain : P (chain as discard))
  (hdispatch : ∀ (table : List (Operand τ × Lead τ)) (others : List (Operand τ)), 2 ≤ table.length →
    (∀ x ∈ table, x.1 ∈ as) → (∀ a ∈ others, a ∈ as) → P (dispatch table others discard))

include hchain hdispatch

/-- Several alternatives are tried in order or, where at least two of them can be told apart, chosen by a table. -/
theorem alternation_cases : P (alternation tgt as discard) := by
  unfold alternation
  split
  · dsimp only
    split
    · exact hchain
    · rename_i hlen
      exact hdispatch _ _ (Nat.not_lt.1 hlen) Dispatch.mem_of_mem_sortFrom.1 Dispatch.mem_of_mem_sortFrom.2
  · exact hchain

/-- The same of operands: one alone is no alternation. -/
theorem ofOperands_cases (hone : ∀ a ∈ as, P (a.emit discard)) : P (ofOperands tgt as discard) := by
  unfold ofOperands
  split
  · exact hone _ (List.mem_singleton_self _)
  · exact alternation_cases tgt hchain hdispatch

end Choice

end Draft

end ParserMachine

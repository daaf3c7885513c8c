import ParserMachine.Proofs.Lists
import ParserMachine.Proofs.Meaning.Tables
import ParserMachine.Proofs.Meaning.Tree

/-!
# How deep trees are evaluated

A reply of a tree, once there, does not depend on the depth, whether tables choose or not (`Expr.evalAt_mono`).
-/

namespace ParserMachine

variable {τ : Type} [Token τ]

namespace Run

variable {p p' : Run τ} {ps ps' others others' : List (Run τ)} {input : Array τ}

/-! ### The code of a table -/

/-- A table chooses an alternative that begins with the current token, with what is expected before it among
the hints; or none begins with it. -/
theorem byTable_cases (input : Array τ) (table : List (Run τ × Lead τ)) (others : List (Run τ)) (r : Reading τ) :
    (∃ (k : Nat) (x : Run τ × Lead τ) (t : τ) (after : ExpectedSet τ) (s : Reading τ),
      table[k]? = some x ∧ r.current? input = some t ∧ t ∈ x.2.tokens ∧
      (s = r ∨ ∃ expected, s = r.hint (r.errorHere input expected)) ∧
      byTable input table others r = chosen input others after x.1 s) ∨
    (∀ l ∈ table.map Prod.snd, ∀ t, r.current? input = some t → t ∉ l.tokens) ∧
      byTable input table others r =
        if others.isEmpty then some (.failed (r.errorHere input (Dispatch.all (table.map Prod.snd))) r)
        else inOrder others (r.hint (r.errorHere input (Dispatch.all (table.map Prod.snd)))) := by
  cases hk : (r.current? input).bind fun t => (Dispatch.entries (table.map Prod.snd)).lookup t with
  | none =>
    refine .inr ⟨fun l hl t ht => ?_, ?_⟩
    · rw [ht] at hk
      exact Dispatch.not_mem_of_lookup_entries hk l hl
    · unfold byTable
      simp only [hk]
  | some k =>
    obtain ⟨t, ht, hlookup⟩ := Option.bind_eq_some_iff.1 hk
    obtain ⟨l, hl, htl⟩ := Dispatch.exists_of_lookup_entries hlookup
    have hlt : k < (table.map Prod.snd).length := (List.getElem?_eq_some_iff.1 hl).1
    rw [List.getElem?_map, Option.map_eq_some_iff] at hl
    obtain ⟨x, hx, rfl⟩ := hl
    have hbefore := hlt
    rw [← Dispatch.length_before] at hbefore
    have hafter := hlt
    rw [← Dispatch.length_after (List.ne_nil_of_length_pos (Nat.zero_lt_of_lt hlt))] at hafter
    let begun := if (Dispatch.before (table.map Prod.snd))[k].isEmpty then r
      else r.hint (r.errorHere input (Dispatch.before (table.map Prod.snd))[k])
    refine .inl ⟨k, x, t, (Dispatch.after (table.map Prod.snd))[k], begun, hx, ht, htl, ?_, ?_⟩
    · dsimp only [begun]
      split
      · exact .inl rfl
      · exact .inr ⟨_, rfl⟩
    · unfold byTable
      simp only [hk, hx, List.getElem?_eq_getElem hbefore, List.getElem?_eq_getElem hafter, begun]

/-! ### Monotony -/

theorem inOrder_mono (h : List.Forall₂ (fun p p' => p'.Extends p) ps ps') :
    (inOrder ps').Extends (inOrder ps) := by
  induction h with
  | nil => exact .refl _
  | cons hp hps ih =>
    cases hps with
    | nil => exact hp
    | cons hq hqs => exact orElse_mono hp ih

theorem chosen_mono (hothers : List.Forall₂ (fun p p' => p'.Extends p) others others') (hp : p'.Extends p)
    (after : ExpectedSet τ) : (chosen input others' after p').Extends (chosen input others after p) := by
  have hempty : others'.isEmpty = others.isEmpty := by
    cases hothers <;> rfl
  unfold chosen
  rw [hempty]
  split
  · exact hp
  · apply orElse_mono hp
    intro r reply h
    unfold afterChosen at h ⊢
    rw [hempty]
    split at h
    · rename_i hnone
      rwa [if_pos hnone]
    · rename_i hsome
      rw [if_neg hsome]
      exact inOrder_mono hothers _ _ h

theorem byTable_mono {table table' : List (Run τ × Lead τ)}
    (htable : List.Forall₂ (fun x x' => x'.1.Extends x.1 ∧ x.2 = x'.2) table table')
    (hothers : List.Forall₂ (fun p p' => p'.Extends p) others others') :
    (byTable input table' others').Extends (byTable input table others) := by
  have hleads : table'.map Prod.snd = table.map Prod.snd := by
    rw [← List.forall₂_eq_eq_eq, List.forall₂_map_left_iff, List.forall₂_map_right_iff]
    exact htable.flip.imp fun _ _ h => h.2.symm
  have hempty : others'.isEmpty = others.isEmpty := by
    cases hothers <;> rfl
  intro r reply h
  unfold byTable at h ⊢
  rw [hleads, hempty]
  dsimp only at h ⊢
  cases hk : (r.current? input).bind fun t => (Dispatch.entries (table.map Prod.snd)).lookup t with
  | some k =>
    simp only [hk] at h ⊢
    split at h
    · rename_i p l before after hx hbefore hafter
      obtain ⟨⟨p', l'⟩, hx', hp, -⟩ := getElem?_of_forall₂ htable hx
      simp only [hx', hbefore, hafter]
      exact chosen_mono hothers hp after _ _ h
    · cases h
  | none =>
    simp only [hk] at h ⊢
    split at h
    · rename_i hnone
      rwa [if_pos hnone]
    · rename_i hsome
      rw [if_neg hsome]
      exact inOrder_mono hothers _ _ h

end Run

/-- The second alternative gives every reply that the first gives, and the same is known of both. -/
def Choice.ExtendedBy (c c' : Choice τ) : Prop := c.lead = c'.lead ∧ c'.run.Extends c.run

theorem Run.ofChoices_mono {tgt : Target τ} {input : Array τ} {alts alts' : List (Choice τ)}
    (h : List.Forall₂ Choice.ExtendedBy alts alts') :
    (ofChoices tgt input alts').Extends (ofChoices tgt input alts) := by
  have hmap {cs cs' : List (Choice τ)} (h : List.Forall₂ Choice.ExtendedBy cs cs') :
      List.Forall₂ (fun p p' : Run τ => p'.Extends p) (cs.map Choice.run) (cs'.map Choice.run) :=
    List.forall₂_map_left_iff.2 (List.forall₂_map_right_iff.2 (h.imp fun _ _ h => h.2))
  obtain ⟨htable, hothers⟩ := Dispatch.sortFrom_forall₂ (fun _ _ h => h.1) h []
  unfold ofChoices Dispatch.sort
  dsimp only
  rw [htable.length_eq]
  split
  · split
    · exact inOrder_mono (hmap h)
    · refine byTable_mono ?_ (hmap hothers)
      rw [List.forall₂_map_left_iff, List.forall₂_map_right_iff]
      exact htable.imp fun _ _ h => ⟨h.1.2, h.2⟩
  · exact inOrder_mono (hmap h)

namespace Expr

section Settings

variable {x y : Setting τ} (htarget : y.target = x.target) (hinput : y.input = x.input)
  (hcall : ∀ l, (y.ofCall l).Extends (x.ofCall l)) (hrounds : x.rounds ≤ y.rounds)
include htarget hinput hcall hrounds

theorem choices_mono (p : Expr τ) {rest rest' : List (Choice τ)}
    (h : List.Forall₂ Choice.ExtendedBy rest rest') :
    List.Forall₂ Choice.ExtendedBy (p.choices x rest) (p.choices y rest') := by
  have hpart (q : Expr τ) (hq : List.Forall₂ Choice.ExtendedBy (q.choices x []) (q.choices y [])) :
      (q.run y).Extends (q.run x) := by
    unfold run
    rw [htarget, hinput]
    exact Run.ofChoices_mono hq
  have hlead (q : Expr τ) : q.lead x.target.subroutines = q.lead y.target.subroutines := by rw [htarget]
  induction p generalizing rest rest' with
  | leaf l =>
    refine .cons ⟨hlead _, ?_⟩ h
    rw [hinput]
    exact Leaf.run_mono hcall l
  | unary u p ih =>
    refine .cons ⟨hlead _, ?_⟩ h
    show (u.run y.input y.rounds (p.run y)).Extends (u.run x.input x.rounds (p.run x))
    rw [hinput]
    exact Unary.run_mono (hpart p (ih .nil)) hrounds u
  | binary b p q ihp ihq =>
    have hp := hpart p (ihp .nil)
    have hq := hpart q (ihq .nil)
    cases b with
    | alt => exact ihp (ihq h)
    | seq kind => exact .cons ⟨hlead _, Binary.run_mono hp hq (.seq kind)⟩ h
    | branch f => exact .cons ⟨hlead _, Binary.run_mono hp hq (.branch f)⟩ h

theorem run_mono (p : Expr τ) : (p.run y).Extends (p.run x) := by
  unfold run
  rw [htarget, hinput]
  exact Run.ofChoices_mono (choices_mono htarget hinput hcall hrounds p .nil)

end Settings

/-- A reply does not depend on the depth. -/
theorem evalAt_mono {tgt : Target τ} {input : Array τ} {n m : Nat} (hnm : n ≤ m) (p : Expr τ) :
    (p.evalAt tgt input m).Extends (p.evalAt tgt input n) := by
  induction n generalizing m p with
  | zero => exact Run.extends_never _
  | succ n ih =>
    obtain ⟨m, rfl⟩ := Nat.exists_eq_succ_of_ne_zero (Nat.ne_zero_of_lt hnm)
    have hnm' := Nat.le_of_succ_le_succ hnm
    refine run_mono (x := settingAt tgt input n) (y := settingAt tgt input m) rfl rfl (fun l => ?_) ?_ p
    · show (callsAt tgt input m l).Extends (callsAt tgt input n l)
      unfold callsAt
      split
      · exact ih hnm' _
      · exact .refl _
    · show n + input.size + 1 ≤ m + input.size + 1
      omega

end Expr

end ParserMachine

import ParserMachine.Proofs.Recognition.Leads
import ParserMachine.Proofs.Recognition.Rules

/-!
# Tables keep what is recognised

Where a token is in the lead of an alternative in the table, all alternatives before it fail in place: those in
the table begin with other tokens, and so do those that were left out before it, since their tokens count as
seen. Hence the alternative may be tried first, and then those that were left out (`Dispatch.hit`). Where no
lead has the token, only those that were left out are of use (`Dispatch.miss`). So a table recognises what its
alternatives do in order (`Run.covers_ofChoices`), and trees in which tables choose what they do without
(`Bound.Without.evalAt_covers`).
-/

namespace ParserMachine

variable {τ : Type} [Token τ]

open Reply

namespace Run

variable {p p' q rest : Run τ} {ps : List (Run τ)} {i : Nat} {input : Array τ}

/-! ### In order -/

theorem blind_inOrder (h : ∀ p ∈ ps, p.Blind) : (inOrder ps).Blind := covers_inOrder (List.forall₂_same.2 h)

/-- The first of several parsers may be followed by the others as one. -/
theorem covers_inOrder_cons (hp : p.Blind) (hps : ∀ q ∈ ps, q.Blind) :
    (p.orElse (inOrder ps)).Covers (inOrder (p :: ps)) := by
  cases ps with
  | nil => exact fun r r' hr => covered_orElse (hp r r' hr) fun r₁ hr₁ => ⟨_, rfl, _, r₁, rfl, hr₁⟩
  | cons q ps => exact blind_inOrder (List.forall_mem_cons.2 ⟨hp, hps⟩)

theorem inOrder_cons_covers (hp : p.Blind) (hps : ∀ q ∈ ps, q.Blind) :
    (inOrder (p :: ps)).Covers (p.orElse (inOrder ps)) := by
  cases ps with
  | nil =>
    intro r r' hr
    refine covered_of_orElse (hp r r' hr) fun r₁ reply hr₁ h => ?_
    cases h
    exact ⟨_, r₁, rfl, hr₁⟩
  | cons q ps => exact blind_inOrder (List.forall_mem_cons.2 ⟨hp, hps⟩)

/-- A parser that fails at the place is passed over. -/
theorem CoversAt.pass (h : rest.CoversAt i q)
    (hp : ∀ r reply, r.offset = i → p r = some reply → reply.FailedAt i) : rest.CoversAt i (p.orElse q) := by
  intro r r' hr hr'
  cases hpr : p r with
  | none =>
    rw [show p.orElse q r = none from handle_of_none hpr]
    exact covered_none
  | some reply =>
    obtain ⟨e, r₁, rfl, hr₁⟩ := hp r reply hr hpr
    rw [show p.orElse q r = _ from handle_of_failed hpr, if_pos (hr₁.trans hr.symm)]
    exact h _ r' hr₁ hr'

/-- A parser that is known to fail at the place may go ahead. -/
theorem CoversAt.ahead (h : rest.CoversAt i q) (hp : p.Blind) {r : Reading τ} (hr : r.offset = i)
    {reply : Reply τ} (hpr : p r = some reply) (hfailed : reply.FailedAt i) :
    (p.orElse rest).CoversAt i q := by
  obtain ⟨e, r₁, rfl, hr₁⟩ := hfailed
  intro s s' hs hs'
  obtain ⟨_, hps, hlike⟩ := hp r s' (hr.trans hs'.symm) _ hpr
  obtain ⟨e', s₁, rfl, hs₁⟩ := hlike.eq_failed
  have hplace : s₁.offset = i := hs₁.symm.trans hr₁
  rw [show p.orElse rest s' = _ from handle_of_failed hps, if_pos (hplace.trans hs'.symm)]
  exact h s _ hs hplace

/-! ### The code of a table -/

section Table

variable {others : List (Run τ)} (hothers : (inOrder others).Covers rest)
  (hempty : others = [] → ∀ r reply, rest r = some reply → reply.FailedAt r.offset)
include hothers hempty

/-- An alternative that a table chose is followed by those that were left out. -/
theorem covers_chosen (hp : p'.Covers p) (after : ExpectedSet τ) :
    (chosen input others after p').Covers (p.orElse rest) := by
  unfold chosen
  split
  · rename_i hnone
    simp only [Bool.and_eq_true, List.isEmpty_iff] at hnone
    exact fun r r' hr => covered_of_orElse (hp r r' hr) fun r₁ reply hr₁ h =>
      hr₁ ▸ hempty hnone.1 r₁ reply h
  · refine covers_orElse hp fun r r' hr => ?_
    unfold afterChosen
    split
    · rename_i hnone
      intro reply hreply
      obtain ⟨e, r₁, rfl, hr₁⟩ := hempty (List.isEmpty_iff.1 hnone) r reply hreply
      exact ⟨_, rfl, hr₁.trans hr⟩
    · refine hothers _ _ (hr.trans ?_)
      split <;> rfl

/-- A table covers what it does on a hit and on a miss. -/
theorem covers_byTable {table : List (Run τ × Lead τ)}
    (hmiss : ∀ i, (∀ x ∈ table, ∀ t, input[i]? = some t → t ∉ x.2.tokens) → rest.CoversAt i q)
    (hhit : ∀ (i k : Nat) (x : Run τ × Lead τ) (t : τ), table[k]? = some x → input[i]? = some t →
      t ∈ x.2.tokens → ∃ p : Run τ, x.1.Covers p ∧ (p.orElse rest).CoversAt i q) :
    (byTable input table others).Covers q := by
  intro r r' hr
  rcases byTable_cases input table others r' with ⟨k, x, t, after, s, hx, ht, htx, hs, heq⟩ | ⟨hnone, heq⟩
  · obtain ⟨p, hp, hcovers⟩ := hhit r'.offset k x t hx ht htx
    have hplace : s.offset = r'.offset := by
      rcases hs with rfl | ⟨expected, rfl⟩ <;> rfl
    rw [heq]
    exact (hcovers.trans ((covers_chosen hothers hempty hp after).coversAt _)) r s hr hplace
  · have hrest : rest.CoversAt r'.offset q :=
      hmiss _ fun x hx t ht => hnone x.2 (List.mem_map_of_mem hx) t ht
    rw [heq]
    split
    · rename_i hothers
      refine (hrest r r' hr rfl).trans fun reply hreply => ?_
      obtain ⟨e, r₁, rfl, hr₁⟩ := hempty (List.isEmpty_iff.1 hothers) r' reply hreply
      exact ⟨_, rfl, hr₁⟩
    · exact (hrest.trans (hothers.coversAt _)) r _ hr rfl

end Table

end Run

open Run

/-! ### Sorting -/

/-- An alternative that a table may choose: what it recognises depends on the place only, and its lead is
right. -/
structure Choice.Fits (input : Array τ) (c : Choice τ) : Prop where
  /-- Hints do not matter. -/
  blind : c.run.Blind
  /-- The lead is right. -/
  begins : ∀ l, c.lead = some l → l.Begins input c.run

namespace Dispatch

variable {input : Array τ} {alts : List (Choice τ)} {seen : List τ} {i : Nat}
  (hfits : ∀ c ∈ alts, c.Fits input)
include hfits

theorem blind_of_mem_others : ∀ p ∈ (sortFrom Choice.lead seen alts).2.map Choice.run, p.Blind := by
  intro p hp
  obtain ⟨c, hc, rfl⟩ := List.mem_map.1 hp
  exact (hfits c (mem_of_mem_sortFrom.2 c hc)).blind

/-- Where the table has no alternative, those that it leaves out are tried. -/
theorem miss (hmiss : ∀ x ∈ (sortFrom Choice.lead seen alts).1, ∀ t, input[i]? = some t → t ∉ x.2.tokens) :
    (inOrder ((sortFrom Choice.lead seen alts).2.map Choice.run)).CoversAt i
      (inOrder (alts.map Choice.run)) := by
  induction alts generalizing seen with
  | nil => exact fun r r' hr hr' => covered_failed (hr.trans hr'.symm)
  | cons c alts ih =>
    obtain ⟨hc, halts⟩ := List.forall_mem_cons.1 hfits
    have hblind : ∀ p ∈ alts.map Choice.run, p.Blind := List.forall_mem_map.2 fun a ha => (halts a ha).blind
    have hcons := (covers_inOrder_cons hc.blind hblind).coversAt i
    rw [sortFrom_cons] at hmiss ⊢
    cases hlead : c.lead with
    | none => exact (blind_inOrder (List.forall_mem_cons.2 ⟨hc.blind, hblind⟩)).coversAt i
    | some l =>
      rw [hlead] at hmiss
      dsimp only at hmiss ⊢
      split at hmiss
      · rename_i hmeets
        rw [if_pos hmeets]
        have hrest := (hc.blind.coversAt i).orElse (ih halts hmiss)
        exact (hcons.trans hrest).trans
          ((inOrder_cons_covers hc.blind (blind_of_mem_others halts)).coversAt i)
      · rename_i hmeets
        rw [if_neg hmeets]
        obtain ⟨hhead, hmiss⟩ := List.forall_mem_cons.1 hmiss
        refine hcons.trans ((ih halts hmiss).pass fun r reply hr h => ?_)
        subst hr
        exact (hc.begins l hlead r hhead reply h).failedAt

/-- Where the table has an alternative, it is tried, and then those that the table leaves out. -/
theorem hit {k : Nat} {x : Choice τ × Lead τ} {t : τ} (hx : (sortFrom Choice.lead seen alts).1[k]? = some x)
    (ht : input[i]? = some t) (htx : t ∈ x.2.tokens) :
    (x.1.run.orElse (inOrder ((sortFrom Choice.lead seen alts).2.map Choice.run))).CoversAt i
      (inOrder (alts.map Choice.run)) := by
  induction alts generalizing seen k with
  | nil => cases hx
  | cons c alts ih =>
    have hxblind : x.1.run.Blind := (hfits x.1 (mem_of_mem_sortFrom.1 x (List.mem_of_getElem? hx))).blind
    obtain ⟨hc, halts⟩ := List.forall_mem_cons.1 hfits
    have hcons := (covers_inOrder_cons hc.blind
      (List.forall_mem_map.2 fun a ha => (halts a ha).blind)).coversAt i
    rw [sortFrom_cons] at hx ⊢
    cases hlead : c.lead with
    | none =>
      rw [hlead] at hx
      cases hx
    | some l =>
      rw [hlead] at hx
      dsimp only at hx ⊢
      -- the first alternative fails if `x` comes behind it
      have hfailed {j : Nat} (hj : (sortFrom Choice.lead (seen ++ l.tokens.filter (· ∉ seen)) alts).1[j]? = some x)
          (r : Reading τ) (reply : Reply τ) (hr : r.offset = i) (h : c.run r = some reply) :
          reply.FailedAt i := by
        subst hr
        refine (hc.begins l hlead r (fun u hu hul => ?_) reply h).failedAt
        cases ht.symm.trans hu
        exact not_mem_seen x (List.mem_of_getElem? hj) t htx (mem_seen hul seen)
      split at hx
      · rename_i hmeets
        rw [if_pos hmeets]
        refine hcons.trans fun r r' hr hr' => ?_
        cases hcr : c.run r with
        | none =>
          rw [show c.run.orElse _ r = none from handle_of_none hcr]
          exact covered_none
        | some reply =>
          have hothers := @blind_of_mem_others _ _ _ _ (seen ++ l.tokens.filter (· ∉ seen)) halts
          have hahead := (((blind_inOrder hothers).coversAt i).ahead hc.blind hr hcr
            (hfailed hx r reply hr hcr)).trans ((inOrder_cons_covers hc.blind hothers).coversAt i)
          exact (((ih halts hx).trans ((hxblind.coversAt i).orElse hahead)).pass (hfailed hx)) r r' hr hr'
      · rename_i hmeets
        rw [if_neg hmeets]
        cases k with
        | zero =>
          cases hx
          refine hcons.trans ((hc.blind.coversAt i).orElse (miss halts fun y hy u hu huy => ?_))
          cases ht.symm.trans hu
          exact not_mem_seen y hy t huy (mem_seen htx seen)
        | succ k => exact hcons.trans ((ih halts hx).pass (hfailed hx))

end Dispatch

/-! ### Trees -/

/-- A table may choose the first alternative, and the second one does what it does. -/
structure Choice.Matches (input : Array τ) (c c' : Choice τ) : Prop extends c.Fits input where
  /-- The same is known of both. -/
  lead : c.lead = c'.lead
  /-- The second does what the first does. -/
  covers : c'.run.Covers c.run

/-- A table recognises what the alternatives recognise in order. -/
theorem Run.covers_ofChoices (tgt : Target τ) {input : Array τ} {alts alts' : List (Choice τ)}
    (h : List.Forall₂ (Choice.Matches input) alts alts') :
    (ofChoices tgt input alts').Covers (inOrder (alts.map Choice.run)) := by
  have hmap {cs cs' : List (Choice τ)} (h : List.Forall₂ (Choice.Matches input) cs cs') :
      (inOrder (cs'.map Choice.run)).Covers (inOrder (cs.map Choice.run)) :=
    covers_inOrder (List.forall₂_map_left_iff.2 (List.forall₂_map_right_iff.2 (h.imp fun _ _ h => h.covers)))
  have hfits : ∀ c ∈ alts, c.Fits input := fun c hc =>
    have ⟨_, _, hmatches⟩ := exists_of_mem_forall₂ h.flip hc
    hmatches.toFits
  obtain ⟨htable, hothers⟩ := Dispatch.sortFrom_forall₂ (fun _ _ h => h.lead) h []
  unfold ofChoices
  split
  · unfold Dispatch.sort
    dsimp only
    split
    · exact hmap h
    · refine covers_byTable (hmap hothers) (fun hnone r reply hreply => ?_) (fun i hmiss => ?_)
        fun i k x t hx ht htx => ?_
      · rw [List.map_eq_nil_iff] at hnone
        rw [hnone, List.forall₂_nil_right_iff] at hothers
        rw [hothers] at hreply
        cases hreply
        exact ⟨_, r, rfl, rfl⟩
      · refine Dispatch.miss hfits fun x hx t ht => ?_
        obtain ⟨x', hx', -, hlead⟩ := exists_of_mem_forall₂ htable.flip hx
        exact hlead ▸ hmiss (x'.1.run, x'.2) (List.mem_map_of_mem hx') t ht
      · rw [List.getElem?_map, Option.map_eq_some_iff] at hx
        obtain ⟨x', hx', rfl⟩ := hx
        obtain ⟨y, hy, hmatches, hlead⟩ := getElem?_of_forall₂ htable.flip hx'
        exact ⟨y.1.run, hmatches.covers, Dispatch.hit hfits hy ht (hlead ▸ htx)⟩
  · exact hmap h

/-- Where calls with tables inside cover those without, so do expressions. -/
theorem Expr.run_covers {tgt tgt' : Target τ} (htables : tgt.options.dispatchTables = false)
    (hsubroutines : tgt'.subroutines = tgt.subroutines) {input : Array τ} {depth : Nat}
    (hblind : ∀ l, (callsAt tgt input depth l).Blind)
    (hcall : ∀ l, (callsAt tgt' input depth l).Covers (callsAt tgt input depth l))
    {p : Expr τ} (hp : p.Without Unary.Captures) :
    (p.run (settingAt tgt' input depth)).Covers (p.run (settingAt tgt input depth)) := by
  have hchoices (as bs : List (Choice τ)) (h : List.Forall₂ (Choice.Matches input) as bs) :
      (Run.ofChoices tgt' input bs).Covers (Run.ofChoices tgt input as) := by
    rw [Run.ofChoices_of_noTables htables]
    exact Run.covers_ofChoices tgt' h
  have hone (p : Expr τ) (a b : Run τ) (hp : p.Without Unary.Captures)
      (ha : p.run (settingAt tgt input depth) = a) (hcovers : b.Covers a) :
      Choice.Matches input ⟨p.lead tgt.subroutines, a⟩ ⟨p.lead tgt'.subroutines, b⟩ := by
    subst ha
    refine ⟨⟨blind_run htables hblind hp, fun l hl => ?_⟩, by rw [hsubroutines], hcovers⟩
    exact lead_begins hl input (depth + 1)
  exact run_rel (x := settingAt tgt input depth) (y := settingAt tgt' input depth) hchoices hone
    (Leaf.covers_run hcall) (fun u p a hu _ h => Unary.covers_run h _ hu) (fun b p q a c _ _ h h' => Binary.covers_run h h' b) hp

/-- Trees in which tables choose recognise what they recognise in order. -/
theorem Bound.Without.evalAt_covers {b : Bound τ} (hfree : b.Without Unary.Captures) {o : Options}
    (ho : o.dispatchTables = false) (o' : Options) (input : Array τ) (depth : Nat) {p : Expr τ}
    (hp : p.Without Unary.Captures) :
    (p.evalAt ⟨o', b.subroutines.toArray⟩ input depth).Covers
      (p.evalAt ⟨o, b.subroutines.toArray⟩ input depth) := by
  induction depth generalizing p with
  | zero => exact covers_never _
  | succ depth ih =>
    have hsubroutines : (⟨o', b.subroutines.toArray⟩ : Target τ).subroutines = b.subroutines.toArray := rfl
    refine Expr.run_covers ho hsubroutines (hfree.blind_callsAt ho input depth) (fun l => ?_) hp
    unfold Expr.callsAt
    dsimp only
    cases hs : b.subroutines.toArray[l]? with
    | none => exact covers_never _
    | some s => exact ih (hfree.bodies s (List.mem_of_getElem? (by rwa [List.getElem?_toArray] at hs)))

end ParserMachine

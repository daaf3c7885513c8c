import ParserMachine.Proofs.Recognition.Tables
import ParserMachine.Proofs.Reports.Choosing

/-!
# Tables keep reports

A table reports what its alternatives report in order (`Run.retells_ofChoices`), and trees in which tables
choose what they report without (`Bound.Without.evalAt_retells`), as long as no form inspects its part.
-/

namespace ParserMachine

variable {τ : Type} [Token τ]

open ParseError Reply

/-- A table may choose the first alternative, and the second one reports what it reports. -/
structure Choice.Echoes (input : Array τ) (c c' : Choice τ) : Prop extends c.Tells input where
  /-- The same is known of both. -/
  lead : c.lead = c'.lead
  /-- The second reports what the first does. -/
  retells : c'.run.Retells c.run

namespace Run

variable {p p' : Run τ} {input : Array τ} {r r' : Reading τ}

/-! ### The code of a table -/

/-- An alternative that a table chose is followed by those that were left out. What the table has expected
behind it does not matter. -/
theorem retold_chosen {others others' : List (Run τ)} (hothers : List.Forall₂ (fun p p' => p'.Retells p) others others')
    (hp : p'.Retells p) (hr : r.Same r')
    (hahead : ∀ e s, p r = some (.failed e s) → r.offset < (s.report e).offset) (after : ExpectedSet τ) :
    RetoldFrom r.offset (p.orElse (inOrder others) r) (chosen input others' after p' r') := by
  unfold chosen
  split
  · rename_i hnone
    simp only [Bool.and_eq_true, List.isEmpty_iff] at hnone
    rw [hnone.1, List.forall₂_nil_right_iff] at hothers
    rw [hothers]
    exact retold_of_orElse_nil (hp r r' hr) hahead
  · refine retold_orElse_of_ahead (hp r r' hr) hahead hr.1 fun s s' hs hahead hsame => ?_
    unfold afterChosen
    split
    · rename_i hnone
      rw [List.isEmpty_iff.1 hnone, List.forall₂_nil_right_iff] at hothers
      rw [hothers]
      exact hs ▸ hahead.retold_failed hsame (Nat.le_refl _) (Nat.le_of_eq hsame.1.symm)
    · refine hs ▸ retells_inOrder hothers s _ ?_
      split
      · exact hsame
      · exact hahead.same_hint hsame (Nat.le_of_eq hsame.1.symm)

section Table

variable {alts : List (Choice τ)} (htells : ∀ c ∈ alts, c.Tells input) {table : List (Run τ × Lead τ)}
  {others : List (Run τ)}
  (htable : List.Forall₂ (fun a b => b.1.Retells a.1.run ∧ a.2 = b.2) (Dispatch.sort Choice.lead alts).1 table)
  (hothers : List.Forall₂ (fun p p' => p'.Retells p) ((Dispatch.sort Choice.lead alts).2.map Choice.run) others)
include htells htable hothers

/-- What a table does where it has no alternative. -/
theorem retold_of_misses (hne : table ≠ []) (hr : r.Same r')
    (hmiss : Dispatch.Misses input r (table.map Prod.snd)) :
    RetoldFrom r.offset (inOrder (alts.map Choice.run) r)
      (if others.isEmpty then some (.failed (r'.errorHere input (Dispatch.all (table.map Prod.snd))) r')
        else inOrder others (r'.hint (r'.errorHere input (Dispatch.all (table.map Prod.snd))))) := by
  have hleads : (Dispatch.sort Choice.lead alts).1.map Prod.snd = table.map Prod.snd := by
    rw [← List.forall₂_eq_eq_eq, List.forall₂_map_left_iff, List.forall₂_map_right_iff]
    exact htable.imp fun _ _ h => h.2
  have hne : table.map Prod.snd ≠ [] := fun h => hne (List.map_eq_nil_iff.1 h)
  rw [← hleads] at hmiss hne ⊢
  rw [Reading.errorHere_congr hr.1.symm]
  split
  · rename_i hnone
    rw [List.isEmpty_iff.1 hnone, List.forall₂_nil_right_iff, List.map_eq_nil_iff] at hothers
    have halts : alts ≠ [] := fun h => hne (h ▸ rfl)
    intro reply hreply
    obtain ⟨last, s, rfl, hs, hreport⟩ :=
      (Dispatch.expects_of_miss htells hmiss hothers halts hreply).exists_failed
    refine ⟨_, rfl, hs.trans hr.1, ?_, fun _ => rfl⟩
    exact Reading.report_eq_iff.2 (hreport.trans (mergeOpt_congr hr.2 (Nat.le_refl _)))
  · rename_i hsome
    have hsame : (r.under (Dispatch.expectedHere input r ((Dispatch.sort Choice.lead alts).1.map Prod.snd))).Same
        (r'.hint (r.errorHere input (Dispatch.all ((Dispatch.sort Choice.lead alts).1.map Prod.snd)))) := by
      refine ⟨hr.1, ?_⟩
      show live r.offset (mergeOpt _ r.hints) = live r.offset (mergeOpt r'.hints _)
      rw [Dispatch.expectedHere_of_ne_nil hne, mergeOpt_comm r'.hints, live_mergeOpt, live_mergeOpt, hr.2]
    refine (Dispatch.retold_miss htells hmiss (fun hnone => hsome ?_) hsame).trans ?_
    · rw [show (Dispatch.sort Choice.lead alts).2 = [] from hnone, List.map_nil, List.forall₂_nil_left_iff] at hothers
      rw [hothers]
      rfl
    · exact hr.1 ▸ retells_inOrder hothers _ _ (.refl _)

/-- A table reports what its alternatives report in order. -/
theorem retells_byTable (hne : table ≠ []) : (byTable input table others).Retells (inOrder (alts.map Choice.run)) := by
  intro r r' hr
  rcases byTable_cases input table others r' with ⟨k, x, t, after, s, hx, ht, htx, hs, heq⟩ | ⟨hnone, heq⟩
  · obtain ⟨y, hy, hretells, hlead⟩ := getElem?_of_forall₂ htable.flip hx
    have hplace : r.offset = s.offset := by
      rcases hs with rfl | ⟨expected, rfl⟩ <;> exact hr.1
    have hlive : live (r.offset + 1) r.hints = live (r.offset + 1) s.hints := by
      have hbefore := live_congr (Nat.le_succ r.offset) hr.2
      rcases hs with rfl | ⟨expected, rfl⟩
      · exact hbefore
      · show _ = live (r.offset + 1) (mergeOpt r'.hints _)
        rw [live_mergeOpt, live_of_lt (hr.1 ▸ Nat.lt_succ_self r'.offset), mergeOpt_none]
        exact hbefore
    have htr : r.current? input = some t := (Reading.current?_congr hr.1).trans ht
    rw [← hlead] at htx
    have hmem := List.mem_of_getElem? hy
    have hcommits := (htells y.1 (Dispatch.mem_of_mem_sortFrom.1 y hmem)).commits y.2
      (Dispatch.lead_of_mem_sortFrom y hmem)
    rw [heq]
    refine (Dispatch.retold_hit htells hy htr htx hplace hlive).trans (hplace ▸ ?_)
    exact retold_chosen hothers hretells (.refl s)
      (fun e s' => hcommits.ahead s t e s' ((Reading.current?_congr hplace.symm).trans htr) htx) after
  · rw [heq]
    exact retold_of_misses htells htable hothers hne hr fun l hl t ht =>
      hnone l hl t ((Reading.current?_congr hr.1.symm).trans ht)

end Table

/-- A table, if one is used, reports what the alternatives report in order. -/
theorem retells_ofChoices (tgt : Target τ) {alts alts' : List (Choice τ)}
    (h : List.Forall₂ (Choice.Echoes input) alts alts') :
    (ofChoices tgt input alts').Retells (inOrder (alts.map Choice.run)) := by
  have hmap {cs cs' : List (Choice τ)} (h : List.Forall₂ (Choice.Echoes input) cs cs') :
      List.Forall₂ (fun p p' : Run τ => p'.Retells p) (cs.map Choice.run) (cs'.map Choice.run) :=
    List.forall₂_map_left_iff.2 (List.forall₂_map_right_iff.2 (h.imp fun _ _ h => h.retells))
  have htells : ∀ c ∈ alts, c.Tells input := fun c hc =>
    have ⟨_, _, hechoes⟩ := exists_of_mem_forall₂ h.flip hc
    hechoes.toTells
  obtain ⟨htable, hothers⟩ := Dispatch.sortFrom_forall₂ (fun _ _ h => h.lead) h []
  unfold ofChoices
  split
  · dsimp only
    split
    · exact retells_inOrder (hmap h)
    · rename_i hlength
      refine retells_byTable htells (List.forall₂_map_right_iff.2 (htable.imp fun _ _ h => ⟨h.1.retells, h.2⟩))
        (hmap hothers) fun hnil => hlength ?_
      rw [List.map_eq_nil_iff.1 hnil]
      exact Nat.zero_lt_two
  · exact retells_inOrder (hmap h)

end Run

/-! ### Trees -/

namespace Expr

variable {tgt tgt' : Target τ} (htables : tgt.options.dispatchTables = false)
  (hbodies : ∀ s ∈ tgt.subroutines, s.body.Without Unary.Inspects) {input : Array τ}
include htables hbodies

/-- What calls do does not depend on more than hints that can still matter. -/
theorem sturdy_callsAt (depth l : Nat) : (callsAt tgt input depth l).Retells (callsAt tgt input depth l) := by
  induction depth generalizing l with
  | zero =>
    refine callsAt_induct (P := fun p => p.Retells p) (Run.retells_never _) (fun s _ => ?_) l
    exact Run.retells_never _
  | succ depth ih =>
    refine callsAt_induct (P := fun p => p.Retells p) (Run.retells_never _) (fun s hs => ?_) l
    exact retells_run (x := settingAt tgt input depth) (y := settingAt tgt input depth) htables htables rfl rfl
      (regular_callsAt htables hbodies input depth) ih (hbodies s hs)

theorem tells {p : Expr τ} (hp : p.Without Unary.Inspects) (depth : Nat) :
    Choice.Tells input ⟨p.lead tgt.subroutines, p.run (settingAt tgt input depth)⟩ :=
  have hregular := regular_callsAt htables hbodies input depth
  { regular := regular_run (x := settingAt tgt input depth) htables hregular hp
    sturdy := retells_run (x := settingAt tgt input depth) (y := settingAt tgt input depth) htables htables rfl rfl
      hregular (sturdy_callsAt htables hbodies depth) hp
    begins := fun _ hl => lead_begins hl input (depth + 1)
    commits := fun _ hl => lead_commits htables hbodies hp hl input (depth + 1) }

/-- Where calls with tables inside report what those without do, so do expressions. -/
theorem run_retells (hsubroutines : tgt'.subroutines = tgt.subroutines) {depth : Nat}
    (hcall : ∀ l, (callsAt tgt' input depth l).Retells (callsAt tgt input depth l))
    {p : Expr τ} (hp : p.Without Unary.Inspects) :
    (p.run (settingAt tgt' input depth)).Retells (p.run (settingAt tgt input depth)) := by
  have hregular (p : Expr τ) (hp : p.Without Unary.Inspects) : (p.run (settingAt tgt input depth)).Regular :=
    (tells htables hbodies hp depth).regular
  have hchoices (as bs : List (Choice τ)) (h : List.Forall₂ (Choice.Echoes input) as bs) :
      (Run.ofChoices tgt' input bs).Retells (Run.ofChoices tgt input as) := by
    rw [Run.ofChoices_of_noTables htables]
    exact Run.retells_ofChoices tgt' h
  have hone (p : Expr τ) (a b : Run τ) (hp : p.Without Unary.Inspects)
      (ha : p.run (settingAt tgt input depth) = a) (hretells : b.Retells a) :
      Choice.Echoes input ⟨p.lead tgt.subroutines, a⟩ ⟨p.lead tgt'.subroutines, b⟩ := by
    subst ha
    exact ⟨tells htables hbodies hp depth, by rw [hsubroutines], hretells⟩
  exact run_rel (x := settingAt tgt input depth) (y := settingAt tgt' input depth) hchoices hone
    (Leaf.retells_run hcall) (fun u p a hu hp h => Unary.retells_run h (hregular p hp) _ hu)
    (fun b p q a c hp hq h h' => Binary.retells_run h h' (hregular p hp) (hregular q hq) b) hp

end Expr

/-- Trees in which tables choose report what they report in order. -/
theorem Bound.Without.evalAt_retells {b : Bound τ} (hfree : b.Without Unary.Inspects) {o : Options}
    (ho : o.dispatchTables = false) (o' : Options) (input : Array τ) (depth : Nat) {p : Expr τ}
    (hp : p.Without Unary.Inspects) :
    (p.evalAt ⟨o', b.subroutines.toArray⟩ input depth).Retells
      (p.evalAt ⟨o, b.subroutines.toArray⟩ input depth) := by
  induction depth generalizing p with
  | zero => exact Run.retells_never _
  | succ depth ih =>
    have hsubroutines : (⟨o', b.subroutines.toArray⟩ : Target τ).subroutines = b.subroutines.toArray := rfl
    have hbodies : ∀ s ∈ b.subroutines.toArray, s.body.Without Unary.Inspects := fun s hs =>
      hfree.bodies s (List.mem_toArray.1 hs)
    refine Expr.run_retells ho hbodies hsubroutines (fun l => ?_) hp
    unfold Expr.callsAt
    dsimp only
    cases hs : b.subroutines.toArray[l]? with
    | none => exact Run.retells_never _
    | some s => exact ih (hbodies s (Array.mem_of_getElem? hs))

end ParserMachine

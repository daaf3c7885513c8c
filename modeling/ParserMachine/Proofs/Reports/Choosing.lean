import ParserMachine.Proofs.Meaning.Tables
import ParserMachine.Proofs.Reports.Retelling

/-!
# Choosing keeps reports

Where no lead in a table has the current token, what all its leads expect may be reported at once, and then the
alternatives that the table leaves out are tried: tried in order, the alternatives report the same one by one
(`Dispatch.retold_miss`). Where a lead has the token, its alternative consumes it or reports something further
ahead, so it does not matter what was expected in place before, nor what is left out of that afterwards
(`Dispatch.retold_hit`).
-/

namespace ParserMachine

variable {τ : Type} [Token τ]

open ParseError Reply

/-! ### Reports from further ahead -/

namespace Reading

variable {r r' s s' : Reading τ} {e e' : ParseError τ}

theorem some_report_under (h : Option (ParseError τ)) (e : ParseError τ) (s : Reading τ) :
    some ((s.under h).report e) = mergeOpt h (some (s.report e)) := by
  rw [some_report, some_report, ← mergeOpt_assoc]
  rfl

/-- Something further ahead has been reported. -/
def Ahead (r : Reading τ) : Prop := ∃ h ∈ r.hints, r.offset < h.offset

theorem ahead_hint (h : r.offset < (r.report e).offset) : (r.hint e).Ahead :=
  ⟨_, (some_report e r).symm, h⟩

/-- What lies in place adds nothing. -/
theorem Ahead.absorbs (h : r.Ahead) {k : Option (ParseError τ)} (hk : ∀ e ∈ k, e.offset ≤ r.offset) :
    mergeOpt r.hints k = r.hints := by
  obtain ⟨h, hh, hlt⟩ := h
  rw [Option.mem_def.1 hh]
  cases k with
  | none => rfl
  | some e => exact congrArg some (merge_of_gt (Nat.lt_of_le_of_lt (hk e rfl) hlt))

theorem Ahead.mergeOpt_eq (h : r.Ahead) (he : e.offset ≤ r.offset) :
    mergeOpt r.hints (some e) = r.hints :=
  h.absorbs fun e' he' => (by cases he'; exact he)

theorem Ahead.hints_eq (h : r.Ahead) (hr : r.Same r') : r'.hints = r.hints := by
  obtain ⟨k, hk, hlt⟩ := h
  have hlive := hr.2
  rw [Option.mem_def.1 hk, live_of_le (Nat.le_of_lt hlt)] at hlive
  rw [Option.mem_def.1 hk]
  exact (Option.filter_eq_some_iff.1 hlive.symm).1

theorem Ahead.same_hint (h : r.Ahead) (hr : r.Same r') (he : e.offset ≤ r.offset) : r.Same (r'.hint e) := by
  refine ⟨hr.1, congrArg (live r.offset) ?_⟩
  show _ = mergeOpt r'.hints (some e)
  rw [h.hints_eq hr, h.mergeOpt_eq he]

/-- Failures that report no more than was reported before. -/
theorem Ahead.retold (h : r.Ahead) (hs : mergeOpt s.hints (some e) = r.hints)
    (hs' : mergeOpt s'.hints (some e') = r.hints) (hplace : s.offset = s'.offset) :
    RetoldFrom r.offset (some (.failed e s)) (some (.failed e' s')) := by
  refine retold_some ⟨hplace, report_eq_iff.2 (hs.trans hs'.symm), fun hi => ?_⟩
  obtain ⟨k, hk, hlt⟩ := h
  rw [← some_report, Option.mem_def.1 hk] at hs
  cases hs
  omega

/-- Failures in place, whatever their errors. -/
theorem Ahead.retold_failed (h : r.Ahead) (hr : r.Same r') (he : e.offset ≤ r.offset)
    (he' : e'.offset ≤ r.offset) :
    RetoldFrom r.offset (some (.failed e r)) (some (.failed e' r')) := by
  refine h.retold (h.mergeOpt_eq he) ?_ hr.1
  rw [h.hints_eq hr]
  exact h.mergeOpt_eq he'

end Reading

/-! ### What is expected -/

namespace Dispatch

variable {input : Array τ} {r r' : Reading τ}

/-- What the leads of a table expect, if there are any, as hints. -/
def expectedHere (input : Array τ) (r : Reading τ) : List (Lead τ) → Option (ParseError τ)
  | [] => none
  | l :: leads => some (r.errorHere input (all (l :: leads)))

theorem expectedHere_cons (l : Lead τ) (leads : List (Lead τ)) :
    expectedHere input r (l :: leads) =
      mergeOpt (some (r.errorHere input l.expected)) (expectedHere input r leads) := by
  cases leads with
  | nil => exact congrArg (fun e => some (r.errorHere input e)) (all_singleton l)
  | cons m leads =>
    rw [expectedHere, all_cons]
    exact congrArg some (r.merge_errorHere _ _).symm

theorem expectedHere_of_ne_nil {leads : List (Lead τ)} (h : leads ≠ []) :
    expectedHere input r leads = some (r.errorHere input (all leads)) := by
  cases leads with
  | nil => exact absurd rfl h
  | cons l leads => rfl

theorem expectedHere_congr (h : r.offset = r'.offset) (leads : List (Lead τ)) :
    expectedHere input r leads = expectedHere input r' leads := by
  cases leads with
  | nil => rfl
  | cons l leads => exact congrArg some (Reading.errorHere_congr h _)

theorem le_of_mem_expectedHere (r : Reading τ) (leads : List (Lead τ)) :
    ∀ e ∈ expectedHere input r leads, e.offset ≤ r.offset := by
  cases leads with
  | nil => nofun
  | cons l leads =>
    intro e he
    cases he
    exact Nat.le_refl _

end Dispatch

/-! ### Alternatives -/

/-- What a parser recognises does not depend on hints if it reports in a regular way. -/
theorem Run.Regular.blind {p : Run τ} (hp : p.Regular) (hsturdy : p.Retells p) : p.Blind := by
  intro r r' hr reply hreply
  rw [← Reading.under_bare r, hp.keeps] at hreply
  obtain ⟨inner, hinner, rfl⟩ := Option.map_eq_some_iff.1 hreply
  obtain ⟨inner', hinner', hsame⟩ := hsturdy r.bare r'.bare (Reading.same_bare hr) inner hinner
  rw [← Reading.under_bare r', hp.keeps]
  refine ⟨_, Option.map_eq_some_iff.2 ⟨inner', hinner', rfl⟩, ?_⟩
  cases inner with
  | done v s =>
    obtain ⟨s', rfl, hs⟩ := hsame.eq_done
    exact ⟨rfl, hs.1⟩
  | failed e s =>
    obtain ⟨e', s', rfl, hs⟩ := hsame.eq_failed
    exact hs.1
  | stuck =>
    obtain rfl := hsame.eq_stuck
    trivial

/-- An alternative for a table that reports in a regular way. -/
structure Choice.Tells (input : Array τ) (c : Choice τ) : Prop where
  /-- It goes ahead and keeps hints. -/
  regular : c.run.Regular
  /-- Readings of which the same can come make no difference. -/
  sturdy : c.run.Retells c.run
  /-- The lead is right. -/
  begins : ∀ l, c.lead = some l → l.Begins input c.run
  /-- It commits to its lead. -/
  commits : ∀ l, c.lead = some l → l.Commits input c.run

namespace Choice.Tells

variable {input : Array τ} {c : Choice τ} {l : Lead τ} (hc : c.Tells input) (hl : c.lead = some l)
  {q : Run τ} {r r' : Reading τ}
include hc hl

/-- An alternative that fails in place is passed over. Among the hints is what its lead expects. -/
theorem retold_pass (hr : ∀ t, r.current? input = some t → t ∉ l.tokens) {y : Option (Reply τ)}
    (h : ∀ s : Reading τ, s.offset = r.offset →
      s.hints = mergeOpt r.hints (some (r.errorHere input l.expected)) → RetoldFrom r.offset (q s) y) :
    RetoldFrom r.offset (c.run.orElse q r) y := by
  intro reply hreply
  obtain ⟨e, s, hexpects, hq⟩ := Run.exists_of_handle (hc.begins l hl r hr) hreply
  have ⟨last, _, heq, hplace, hreport⟩ := hexpects.exists_failed
  cases heq
  rw [if_pos hplace] at hq
  exact h (s.hint (r.errorHere input last)) hplace hreport reply hq

/-- What an alternative does at a token of its lead does not depend on hints that lie in place. -/
theorem retold_run {t : τ} (ht : r.current? input = some t) (htl : t ∈ l.tokens) (hr : r.offset = r'.offset)
    (hlive : live (r.offset + 1) r.hints = live (r.offset + 1) r'.hints) :
    RetoldFrom r.offset (c.run r) (c.run r') := by
  have hbare := hc.sturdy r.bare r'.bare (Reading.same_bare hr)
  rw [← Reading.under_bare r, ← Reading.under_bare r', hc.regular.keeps, hc.regular.keeps]
  intro reply hreply
  obtain ⟨inner, hinner, rfl⟩ := Option.map_eq_some_iff.1 hreply
  obtain ⟨inner', hinner', hsame⟩ := hbare inner hinner
  refine ⟨_, Option.map_eq_some_iff.2 ⟨inner', hinner', rfl⟩, ?_⟩
  cases inner with
  | done v s =>
    obtain ⟨s', rfl, hs⟩ := hsame.eq_done
    have hlt : r.offset < s.offset := (hc.commits l hl).consumes r.bare v s hinner
    refine ⟨rfl, hs.1, ?_⟩
    show live s.offset (mergeOpt r.hints s.hints) = live s.offset (mergeOpt r'.hints s'.hints)
    rw [live_mergeOpt, live_mergeOpt, live_congr hlt hlive, hs.2]
  | failed e s =>
    obtain ⟨e', s', rfl, hoffset, hreport, -⟩ := hsame.eq_failed
    have hlt : r.offset < (s.report e).offset := (hc.commits l hl).ahead r.bare t e s ht htl hinner
    have hsame : some ((s.under r.hints).report e) = some ((s'.under r'.hints).report e') := by
      rw [Reading.some_report_under, Reading.some_report_under, ← hreport]
      exact mergeOpt_congr hlive hlt
    refine ⟨hoffset, Option.some.inj hsame, fun hi => ?_⟩
    have hle : r.offset < ((s.under r.hints).report e).offset := by
      have := Reading.lt_offset_report_iff.1 hlt
      exact Reading.lt_offset_report_iff.2 (this.imp_left fun hs => exists_mem_mergeOpt.2 (.inr hs))
    exact absurd hi (Nat.ne_of_gt hle)
  | stuck =>
    obtain rfl := hsame.eq_stuck
    trivial

/-- An alternative that is begun with more hints in place. Unless it fails in place, these do not matter. -/
theorem retold_handle {h : Option (ParseError τ)} (hh : ∀ e ∈ h, e.offset ≤ r.offset)
    (hr : (r.under h).Same r') {k : ParseError τ → Reading τ → Option (Reply τ)}
    (hmoved : ∀ e s, s.offset ≠ r.offset → k e s = some (.failed e s))
    (hplace : ∀ e e' s s', c.run r = some (.failed e s) → s.offset = r.offset → s'.offset = r.offset →
      some (s'.report e') = mergeOpt h (some (s.report e)) →
      ((s'.report e').offset = r.offset → e.withExpected .empty = e'.withExpected .empty) →
      RetoldFrom r.offset (q (s.hint e)) (k e' s')) :
    RetoldFrom r.offset (c.run.orElse q r) (c.run.handle r' (fun v s => some (.done v s)) k) := by
  have hretold := hc.sturdy (r.under h) r' hr
  rw [hc.regular.keeps h r] at hretold
  cases hcr : c.run r with
  | none =>
    rw [show c.run.orElse q r = none from Run.handle_of_none hcr]
    exact retold_none
  | some reply =>
    rw [hcr] at hretold
    obtain ⟨reply', hreply', hsame⟩ := hretold _ rfl
    cases reply with
    | done v s =>
      obtain ⟨s', rfl, hs⟩ := hsame.eq_done
      rw [show c.run.orElse q r = _ from Run.handle_of_done hcr, Run.handle_of_done hreply']
      refine retold_done ⟨hs.1, ?_⟩
      have hlive : live s.offset (mergeOpt h s.hints) = live s.offset s'.hints := hs.2
      rwa [live_mergeOpt, live_of_forall_le hh ((hc.commits l hl).consumes r v s hcr), none_mergeOpt] at hlive
    | failed e s =>
      obtain ⟨hle, he⟩ := hc.regular.forward r _ hcr
      obtain ⟨e', s', rfl, hoffset, hreport, herror⟩ := hsame.eq_failed
      have hunder := Reading.some_report_under h e s
      rw [show c.run.orElse q r = _ from Run.handle_of_failed hcr, Run.handle_of_failed hreply']
      by_cases hs : s.offset = r.offset
      · rw [if_pos hs]
        refine hplace e e' s s' hcr hs (hoffset.symm.trans hs) (hreport ▸ hunder) fun hi => herror ?_
        rw [hreport, hi]
        rfl
      · rw [if_neg hs, hmoved e' s' fun hs' => hs (hoffset.trans hs')]
        -- the error lies further ahead than the hints
        have hahead := Reading.le_offset_report e s
        have hmerge : mergeOpt h (some (s.report e)) = some (s.report e) := by
          rw [← mergeOpt_live (i := r.offset + 1) (by omega), live_of_forall_le hh (Nat.lt_succ_self _),
            none_mergeOpt]
        rw [hmerge, hreport] at hunder
        refine retold_some ⟨hoffset, (Option.some.inj hunder).symm, fun hi => ?_⟩
        omega
    | stuck =>
      obtain rfl := hsame.eq_stuck
      rw [show c.run.orElse q r = _ from Run.handle_of_stuck hcr, Run.handle_of_stuck hreply']
      exact retold_some trivial

/-- Where something further ahead has been reported, an alternative that fails in place may be tried first. -/
theorem retold_inOrder_cons (hmiss : ∀ t, r'.current? input = some t → t ∉ l.tokens) {reply : Reply τ}
    (hreply : c.run r' = some reply) {ps : List (Run τ)} (hps : (Run.inOrder ps).Retells (Run.inOrder ps))
    (hahead : r.Ahead) (hr : r.Same r') :
    RetoldFrom r.offset (Run.inOrder ps r) (Run.inOrder (c.run :: ps) r') := by
  obtain ⟨last, s, rfl, hs, hreport⟩ := (hc.begins l hl r' hmiss reply hreply).exists_failed
  rw [hahead.hints_eq hr, hahead.mergeOpt_eq (e := r'.errorHere input l.expected) (Nat.le_of_eq hr.1.symm)] at hreport
  cases ps with
  | nil =>
    rw [show Run.inOrder [c.run] r' = _ from hreply]
    exact hahead.retold (hahead.mergeOpt_eq (Nat.le_refl _)) hreport (hr.1.trans hs.symm)
  | cons p ps =>
    rw [show Run.inOrder (c.run :: p :: ps) r' = _ from Run.handle_of_failed hreply, if_pos hs]
    exact hps r _ ⟨hr.1.trans hs.symm, congrArg (live r.offset) hreport.symm⟩

/-- The error of an alternative that fails in place, if nothing further ahead is reported. -/
theorem exists_errorHere {e : ParseError τ} {s : Reading τ} (h : c.run r = some (.failed e s))
    (hplace : (s.report e).offset ≤ r.offset) : ∃ expected, e = r.errorHere input expected := by
  by_cases hmem : ∀ t, r.current? input = some t → t ∉ l.tokens
  · obtain ⟨last, s', heq, -⟩ := (hc.begins l hl r hmem _ h).exists_failed
    cases heq
    exact ⟨last, rfl⟩
  · push Not at hmem
    obtain ⟨t, ht, htl⟩ := hmem
    exact absurd ((hc.commits l hl).ahead r t e s ht htl h) (Nat.not_lt.2 hplace)

/-- An alternative that a table leaves out, in front of others. What is expected in place may be among its hints
or among theirs. -/
theorem retold_orElse {q' : Run τ} {h : Option (ParseError τ)} (hh : ∀ e ∈ h, e.offset ≤ r.offset)
    (hr : (r.under h).Same r')
    (hq : ∀ s s' : Reading τ, s.offset = r.offset → (s.under h).Same s' → RetoldFrom r.offset (q s) (q' s')) :
    RetoldFrom r.offset (c.run.orElse q r) (c.run.orElse q' r') := by
  refine hc.retold_handle hl hh hr (fun e s hs => if_neg fun h => hs (h.trans hr.1.symm))
    fun e e' s s' _ hs hs' hreport _ => ?_
  rw [if_pos (hs'.trans hr.1)]
  refine hq (s.hint e) (s'.hint e') hs ⟨hs.trans hs'.symm, congrArg (live s.offset) ?_⟩
  rw [Reading.some_report, Reading.some_report] at hreport
  exact hreport.symm

/-- An alternative that a table leaves out and that comes last there. What is expected behind it may be among
its hints. -/
theorem retold_last {expected : ExpectedSet τ} (hr : (r.under (some (r.errorHere input expected))).Same r')
    (hq : ∀ s : Reading τ, s.offset = r.offset → ∀ reply, q s = some reply → reply.Expects input s expected) :
    RetoldFrom r.offset (c.run.orElse q r) (c.run r') := by
  have hle : ∀ e ∈ some (r.errorHere input expected), e.offset ≤ r.offset := by
    intro e he
    cases he
    exact Nat.le_refl _
  rw [← Run.handle_self c.run r']
  refine hc.retold_handle hl hle hr (fun _ _ _ => rfl) fun e e' s s' hcr hs hs' hreport herror => ?_
  intro reply hreply
  have hplace : (s.hint e).offset = r.offset := hs
  obtain ⟨last, w, rfl, hw, hreport'⟩ := (hq (s.hint e) hplace reply hreply).exists_failed
  rw [Reading.errorHere_congr hplace] at hreport' ⊢
  have hsame : w.report (r.errorHere input last) = s'.report e' := by
    refine Option.some.inj ?_
    rw [hreport, mergeOpt_comm, Reading.some_report, hreport', Reading.some_report, Reading.errorHere_congr hplace]
    rfl
  refine ⟨_, rfl, hw.trans (hs.trans hs'.symm), hsame, fun hi => ?_⟩
  have hin : (s.report e).offset ≤ r.offset := by
    have hmerge := offset_merge (r.errorHere input expected) (s.report e)
    rw [hsame, Option.some.inj hreport, hmerge] at hi
    exact hi ▸ Nat.le_max_right _ _
  obtain ⟨_, rfl⟩ := hc.exists_errorHere hl hcr hin
  exact herror (hsame ▸ hi)

end Choice.Tells

/-! ### After an alternative that commits -/

namespace Run

variable {p p' q q' : Run τ} {r r' : Reading τ} (hp : RetoldFrom r.offset (p r) (p' r'))
  (hahead : ∀ e s, p r = some (.failed e s) → r.offset < (s.report e).offset) (hr : r.offset = r'.offset)
include hp hahead

/-- Nothing need follow an alternative that reports something further ahead where it fails in place. -/
theorem retold_of_orElse_nil : RetoldFrom r.offset (p.orElse (inOrder []) r) (p' r') := by
  rw [← handle_self p' r']
  refine retold_handle hp (fun v s s' _ h => retold_done h) fun e e' s s' hpr h => ?_
  have ⟨hoffset, hreport, _⟩ := h
  split
  · rename_i hplace
    have hhint := Reading.ahead_hint (hplace ▸ hahead e s hpr)
    exact hplace ▸ hhint.retold (hhint.mergeOpt_eq (Nat.le_refl _)) (hhint.hints_eq (Reading.same_hint hoffset hreport))
      hoffset
  · exact retold_some h

include hr

/-- What follows an alternative that reports something further ahead where it fails in place. -/
theorem retold_orElse_of_ahead
    (hq : ∀ s s' : Reading τ, s.offset = r.offset → s.Ahead → s.Same s' → RetoldFrom r.offset (q s) (q' s')) :
    RetoldFrom r.offset (p.orElse q r) (p'.orElse q' r') := by
  refine retold_handle hp (fun v s s' _ h => retold_done h) fun e e' s s' hpr h => ?_
  have ⟨hoffset, hreport, _⟩ := h
  rw [← hoffset, ← hr]
  split
  · rename_i hplace
    exact hq (s.hint e) (s'.hint e') hplace (Reading.ahead_hint (hplace ▸ hahead e s hpr))
      (Reading.same_hint hoffset hreport)
  · exact retold_some h

theorem retold_orElse_nil : RetoldFrom r.offset (p r) (p'.orElse (inOrder []) r') := by
  rw [← handle_self p r]
  refine retold_handle hp (fun v s s' _ h => retold_done h) fun e e' s s' hpr h => ?_
  have ⟨hoffset, hreport, _⟩ := h
  rw [← hoffset, ← hr]
  split
  · rename_i hplace
    have hhint := Reading.ahead_hint (hplace ▸ hahead e s hpr)
    have hsame := Reading.same_hint hoffset hreport
    refine hplace ▸ hhint.retold rfl ?_ hoffset
    rw [hhint.hints_eq hsame]
    exact hhint.mergeOpt_eq (Nat.le_of_eq hoffset.symm)
  · exact retold_some h

end Run

/-! ### Sorting -/

namespace Dispatch

variable {input : Array τ} {r r' : Reading τ} {leads : List (Lead τ)}

/-- No lead has the current token. -/
def Misses (input : Array τ) (r : Reading τ) (leads : List (Lead τ)) : Prop :=
  ∀ l ∈ leads, ∀ t, r.current? input = some t → t ∉ l.tokens

theorem Misses.congr (h : Misses input r leads) (hr : r'.offset = r.offset) : Misses input r' leads :=
  fun l hl t ht => h l hl t ((Reading.current?_congr hr).symm.trans ht)

variable {alts : List (Choice τ)} {seen : List τ}

/-- A table that leaves no alternative out has one, if there are any. -/
theorem table_ne_nil (hnone : (sortFrom Choice.lead seen alts).2 = []) (hne : alts ≠ []) :
    (sortFrom Choice.lead seen alts).1.map Prod.snd ≠ [] := by
  cases alts with
  | nil => exact absurd rfl hne
  | cons c alts =>
    rw [sortFrom_cons] at hnone ⊢
    cases hlead : c.lead with
    | none =>
      rw [hlead] at hnone
      cases hnone
    | some l =>
      rw [hlead] at hnone
      dsimp only at hnone ⊢
      split at hnone
      · cases hnone
      · rename_i hmeets
        rw [if_neg hmeets]
        exact List.cons_ne_nil _ _

variable (htells : ∀ c ∈ alts, c.Tells input)
include htells

theorem retells_others : (Run.inOrder ((sortFrom Choice.lead seen alts).2.map Choice.run)).Retells
    (Run.inOrder ((sortFrom Choice.lead seen alts).2.map Choice.run)) := by
  refine Run.retells_inOrder (List.forall₂_same.2 fun p hp => ?_)
  obtain ⟨c, hc, rfl⟩ := List.mem_map.1 hp
  exact (htells c (mem_of_mem_sortFrom.2 c hc)).sturdy

/-- Where the table has no alternative and leaves none out, what all its leads expect is reported. -/
theorem expects_of_miss (hmiss : Misses input r ((sortFrom Choice.lead seen alts).1.map Prod.snd))
    (hnone : (sortFrom Choice.lead seen alts).2 = []) (hne : alts ≠ [])
    {reply : Reply τ} (h : Run.inOrder (alts.map Choice.run) r = some reply) :
    reply.Expects input r (all ((sortFrom Choice.lead seen alts).1.map Prod.snd)) := by
  induction alts generalizing seen r reply with
  | nil => exact absurd rfl hne
  | cons c alts ih =>
    obtain ⟨hc, halts⟩ := List.forall_mem_cons.1 htells
    rw [sortFrom_cons] at hmiss hnone ⊢
    cases hlead : c.lead with
    | none =>
      rw [hlead] at hnone
      cases hnone
    | some l =>
      rw [hlead] at hmiss hnone
      dsimp only at hmiss hnone ⊢
      split at hnone
      · cases hnone
      · rename_i hmeets
        rw [if_neg hmeets] at hmiss ⊢
        obtain ⟨hhead, hmiss⟩ := List.forall_mem_cons.1 hmiss
        have hbegins := hc.begins l hlead r hhead
        cases alts with
        | nil =>
          rw [show List.map Prod.snd ((c, l) :: (sortFrom Choice.lead _ []).1) = [l] from rfl, all_singleton]
          exact hbegins reply h
        | cons c' alts =>
          rw [List.map_cons, all_cons]
          exact Run.expects_orElse hbegins
            (fun s hs reply => ih halts (Misses.congr hmiss hs) hnone (List.cons_ne_nil _ _)) h

/-- Where the table has no alternative, those that it leaves out report the same, with what all its leads
expect among the hints. -/
theorem retold_miss (hmiss : Misses input r ((sortFrom Choice.lead seen alts).1.map Prod.snd))
    (hsome : (sortFrom Choice.lead seen alts).2 ≠ [])
    (hr : (r.under (expectedHere input r ((sortFrom Choice.lead seen alts).1.map Prod.snd))).Same r') :
    RetoldFrom r.offset (Run.inOrder (alts.map Choice.run) r)
      (Run.inOrder ((sortFrom Choice.lead seen alts).2.map Choice.run) r') := by
  induction alts generalizing seen r r' with
  | nil => exact absurd rfl hsome
  | cons c alts ih =>
    obtain ⟨hc, halts⟩ := List.forall_mem_cons.1 htells
    have hothers := @retells_others _ _ _ _ seen htells
    have hplain (hr : (r.under none).Same r') : r.Same r' := by
      unfold Reading.under at hr
      rwa [none_mergeOpt] at hr
    rw [sortFrom_cons] at hmiss hsome hr hothers ⊢
    cases hlead : c.lead with
    | none =>
      rw [hlead] at hr hothers
      exact hothers r r' (hplain hr)
    | some l =>
      rw [hlead] at hmiss hsome hr hothers
      dsimp only at hmiss hsome hr hothers ⊢
      split at hsome
      · rename_i hmeets
        rw [if_pos hmeets] at hmiss hr hothers ⊢
        cases alts with
        | nil => exact hothers r r' (hplain hr)
        | cons c' alts =>
          cases hrest : (sortFrom Choice.lead (seen ++ l.tokens.filter (· ∉ seen)) (c' :: alts)).2 with
          | nil =>
            rw [expectedHere_of_ne_nil (table_ne_nil hrest (List.cons_ne_nil _ _))] at hr
            exact hc.retold_last hlead hr fun s hs reply =>
              expects_of_miss halts (Misses.congr hmiss hs) hrest (List.cons_ne_nil _ _)
          | cons o os =>
            refine hc.retold_orElse hlead (le_of_mem_expectedHere r _) hr fun s s' hs hsame => ?_
            have hrest' := ih halts (Misses.congr hmiss hs) (by rw [hrest]; exact List.cons_ne_nil _ _)
              (expectedHere_congr hs.symm _ ▸ hsame)
            rw [hrest] at hrest'
            exact hs ▸ hrest'
      · rename_i hmeets
        rw [if_neg hmeets] at hmiss hr ⊢
        obtain ⟨hhead, hmiss⟩ := List.forall_mem_cons.1 hmiss
        cases alts with
        | nil => exact absurd rfl hsome
        | cons c' alts =>
          refine hc.retold_pass hlead hhead fun s hs hhints => ?_
          rw [List.map_cons, expectedHere_cons, mergeOpt_comm] at hr
          refine hs ▸ ih halts (Misses.congr hmiss hs) hsome ⟨hs.trans hr.1, ?_⟩
          show live s.offset (mergeOpt _ s.hints) = live s.offset r'.hints
          rw [hs, hhints, expectedHere_congr hs, mergeOpt_comm r.hints, ← mergeOpt_assoc]
          exact hr.2

/-- Where something further ahead has been reported and the table has no alternative, those that it leaves out
report that too. -/
theorem retold_miss_of_ahead (hmiss : Misses input r ((sortFrom Choice.lead seen alts).1.map Prod.snd))
    (hahead : r.Ahead) (hr : r.Same r') :
    RetoldFrom r.offset (Run.inOrder (alts.map Choice.run) r)
      (Run.inOrder ((sortFrom Choice.lead seen alts).2.map Choice.run) r') := by
  by_cases hnone : (sortFrom Choice.lead seen alts).2 = []
  · rw [hnone]
    by_cases hne : alts = []
    · subst hne
      exact hahead.retold_failed hr (Nat.le_refl _) (Nat.le_of_eq hr.1.symm)
    · intro reply hreply
      obtain ⟨last, s, rfl, hs, hreport⟩ := (expects_of_miss htells hmiss hnone hne hreply).exists_failed
      refine hahead.retold (hreport.trans (hahead.mergeOpt_eq (Nat.le_refl _))) ?_ (hs.trans hr.1) _ rfl
      rw [hahead.hints_eq hr]
      exact hahead.mergeOpt_eq (Nat.le_of_eq hr.1.symm)
  · refine retold_miss htells hmiss hnone ⟨hr.1, ?_⟩
    show live r.offset (mergeOpt _ r.hints) = live r.offset r'.hints
    rw [mergeOpt_comm, hahead.absorbs (le_of_mem_expectedHere r _)]
    exact hr.2

/-- Where the table has an alternative, it is tried, and then those that the table leaves out report the
same. Hints that lie in place do not matter. -/
theorem retold_hit {k : Nat} {x : Choice τ × Lead τ} {t : τ}
    (hx : (sortFrom Choice.lead seen alts).1[k]? = some x) (ht : r.current? input = some t) (htx : t ∈ x.2.tokens)
    (hr : r.offset = r'.offset) (hlive : live (r.offset + 1) r.hints = live (r.offset + 1) r'.hints) :
    RetoldFrom r.offset (Run.inOrder (alts.map Choice.run) r)
      (x.1.run.orElse (Run.inOrder ((sortFrom Choice.lead seen alts).2.map Choice.run)) r') := by
  induction alts generalizing seen k r with
  | nil => cases hx
  | cons c alts ih =>
    obtain ⟨hc, halts⟩ := List.forall_mem_cons.1 htells
    rw [sortFrom_cons] at hx ⊢
    cases hlead : c.lead with
    | none =>
      rw [hlead] at hx
      cases hx
    | some l =>
      rw [hlead] at hx
      dsimp only at hx ⊢
      -- the first alternative is passed over if `x` comes behind it
      have hpass {j : Nat} (hj : (sortFrom Choice.lead (seen ++ l.tokens.filter (· ∉ seen)) alts).1[j]? = some x) :
          RetoldFrom r.offset (Run.inOrder ((c :: alts).map Choice.run) r)
            (x.1.run.orElse (Run.inOrder
              ((sortFrom Choice.lead (seen ++ l.tokens.filter (· ∉ seen)) alts).2.map Choice.run)) r') := by
        cases alts with
        | nil => cases hj
        | cons c' alts =>
          refine hc.retold_pass hlead (fun u hu hul => ?_) fun s hs hhints => ?_
          · cases ht.symm.trans hu
            exact not_mem_seen x (List.mem_of_getElem? hj) t htx (mem_seen hul seen)
          · refine hs ▸ ih halts hj ((Reading.current?_congr hs).trans ht) (hs.trans hr) ?_
            rw [hs, hhints, live_mergeOpt, live_of_lt (Nat.lt_succ_self r.offset), mergeOpt_none]
            exact hlive
      split at hx
      · rename_i hmeets
        rw [if_pos hmeets]
        cases alts with
        | nil => cases hx
        | cons c' alts =>
          cases hcr : c.run r with
          | none =>
            rw [show Run.inOrder ((c :: c' :: alts).map Choice.run) r = none from Run.handle_of_none hcr]
            exact retold_none
          | some reply =>
            -- the table tries it after `x`, where it adds nothing
            have hmem := List.mem_of_getElem? hx
            have hcommits := (halts x.1 (mem_of_mem_sortFrom.1 x hmem)).commits x.2 (lead_of_mem_sortFrom x hmem)
            have hrun : RetoldFrom r'.offset (x.1.run r') (x.1.run r') := .refl _
            refine (hpass hx).trans (hr ▸ Run.retold_orElse_of_ahead hrun (fun e s => ?_) rfl
              fun s s' hs hahead hsame => ?_)
            · exact hcommits.ahead r' t e s ((Reading.current?_congr hr.symm).trans ht) htx
            · have hplace : r.offset = s'.offset := hr.trans (hs.symm.trans hsame.1)
              obtain ⟨reply', hreply', -⟩ := hc.regular.blind hc.sturdy r s' hplace reply hcr
              refine hs ▸ hc.retold_inOrder_cons hlead (fun u hu hul => ?_) hreply' (retells_others halts) hahead hsame
              cases ht.symm.trans ((Reading.current?_congr hplace).trans hu)
              exact not_mem_seen x hmem t htx (mem_seen hul seen)
      · rename_i hmeets
        rw [if_neg hmeets]
        cases k with
        | zero =>
          cases hx
          have hrun := hc.retold_run hlead ht htx hr hlive
          have hahead (e : ParseError τ) (s : Reading τ) := (hc.commits l hlead).ahead r t e s ht htx
          cases alts with
          | nil => exact Run.retold_orElse_nil hrun hahead hr
          | cons c' alts =>
            refine Run.retold_orElse_of_ahead hrun hahead hr fun s s' hs hahead hsame => ?_
            refine hs ▸ retold_miss_of_ahead halts (fun m hm u hu hum => ?_) hahead hsame
            obtain ⟨y, hy, rfl⟩ := List.mem_map.1 hm
            cases ((Reading.current?_congr hs).trans ht).symm.trans hu
            exact not_mem_seen y hy t hum (mem_seen htx seen)
        | succ k => exact hpass hx

end Dispatch

end ParserMachine

import ParserMachine.Proofs.Meaning.Depth
import ParserMachine.Proofs.Recognition.Analysis
import ParserMachine.Proofs.Recognition.Likeness
import ParserMachine.Proofs.Recognition.Ways
import ParserMachine.Proofs.Reports.Merging

/-!
# Leads are right

Where no token of its lead comes first, a parser fails in place, and it reports that what the lead says was
expected there (`Expr.lead_refutes`). Calls need a depth for this that the analysis does not exceed; where the
depth is less, the parser does so if it comes to a reply at all (`Expr.lead_begins`).

An alternation is evaluated by its alternatives, of which a table may choose one, so the induction shows of an
expression that its lead is made of those of its alternatives (`Lead.Split`).
-/

namespace ParserMachine

variable {τ : Type} [Token τ]

open ParseError

namespace Reading

variable {input : Array τ} {r r' : Reading τ}

theorem current?_congr (h : r.offset = r'.offset) : r.current? input = r'.current? input := by
  unfold current?
  rw [h]

theorem errorHere_congr (h : r.offset = r'.offset) (expected : ExpectedSet τ) :
    r.errorHere input expected = r'.errorHere input expected := by
  unfold errorHere here
  rw [current?_congr h, h]

theorem merge_errorHere (r : Reading τ) (e e' : ExpectedSet τ) :
    (r.errorHere input e).merge (r.errorHere input e') = r.errorHere input (e.union e') :=
  merge_trivial _ _ _ _

end Reading

/-! ### Failures in place -/

/-- The reply is a failure in place, and its error and the hints from inside report what was expected there. -/
def Reply.Expects (input : Array τ) (r : Reading τ) (expected : ExpectedSet τ) (reply : Reply τ) : Prop :=
  ∃ last s inside, reply = failed (r.errorHere input last) s ∧ s.offset = r.offset ∧
    s.hints = mergeOpt r.hints inside ∧
    mergeOpt inside (some (r.errorHere input last)) = some (r.errorHere input expected)

namespace Reply

variable {input : Array τ} {r s : Reading τ} {e : ParseError τ} {expected expected' : ExpectedSet τ}
  {reply : Reply τ}

theorem expects_failed (r : Reading τ) (expected : ExpectedSet τ) :
    (failed (r.errorHere input expected) r).Expects input r expected :=
  ⟨expected, r, none, rfl, rfl, (mergeOpt_none _).symm, none_mergeOpt _⟩

/-- Hints from before are reported too. -/
theorem Expects.exists_failed (h : reply.Expects input r expected) :
    ∃ last s, reply = failed (r.errorHere input last) s ∧ s.offset = r.offset ∧
      mergeOpt s.hints (some (r.errorHere input last)) =
        mergeOpt r.hints (some (r.errorHere input expected)) := by
  obtain ⟨last, s, inside, rfl, hplace, hhints, hreport⟩ := h
  refine ⟨last, s, rfl, hplace, ?_⟩
  rw [hhints, mergeOpt_assoc, hreport]

theorem Expects.failedAt (h : reply.Expects input r expected) : reply.FailedAt r.offset :=
  have ⟨_, s, hreply, hplace, _⟩ := h.exists_failed
  ⟨_, s, hreply, hplace⟩

/-- What the first alternative expects is among the hints of the second. -/
theorem Expects.orElse (h : (failed e s).Expects input r expected)
    (h' : reply.Expects input (s.hint e) expected') : reply.Expects input r (expected.union expected') := by
  obtain ⟨last, _, inside, heq, hplace, hhints, hreport⟩ := h
  cases heq
  obtain ⟨last', s', inside', rfl, hplace', hhints', hreport'⟩ := h'
  have hsame : (s.hint (r.errorHere input last)).offset = r.offset := hplace
  rw [Reading.errorHere_congr hsame, Reading.errorHere_congr hsame] at hreport'
  rw [Reading.errorHere_congr hsame]
  -- from the outside, what the first one reported is inside too
  refine ⟨last', s', mergeOpt (some (r.errorHere input expected)) inside', rfl, hplace'.trans hplace, ?_, ?_⟩
  · have hbefore : (s.hint (r.errorHere input last)).hints =
        mergeOpt r.hints (some (r.errorHere input expected)) := by
      show mergeOpt s.hints _ = _
      rw [hhints, mergeOpt_assoc, hreport]
    rw [hhints', hbefore, mergeOpt_assoc]
  · rw [mergeOpt_assoc, hreport']
    exact congrArg some (r.merge_errorHere _ _)

/-- Hints from the inside of a label lie where the parser began, and the label replaces them. -/
theorem Expects.labelled (name : Option String) (h : (failed e s).Expects input r.bare expected) :
    (Reply.labelled name r e s).Expects input r ((name.map ExpectedSet.label).getD .empty) := by
  obtain ⟨last, _, inside, heq, hplace, hhints, hreport⟩ := h
  cases heq
  have hinside : s.hints = inside := hhints.trans (none_mergeOpt inside)
  have hlabelled : (r.bare.errorHere input last).offset = r.offset := rfl
  refine ⟨_, _, s.hints.filter fun h => h.offset ≠ r.offset, congrArg₂ Reply.failed (if_pos hlabelled) rfl,
    hplace, ?_, ?_⟩
  · show mergeOpt r.hints _ = _
    rw [if_pos hlabelled]
  · -- a hint adds nothing to what the label says: further back it is absorbed, and in place it is dropped
    cases hh : s.hints with
    | none => rfl
    | some e =>
      rw [← hinside, hh] at hreport
      have hle : e.offset ≤ r.offset := by
        have hoffset := congrArg offset (Option.some.inj hreport)
        rw [offset_merge] at hoffset
        have hhere : (r.bare.errorHere input expected).offset = r.offset := rfl
        omega
      rw [Option.filter_some]
      split
      · rename_i hne
        have hlt : e.offset < r.offset := Nat.lt_of_le_of_ne hle (of_decide_eq_true hne)
        exact congrArg some (merge_of_lt hlt)
      · rfl

end Reply

/-- The parser fails in place and reports what was expected there. -/
def Run.Expects (p : Run τ) (input : Array τ) (r : Reading τ) (expected : ExpectedSet τ) : Prop :=
  ∃ reply, p r = some reply ∧ reply.Expects input r expected

namespace Run

variable {p q : Run τ} {r : Reading τ} {input : Array τ} {expected expected' : ExpectedSet τ} {reply : Reply τ}
  {onDone : Value τ → Reading τ → Option (Reply τ)} {onFailed : ParseError τ → Reading τ → Option (Reply τ)}

/-- A parser that goes on after a failure in place. -/
theorem Expects.handle (h : p.Expects input r expected) :
    ∃ e s, (Reply.failed e s).Expects input r expected ∧ p.handle r onDone onFailed = onFailed e s := by
  obtain ⟨_, hp, last, s, inside, rfl, hexpects⟩ := h
  exact ⟨_, s, ⟨last, s, inside, rfl, hexpects⟩, handle_of_failed hp⟩

/-- A parser that goes on after a failure in place, if it replies. -/
theorem exists_of_handle (hp : ∀ reply, p r = some reply → reply.Expects input r expected)
    (h : p.handle r onDone onFailed = some reply) :
    ∃ e s, (Reply.failed e s).Expects input r expected ∧ onFailed e s = some reply := by
  rcases handle_eq_some h with ⟨v, s, hr, -⟩ | ⟨e, s, hr, h⟩ | ⟨hr, -⟩
  · obtain ⟨_, _, _, h, -⟩ := hp _ hr
    cases h
  · exact ⟨e, s, hp _ hr, h⟩
  · obtain ⟨_, _, _, h, -⟩ := hp _ hr
    cases h

/-- What both of two alternatives expect where they fail in place. -/
theorem Expects.orElse (hp : p.Expects input r expected)
    (hq : ∀ s : Reading τ, s.offset = r.offset → q.Expects input s expected') :
    (p.orElse q).Expects input r (expected.union expected') := by
  obtain ⟨e, s, hexpects, heq⟩ := hp.handle
  have ⟨_, s', h, hplace, _⟩ := hexpects.exists_failed
  cases h
  obtain ⟨reply, hreply, hexpects'⟩ := hq (s.hint _) hplace
  refine ⟨reply, ?_, hexpects.orElse hexpects'⟩
  show p.handle r _ _ = some reply
  rw [heq, if_pos hplace]
  exact hreply

/-- What both of two alternatives expect where they fail in place, if they reply. -/
theorem expects_orElse (hp : ∀ reply, p r = some reply → reply.Expects input r expected)
    (hq : ∀ s : Reading τ, s.offset = r.offset → ∀ reply, q s = some reply → reply.Expects input s expected')
    (h : p.orElse q r = some reply) : reply.Expects input r (expected.union expected') := by
  obtain ⟨e, s, hexpects, h⟩ := exists_of_handle hp h
  have ⟨_, _, heq, hplace, _⟩ := hexpects.exists_failed
  cases heq
  rw [if_pos hplace] at h
  exact hexpects.orElse (hq (s.hint _) hplace reply h)

end Run

namespace Lead

/-- Where none of the tokens comes first, the parser fails in place and reports what the lead expects. -/
def Refutes (l : Lead τ) (input : Array τ) (p : Run τ) : Prop :=
  ∀ r : Reading τ, (∀ t, r.current? input = some t → t ∉ l.tokens) → p.Expects input r l.expected

/-- Where none of the tokens comes first, the parser fails in place and reports what the lead expects, if it
replies. -/
def Begins (l : Lead τ) (input : Array τ) (p : Run τ) : Prop :=
  ∀ r : Reading τ, (∀ t, r.current? input = some t → t ∉ l.tokens) →
    ∀ reply, p r = some reply → reply.Expects input r l.expected

@[simp] theorem mem_or {l m : Lead τ} {t : τ} : t ∈ (l.or m).tokens ↔ t ∈ l.tokens ∨ t ∈ m.tokens := by
  unfold Lead.or
  simp only [List.mem_append, List.mem_filter, decide_eq_true_eq]
  by_cases hl : t ∈ l.tokens <;> simp [hl]

namespace Refutes

variable {l : Lead τ} {input : Array τ} {p q : Run τ}

theorem begins_of_extends (h : l.Refutes input q) (hq : q.Extends p) : l.Begins input p := by
  intro r hr reply hreply
  obtain ⟨reply', hreply', hexpects⟩ := h r hr
  rw [hq r reply hreply] at hreply'
  cases hreply'
  exact hexpects

theorem andThen (h : l.Refutes input p) (k : Reading τ → Value τ → Reading τ → Option (Reply τ)) :
    l.Refutes input fun r => p.andThen r (k r) := by
  intro r hr
  obtain ⟨e, s, hexpects, heq⟩ := (h r hr).handle
  exact ⟨_, heq, hexpects⟩

theorem attempt (h : l.Refutes input p) (rounds : Nat) :
    l.Refutes input (Unary.attempt.run input rounds p) := by
  intro r hr
  obtain ⟨e, s, ⟨last, _, inside, h, hplace, hhints, hreport⟩, heq⟩ := (h r hr).handle
  cases h
  exact ⟨_, heq, last, r.backTo s, inside, rfl, rfl, hhints, hreport⟩

theorem label (h : l.Refutes input p) (name : Option String) (rounds : Nat) :
    (l.label name).Refutes input ((Unary.label name).run input rounds p) := by
  intro r hr
  obtain ⟨e, s, hexpects, heq⟩ := (h r.bare hr).handle
  exact ⟨_, heq, hexpects.labelled name⟩

end Refutes

end Lead

namespace Leaf

variable {input : Array τ}

theorem single_refuted (t : τ) (e : ExpectedSet τ) (ofCall : Nat → Run τ) :
    Lead.Refutes ⟨[t], e⟩ input ((Leaf.single t e).run input ofCall) := by
  intro r hr
  refine ⟨_, ?_, Reply.expects_failed r e⟩
  show Run.one input (fun u => u = t) e r = _
  unfold Run.one
  split
  · rename_i u hu
    have hut : u ≠ t := fun h => hr u hu (List.mem_singleton.2 h)
    rw [if_neg (by simpa using hut)]
  · rfl

theorem literal_refuted (t : τ) (ts : List τ) (v : Value τ) (e : ExpectedSet τ) (ofCall : Nat → Run τ) :
    Lead.Refutes ⟨[t], e⟩ input ((Leaf.literal (t :: ts) v e).run input ofCall) := by
  intro r hr
  have hnone : matchLength input r.offset (t :: ts) = 0 := by
    unfold matchLength
    have hne : ¬ input[r.offset]? = some t := fun ht => hr t ht (List.mem_singleton_self t)
    rw [if_neg hne]
  refine ⟨_, ?_, Reply.expects_failed r e⟩
  show Run.literal input (t :: ts) v e r = _
  unfold Run.literal
  simp only [hnone, List.length_cons]
  rw [if_neg (Nat.succ_ne_zero _).symm]
  rfl

end Leaf

/-! ### Alternatives -/

/-- A lead that is made of those of alternatives, each of which is right. -/
structure Lead.Split (l : Lead τ) (input : Array τ) (cs : List (Choice τ)) : Prop where
  /-- All alternatives have leads, and these are right. -/
  refuted : ∀ c ∈ cs, ∃ m, c.lead = some m ∧ m.Refutes input c.run
  /-- Each of their tokens is one of the lead. -/
  tokens : ∀ m ∈ cs.filterMap Choice.lead, ∀ t ∈ m.tokens, t ∈ l.tokens
  /-- What they expect is what the lead expects. -/
  expected : Dispatch.all (cs.filterMap Choice.lead) = l.expected

section Alternatives

variable {input : Array τ} {r : Reading τ} {cs : List (Choice τ)}
  (hcs : ∀ c ∈ cs, ∃ m, c.lead = some m ∧ m.Refutes input c.run)
  (hmiss : ∀ m ∈ cs.filterMap Choice.lead, ∀ t, r.current? input = some t → t ∉ m.tokens)
include hcs hmiss

/-- Alternatives in order, of which no lead has the current token. -/
theorem Run.expects_inOrder (hne : cs ≠ []) :
    (Run.inOrder (cs.map Choice.run)).Expects input r (Dispatch.all (cs.filterMap Choice.lead)) := by
  induction cs generalizing r with
  | nil => exact absurd rfl hne
  | cons c cs ih =>
    obtain ⟨⟨m, hm, hrefutes⟩, hcs⟩ := List.forall_mem_cons.1 hcs
    rw [List.filterMap_cons_some hm] at hmiss ⊢
    obtain ⟨hfirst, hmiss⟩ := List.forall_mem_cons.1 hmiss
    cases cs with
    | nil =>
      rw [List.filterMap_nil, Dispatch.all_singleton]
      exact hrefutes r hfirst
    | cons c' cs =>
      rw [Dispatch.all_cons]
      apply (hrefutes r hfirst).orElse
      intro s hs
      apply ih hcs _ (List.cons_ne_nil _ _)
      intro l hl t ht
      rw [Reading.current?_congr hs] at ht
      exact hmiss l hl t ht

/-- A table that has no alternative for the current token reports at once what all of them expect, and then
tries those that it leaves out. -/
theorem Run.expects_byTable {table : List (Run τ × Lead τ)}
    (htable : ∀ m ∈ table.map Prod.snd, ∀ t, r.current? input = some t → t ∉ m.tokens) :
    (Run.byTable input table (cs.map Choice.run)).Expects input r
      ((Dispatch.all (table.map Prod.snd)).union (Dispatch.all (cs.filterMap Choice.lead))) := by
  unfold Expects
  rcases byTable_cases input table (cs.map Choice.run) r with ⟨k, x, t, _, _, hx, ht, htx, -⟩ | ⟨-, heq⟩
  · -- the table would choose an alternative by a token that none of them has
    exact absurd htx (htable x.2 (List.mem_map_of_mem (List.mem_of_getElem? hx)) t ht)
  · rw [heq]
    -- a failure at once and a hint are the same for what is reported in the end
    have hfailed : Reply.Expects input r (Dispatch.all (table.map Prod.snd)) (.failed _ r) :=
      Reply.expects_failed r _
    cases cs with
    | nil =>
      have hnone (e : ExpectedSet τ) : e.union (Dispatch.all []) = e :=
        SortedSet.ext fun x => by simp [Dispatch.mem_all]
      rw [List.filterMap_nil, hnone]
      exact ⟨_, rfl, hfailed⟩
    | cons c cs =>
      have hrest : (Run.inOrder ((c :: cs).map Choice.run)).Expects input
          (r.hint (r.errorHere input (Dispatch.all (table.map Prod.snd)))) _ :=
        expects_inOrder hcs hmiss (List.cons_ne_nil _ _)
      obtain ⟨reply, hreply, hexpects⟩ := hrest
      exact ⟨reply, hreply, hfailed.orElse hexpects⟩

/-- Alternatives of which no lead has the current token, whether a table may choose among them or not. -/
theorem Run.expects_ofChoices (hne : cs ≠ []) (tgt : Target τ) :
    (Run.ofChoices tgt input cs).Expects input r (Dispatch.all (cs.filterMap Choice.lead)) := by
  have hsorted (l : Lead τ) : l ∈ cs.filterMap Choice.lead ↔
      l ∈ (Dispatch.sort Choice.lead cs).1.map Prod.snd ∨
        l ∈ (Dispatch.sort Choice.lead cs).2.filterMap Choice.lead := Dispatch.mem_leads_sortFrom
  have hothers : ∀ c ∈ (Dispatch.sort Choice.lead cs).2, c ∈ cs := Dispatch.mem_of_mem_sortFrom.2
  unfold ofChoices
  dsimp only
  split
  · split
    · exact expects_inOrder hcs hmiss hne
    · have hleads : ((Dispatch.sort Choice.lead cs).1.map fun a => (a.1.run, a.2)).map Prod.snd =
          (Dispatch.sort Choice.lead cs).1.map Prod.snd := List.map_map
      rw [Dispatch.all_eq_union hsorted, ← hleads]
      apply expects_byTable
      · exact fun c hc => hcs c (hothers c hc)
      · exact fun m hm => hmiss m ((hsorted m).2 (.inr hm))
      · rw [hleads]
        exact fun m hm => hmiss m ((hsorted m).2 (.inl hm))
  · exact expects_inOrder hcs hmiss hne

end Alternatives

namespace Lead.Split

variable {l m : Lead τ} {input : Array τ} {cs ds : List (Choice τ)}

theorem refutes (h : l.Split input cs) (hne : cs ≠ []) (tgt : Target τ) :
    l.Refutes input (.ofChoices tgt input cs) := by
  intro r hr
  rw [← h.expected]
  exact Run.expects_ofChoices h.refuted (fun m hm t ht htm => hr t ht (h.tokens m hm t htm)) hne tgt

theorem single {c : Choice τ} (hlead : c.lead = some l) (h : l.Refutes input c.run) : l.Split input [c] := by
  have hleads : [c].filterMap Choice.lead = [l] := List.filterMap_cons_some hlead
  constructor
  · intro c' hc'
    rw [List.mem_singleton.1 hc']
    exact ⟨l, hlead, h⟩
  · intro m hm t ht
    rw [hleads, List.mem_singleton] at hm
    exact hm ▸ ht
  · rw [hleads, Dispatch.all_singleton]

theorem append (h : l.Split input cs) (h' : m.Split input ds) : (l.or m).Split input (cs ++ ds) := by
  constructor
  · intro c hc
    rcases List.mem_append.1 hc with hc | hc
    · exact h.refuted c hc
    · exact h'.refuted c hc
  · intro k hk t ht
    rw [List.filterMap_append] at hk
    rcases List.mem_append.1 hk with hk | hk
    · exact mem_or.2 (.inl (h.tokens k hk t ht))
    · exact mem_or.2 (.inr (h'.tokens k hk t ht))
  · rw [List.filterMap_append, Dispatch.all_eq_union fun _ => List.mem_append, h.expected, h'.expected]
    rfl

end Lead.Split

/-! ### Expressions -/

namespace Expr

section With

variable {x : Setting τ} {ofCall : Nat → Option (Lead τ)}
  (hcall : ∀ l lead, ofCall l = some lead → lead.Refutes x.input (x.ofCall l))
  (hlead : ∀ (p : Expr τ) lead, p.leadWith ofCall = some lead → p.lead x.target.subroutines = some lead)
include hcall hlead

/-- The lead of an expression is made of those of its alternatives, and right, if those of calls are. -/
theorem leadWith_split {p : Expr τ} {lead : Lead τ} (h : p.leadWith ofCall = some lead) :
    lead.Split x.input (p.choices x []) := by
  have hpart {q : Expr τ} {m : Lead τ} (hq : m.Split x.input (q.choices x [])) : m.Refutes x.input (q.run x) :=
    hq.refutes (choices_ne_nil x q []) x.target
  induction p generalizing lead with
  | leaf l =>
    apply Lead.Split.single (hlead _ _ h)
    cases l with
    | single t e =>
      cases h
      exact Leaf.single_refuted t e x.ofCall
    | literal ts v e =>
      cases ts with
      | nil => cases h
      | cons t ts =>
        cases h
        exact Leaf.literal_refuted t ts v e x.ofCall
    | call l => exact hcall l lead h
    | _ => cases h
  | unary u p ih =>
    apply Lead.Split.single (hlead _ _ h)
    cases u with
    | map | chunk | matchChunk => exact (hpart (ih h)).andThen _
    | attempt => exact (hpart (ih h)).attempt x.rounds
    | label name =>
      obtain ⟨inner, hinner, rfl⟩ := Option.map_eq_some_iff.1 h
      exact (hpart (ih hinner)).label name x.rounds
    | lookAhead | notFollowedBy | many | guard => cases h
  | binary b p q ihp ihq =>
    cases b with
    | seq kind =>
      apply Lead.Split.single (hlead _ _ h)
      unfold leadWith at h
      split at h
      · rename_i hpure
        obtain ⟨v, rfl⟩ := exists_eq_pure hpure
        show lead.Refutes x.input (Binary.run ((pure v).run x) (q.run x) (.seq kind))
        rw [run_leaf]
        exact (hpart (ihq h)).andThen fun _ w r => some (.done (kind.value v w) r)
      · exact (hpart (ihp h)).andThen _
    | branch f => exact Lead.Split.single (hlead _ _ h) ((hpart (ihp h)).andThen _)
    | alt =>
      -- the alternatives of both are one list, and a table may choose among all of them
      obtain ⟨l, hl, h⟩ := Option.bind_eq_some_iff.1 h
      obtain ⟨m, hm, h⟩ := Option.bind_eq_some_iff.1 h
      cases h
      rw [choices_alt]
      exact (ihp hl).append (ihq hm)

end With

variable {tgt : Target τ} {p : Expr τ} {lead : Lead τ}

/-- Calls that are followed for a lead, as part of following others, are followed for the lead by itself. -/
theorem lead_of_leadFrom {steps : Nat} (hsteps : steps ≤ maxCallDepth) {path : List Nat}
    (h : p.leadFrom tgt.subroutines steps path = some lead) : p.lead tgt.subroutines = some lead :=
  leadFrom_mono hsteps (List.nil_subset path) h

/-- The lead of an expression is right, however deep calls are followed for it, if they are evaluated deeper: a
call that is followed goes one deeper in both. -/
theorem leadFrom_refutes {steps : Nat} (hsteps : steps ≤ maxCallDepth) {path : List Nat}
    (h : p.leadFrom tgt.subroutines steps path = some lead) (input : Array τ) {depth : Nat}
    (hdepth : steps < depth) : lead.Refutes input (p.evalAt tgt input depth) := by
  induction steps generalizing path p lead depth with
  | zero =>
    obtain ⟨depth, rfl⟩ := Nat.exists_eq_succ_of_ne_zero (Nat.ne_zero_of_lt hdepth)
    have hlead (q : Expr τ) (m : Lead τ) (hq : q.leadFrom tgt.subroutines 0 path = some m) :=
      lead_of_leadFrom hsteps hq
    have hsplit := leadWith_split (x := settingAt tgt input depth) (fun l lead hl => by cases hl) hlead h
    exact hsplit.refutes (choices_ne_nil _ p []) tgt
  | succ steps ih =>
    obtain ⟨depth, rfl⟩ := Nat.exists_eq_succ_of_ne_zero (Nat.ne_zero_of_lt hdepth)
    have hlead (q : Expr τ) (m : Lead τ) (hq : q.leadFrom tgt.subroutines (steps + 1) path = some m) :=
      lead_of_leadFrom hsteps hq
    have hsplit := leadWith_split (x := settingAt tgt input depth) (fun l lead hl => ?_) hlead h
    · exact hsplit.refutes (choices_ne_nil _ p []) tgt
    · split at hl
      · cases hl
      · obtain ⟨s, hs, hl⟩ := Option.bind_eq_some_iff.1 hl
        have hcall : callsAt tgt input depth l = s.body.evalAt tgt input depth := callsAt_of_getElem? hs
        show lead.Refutes input (callsAt tgt input depth l)
        rw [hcall]
        exact ih (Nat.le_of_succ_le hsteps) hl (Nat.lt_of_succ_lt_succ hdepth)

theorem lead_refutes (h : p.lead tgt.subroutines = some lead) (input : Array τ) {depth : Nat}
    (hdepth : maxCallDepth < depth) : lead.Refutes input (p.evalAt tgt input depth) :=
  leadFrom_refutes (Nat.le_refl _) h input hdepth

theorem lead_begins (h : p.lead tgt.subroutines = some lead) (input : Array τ) (depth : Nat) :
    lead.Begins input (p.evalAt tgt input depth) :=
  (lead_refutes h input (Nat.lt_add_left depth (Nat.lt_succ_self maxCallDepth))).begins_of_extends
    (evalAt_mono (Nat.le_add_right depth _) p)

end Expr

end ParserMachine

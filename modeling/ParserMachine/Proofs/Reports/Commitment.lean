import ParserMachine.Proofs.Recognition.Progress
import ParserMachine.Proofs.Reports.Regular

/-!
# What a first token commits to

A parser with a lead consumes input when it succeeds, and where a token of its lead comes first it reports,
when it fails, something further ahead (`Expr.lead_commits`). So in front of it nothing that lies in place
matters any more.
-/

namespace ParserMachine

variable {τ : Type} [Token τ]

open ParseError

namespace Reading

variable {r : Reading τ} {e : ParseError τ} {i : Nat}

/-- What a failure reports: the error and the hints. -/
def report (e : ParseError τ) (r : Reading τ) : ParseError τ := (r.hints.map fun h => h.merge e).getD e

theorem some_report (e : ParseError τ) (r : Reading τ) : some (r.report e) = mergeOpt r.hints (some e) := by
  unfold report
  cases r.hints <;> rfl

/-- A report lies as far ahead as the error or a hint. -/
theorem lt_offset_report_iff : i < (r.report e).offset ↔ (∃ h ∈ r.hints, i < h.offset) ∨ i < e.offset := by
  have hreport : (∃ k ∈ some (r.report e), i < k.offset) ↔ i < (r.report e).offset := by simp
  rw [← hreport, some_report, exists_mem_mergeOpt]
  simp

end Reading

/-- The parser commits to its first token. -/
structure Lead.Commits (l : Lead τ) (input : Array τ) (p : Run τ) : Prop where
  /-- It consumes input when it succeeds. -/
  consumes : p.Advances 1
  /-- When it fails after a token of the lead, it reports something further ahead. -/
  ahead : ∀ r t e r', r.current? input = some t → t ∈ l.tokens → p r = some (.failed e r') →
    r.offset < (r'.report e).offset

namespace Run

variable {p q : Run τ} {r r' : Reading τ} {input : Array τ} {l m : Lead τ}

/-- Hints are among those that a failed parser leaves. -/
theorem Regular.exists_hints (hp : p.Regular) {e : ParseError τ} (h : p r = some (.failed e r')) :
    ∃ inside, r'.hints = mergeOpt r.hints inside := by
  have hkeeps := hp.keeps r.hints r.bare
  rw [Reading.under_bare, h] at hkeeps
  obtain ⟨reply, -, hreply⟩ := Option.map_eq_some_iff.1 hkeeps.symm
  cases reply with
  | failed e r₁ =>
    cases hreply
    exact ⟨r₁.hints, rfl⟩
  | done | stuck => cases hreply

theorem never_commits (l : Lead τ) (input : Array τ) : l.Commits input never :=
  ⟨never_advances 1, fun _ _ _ _ _ _ h => (by cases h)⟩

/-- What comes after a parser that commits. -/
theorem andThen_commits (hp : l.Commits input p) {k : Reading τ → Value τ → Run τ}
    (hk : ∀ r v r' reply, k r v r' = some reply → reply.From r'.offset) :
    l.Commits input fun r => p.andThen r (k r) := by
  refine ⟨hp.consumes.andThen (m := 0) fun r v s w s' h => hk r v s _ h, fun r t e r' ht htl h => ?_⟩
  rcases andThen_eq_failed h with ⟨w, r₁, hpr, h⟩ | h
  · obtain ⟨hr₁, he⟩ := hk _ _ _ _ h
    have hlt := hp.consumes r w r₁ hpr
    exact Reading.lt_offset_report_iff.2 (.inr (by omega))
  · exact hp.ahead r t e r' ht htl h

theorem orElse_commits (hp : l.Commits input p) (hq : m.Commits input q) (hpr : p.Regular)
    (hqr : q.Regular) : (l.or m).Commits input (p.orElse q) := by
  refine ⟨fun r v r' h => ?_, fun r t e r' ht htlm h => ?_⟩
  · rcases exists_of_orElse_eq_done h with h | ⟨r₁, hplace, h⟩
    · exact hp.consumes r v r' h
    · exact hplace ▸ hq.consumes r₁ v r' h
  · rcases handle_eq_failed h with ⟨_, _, -, h⟩ | ⟨e₁, r₁, hr₁, h⟩
    · cases h
    · split at h
      · rename_i hplace
        rcases Lead.mem_or.1 htlm with htl | htm
        · -- what the first alternative reports is among the hints of the second
          have hahead := hp.ahead r t e₁ r₁ ht htl hr₁
          obtain ⟨inside, hinside⟩ := hqr.exists_hints h
          have hhints : (r₁.hint e₁).hints = some (r₁.report e₁) := (Reading.some_report e₁ r₁).symm
          rw [hhints] at hinside
          refine Reading.lt_offset_report_iff.2 (.inl ?_)
          rw [hinside]
          exact exists_mem_mergeOpt.2 (.inl ⟨_, rfl, hahead⟩)
        · have hcurrent : (r₁.hint e₁).current? input = some t :=
            (Reading.current?_congr hplace).trans ht
          exact hplace ▸ hq.ahead (r₁.hint e₁) t e r' hcurrent htm h
      · rename_i hplace
        cases h
        obtain ⟨hr, he⟩ := hpr.forward r _ hr₁
        exact Reading.lt_offset_report_iff.2 (.inr (by omega))

theorem label_commits (name : Option String) (hp : l.Commits input p) (rounds : Nat) :
    (l.label name).Commits input ((Unary.label name).run input rounds p) := by
  refine ⟨hp.consumes.label input name rounds, fun r t e r' ht htl h => ?_⟩
  rcases handle_eq_failed h with ⟨_, _, -, h⟩ | ⟨e₁, r₁, hr₁, h⟩
  · cases h
  · have hahead : r.offset < (r₁.report e₁).offset := hp.ahead r.bare t e₁ r₁ ht htl hr₁
    rw [Reading.lt_offset_report_iff] at hahead ⊢
    cases h
    rcases hahead with ⟨h, hh, hlt⟩ | hlt
    · -- a hint from further ahead is kept
      refine .inl (exists_mem_mergeOpt.2 (.inr ⟨h, ?_, hlt⟩))
      split
      · rw [hh, Option.filter_some, if_pos (decide_eq_true (by omega))]
        rfl
      · exact hh
    · refine .inr ?_
      split
      · omega
      · exact hlt

end Run

namespace Leaf

variable {input : Array τ} {run : Nat → Run τ}

theorem single_commits (t : τ) (e : ExpectedSet τ) :
    Lead.Commits ⟨[t], e⟩ input ((Leaf.single t e).run input run) := by
  refine ⟨Run.one_advances _ e, fun r u e' r' hu hut h => ?_⟩
  have hone : Run.one input (fun u => u = t) e r = some (.failed e' r') := h
  unfold Run.one at hone
  rw [hu] at hone
  dsimp only at hone
  rw [if_pos (decide_eq_true (List.mem_singleton.1 hut))] at hone
  cases hone

theorem literal_commits (t : τ) (ts : List τ) (v : Value τ) (e : ExpectedSet τ) :
    Lead.Commits ⟨[t], e⟩ input ((Leaf.literal (t :: ts) v e).run input run) := by
  refine ⟨(Run.literal_advances (t :: ts) v e).mono (Nat.le_add_left 1 ts.length), fun r u e' r' hu hut h => ?_⟩
  have hliteral : Run.literal input (t :: ts) v e r = some (.failed e' r') := h
  have hmatch : 0 < matchLength input r.offset (t :: ts) := by
    have hfirst : input[r.offset]? = some t := by
      rw [← List.mem_singleton.1 hut]
      exact hu
    unfold matchLength
    rw [if_pos hfirst]
    omega
  unfold Run.literal at hliteral
  dsimp only at hliteral
  split at hliteral
  · cases hliteral
  · cases hliteral
    refine Reading.lt_offset_report_iff.2 (.inr ?_)
    show r.offset < r.offset + matchLength input r.offset (t :: ts)
    omega

end Leaf

namespace Expr

variable {x : Setting τ} (hx : x.target.options.dispatchTables = false)

section With

variable {ofCall : Nat → Option (Lead τ)} (hregular : ∀ l, (x.ofCall l).Regular)
  (hcall : ∀ l lead, ofCall l = some lead → lead.Commits x.input (x.ofCall l))
include hx hregular hcall

/-- An expression commits to its lead if calls do. -/
theorem leadWith_commits {p : Expr τ} (hp : p.Without Unary.Inspects) {lead : Lead τ}
    (h : p.leadWith ofCall = some lead) : lead.Commits x.input (p.run x) := by
  have hvalue (f : Value τ → Value τ) {q : Run τ} (hq : q.Regular) (r : Reading τ) (reply : Reply τ)
      (h : (q.andThen r fun w r' => some (.done (f w) r')) = some reply) : reply.From r.offset :=
    (hq.value (f := fun _ w _ => f w) fun _ _ _ _ => rfl).forward r reply h
  induction p generalizing lead with
  | leaf l =>
    rw [run_leaf]
    cases l with
    | single t e =>
      cases h
      exact Leaf.single_commits t e
    | literal ts v e =>
      cases ts with
      | nil => cases h
      | cons t ts =>
        cases h
        exact Leaf.literal_commits t ts v e
    | call l => exact hcall l lead h
    | _ => cases h
  | unary u p ih =>
    rw [run_unary]
    have hdone (w : Value τ) (r' : Reading τ) (reply : Reply τ) (h : some (.done w r') = some reply) :
        reply.From r'.offset := by
      cases h
      exact Nat.le_refl _
    cases u with
    | map | chunk | matchChunk =>
      exact Run.andThen_commits (ih hp.2 h) fun _ _ _ _ h => hdone _ _ _ h
    | attempt =>
      refine ⟨(ih hp.2 h).consumes.attempt x.input x.rounds, fun r t e r' ht htl h' => ?_⟩
      rcases Run.handle_eq_failed h' with ⟨_, _, -, h'⟩ | ⟨e₁, r₁, hr₁, h'⟩ <;> cases h'
      exact (ih hp.2 h).ahead r t _ r₁ ht htl hr₁
    | label name =>
      obtain ⟨inner, hinner, rfl⟩ := Option.map_eq_some_iff.1 h
      exact Run.label_commits name (ih hp.2 hinner) x.rounds
    | lookAhead | notFollowedBy | many | guard => cases h
  | binary b p q ihp ihq =>
    rw [run_binary_of_noTables x hx]
    have hpr := regular_run hx hregular hp.1
    have hqr := regular_run hx hregular hp.2
    cases b with
    | seq kind =>
      unfold leadWith at h
      split at h
      · rename_i hpure
        obtain ⟨v, rfl⟩ := exists_eq_pure hpure
        rw [run_leaf]
        have hcommits := Run.andThen_commits (ihq hp.2 h)
          (k := fun _ w r' => some (.done (kind.value v w) r')) fun r w r' reply h => by
            cases h
            exact Nat.le_refl _
        exact hcommits
      · exact Run.andThen_commits (ihp hp.1 h) fun _ v r' reply h => hvalue (kind.value v) hqr r' reply h
    | branch f =>
      refine Run.andThen_commits (ihp hp.1 h) fun r v r' reply h => ?_
      cases v with
      | leftBranch v => exact hvalue (f v) hqr r' reply h
      | rightBranch v =>
        cases h
        exact Nat.le_refl _
      | _ =>
        cases h
        trivial
    | alt =>
      obtain ⟨l, hl, h⟩ := Option.bind_eq_some_iff.1 h
      obtain ⟨m, hm, h⟩ := Option.bind_eq_some_iff.1 h
      cases h
      exact Run.orElse_commits (ihp hp.1 hl) (ihq hp.2 hm) hpr hqr

end With

section Tree

variable {tgt : Target τ} (htables : tgt.options.dispatchTables = false)
  (hbodies : ∀ s ∈ tgt.subroutines, s.body.Without Unary.Inspects)
include htables hbodies

theorem regular_callsAt (input : Array τ) (depth l : Nat) : (callsAt tgt input depth l).Regular := by
  induction depth generalizing l with
  | zero =>
    refine callsAt_induct (P := Run.Regular) Run.regular_never (fun s _ => ?_) l
    exact Run.regular_never
  | succ depth ih =>
    refine callsAt_induct (P := Run.Regular) Run.regular_never (fun s hs => ?_) l
    exact regular_run (x := settingAt tgt input depth) htables ih (hbodies s hs)

/-- An expression commits to its lead, however deep calls are followed for it. -/
theorem leadFrom_commits {steps : Nat} {path : List Nat} {p : Expr τ} (hp : p.Without Unary.Inspects)
    {lead : Lead τ} (h : p.leadFrom tgt.subroutines steps path = some lead) (input : Array τ)
    (depth : Nat) : lead.Commits input (p.evalAt tgt input depth) := by
  refine leadFrom_induct
    (P := fun p lead => p.Without Unary.Inspects → ∀ depth, lead.Commits input (p.evalAt tgt input depth))
    (fun ofCall hcall p lead h hp depth => ?_) h hp depth
  cases depth with
  | zero => exact Run.never_commits _ _
  | succ depth =>
    refine leadWith_commits (x := settingAt tgt input depth) htables
      (regular_callsAt htables hbodies input depth) (fun l lead hl => ?_) hp h
    obtain ⟨s, hs, hbody⟩ := hcall l lead hl
    show lead.Commits input (callsAt tgt input depth l)
    rw [callsAt_of_getElem? hs]
    exact hbody (hbodies s (Array.mem_of_getElem? hs)) depth

theorem lead_commits {p : Expr τ} (hp : p.Without Unary.Inspects) {lead : Lead τ}
    (h : p.lead tgt.subroutines = some lead) (input : Array τ) (depth : Nat) :
    lead.Commits input (p.evalAt tgt input depth) := leadFrom_commits htables hbodies hp h input depth

end Tree

end Expr

end ParserMachine

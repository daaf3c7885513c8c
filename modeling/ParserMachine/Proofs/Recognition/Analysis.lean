import Mathlib.Logic.Basic
import ParserMachine.Expr.Lead
import ParserMachine.Proofs.Reports.Merging

/-!
# How leads are found

An expression keeps its lead where more is known of calls (`Expr.leadFrom_mono`), and a lead has a token.

A lead can be searched without recursion: a search keeps a list of nodes that it is yet to look at, and what it
has found. Each step takes the first node and puts its parts in its place, or the body of the subroutine that is
called (`Lead.Pending.step`). The list may grow, but the search ends, and what it comes to is the lead
(`Expr.search_iff`).
-/

namespace ParserMachine

variable {τ : Type} [Token τ]

/-! ### What the analysis depends on -/

namespace Expr

variable {subroutines : Array (Subroutine τ)}

theorem exists_eq_pure {p : Expr τ} (h : p.isPure) : ∃ v, p = pure v := by
  unfold isPure at h
  split at h
  · exact ⟨_, rfl⟩
  · cases h

/-- An expression keeps its lead where calls have more leads. -/
theorem leadWith_mono {ofCall ofCall' : Nat → Option (Lead τ)}
    (hcall : ∀ l lead, ofCall l = some lead → ofCall' l = some lead) {p : Expr τ} {lead : Lead τ}
    (h : p.leadWith ofCall = some lead) : p.leadWith ofCall' = some lead := by
  induction p generalizing lead with
  | leaf l =>
    cases l with
    | call l => exact hcall l lead h
    | literal ts => cases ts <;> exact h
    | _ => exact h
  | unary u p ih =>
    cases u with
    | label name =>
      obtain ⟨inner, hinner, rfl⟩ := Option.map_eq_some_iff.1 h
      exact Option.map_eq_some_iff.2 ⟨inner, ih hinner, rfl⟩
    | map | attempt | chunk | matchChunk => exact ih h
    | _ => exact h
  | binary b p q ihp ihq =>
    cases b with
    | seq kind =>
      unfold leadWith at h ⊢
      split at h
      · rename_i hpure
        rw [if_pos hpure]
        exact ihq h
      · rename_i hpure
        rw [if_neg hpure]
        exact ihp h
    | branch f => exact ihp h
    | alt =>
      obtain ⟨l, hl, h⟩ := Option.bind_eq_some_iff.1 h
      obtain ⟨m, hm, h⟩ := Option.bind_eq_some_iff.1 h
      exact Option.bind_eq_some_iff.2 ⟨l, ihp hl, Option.bind_eq_some_iff.2 ⟨m, ihq hm, h⟩⟩

/-- An expression keeps its lead where calls are followed deeper and fewer subroutines are closed to them. -/
theorem leadFrom_mono {steps steps' : Nat} (hsteps : steps ≤ steps')
    {path path' : List Nat} (hpath : path' ⊆ path) {p : Expr τ} {lead : Lead τ}
    (h : p.leadFrom subroutines steps path = some lead) :
    p.leadFrom subroutines steps' path' = some lead := by
  induction steps generalizing steps' path path' p lead with
  | zero =>
    cases steps' with
    | zero => exact h
    | succ steps' => exact leadWith_mono (fun l lead hl => by cases hl) h
  | succ steps ih =>
    obtain ⟨steps', rfl⟩ := Nat.exists_eq_succ_of_ne_zero (Nat.ne_zero_of_lt hsteps)
    refine leadWith_mono (fun l lead hl => ?_) h
    split at hl
    · cases hl
    · rename_i hopen
      obtain ⟨s, hs, hl⟩ := Option.bind_eq_some_iff.1 hl
      rw [if_neg fun hmem => hopen (hpath hmem)]
      exact Option.bind_eq_some_iff.2
        ⟨s, hs, ih (Nat.le_of_succ_le_succ hsteps) (List.cons_subset_cons l hpath) hl⟩

/-- What an expression with a lead has if calls with leads have it, it has however deep calls are followed. -/
theorem leadFrom_induct {P : Expr τ → Lead τ → Prop}
    (hwith : ∀ ofCall : Nat → Option (Lead τ),
      (∀ l lead, ofCall l = some lead → ∃ s, subroutines[l]? = some s ∧ P s.body lead) →
        ∀ p lead, p.leadWith ofCall = some lead → P p lead)
    {steps : Nat} {path : List Nat} {p : Expr τ} {lead : Lead τ}
    (h : p.leadFrom subroutines steps path = some lead) : P p lead := by
  induction steps generalizing path p lead with
  | zero => exact hwith _ (fun l lead hl => by cases hl) p lead h
  | succ steps ih =>
    refine hwith _ (fun l lead hl => ?_) p lead h
    split at hl
    · cases hl
    · obtain ⟨s, hs, hl⟩ := Option.bind_eq_some_iff.1 hl
      exact ⟨s, hs, ih hl⟩

/-- Every lead has a token. -/
theorem tokens_ne_nil_of_leadWith {ofCall : Nat → Option (Lead τ)}
    (hcall : ∀ l lead, ofCall l = some lead → lead.tokens ≠ []) {p : Expr τ} {lead : Lead τ}
    (h : p.leadWith ofCall = some lead) : lead.tokens ≠ [] := by
  induction p generalizing lead with
  | leaf l =>
    cases l with
    | single t e =>
      cases h
      exact List.cons_ne_nil _ _
    | literal ts v e =>
      cases ts with
      | nil => cases h
      | cons t ts =>
        cases h
        exact List.cons_ne_nil _ _
    | call l => exact hcall l lead h
    | _ => cases h
  | unary u p ih =>
    cases u with
    | map | attempt | chunk | matchChunk => exact ih h
    | label name =>
      obtain ⟨l, hl, rfl⟩ := Option.map_eq_some_iff.1 h
      show l.tokens ≠ []
      exact ih hl
    | lookAhead | notFollowedBy | many | guard => cases h
  | binary b p q ihp ihq =>
    cases b with
    | seq kind =>
      unfold leadWith at h
      split at h
      · exact ihq h
      · exact ihp h
    | branch f => exact ihp h
    | alt =>
      obtain ⟨l, hl, h⟩ := Option.bind_eq_some_iff.1 h
      obtain ⟨m, hm, h⟩ := Option.bind_eq_some_iff.1 h
      cases h
      exact List.append_ne_nil_of_left_ne_nil (ihp hl) _

theorem tokens_ne_nil_of_leadFrom {steps : Nat} {path : List Nat} {p : Expr τ} {lead : Lead τ}
    (h : p.leadFrom subroutines steps path = some lead) : lead.tokens ≠ [] := by
  refine leadFrom_induct (P := fun _ lead => lead.tokens ≠ []) (fun ofCall hcall p lead => ?_) h
  apply tokens_ne_nil_of_leadWith
  intro l lead hl
  obtain ⟨_, -, htokens⟩ := hcall l lead hl
  exact htokens

end Expr

/-! ### Searches -/

namespace Lead

/-- A node that a search is yet to look at. -/
structure Pending (τ : Type) [Token τ] where
  /-- The node. -/
  expr : Expr τ
  /-- Whether a label around it decides what is expected. -/
  labelled : Bool
  /-- The subroutines that were followed to it. -/
  path : List Nat

/-- Adds a lead to what was found. Under a label only its tokens count. -/
def absorb (found : Lead τ) (labelled : Bool) (l : Lead τ) : Lead τ :=
  if labelled then { found.or l with expected := found.expected } else found.or l

/-- What a search does with a node: the nodes that take its place, and what was found then. It gives up where
nothing is known of the first token. -/
def Pending.step (subroutines : Array (Subroutine τ)) (node : Pending τ) (found : Lead τ) :
    Option (List (Pending τ) × Lead τ) :=
  match node.expr with
  | .leaf (.single t e) | .leaf (.literal (t :: _) _ e) => some ([], found.absorb node.labelled ⟨[t], e⟩)
  | .leaf (.call l _) =>
    if l ∈ node.path ∨ Expr.maxCallDepth ≤ node.path.length then none
    else do
      let s ← subroutines[l]?
      return ([⟨s.body, node.labelled, l :: node.path⟩], found)
  | .leaf _ => none
  | .unary (.map _) p | .unary .attempt p | .unary .chunk p | .unary .matchChunk p =>
    some ([{ node with expr := p }], found)
  | .unary (.label name) p =>
    some ([{ node with expr := p, labelled := true }],
      match name, node.labelled with
      | some l, false => { found with expected := found.expected.union (ExpectedSet.label l) }
      | _, _ => found)
  | .unary .lookAhead _ | .unary .notFollowedBy _ | .unary .many _ | .unary (.guard _) _ => none
  | .binary (.seq _) p q => some ([{ node with expr := if p.isPure then q else p }], found)
  | .binary (.branch _) p _ => some ([{ node with expr := p }], found)
  | .binary .alt p q => some ([{ node with expr := p }, { node with expr := q }], found)

/-- The search of these nodes ends, and this is what it comes to. -/
inductive Search (subroutines : Array (Subroutine τ)) : List (Pending τ) → Lead τ → Option (Lead τ) → Prop where
  /-- No node is left. -/
  | done {found : Lead τ} : Search subroutines [] found (if found.tokens = [] then none else some found)
  /-- Nothing is known of a node. -/
  | gaveUp {node : Pending τ} {nodes : List (Pending τ)} {found : Lead τ} :
    node.step subroutines found = none → Search subroutines (node :: nodes) found none
  /-- Others take the place of a node. -/
  | next {node : Pending τ} {nodes new : List (Pending τ)} {found found' : Lead τ} {result : Option (Lead τ)} :
    node.step subroutines found = some (new, found') → Search subroutines (new ++ nodes) found' result →
      Search subroutines (node :: nodes) found result

variable {subroutines : Array (Subroutine τ)}

/-- A search comes to one result only. -/
theorem Search.unique {nodes : List (Pending τ)} {found : Lead τ} {result result' : Option (Lead τ)}
    (h : Search subroutines nodes found result) (h' : Search subroutines nodes found result') :
    result = result' := by
  induction h with
  | done =>
    cases h'
    rfl
  | gaveUp hstep =>
    cases h' with
    | gaveUp => rfl
    | next hstep' =>
      rw [hstep] at hstep'
      cases hstep'
  | next hstep _ ih =>
    cases h' with
    | gaveUp hstep' =>
      rw [hstep] at hstep'
      cases hstep'
    | next hstep' h' =>
      rw [hstep] at hstep'
      cases hstep'
      exact ih h'

/-! ### What is found -/

theorem or_assoc (a b c : Lead τ) : (a.or b).or c = a.or (b.or c) := by
  have htokens : (a.tokens ++ b.tokens.filter (· ∉ a.tokens)) ++
      c.tokens.filter (· ∉ a.tokens ++ b.tokens.filter (· ∉ a.tokens)) =
        a.tokens ++ (b.tokens ++ c.tokens.filter (· ∉ b.tokens)).filter (· ∉ a.tokens) := by
    rw [List.filter_append, List.append_assoc, List.filter_filter]
    congr 2
    apply List.filter_congr
    intro t _
    by_cases ha : t ∈ a.tokens <;> simp [ha]
  exact congrArg₂ Lead.mk htokens (SortedSet.union_assoc a.expected b.expected c.expected)

theorem absorb_or (found l m : Lead τ) (labelled : Bool) :
    (found.absorb labelled l).absorb labelled m = found.absorb labelled (l.or m) := by
  cases labelled with
  | true => exact congrArg (fun k => Lead.mk k.tokens found.expected) (or_assoc found l m)
  | false => exact or_assoc found l m

/-- Under a label the parts add their tokens, and the label what is expected. -/
theorem absorb_label (found l : Lead τ) (labelled : Bool) (name : Option String) :
    found.absorb labelled (l.label name) =
      absorb (match name, labelled with
        | some l, false => { found with expected := found.expected.union (ExpectedSet.label l) }
        | _, _ => found) true l := by
  cases labelled with
  | true => cases name <;> rfl
  | false =>
    cases name with
    | some name => rfl
    | none =>
      have hnone : found.expected.union .empty = found.expected := SortedSet.ext fun x => by simp
      exact congrArg (Lead.mk _) hnone

/-- What is found first is all that is found. -/
theorem empty_or (l : Lead τ) : Lead.or ⟨[], .empty⟩ l = l := by
  have hexpected : SortedSet.empty.union l.expected = l.expected := SortedSet.ext fun x => by simp
  have htokens : l.tokens.filter (· ∉ []) = l.tokens := List.filter_eq_self.2 fun t _ => by simp
  exact congrArg₂ Lead.mk htokens hexpected

/-! ### What searches come to -/

/-- How a search that has looked at a node and its parts goes on to its result. -/
def Continues (subroutines : Array (Subroutine τ)) (nodes : List (Pending τ)) (found : Lead τ) (labelled : Bool)
    (result : Option (Lead τ)) : Option (Lead τ) → Prop
  | none => result = none
  | some l => Search subroutines nodes (found.absorb labelled l) result

end Lead

namespace Expr

variable {subroutines : Array (Subroutine τ)} {result : Option (Lead τ)}

open Lead

section With

variable {ofCall : Nat → Option (Lead τ)} {path : List Nat}
  (hcall : ∀ (l : Nat) (b labelled : Bool) (nodes : List (Pending τ)) (found : Lead τ),
    Continues subroutines nodes found labelled result (ofCall l) →
      Search subroutines (⟨leaf (.call l b), labelled, path⟩ :: nodes) found result)
include hcall

/-- A search looks at an expression as the analysis does, if it looks at calls so. -/
theorem search_of_leadWith {p : Expr τ} {labelled : Bool} {nodes : List (Pending τ)} {found : Lead τ}
    (h : Continues subroutines nodes found labelled result (p.leadWith ofCall)) :
    Search subroutines (⟨p, labelled, path⟩ :: nodes) found result := by
  induction p generalizing labelled nodes found with
  | leaf l =>
    have hnone (h : result = none) (hstep : Pending.step subroutines ⟨leaf l, labelled, path⟩ found = none) :
        Search subroutines (⟨leaf l, labelled, path⟩ :: nodes) found result := h ▸ .gaveUp hstep
    cases l with
    | single t e => exact .next rfl h
    | literal ts v e =>
      cases ts with
      | nil => exact hnone h rfl
      | cons t ts => exact .next rfl h
    | call l b => exact hcall l b labelled nodes found h
    | _ => exact hnone h rfl
  | unary u p ih =>
    have hnone (h : result = none) (hstep : Pending.step subroutines ⟨unary u p, labelled, path⟩ found = none) :
        Search subroutines (⟨unary u p, labelled, path⟩ :: nodes) found result := h ▸ .gaveUp hstep
    cases u with
    | map | attempt | chunk | matchChunk => exact .next rfl (ih h)
    | label name =>
      apply Search.next rfl
      apply ih
      unfold leadWith at h
      cases hp : p.leadWith ofCall with
      | none =>
        rw [hp] at h
        exact h
      | some l =>
        rw [hp] at h
        have h : Search subroutines nodes (found.absorb labelled (l.label name)) result := h
        rw [absorb_label] at h
        exact h
    | lookAhead | notFollowedBy | many | guard => exact hnone h rfl
  | binary b p q ihp ihq =>
    cases b with
    | seq kind =>
      unfold leadWith at h
      apply Search.next rfl
      split at h
      · rename_i hpure
        simp only [if_pos hpure]
        exact ihq h
      · rename_i hpure
        simp only [if_neg hpure]
        exact ihp h
    | branch f => exact .next rfl (ihp h)
    | alt =>
      -- the search looks at the second only when it is through with the first
      apply Search.next rfl
      apply ihp
      unfold leadWith at h
      cases hp : p.leadWith ofCall with
      | none =>
        rw [hp] at h
        exact h
      | some l =>
        apply ihq
        rw [hp] at h
        cases hq : q.leadWith ofCall with
        | none =>
          rw [hq] at h
          exact h
        | some m =>
          rw [hq] at h
          show Search subroutines nodes ((found.absorb labelled l).absorb labelled m) result
          rw [absorb_or]
          exact h

end With

/-- A search follows calls as the analysis does: never into a subroutine that it has followed on the way, and no
deeper than the bound. -/
theorem search_of_leadFrom {steps : Nat} {path : List Nat} (hpath : steps + path.length = maxCallDepth)
    {p : Expr τ} {labelled : Bool} {nodes : List (Pending τ)} {found : Lead τ}
    (h : Continues subroutines nodes found labelled result (p.leadFrom subroutines steps path)) :
    Search subroutines (⟨p, labelled, path⟩ :: nodes) found result := by
  induction steps generalizing path p labelled nodes found with
  | zero =>
    apply search_of_leadWith _ h
    intro l b labelled nodes found hnone
    have hdeep : maxCallDepth ≤ path.length := by omega
    have hstep : Pending.step subroutines ⟨leaf (.call l b), labelled, path⟩ found = none :=
      if_pos (.inr hdeep)
    have hnone : result = none := hnone
    exact hnone ▸ .gaveUp hstep
  | succ steps ih =>
    apply search_of_leadWith _ h
    intro l b labelled nodes found h
    have hgaveUp (hnone : result = none)
        (hstep : Pending.step subroutines ⟨leaf (.call l b), labelled, path⟩ found = none) :
        Search subroutines (⟨leaf (.call l b), labelled, path⟩ :: nodes) found result := hnone ▸ .gaveUp hstep
    split at h
    · rename_i hmem
      exact hgaveUp h (if_pos (.inl hmem))
    · rename_i hmem
      have hfollows : ¬ (l ∈ path ∨ maxCallDepth ≤ path.length) := by
        rw [not_or]
        exact ⟨hmem, by omega⟩
      cases hs : subroutines[l]? with
      | none =>
        rw [hs] at h
        refine hgaveUp h ((if_neg hfollows).trans ?_)
        rw [hs]
        rfl
      | some s =>
        rw [hs] at h
        have hstep : Pending.step subroutines ⟨leaf (.call l b), labelled, path⟩ found =
            some ([⟨s.body, labelled, l :: path⟩], found) := by
          refine (if_neg hfollows).trans ?_
          rw [hs]
          rfl
        refine .next hstep (ih ?_ h)
        rw [List.length_cons]
        omega

/-- The search for the lead of an expression ends, and comes to the lead. -/
theorem search_lead (subroutines : Array (Subroutine τ)) (p : Expr τ) :
    Search subroutines [⟨p, false, []⟩] ⟨[], .empty⟩ (p.lead subroutines) := by
  apply search_of_leadFrom (Nat.add_zero maxCallDepth)
  cases h : p.lead subroutines with
  | none =>
    rw [show p.leadFrom subroutines maxCallDepth [] = none from h]
    rfl
  | some l =>
    rw [show p.leadFrom subroutines maxCallDepth [] = some l from h]
    show Search subroutines [] (Lead.or ⟨[], .empty⟩ l) (some l)
    rw [empty_or]
    have hdone : Search subroutines [] l (if l.tokens = [] then none else some l) := .done
    rwa [if_neg (tokens_ne_nil_of_leadFrom h)] at hdone

/-- The search comes to the lead and to nothing else. -/
theorem search_iff (subroutines : Array (Subroutine τ)) (p : Expr τ) (result : Option (Lead τ)) :
    Search subroutines [⟨p, false, []⟩] ⟨[], .empty⟩ result ↔ result = p.lead subroutines := by
  constructor
  · intro h
    exact h.unique (search_lead subroutines p)
  · intro h
    exact h ▸ search_lead subroutines p

end Expr

end ParserMachine

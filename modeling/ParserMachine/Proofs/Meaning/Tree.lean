import ParserMachine.Assembly.Generate
import ParserMachine.Proofs.Meaning.Reply
import ParserMachine.Proofs.Meaning.Tables

/-!
# What trees of parsers mean

A tree is evaluated to a depth: every call goes one deeper (`Expr.evalAt`). As in code generation the
alternatives of alternatives are one list (`Expr.choices`), because a dispatch table may choose among
all of them at once. Where no tables are used, an alternation is the binary form
(`Expr.run_alt_of_noTables`).
-/

namespace ParserMachine

variable {τ : Type} [Token τ]

/-- An alternative: what is known of its first token, and what it does. -/
structure Choice (τ : Type) [Token τ] where
  /-- The lead, if there is one. -/
  lead : Option (Lead τ)
  /-- What the alternative does. -/
  run : Run τ

namespace Run

/-- What comes after an alternative that a table chose and that failed in place. The other
alternatives of the table would fail as well; `after` is what the ones behind it expect. -/
def afterChosen (input : Array τ) (others : List (Run τ)) (after : ExpectedSet τ) : Run τ := fun r =>
  if others.isEmpty then some (.failed (r.errorHere input after) r)
  else inOrder others (if after.isEmpty then r else r.hint (.trivial r.offset none after))

/-- An alternative that a table chose. Where nothing is left to try or to report, its failure is
that of the whole. -/
def chosen (input : Array τ) (others : List (Run τ)) (after : ExpectedSet τ) (p : Run τ) : Run τ :=
  if others.isEmpty && after.isEmpty then p else p.orElse (afterChosen input others after)

/-- Alternatives of which a table chooses by the current token; `others` are tried in order after
those. -/
def byTable (input : Array τ) (table : List (Run τ × Lead τ)) (others : List (Run τ)) : Run τ :=
  fun r =>
    let leads := table.map Prod.snd
    match (r.current? input).bind fun t => (Dispatch.entries leads).lookup t with
    | some k =>
      match table[k]?, (Dispatch.before leads)[k]?, (Dispatch.after leads)[k]? with
      | some (p, _), some before, some after =>
        chosen input others after p
          (if before.isEmpty then r else r.hint (r.errorHere input before))
      | _, _, _ => none
    | none =>
      let all := r.errorHere input (Dispatch.all leads)
      if others.isEmpty then some (.failed all r) else inOrder others (r.hint all)

/-- Alternatives: by a table, if tables are used and at least two alternatives can be told apart by
their first token, else in order. -/
def ofChoices (tgt : Target τ) (input : Array τ) (alts : List (Choice τ)) : Run τ :=
  if tgt.options.dispatchTables then
    let (table, others) := Dispatch.sort Choice.lead alts
    if table.length < 2 then inOrder (alts.map Choice.run)
    else byTable input (table.map fun a => (a.1.run, a.2)) (others.map Choice.run)
  else inOrder (alts.map Choice.run)

end Run

/-- How the parts of a tree are evaluated. -/
structure Setting (τ : Type) [Token τ] where
  /-- Which code stands for alternatives, and the subroutines. -/
  target : Target τ
  /-- The input. -/
  input : Array τ
  /-- What calls do. -/
  ofCall : Nat → Run τ
  /-- How often a repetition is repeated at most. -/
  rounds : Nat

namespace Expr

/-- The alternatives of an expression, followed by others. An expression that is no alternation is
the only one. -/
def choices (x : Setting τ) : Expr τ → List (Choice τ) → List (Choice τ)
  | leaf l, rest => ⟨(leaf l).lead x.target.subroutines, l.run x.input x.ofCall⟩ :: rest
  | unary u p, rest =>
    ⟨(unary u p).lead x.target.subroutines,
      u.run x.input x.rounds (.ofChoices x.target x.input (choices x p []))⟩ :: rest
  | binary .alt p q, rest => choices x p (choices x q rest)
  | binary (.seq kind) p q, rest =>
    ⟨(seq kind p q).lead x.target.subroutines,
      Binary.run (.ofChoices x.target x.input (choices x p []))
        (.ofChoices x.target x.input (choices x q [])) (.seq kind)⟩ :: rest
  | binary (.branch f) p q, rest =>
    ⟨(binary (.branch f) p q).lead x.target.subroutines,
      Binary.run (.ofChoices x.target x.input (choices x p []))
        (.ofChoices x.target x.input (choices x q [])) (.branch f)⟩ :: rest

/-- What an expression does. -/
def run (x : Setting τ) (p : Expr τ) : Run τ := .ofChoices x.target x.input (p.choices x [])

/-- What an expression does, with calls followed less than `depth` deep. The rounds of a repetition
are limited too, but never below the number that one-token parsers may need. -/
def evalAt (tgt : Target τ) (input : Array τ) : Nat → Expr τ → Run τ
  | 0, _ => .never
  | depth + 1, p =>
    p.run
      { target := tgt
        input
        ofCall := fun l =>
          match tgt.subroutines[l]? with
          | some s => evalAt tgt input depth s.body
          | none => .never
        rounds := depth + input.size + 1 }

end Expr

/-! ### Forms -/

namespace Run

variable {tgt : Target τ} {input : Array τ}

theorem ofChoices_singleton (a : Choice τ) : ofChoices tgt input [a] = a.run := by
  unfold ofChoices
  split
  · have hlen : (Dispatch.sort Choice.lead [a]).1.length < 2 := by
      rw [Dispatch.sort, Dispatch.sortFrom_cons]
      cases a.lead with
      | none => exact Nat.zero_lt_two
      | some l =>
        dsimp only
        split
        · exact Nat.zero_lt_two
        · exact Nat.one_lt_two
    simp only [if_pos hlen]
    rfl
  · rfl

/-- Alternatives are tried in order, or a table of some of them chooses and leaves the others out. -/
theorem ofChoices_cases {P : Run τ → Prop} (tgt : Target τ) {alts : List (Choice τ)}
    (hinOrder : P (inOrder (alts.map Choice.run)))
    (hbyTable : ∀ (table : List (Choice τ × Lead τ)) (others : List (Choice τ)),
      (∀ x ∈ table, x.1 ∈ alts) → (∀ c ∈ others, c ∈ alts) →
      P (byTable input (table.map fun a => (a.1.run, a.2)) (others.map Choice.run))) :
    P (ofChoices tgt input alts) := by
  unfold ofChoices
  split
  · dsimp only
    split
    · exact hinOrder
    · exact hbyTable _ _ Dispatch.mem_of_mem_sortFrom.1 Dispatch.mem_of_mem_sortFrom.2
  · exact hinOrder

theorem ofChoices_of_noTables (h : tgt.options.dispatchTables = false) (alts : List (Choice τ)) :
    ofChoices tgt input alts = inOrder (alts.map Choice.run) := by
  unfold ofChoices
  rw [h]
  rfl

/-- Trying in order is the binary form, however the alternatives are grouped. -/
theorem inOrder_append {ps qs : List (Run τ)} (hp : ps ≠ []) (hq : qs ≠ []) :
    inOrder (ps ++ qs) = (inOrder ps).orElse (inOrder qs) := by
  induction ps with
  | nil => exact absurd rfl hp
  | cons p ps ih =>
    cases ps with
    | nil =>
      cases qs with
      | nil => exact absurd rfl hq
      | cons q qs => rfl
    | cons p' ps =>
      show p.orElse (inOrder (p' :: ps ++ qs)) = (p.orElse (inOrder (p' :: ps))).orElse (inOrder qs)
      rw [ih (List.cons_ne_nil _ _), orElse_assoc]

end Run

namespace Expr

variable (x : Setting τ)

theorem choices_ne_nil (p : Expr τ) (rest : List (Choice τ)) : p.choices x rest ≠ [] := by
  induction p generalizing rest with
  | leaf l => exact List.cons_ne_nil _ _
  | unary u p => exact List.cons_ne_nil _ _
  | binary b p q ihp ihq =>
    cases b with
    | alt => exact ihp _
    | _ => exact List.cons_ne_nil _ _

theorem choices_append (p : Expr τ) (rest rest' : List (Choice τ)) :
    p.choices x (rest ++ rest') = p.choices x rest ++ rest' := by
  induction p generalizing rest with
  | leaf l => rfl
  | unary u p => rfl
  | binary b p q ihp ihq =>
    cases b with
    | alt =>
      show p.choices x (q.choices x (rest ++ rest')) = p.choices x (q.choices x rest) ++ rest'
      rw [ihq, ihp]
    | _ => rfl

theorem choices_alt (p q : Expr τ) :
    (alt p q).choices x [] = p.choices x [] ++ q.choices x [] :=
  choices_append x p [] (q.choices x [])

@[simp] theorem run_leaf (l : Leaf τ) : (leaf l).run x = l.run x.input x.ofCall :=
  Run.ofChoices_singleton _

@[simp] theorem run_unary (u : Unary τ) (p : Expr τ) :
    (unary u p).run x = u.run x.input x.rounds (p.run x) := Run.ofChoices_singleton _

@[simp] theorem run_seq (kind : SeqKind τ) (p q : Expr τ) :
    (seq kind p q).run x = Binary.run (p.run x) (q.run x) (.seq kind) := Run.ofChoices_singleton _

@[simp] theorem run_branch (f : Value τ → Value τ → Value τ) (p q : Expr τ) :
    (binary (.branch f) p q).run x = Binary.run (p.run x) (q.run x) (.branch f) :=
  Run.ofChoices_singleton _

theorem run_alt_of_noTables (h : x.target.options.dispatchTables = false) (p q : Expr τ) :
    (alt p q).run x = Binary.run (p.run x) (q.run x) .alt := by
  unfold run
  rw [choices_alt, Run.ofChoices_of_noTables h, Run.ofChoices_of_noTables h,
    Run.ofChoices_of_noTables h, List.map_append]
  exact Run.inOrder_append (by simpa using choices_ne_nil x p [])
    (by simpa using choices_ne_nil x q [])

/-- Without tables an expression does what its outermost form does with what its parts do. -/
theorem run_binary_of_noTables (h : x.target.options.dispatchTables = false) (b : Binary τ)
    (p q : Expr τ) : (binary b p q).run x = b.run (p.run x) (q.run x) := by
  cases b with
  | alt => exact run_alt_of_noTables x h p q
  | seq kind => exact run_seq x kind p q
  | branch f => exact run_branch x f p q

/-! ### Depths -/

section Depth

variable {tgt : Target τ} {input : Array τ} {depth : Nat}

/-- What calls do, one deeper. -/
def callsAt (tgt : Target τ) (input : Array τ) (depth l : Nat) : Run τ :=
  match tgt.subroutines[l]? with
  | some s => s.body.evalAt tgt input depth
  | none => .never

theorem callsAt_of_getElem? {l : Nat} {s : Subroutine τ} (h : tgt.subroutines[l]? = some s) :
    callsAt tgt input depth l = s.body.evalAt tgt input depth := by
  unfold callsAt
  rw [h]

/-- What holds of the parser that never replies and of all bodies holds of calls. -/
theorem callsAt_induct {P : Run τ → Prop} (hnever : P .never)
    (hbody : ∀ s ∈ tgt.subroutines, P (s.body.evalAt tgt input depth)) (l : Nat) :
    P (callsAt tgt input depth l) := by
  unfold callsAt
  split
  · rename_i s hs
    exact hbody s (Array.mem_of_getElem? hs)
  · exact hnever

/-- How the parts of a tree are evaluated to a depth. -/
def settingAt (tgt : Target τ) (input : Array τ) (depth : Nat) : Setting τ :=
  ⟨tgt, input, callsAt tgt input depth, depth + input.size + 1⟩

theorem evalAt_leaf (l : Leaf τ) :
    (leaf l).evalAt tgt input (depth + 1) = l.run input (callsAt tgt input depth) := run_leaf _ l

theorem evalAt_unary (u : Unary τ) (p : Expr τ) :
    (unary u p).evalAt tgt input (depth + 1) =
      u.run input (depth + input.size + 1) (p.evalAt tgt input (depth + 1)) := run_unary _ u p

theorem evalAt_binary_of_noTables (h : tgt.options.dispatchTables = false) (b : Binary τ)
    (p q : Expr τ) :
    (binary b p q).evalAt tgt input (depth + 1) =
      b.run (p.evalAt tgt input (depth + 1)) (q.evalAt tgt input (depth + 1)) :=
  run_binary_of_noTables _ h b p q

end Depth

end Expr

end ParserMachine

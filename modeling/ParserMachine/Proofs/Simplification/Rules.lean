import Mathlib.Data.List.Forall2
import ParserMachine.Expr.Simplify
import ParserMachine.Proofs.Generation.Emission
import ParserMachine.Proofs.Meaning.Reply

/-!
# Rules of simplification

What simplification does to an expression, one rule at a time (`Expr.Rule`) and at any place, as often as
it likes (`Expr.Simplifies`). Chains are taken apart into steps: one that nests a chain to the right is
associativity, applied until it no longer matches. Whatever every rule respects, simplification
respects (`Bound.simplifies_of_optimize`).
-/

namespace ParserMachine

variable {τ : Type} [Token τ]

namespace Expr

/-- Whether the expression fails at once. -/
inductive IsFailing : Expr τ → Prop where
  /-- It says nothing. -/
  | empty : IsFailing empty
  /-- It fails on purpose. -/
  | fail (f : Failure) : IsFailing (fail f)

/-- The rules, applied at the outermost node. -/
inductive Rule : Expr τ → Expr τ → Prop where
  | mapPure (g : Value τ → Value τ) (v : Value τ) : Rule (map g (pure v)) (pure (g v))
  | mapMap (g f : Value τ → Value τ) (p : Expr τ) :
    Rule (map g (map f p)) (map (fun v => g (f v)) p)
  | mapFailing (g : Value τ → Value τ) {p : Expr τ} : p.IsFailing → Rule (map g p) p
  | lookAheadTwice (p : Expr τ) : Rule (lookAhead (lookAhead p)) (lookAhead p)
  | lookAheadPure (v : Value τ) : Rule (lookAhead (pure v)) (pure v)
  | deniedTwice (p : Expr τ) :
    Rule (notFollowedBy (notFollowedBy p)) (map (fun _ => .unit) (lookAhead p))
  | attemptAtomic {p : Expr τ} : p.facts.atomic = true → Rule (attempt p) p
  | labelTwice (name inner : Option String) (p : Expr τ) :
    Rule (label name (label inner p)) (label name p)
  | manyEmpty : Rule (many empty) (pure (.list #[]))
  | chunkPure (v : Value τ) : Rule (unary .chunk (pure v)) (pure (.chunk []))
  | seqFailing (kind : SeqKind τ) {p : Expr τ} (q : Expr τ) : p.IsFailing → Rule (seq kind p q) p
  | seqIdle (kind : SeqKind τ) {p q : Expr τ} : q.IsFailing → p.facts.isIdle = true →
    Rule (seq kind p q) q
  | dropFirst (v : Value τ) (q : Expr τ) : Rule (seq .right (pure v) q) q
  | dropSecond (p : Expr τ) (w : Value τ) : Rule (seq .left p (pure w)) p
  | mapFirst (kind : SeqKind τ) (v : Value τ) (q : Expr τ) :
    Rule (seq kind (pure v) q) (map (fun w => kind.value v w) q)
  | mapSecond (kind : SeqKind τ) (p : Expr τ) (w : Value τ) :
    Rule (seq kind p (pure w)) (map (fun v => kind.value v w) p)
  | nestLeft (p q s : Expr τ) : Rule (seq .left (seq .left p q) s) (seq .left p (seq .left q s))
  | nestRight (p q s : Expr τ) :
    Rule (seq .right (seq .right p q) s) (seq .right p (seq .right q s))
  | nestAlt (p q s : Expr τ) : Rule (alt (alt p q) s) (alt p (alt q s))
  | unnestAlt (p q s : Expr τ) : Rule (alt p (alt q s)) (alt (alt p q) s)
  | emptyFirst (q : Expr τ) : Rule (alt empty q) q
  | emptySecond (p : Expr τ) : Rule (alt p empty) p
  | settled {p : Expr τ} (q : Expr τ) : p.facts.canFail = false → Rule (alt p q) p
  | joinLookAheads (p q : Expr τ) :
    Rule (alt (lookAhead p) (lookAhead q)) (lookAhead (alt (attempt p) q))
  | joinDenied (p q : Expr τ) :
    Rule (alt (notFollowedBy p) (notFollowedBy q)) (notFollowedBy (seq .right (lookAhead p) q))

/-- Rules, applied at any place one after another. -/
inductive Simplifies : Expr τ → Expr τ → Prop where
  /-- No rule. -/
  | refl (p : Expr τ) : Simplifies p p
  /-- One rule at the outermost node. -/
  | rule {p q : Expr τ} : Rule p q → Simplifies p q
  /-- One after another. -/
  | trans {p q s : Expr τ} : Simplifies p q → Simplifies q s → Simplifies p s
  /-- In the part of a unary form. -/
  | unary (u : Unary τ) {p q : Expr τ} : Simplifies p q → Simplifies (unary u p) (unary u q)
  /-- In the parts of a binary form. -/
  | binary (b : Binary τ) {p q p' q' : Expr τ} : Simplifies p p' → Simplifies q q' →
    Simplifies (binary b p q) (binary b p' q')

namespace Noted

/-! ### Chains -/

/-- The form may be nested to the right. -/
def Associative (b : Binary τ) : Prop :=
  ∀ p q s : Expr τ, Rule (.binary b (.binary b p q) s) (.binary b p (.binary b q s))

section Chains

variable {b : Binary τ} {ps qs : List (Noted τ)} {p q r : Noted τ}

/-- Two chains become one. -/
theorem simplifies_append (hb : Associative b) (hp : ps ≠ []) (hq : qs ≠ []) :
    Simplifies (.binary b (rightNested b ps).expr (rightNested b qs).expr)
      (rightNested b (ps ++ qs)).expr := by
  induction ps with
  | nil => exact absurd rfl hp
  | cons p ps ih =>
    cases ps with
    | nil =>
      cases qs with
      | nil => exact absurd rfl hq
      | cons q qs => exact .refl _
    | cons p' ps =>
      have hrest := ih (List.cons_ne_nil _ _)
      exact (Simplifies.rule (hb _ _ _)).trans (.binary b (.refl _) hrest)

theorem operands_eq (joins : Binary τ → Bool) {f : Facts} (t : With τ f) (rest : List (Noted τ)) :
    t.operands joins rest = t.operands joins [] ++ rest := by
  induction t generalizing rest with
  | leaf l => rfl
  | unary u p => rfl
  | binary b p q ihp ihq =>
    unfold With.operands
    split
    · rw [ihp, ihq, ihp (With.operands joins q []), List.append_assoc]
    · rfl

theorem operands_ne_nil (joins : Binary τ → Bool) {f : Facts} (t : With τ f)
    (rest : List (Noted τ)) : t.operands joins rest ≠ [] := by
  induction t generalizing rest with
  | leaf l => exact List.cons_ne_nil _ _
  | unary u p => exact List.cons_ne_nil _ _
  | binary b p q ihp ihq =>
    unfold With.operands
    split
    · exact ihp _
    · exact List.cons_ne_nil _ _

/-- A chain of one form is nested to the right. -/
theorem simplifies_operands (hb : Associative b) {joins : Binary τ → Bool}
    (hjoins : ∀ b', joins b' = true → b' = b) {f : Facts} (t : With τ f) :
    t.expr.Simplifies (rightNested b (t.operands joins [])).expr := by
  induction t with
  | leaf l => exact .refl _
  | unary u p => exact .refl _
  | binary b' p q ihp ihq =>
    unfold With.operands
    split
    · rename_i h
      obtain rfl := hjoins b' h
      rw [operands_eq joins p]
      exact (Simplifies.binary b' ihp ihq).trans
        (simplifies_append hb (operands_ne_nil joins p []) (operands_ne_nil joins q []))
    · exact .refl _

/-- Two operands of one form are nested to the right as one chain. -/
theorem simplifies_chain (hb : Associative b) {joins : Binary τ → Bool}
    (hjoins : ∀ b', joins b' = true → b' = b) (p q : Noted τ) :
    Simplifies (.binary b p.expr q.expr)
      (rightNested b (p.operands joins (q.operands joins []))).expr := by
  unfold operands
  rw [operands_eq joins p.tree]
  have hparts := Simplifies.binary b (simplifies_operands hb hjoins p.tree)
    (simplifies_operands hb hjoins q.tree)
  exact hparts.trans (simplifies_append hb (operands_ne_nil joins _ _) (operands_ne_nil joins _ _))

/-- The end of a chain is simplified. -/
theorem simplifies_behind (xs : List (Noted τ)) (hps : ps ≠ []) (hqs : qs ≠ [])
    (h : (rightNested b ps).expr.Simplifies (rightNested b qs).expr) :
    (rightNested b (xs ++ ps)).expr.Simplifies (rightNested b (xs ++ qs)).expr := by
  induction xs with
  | nil => exact h
  | cons x xs ih =>
    have hcons {ys : List (Noted τ)} (hys : ys ≠ []) :
        (rightNested b (x :: (xs ++ ys))).expr =
          .binary b x.expr (rightNested b (xs ++ ys)).expr := by
      cases hxs : xs ++ ys with
      | nil => exact absurd (List.append_eq_nil_iff.1 hxs).2 hys
      | cons y ys => rfl
    rw [List.cons_append, List.cons_append, hcons hps, hcons hqs]
    exact .binary b (.refl _) ih

end Chains

/-! ### Alternatives -/

section Alternatives

variable {xs ys : List (Noted τ)} {p q r : Noted τ}

theorem associative_alt : Associative (τ := τ) .alt := Rule.nestAlt

theorem eq_alt_of_isAlt {b : Binary τ} (h : b.isAlt = true) : b = .alt := by
  cases b with
  | alt => rfl
  | _ => cases h

/-- An alternative that fails at once and says nothing is left out. -/
theorem simplifies_drop (hp : p.expr = .empty) :
    (rightNested .alt (xs ++ p :: ys)).expr.Simplifies (rightNested .alt (xs ++ ys)).expr := by
  cases ys with
  | cons y ys =>
    refine simplifies_behind xs (List.cons_ne_nil _ _) (List.cons_ne_nil _ _) ?_
    show Simplifies (.binary .alt p.expr _) _
    rw [hp]
    exact .rule (.emptyFirst _)
  | nil =>
    rw [List.append_nil]
    induction xs with
    | nil =>
      show p.expr.Simplifies .empty
      rw [hp]
      exact .refl _
    | cons x xs ih =>
      cases xs with
      | nil =>
        show Simplifies (.binary .alt x.expr p.expr) x.expr
        rw [hp]
        exact .rule (.emptySecond _)
      | cons x' xs => exact .binary .alt (.refl _) ih

/-- Two neighbours are joined. -/
theorem simplifies_join (h : Simplifies (.alt q.expr p.expr) r.expr) :
    (rightNested .alt (xs ++ q :: p :: ys)).expr.Simplifies
      (rightNested .alt (xs ++ r :: ys)).expr := by
  refine simplifies_behind xs (List.cons_ne_nil _ _) (List.cons_ne_nil _ _) ?_
  cases ys with
  | nil => exact h
  | cons y ys => exact (Simplifies.rule (.unnestAlt _ _ _)).trans (.binary .alt h (.refl _))

/-- Nothing follows an alternative that cannot fail. -/
theorem simplifies_cut (h : q.facts.canFail = false) :
    (rightNested .alt (xs ++ q :: ys)).expr.Simplifies (rightNested .alt (xs ++ [q])).expr := by
  refine simplifies_behind xs (List.cons_ne_nil _ _) (List.cons_ne_nil _ _) ?_
  cases ys with
  | nil => exact .refl _
  | cons y ys => exact .rule (.settled _ ((congrArg Facts.canFail q.facts_expr).trans h))

/-- Only look-aheads of one kind are joined. -/
theorem forms_of_joinLookAheads? (h : joinLookAheads? q p = some r) :
    (∃ x y : Expr τ, q.expr = .lookAhead x ∧ p.expr = .lookAhead y ∧
        r.expr = .lookAhead (.alt (.attempt x) y)) ∨
      ∃ x y : Expr τ, q.expr = .notFollowedBy x ∧ p.expr = .notFollowedBy y ∧
        r.expr = .notFollowedBy (.seq .right (.lookAhead x) y) := by
  obtain ⟨_, q⟩ := q
  obtain ⟨_, p⟩ := p
  cases q with
  | unary u q =>
    cases u with
    | lookAhead =>
      cases p with
      | unary u p =>
        cases u with
        | lookAhead =>
          cases h
          exact .inl ⟨_, _, rfl, rfl, rfl⟩
        | _ => cases h
      | _ => cases h
    | notFollowedBy =>
      cases p with
      | unary u p =>
        cases u with
        | notFollowedBy =>
          cases h
          exact .inr ⟨_, _, rfl, rfl, rfl⟩
        | _ => cases h
      | _ => cases h
    | _ => cases h
  | _ => cases h

theorem rule_of_joinLookAheads? (h : joinLookAheads? q p = some r) : Rule (.alt q.expr p.expr) r.expr := by
  rcases forms_of_joinLookAheads? h with ⟨x, y, hq, hp, hr⟩ | ⟨x, y, hq, hp, hr⟩
  · rw [hq, hp, hr]
    exact .joinLookAheads x y
  · rw [hq, hp, hr]
    exact .joinDenied x y

theorem simplifies_addAlternative (done : List (Noted τ)) (p : Noted τ) (rest : List (Noted τ)) :
    (rightNested .alt (done.reverse ++ p :: rest)).expr.Simplifies
      (rightNested .alt ((addAlternative done p).1.reverse ++ rest)).expr := by
  cases done with
  | nil => exact .refl _
  | cons q qs =>
    unfold addAlternative
    cases hjoin : joinLookAheads? q p with
    | none =>
      dsimp only
      rw [hjoin]
      dsimp only
      rw [List.reverse_cons (a := p), List.append_assoc]
      exact .refl _
    | some r =>
      dsimp only
      rw [hjoin]
      dsimp only
      rw [List.reverse_cons, List.reverse_cons, List.append_assoc, List.append_assoc]
      exact simplifies_join (.rule (rule_of_joinLookAheads? hjoin))

/-- What becomes of the next alternative. -/
theorem tidyAlternatives_cons (done : List (Noted τ)) (changed : Bool) (p : Noted τ)
    (rest : List (Noted τ)) :
    (p.expr = .empty ∧ tidyAlternatives done changed (p :: rest) = tidyAlternatives done true rest) ∨
      tidyAlternatives done changed (p :: rest) =
        if (addAlternative done p).1.head?.any fun q => !q.facts.canFail then
          ((addAlternative done p).1.reverse, changed || (addAlternative done p).2 || !rest.isEmpty)
        else tidyAlternatives (addAlternative done p).1 (changed || (addAlternative done p).2) rest := by
  obtain ⟨_, p⟩ := p
  cases p with
  | leaf l =>
    cases l with
    | empty => exact .inl ⟨rfl, rfl⟩
    | _ => exact .inr rfl
  | _ => exact .inr rfl

theorem simplifies_tidyAlternatives (ps done : List (Noted τ)) (changed : Bool) :
    (rightNested .alt (done.reverse ++ ps)).expr.Simplifies
      (rightNested .alt (tidyAlternatives done changed ps).1).expr := by
  induction ps generalizing done changed with
  | nil =>
    rw [List.append_nil]
    exact .refl _
  | cons p ps ih =>
    rcases tidyAlternatives_cons done changed p ps with ⟨hp, htidy⟩ | htidy
    · rw [htidy]
      exact (simplifies_drop hp).trans (ih done true)
    · rw [htidy]
      refine (simplifies_addAlternative done p ps).trans ?_
      split
      · rename_i hcut
        obtain ⟨q, hq, hfails⟩ := (Option.any_eq_true _ _).1 hcut
        obtain ⟨qs, hqs⟩ := List.head?_eq_some_iff.1 hq
        rw [hqs, List.reverse_cons, List.append_assoc]
        exact simplifies_cut (by simpa using hfails)
      · exact ih _ _

theorem simplifies_of_simplifyAlt? (h : simplifyAlt? p q = some r) :
    Simplifies (.alt p.expr q.expr) r.expr := by
  unfold simplifyAlt? at h
  dsimp only at h
  obtain ⟨-, hr⟩ := Option.ite_none_right_eq_some.1 h
  rw [← Option.some.inj hr]
  exact (simplifies_chain associative_alt (fun _ => eq_alt_of_isAlt) p q).trans
    (simplifies_tidyAlternatives _ [] _)

end Alternatives

/-! ### All rules -/

variable {p q r : Noted τ}

theorem isFailing_of_isFailing (h : p.isFailing = true) : p.expr.IsFailing := by
  obtain ⟨_, p⟩ := p
  cases p with
  | leaf l =>
    cases l with
    | empty => exact .empty
    | fail f => exact .fail f
    | _ => cases h
  | _ => cases h

theorem rule_of_simplifyUnary? {u : Unary τ} (h : simplifyUnary? u p = some r) :
    Rule (.unary u p.expr) r.expr := by
  have hfacts := p.facts_expr
  have hfailing := @isFailing_of_isFailing _ _ p
  obtain ⟨f, p⟩ := p
  cases u with
  | map g =>
    -- what fails at once is left as it is; of the rest only constants and functions have a rule
    have hfails (h : (if isFailing ⟨f, p⟩ then some ⟨f, p⟩ else none) = some r) :
        Rule (.unary (.map g) p.expr) r.expr := by
      obtain ⟨hfails, hr⟩ := Option.ite_none_right_eq_some.1 h
      rw [← Option.some.inj hr]
      exact .mapFailing g (hfailing hfails)
    cases p with
    | leaf l =>
      cases l with
      | pure v =>
        cases h
        exact .mapPure g v
      | _ => exact hfails h
    | unary u p =>
      cases u with
      | map f =>
        cases h
        exact .mapMap g f _
      | _ => exact hfails h
    | binary => exact hfails h
  | attempt =>
    have hite : (if f.atomic then some ⟨f, p⟩ else none) = some r := h
    obtain ⟨hatomic, hr⟩ := Option.ite_none_right_eq_some.1 hite
    rw [← Option.some.inj hr]
    exact .attemptAtomic ((congrArg Facts.atomic hfacts).trans hatomic)
  | lookAhead =>
    cases p with
    | leaf l =>
      cases l with
      | pure v =>
        cases h
        exact .lookAheadPure v
      | _ => cases h
    | unary u p =>
      cases u with
      | lookAhead =>
        cases h
        exact .lookAheadTwice _
      | _ => cases h
    | binary => cases h
  | notFollowedBy =>
    cases p with
    | unary u p =>
      cases u with
      | notFollowedBy =>
        cases h
        exact .deniedTwice _
      | _ => cases h
    | _ => cases h
  | label name =>
    cases p with
    | unary u p =>
      cases u with
      | label inner =>
        cases h
        exact .labelTwice name inner _
      | _ => cases h
    | _ => cases h
  | many =>
    cases p with
    | leaf l =>
      cases l with
      | empty =>
        cases h
        exact .manyEmpty
      | _ => cases h
    | _ => cases h
  | chunk =>
    cases p with
    | leaf l =>
      cases l with
      | pure v =>
        cases h
        exact .chunkPure v
      | _ => cases h
    | _ => cases h
  | matchChunk | guard => cases h

theorem expr_of_constant? {v : Value τ} (h : p.constant? = some v) : p.expr = .pure v := by
  obtain ⟨_, p⟩ := p
  cases p with
  | leaf l =>
    cases l with
    | pure w =>
      cases h
      rfl
    | _ => cases h
  | _ => cases h

theorem rule_of_foldConstant? {kind : SeqKind τ} (h : foldConstant? kind p q = some r) :
    Rule (.seq kind p.expr q.expr) r.expr := by
  unfold foldConstant? at h
  split at h
  · rename_i v hp
    cases h
    rw [expr_of_constant? hp]
    exact .dropFirst v _
  · rename_i w hq
    cases h
    rw [expr_of_constant? hq]
    exact .dropSecond _ w
  · rename_i v hp _
    cases h
    rw [expr_of_constant? hp]
    exact .mapFirst .left v _
  · rename_i w _ hq
    cases h
    rw [expr_of_constant? hq]
    exact .mapSecond .right _ w
  · rename_i f v hp
    cases h
    rw [expr_of_constant? hp]
    exact .mapFirst (.both f) v _
  · rename_i f w _ hq
    cases h
    rw [expr_of_constant? hq]
    exact .mapSecond (.both f) _ w
  · cases h

theorem simplifies_of_nestChain? {kind : SeqKind τ} (h : nestChain? kind p q = some r) :
    Simplifies (.seq kind p.expr q.expr) r.expr := by
  have hleft (b : Binary τ) (hb : b.keepsFirst = true) : b = .seq .left := by
    cases b with
    | seq kind => cases kind <;> first | rfl | cases hb
    | _ => cases hb
  have hright (b : Binary τ) (hb : b.keepsLast = true) : b = .seq .right := by
    cases b with
    | seq kind => cases kind <;> first | rfl | cases hb
    | _ => cases hb
  have hnested := simplifies_chain (τ := τ) Rule.nestLeft hleft p q
  have hnested' := simplifies_chain (τ := τ) Rule.nestRight hright p q
  obtain ⟨_, p⟩ := p
  cases kind with
  | both f => cases h
  | left =>
    cases p with
    | binary b p p' =>
      cases b with
      | seq kind =>
        cases kind with
        | left =>
          cases h
          exact hnested
        | _ => cases h
      | _ => cases h
    | _ => cases h
  | right =>
    cases p with
    | binary b p p' =>
      cases b with
      | seq kind =>
        cases kind with
        | right =>
          cases h
          exact hnested'
        | _ => cases h
      | _ => cases h
    | _ => cases h

theorem simplifies_of_simplifySeq? {chained : Bool} {kind : SeqKind τ}
    (h : simplifySeq? chained kind p q = some r) : Simplifies (.seq kind p.expr q.expr) r.expr := by
  unfold simplifySeq? at h
  split at h
  · rename_i hp
    cases h
    exact .rule (.seqFailing kind _ (isFailing_of_isFailing hp))
  · split at h
    · rename_i hq
      cases h
      obtain ⟨hq, hidle⟩ := Bool.and_eq_true_iff.1 hq
      exact .rule (.seqIdle kind (isFailing_of_isFailing hq)
        ((congrArg Facts.isIdle p.facts_expr).trans hidle))
    · split at h
      · rename_i hfold
        cases h
        exact .rule (rule_of_foldConstant? hfold)
      · split at h
        · cases h
        · exact simplifies_of_nestChain? h

/-- A step of simplification is made of rules. -/
theorem simplifies_of_simplify? {chained : Bool} (h : simplify? chained p = some r) :
    p.expr.Simplifies r.expr := by
  obtain ⟨_, p⟩ := p
  cases p with
  | leaf l => cases h
  | unary u p => exact .rule (rule_of_simplifyUnary? h)
  | binary b p q =>
    cases b with
    | seq kind => exact simplifies_of_simplifySeq? h
    | branch f => cases h
    | alt =>
      cases chained with
      | true => cases h
      | false => exact simplifies_of_simplifyAlt? h

theorem simplifies_of_settle {simplifying chained : Bool} {steps fired n : Nat}
    (h : settle simplifying chained steps p fired = .ok (r, n)) : p.expr.Simplifies r.expr := by
  induction steps generalizing p fired with
  | zero =>
    cases h
    exact .refl _
  | succ steps ih =>
    rw [settle] at h
    obtain ⟨-, -, h⟩ := bind_eq_ok_iff.1 h
    split at h
    · rename_i q hq
      have hstep : p.expr.Simplifies q.expr := by
        cases simplifying with
        | false => cases hq
        | true => exact simplifies_of_simplify? hq
      exact hstep.trans (ih h)
    · cases h
      exact .refl _

end Noted

/-! ### Passes -/

theorem simplifies_of_simplifyPass {simplifying chained : Bool} {p : Expr τ} {r : Noted τ} {n : Nat}
    (h : p.simplifyPass simplifying chained = .ok (r, n)) : p.Simplifies r.expr := by
  induction p generalizing chained r n with
  | leaf l =>
    cases h
    exact .refl _
  | unary u p ih =>
    rw [simplifyPass] at h
    obtain ⟨⟨p', fired⟩, hp, h⟩ := bind_eq_ok_iff.1 h
    exact (Simplifies.unary u (ih hp)).trans (Noted.simplifies_of_settle h)
  | binary b p q ihp ihq =>
    rw [simplifyPass] at h
    obtain ⟨⟨q', firedRight⟩, hq, h⟩ := bind_eq_ok_iff.1 h
    obtain ⟨⟨p', firedLeft⟩, hp, h⟩ := bind_eq_ok_iff.1 h
    exact (Simplifies.binary b (ihp hp) (ihq hq)).trans (Noted.simplifies_of_settle h)

end Expr

/-- A subroutine with a simplified body. -/
structure Subroutine.Simplifies (s s' : Subroutine τ) : Prop where
  /-- The body is simplified. -/
  body : s.body.Simplifies s'.body
  /-- It stays recursive or not. -/
  recursive : s'.recursive = s.recursive

namespace Bound

/-- Simplified trees. -/
structure Simplifies (b b' : Bound τ) : Prop where
  /-- The main expression is simplified. -/
  main : b.main.Simplifies b'.main
  /-- Each subroutine is simplified. -/
  subroutines : List.Forall₂ Subroutine.Simplifies b.subroutines b'.subroutines

theorem Simplifies.refl (b : Bound τ) : b.Simplifies b :=
  ⟨.refl _, List.forall₂_same.2 fun _ _ => ⟨.refl _, rfl⟩⟩

theorem Simplifies.trans {b b' b'' : Bound τ} (h : b.Simplifies b') (h' : b'.Simplifies b'') :
    b.Simplifies b'' := by
  have hss (ss ss' : List (Subroutine τ)) (h : List.Forall₂ Subroutine.Simplifies ss ss') :
      ∀ ss'', List.Forall₂ Subroutine.Simplifies ss' ss'' →
        List.Forall₂ Subroutine.Simplifies ss ss'' := by
    induction h with
    | nil => exact fun _ h => h
    | cons hs _ ih =>
      intro ss'' h'
      cases h' with
      | cons hs' h' =>
        exact .cons ⟨hs.body.trans hs'.body, hs'.recursive.trans hs.recursive⟩ (ih _ h')
  exact ⟨h.main.trans h'.main, hss _ _ h.subroutines _ h'.subroutines⟩

theorem simplifies_of_simplifySubroutines {simplifying : Bool} {ss ss' : List (Subroutine τ)} {n : Nat}
    (h : simplifySubroutines simplifying ss = .ok (ss', n)) :
    List.Forall₂ Subroutine.Simplifies ss ss' := by
  induction ss generalizing ss' n with
  | nil =>
    cases h
    exact .nil
  | cons s ss ih =>
    rw [simplifySubroutines] at h
    obtain ⟨⟨body, fired⟩, hbody, h⟩ := bind_eq_ok_iff.1 h
    obtain ⟨⟨rest, firedRest⟩, hrest, h⟩ := bind_eq_ok_iff.1 h
    cases h
    exact .cons ⟨Expr.simplifies_of_simplifyPass hbody, rfl⟩ (ih hrest)

theorem simplifies_of_simplifyPass {simplifying : Bool} {b b' : Bound τ} {n : Nat}
    (h : b.simplifyPass simplifying = .ok (b', n)) : b.Simplifies b' := by
  unfold simplifyPass at h
  obtain ⟨⟨main, fired⟩, hmain, h⟩ := bind_eq_ok_iff.1 h
  obtain ⟨⟨subroutines, firedRest⟩, hsubroutines, h⟩ := bind_eq_ok_iff.1 h
  cases h
  exact ⟨Expr.simplifies_of_simplifyPass hmain, simplifies_of_simplifySubroutines hsubroutines⟩

/-- All that simplification does to trees is made of rules. -/
theorem simplifies_of_optimize {o : Options} {b b' : Bound τ} (h : b.optimize o = .ok b') :
    b.Simplifies b' := by
  have hpasses (passes : Nat) (b : Bound τ) (h : b.optimizeFor o.optimize passes = .ok b') :
      b.Simplifies b' := by
    induction passes generalizing b with
    | zero =>
      cases h
      exact .refl _
    | succ passes ih =>
      rw [optimizeFor] at h
      obtain ⟨⟨b'', fired⟩, hpass, h⟩ := bind_eq_ok_iff.1 h
      have hfirst := simplifies_of_simplifyPass hpass
      dsimp only at h
      split at h
      · cases h
        exact hfirst
      · exact hfirst.trans (ih b'' h)
  exact hpasses o.passes b h

end Bound

end ParserMachine

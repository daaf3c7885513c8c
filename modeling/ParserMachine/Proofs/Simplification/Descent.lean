import Mathlib.Algebra.Order.Monoid.Prod
import Mathlib.Algebra.Order.Ring.Nat
import ParserMachine.Proofs.Simplification.Refusals

/-!
# Simplification comes to an end

Every rule that fires makes an expression lighter, or leaves its weight as it is and its chains less steep
(`Expr.Noted.lowers_of_simplify?`). Look-aheads weigh more than other forms, for those that are joined or denied
twice are replaced by others; the number of nodes never grows. So each pass in which some rule fires makes trees
smaller in a well-founded order, and with enough passes simplification ends at trees to which no rule applies
(`Bound.simplification_ends`).
-/

namespace ParserMachine

variable {τ : Type} [Token τ]

/-! ### The measure -/

/-- What a unary form weighs. A denial may become a look-ahead, and a look-ahead an attempt. -/
def Unary.weight : Unary τ → Nat
  | .notFollowedBy => 3
  | .lookAhead => 2
  | _ => 1

theorem Unary.weight_pos (u : Unary τ) : 0 < u.weight := by
  cases u <;> exact Nat.succ_pos _

namespace Expr

/-- How many nodes the tree has. -/
def size : Expr τ → Nat
  | leaf _ => 1
  | unary _ p => p.size + 1
  | binary _ p q => p.size + q.size + 1

/-- The weight of all nodes. -/
def weight : Expr τ → Nat
  | leaf _ => 1
  | unary u p => p.weight + u.weight
  | binary _ p q => p.weight + q.weight + 1

/-- How much lies to the left: the weight of every left operand. -/
def steepness : Expr τ → Nat
  | leaf _ => 0
  | unary _ p => p.steepness
  | binary _ p q => p.weight + p.steepness + q.steepness

/-- What rules make smaller: the weight, and where it stays the same, the steepness. -/
def measure (p : Expr τ) : ℕ ×ₗ ℕ := toLex (p.weight, p.steepness)

theorem measure_lt_iff {p q : Expr τ} :
    q.measure < p.measure ↔ q.weight < p.weight ∨ q.weight = p.weight ∧ q.steepness < p.steepness :=
  Prod.Lex.toLex_lt_toLex

theorem weight_pos (p : Expr τ) : 0 < p.weight := by
  cases p with
  | leaf l => exact Nat.one_pos
  | unary u p => exact Nat.lt_of_lt_of_le u.weight_pos (Nat.le_add_left _ _)
  | binary b p q => exact Nat.succ_pos _

/-- So many rules lead from one expression to another, which has no more nodes; unless there were none, it is
smaller. -/
structure Lowers (fired : Nat) (p q : Expr τ) : Prop where
  /-- It has no more nodes. -/
  size_le : q.size ≤ p.size
  /-- Without rules nothing changes. -/
  eq_of_none : fired = 0 → q = p
  /-- With rules it is smaller. -/
  lt_of_some : 0 < fired → q.measure < p.measure

variable {p p' q q' r : Expr τ} {n m : Nat}

theorem Lowers.refl (p : Expr τ) : Lowers 0 p p := ⟨Nat.le_refl _, fun _ => rfl, nofun⟩

theorem Lowers.trans (h : Lowers n p q) (h' : Lowers m q r) : Lowers (n + m) p r := by
  refine ⟨Nat.le_trans h'.size_le h.size_le, fun hnone => ?_, fun hsome => ?_⟩
  · rw [h'.eq_of_none (by omega), h.eq_of_none (by omega)]
  · rcases Nat.eq_zero_or_pos n with rfl | hn
    · rw [← h.eq_of_none rfl]
      exact h'.lt_of_some (by omega)
    · rcases Nat.eq_zero_or_pos m with rfl | hm
      · rw [h'.eq_of_none rfl]
        exact h.lt_of_some hn
      · exact lt_trans (h'.lt_of_some hm) (h.lt_of_some hn)

/-- With or without rules the weight does not grow, and where it stays the same, the steepness does not. -/
theorem Lowers.le (h : Lowers n p q) :
    q.weight < p.weight ∨ q.weight = p.weight ∧ q.steepness ≤ p.steepness := by
  rcases Nat.eq_zero_or_pos n with hn | hn
  · rw [h.eq_of_none hn]
    exact .inr ⟨rfl, Nat.le_refl _⟩
  · exact (measure_lt_iff.1 (h.lt_of_some hn)).imp_right fun h => ⟨h.1, Nat.le_of_lt h.2⟩

theorem Lowers.unary (u : Unary τ) (h : Lowers n p q) : Lowers n (.unary u p) (.unary u q) := by
  refine ⟨Nat.succ_le_succ h.size_le, fun hnone => by rw [h.eq_of_none hnone], fun hsome => ?_⟩
  have hpart := measure_lt_iff.1 (h.lt_of_some hsome)
  rw [measure_lt_iff, weight, weight, steepness, steepness]
  omega

theorem Lowers.binary (b : Binary τ) (hp : Lowers n p p') (hq : Lowers m q q') :
    Lowers (n + m) (.binary b p q) (.binary b p' q') := by
  refine ⟨?_, fun hnone => ?_, fun hsome => ?_⟩
  · have := hp.size_le
    have := hq.size_le
    rw [size, size]
    omega
  · rw [hp.eq_of_none (by omega), hq.eq_of_none (by omega)]
  · have hfirst := hp.le
    have hsecond := hq.le
    have hone : (0 < n ∧ p'.measure < p.measure) ∨ (0 < m ∧ q'.measure < q.measure) := by
      rcases Nat.eq_zero_or_pos n with hn | hn
      · have hm : 0 < m := by omega
        exact .inr ⟨hm, hq.lt_of_some hm⟩
      · exact .inl ⟨hn, hp.lt_of_some hn⟩
    rw [measure_lt_iff, measure_lt_iff] at hone
    rw [measure_lt_iff, weight, weight, steepness, steepness]
    omega

/-! ### Rules -/

/-- One rule, but for the one that nests alternatives to the left, makes an expression smaller. -/
theorem Rule.lowers (h : Rule p q) (hright : ∀ x y z : Expr τ, p ≠ alt x (alt y z)) : Lowers 1 p q := by
  refine ⟨?_, nofun, fun _ => measure_lt_iff.2 ?_⟩
  · cases h <;> simp only [size] <;> omega
  · cases h with
    | unnestAlt x y z => exact absurd rfl (hright x y z)
    | nestLeft x y z | nestRight x y z | nestAlt x y z =>
      right
      simp only [weight, steepness]
      have := x.weight_pos
      omega
    | _ =>
      left
      simp only [weight, Unary.weight]
      omega

namespace Noted

/-! ### Chains -/

section Chains

variable {b : Binary τ} {ps qs : List (Noted τ)} {p q r : Noted τ}

theorem expr_rightNested_cons (b : Binary τ) (p : Noted τ) (h : ps ≠ []) :
    (rightNested b (p :: ps)).expr = .binary b p.expr (rightNested b ps).expr := by
  cases ps with
  | nil => exact absurd rfl h
  | cons q ps => rfl

/-- A count that a binary form adds up, and adds one to, does not tell two chains from one. -/
theorem count_rightNested_append {count : Expr τ → Nat}
    (hcount : ∀ p q, count (.binary b p q) = count p + count q + 1) (hp : ps ≠ []) (hq : qs ≠ []) :
    count (rightNested b (ps ++ qs)).expr =
      count (rightNested b ps).expr + count (rightNested b qs).expr + 1 := by
  induction ps with
  | nil => exact absurd rfl hp
  | cons p ps ih =>
    cases ps with
    | nil =>
      rw [List.singleton_append, expr_rightNested_cons b p hq, hcount]
      rfl
    | cons p' ps =>
      have hrest := ih (List.cons_ne_nil _ _)
      rw [List.cons_append, expr_rightNested_cons b p (by simp), expr_rightNested_cons b p (by simp), hcount,
        hcount]
      omega

theorem size_rightNested_append (hp : ps ≠ []) (hq : qs ≠ []) :
    (rightNested b (ps ++ qs)).expr.size =
      (rightNested b ps).expr.size + (rightNested b qs).expr.size + 1 :=
  count_rightNested_append (fun _ _ => rfl) hp hq

theorem weight_rightNested_append (hp : ps ≠ []) (hq : qs ≠ []) :
    (rightNested b (ps ++ qs)).expr.weight =
      (rightNested b ps).expr.weight + (rightNested b qs).expr.weight + 1 :=
  count_rightNested_append (fun _ _ => rfl) hp hq

/-- One chain is no steeper than the form that joins two, and less steep if the first has several operands. -/
theorem steepness_rightNested_append (hp : ps ≠ []) (hq : qs ≠ []) :
    (rightNested b (ps ++ qs)).expr.steepness ≤ (rightNested b ps).expr.weight +
        (rightNested b ps).expr.steepness + (rightNested b qs).expr.steepness ∧
      (1 < ps.length → (rightNested b (ps ++ qs)).expr.steepness < (rightNested b ps).expr.weight +
        (rightNested b ps).expr.steepness + (rightNested b qs).expr.steepness) := by
  induction ps with
  | nil => exact absurd rfl hp
  | cons p ps ih =>
    cases ps with
    | nil =>
      rw [List.singleton_append, expr_rightNested_cons b p hq]
      exact ⟨Nat.le_refl _, fun h => absurd h (Nat.lt_irrefl 1)⟩
    | cons p' ps =>
      obtain ⟨hle, -⟩ := ih (List.cons_ne_nil _ _)
      rw [List.cons_append, expr_rightNested_cons b p (by simp), expr_rightNested_cons b p (by simp), steepness,
        steepness, weight]
      omega

/-- A tree and the chain of its operands, nested to the right. -/
theorem rightNested_operands (b : Binary τ) (joins : Binary τ → Bool) {f : Facts} (t : With τ f) :
    (rightNested b (t.operands joins [])).expr.size = t.expr.size ∧
      (rightNested b (t.operands joins [])).expr.weight = t.expr.weight ∧
      (rightNested b (t.operands joins [])).expr.steepness ≤ t.expr.steepness := by
  induction t with
  | leaf l => exact ⟨rfl, rfl, Nat.le_refl _⟩
  | unary u p => exact ⟨rfl, rfl, Nat.le_refl _⟩
  | binary b' p q ihp ihq =>
    unfold With.operands
    split
    · obtain ⟨hp₁, hp₂, hp₃⟩ := ihp
      obtain ⟨hq₁, hq₂, hq₃⟩ := ihq
      have hp := operands_ne_nil joins p []
      have hq := operands_ne_nil joins q []
      rw [operands_eq joins p, size_rightNested_append hp hq, weight_rightNested_append hp hq]
      obtain ⟨hle, -⟩ := steepness_rightNested_append (b := b) hp hq
      rw [With.expr, size, weight, steepness]
      omega
    · exact ⟨rfl, rfl, Nat.le_refl _⟩

/-- Several operands of a chain are nested to the right. -/
theorem lowers_chain (b : Binary τ) {joins : Binary τ → Bool} (p q : Noted τ) :
    (rightNested b (p.operands joins (q.operands joins []))).expr.size ≤ (Expr.binary b p.expr q.expr).size ∧
      (rightNested b (p.operands joins (q.operands joins []))).expr.weight = (Expr.binary b p.expr q.expr).weight ∧
      (1 < (p.operands joins []).length →
        Lowers 1 (.binary b p.expr q.expr) (rightNested b (p.operands joins (q.operands joins []))).expr) := by
  obtain ⟨hp₁, hp₂, hp₃⟩ := rightNested_operands b joins p.tree
  obtain ⟨hq₁, hq₂, hq₃⟩ := rightNested_operands b joins q.tree
  have hp := operands_ne_nil joins p.tree []
  have hq := operands_ne_nil joins q.tree []
  obtain ⟨-, hlt⟩ := steepness_rightNested_append (b := b) hp hq
  have happend : p.operands joins (q.operands joins []) = p.tree.operands joins [] ++ q.tree.operands joins [] :=
    operands_eq joins p.tree _
  have hsize : (rightNested b (p.tree.operands joins [] ++ q.tree.operands joins [])).expr.size =
      (Expr.binary b p.expr q.expr).size := by
    rw [size_rightNested_append hp hq, hp₁, hq₁]
    rfl
  have hweight : (rightNested b (p.tree.operands joins [] ++ q.tree.operands joins [])).expr.weight =
      (Expr.binary b p.expr q.expr).weight := by
    rw [weight_rightNested_append hp hq, hp₂, hq₂]
    rfl
  rw [happend]
  refine ⟨Nat.le_of_eq hsize, hweight, fun hlen => ⟨Nat.le_of_eq hsize, nofun, fun _ => ?_⟩⟩
  refine measure_lt_iff.2 (.inr ⟨hweight, Nat.lt_of_lt_of_le (hlt hlen) ?_⟩)
  rw [hp₂]
  exact Nat.add_le_add (Nat.add_le_add_left hp₃ _) hq₃

theorem one_lt_length_operands {joins : Binary τ → Bool} {f g : Facts} (p : With τ f) (q : With τ g)
    (h : joins b = true) : 1 < (With.operands joins (.binary b p q) []).length := by
  unfold With.operands
  rw [if_pos h, operands_eq joins p, List.length_append]
  have hp := List.length_pos_iff.2 (operands_ne_nil joins p [])
  have hq := List.length_pos_iff.2 (operands_ne_nil joins q [])
  omega

theorem lowers_of_nestChain? {kind : SeqKind τ} (h : nestChain? kind p q = some r) :
    Lowers 1 (.seq kind p.expr q.expr) r.expr := by
  obtain ⟨_, p⟩ := p
  cases kind with
  | both f => cases h
  | left =>
    cases p with
    | binary b x y =>
      cases b with
      | seq kind =>
        cases kind with
        | left =>
          cases h
          exact (lowers_chain (.seq .left) _ q).2.2 (one_lt_length_operands x y rfl)
        | _ => cases h
      | _ => cases h
    | _ => cases h
  | right =>
    cases p with
    | binary b x y =>
      cases b with
      | seq kind =>
        cases kind with
        | right =>
          cases h
          exact (lowers_chain (.seq .right) _ q).2.2 (one_lt_length_operands x y rfl)
        | _ => cases h
      | _ => cases h
    | _ => cases h

end Chains

/-! ### Alternatives -/

section Alternatives

variable {ps qs done : List (Noted τ)} {p q r : Noted τ}

/-- The nodes of alternatives, with one more for each. -/
def sizes (ps : List (Noted τ)) : Nat := (ps.map fun p => p.expr.size + 1).sum

/-- The weight of alternatives, with one more for each. -/
def weights (ps : List (Noted τ)) : Nat := (ps.map fun p => p.expr.weight + 1).sum

@[simp] theorem sizes_cons (p : Noted τ) (ps : List (Noted τ)) : sizes (p :: ps) = p.expr.size + 1 + sizes ps :=
  List.sum_cons

@[simp] theorem weights_cons (p : Noted τ) (ps : List (Noted τ)) :
    weights (p :: ps) = p.expr.weight + 1 + weights ps := List.sum_cons

@[simp] theorem sizes_append (ps qs : List (Noted τ)) : sizes (ps ++ qs) = sizes ps + sizes qs := by
  unfold sizes
  rw [List.map_append, List.sum_append]

@[simp] theorem weights_append (ps qs : List (Noted τ)) : weights (ps ++ qs) = weights ps + weights qs := by
  unfold weights
  rw [List.map_append, List.sum_append]

@[simp] theorem sizes_reverse (ps : List (Noted τ)) : sizes ps.reverse = sizes ps := by
  unfold sizes
  rw [List.map_reverse, List.sum_reverse]

@[simp] theorem weights_reverse (ps : List (Noted τ)) : weights ps.reverse = weights ps := by
  unfold weights
  rw [List.map_reverse, List.sum_reverse]

/-- The joining forms of a chain are as many as its operands but one. -/
theorem rightNested_sizes (b : Binary τ) (h : ps ≠ []) :
    (rightNested b ps).expr.size + 1 = sizes ps ∧ (rightNested b ps).expr.weight + 1 = weights ps := by
  induction ps with
  | nil => exact absurd rfl h
  | cons p ps ih =>
    cases ps with
    | nil => exact ⟨rfl, rfl⟩
    | cons q ps =>
      obtain ⟨hsize, hweight⟩ := ih (List.cons_ne_nil _ _)
      rw [expr_rightNested_cons b p (by simp), sizes_cons, weights_cons, size, weight]
      omega

/-- The second alternatives are the first ones, if nothing was changed, or they are lighter. -/
structure Tidied (changed : Bool) (ps qs : List (Noted τ)) : Prop where
  /-- They have no more nodes. -/
  sizes_le : sizes qs ≤ sizes ps
  /-- Unchanged ones are the same. -/
  eq_of_not : changed = false → qs = ps
  /-- Changed ones are lighter. -/
  lt_of_changed : changed = true → weights qs < weights ps

theorem Tidied.refl (ps : List (Noted τ)) : Tidied false ps ps := ⟨Nat.le_refl _, fun _ => rfl, nofun⟩

theorem Tidied.trans {changed changed' : Bool} {out : List (Noted τ)} (h : Tidied changed ps qs)
    (h' : Tidied changed' qs out) : Tidied (changed || changed') ps out := by
  refine ⟨Nat.le_trans h'.sizes_le h.sizes_le, fun hnot => ?_, fun hchanged => ?_⟩
  · obtain ⟨hfirst, hsecond⟩ := Bool.or_eq_false_iff.1 hnot
    rw [h'.eq_of_not hsecond, h.eq_of_not hfirst]
  · cases changed with
    | false =>
      rw [← h.eq_of_not rfl]
      exact h'.lt_of_changed hchanged
    | true =>
      have hfirst := h.lt_of_changed rfl
      cases changed' with
      | false => rwa [h'.eq_of_not rfl]
      | true => exact Nat.lt_trans (h'.lt_of_changed rfl) hfirst

/-- One alternative is left out. -/
theorem tidied_drop (xs ys : List (Noted τ)) (p : Noted τ) : Tidied true (xs ++ p :: ys) (xs ++ ys) := by
  refine ⟨?_, nofun, fun _ => ?_⟩
  · rw [sizes_append, sizes_append, sizes_cons]
    omega
  · rw [weights_append, weights_append, weights_cons]
    omega

/-- Two neighbours that are joined become one that is lighter. -/
theorem lighter_of_joinLookAheads? (h : joinLookAheads? q p = some r) :
    r.expr.size ≤ q.expr.size + p.expr.size + 1 ∧ r.expr.weight < q.expr.weight + p.expr.weight + 1 := by
  rcases forms_of_joinLookAheads? h with ⟨x, y, hq, hp, hr⟩ | ⟨x, y, hq, hp, hr⟩
  all_goals
    rw [hq, hp, hr]
    simp only [size, weight, Unary.weight]
    omega

/-- The next alternative is added to those before it. -/
theorem tidied_addAlternative (done : List (Noted τ)) (p : Noted τ) (rest : List (Noted τ)) :
    Tidied (addAlternative done p).2 (done.reverse ++ p :: rest)
      ((addAlternative done p).1.reverse ++ rest) := by
  cases done with
  | nil => exact .refl _
  | cons q qs =>
    unfold addAlternative
    cases hjoin : joinLookAheads? q p with
    | none =>
      dsimp only
      rw [hjoin]
      dsimp only
      rw [List.reverse_cons (a := p), List.append_assoc]
      exact .refl _
    | some r =>
      obtain ⟨hsize, hweight⟩ := lighter_of_joinLookAheads? hjoin
      dsimp only
      rw [hjoin]
      refine ⟨?_, nofun, fun _ => ?_⟩
      · simp only [sizes_append, sizes_reverse, sizes_cons]
        omega
      · simp only [weights_append, weights_reverse, weights_cons]
        omega

/-- Nothing follows an alternative that cannot fail. -/
theorem tidied_cut (xs ys : List (Noted τ)) : Tidied (!ys.isEmpty) (xs ++ ys) xs := by
  cases ys with
  | nil =>
    rw [List.append_nil]
    exact .refl xs
  | cons y ys =>
    refine ⟨?_, nofun, fun _ => ?_⟩
    · rw [sizes_append]
      omega
    · rw [weights_append, weights_cons]
      omega

/-- Going through alternatives leaves them as they are or makes them lighter, and says which. -/
theorem tidied_tidyAlternatives (ps done : List (Noted τ)) (changed : Bool) :
    ∃ c, (tidyAlternatives done changed ps).2 = (changed || c) ∧
      Tidied c (done.reverse ++ ps) (tidyAlternatives done changed ps).1 := by
  induction ps generalizing done changed with
  | nil =>
    refine ⟨false, (Bool.or_false _).symm, ?_⟩
    rw [List.append_nil]
    exact .refl _
  | cons p ps ih =>
    rcases tidyAlternatives_cons done changed p ps with ⟨-, htidy⟩ | htidy
    · rw [htidy]
      obtain ⟨c, hflag, htidied⟩ := ih done true
      refine ⟨true || c, ?_, (tidied_drop _ ps p).trans htidied⟩
      rw [hflag, Bool.true_or, Bool.or_true]
    · rw [htidy]
      have hadded := tidied_addAlternative done p ps
      split
      · exact ⟨_, Bool.or_assoc .., hadded.trans (tidied_cut _ ps)⟩
      · obtain ⟨c, hflag, htidied⟩ := ih (addAlternative done p).1 (changed || (addAlternative done p).2)
        exact ⟨_, hflag.trans (Bool.or_assoc ..), hadded.trans htidied⟩

theorem lowers_of_simplifyAlt? (h : simplifyAlt? p q = some r) :
    Lowers 1 (.binary .alt p.expr q.expr) r.expr := by
  obtain ⟨hsize, hweight, hchain⟩ := @lowers_chain τ _ .alt Binary.isAlt p q
  have hne : p.operands Binary.isAlt (q.operands Binary.isAlt []) ≠ [] := operands_ne_nil _ _ _
  unfold simplifyAlt? at h
  dsimp only at h
  generalize p.operands Binary.isAlt (q.operands Binary.isAlt []) = ps at hsize hweight hchain hne h
  obtain ⟨hsizes, hweights⟩ := rightNested_sizes .alt hne
  obtain ⟨hchanged, hr⟩ := Option.ite_none_right_eq_some.1 h
  obtain ⟨c, hflag, htidied⟩ := tidied_tidyAlternatives ps [] _
  rw [List.reverse_nil, List.nil_append] at htidied
  rw [hflag] at hchanged
  rw [← Option.some.inj hr]
  cases c with
  | true =>
    have hlighter := htidied.lt_of_changed rfl
    have hsmaller := htidied.sizes_le
    generalize (tidyAlternatives [] _ ps).1 = alts at hlighter hsmaller
    cases alts with
    | nil =>
      have hpos := p.expr.weight_pos
      refine ⟨Nat.succ_le_succ (Nat.zero_le _), nofun, fun _ => measure_lt_iff.2 (.inl ?_)⟩
      exact Nat.succ_lt_succ (Nat.lt_of_lt_of_le hpos (Nat.le_add_right _ _))
    | cons x xs =>
      obtain ⟨hsizes', hweights'⟩ := rightNested_sizes (.alt (τ := τ)) (List.cons_ne_nil x xs)
      exact ⟨by omega, nofun, fun _ => measure_lt_iff.2 (.inl (by omega))⟩
  | false =>
    rw [htidied.eq_of_not rfl]
    refine hchain ?_
    rw [Bool.or_false] at hchanged
    obtain ⟨_, p⟩ := p
    cases p with
    | binary b x y =>
      cases b with
      | alt => exact one_lt_length_operands x y rfl
      | _ => cases hchanged
    | _ => cases hchanged

end Alternatives

/-! ### All rules -/

variable {p q r : Noted τ}

theorem lowers_of_simplifySeq? {chained : Bool} {kind : SeqKind τ} (h : simplifySeq? chained kind p q = some r) :
    Lowers 1 (.seq kind p.expr q.expr) r.expr := by
  unfold simplifySeq? at h
  split at h
  · rename_i hp
    cases h
    exact (Rule.seqFailing kind q.expr (isFailing_of_isFailing hp)).lowers nofun
  · split at h
    · rename_i hq
      cases h
      obtain ⟨hq, hidle⟩ := Bool.and_eq_true_iff.1 hq
      exact (Rule.seqIdle kind (isFailing_of_isFailing hq)
        ((congrArg Facts.isIdle p.facts_expr).trans hidle)).lowers nofun
    · split at h
      · rename_i hfold
        cases h
        exact (rule_of_foldConstant? hfold).lowers nofun
      · split at h
        · cases h
        · exact lowers_of_nestChain? h

/-- A step of simplification makes an expression smaller. -/
theorem lowers_of_simplify? {chained : Bool} (h : simplify? chained p = some r) : Lowers 1 p.expr r.expr := by
  obtain ⟨_, p⟩ := p
  cases p with
  | leaf l => cases h
  | unary u p => exact (rule_of_simplifyUnary? h).lowers nofun
  | binary b p q =>
    cases b with
    | seq kind => exact lowers_of_simplifySeq? h
    | branch f => cases h
    | alt =>
      cases chained with
      | true => cases h
      | false => exact lowers_of_simplifyAlt? h

theorem lowers_of_settle {simplifying chained : Bool} {steps fired n : Nat}
    (h : settle simplifying chained steps p fired = .ok (r, n)) :
    ∃ k, n = fired + k ∧ Lowers k p.expr r.expr := by
  induction steps generalizing p fired with
  | zero =>
    cases h
    exact ⟨0, rfl, .refl _⟩
  | succ steps ih =>
    rw [settle] at h
    obtain ⟨-, -, h⟩ := bind_eq_ok_iff.1 h
    split at h
    · rename_i q hq
      have hstep : Lowers 1 p.expr q.expr := by
        cases simplifying with
        | false => cases hq
        | true => exact lowers_of_simplify? hq
      obtain ⟨k, hn, hrest⟩ := ih h
      exact ⟨1 + k, by omega, hstep.trans hrest⟩
    · cases h
      exact ⟨0, rfl, .refl _⟩

end Noted

/-! ### Passes -/

theorem lowers_of_simplifyPass {simplifying chained : Bool} {p : Expr τ} {r : Noted τ} {n : Nat}
    (h : p.simplifyPass simplifying chained = .ok (r, n)) : Lowers n p r.expr := by
  induction p generalizing chained r n with
  | leaf l =>
    cases h
    exact .refl _
  | unary u p ih =>
    rw [simplifyPass] at h
    obtain ⟨⟨p', fired⟩, hp, h⟩ := bind_eq_ok_iff.1 h
    obtain ⟨k, rfl, hlast⟩ := Noted.lowers_of_settle h
    exact ((ih hp).unary u).trans hlast
  | binary b p q ihp ihq =>
    rw [simplifyPass] at h
    obtain ⟨⟨q', firedRight⟩, hq, h⟩ := bind_eq_ok_iff.1 h
    obtain ⟨⟨p', firedLeft⟩, hp, h⟩ := bind_eq_ok_iff.1 h
    obtain ⟨k, rfl, hlast⟩ := Noted.lowers_of_settle h
    exact ((ihp hp).binary b (ihq hq)).trans hlast

end Expr

/-! ### Passes -/

namespace Bound

variable {simplifying : Bool} {b b' b'' : Bound τ} {ss ss' : List (Subroutine τ)} {n k : Nat}

/-- How many nodes all trees have. -/
def size (b : Bound τ) : Nat := b.main.size + (b.subroutines.map fun s => s.body.size).sum

/-- What rules make smaller in all trees together. -/
def measure (b : Bound τ) : ℕ ×ₗ ℕ := b.main.measure + (b.subroutines.map fun s => s.body.measure).sum

/-- The order of the measure has no infinite descent. -/
theorem wellFounded_measure : WellFounded fun b' b : Bound τ => b'.measure < b.measure :=
  InvImage.wf measure wellFounded_lt

/-- So many rules lead from trees to others, which have no more nodes; unless there were none, they are
smaller. -/
structure Lowers (fired : Nat) (b b' : Bound τ) : Prop where
  /-- They have no more nodes. -/
  size_le : b'.size ≤ b.size
  /-- Without rules nothing changes. -/
  eq_of_none : fired = 0 → b' = b
  /-- With rules they are smaller. -/
  lt_of_some : 0 < fired → b'.measure < b.measure

/-- Where one of two parts becomes smaller and the other one does too or stays, both together become smaller. -/
theorem add_lt_add_of_fired {x x' y y' : ℕ ×ₗ ℕ} (hnone : n = 0 → x' = x) (hsome : 0 < n → x' < x)
    (hnone' : k = 0 → y' = y) (hsome' : 0 < k → y' < y) (h : 0 < n + k) : x' + y' < x + y := by
  rcases Nat.eq_zero_or_pos n with hn | hn
  · rw [hnone hn]
    exact add_lt_add_right (hsome' (by omega)) x
  · rcases Nat.eq_zero_or_pos k with hk | hk
    · rw [hnone' hk]
      exact add_lt_add_left (hsome hn) y
    · exact add_lt_add (hsome hn) (hsome' hk)

theorem lowers_of_simplifySubroutines (h : simplifySubroutines simplifying ss = .ok (ss', n)) :
    (ss'.map fun s => s.body.size).sum ≤ (ss.map fun s => s.body.size).sum ∧ (n = 0 → ss' = ss) ∧
      (0 < n → (ss'.map fun s => s.body.measure).sum < (ss.map fun s => s.body.measure).sum) := by
  induction ss generalizing ss' n with
  | nil =>
    cases h
    exact ⟨Nat.le_refl _, fun _ => rfl, nofun⟩
  | cons s ss ih =>
    rw [simplifySubroutines] at h
    obtain ⟨⟨body, fired⟩, hbody, h⟩ := bind_eq_ok_iff.1 h
    obtain ⟨⟨rest, firedRest⟩, hrest, h⟩ := bind_eq_ok_iff.1 h
    cases h
    have hfirst := Expr.lowers_of_simplifyPass hbody
    obtain ⟨hsize, hnone, hsome⟩ := ih hrest
    simp only [List.map_cons, List.sum_cons]
    refine ⟨Nat.add_le_add hfirst.size_le hsize, fun h => ?_, ?_⟩
    · rw [hfirst.eq_of_none (by omega), hnone (by omega)]
    · exact add_lt_add_of_fired (fun h => congrArg Expr.measure (hfirst.eq_of_none h)) hfirst.lt_of_some
        (fun h => by rw [hnone h]) hsome

/-- A pass in which some rule fires makes trees smaller; another one leaves them as they are. -/
theorem lowers_of_simplifyPass (h : b.simplifyPass simplifying = .ok (b', n)) : Lowers n b b' := by
  unfold simplifyPass at h
  obtain ⟨⟨main, fired⟩, hmain, h⟩ := bind_eq_ok_iff.1 h
  obtain ⟨⟨subroutines, firedRest⟩, hsubroutines, h⟩ := bind_eq_ok_iff.1 h
  cases h
  have hfirst := Expr.lowers_of_simplifyPass hmain
  obtain ⟨hsize, hnone, hsome⟩ := lowers_of_simplifySubroutines hsubroutines
  refine ⟨Nat.add_le_add hfirst.size_le hsize, fun h => ?_, ?_⟩
  · rw [hfirst.eq_of_none (by omega), hnone (by omega)]
  · exact add_lt_add_of_fired (fun h => congrArg Expr.measure (hfirst.eq_of_none h)) hfirst.lt_of_some
      (fun h => by rw [hnone h]) hsome

/-- So many passes, in each of which some rule fires, lead from trees to others. -/
inductive Passes (simplifying : Bool) : Nat → Bound τ → Bound τ → Prop where
  /-- No pass. -/
  | none (b : Bound τ) : Passes simplifying 0 b b
  /-- One pass, and more after it. -/
  | cons {k fired : Nat} {b b' b'' : Bound τ} : b.simplifyPass simplifying = .ok (b', fired) → 0 < fired →
    Passes simplifying k b' b'' → Passes simplifying (k + 1) b b''

/-- No rule fires any more. -/
def Settled (simplifying : Bool) (b : Bound τ) : Prop := b.simplifyPass simplifying = .ok (b, 0)

/-- Enough passes end where no rule fires. -/
theorem Passes.optimizeFor_eq (h : Passes simplifying k b b') (hsettled : b'.Settled simplifying) {passes : Nat}
    (hpasses : k < passes) : b.optimizeFor simplifying passes = .ok b' := by
  induction h generalizing passes with
  | none b =>
    obtain ⟨passes, rfl⟩ := Nat.exists_eq_add_one.2 hpasses
    rw [optimizeFor, hsettled]
    rfl
  | cons hpass hfired _ ih =>
    obtain ⟨passes, rfl⟩ := Nat.exists_eq_add_one.2 (Nat.zero_lt_of_lt hpasses)
    rw [optimizeFor, hpass]
    show ite _ _ _ = _
    rw [if_neg (Nat.ne_of_gt hfired)]
    exact ih hsettled (Nat.lt_of_succ_lt_succ hpasses)

/-- What settles is not refused. -/
theorem Passes.optimizeFor_ne_error (h : Passes simplifying k b b') (hsettled : b'.Settled simplifying)
    (passes : Nat) (e : CompileError) : b.optimizeFor simplifying passes ≠ .error e := by
  intro he
  have hmore := optimizeFor_eq_error_mono (Nat.le_add_right passes (k + 1)) he
  rw [h.optimizeFor_eq hsettled (by omega)] at hmore
  cases hmore

/-- What is never refused settles after some passes. -/
theorem exists_passes (hnone : ∀ passes e, b.optimizeFor simplifying passes ≠ .error e) :
    ∃ k b', Passes simplifying k b b' ∧ b'.Settled simplifying := by
  induction b using (wellFounded_measure (τ := τ)).induction with
  | _ b ih =>
    cases hpass : b.simplifyPass simplifying with
    | error e =>
      refine absurd ?_ (hnone 1 e)
      rw [optimizeFor, hpass]
      rfl
    | ok result =>
      obtain ⟨b', fired⟩ := result
      have hlowers := lowers_of_simplifyPass hpass
      rcases Nat.eq_zero_or_pos fired with rfl | hfired
      · obtain rfl := hlowers.eq_of_none rfl
        exact ⟨0, _, .none _, hpass⟩
      · have hnext (passes : Nat) (e : CompileError) : b'.optimizeFor simplifying passes ≠ .error e := by
          have hfirst := hnone (passes + 1) e
          rw [optimizeFor, hpass] at hfirst
          change ite _ _ _ ≠ _ at hfirst
          rwa [if_neg (Nat.ne_of_gt hfired)] at hfirst
        obtain ⟨k, b'', hrest, hsettled⟩ := ih b' (hlowers.lt_of_some hfired) hnext
        exact ⟨k + 1, b'', .cons hpass hfired hrest, hsettled⟩

/-- Simplification ends. Every pass in which some rule fires makes trees smaller in a well-founded order, and no
pass adds nodes. So trees on which no repetition is refused, however many passes are allowed, settle: from some
number of allowed passes on, simplification makes the same few passes and ends because no rule fires any more,
and none fires when the result is simplified again. -/
theorem simplification_ends (o : Options) (b : Bound τ)
    (hnone : ∀ maxPasses name, b.optimize { o with maxPasses } ≠ .error (.nonConsumingRepeat name)) :
    (WellFounded fun c' c : Bound τ => c'.measure < c.measure) ∧
      (∀ (c c' : Bound τ) (fired : Nat), c.simplifyPass o.optimize = .ok (c', fired) →
        c'.size ≤ c.size ∧ (0 < fired → c'.measure < c.measure)) ∧
      ∃ N b', ∀ maxPasses, N ≤ maxPasses → b.optimize { o with maxPasses } = .ok b' ∧
        (∃ k < maxPasses, Passes o.optimize k b b') ∧ b'.simplifyPass o.optimize = .ok (b', 0) ∧
        b'.optimize { o with maxPasses } = .ok b' := by
  refine ⟨wellFounded_measure, fun c c' fired h => ?_, ?_⟩
  · exact ⟨(lowers_of_simplifyPass h).size_le, (lowers_of_simplifyPass h).lt_of_some⟩
  · obtain ⟨k, b', hpasses, hsettled⟩ := @exists_passes τ _ o.optimize b fun passes e he => by
      have hmore := optimizeFor_eq_error_mono (Nat.le_max_left passes 1) he
      obtain ⟨_, q', -, -, -, rfl⟩ := refuses_of_optimize (o := { o with maxPasses := passes }) hmore
      exact hnone passes q'.name hmore
    refine ⟨k + 1, b', fun maxPasses hle => ⟨?_, ⟨k, hle, hpasses⟩, hsettled, ?_⟩⟩
    · exact hpasses.optimizeFor_eq hsettled (Nat.lt_of_lt_of_le hle (Nat.le_max_left maxPasses 1))
    · exact (Passes.none b').optimizeFor_eq hsettled (Nat.le_max_right maxPasses 1)

/-- Letters before which one of two letters is looked for, each by a look-ahead of its own. -/
def letterAhead : Bound Char :=
  let a : Expr Char := .leaf (.single 'a' (ExpectedSet.tokens ['a']))
  let b : Expr Char := .leaf (.single 'b' (ExpectedSet.tokens ['b']))
  ⟨.many (.seq .right (.lookAhead (.alt (.lookAhead a) (.lookAhead b))) a), []⟩

/-- The same with one look-ahead. -/
def letterAheadOnce : Bound Char :=
  let a : Expr Char := .leaf (.single 'a' (ExpectedSet.tokens ['a']))
  let b : Expr Char := .leaf (.single 'b' (ExpectedSet.tokens ['b']))
  ⟨.many (.seq .right (.lookAhead (.alt a b)) a), []⟩

/-- The look-aheads are joined in one pass; the attempt that this makes is left out in the next one. -/
theorem letterAhead_passes : letterAhead.Passes true 2 letterAheadOnce :=
  .cons rfl Nat.two_pos (.cons rfl Nat.one_pos (.none _))

theorem settled_letterAheadOnce : letterAheadOnce.Settled true := rfl

/-- The look-aheads are joined, and then no rule fires any more. -/
theorem letterAhead_settles :
    (∀ maxPasses name,
        letterAhead.optimize { ({} : Options) with maxPasses } ≠ .error (.nonConsumingRepeat name)) ∧
      ∃ N b', ∀ maxPasses, N ≤ maxPasses →
        letterAhead.optimize { ({} : Options) with maxPasses } = .ok b' ∧ b'.Settled true := by
  have hnone (maxPasses : Nat) (name : String) :
      letterAhead.optimize { ({} : Options) with maxPasses } ≠ .error (.nonConsumingRepeat name) :=
    letterAhead_passes.optimizeFor_ne_error settled_letterAheadOnce _ _
  obtain ⟨-, -, N, b', hends⟩ := simplification_ends {} letterAhead hnone
  exact ⟨hnone, N, b', fun maxPasses hle => ⟨(hends maxPasses hle).1, (hends maxPasses hle).2.2.1⟩⟩

end Bound

end ParserMachine
